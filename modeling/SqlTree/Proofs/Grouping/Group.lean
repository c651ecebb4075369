import SqlTree.Proofs.Grouping.Marks
import SqlTree.Proofs.Grouping.Pruned
import SqlTree.Proofs.Grouping.Sequence
import SqlTree.Proofs.Grouping.Test

/-!
# SqlTree.Proofs.Grouping.Group

A group is read as what it means.  The induction is on the tree: a test is
read as one test, and a group with a test in it as one condition, as it is
either one condition or stands between parentheses.  This takes groups that
are marked as nested wherever they stand in other groups (`Group.Marked`).
-/

namespace SqlTree

variable {d : Dialect}

/-! ## Texts of predicates -/

/-- A predicate with a draft is written as that. -/
theorem Predicate.sql_eq (hd : d.Shipped) {p : Predicate} (hp : p.Coherent) {q : Draft}
    (hq : p.draft d.constructs = .ok q) (c : Collector) :
    p.sql d c = q.text d c ∧ p.after d c = q.after c := by
  obtain ⟨hanswer, hcollector⟩ := Node.collector_compileInto (k := .predicate) (n := p) hd hp c
  have heffect : (Draft.scribe d).effect (Node.draft d.constructs .predicate p) c =
    .ok (q.text d c, q.after c) := by
    change (Draft.scribe d).effect (p.draft d.constructs) c = _
    rw [hq]
    rfl
  rw [heffect] at hanswer hcollector
  refine ⟨?_, hcollector⟩
  rw [Predicate.sql, show answer (Predicate.run d p c) = .ok (q.text d c) from hanswer]

/-! ## Reading -/

section Reading

variable (hd : d.Shipped) (hquotes : d.QuotesStandOut)
include hd hquotes

/-- A list with null in it is read as a list and a test for null. -/
theorem Predicate.nullList_conveys {left : Reference} (hraws : left.raws = []) (negated : Bool)
    (v : Value) (values : List Value) {q : Draft}
    (hq : Predicate.draft d.constructs (.inValues left negated (v :: values) true) = .ok q)
    (c : Collector) :
    Conveys d (q.text d c)
      (Predicate.testFormula d (.inValues left negated (v :: values) true) c) := by
  let list := Predicate.sql d (.inValues left negated (v :: values) false) c
  let null := Predicate.sql d (.truth left negated .null) c
  have hleft : Begins d (left.quoted d) false := (Steady.reference hquotes hraws).begins
  have hlist : list = inText (left.quoted d) negated
    (SqlTree.joined ", " (Draft.texts d ((v :: values).map fun v =>
      .value ⟨v, v.bindType, "in"⟩) c)) := by
    refine (Predicate.sql_eq hd (by simp only [Predicate.Coherent])
      (by rw [Predicate.draft]) c).1.trans ?_
    rw [Draft.text_inList]
    rfl
  have hnull : null = truthText (left.quoted d) negated .null := by
    refine (Predicate.sql_eq hd (by simp only [Predicate.Coherent])
      (by rw [Predicate.draft]) c).1.trans ?_
    rw [Draft.text_truth]
  have htext : q.text d c = enclosed
    (termsText [(.and, list), (if negated then .and else .or, null)]) := by
    rw [Predicate.draft] at hq
    cases hq
    rw [Draft.text_inList, hlist, hnull]
    cases negated <;>
      simp [inListText, Draft.texts, termsText, followingText, Connective.keyword,
        String.append_assoc]
  have hall : ConveyAll d [(.and, list), (if negated then .and else .or, null)]
      [(.and, .test list), (if negated then .and else .or, .test null)] := by
    refine .cons ⟨rfl, .test ?_⟩ (.cons ⟨rfl, .test ?_⟩ .nil)
    · rw [hlist]
      exact .inParentheses hquotes hleft negated (Draft.markers_balanced hquotes (v :: values) c)
    · rw [hnull]
      exact .truth hquotes hleft negated .null
  rw [htext]
  exact .enclosed hquotes hall (List.cons_ne_nil _ _)

/-- A test is read as what it means. -/
theorem Predicate.test_conveys {p : Predicate} (hp : p.Coherent) (hraws : p.raws = [])
    (hgroup : ∀ g, p ≠ .group g) {q : Draft} (hq : p.draft d.constructs = .ok q) (c : Collector) :
    Conveys d (q.text d c) (p.testFormula d c) := by
  by_cases hlist : ∃ left negated v values, p = .inValues left negated (v :: values) true
  · obtain ⟨left, negated, v, values, rfl⟩ := hlist
    rw [Predicate.raws] at hraws
    exact Predicate.nullList_conveys hd hquotes hraws negated v values hq c
  · have hformula : p.testFormula d c = .test (q.text d c) := by
      rw [← (p.sql_eq hd hp hq c).1]
      unfold testFormula
      split
      · next left negated v values => exact absurd ⟨left, negated, v, values, rfl⟩ hlist
      · rfl
    rw [hformula]
    refine .test (Predicate.draft_begins hquotes hd.plain hraws hgroup ?_ q hq c)
    exact fun left negated v values h => hlist ⟨left, negated, v, values, h⟩

omit hd hquotes in
/-- Only what is live is written. -/
theorem text_group_live (nested : Bool) (ps : List (Connective × Draft)) (c : Collector) :
    (Draft.group nested ps).text d c =
      if nested ∧ 1 < (Draft.termTexts d (Draft.live ps) c).length then
        enclosed (termsText (Draft.termTexts d (Draft.live ps) c))
      else termsText (Draft.termTexts d (Draft.live ps) c) := by
  rw [Draft.text_group, groupText, ← Draft.termTexts_live]

omit hd hquotes in
theorem termFormulas_ne_nil {terms : List Term} (h : termsHaveTest terms = true) (c : Collector) :
    termFormulas d terms c ≠ [] := by
  induction terms generalizing c with
  | nil =>
    rw [termsHaveTest] at h
    cases h
  | cons t terms ih =>
    obtain ⟨connective, p⟩ := t
    rw [termsHaveTest, Bool.or_eq_true] at h
    rw [termFormulas]
    split
    · exact List.cons_ne_nil _ _
    · next hp => exact ih (h.resolve_left hp) _

set_option linter.unusedSectionVars false in
mutual

/-- A predicate with a test in it is read as what it means, as one
condition. -/
theorem Predicate.conveys :
    (p : Predicate) → p.Marked → p.Coherent → p.raws = [] → p.hasTest = true →
    ∀ q, p.draft d.constructs = .ok q → ∀ c, Conveys d (q.text d c) (p.formula d c)
  | .group ⟨terms, default, pending, nested, cache⟩, hmarked, hp, hraws, htest, q, hq, c => by
    rw [Predicate.Marked, Group.Marked] at hmarked
    rw [Predicate.Coherent, Group.Coherent] at hp
    rw [Predicate.raws, Group.raws] at hraws
    rw [Predicate.hasTest, Group.hasTest] at htest
    rw [Predicate.draft, Group.draft] at hq
    rw [Predicate.formula, Group.formula]
    rw [map_eq_pure_bind] at hq
    obtain ⟨ps, hps, hq⟩ := exists_of_bind_eq_ok hq
    cases hq
    obtain ⟨rfl, hterms⟩ := hmarked
    have hall := terms_convey terms hterms hp.2 hraws ps hps c
    have hne : Draft.termTexts d (Draft.live ps) c ≠ [] := by
      intro hnil
      rw [hnil] at hall
      cases hformulas : termFormulas d terms c with
      | nil => exact termFormulas_ne_nil htest c hformulas
      | cons f fs => rw [hformulas] at hall; cases hall
    rw [text_group_live]
    simpa only [true_and] using Conveys.unit hquotes hall hne
  | .comparison .., _, hp, hraws, _, q, hq, c | .between .., _, hp, hraws, _, q, hq, c
  | .inValues .., _, hp, hraws, _, q, hq, c | .inSelect .., _, hp, hraws, _, q, hq, c
  | .like .., _, hp, hraws, _, q, hq, c | .truth .., _, hp, hraws, _, q, hq, c
  | .existence .., _, hp, hraws, _, q, hq, c | .quantified .., _, hp, hraws, _, q, hq, c
  | .literal _, _, hp, hraws, _, q, hq, c | .expression _, _, hp, hraws, _, q, hq, c => by
    simpa only [Predicate.formula] using Predicate.test_conveys hd hquotes hp hraws
      (fun _ h => nomatch h) hq c

theorem terms_convey :
    (terms : List Term) → TermsMarked terms → TermsCoherent terms → termRaws terms = [] →
    ∀ ps, termDrafts d.constructs terms = .ok ps → ∀ c,
      ConveyAll d (Draft.termTexts d (Draft.live ps) c) (termFormulas d terms c)
  | [], _, _, _, ps, hps, c => by
    rw [termDrafts] at hps
    cases hps
    rw [termFormulas]
    exact .nil
  | ⟨connective, p⟩ :: terms, hmarked, hcoherent, hraws, ps, hps, c => by
    rw [TermsMarked] at hmarked
    rw [TermsCoherent] at hcoherent
    rw [termRaws, List.append_eq_nil_iff] at hraws
    rw [termDrafts] at hps
    obtain ⟨q, hq, hps⟩ := exists_of_bind_eq_ok hps
    obtain ⟨ps, hterms, hps⟩ := exists_of_bind_eq_ok hps
    cases hps
    have hrest := terms_convey terms hmarked.2 hcoherent.2 hraws.2 ps hterms
    obtain ⟨-, hafter⟩ := p.sql_eq hd hcoherent.1 hq c
    rw [termFormulas, hafter]
    by_cases htest : p.hasTest = true
    · have hp := p.conveys hmarked.1 hcoherent.1 hraws.1 htest q hq c
      have hlive : Draft.live ((connective, q) :: ps) = (connective, q) :: Draft.live ps :=
        List.filter_cons_of_pos (by simpa using mt Draft.text_eq_empty_iff.2 hp.ne_empty)
      rw [if_pos htest, hlive, Draft.termTexts]
      exact .cons ⟨rfl, hp⟩ (hrest _)
    · obtain ⟨q', hq', hempty⟩ := p.draft_of_not_hasTest d.constructs (Bool.eq_false_iff.2 htest)
      rw [hq] at hq'
      cases hq'
      have hlive : Draft.live ((connective, q) :: ps) = Draft.live ps :=
        List.filter_cons_of_neg (by simp [hempty])
      rw [if_neg htest, hlive, Draft.after_of_bindings_eq_nil (Draft.bindings_of_isEmpty hempty)]
      exact hrest c

end

/-- A group is read as what it means. -/
theorem Group.readCondition_draft : (g : Group) → g.Marked → g.Coherent → g.raws = [] → ∀ q,
    g.draft d.constructs = .ok q → ∀ c, readCondition d (q.text d c) = some (g.formula d c)
  | ⟨terms, default, pending, nested, cache⟩, hmarked, hg, hraws, q, hq, c => by
    rw [Group.Marked] at hmarked
    rw [Group.Coherent] at hg
    rw [Group.raws] at hraws
    rw [Group.draft, map_eq_pure_bind] at hq
    obtain ⟨ps, hps, hq⟩ := exists_of_bind_eq_ok hq
    cases hq
    have hall := terms_convey hd hquotes terms hmarked hg.2 hraws ps hps c
    rw [Group.formula, text_group_live]
    split
    · next hmany =>
      have hne : Draft.termTexts d (Draft.live ps) c ≠ [] := List.ne_nil_of_length_pos (by omega)
      exact (Conveys.enclosed hquotes hall hne).readCondition_eq hquotes
    · exact readCondition_termsText hquotes hall

end Reading

end SqlTree
