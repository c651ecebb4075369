import SqlTree.Proofs.Caching.Bodies
import SqlTree.Proofs.Composed.Tree
import SqlTree.Proofs.Grouping.Pruned
import SqlTree.Proofs.Markers.Collector

/-!
# SqlTree.Proofs.Filtered.Visible

Tests can be seen.  A draft is `Visible` if it is never written as white
space alone, whatever the dialect and the collector.  A test of any kind has
a visible draft: it starts with a reference, with a word or with a
parenthesis, or it is raw SQL or a template, which are never blank.  So a
group has a visible draft as soon as there is a test anywhere in it
(`Group.draft_visible`), and a clause is then its keyword and that draft
(`Clause.draft_visible`).  Without a test it comes to nothing
(`Clause.draft_of_not_hasTest`).
-/

namespace SqlTree

/-! ## Names between quotes -/

theorem mem_joinWith_of_mem {sep c : Char} {pieces : List (List Char)} {piece : List Char}
    (hpiece : piece ∈ pieces) (hc : c ∈ piece) : c ∈ joinWith sep pieces := by
  fun_induction joinWith sep pieces with
  | case1 => cases hpiece
  | case2 p => exact List.mem_singleton.1 hpiece ▸ hc
  | case3 p pieces _ ih =>
    rcases List.mem_cons.1 hpiece with rfl | hrest
    · exact List.mem_append_left _ hc
    · exact List.mem_append_right _ (List.mem_cons_of_mem _ (ih hrest))

/-- Cutting a name loses its dots only. -/
theorem exists_mem_segmentsFrom {left right c : Char} (hdot : c ≠ '.') {acc : List Char}
    {quoted : Bool} {cs : List Char} (hc : c ∈ acc ∨ c ∈ cs) :
    ∃ s ∈ segmentsFrom left right acc quoted cs, c ∈ s := by
  fun_induction segmentsFrom left right acc quoted cs with
  | case1 => simpa using hc
  | case2 acc x cs ih => exact ih (by simpa [or_assoc, or_left_comm] using hc)
  | case3 acc _ _ _ _ hopens ih => exact ih (by simpa [hopens.2] using hc)
  | case4 acc quoted cs _ _ ih =>
    rcases hc with hacc | hcs
    · exact ⟨_, List.mem_cons_self, List.mem_reverse.2 hacc⟩
    · obtain ⟨s, hs, hmem⟩ := ih (.inr ((List.mem_cons.1 hcs).resolve_left hdot))
      exact ⟨s, List.mem_cons_of_mem _ hs, hmem⟩
  | case5 acc quoted x cs _ _ _ ih => exact ih (by simpa [or_assoc, or_left_comm] using hc)

namespace Dialect

variable {d : Dialect} {name : String} {c : Char}

/-- Between quotes a name has its characters still. -/
theorem mem_quoteIdentifier_of_mem (hc : c ∈ name.toList) (hdot : c ≠ '.') :
    c ∈ (d.quoteIdentifier name).toList := by
  have hsegment : ∃ s ∈ segments d.leftQuote d.rightQuote name.toList, c ∈ s :=
    exists_mem_segmentsFrom hdot (.inr hc)
  obtain ⟨s, hs, hmem⟩ := hsegment
  rw [toList_quoteIdentifier]
  refine mem_joinWith_of_mem (List.mem_map_of_mem hs) ?_
  by_cases hstar : s = ['*']
  · rw [hstar, writtenSegment_star]
    exact hstar ▸ hmem
  · rw [writtenSegment_of_ne_star hstar]
    exact mem_withQuotes_of_mem hmem

theorem mem_quoteAlias_of_mem (hc : c ∈ name.toList) : c ∈ (d.quoteAlias name).toList := by
  rw [toList_quoteAlias]
  exact mem_withQuotes_of_mem hc

end Dialect

/-! ## Visible drafts -/

/-- The draft is never written as white space alone. -/
def Draft.Visible (p : Draft) : Prop := ∀ d c, isBlankText (p.text d c) = false

/-- A name starts with a word or is the star, and neither is blank. -/
theorem exists_mem_of_isName {name : String} (h : isName name = true) :
    ∃ c ∈ name.toList, isBlank c = false ∧ c ≠ '.' := by
  have hlist : isName (String.ofList name.toList) = true := by rwa [String.ofList_toList]
  rcases isName_cases hlist with hstar | ⟨c, cs, hcs, hc⟩
  · exact ⟨'*', by simp [hstar], by decide, by decide⟩
  · refine ⟨c, by simp [hcs], isBlank_of_isWordChar hc, ?_⟩
    rintro rfl
    exact absurd hc (by decide)

namespace Draft

namespace Visible

variable {p q : Draft}

theorem code {s : String} (h : isBlankText s = false) : (code s).Visible := fun _ _ => h

theorem raw {s : String} (h : isBlankText s = false) : (raw s).Visible := fun _ _ => h

theorem identifier (i : Identifier) : (identifier i).Visible := by
  intro d c
  obtain ⟨x, hx, hblank, hdot⟩ := exists_mem_of_isName i.isName_text
  exact isBlankText_eq_false_iff.2 ⟨x, Dialect.mem_quoteIdentifier_of_mem hx hdot, hblank⟩

theorem label (a : Alias) : (label a).Visible := by
  intro d c
  obtain ⟨x, hx, hblank, -⟩ := exists_mem_of_isName a.isName_text
  exact isBlankText_eq_false_iff.2 ⟨x, Dialect.mem_quoteAlias_of_mem hx, hblank⟩

/-- A marker starts with a question mark or a colon. -/
theorem value (b : Binding) : (value b).Visible := by
  intro d c
  rw [text_value, Collector.record]
  split
  · exact isBlankText_eq_false_iff.2 ⟨'?', by simp, by decide⟩
  · exact isBlankText_eq_false_iff.2 ⟨':', by simp [Collector.toList_markerOf], by decide⟩

theorem append_left (h : p.Visible) (q : Draft) : (p ++ q).Visible := by
  intro d c
  rw [text_append, isBlankText_append, h d c, Bool.false_and]

theorem append_right (p : Draft) (h : q.Visible) : (p ++ q).Visible := by
  intro d c
  rw [text_append, isBlankText_append, h d (p.after c), Bool.and_false]

theorem enclosed (p : Draft) : (enclosed p).Visible := .append_left (.code (by decide)) _

theorem ofReference (r : Reference) : (ofReference r).Visible := by
  cases r with
  | identifier i => exact .identifier i
  | «alias» a => exact .label a
  | literal l => exact .raw l.valid

/-- Most tests start with what they are about. -/
theorem after_reference (left : Reference) (p : Draft) : (Draft.ofReference left ++ p).Visible :=
  .append_left (.ofReference left) p

/-- What can be seen is not empty. -/
theorem isEmpty_eq_false (h : p.Visible) : p.isEmpty = false := by
  rw [Bool.eq_false_iff]
  intro hempty
  have hblank := h Dialect.ansi (.empty .named)
  rw [text_eq_empty_iff.2 hempty] at hblank
  cases hblank

/-! ### Shapes -/

theorem existence (negated : Bool) (p : Draft) : (existence negated p).Visible :=
  .append_left (.code (by cases negated <;> decide)) _

theorem inList (left : Reference) (negated : Bool) (ps : List Draft) (orNull : Bool) :
    (inList left negated ps orNull).Visible := by
  unfold Draft.inList
  split
  · exact .after_reference left _
  · split
    · exact .enclosed _
    · exact .after_reference left _

theorem following {ts : List (Connective × Draft)} (hne : ts ≠ []) : (following ts).Visible := by
  cases ts with
  | nil => exact absurd rfl hne
  | cons t ts =>
    obtain ⟨connective, p⟩ := t
    exact .append_left (.code (by cases connective <;> decide)) _

/-- Behind the first term there is a connective. -/
theorem terms {ts : List (Connective × Draft)} {t : Connective × Draft} (ht : t ∈ ts)
    (h : t.2.Visible) : (terms ts).Visible := by
  cases ts with
  | nil => cases ht
  | cons t' ts =>
    rcases List.mem_cons.1 ht with rfl | hrest
    · exact h.append_left _
    · exact .append_right _ (.following (List.ne_nil_of_mem hrest))

/-- A term that can be seen is not left out of a group. -/
theorem group (nested : Bool) {ts : List (Connective × Draft)} {t : Connective × Draft}
    (ht : t ∈ ts) (h : t.2.Visible) : (group nested ts).Visible := by
  have hlive : t ∈ live ts := List.mem_filter.2 ⟨ht, by rw [h.isEmpty_eq_false]; rfl⟩
  unfold Draft.group
  split
  · exact .enclosed _
  · exact .terms hlive h

end Visible

end Draft

/-! ## Templates -/

section

variable (k : Constructs)

theorem Filling.draft_visible (f : Filling) : Yields Draft.Visible (f.draft k) := by
  cases f with
  | value v =>
    rw [Filling.draft]
    exact .ok (.value _)
  | identifier i =>
    rw [Filling.draft]
    exact .ok (.identifier i)
  | «alias» a =>
    rw [Filling.draft]
    exact .ok (.label a)
  | literal l =>
    rw [Filling.draft]
    exact .ok (.raw l.valid)
  | subquery s =>
    rw [Filling.draft]
    exact Yields.map_any fun p => .enclosed p

theorem slotDrafts_visible (slots : List Slot) :
    ∀ slot ∈ slotDrafts k slots, Yields Draft.Visible slot.2 := by
  induction slots with
  | nil =>
    rw [slotDrafts]
    intro slot hslot
    cases hslot
  | cons slot slots ih =>
    obtain ⟨name, filling⟩ := slot
    rw [slotDrafts, List.forall_mem_cons]
    exact ⟨filling.draft_visible k, ih⟩

/-- A placeholder can be seen, be it filled or left as it is. -/
theorem piecesDraft_visible {slots : List (String × Except Error Draft)}
    (hslots : ∀ slot ∈ slots, Yields Draft.Visible slot.2) {parts : List Piece} {c : Char}
    (hmem : c ∈ parts.flatMap Piece.source) (hc : isBlank c = false) :
    Yields Draft.Visible (piecesDraft slots parts) := by
  induction parts with
  | nil => cases hmem
  | cons part parts ih =>
    rw [List.flatMap_cons, List.mem_append] at hmem
    cases part with
    | text cs =>
      rw [piecesDraft]
      rcases hmem with hhere | hrest
      · have htext : isBlankText (String.ofList cs) = false :=
          isBlankText_eq_false_iff.2 ⟨c, by simpa [Piece.source] using hhere, hc⟩
        exact Yields.bind_any fun q => .ok (.append_left (.raw htext) q)
      · exact (ih hrest).bind fun q hq => .ok (.append_right _ hq)
    | slot name =>
      have hafter {p : Draft} (hp : p.Visible) : Yields Draft.Visible
          (piecesDraft slots parts >>= fun after => .ok (p ++ after)) :=
        Yields.bind_any fun q => .ok (.append_left hp q)
      rw [piecesDraft]
      split
      · next plan hplan =>
        obtain ⟨before, after, hslot, -⟩ := List.lookup_eq_some_iff.1 hplan
        exact Yields.bind (hslots (_, plan)
          (hslot ▸ List.mem_append_right before List.mem_cons_self)) fun p hp => hafter hp
      · refine hafter (.raw (isBlankText_eq_false_iff.2 ⟨'\x7b', ?_, by decide⟩))
        simp [Piece.source]

/-- An expression can be seen, as its template is not blank. -/
theorem Expression.draft_visible (e : Expression) (h : e.Coherent) :
    Yields Draft.Visible (e.draft k) := by
  obtain ⟨template, slots⟩ := e
  rw [Expression.Coherent] at h
  obtain ⟨c, hmem, hc⟩ := isBlankText_eq_false_iff.1 (isBlankText_of_templateFault h.1)
  rw [← flatMap_source_pieces] at hmem
  rw [Expression.draft]
  exact piecesDraft_visible (slotDrafts_visible k slots) hmem hc

/-! ## Tests -/

mutual

/-- A test can be seen, and so can a group with a test in it. -/
theorem Predicate.draft_visible : (p : Predicate) → p.Coherent → p.hasTest = true →
    Yields Draft.Visible (p.draft k)
  | .comparison left op right, _, _ => by
    rw [Predicate.draft]
    exact Yields.map_any fun _ => .after_reference left _
  | .between left negated low high, _, _ => by
    rw [Predicate.draft]
    exact Yields.bind_any fun _ => Yields.bind_any fun _ => .ok (.after_reference left _)
  | .inValues left negated values orNull, _, _ => by
    rw [Predicate.draft]
    exact .ok (.inList left negated _ orNull)
  | .inSelect left negated s, _, _ => by
    rw [Predicate.draft]
    exact Yields.map_any fun _ => .after_reference left _
  | .like left negated pattern escape, _, _ => by
    rw [Predicate.draft]
    exact Yields.map_any fun _ => .after_reference left _
  | .truth left negated word, _, _ => by
    rw [Predicate.draft]
    exact .ok (.after_reference left _)
  | .existence negated s, _, _ => by
    rw [Predicate.draft]
    exact Yields.map_any fun p => .existence negated p
  | .quantified left op quantifier s, _, _ => by
    rw [Predicate.draft]
    exact Yields.map_any fun _ => .after_reference left _
  | .literal l, _, _ => by
    rw [Predicate.draft]
    exact .ok (.raw l.valid)
  | .expression e, hcoherent, _ => by
    rw [Predicate.Coherent] at hcoherent
    rw [Predicate.draft]
    exact e.draft_visible k hcoherent
  | .group g, hcoherent, htest => by
    rw [Predicate.Coherent] at hcoherent
    rw [Predicate.hasTest] at htest
    rw [Predicate.draft]
    exact g.draft_visible hcoherent htest

theorem termDrafts_visible : (terms : List Term) → TermsCoherent terms →
    termsHaveTest terms = true → Yields (fun ps => ∃ t ∈ ps, t.2.Visible) (termDrafts k terms)
  | [], _, htest => by
    rw [termsHaveTest] at htest
    cases htest
  | ⟨connective, p⟩ :: terms, hcoherent, htest => by
    rw [TermsCoherent] at hcoherent
    rw [termsHaveTest, Bool.or_eq_true] at htest
    rw [termDrafts]
    rcases htest with hhere | hrest
    · exact (p.draft_visible hcoherent.1 hhere).bind fun q hq =>
        Yields.bind_any fun _ => .ok ⟨(connective, q), List.mem_cons_self, hq⟩
    · exact Yields.bind_any fun _ =>
        (termDrafts_visible terms hcoherent.2 hrest).bind fun ps ⟨t, ht, hvisible⟩ =>
          .ok ⟨t, List.mem_cons_of_mem _ ht, hvisible⟩

theorem Group.draft_visible : (g : Group) → g.Coherent → g.hasTest = true →
    Yields Draft.Visible (g.draft k)
  | ⟨terms, _, _, nested, _⟩, hcoherent, htest => by
    rw [Group.Coherent] at hcoherent
    rw [Group.hasTest] at htest
    rw [Group.draft]
    exact (termDrafts_visible terms hcoherent.2 htest).map fun ps ⟨t, ht, hvisible⟩ =>
      .group nested ht hvisible

end

/-! ## Clauses -/

/-- There is a test in the clause. -/
def Clause.hasTest (c : Clause) : Bool :=
  match c.group? with
  | some g => g.hasTest
  | none => false

/-- A clause with a test in it is its keyword and what can be seen. -/
theorem Clause.draft_visible (c : Clause) (hcoherent : c.Coherent) (htest : c.hasTest = true) :
    Yields (fun q => ∃ p : Draft, p.Visible ∧ q = .code (c.kind.keyword ++ " ") ++ p)
      (c.draft k) := by
  obtain ⟨kind, _ | g⟩ := c
  · cases htest
  · rw [Clause.Coherent] at hcoherent
    rw [Clause.draft]
    refine (g.draft_visible k hcoherent htest).map fun p hp => ⟨p, hp, ?_⟩
    rw [Draft.clause, hp.isEmpty_eq_false, if_neg Bool.false_ne_true]

/-- A clause without a test in it comes to nothing. -/
theorem Clause.draft_of_not_hasTest (c : Clause) (htest : c.hasTest = false) :
    ∃ q, c.draft k = .ok q ∧ q.isEmpty = true := by
  obtain ⟨kind, _ | g⟩ := c
  · exact ⟨.code "", by rw [Clause.draft], rfl⟩
  · have hgroup : (Predicate.group g).hasTest = false := by rwa [Predicate.hasTest]
    obtain ⟨q, hq, hempty⟩ := Predicate.draft_of_not_hasTest k (.group g) hgroup
    rw [Predicate.draft] at hq
    refine ⟨Draft.clause kind q, ?_, ?_⟩
    · rw [Clause.draft, hq]
      rfl
    · rw [Draft.clause, if_pos hempty]
      rfl

end

end SqlTree
