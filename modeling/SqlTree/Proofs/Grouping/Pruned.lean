import SqlTree.Proofs.Caching.Coherent
import SqlTree.Proofs.Grouping.Formula

/-!
# SqlTree.Proofs.Grouping.Pruned

Groups without a test leave no trace.  Such a group has an empty draft, so
a group without the ones in it has the same draft (`Group.draft_pruned`), and
whatever is kept in it is still right (`Group.coherent_pruned`).
-/

namespace SqlTree

variable (k : Constructs)

/-! ## Drafts -/

mutual

/-- A predicate without a test has an empty draft. -/
theorem Predicate.draft_of_not_hasTest : (p : Predicate) → p.hasTest = false →
    ∃ q, p.draft k = .ok q ∧ q.isEmpty = true
  | .group ⟨terms, _, _, nested, _⟩, h => by
    rw [Predicate.hasTest, Group.hasTest] at h
    obtain ⟨ps, hps, hlive⟩ := termDrafts_of_not_haveTest terms h
    refine ⟨Draft.group nested ps, ?_, ?_⟩
    · rw [Predicate.draft, Group.draft, hps]
      rfl
    · rw [Draft.group, hlive, if_neg (by simp)]
      rfl
  | .comparison .., h | .between .., h | .inValues .., h | .inSelect .., h | .like ..,
      h | .truth .., h
  | .existence .., h | .quantified .., h | .literal _, h | .expression _, h => by
    simp [Predicate.hasTest] at h

theorem termDrafts_of_not_haveTest : (terms : List Term) → termsHaveTest terms = false →
    ∃ ps, termDrafts k terms = .ok ps ∧ Draft.live ps = []
  | [], _ => ⟨[], by rw [termDrafts], rfl⟩
  | ⟨connective, p⟩ :: terms, h => by
    rw [termsHaveTest, Bool.or_eq_false_iff] at h
    obtain ⟨q, hq, hempty⟩ := p.draft_of_not_hasTest h.1
    obtain ⟨ps, hps, hlive⟩ := termDrafts_of_not_haveTest terms h.2
    refine ⟨(connective, q) :: ps, ?_, ?_⟩
    · rw [termDrafts, hq, hps]
      rfl
    · rw [Draft.live, List.filter_cons_of_neg (by simp [hempty])]
      exact hlive

end

/-- What is empty does not count. -/
theorem Draft.group_live (nested : Bool) (ts : List (Connective × Draft)) :
    Draft.group nested (Draft.live ts) = Draft.group nested ts := by
  have hlive : Draft.live (Draft.live ts) = Draft.live ts := by
    rw [Draft.live, Draft.live, List.filter_filter]
    simp only [Bool.and_self]
  rw [Draft.group, Draft.group, hlive]

theorem live_termDrafts_cons (connective : Connective) (p : Predicate) (terms : List Term) :
    Draft.live <$> termDrafts k (⟨connective, p⟩ :: terms) =
      p.draft k >>= fun q => (Draft.live [(connective, q)] ++ ·) <$>
        (Draft.live <$> termDrafts k terms) := by
  rw [termDrafts]
  cases p.draft k with
  | error e => rfl
  | ok q =>
    cases termDrafts k terms with
    | error e => rfl
    | ok ps =>
      have hcons : Draft.live ((connective, q) :: ps) = Draft.live [(connective, q)] ++
        Draft.live ps := by
        rw [← List.singleton_append, Draft.live, List.filter_append]
        rfl
      exact congrArg Except.ok hcons

mutual

/-- A predicate without its groups that have no test has the same draft. -/
theorem Predicate.draft_pruned : (p : Predicate) → p.pruned.draft k = p.draft k
  | .group ⟨terms, default, pending, nested, _⟩ => by
    have hgroup : (Draft.group nested ∘ Draft.live) = Draft.group nested :=
      funext (Draft.group_live nested)
    have hterms := congrArg (Functor.map (Draft.group nested)) (live_termDrafts_prunedTerms terms)
    rw [← comp_map, ← comp_map, hgroup] at hterms
    rw [Predicate.pruned, Group.pruned, Predicate.draft, Predicate.draft, Group.draft, Group.draft]
    exact hterms
  | .comparison .. | .between .. | .inValues .. | .inSelect .. | .like .. | .truth .. |
      .existence ..
  | .quantified .. | .literal _ | .expression _ => by rw [Predicate.pruned]; simp

theorem live_termDrafts_prunedTerms : (terms : List Term) →
    Draft.live <$> termDrafts k (prunedTerms terms) = Draft.live <$> termDrafts k terms
  | [] => by rw [prunedTerms]
  | ⟨connective, p⟩ :: terms => by
    have ih := live_termDrafts_prunedTerms terms
    rw [prunedTerms]
    split
    · rw [live_termDrafts_cons, live_termDrafts_cons, p.draft_pruned, ih]
    · next htest =>
      obtain ⟨q, hq, hempty⟩ := p.draft_of_not_hasTest k (Bool.eq_false_iff.2 htest)
      have hlive : Draft.live [(connective, q)] = [] := List.filter_cons_of_neg (by simp [hempty])
      have hkept : Draft.live <$> termDrafts k (⟨connective, p⟩ :: terms) = Draft.live <$>
        termDrafts k terms := by
        rw [live_termDrafts_cons, hq]
        change (Draft.live [(connective, q)] ++ ·) <$> (Draft.live <$> termDrafts k terms) = _
        rw [hlive]
        exact id_map _
      rw [hkept, ih]

end

theorem Group.draft_pruned (g : Group) : g.pruned.draft k = g.draft k := by
  have h := Predicate.draft_pruned k (.group g)
  rwa [Predicate.pruned, Predicate.draft, Predicate.draft] at h

/-! ## Kept texts -/

mutual

theorem Predicate.coherent_pruned : (p : Predicate) → p.Coherent → p.pruned.Coherent
  | .group g, h => by
    rw [Predicate.Coherent] at h
    rw [Predicate.pruned, Predicate.Coherent]
    exact g.coherent_pruned h
  | .comparison .., h | .between .., h | .inValues .., h | .inSelect .., h | .like ..,
      h | .truth .., h
  | .existence .., h | .quantified .., h | .literal _, h | .expression _, h => by
    simpa only [Predicate.pruned] using h

theorem termsCoherent_pruned :
    (terms : List Term) → TermsCoherent terms → TermsCoherent (prunedTerms terms)
  | [], h => by rwa [prunedTerms]
  | ⟨connective, p⟩ :: terms, h => by
    rw [TermsCoherent] at h
    rw [prunedTerms]
    split
    · rw [TermsCoherent]
      exact ⟨p.coherent_pruned h.1, termsCoherent_pruned terms h.2⟩
    · exact termsCoherent_pruned terms h.2

theorem Group.coherent_pruned : (g : Group) → g.Coherent → g.pruned.Coherent
  | ⟨terms, _, _, _, _⟩, h => by
    rw [Group.Coherent] at h
    rw [Group.pruned, Group.Coherent]
    exact ⟨Cache.sound_none, termsCoherent_pruned terms h.2⟩

end

end SqlTree
