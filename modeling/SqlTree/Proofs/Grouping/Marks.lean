import SqlTree.Proofs.Caching.Building

/-!
# SqlTree.Proofs.Grouping.Marks

Which groups are marked as nested.  A group gets its mark when it is put into
another one, and only a marked group is written between parentheses.
`Group.Marked` says that every group inside of a group has its mark.  What
changes a group keeps this, and a way into a group leaves it intact as long
as the group at its end keeps its own mark (`Path.keepsMarks_edit`).
-/

namespace SqlTree

mutual

/-- A group is marked as nested, and so is every one in it. -/
def Predicate.Marked : Predicate → Prop
  | .group g => g.nested = true ∧ g.Marked
  | _ => True

/-- Every group in the terms is marked as nested. -/
def TermsMarked : List Term → Prop
  | [] => True
  | ⟨_, p⟩ :: terms => p.Marked ∧ TermsMarked terms

/-- Every group in the group is marked as nested. -/
def Group.Marked : Group → Prop
  | ⟨terms, _, _, _, _⟩ => TermsMarked terms

end

theorem termsMarked_iff (terms : List Term) :
    TermsMarked terms ↔ ∀ t ∈ terms, t.predicate.Marked := by
  induction terms with
  | nil => simp [TermsMarked]
  | cons t terms ih =>
    cases t
    simp only [TermsMarked, ih, List.forall_mem_cons]

theorem Group.marked_iff (g : Group) : g.Marked ↔ ∀ t ∈ g.terms, t.predicate.Marked := by
  cases g
  rw [Group.Marked, termsMarked_iff]

/-! ## Predicates -/

namespace Predicate

theorem marked_of_group?_eq_none {p : Predicate} (h : p.group? = none) : p.Marked := by
  cases p with
  | group g => cases h
  | _ => simp only [Predicate.Marked]

theorem marked_group {g : Group} (hnested : g.nested = true) (hg : g.Marked) :
    (Predicate.group g).Marked := by
  rw [Predicate.Marked]
  exact ⟨hnested, hg⟩

theorem marked_of_group? {p : Predicate} {g : Group} (hp : p.Marked) (h : p.group? = some g) :
    g.nested = true ∧ g.Marked := by
  cases p with
  | group g' =>
    rw [Predicate.Marked] at hp
    cases h
    exact hp
  | _ => cases h

theorem marked_putGroup {p : Predicate} {g : Group} (hp : p.Marked) (hnested : g.nested = true)
    (hg : g.Marked) : (p.putGroup g).Marked := by
  cases p with
  | group g' => exact marked_group hnested hg
  | _ => exact hp

/-- Another select in a predicate does not make it a group. -/
theorem marked_putSelect {p : Predicate} {s : Select} (hp : p.Marked) : (p.putSelect s).Marked := by
  cases p with
  | group g => exact hp
  | comparison left op right =>
    refine marked_of_group?_eq_none ?_
    cases right <;> rfl
  | _ => exact marked_of_group?_eq_none rfl

theorem group?_of_isPlain {p : Predicate} (h : p.isPlain = true) : p.group? = none := by
  cases p with
  | group g => cases h
  | _ => rfl

theorem group?_compare {left : Reference} {op : Comparison} {right : Operand} {p : Predicate}
    (h : compare left op right = .ok p) : p.group? = none := by
  unfold compare at h
  split at h
  · split at h <;> cases h <;> rfl
  · cases h
    rfl

theorem group?_inRange {left : Reference} {negated : Bool} {low high : Operand} {p : Predicate}
    (h : inRange left negated low high = .ok p) : p.group? = none := by
  unfold inRange at h
  split at h
  · cases h
  · split at h <;> cases h
    rfl

theorem group?_inList {left : Reference} {negated : Bool} {values : List Value} {p : Predicate}
    (h : inList left negated values = .ok p) : p.group? = none := by
  unfold inList at h
  split at h <;> cases h
  rfl

theorem group?_matching {left : Reference} {negated : Bool} {pattern : Operand}
    {escape : Option Char} {p : Predicate} (h : matching left negated pattern escape = .ok p) :
    p.group? = none := by
  unfold matching at h
  split at h <;> cases h
  rfl

end Predicate

/-! ## Groups and clauses -/

namespace Group

theorem marked_empty (connective : Connective) : (Group.empty connective).Marked :=
  (marked_iff _).2 fun _ h => nomatch h

theorem marked_push {g : Group} {p : Predicate} (hg : g.Marked) (hp : p.Marked) :
    (g.push p).Marked := by
  rw [marked_iff] at hg ⊢
  intro t ht
  rw [terms_push, List.mem_append, List.mem_singleton] at ht
  rcases ht with ht | rfl
  · exact hg t ht
  · exact hp

/-- This is where marks come from. -/
theorem marked_pushGroup {g inner : Group} (hg : g.Marked) (hinner : inner.Marked) :
    (g.pushGroup inner).Marked := by
  have hp : (Predicate.group { inner with nested := true, cache := none }).Marked :=
    Predicate.marked_group rfl ((marked_iff _).2 ((marked_iff inner).1 hinner))
  exact marked_push hg hp

/-- Marks depend on the terms alone. -/
theorem marked_of_terms_eq {g g' : Group} (hg : g.Marked) (h : g'.terms = g.terms) : g'.Marked := by
  rw [marked_iff] at hg ⊢
  rwa [h]

theorem marked_predicateAt? {g : Group} (hg : g.Marked) {i : Nat} {p : Predicate}
    (h : g.predicateAt? i = some p) : p.Marked := by
  obtain ⟨t, ht, rfl⟩ := Option.map_eq_some_iff.1 h
  exact (marked_iff g).1 hg t (List.mem_of_getElem? ht)

theorem marked_putPredicateAt {g : Group} (hg : g.Marked) (i : Nat) {p : Predicate}
    (hp : p.Marked) : (g.putPredicateAt i p).Marked := by
  rw [marked_iff] at hg ⊢
  intro t ht
  obtain ⟨j, hj, rfl⟩ := List.mem_iff_getElem.1 ht
  simp only [putPredicateAt, List.getElem_modify]
  split
  · exact hp
  · exact hg _ (List.getElem_mem _)

/-- A specification marks the groups that it makes and leaves the mark of
the group that it goes to. -/
theorem marked_specify {spec : Json} {g g' : Group} (hg : g.Marked) (h : g.specify spec = .ok g') :
    g'.Marked ∧ g'.nested = g.nested := by
  have hleads := specify_leads (R := fun g g' => g.Marked → g'.Marked ∧ g'.nested = g.nested)
    (fun g hg => ⟨hg, rfl⟩)
    (fun h h' hg => ⟨(h' (h hg).1).1, (h' (h hg).1).2.trans (h hg).2⟩)
    (fun g p hp hg => ⟨marked_push hg
    (Predicate.marked_of_group?_eq_none (Predicate.group?_of_isPlain hp)), rfl⟩)
    (fun g connective inner hinner hg => ⟨marked_pushGroup hg (hinner (marked_empty connective)).1,
    rfl⟩)
    (fun g connective hg => ⟨marked_of_terms_eq hg rfl, rfl⟩) h
  exact hleads hg

end Group

/-- Every group in what is added is marked as nested. -/
def Item.Marked : Item → Prop
  | .predicate p => p.Marked
  | .group g => g.Marked
  | .clause c => ∀ g, c.group? = some g → g.Marked
  | .raw _ | .spec _ => True

namespace Group

theorem marked_added {item : Item} {g g' : Group} (hitem : item.Marked) (hg : g.Marked)
    (h : Group.added item g = .ok g') : g'.Marked ∧ g'.nested = g.nested := by
  match item with
  | .raw sql =>
    obtain ⟨p, hp, rfl⟩ := exists_of_map_eq_ok h
    have hplain := Predicate.isPlain_ofText hp
    exact ⟨marked_push hg
      (Predicate.marked_of_group?_eq_none (Predicate.group?_of_isPlain hplain)), rfl⟩
  | .predicate p =>
    cases h
    exact ⟨marked_push hg hitem, rfl⟩
  | .group inner =>
    cases h
    exact ⟨marked_pushGroup hg hitem, rfl⟩
  | .clause ⟨_, none⟩ =>
    cases h
    exact ⟨hg, rfl⟩
  | .clause ⟨_, some inner⟩ =>
    cases h
    exact ⟨marked_pushGroup hg (hitem inner rfl), rfl⟩
  | .spec j =>
    obtain ⟨pushed, hpushed, rfl⟩ := exists_of_added_spec h
    obtain ⟨hmarked, hnested⟩ := marked_specify hg hpushed
    exact ⟨marked_of_terms_eq hmarked rfl, hnested⟩

theorem marked_add {item : Item} {g : Group} (hitem : item.Marked) (hg : g.Marked) :
    (left (Group.add item g)).Marked ∧ (left (Group.add item g)).nested = g.nested := by
  cases hadded : Group.added item g with
  | ok g' => simpa only [Group.add, Edit.attempt, hadded, left] using marked_added hitem hg hadded
  | error e => simpa only [Group.add, Edit.attempt, hadded, left, and_true] using hg

end Group

theorem Clause.marked_add {item : Item} {c : Clause} (hitem : item.Marked)
    (hc : ∀ g, c.group? = some g → g.Marked) :
    ∀ g, (left (Clause.add item c)).group? = some g → g.Marked := by
  have hgroup : c.groupOrEmpty.Marked := by
    obtain ⟨kind, _ | g⟩ := c
    · exact Group.marked_empty .and
    · exact hc g rfl
  have hadd := (Group.marked_add hitem hgroup).1
  intro g hg
  cases hedit : Group.add item c.groupOrEmpty with
  | ok u g' | error e g' =>
    rw [hedit] at hadd
    simp only [Clause.add, Clause.onGroup, Edit.part, hedit, left, Option.some.injEq] at hg
    exact hg ▸ hadd

/-! ## Copies -/

mutual

theorem Predicate.marked_fresh : (p : Predicate) → (p.fresh.Marked ↔ p.Marked)
  | .group ⟨terms, default, pending, nested, cache⟩ => by
    rw [Predicate.fresh, Group.fresh, Predicate.Marked, Predicate.Marked, Group.Marked,
      Group.Marked, termsMarked_fresh terms]
  | .comparison .. | .between .. | .inValues .. | .inSelect .. | .like .. | .truth .. | .existence
      .. | .quantified ..
  | .literal _ | .expression _ => by simp only [Predicate.fresh, Predicate.Marked]

theorem termsMarked_fresh :
    (terms : List Term) → (TermsMarked (freshTerms terms) ↔ TermsMarked terms)
  | [] => by rw [freshTerms]
  | ⟨connective, p⟩ :: terms => by
    rw [freshTerms, Term.fresh, TermsMarked, TermsMarked, p.marked_fresh, termsMarked_fresh terms]

end

theorem Group.marked_fresh (g : Group) : g.fresh.Marked ↔ g.Marked := by
  cases g
  rw [Group.fresh, Group.Marked, Group.Marked, termsMarked_fresh]

/-! ## Nodes -/

/-- The nodes that conditions are made of. -/
def Kind.isCondition : Kind → Bool
  | .group | .clause | .predicate => true
  | .select | .insert | .update | .delete | .join | .expression | .reference => false

namespace Node

/-- Every group in a condition is marked as nested; the statements in it are
not looked into. -/
def Marked : (k : Kind) → Node k → Prop
  | .group, g => Group.Marked g
  | .clause, c => ∀ g, Clause.group? c = some g → g.Marked
  | .predicate, p => Predicate.Marked p
  | _, _ => True

/-- The mark of a node, if it is a group. -/
def mark? : (k : Kind) → Node k → Option Bool
  | .group, g => some (Group.nested g)
  | _, _ => none

/-- A node with the mark of the one before it, and with marks in it. -/
structure KeepsMarks (k : Kind) (n n' : Node k) : Prop where
  marked : Marked k n'
  mark : mark? k n' = mark? k n

theorem keepsMarks_of_not_isCondition {k : Kind} (h : k.isCondition = false) (n n' : Node k) :
    KeepsMarks k n n' := by
  cases k with
  | group | clause | predicate => cases h
  | _ => exact ⟨trivial, rfl⟩

theorem marked_fresh {k : Kind} (n : Node k) : Marked k (fresh k n) ↔ Marked k n := by
  cases k with
  | group => exact Group.marked_fresh n
  | clause =>
    obtain ⟨kind, _ | g⟩ : Clause := n
    · exact Iff.rfl
    · exact ⟨fun h _ hg => Option.some.inj hg ▸ (Group.marked_fresh g).1 (h _ rfl),
        fun h _ hg => Option.some.inj hg ▸ (Group.marked_fresh g).2 (h _ rfl)⟩
  | predicate => exact Predicate.marked_fresh n
  | _ => exact Iff.rfl

theorem mark?_fresh {k : Kind} (n : Node k) : mark? k (fresh k n) = mark? k n := by
  cases k with
  | group =>
    obtain ⟨terms, default, pending, nested, cache⟩ : Group := n
    rfl
  | _ => rfl

/-- Marks do not depend on what is kept. -/
theorem keepsMarks_of_fresh_eq {k : Kind} {n n' : Node k} (hn : Marked k n)
    (h : fresh k n' = fresh k n) : KeepsMarks k n n' := by
  constructor
  · rwa [← marked_fresh, h, marked_fresh]
  · rw [← mark?_fresh, h, mark?_fresh]

end Node

end SqlTree
