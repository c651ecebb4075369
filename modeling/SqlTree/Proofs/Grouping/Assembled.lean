import SqlTree.Proofs.Caching.Transparency
import SqlTree.Proofs.Grouping.Marks

/-!
# SqlTree.Proofs.Grouping.Assembled

Groups that are put together.  `Assembled` are the groups, predicates and
clauses that histories lead to in which no group is overwritten by another
one; the statements that they test against have any histories.  Every group
inside of an assembled one is marked as nested (`Assembled.marked`).
-/

namespace SqlTree

/-! ## Ways into a condition -/

namespace Hop

variable {k l : Kind}

/-- Going below does not take marks away. -/
theorem keepsMarks_enter (hop : Hop k l) {n : Node k} (h : Node.Marked k n) :
    Node.KeepsMarks k n (hop.enter n) := by
  cases hop with
  | predicates =>
    obtain ⟨kind, _ | g⟩ : Clause := n
    · exact ⟨fun _ hg => Option.some.inj hg ▸ Group.marked_empty .and, rfl⟩
    · exact ⟨h, rfl⟩
  | term index => exact ⟨Group.marked_of_terms_eq h rfl, rfl⟩
  | nest connective => exact ⟨Group.marked_pushGroup h (Group.marked_empty connective), rfl⟩
  | asGroup | subquery => exact ⟨h, rfl⟩
  | _ => exact Node.keepsMarks_of_not_isCondition rfl _ _

theorem marked_find? (hop : Hop k l) (hk : k.isCondition = true) {n : Node k} {m : Node l}
    (h : Node.Marked k n) (hm : hop.find? n = some m) : Node.Marked l m := by
  cases hop with
  | predicates => exact h m hm
  | term index => exact Group.marked_predicateAt? h hm
  | nest connective =>
    obtain ⟨p, hp, hgroup⟩ := Option.bind_eq_some_iff.1 hm
    exact (Predicate.marked_of_group? (Group.marked_predicateAt? h hp) hgroup).2
  | asGroup => exact (Predicate.marked_of_group? h hm).2
  | subquery => trivial
  | _ => cases hk

/-- What keeps its marks can be put back. -/
theorem keepsMarks_put (hop : Hop k l) {n : Node k} {m m' : Node l} (h : Node.Marked k n)
    (hm : hop.find? (hop.enter n) = some m) (hm' : Node.KeepsMarks l m m') :
    Node.KeepsMarks k n (hop.put m' (hop.enter n)) := by
  have henter := hop.keepsMarks_enter h
  cases hop with
  | predicates => exact ⟨fun _ hg => Option.some.inj hg ▸ hm'.marked, rfl⟩
  | term index => exact ⟨Group.marked_putPredicateAt henter.marked index hm'.marked, henter.mark⟩
  | nest connective =>
    obtain ⟨p, hp, hgroup⟩ := Option.bind_eq_some_iff.1 hm
    have hnested :=
      (Predicate.marked_of_group? (Group.marked_predicateAt? henter.marked hp) hgroup).1
    have hput := Predicate.marked_group ((Option.some.inj hm'.mark).trans hnested) hm'.marked
    exact ⟨Group.marked_putPredicateAt henter.marked _ hput, henter.mark⟩
  | asGroup =>
    have hnested := (Predicate.marked_of_group? henter.marked hm).1
    exact ⟨Predicate.marked_putGroup henter.marked ((Option.some.inj hm'.mark).trans hnested)
      hm'.marked, rfl⟩
  | subquery => exact ⟨Predicate.marked_putSelect henter.marked, rfl⟩
  | _ => exact Node.keepsMarks_of_not_isCondition rfl _ _

end Hop

namespace Path

/-- The path stays within one condition. -/
def isWithin : {k m : Kind} → Path k m → Bool
  | k, _, .here => k.isCondition
  | k, _, .via _ rest => k.isCondition && rest.isWithin

/-- A change that keeps marks at the end of a path keeps them all along. -/
theorem keepsMarks_edit {α : Type} {k m : Kind} (path : Path k m) {f : Node m → α × Node m}
    (hf : ∀ n, Node.Coherent m n → Node.Marked m n → Node.KeepsMarks m n (f n).2) {n : Node k}
    (hcoherent : Node.Coherent k n) (h : Node.Marked k n) :
    Node.KeepsMarks k n (path.edit f n).2 := by
  induction path with
  | here => exact hf n hcoherent h
  | @via k l m hop rest ih =>
    by_cases hk : k.isCondition = true
    · rw [edit]
      split
      · exact hop.keepsMarks_enter h
      · next child hchild =>
        have hbelow := hop.marked_find? hk (hop.keepsMarks_enter h).marked hchild
        have hchildCoherent := hop.coherent_find? (hop.coherent_enter hcoherent) hchild
        exact hop.keepsMarks_put h hchild (ih hf hchildCoherent hbelow)
    · exact Node.keepsMarks_of_not_isCondition (Bool.eq_false_iff.2 hk) _ _

theorem marked_found {k m : Kind} (path : Path k m) (hpath : path.isWithin = true) {n : Node k}
    {found : Node m} (h : Node.Marked k n)
    (hfound : (path.edit (fun n => (n, n)) n).1 = some found) : Node.Marked m found := by
  induction path with
  | here =>
    cases hfound
    exact h
  | via hop rest ih =>
    obtain ⟨hk, hrest⟩ := Bool.and_eq_true_iff.1 hpath
    rw [edit] at hfound
    split at hfound
    · cases hfound
    · next child hchild =>
        exact ih hrest (hop.marked_find? hk (hop.keepsMarks_enter h).marked hchild) hfound

end Path

/-! ## Calls -/

/-- Every group in the node is marked as nested, for a condition. -/
abbrev AnyNode.Marked (u : AnyNode) : Prop := Node.Marked u.1 u.2

theorem Item.marked_of_uses {item : Item} (h : ∀ u ∈ item.uses, u.Marked) : item.Marked := by
  cases item with
  | predicate p => exact h ⟨.predicate, p⟩ (List.mem_singleton.2 rfl)
  | group g => exact h ⟨.group, g⟩ (List.mem_singleton.2 rfl)
  | clause c => exact h ⟨.clause, c⟩ (List.mem_singleton.2 rfl)
  | raw | spec => trivial

theorem Maker.marked_make {k : Kind} {maker : Maker k} {n : Node k} (h : maker.make = .ok n) :
    Node.Marked k n := by
  have hplain {p : Predicate} (hp : p.group? = none) : Node.Marked .predicate p :=
    Predicate.marked_of_group?_eq_none hp
  cases maker with
  | group default => cases h; exact Group.marked_empty default
  | specification spec => exact (Group.marked_specify (Group.marked_empty .and) h).1
  | clause kind => cases h; exact fun _ hg => nomatch hg
  | comparison left op right => exact hplain (Predicate.group?_compare h)
  | between left negated low high => exact hplain (Predicate.group?_inRange h)
  | inValues left negated values => exact hplain (Predicate.group?_inList h)
  | like left negated pattern escape => exact hplain (Predicate.group?_matching h)
  | inSelect | truth | existence | quantified | literal | tested => cases h; exact hplain rfl
  | _ => trivial

namespace Call

variable {k : Kind}

/-- The call puts another group in the place of a group. -/
def overwrites : {k : Kind} → Call k → Bool
  | .group, .replace _ => true
  | _, _ => false

theorem keepsMarks_act {call : Call k} (hcall : call.overwrites = false)
    (huses : ∀ u ∈ call.uses, u.Marked) {n : Node k} (hcoherent : Node.Coherent k n)
    (h : Node.Marked k n) : Node.KeepsMarks k n (call.act n) := by
  cases call with
  | look => exact ⟨h, rfl⟩
  | replace other =>
    have hother : Node.Marked k other := huses ⟨k, other⟩ (List.mem_singleton.2 rfl)
    cases k with
    | group => cases hcall
    | _ => exact ⟨hother, rfl⟩
  | build b => cases b <;> exact Node.keepsMarks_of_not_isCondition rfl _ _
  | change c =>
    cases c with
    | add item =>
      obtain ⟨hmarked, hnested⟩ := Group.marked_add (Item.marked_of_uses huses) h
      exact ⟨hmarked, congrArg some hnested⟩
    | addJoined connective item =>
      have hnext : (Group.joinNext connective n).Marked := Group.marked_of_terms_eq h rfl
      obtain ⟨hmarked, hnested⟩ := Group.marked_add (Item.marked_of_uses huses) hnext
      exact ⟨hmarked, congrArg some hnested⟩
    | joinNext connective => exact ⟨Group.marked_of_terms_eq h rfl, rfl⟩
    | setDefault connective => exact ⟨Group.marked_of_terms_eq h rfl, rfl⟩
    | clear => exact ⟨(Group.marked_iff _).2 (fun _ ht => nomatch ht), rfl⟩
    | addTo item => exact ⟨Clause.marked_add (Item.marked_of_uses huses) h, rfl⟩
  | compile d hd => exact Node.keepsMarks_of_fresh_eq h (Node.compile_follows hd hcoherent).1.fresh
  | compileInto d hd c =>
    exact Node.keepsMarks_of_fresh_eq h ((Node.compileInto_follows hd hcoherent).node c).fresh
  | inlined d hd =>
    rw [act, Node.left_inlined]
    exact Node.keepsMarks_of_fresh_eq h (Node.compile_follows hd hcoherent).1.fresh

end Call

/-! ## Histories -/

/-- The conditions that histories lead to in which no group is overwritten,
and any other reachable node: a condition is made or copied, taken from
inside of another one, or what is left by calls at the ends of paths. -/
inductive Assembled : (k : Kind) → Node k → Prop where
  | other {k : Kind} (kind : k.isCondition = false) {n : Node k} (node : Reachable k n) :
      Assembled k n
  | made {k : Kind} (maker : Maker k) {n : Node k} (uses : ∀ u ∈ maker.uses, Assembled u.1 u.2)
      (h : maker.make = .ok n) : Assembled k n
  | called {k m : Kind} (path : Path k m) (call : Call m) (kept : call.overwrites = false)
      {n : Node k}
      (node : Assembled k n) (uses : ∀ u ∈ call.uses, Assembled u.1 u.2) :
      Assembled k (path.edit (fun inner => ((), call.act inner)) n).2
  | inner {k m : Kind} (path : Path k m) (within : path.isWithin = true) {n : Node k}
      {found : Node m}
      (node : Assembled k n) (h : (path.edit (fun inner => (inner, inner)) n).1 = some found) :
        Assembled m found
  | copied {k : Kind} {n : Node k} (node : Assembled k n) : Assembled k (Node.fresh k n)

namespace Assembled

variable {k : Kind} {n : Node k}

theorem reachable (h : Assembled k n) : Reachable k n := by
  induction h with
  | other _ hnode => exact hnode
  | made maker _ hmake ih => exact .made maker ih hmake
  | called path call _ _ _ ih ihuses => exact .called path call ih ihuses
  | inner path _ _ hfound ih => exact .inner path ih hfound
  | copied _ ih => exact .copied ih

/-- Along such a history every group inside of another one is marked as
nested. -/
theorem marked (h : Assembled k n) : Node.Marked k n := by
  induction h with
  | @other k hkind n hnode => exact (Node.keepsMarks_of_not_isCondition hkind n n).marked
  | made maker _ hmake => exact maker.marked_make hmake
  | called path call hkept hnode _ ih ihuses =>
    have hact := fun inner => call.keepsMarks_act hkept ihuses (n := inner)
    exact (path.keepsMarks_edit hact hnode.reachable.coherent ih).marked
  | inner path hwithin _ hfound ih => exact path.marked_found hwithin ih hfound
  | copied _ ih => exact (Node.marked_fresh _).2 ih

end Assembled

end SqlTree
