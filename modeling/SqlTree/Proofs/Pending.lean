import SqlTree.Proofs.History
import SqlTree.Proofs.Specification

/-!
# SqlTree.Proofs.Pending

The connective of the next term.  A group joins the next term by its pending
connective, or by its default one if none is pending
(`Group.nextConnective`), and pushing a term uses the pending one up.
`Group.addJoined` makes a connective pending before the item is looked at, so
the connective stays pending whenever no term is pushed: after an item that is
refused, and after a clause that never had predicates, which is accepted
(`Group.nextConnective_after_adding`).  In both cases it is the item after
that one which is joined by it (`Group.addJoined_leaks_connective`).
-/

namespace SqlTree

/-- Adding the item pushes no term: it is a clause that never had
predicates. -/
def Item.isVacant : Item → Bool
  | .clause ⟨_, none⟩ => true
  | _ => false

namespace Group

/-- What the next term is joined by. -/
def nextConnective (g : Group) : Connective := g.pending.getD g.default

/-! ## One term -/

/-- A pushed term leaves the default connective to the term after it. -/
theorem IsPushed.nextConnective {g : Group} (h : g.IsPushed) : g.nextConnective = g.default := by
  obtain ⟨before, p, rfl⟩ := h
  rfl

/-! ## One item -/

/-- Adding an item never changes the default connective. -/
theorem default_added {item : Item} {g g' : Group} (h : added item g = .ok g') :
    g'.default = g.default := by
  match item with
  | .raw sql =>
    obtain ⟨p, -, rfl⟩ := exists_of_map_eq_ok h
    rfl
  | .predicate _ | .group _ | .clause ⟨_, none⟩ | .clause ⟨_, some _⟩ =>
    cases h
    rfl
  | .spec j =>
    obtain ⟨pushed, hpushed, rfl⟩ := exists_of_added_spec h
    show pushed.default = g.default
    exact default_specify hpushed

/-- An item that is accepted pushes a term at the end, unless it is vacant. -/
theorem nextConnective_added {item : Item} {g g' : Group} (hitem : item.isVacant = false)
    (h : added item g = .ok g') : g'.nextConnective = g.default := by
  match item with
  | .raw sql =>
    obtain ⟨p, -, rfl⟩ := exists_of_map_eq_ok h
    rfl
  | .predicate _ | .group _ | .clause ⟨_, some _⟩ =>
    cases h
    rfl
  | .clause ⟨_, none⟩ => cases hitem
  | .spec j =>
    obtain ⟨pushed, hpushed, rfl⟩ := exists_of_added_spec h
    have hnext : pushed.nextConnective = pushed.default := (specify_pushes hpushed).nextConnective
    exact hnext.trans (default_specify hpushed)

/-- A vacant item leaves the group as it was. -/
theorem eq_of_isVacant {item : Item} {g g' : Group} (hitem : item.isVacant = true)
    (h : added item g = .ok g') : g' = g := by
  match item with
  | .clause ⟨_, none⟩ =>
    cases h
    rfl

theorem added_of_add {item : Item} {g g' : Group} (h : add item g = .ok () g') :
    added item g = .ok g' := by
  simp only [add, Edit.attempt] at h
  split at h <;> cases h
  assumption

/-! ## Items one after the other -/

/-- What adding does to the connective of the next term.  An item that is
refused by `add` leaves the group alone, but one that is refused by
`addJoined` leaves the connective pending.  An item that is accepted leaves
the default connective to the next term, but a vacant one leaves the
connective pending. -/
theorem nextConnective_after_adding (connective : Connective) (item : Item) (g : Group) :
    (∀ e g', add item g = .error e g' → g' = g) ∧
    (∀ e g', addJoined connective item g = .error e g' → g' = g.joinNext connective) ∧
    (∀ g', add item g = .ok () g' → g'.default = g.default ∧
      g'.nextConnective = if item.isVacant then g.nextConnective else g.default) ∧
    (∀ g', addJoined connective item g = .ok () g' → g'.default = g.default ∧
      g'.nextConnective = if item.isVacant then connective else g.default) := by
  have hadd : ∀ g₀ g', add item g₀ = .ok () g' → g'.default = g₀.default ∧
      g'.nextConnective = if item.isVacant then g₀.nextConnective else g₀.default := by
    intro g₀ g' h
    have hadded := added_of_add h
    refine ⟨default_added hadded, ?_⟩
    by_cases hitem : item.isVacant = true
    · rw [if_pos hitem, eq_of_isVacant hitem hadded]
    · rw [if_neg hitem]
      exact nextConnective_added (Bool.eq_false_iff.2 hitem) hadded
  exact ⟨fun e g' h => add_error h, fun e g' h => add_error h, hadd g,
    hadd (g.joinNext connective)⟩

/-- A refused item, an accepted one and a vacant one, each joined by `OR` to
a group of the default `AND`. -/
theorem nextConnective_after_adding_or :
    let g : Group := Group.empty .and
    let vacant : Item := .clause (Clause.empty .filter)
    (∃ e, addJoined .or (.raw "") g = .error e (g.joinNext .or)) ∧
      (∃ g', addJoined .or (.raw "b") g = .ok () g' ∧ g'.nextConnective = .and) ∧
      (∃ g', addJoined .or vacant g = .ok () g' ∧ g'.nextConnective = .or) := by
  intro g vacant
  refine ⟨?refused, ?accepted, ?vacant⟩
  case refused =>
    cases h : addJoined .or (.raw "") g with
    | ok _ g' => cases h
    | error e g' =>
      obtain rfl : g' = g.joinNext .or :=
        (nextConnective_after_adding .or (.raw "") g).2.1 e g' h
      exact ⟨e, rfl⟩
  case accepted =>
    cases h : addJoined .or (.raw "b") g with
    | ok _ g' => exact ⟨g', rfl, ((nextConnective_after_adding .or (.raw "b") g).2.2.2 g' h).2⟩
    | error e g' => cases h
  case vacant =>
    cases h : addJoined .or vacant g with
    | ok _ g' => exact ⟨g', rfl, ((nextConnective_after_adding .or vacant g).2.2.2 g' h).2⟩
    | error e g' => cases h

/-- The group `a` with the default `AND`, to which an empty text is added by
`OR` and refused, or a clause without predicates is added by `OR`, joins the
next term by `OR`. -/
theorem addJoined_leaks_connective :
    let g : Group := left (add (.raw "a") (Group.empty .and))
    let refused := addJoined .or (.raw "") g
    let vacant := addJoined .or (.clause (Clause.empty .filter)) g
    Reachable .group g ∧ g.nextConnective = .and ∧
      (∃ e, refused = .error e (g.joinNext .or)) ∧ left refused ≠ g ∧
      (left refused).nextConnective = .or ∧
      (∃ g', vacant = .ok () g') ∧ (left vacant).nextConnective = .or := by
  intro g refused vacant
  have hmade : Reachable .group (Group.empty .and) := .made (.group .and) (fun _ h => nomatch h) rfl
  have hg : Reachable .group g :=
    .called .here (.change (.add (.raw "a"))) hmade (fun _ h => nomatch h)
  have hleft : (left refused).nextConnective = .or := rfl
  refine ⟨hg, rfl, ⟨_, rfl⟩, ?_, hleft, ⟨_, rfl⟩, rfl⟩
  intro h
  have hsame : g.nextConnective = .or := by rw [← h, hleft]
  cases hsame

end Group

end SqlTree
