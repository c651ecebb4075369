import SqlTree.Proofs.Invariant

/-!
# SqlTree.Proofs.Filtered.Keyword

The condition of an update or of a delete always starts with `WHERE`.  The
kind of a clause is chosen when the clause is made, and nothing that happens
to a statement changes it: going below and coming back puts another group
into the same clause, and no path leads from one statement to an update or a
delete inside of it (`Hop.conditionKind?_eq_none`).
-/

namespace SqlTree

theorem Clause.kind_fresh (c : Clause) : c.fresh.kind = c.kind := by
  obtain ⟨kind, _ | g⟩ := c <;> simp only [Clause.fresh]

namespace Node

/-- The kind of the condition on rows of an update or a delete. -/
def conditionKind? : (k : Kind) → Node k → Option ClauseKind
  | .update, u => some (Update.filter u).kind
  | .delete, del => some (Delete.filter del).kind
  | _, _ => none

/-- A condition on rows, if there is one, is introduced by `WHERE`. -/
def FiltersRows (k : Kind) (n : Node k) : Prop :=
  ∀ kind, conditionKind? k n = some kind → kind = .filter

variable {k : Kind}

theorem conditionKind?_fresh (n : Node k) : conditionKind? k (fresh k n) = conditionKind? k n := by
  cases k with
  | update => exact congrArg some (Clause.kind_fresh _)
  | delete => exact congrArg some (Clause.kind_fresh _)
  | _ => rfl

end Node

/-! ## Ways below -/

namespace Hop

variable {k l : Kind}

theorem conditionKind?_enter (hop : Hop k l) (n : Node k) :
    Node.conditionKind? k (hop.enter n) = Node.conditionKind? k n := by
  cases hop <;> rfl

theorem conditionKind?_put (hop : Hop k l) (m : Node l) (n : Node k) :
    Node.conditionKind? k (hop.put m n) = Node.conditionKind? k n := by
  cases hop <;> rfl

/-- Below a node there is no update and no delete. -/
theorem conditionKind?_eq_none (hop : Hop k l) (m : Node l) :
    Node.conditionKind? l m = none := by
  cases hop <;> rfl

end Hop

/-! ## Calls -/

theorem Clause.kind_onGroup {edit : Edit Group} {c c' : Clause}
    (h : (Clause.onGroup edit).apply c = .ok c') : c'.kind = c.kind := by
  simp only [Edit.apply, Clause.onGroup, Edit.part] at h
  cases hedit : edit c.groupOrEmpty with
  | ok _ g =>
    rw [hedit] at h
    cases h
    rfl
  | error e g =>
    rw [hedit] at h
    cases h

theorem Update.filter_setAll {pairs : List (String × Operand)} {u u' : Update}
    (h : Update.setAll pairs u = .ok u') : u'.filter = u.filter := by
  induction pairs generalizing u with
  | nil =>
    cases h
    rfl
  | cons pair pairs ih =>
    obtain ⟨column, value⟩ := pair
    rw [Update.setAll] at h
    split at h
    · next u₁ hset =>
      obtain ⟨name, -, hset⟩ := exists_of_bind_eq_ok hset
      cases hset
      exact (ih h).trans rfl
    · cases h

/-- A builder leaves the condition the clause that it is. -/
theorem Builder.conditionKind?_build {k : Kind} {b : Builder k} {n n' : Node k}
    (h : b.build n = .ok n') : Node.conditionKind? k n' = Node.conditionKind? k n := by
  cases b with
  | updateTable name =>
    simp only [build, Update.setTable] at h
    split at h
    · cases h
    · obtain ⟨table, -, h⟩ := exists_of_bind_eq_ok h
      cases h
      rfl
  | set name value =>
    obtain ⟨column, -, h⟩ := exists_of_bind_eq_ok h
    cases h
    rfl
  | setAll pairs => exact congrArg (fun c : Clause => some c.kind) (Update.filter_setAll h)
  | updateWhere item | updateOrWhere item | deleteWhere item | deleteOrWhere item =>
    obtain ⟨filter, hfilter, h⟩ := exists_of_bind_eq_ok h
    cases h
    exact congrArg some (Clause.kind_onGroup hfilter)
  | deleteFrom name =>
    simp only [build, Delete.fromTable] at h
    split at h
    · cases h
    · obtain ⟨table, -, h⟩ := exists_of_bind_eq_ok h
      cases h
      rfl
  | _ => rfl

/-- Along every history the condition of an update or a delete is introduced
by `WHERE`. -/
theorem Reachable.filtersRows {k : Kind} {n : Node k} (h : Reachable k n) :
    Node.FiltersRows k n := by
  have hcongr {k : Kind} {n n' : Node k} (hn : Node.FiltersRows k n)
      (heq : Node.conditionKind? k n' = Node.conditionKind? k n) : Node.FiltersRows k n' :=
    fun kind hkind => hn kind (heq ▸ hkind)
  have hinvariant : Invariant .free Node.FiltersRows := by
    refine ⟨?fresh, ?make, ?build, ?change, ?enter, ?find, ?put⟩
    case fresh =>
      exact fun n => ⟨fun hn => hcongr hn (Node.conditionKind?_fresh n).symm,
        fun hn => hcongr hn (Node.conditionKind?_fresh n)⟩
    case make =>
      intro _ maker _ _ hmake kind hkind
      cases maker with
      | update | delete =>
        cases hmake
        exact (Option.some.inj hkind).symm
      | _ => cases hkind
    case build => exact fun _ hn hbuild => hcongr hn (Builder.conditionKind?_build hbuild)
    case change =>
      intro _ c _ _ _ kind hkind
      cases c <;> cases hkind
    case enter => exact fun {_ _ hop n} _ hn => hcongr hn (hop.conditionKind?_enter n)
    case find =>
      intro _ _ hop _ child _ _ _ kind hkind
      rw [hop.conditionKind?_eq_none child] at hkind
      cases hkind
    case put =>
      exact fun {_ _ hop n _ _} _ hn _ _ =>
        hcongr hn ((hop.conditionKind?_put _ _).trans (hop.conditionKind?_enter n))
  exact hinvariant.holds h.free

end SqlTree
