import SqlTree.Proofs.Rows.Build
import SqlTree.Proofs.Selects

/-!
# SqlTree.Proofs.Joins.Everywhere

The joins anywhere in a tree.  `Node.OnJoins` says that each of them has a
property, the node itself included if it is a join.  Joins come into a tree
with the nodes that calls use, and only two things are done to one that is
there: it is changed by its own methods, or somebody goes below it and comes
back.  So what these keep holds of every join anywhere, along every history
(`invariant_onJoins`).
-/

namespace SqlTree

/-- Every join of the selects has the property. -/
def JoinsHave (Q : Join → Prop) (ss : List Select) : Prop := ∀ s ∈ ss, ∀ j ∈ s.joins, Q j

/-- Every join in a node has the property, and so has the node if it is
one. -/
def Node.OnJoins (Q : Join → Prop) : (k : Kind) → Node k → Prop
  | .join, j => Q j ∧ JoinsHave Q (Join.selects j)
  | k, n => JoinsHave Q (Node.selects k n)

variable {Q : Join → Prop}

theorem joinsHave_nil : JoinsHave Q [] := List.forall_mem_nil _

theorem joinsHave_append {ss ss' : List Select} :
    JoinsHave Q (ss ++ ss') ↔ JoinsHave Q ss ∧ JoinsHave Q ss' := List.forall_mem_append

theorem joinsHave_flatMap {α : Type} {l : List α} {f : α → List Select} :
    JoinsHave Q (l.flatMap f) ↔ ∀ a ∈ l, JoinsHave Q (f a) := by
  simp only [JoinsHave, List.mem_flatMap]
  exact ⟨fun h a ha s hs => h s ⟨a, ha, hs⟩, fun h s ⟨a, ha, hs⟩ => h a ha s hs⟩

theorem Clause.joinsHave_iff (c : Clause) :
    JoinsHave Q c.selects ↔ ∀ g, c.group? = some g → JoinsHave Q g.selects := by
  rw [Clause.selects_eq, joinsHave_flatMap]
  simp

theorem JoinTarget.joinsHave_subquery (s : Select) :
    JoinsHave Q (JoinTarget.subquery s).selects ↔ JoinsHave Q s.selects := by
  rw [JoinTarget.selects]

theorem Predicate.joinsHave_group (g : Group) :
    JoinsHave Q (Predicate.group g).selects ↔ JoinsHave Q g.selects := by
  rw [Predicate.selects]

theorem Join.joinsHave_iff (j : Join) :
    JoinsHave Q j.selects ↔ JoinsHave Q j.target.selects ∧ JoinsHave Q j.on.selects := by
  rw [Join.selects_eq, joinsHave_append]

namespace Group

theorem joinsHave_iff (g : Group) :
    JoinsHave Q g.selects ↔ ∀ t ∈ g.terms, JoinsHave Q t.predicate.selects := by
  rw [Group.selects_eq, joinsHave_flatMap]

end Group

/-- The joins in the parts of a select and those that it has itself have the
property. -/
structure Select.Bears (Q : Join → Prop) (s : Select) : Prop where
  columns : ∀ c ∈ s.columns, JoinsHave Q c.source.selects
  origin : JoinsHave Q (originSelects s.origin?)
  joins : ∀ j ∈ s.joins, Q j ∧ JoinsHave Q j.selects
  filter : JoinsHave Q s.filter.selects
  having : JoinsHave Q s.having.selects
  combined : JoinsHave Q (combinedSelects s.combined?)

theorem Select.joinsHave_iff (s : Select) : JoinsHave Q s.selects ↔ s.Bears Q := by
  have hparts : JoinsHave Q s.selects ↔ (∀ j ∈ s.joins, Q j) ∧
      (∀ c ∈ s.columns, JoinsHave Q c.source.selects) ∧ JoinsHave Q (originSelects s.origin?) ∧
        (∀ j ∈ s.joins, JoinsHave Q j.selects) ∧ JoinsHave Q s.filter.selects ∧
          JoinsHave Q s.having.selects ∧ JoinsHave Q (combinedSelects s.combined?) := by
    cases s
    rw [Select.selects, JoinsHave, List.forall_mem_cons]
    refine and_congr_right fun _ => ?_
    change JoinsHave Q _ ↔ _
    simp only [joinsHave_append, columnSelects_eq, joinSelects_eq, joinsHave_flatMap]
  rw [hparts]
  constructor
  · rintro ⟨hjoins, hcolumns, horigin, hbelow, hfilter, hhaving, hcombined⟩
    exact ⟨hcolumns, horigin, fun j hj => ⟨hjoins j hj, hbelow j hj⟩, hfilter, hhaving, hcombined⟩
  · rintro ⟨hcolumns, horigin, hjoins, hfilter, hhaving, hcombined⟩
    exact ⟨fun j hj => (hjoins j hj).1, hcolumns, horigin, fun j hj => (hjoins j hj).2, hfilter,
      hhaving, hcombined⟩

/-! ## Copies -/

theorem joinsHave_fresh (hfresh : ∀ j : Join, Q j.fresh ↔ Q j) (ss : List Select) :
    JoinsHave Q (ss.map Select.fresh) ↔ JoinsHave Q ss := by
  have hselect (s : Select) : (∀ j ∈ s.fresh.joins, Q j) ↔ ∀ j ∈ s.joins, Q j := by
    cases s
    simp [Select.fresh, freshJoins_eq_map, hfresh]
  simp only [JoinsHave, List.forall_mem_map, hselect]

theorem Node.onJoins_fresh (hfresh : ∀ j : Join, Q j.fresh ↔ Q j) {k : Kind} (n : Node k) :
    Node.OnJoins Q k (Node.fresh k n) ↔ Node.OnJoins Q k n := by
  have hselects : JoinsHave Q (Node.selects k (Node.fresh k n)) ↔ JoinsHave Q (Node.selects k n) :=
    Node.selects_fresh n ▸ joinsHave_fresh hfresh _
  cases k with
  | join => exact and_congr (hfresh n) hselects
  | _ => exact hselects

/-! ## Nodes that calls use -/

/-- The selects in an item. -/
def Item.selects : Item → List Select
  | .predicate p => p.selects
  | .group g => g.selects
  | .clause c => c.selects
  | .raw _ | .spec _ => []

theorem Operand.joinsHave_of_uses {o : Operand} (h : ∀ u ∈ o.uses, Node.OnJoins Q u.1 u.2) :
    JoinsHave Q o.selects := by
  cases o with
  | expression e =>
    rw [Operand.selects]
    exact h _ (List.mem_singleton.2 rfl)
  | subquery s =>
    rw [Operand.selects]
    exact h _ (List.mem_singleton.2 rfl)
  | _ => simpa only [Operand.selects] using joinsHave_nil

theorem Filling.joinsHave_of_uses {f : Filling} (h : ∀ u ∈ f.uses, Node.OnJoins Q u.1 u.2) :
    JoinsHave Q f.selects := by
  cases f with
  | subquery s =>
    rw [Filling.selects]
    exact h _ (List.mem_singleton.2 rfl)
  | _ => simpa only [Filling.selects] using joinsHave_nil

theorem ColumnSource.joinsHave_of_uses {source : ColumnSource}
    (h : ∀ u ∈ source.uses, Node.OnJoins Q u.1 u.2) : JoinsHave Q source.selects := by
  cases source with
  | reference r => simpa only [ColumnSource.selects] using joinsHave_nil
  | expression e =>
    rw [ColumnSource.selects]
    exact h _ (List.mem_singleton.2 rfl)
  | subquery s =>
    rw [ColumnSource.selects]
    exact h _ (List.mem_singleton.2 rfl)

theorem Item.joinsHave_of_uses {item : Item} (h : ∀ u ∈ item.uses, Node.OnJoins Q u.1 u.2) :
    JoinsHave Q item.selects := by
  cases item with
  | raw | spec => exact joinsHave_nil
  | predicate | group | clause => exact h _ (List.mem_singleton.2 rfl)

theorem joinsHave_of_values_uses {values : List Operand}
    (h : ∀ u ∈ values.flatMap Operand.uses, Node.OnJoins Q u.1 u.2) :
    ∀ o ∈ values, JoinsHave Q o.selects := fun o ho =>
  Operand.joinsHave_of_uses fun u hu => h u (List.mem_flatMap.2 ⟨o, ho, hu⟩)

/-! ## Predicates -/

namespace Predicate

theorem joinsHave_compare {left : Reference} {op : Comparison} {right : Operand} {p : Predicate}
    (hright : JoinsHave Q right.selects) (h : compare left op right = .ok p) :
    JoinsHave Q p.selects := by
  unfold compare at h
  split at h
  · split at h <;> cases h <;> simpa only [Predicate.selects] using joinsHave_nil
  · cases h
    simpa only [Predicate.selects] using hright

theorem joinsHave_inRange {left : Reference} {negated : Bool} {low high : Operand} {p : Predicate}
    (hlow : JoinsHave Q low.selects) (hhigh : JoinsHave Q high.selects)
    (h : inRange left negated low high = .ok p) : JoinsHave Q p.selects := by
  unfold inRange at h
  split at h
  · cases h
  · split at h <;> cases h
    rw [Predicate.selects]
    exact joinsHave_append.2 ⟨hlow, hhigh⟩

theorem joinsHave_inList {left : Reference} {negated : Bool} {values : List Value} {p : Predicate}
    (h : inList left negated values = .ok p) : JoinsHave Q p.selects := by
  unfold inList at h
  split at h <;> cases h
  simpa only [Predicate.selects] using joinsHave_nil

theorem joinsHave_matching {left : Reference} {negated : Bool} {pattern : Operand}
    {escape : Option Char} {p : Predicate} (hpattern : JoinsHave Q pattern.selects)
    (h : matching left negated pattern escape = .ok p) : JoinsHave Q p.selects := by
  unfold matching at h
  split at h <;> cases h
  simpa only [Predicate.selects] using hpattern

theorem joinsHave_of_isPlain {p : Predicate} (h : p.isPlain = true) : JoinsHave Q p.selects := by
  have hvalue {o : Operand} (ho : o.isValue = true) : o.selects = [] := by
    cases o with
    | value v => rw [Operand.selects]
    | _ => cases ho
  cases p with
  | comparison left op right =>
    simpa only [Predicate.selects, hvalue h] using joinsHave_nil
  | between left negated low high =>
    have hboth := Bool.and_eq_true_iff.1 h
    simpa only [Predicate.selects, hvalue hboth.1, hvalue hboth.2, List.append_nil] using
      joinsHave_nil
  | like left negated pattern escape =>
    simpa only [Predicate.selects, hvalue h] using joinsHave_nil
  | inValues | truth | literal => simpa only [Predicate.selects] using joinsHave_nil
  | _ => cases h

theorem joinsHave_of_group? {p : Predicate} {g : Group} (hp : JoinsHave Q p.selects)
    (h : p.group? = some g) : JoinsHave Q g.selects := by
  cases p with
  | group g' =>
    cases h
    simpa only [Predicate.selects] using hp
  | _ => cases h

theorem joinsHave_of_select? {p : Predicate} {s : Select} (hp : JoinsHave Q p.selects)
    (h : p.select? = some s) : JoinsHave Q s.selects := by
  cases p with
  | inSelect | existence | quantified =>
    cases h
    simpa only [Predicate.selects] using hp
  | comparison left op right =>
    cases right with
    | subquery s' =>
      cases h
      simpa only [Predicate.selects, Operand.selects] using hp
    | _ => cases h
  | _ => cases h

theorem joinsHave_putGroup {p : Predicate} {g : Group} (hp : JoinsHave Q p.selects)
    (hg : JoinsHave Q g.selects) : JoinsHave Q (p.putGroup g).selects := by
  cases p with
  | group g' => rwa [putGroup, Predicate.selects]
  | _ => exact hp

theorem joinsHave_putSelect {p : Predicate} {s : Select} (hp : JoinsHave Q p.selects)
    (hs : JoinsHave Q s.selects) : JoinsHave Q (p.putSelect s).selects := by
  cases p with
  | inSelect | existence | quantified => rwa [putSelect, Predicate.selects]
  | comparison left op right =>
    cases right with
    | subquery s' => rwa [putSelect, Predicate.selects, Operand.selects]
    | _ => exact hp
  | _ => exact hp

end Predicate

/-! ## Groups and clauses -/

namespace Group

theorem joinsHave_empty (default : Connective) : JoinsHave Q (Group.empty default).selects :=
  (joinsHave_iff _).2 (List.forall_mem_nil _)

theorem joinsHave_push {g : Group} {p : Predicate} (hg : JoinsHave Q g.selects)
    (hp : JoinsHave Q p.selects) : JoinsHave Q (g.push p).selects := by
  rw [joinsHave_iff] at hg ⊢
  rw [terms_push, List.forall_mem_append, List.forall_mem_singleton]
  exact ⟨hg, hp⟩

theorem joinsHave_pushGroup {g inner : Group} (hg : JoinsHave Q g.selects)
    (hinner : JoinsHave Q inner.selects) : JoinsHave Q (g.pushGroup inner).selects := by
  refine joinsHave_push hg ?_
  rw [Predicate.selects, joinsHave_iff]
  exact (joinsHave_iff inner).1 hinner

theorem joinsHave_joinNext {g : Group} (hg : JoinsHave Q g.selects) (connective : Connective) :
    JoinsHave Q (g.joinNext connective).selects :=
  (joinsHave_iff _).2 ((joinsHave_iff g).1 hg)

theorem joinsHave_uncached {g : Group} (hg : JoinsHave Q g.selects) :
    JoinsHave Q g.uncached.selects :=
  (joinsHave_iff _).2 ((joinsHave_iff g).1 hg)

theorem joinsHave_specify {spec : Json} {g g' : Group} (hg : JoinsHave Q g.selects)
    (h : g.specify spec = .ok g') : JoinsHave Q g'.selects :=
  specify_keeps (P := fun g => JoinsHave Q g.selects) joinsHave_empty
    (fun _ _ hg hp => joinsHave_push hg (Predicate.joinsHave_of_isPlain hp))
    (fun _ _ hg hinner => joinsHave_pushGroup hg hinner)
    (fun _ connective hg => joinsHave_joinNext hg connective) hg h

theorem joinsHave_added {item : Item} {g g' : Group} (hitem : JoinsHave Q item.selects)
    (hg : JoinsHave Q g.selects) (h : added item g = .ok g') : JoinsHave Q g'.selects := by
  match item with
  | .raw sql =>
    obtain ⟨p, hp, rfl⟩ := exists_of_map_eq_ok h
    exact joinsHave_push hg (Predicate.joinsHave_of_isPlain (Predicate.isPlain_ofText hp))
  | .predicate p =>
    cases h
    exact joinsHave_push hg hitem
  | .group inner =>
    cases h
    exact joinsHave_pushGroup hg hitem
  | .clause ⟨_, none⟩ =>
    cases h
    exact hg
  | .clause ⟨_, some inner⟩ =>
    cases h
    exact joinsHave_pushGroup hg ((Clause.joinsHave_iff _).1 hitem inner rfl)
  | .spec j =>
    obtain ⟨pushed, hpushed, rfl⟩ := exists_of_added_spec h
    exact joinsHave_uncached (joinsHave_specify hg hpushed)

theorem keeps_joins_add {item : Item} (hitem : JoinsHave Q item.selects) :
    (Group.add item).Keeps fun g => JoinsHave Q g.selects :=
  Edit.keeps_attempt fun _ _ hg h => joinsHave_added hitem hg h

theorem keeps_joins_addJoined {item : Item} (hitem : JoinsHave Q item.selects)
    (connective : Connective) :
    (Group.addJoined connective item).Keeps fun g => JoinsHave Q g.selects := fun _ hg =>
  keeps_joins_add hitem _ (joinsHave_joinNext hg connective)

theorem joinsHave_predicateAt? {g : Group} (hg : JoinsHave Q g.selects) {i : Nat} {p : Predicate}
    (h : g.predicateAt? i = some p) : JoinsHave Q p.selects := by
  obtain ⟨t, ht, rfl⟩ := Option.map_eq_some_iff.1 h
  exact (joinsHave_iff g).1 hg t (List.mem_of_getElem? ht)

theorem joinsHave_putPredicateAt {g : Group} (hg : JoinsHave Q g.selects) (i : Nat)
    {p : Predicate} (hp : JoinsHave Q p.selects) : JoinsHave Q (g.putPredicateAt i p).selects := by
  rw [joinsHave_iff] at hg ⊢
  intro t ht
  obtain ⟨j, hj, rfl⟩ := List.mem_iff_getElem.1 ht
  simp only [putPredicateAt, List.getElem_modify]
  split
  · exact hp
  · exact hg _ (List.getElem_mem _)

end Group

namespace Clause

theorem joinsHave_empty (kind : ClauseKind) : JoinsHave Q (Clause.empty kind).selects := by
  rw [Clause.empty, Clause.selects]
  exact joinsHave_nil

theorem joinsHave_groupOrEmpty {c : Clause} (h : JoinsHave Q c.selects) :
    JoinsHave Q c.groupOrEmpty.selects := by
  rw [joinsHave_iff] at h
  obtain ⟨kind, _ | g⟩ := c
  · exact Group.joinsHave_empty .and
  · exact h g rfl

theorem joinsHave_putGroup {c : Clause} {g : Group} (hg : JoinsHave Q g.selects) :
    JoinsHave Q (c.putGroup g).selects :=
  (joinsHave_iff _).2 fun _ h => Option.some.inj h ▸ hg

theorem joinsHave_opened {c : Clause} (h : JoinsHave Q c.selects) : JoinsHave Q c.opened.selects :=
  joinsHave_putGroup (joinsHave_groupOrEmpty h)

theorem keeps_joins_onGroup {edit : Edit Group}
    (h : edit.Keeps fun g => JoinsHave Q g.selects) :
    (onGroup edit).Keeps fun c => JoinsHave Q c.selects :=
  Edit.keeps_part h (fun _ => joinsHave_groupOrEmpty) fun _ _ _ => joinsHave_putGroup

theorem joinsHave_add {item : Item} {c c' : Clause} (hitem : JoinsHave Q item.selects)
    (hc : JoinsHave Q c.selects) (h : (add item).apply c = .ok c') : JoinsHave Q c'.selects :=
  (keeps_joins_onGroup (Group.keeps_joins_add hitem)).apply hc h

theorem joinsHave_addJoined {item : Item} {connective : Connective} {c c' : Clause}
    (hitem : JoinsHave Q item.selects) (hc : JoinsHave Q c.selects)
    (h : (onGroup (Group.addJoined connective item)).apply c = .ok c') : JoinsHave Q c'.selects :=
  (keeps_joins_onGroup (Group.keeps_joins_addJoined hitem connective)).apply hc h

end Clause

/-! ## Selects -/

namespace Select

theorem bears_empty : Select.empty.Bears Q where
  columns := List.forall_mem_nil _
  origin := by
    rw [Select.empty, originSelects]
    exact joinsHave_nil
  joins := List.forall_mem_nil _
  filter := Clause.joinsHave_empty _
  having := Clause.joinsHave_empty _
  combined := by
    rw [Select.empty, combinedSelects]
    exact joinsHave_nil

/-- How deep selects lie does not matter. -/
theorem bears_atNesting :
    (s : Select) → (nesting : Nat) → s.Bears Q → (s.atNesting nesting).Bears Q
  | ⟨_, _, _, some (.subquery inner a), _, _, _, _, _, _, _, _, _, _, _, _⟩, nesting, h => by
    rw [atNesting]
    have horigin := h.origin
    rw [originSelects, joinsHave_iff] at horigin
    refine { h with origin := ?_ }
    rw [originSelects, joinsHave_iff]
    exact bears_atNesting inner (nesting + 1) horigin
  | ⟨_, _, _, some (.table _ _), _, _, _, _, _, _, _, _, _, _, _, _⟩, _, h
  | ⟨_, _, _, none, _, _, _, _, _, _, _, _, _, _, _, _⟩, _, h => { h with }

theorem bears_setOrigin {origin : Origin} {s s' : Select}
    (horigin : JoinsHave Q (originSelects (some origin))) (hs : s.Bears Q)
    (h : s.setOrigin origin = .ok s') : s'.Bears Q := by
  unfold setOrigin at h
  split at h <;> cases h
  exact bears_atNesting _ _ { hs with origin := horigin }

theorem joinsHave_tableOrigin (name : Identifier) (alias? : Option Alias) :
    JoinsHave Q (originSelects (some (.table name alias?))) := by
  rw [originSelects]
  exact joinsHave_nil

theorem joinsHave_subqueryOrigin {inner : Select} (h : JoinsHave Q inner.selects) (a : Alias) :
    JoinsHave Q (originSelects (some (.subquery inner a))) := by
  rwa [originSelects]

theorem joinsHave_combined {other : Select} (h : JoinsHave Q other.selects)
    (operation : SetOperation) : JoinsHave Q (combinedSelects (some (operation, other))) := by
  rwa [combinedSelects]

theorem joinsHave_of_originSelect? {s inner : Select} (hs : s.Bears Q)
    (h : s.originSelect? = some inner) : JoinsHave Q inner.selects := by
  unfold originSelect? at h
  split at h
  · next heq =>
    cases h
    have horigin := hs.origin
    rwa [heq, originSelects] at horigin
  · cases h

theorem bears_putOriginSelect {s inner : Select} (hs : s.Bears Q)
    (hinner : JoinsHave Q inner.selects) : (s.putOriginSelect inner).Bears Q := by
  unfold putOriginSelect
  split
  · exact { hs with origin := joinsHave_subqueryOrigin hinner _ }
  · exact hs

end Select

/-- A builder leaves a property to the joins of a select, if what it uses has
it. -/
theorem Builder.bears_build {b : Builder .select} {s s' : Select}
    (huses : ∀ u ∈ b.uses, Node.OnJoins Q u.1 u.2) (hs : s.Bears Q) (h : b.build s = .ok s') :
    s'.Bears Q := by
  cases b with
  | distinct | groupBy | orderBy | limit | offset | pretty =>
    cases h
    exact { hs with }
  | column source alias? =>
    obtain ⟨alias?, -, h⟩ := exists_of_bind_eq_ok h
    cases h
    refine { hs with columns := List.forall_mem_append.2 ⟨hs.columns, ?_⟩ }
    exact List.forall_mem_singleton.2 (ColumnSource.joinsHave_of_uses huses)
  | into name =>
    obtain ⟨name, -, h⟩ := exists_of_bind_eq_ok h
    cases h
    exact { hs with }
  | fromTable name =>
    obtain ⟨name, -, h⟩ := exists_of_bind_eq_ok h
    exact Select.bears_setOrigin (Select.joinsHave_tableOrigin name none) hs h
  | fromTableAs name known =>
    obtain ⟨name, -, h⟩ := exists_of_bind_eq_ok h
    obtain ⟨a, -, h⟩ := exists_of_bind_eq_ok h
    exact Select.bears_setOrigin (Select.joinsHave_tableOrigin name (some a)) hs h
  | fromSubquery inner known =>
    obtain ⟨a, -, h⟩ := exists_of_bind_eq_ok h
    have hinner : JoinsHave Q inner.selects := huses _ (List.mem_singleton.2 rfl)
    exact Select.bears_setOrigin (Select.joinsHave_subqueryOrigin hinner a) hs h
  | join j =>
    cases h
    have hj : Q j ∧ JoinsHave Q j.selects := huses _ (List.mem_singleton.2 rfl)
    exact { hs with
      joins := List.forall_mem_append.2 ⟨hs.joins, List.forall_mem_singleton.2 hj⟩ }
  | selectWhere item =>
    obtain ⟨filter, hfilter, h⟩ := exists_of_bind_eq_ok h
    cases h
    exact { hs with
      filter := Clause.joinsHave_add (Item.joinsHave_of_uses huses) hs.filter hfilter }
  | selectOrWhere item =>
    obtain ⟨filter, hfilter, h⟩ := exists_of_bind_eq_ok h
    cases h
    exact { hs with
      filter := Clause.joinsHave_addJoined (Item.joinsHave_of_uses huses) hs.filter hfilter }
  | having item =>
    obtain ⟨having, hhaving, h⟩ := exists_of_bind_eq_ok h
    cases h
    exact { hs with
      having := Clause.joinsHave_add (Item.joinsHave_of_uses huses) hs.having hhaving }
  | combine operation other =>
    have hother : JoinsHave Q other.selects := huses _ (List.mem_singleton.2 rfl)
    have hcombined := Select.joinsHave_combined hother operation
    simp only [build, Select.combine] at h
    split at h
    · split at h <;> cases h
      exact { hs with combined := hcombined }
    · cases h
      exact { hs with combined := hcombined }
  | order terms =>
    obtain ⟨terms, -, h⟩ := exists_of_bind_eq_ok h
    cases h
    exact { hs with }

/-! ## Statements -/

theorem Insert.joinsHave_iff (i : Insert) : JoinsHave Q (Node.selects .insert i) ↔
    (∀ s, i.source? = some s → JoinsHave Q s.selects) ∧
      ∀ row ∈ i.rows, ∀ o ∈ row, JoinsHave Q o.selects := by
  simp only [Node.selects, joinsHave_append, joinsHave_flatMap, Option.mem_toList, List.mem_flatten]
  refine and_congr_right fun _ => ⟨fun h row hrow o ho => h o ⟨row, hrow, ho⟩, ?_⟩
  rintro h o ⟨row, hrow, ho⟩
  exact h row hrow o ho

theorem Update.joinsHave_iff (u : Update) : JoinsHave Q (Node.selects .update u) ↔
    (∀ a ∈ u.assignments, JoinsHave Q a.value.selects) ∧ JoinsHave Q u.filter.selects := by
  simp only [Node.selects, joinsHave_append, joinsHave_flatMap]

namespace Insert

/-- A row brings in the selects of its values only. -/
theorem joinsHave_addRow {row : List Operand} {i i' : Insert}
    (hrow : ∀ o ∈ row, JoinsHave Q o.selects) (hi : JoinsHave Q (Node.selects .insert i))
    (h : i.addRow row = .ok i') : JoinsHave Q (Node.selects .insert i') := by
  obtain ⟨-, rfl⟩ := addRow_eq_ok h
  rw [joinsHave_iff] at hi ⊢
  exact ⟨hi.1, List.forall_mem_append.2 ⟨hi.2, List.forall_mem_singleton.2 hrow⟩⟩

theorem joinsHave_addNamedRow {pairs : List (String × Operand)} {i i' : Insert}
    (hpairs : ∀ o ∈ pairs.map Prod.snd, JoinsHave Q o.selects)
    (hi : JoinsHave Q (Node.selects .insert i)) (h : i.addNamedRow pairs = .ok i') :
    JoinsHave Q (Node.selects .insert i') := by
  obtain ⟨named, hnamed, h⟩ := exists_of_bind_eq_ok h
  have hvalues : ∀ o ∈ named.map Prod.snd, JoinsHave Q o.selects :=
    fun o ho => hpairs o (mem_of_namedValues hnamed o ho)
  split at h
  · obtain ⟨added, hadded, h⟩ := exists_of_bind_eq_ok h
    cases h
    have hrow : JoinsHave Q (Node.selects .insert added) := joinsHave_addRow hvalues hi hadded
    rw [joinsHave_iff] at hrow ⊢
    exact hrow
  · split at h
    · cases h
    obtain ⟨row, hrow, h⟩ := exists_of_bind_eq_ok h
    exact joinsHave_addRow (fun o ho => hvalues o (mem_of_valuesFor hrow o ho)) hi h

end Insert

namespace Update

theorem joinsHave_set {name : String} {value : Operand} {u u' : Update}
    (hvalue : JoinsHave Q value.selects) (hu : JoinsHave Q (Node.selects .update u))
    (h : u.set name value = .ok u') : JoinsHave Q (Node.selects .update u') := by
  obtain ⟨column, -, h⟩ := exists_of_bind_eq_ok h
  cases h
  rw [joinsHave_iff] at hu ⊢
  have hassign (assignments : List Assignment)
      (hall : ∀ a ∈ assignments, JoinsHave Q a.value.selects) :
      ∀ a ∈ assign column value assignments, JoinsHave Q a.value.selects := by
    induction assignments with
    | nil => exact List.forall_mem_singleton.2 hvalue
    | cons a rest ih =>
      obtain ⟨ha, hrest⟩ := List.forall_mem_cons.1 hall
      rw [assign]
      split
      · exact List.forall_mem_cons.2 ⟨hvalue, hrest⟩
      · exact List.forall_mem_cons.2 ⟨ha, ih hrest⟩
  exact ⟨hassign _ hu.1, hu.2⟩

theorem joinsHave_setAll {pairs : List (String × Operand)} {u u' : Update}
    (hpairs : ∀ o ∈ pairs.map Prod.snd, JoinsHave Q o.selects)
    (hu : JoinsHave Q (Node.selects .update u)) (h : setAll pairs u = .ok u') :
    JoinsHave Q (Node.selects .update u') := by
  induction pairs generalizing u with
  | nil =>
    cases h
    exact hu
  | cons pair pairs ih =>
    obtain ⟨name, value⟩ := pair
    rw [List.map_cons, List.forall_mem_cons] at hpairs
    rw [setAll] at h
    split at h
    · next u₁ hset => exact ih hpairs.2 (joinsHave_set hpairs.1 hu hset) h
    · cases h

end Update

namespace Builder

/-! Builders of each kind leave a property to the joins of a node, if what
they use has it. -/

theorem joinsHave_build_insert {b : Builder .insert} {i i' : Insert}
    (huses : ∀ u ∈ b.uses, Node.OnJoins Q u.1 u.2) (hi : JoinsHave Q (Node.selects .insert i))
    (h : b.build i = .ok i') : JoinsHave Q (Node.selects .insert i') := by
  have hinsert := (Insert.joinsHave_iff i).1 hi
  cases b with
  | insertInto name =>
    obtain ⟨table, rfl⟩ := Insert.intoTable_eq_ok h
    exact (Insert.joinsHave_iff _).2 hinsert
  | columns names =>
    obtain ⟨columns, rfl⟩ := Insert.setColumns_eq_ok h
    exact (Insert.joinsHave_iff _).2 hinsert
  | row values => exact Insert.joinsHave_addRow (joinsHave_of_values_uses huses) hi h
  | namedRow pairs => exact Insert.joinsHave_addNamedRow (joinsHave_of_values_uses huses) hi h
  | source s =>
    obtain ⟨-, rfl⟩ := Insert.fromSelect_eq_ok h
    refine (Insert.joinsHave_iff _).2 ⟨fun s' hs' => ?_, hinsert.2⟩
    cases hs'
    exact huses _ (List.mem_singleton.2 rfl)

theorem joinsHave_build_update {b : Builder .update} {u u' : Update}
    (huses : ∀ a ∈ b.uses, Node.OnJoins Q a.1 a.2) (hu : JoinsHave Q (Node.selects .update u))
    (h : b.build u = .ok u') : JoinsHave Q (Node.selects .update u') := by
  have hupdate := (Update.joinsHave_iff u).1 hu
  cases b with
  | updateTable name =>
    simp only [build, Update.setTable] at h
    split at h
    · cases h
    · obtain ⟨table, -, h⟩ := exists_of_bind_eq_ok h
      cases h
      exact (Update.joinsHave_iff _).2 hupdate
  | set name value => exact Update.joinsHave_set (Operand.joinsHave_of_uses huses) hu h
  | setAll pairs => exact Update.joinsHave_setAll (joinsHave_of_values_uses huses) hu h
  | updateWhere item =>
    obtain ⟨filter, hfilter, h⟩ := exists_of_bind_eq_ok h
    cases h
    exact (Update.joinsHave_iff _).2
      ⟨hupdate.1, Clause.joinsHave_add (Item.joinsHave_of_uses huses) hupdate.2 hfilter⟩
  | updateOrWhere item =>
    obtain ⟨filter, hfilter, h⟩ := exists_of_bind_eq_ok h
    cases h
    exact (Update.joinsHave_iff _).2
      ⟨hupdate.1, Clause.joinsHave_addJoined (Item.joinsHave_of_uses huses) hupdate.2 hfilter⟩

theorem joinsHave_build_delete {b : Builder .delete} {d d' : Delete}
    (huses : ∀ u ∈ b.uses, Node.OnJoins Q u.1 u.2) (hd : JoinsHave Q d.filter.selects)
    (h : b.build d = .ok d') : JoinsHave Q d'.filter.selects := by
  cases b with
  | deleteFrom name =>
    simp only [build, Delete.fromTable] at h
    split at h
    · cases h
    · obtain ⟨table, -, h⟩ := exists_of_bind_eq_ok h
      cases h
      exact hd
  | deleteWhere item =>
    obtain ⟨filter, hfilter, h⟩ := exists_of_bind_eq_ok h
    cases h
    exact Clause.joinsHave_add (Item.joinsHave_of_uses huses) hd hfilter
  | deleteOrWhere item =>
    obtain ⟨filter, hfilter, h⟩ := exists_of_bind_eq_ok h
    cases h
    exact Clause.joinsHave_addJoined (Item.joinsHave_of_uses huses) hd hfilter

theorem joinsHave_build_join {b : Builder .join} {j j' : Join}
    (huses : ∀ u ∈ b.uses, Node.OnJoins Q u.1 u.2) (hj : JoinsHave Q j.selects)
    (h : b.build j = .ok j') : JoinsHave Q j'.selects := by
  have hparts := (Join.joinsHave_iff j).1 hj
  refine (Join.joinsHave_iff _).2 ?_
  cases b with
  | label name =>
    obtain ⟨a, -, h⟩ := exists_of_bind_eq_ok h
    cases h
    exact hparts
  | on item =>
    simp only [build, Join.onItem] at h
    split at h
    · cases h
    · obtain ⟨on, hon, h⟩ := exists_of_bind_eq_ok h
      cases h
      exact ⟨hparts.1, Clause.joinsHave_add (Item.joinsHave_of_uses huses) hparts.2 hon⟩

/-- A builder leaves a property to the joins of a node, if what it uses has it
and builders of joins leave it to joins. -/
theorem onJoins_build
    (hjoin : ∀ {b : Builder .join} {j j' : Join}, Q j → b.build j = .ok j' → Q j') {k : Kind}
    {b : Builder k} {n n' : Node k} (huses : ∀ u ∈ b.uses, Node.OnJoins Q u.1 u.2)
    (hn : Node.OnJoins Q k n) (h : b.build n = .ok n') : Node.OnJoins Q k n' := by
  cases k with
  | select =>
    exact (Select.joinsHave_iff _).2 (bears_build huses ((Select.joinsHave_iff _).1 hn) h)
  | insert => exact joinsHave_build_insert huses hn h
  | update => exact joinsHave_build_update huses hn h
  | delete => exact joinsHave_build_delete huses hn h
  | join => exact ⟨hjoin hn.1 h, joinsHave_build_join huses hn.2 h⟩
  | _ => cases b

end Builder

/-- What is made has the joins of what it is made of, and is itself a new one
if it is a join. -/
theorem Maker.onJoins_make (hmade : ∀ kind target, Q (Join.ofTarget kind target)) {k : Kind}
    {m : Maker k} {n : Node k} (huses : ∀ u ∈ m.uses, Node.OnJoins Q u.1 u.2)
    (h : m.make = .ok n) : Node.OnJoins Q k n := by
  cases m with
  | select =>
    cases h
    exact (Select.joinsHave_iff _).2 Select.bears_empty
  | insert | update | delete | reference =>
    cases h
    exact joinsHave_nil
  | group default =>
    cases h
    exact Group.joinsHave_empty default
  | specification spec => exact Group.joinsHave_specify (Group.joinsHave_empty _) h
  | clause kind =>
    cases h
    exact Clause.joinsHave_empty kind
  | table kind name =>
    obtain ⟨name, -, h⟩ := exists_of_bind_eq_ok h
    cases h
    refine ⟨hmade kind _, (Join.joinsHave_iff _).2 ⟨?_, Clause.joinsHave_empty _⟩⟩
    rw [Join.ofTarget, JoinTarget.selects]
    exact joinsHave_nil
  | subquery kind s =>
    cases h
    have htarget := (JoinTarget.joinsHave_subquery s).2 (huses _ (List.mem_singleton.2 rfl))
    exact ⟨hmade kind _, (Join.joinsHave_iff _).2 ⟨htarget, Clause.joinsHave_empty _⟩⟩
  | comparison left op right =>
    exact Predicate.joinsHave_compare (Operand.joinsHave_of_uses huses) h
  | between left negated low high =>
    obtain ⟨hlow, hhigh⟩ := List.forall_mem_append.1 huses
    exact Predicate.joinsHave_inRange (Operand.joinsHave_of_uses hlow)
      (Operand.joinsHave_of_uses hhigh) h
  | inValues => exact Predicate.joinsHave_inList h
  | like left negated pattern escape =>
    exact Predicate.joinsHave_matching (Operand.joinsHave_of_uses huses) h
  | truth | literal =>
    cases h
    exact Predicate.joinsHave_of_isPlain rfl
  | inSelect | existence | quantified | tested =>
    cases h
    change JoinsHave Q (Predicate.selects _)
    rw [Predicate.selects]
    exact huses _ (List.mem_singleton.2 rfl)
  | expression template slots =>
    obtain ⟨rfl, -⟩ := Expression.template_make h
    change JoinsHave Q (Expression.selects _)
    rw [Expression.selects, slotSelects_eq, joinsHave_flatMap]
    exact fun slot hslot => Filling.joinsHave_of_uses fun u hu =>
      huses u (List.mem_flatMap.2 ⟨slot, hslot, hu⟩)

/-- A change leaves a property to the joins of a node, if what it uses has
it. -/
theorem Change.onJoins_edit {k : Kind} {c : Change k} {n : Node k}
    (huses : ∀ u ∈ c.uses, Node.OnJoins Q u.1 u.2) (hn : Node.OnJoins Q k n) :
    Node.OnJoins Q k (left (c.edit n)) := by
  cases c with
  | add item => exact Group.keeps_joins_add (Item.joinsHave_of_uses huses) n hn
  | addJoined connective item =>
    exact Group.keeps_joins_addJoined (Item.joinsHave_of_uses huses) connective n hn
  | joinNext connective => exact Group.joinsHave_joinNext hn connective
  | setDefault connective => exact (Group.joinsHave_iff _).2 ((Group.joinsHave_iff n).1 hn)
  | clear => exact (Group.joinsHave_iff _).2 (List.forall_mem_nil _)
  | addTo item =>
    exact Clause.keeps_joins_onGroup (Group.keeps_joins_add (Item.joinsHave_of_uses huses)) n hn

/-! ## Ways below -/

namespace Hop

variable {access : Access} {k l : Kind} {hop : Hop k l} {n : Node k} {child : Node l}

/-- What is found below a node has joins of the node only. -/
theorem onJoins_find? (hn : Node.OnJoins Q k n)
    (h : hop.find? n = some child) : Node.OnJoins Q l child := by
  cases hop with
  | selectFilter =>
    exact (Clause.joinsHave_iff _).1 ((Select.joinsHave_iff n).1 hn).filter child h
  | having => exact (Clause.joinsHave_iff _).1 ((Select.joinsHave_iff n).1 hn).having child h
  | updateFilter => exact (Clause.joinsHave_iff _).1 ((Update.joinsHave_iff n).1 hn).2 child h
  | deleteFilter => exact (Clause.joinsHave_iff _).1 hn child h
  | join index => exact ((Select.joinsHave_iff n).1 hn).joins child (List.mem_of_getElem? h)
  | origin => exact Select.joinsHave_of_originSelect? ((Select.joinsHave_iff n).1 hn) h
  | source => exact ((Insert.joinsHave_iff n).1 hn).1 child h
  | condition => exact (Clause.joinsHave_iff _).1 ((Join.joinsHave_iff n).1 hn.2).2 child h
  | joined =>
    obtain ⟨_, _ | s, _, _, _⟩ : Join := n
    · cases h
    · cases h
      exact (JoinTarget.joinsHave_subquery _).1 ((Join.joinsHave_iff _).1 hn.2).1
  | predicates => exact (Clause.joinsHave_iff _).1 hn child h
  | term index => exact Group.joinsHave_predicateAt? hn h
  | nest connective =>
    obtain ⟨p, hp, hgroup⟩ := Option.bind_eq_some_iff.1 h
    exact Predicate.joinsHave_of_group? (Group.joinsHave_predicateAt? hn hp) hgroup
  | asGroup => exact Predicate.joinsHave_of_group? hn h
  | subquery => exact Predicate.joinsHave_of_select? hn h

variable
  (hcondition : ∀ {j : Join} (g : Group), access .join .group .condition j → Q j →
    Q { j.uncached with on := j.on.putGroup g })
  (htarget : ∀ {j : Join} (target : JoinTarget), Q j → Q { j.uncached with target })
include hcondition htarget

/-- Going below a node changes joins only where it opens their conditions. -/
theorem onJoins_enter (hhop : access k l hop n) (hn : Node.OnJoins Q k n) :
    Node.OnJoins Q k (hop.enter n) := by
  cases hop with
  | selectFilter =>
    have hselect := (Select.joinsHave_iff n).1 hn
    exact (Select.joinsHave_iff _).2
      { hselect with filter := Clause.joinsHave_opened hselect.filter }
  | having =>
    have hselect := (Select.joinsHave_iff n).1 hn
    exact (Select.joinsHave_iff _).2
      { hselect with having := Clause.joinsHave_opened hselect.having }
  | updateFilter =>
    have hupdate := (Update.joinsHave_iff n).1 hn
    exact (Update.joinsHave_iff _).2 ⟨hupdate.1, Clause.joinsHave_opened hupdate.2⟩
  | deleteFilter => exact Clause.joinsHave_opened (c := Delete.filter n) hn
  | join index | origin =>
    exact (Select.joinsHave_iff _).2 { (Select.joinsHave_iff n).1 hn with }
  | source => exact (Insert.joinsHave_iff _).2 ((Insert.joinsHave_iff n).1 hn)
  | condition =>
    have hparts := (Join.joinsHave_iff n).1 hn.2
    exact ⟨hcondition _ hhop hn.1,
      (Join.joinsHave_iff _).2 ⟨hparts.1, Clause.joinsHave_opened hparts.2⟩⟩
  | joined => exact ⟨htarget _ hn.1, (Join.joinsHave_iff _).2 ((Join.joinsHave_iff n).1 hn.2)⟩
  | predicates => exact Clause.joinsHave_opened hn
  | term index => exact Group.joinsHave_uncached hn
  | nest connective => exact Group.joinsHave_pushGroup hn (Group.joinsHave_empty connective)
  | asGroup | subquery => exact hn

/-- Coming back to a node, its joins are those that it had and those of what
somebody comes back from. -/
theorem onJoins_put {found : Node l} (hhop : access k l hop n) (hn : Node.OnJoins Q k n)
    (hfound : hop.find? (hop.enter n) = some found) (hchild : Node.OnJoins Q l child) :
    Node.OnJoins Q k (hop.put child (hop.enter n)) := by
  have hentered := onJoins_enter hcondition htarget hhop hn
  cases hop with
  | selectFilter =>
    exact (Select.joinsHave_iff _).2
      { (Select.joinsHave_iff _).1 hentered with filter := Clause.joinsHave_putGroup hchild }
  | having =>
    exact (Select.joinsHave_iff _).2
      { (Select.joinsHave_iff _).1 hentered with having := Clause.joinsHave_putGroup hchild }
  | updateFilter =>
    have hupdate := (Update.joinsHave_iff _).1 hentered
    exact (Update.joinsHave_iff _).2 ⟨hupdate.1, Clause.joinsHave_putGroup hchild⟩
  | deleteFilter => exact Clause.joinsHave_putGroup (c := (Delete.filter n).opened) hchild
  | join index =>
    have hselect := (Select.joinsHave_iff _).1 hentered
    refine (Select.joinsHave_iff _).2 { hselect with joins := fun j hj => ?_ }
    rcases List.mem_or_eq_of_mem_set hj with hj | rfl
    · exact hselect.joins j hj
    · exact hchild
  | origin =>
    exact (Select.joinsHave_iff _).2
      (Select.bears_putOriginSelect ((Select.joinsHave_iff _).1 hentered) hchild)
  | source =>
    have hinsert := (Insert.joinsHave_iff _).1 hentered
    refine (Insert.joinsHave_iff _).2 ⟨fun s hs => ?_, hinsert.2⟩
    cases hs
    exact hchild
  | condition =>
    have hparts := (Join.joinsHave_iff _).1 hentered.2
    exact ⟨hcondition (j := n) child hhop hn.1,
      (Join.joinsHave_iff _).2 ⟨hparts.1, Clause.joinsHave_putGroup hchild⟩⟩
  | joined =>
    obtain ⟨kind, _ | s, alias?, on, cache⟩ : Join := n
    · cases hfound
    · have hparts := (Join.joinsHave_iff _).1 hentered.2
      exact ⟨htarget _ hn.1,
        (Join.joinsHave_iff _).2 ⟨(JoinTarget.joinsHave_subquery child).2 hchild, hparts.2⟩⟩
  | predicates => exact Clause.joinsHave_putGroup (c := Clause.opened n) hchild
  | term index => exact Group.joinsHave_putPredicateAt hentered index hchild
  | nest connective =>
    exact Group.joinsHave_putPredicateAt hentered _ ((Predicate.joinsHave_group child).2 hchild)
  | asGroup => exact Predicate.joinsHave_putGroup hn hchild
  | subquery => exact Predicate.joinsHave_putSelect hn hchild

end Hop

/-! ## Along a history -/

/-- What its own methods and going below it leave to a join, histories leave
to all joins. -/
theorem invariant_onJoins {access : Access} (hfresh : ∀ j : Join, Q j.fresh ↔ Q j)
    (hmade : ∀ kind target, Q (Join.ofTarget kind target))
    (hbuild : ∀ {b : Builder .join} {j j' : Join}, Q j → b.build j = .ok j' → Q j')
    (hcondition : ∀ {j : Join} (g : Group), access .join .group .condition j → Q j →
      Q { j.uncached with on := j.on.putGroup g })
    (htarget : ∀ {j : Join} (target : JoinTarget), Q j → Q { j.uncached with target }) :
    Invariant access (Node.OnJoins Q) where
  fresh := fun n => Node.onJoins_fresh hfresh n
  make := fun huses h => Maker.onJoins_make hmade huses h
  build := fun huses hn h => Builder.onJoins_build hbuild huses hn h
  change := fun huses hn => Change.onJoins_edit huses hn
  enter := fun hhop hn => Hop.onJoins_enter hcondition htarget hhop hn
  find := fun hhop hn h =>
    Hop.onJoins_find? (Hop.onJoins_enter hcondition htarget hhop hn) h
  put := fun hhop hn hfound hchild =>
    Hop.onJoins_put hcondition htarget hhop hn hfound hchild

end SqlTree
