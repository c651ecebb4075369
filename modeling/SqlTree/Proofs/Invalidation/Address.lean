import SqlTree.Proofs.Verbatim.Within

/-!
# SqlTree.Proofs.Invalidation.Address

Where nodes are in a tree.  A `Position` tells the nodes right below a node
apart, and a list of positions, read from the root on, is the address of a
node (`AnyNode.at?`).  Every node within another one has an address there
(`AnyNode.Within.exists_address`).

`AnyNode.Altered` compares a tree with what an exact change at an address
makes of it: the nodes above keep nothing, the node there keeps nothing or
reads as it did before, and every other node is where it was, with everything
that is kept in it and below.  It is shown from the address on upwards:
`Altered.here` at the node itself, `Altered.step` for a node above, and
`Route.altered` for all nodes on the way.
-/

namespace SqlTree

/-- What is found in a list is found in a longer one. -/
theorem getElem?_of_prefix {α : Type} {as bs : List α} (h : as <+: bs) {i : Nat} {a : α}
    (ha : as[i]? = some a) : bs[i]? = some a := by
  obtain ⟨more, rfl⟩ := h
  rw [List.getElem?_append_left (List.getElem?_eq_some_iff.1 ha).1, ha]

/-! ## Positions -/

/-- Where a node is in the one above it. -/
inductive Position where
  | column (index : Nat)
  | origin
  | join (index : Nat)
  | filter
  | having
  | combined
  | value (row index : Nat)
  | source
  | assigned (index : Nat)
  | target
  | on
  | group
  | term (index : Nat)
  | part (index : Nat)
deriving DecidableEq

/-- The nodes right below an expression. -/
def Expression.parts (e : Expression) : List AnyNode :=
  e.slots.flatMap fun slot => slot.filling.uses

/-- The node at a position of a select. -/
def Select.child? (s : Select) : Position → Option AnyNode
  | .column i => s.columns[i]?.bind fun c => c.source.uses.head?
  | .origin => s.originSelect?.map (⟨.select, ·⟩)
  | .join i => s.joins[i]?.map (⟨.join, ·⟩)
  | .filter => some ⟨.clause, s.filter⟩
  | .having => some ⟨.clause, s.having⟩
  | .combined => s.combined?.map fun combined => ⟨.select, combined.2⟩
  | _ => none

/-- The node at a position of an insert. -/
def Insert.child? (i : Insert) : Position → Option AnyNode
  | .value row index => (i.rows[row]?.bind (·[index]?)).bind fun o => o.uses.head?
  | .source => i.source?.map (⟨.select, ·⟩)
  | _ => none

/-- The node at a position of an update. -/
def Update.child? (u : Update) : Position → Option AnyNode
  | .assigned i => u.assignments[i]?.bind fun a => a.value.uses.head?
  | .filter => some ⟨.clause, u.filter⟩
  | _ => none

/-- The node at a position of a delete. -/
def Delete.child? (d : Delete) : Position → Option AnyNode
  | .filter => some ⟨.clause, d.filter⟩
  | _ => none

/-- The node at a position of a join. -/
def Join.child? (j : Join) : Position → Option AnyNode
  | .target => j.select?.map (⟨.select, ·⟩)
  | .on => some ⟨.clause, j.on⟩
  | _ => none

/-- The node at a position of a clause. -/
def Clause.child? (c : Clause) : Position → Option AnyNode
  | .group => c.group?.map (⟨.group, ·⟩)
  | _ => none

/-- The node at a position of a group. -/
def Group.child? (g : Group) : Position → Option AnyNode
  | .term i => (g.predicateAt? i).map (⟨.predicate, ·⟩)
  | _ => none

/-- The node at a position of a node that has its parts in a row. -/
def partAt? (parts : List AnyNode) : Position → Option AnyNode
  | .part i => parts[i]?
  | _ => none

namespace AnyNode

/-- The node at a position right below a node. -/
def child? : AnyNode → Position → Option AnyNode
  | ⟨.select, (s : Select)⟩ => s.child?
  | ⟨.insert, (i : Insert)⟩ => i.child?
  | ⟨.update, (u : Update)⟩ => u.child?
  | ⟨.delete, (d : Delete)⟩ => d.child?
  | ⟨.group, (g : Group)⟩ => g.child?
  | ⟨.clause, (c : Clause)⟩ => c.child?
  | ⟨.join, (j : Join)⟩ => j.child?
  | ⟨.predicate, (p : Predicate)⟩ => partAt? p.uses
  | ⟨.expression, (e : Expression)⟩ => partAt? e.parts
  | ⟨.reference, _⟩ => fun _ => none

/-- The node at an address. -/
def at? : List Position → AnyNode → Option AnyNode
  | [], u => some u
  | p :: a, u => (u.child? p).bind (at? a)

theorem at?_cons {u : AnyNode} {p : Position} {a : List Position} :
    u.at? (p :: a) = (u.child? p).bind (at? a) := rfl

end AnyNode

/-! ## Every node has a position -/

theorem Operand.head?_uses {o : Operand} {u : AnyNode} (h : u ∈ o.uses) :
    o.uses.head? = some u := by
  cases o with
  | expression e | subquery s =>
    cases List.mem_singleton.1 h
    rfl
  | value v | identifier i | literal l => cases h

theorem ColumnSource.head?_uses {source : ColumnSource} {u : AnyNode} (h : u ∈ source.uses) :
    source.uses.head? = some u := by
  cases source with
  | expression e | subquery s =>
    cases List.mem_singleton.1 h
    rfl
  | reference r => cases h

theorem Select.exists_child? {s : Select} {u : AnyNode} (h : u ∈ s.uses) :
    ∃ p, s.child? p = some u := by
  simp only [uses, List.mem_append] at h
  rcases h with hcolumn | horigin | hjoin | hclause | hcombined
  · obtain ⟨c, hc, hu⟩ := List.mem_flatMap.1 hcolumn
    obtain ⟨i, hi⟩ := List.mem_iff_getElem?.1 hc
    exact ⟨.column i, Option.bind_eq_some_iff.2 ⟨c, hi, ColumnSource.head?_uses hu⟩⟩
  · obtain ⟨origin, hin, hu⟩ := List.mem_flatMap.1 horigin
    cases origin with
    | table name alias? => cases hu
    | subquery inner a =>
      have hselect : s.originSelect? = some inner := by
        rw [originSelect?, Option.mem_toList.1 hin]
      cases List.mem_singleton.1 hu
      exact ⟨.origin, Option.map_eq_some_iff.2 ⟨inner, hselect, rfl⟩⟩
  · obtain ⟨j, hj, rfl⟩ := List.mem_map.1 hjoin
    obtain ⟨i, hi⟩ := List.mem_iff_getElem?.1 hj
    exact ⟨.join i, Option.map_eq_some_iff.2 ⟨j, hi, rfl⟩⟩
  · rcases List.mem_cons.1 hclause with rfl | hhaving
    · exact ⟨.filter, rfl⟩
    · cases List.mem_singleton.1 hhaving
      exact ⟨.having, rfl⟩
  · obtain ⟨combined, hin, rfl⟩ := List.mem_map.1 hcombined
    exact ⟨.combined, Option.map_eq_some_iff.2 ⟨combined, Option.mem_toList.1 hin, rfl⟩⟩

theorem Insert.exists_child? {i : Insert} {u : AnyNode} (h : u ∈ i.uses) :
    ∃ p, i.child? p = some u := by
  unfold uses at h
  split at h
  · next s hsource =>
    cases List.mem_singleton.1 h
    exact ⟨.source, Option.map_eq_some_iff.2 ⟨s, hsource, rfl⟩⟩
  · obtain ⟨o, ho, hu⟩ := List.mem_flatMap.1 h
    obtain ⟨row, hrow, ho⟩ := List.mem_flatten.1 ho
    obtain ⟨r, hr⟩ := List.mem_iff_getElem?.1 hrow
    obtain ⟨c, hc⟩ := List.mem_iff_getElem?.1 ho
    exact ⟨.value r c, Option.bind_eq_some_iff.2
      ⟨o, Option.bind_eq_some_iff.2 ⟨row, hr, hc⟩, Operand.head?_uses hu⟩⟩

theorem Join.exists_child? {j : Join} {u : AnyNode} (h : u ∈ j.target.uses) :
    ∃ p, j.child? p = some u := by
  cases htarget : j.target with
  | table name =>
    rw [htarget] at h
    cases h
  | subquery s =>
    rw [htarget] at h
    cases List.mem_singleton.1 h
    have hselect : j.select? = some s := by simp only [select?, htarget]
    exact ⟨.target, Option.map_eq_some_iff.2 ⟨s, hselect, rfl⟩⟩

namespace AnyNode

theorem exists_child? {u w : AnyNode} (h : u ∈ w.uses) : ∃ p, w.child? p = some u := by
  obtain ⟨k, n⟩ := w
  cases k with
  | select => exact Select.exists_child? h
  | insert => exact Insert.exists_child? h
  | update =>
    rcases List.mem_append.1 h with hassigned | hfilter
    · obtain ⟨a, ha, hu⟩ := List.mem_flatMap.1 hassigned
      obtain ⟨i, hi⟩ := List.mem_iff_getElem?.1 ha
      exact ⟨.assigned i, Option.bind_eq_some_iff.2 ⟨a, hi, Operand.head?_uses hu⟩⟩
    · cases List.mem_singleton.1 hfilter
      exact ⟨.filter, rfl⟩
  | delete =>
    cases List.mem_singleton.1 h
    exact ⟨.filter, rfl⟩
  | group =>
    obtain ⟨t, ht, rfl⟩ := List.mem_map.1 h
    obtain ⟨i, hi⟩ := List.mem_iff_getElem?.1 ht
    have hp : Group.predicateAt? i n = some t.predicate := Option.map_eq_some_iff.2 ⟨t, hi, rfl⟩
    exact ⟨.term i, Option.map_eq_some_iff.2 ⟨t.predicate, hp, rfl⟩⟩
  | clause =>
    obtain ⟨g, hg, rfl⟩ := List.mem_map.1 h
    exact ⟨.group, Option.map_eq_some_iff.2 ⟨g, Option.mem_toList.1 hg, rfl⟩⟩
  | join =>
    rcases List.mem_append.1 h with htarget | hon
    · exact Join.exists_child? htarget
    · cases List.mem_singleton.1 hon
      exact ⟨.on, rfl⟩
  | predicate =>
    obtain ⟨i, hi⟩ := List.mem_iff_getElem?.1 h
    exact ⟨.part i, hi⟩
  | expression | reference => cases h

/-- Every node within another one has an address there. -/
theorem Within.exists_address {u w : AnyNode} (h : u.Within w) : ∃ a, w.at? a = some u := by
  induction h with
  | refl => exact ⟨[], rfl⟩
  | step hv _ ih =>
    obtain ⟨p, hp⟩ := exists_child? hv
    obtain ⟨a, ha⟩ := ih
    exact ⟨p :: a, by rw [at?_cons, hp, Option.bind_some, ha]⟩

/-! ## Exact changes -/

/-- Nothing is kept in the node itself; what lies below may keep what it
has. -/
def Cleared : AnyNode → Prop
  | ⟨.select, (s : Select)⟩ => s.cache = none ∧ s.columnTexts = none
  | ⟨.insert, (i : Insert)⟩ => i.cache = none
  | ⟨.update, (u : Update)⟩ => u.cache = none
  | ⟨.delete, (d : Delete)⟩ => d.cache = none
  | ⟨.group, (g : Group)⟩ => g.cache = none
  | ⟨.join, (j : Join)⟩ => j.cache = none
  | ⟨.clause, _⟩ | ⟨.predicate, _⟩ | ⟨.expression, _⟩ | ⟨.reference, _⟩ => True

/-- The same node again, with the same kept texts, but perhaps a group that
joins what will be added to it in another way. -/
inductive ReadsAs : AnyNode → AnyNode → Prop where
  | same (u : AnyNode) : ReadsAs u u
  | joining {g g' : Group} (default : Connective) (pending : Option Connective)
      (h : g' = { g with default, pending }) : ReadsAs ⟨.group, g⟩ ⟨.group, g'⟩

theorem ReadsAs.of_eq {k : Kind} {n n' : Node k} (h : n' = n) : ReadsAs ⟨k, n⟩ ⟨k, n'⟩ :=
  h ▸ .same _

/-- What reads as before compiles as before. -/
theorem ReadsAs.compiles_alike {u v : AnyNode} (h : u.ReadsAs v) (d : Dialect) :
    answer (Node.compile d v.1 v.2) = answer (Node.compile d u.1 u.2) ∧
      ∀ c, answer (Node.compileInto d v.1 v.2 c) = answer (Node.compileInto d u.1 u.2 c) := by
  cases h with
  | same => exact ⟨rfl, fun _ => rfl⟩
  | @joining g _ default pending h =>
    subst h
    obtain ⟨terms, _, _, nested, cache⟩ := g
    constructor
    · simp only [Node.compile, Group.compile, asWhole, Keeps.cache]
      cases cache.wholeText? d with
      | some sql => rfl
      | none =>
        simp only [Keeps.keep, Group.body, Pass.run, Pass.visit, bind, EStateM.bind]
        cases termRuns d terms (.empty d.style) <;> rfl
    · intro c
      simp only [Node.compileInto, Group.compileInto, asPart, Keeps.cache]
      cases cache.partText? d with
      | some sql => rfl
      | none =>
        simp only [Keeps.keep, Group.body, Pass.run, Pass.visit, bind, EStateM.bind]
        cases termRuns d terms c <;> rfl

/-- A change at an address that is exact about what is kept.  `replaced` are
the positions below it whose nodes are removed or replaced. -/
structure Altered (address : List Position) (replaced : Position → Prop) (u u' : AnyNode) :
    Prop where
  above : ∀ a, a <+: address → a ≠ address → ∃ v, u'.at? a = some v ∧ v.Cleared
  node : ∃ v', u'.at? address = some v' ∧
    (v'.Cleared ∨ ∃ v, u.at? address = some v ∧ v.ReadsAs v')
  rest : ∀ a v, ¬a <+: address → (∀ p, replaced p → ¬address ++ [p] <+: a) →
    u.at? a = some v → u'.at? a = some v

/-- There is nothing kept in the node and below. -/
def Bare (u : AnyNode) : Prop := ∀ a v, u.at? a = some v → v.Cleared

/-- One tree is made from another one by a change from `w` to `w'` at a
position right below its root: the root keeps nothing afterwards, and no other
position is touched.  If there was no node before, nothing is kept in `w`. -/
structure Steps (p : Position) (u u' w w' : AnyNode) : Prop where
  root : u'.Cleared
  before : u.child? p = some w ∨ u.child? p = none ∧ w.Bare
  after : u'.child? p = some w'
  others : ∀ q v, q ≠ p → u.child? q = some v → u'.child? q = some v

variable {u u' v v' w w' : AnyNode} {p : Position} {a q : List Position}
variable {replaced : Position → Prop}

/-- A change of the node itself. -/
theorem Altered.here (hnode : u'.Cleared ∨ u.ReadsAs u')
    (hrest : ∀ p v, ¬replaced p → u.child? p = some v → u'.child? p = some v) :
    Altered [] replaced u u' where
  above a ha hne := absurd (List.prefix_nil.1 ha) hne
  node := ⟨u', rfl, hnode.imp_right fun h => ⟨u, rfl, h⟩⟩
  rest a v hnot hkept hv := by
    cases a with
    | nil => exact absurd List.prefix_rfl hnot
    | cons p a =>
      have hp : ¬replaced p := fun hp => hkept p hp (List.prefix_append [p] a)
      obtain ⟨c, hc, hv⟩ := Option.bind_eq_some_iff.1 hv
      rw [at?_cons, hrest p c hp hc]
      exact hv

/-- A change further down, seen from one node above. -/
theorem Altered.step (hstep : Steps p u u' w w') (h : Altered q replaced w w') :
    Altered (p :: q) replaced u u' where
  above a ha hne := by
    rcases List.prefix_cons_iff.1 ha with rfl | ⟨b, rfl, hb⟩
    · exact ⟨u', rfl, hstep.root⟩
    · rw [at?_cons, hstep.after]
      exact h.above b hb fun heq => hne (heq ▸ rfl)
  node := by
    obtain ⟨v', hv', hkept⟩ := h.node
    rw [at?_cons, hstep.after]
    refine ⟨v', hv', ?_⟩
    rcases hkept with hkept | ⟨v, hv, hreads⟩
    · exact .inl hkept
    · rcases hstep.before with hw | ⟨-, hbare⟩
      · rw [at?_cons, hw]
        exact .inr ⟨v, hv, hreads⟩
      · -- a node that was not there before keeps nothing, and neither does what reads the same
        refine .inl ?_
        have hnothing : v.Cleared := hbare q v hv
        cases hreads with
        | same => exact hnothing
        | joining default pending h =>
          subst h
          exact hnothing
  rest a v hnot hkept hv := by
    cases a with
    | nil => exact absurd List.nil_prefix hnot
    | cons p' a =>
      obtain ⟨c, hc, hv⟩ := Option.bind_eq_some_iff.1 hv
      rw [at?_cons]
      by_cases hp : p' = p
      · subst hp
        rcases hstep.before with hw | ⟨hw, -⟩
        · rw [hw] at hc
          cases hc
          rw [hstep.after]
          exact h.rest a v (fun ha => hnot (List.cons_prefix_cons.2 ⟨rfl, ha⟩))
            (fun r hr ha => hkept r hr (List.cons_prefix_cons.2 ⟨rfl, ha⟩)) hv
        · rw [hw] at hc
          cases hc
      · rw [hstep.others p' c hp hc]
        exact hv

/-- Nothing is altered. -/
theorem Altered.refl (replaced : Position → Prop) (u : AnyNode) : Altered [] replaced u u :=
  .here (.inr (.same u)) fun _ _ _ h => h

/-! ## Ways down -/

/-- One tree is made from another one by a change from `w` to `w'` at an
address, with a step for each position on the way. -/
inductive Route : List Position → (u u' w w' : AnyNode) → Prop where
  | here {w w' : AnyNode} : Route [] w w' w w'
  | step {p : Position} {q : List Position} {u u' v v' w w' : AnyNode} (first : Steps p u u' v v')
      (rest : Route q v v' w w') : Route (p :: q) u u' w w'

theorem Route.append (h : Route a u u' v v') (h' : Route q v v' w w') :
    Route (a ++ q) u u' w w' := by
  induction h with
  | here => exact h'
  | step first _ ih => exact .step first (ih h')

/-- The changed node is at the address. -/
theorem Route.at?_eq (h : Route a u u' w w') : u'.at? a = some w' := by
  induction h with
  | here => rfl
  | step first _ ih => rw [at?_cons, first.after, Option.bind_some, ih]

/-- A change that is exact for the lower node is exact for the tree. -/
theorem Route.altered (h : Route a u u' w w') (hbelow : Altered q replaced w w') :
    Altered (a ++ q) replaced u u' := by
  induction h with
  | here => exact hbelow
  | step first _ ih => exact .step first (ih hbelow)

end AnyNode

end SqlTree
