import SqlTree.Node

/-!
# SqlTree.Proofs.Selects

The selects in a tree.  `Node.selects` lists all of them, wherever they
stand: in columns, as an origin, joined, in operands and tests, in the
placeholders of expressions, combined with another select, and as the source
of an insert.
-/

namespace SqlTree

mutual

/-- The selects in an operand. -/
def Operand.selects : Operand → List Select
  | .value _ | .identifier _ | .literal _ => []
  | .expression e => e.selects
  | .subquery s => s.selects

/-- The selects in a filling. -/
def Filling.selects : Filling → List Select
  | .value _ | .identifier _ | .alias _ | .literal _ => []
  | .subquery s => s.selects

/-- The selects in slots. -/
def slotSelects : List Slot → List Select
  | [] => []
  | ⟨_, filling⟩ :: slots => filling.selects ++ slotSelects slots

/-- The selects in an expression. -/
def Expression.selects : Expression → List Select
  | ⟨_, slots⟩ => slotSelects slots

/-- The selects in a predicate. -/
def Predicate.selects : Predicate → List Select
  | .comparison _ _ right => right.selects
  | .between _ _ low high => low.selects ++ high.selects
  | .inValues _ _ _ _ | .truth _ _ _ | .literal _ => []
  | .inSelect _ _ s => s.selects
  | .like _ _ pattern _ => pattern.selects
  | .existence _ s => s.selects
  | .quantified _ _ _ s => s.selects
  | .expression e => e.selects
  | .group g => g.selects

/-- The selects in terms. -/
def termSelects : List Term → List Select
  | [] => []
  | ⟨_, p⟩ :: terms => p.selects ++ termSelects terms

/-- The selects in a group. -/
def Group.selects : Group → List Select
  | ⟨terms, _, _, _, _⟩ => termSelects terms

/-- The selects in a clause. -/
def Clause.selects : Clause → List Select
  | ⟨_, none⟩ => []
  | ⟨_, some g⟩ => g.selects

/-- The selects in a join target. -/
def JoinTarget.selects : JoinTarget → List Select
  | .table _ => []
  | .subquery s => s.selects

/-- The selects in a join. -/
def Join.selects : Join → List Select
  | ⟨_, target, _, on, _⟩ => target.selects ++ on.selects

/-- The selects in joins. -/
def joinSelects : List Join → List Select
  | [] => []
  | j :: joins => j.selects ++ joinSelects joins

/-- The selects in a column source. -/
def ColumnSource.selects : ColumnSource → List Select
  | .reference _ => []
  | .expression e => e.selects
  | .subquery s => s.selects

/-- The selects in columns. -/
def columnSelects : List Column → List Select
  | [] => []
  | ⟨source, _⟩ :: columns => source.selects ++ columnSelects columns

/-- The selects in an origin. -/
def originSelects : Option Origin → List Select
  | none | some (.table _ _) => []
  | some (.subquery s _) => s.selects

/-- The selects in a combined select. -/
def combinedSelects : Option (SetOperation × Select) → List Select
  | none => []
  | some (_, s) => s.selects

/-- A select with those in it. -/
def Select.selects : Select → List Select
  | ⟨distinct, columns, into?, origin?, joins, filter, groupBy, having, combined?, orderBy, limit,
      offset, nesting, pretty, columnTexts, cache⟩ =>
    ⟨distinct, columns, into?, origin?, joins, filter, groupBy, having, combined?, orderBy, limit,
        offset, nesting, pretty, columnTexts, cache⟩ ::
      (columnSelects columns ++ (originSelects origin? ++ (joinSelects joins ++
        (filter.selects ++ (having.selects ++ combinedSelects combined?)))))

end

/-- The selects in a node of any kind. -/
def Node.selects : (k : Kind) → Node k → List Select
  | .select, s => Select.selects s
  | .insert, i => (Insert.source? i).toList.flatMap Select.selects ++
      (Insert.rows i).flatten.flatMap Operand.selects
  | .update, u => (Update.assignments u).flatMap (fun a => a.value.selects) ++
      (Update.filter u).selects
  | .delete, del => (Delete.filter del).selects
  | .group, g => Group.selects g
  | .clause, c => Clause.selects c
  | .join, j => Join.selects j
  | .predicate, p => Predicate.selects p
  | .expression, e => Expression.selects e
  | .reference, _ => []

/-! ## Lists of parts -/

theorem slotSelects_eq (slots : List Slot) :
    slotSelects slots = slots.flatMap fun slot => slot.filling.selects := by
  induction slots with
  | nil => simp [slotSelects]
  | cons slot slots ih => cases slot; simp [slotSelects, ih]

theorem termSelects_eq (terms : List Term) :
    termSelects terms = terms.flatMap fun t => t.predicate.selects := by
  induction terms with
  | nil => simp [termSelects]
  | cons t terms ih => cases t; simp [termSelects, ih]

theorem joinSelects_eq (joins : List Join) : joinSelects joins = joins.flatMap Join.selects := by
  induction joins with
  | nil => simp [joinSelects]
  | cons j joins ih => simp [joinSelects, ih]

theorem columnSelects_eq (columns : List Column) :
    columnSelects columns = columns.flatMap fun c => c.source.selects := by
  induction columns with
  | nil => simp [columnSelects]
  | cons c columns ih => cases c; simp [columnSelects, ih]

theorem Group.selects_eq (g : Group) :
    g.selects = g.terms.flatMap fun t => t.predicate.selects := by
  cases g
  rw [Group.selects, termSelects_eq]

theorem Clause.selects_eq (c : Clause) : c.selects = c.group?.toList.flatMap Group.selects := by
  obtain ⟨kind, _ | g⟩ := c <;> simp [Clause.selects]

theorem Join.selects_eq (j : Join) : j.selects = j.target.selects ++ j.on.selects := by
  cases j
  rw [Join.selects]

/-! ## Copies -/

mutual

theorem Operand.selects_fresh : (o : Operand) → o.fresh.selects = o.selects.map Select.fresh
  | .value _ | .identifier _ | .literal _ => by simp [Operand.fresh, Operand.selects]
  | .expression e => by simp [Operand.fresh, Operand.selects, e.selects_fresh]
  | .subquery s => by simp [Operand.fresh, Operand.selects, s.selects_fresh]

theorem Filling.selects_fresh : (f : Filling) → f.fresh.selects = f.selects.map Select.fresh
  | .value _ | .identifier _ | .alias _ | .literal _ => by simp [Filling.fresh, Filling.selects]
  | .subquery s => by simp [Filling.fresh, Filling.selects, s.selects_fresh]

theorem slotSelects_fresh :
    (slots : List Slot) → slotSelects (freshSlots slots) = (slotSelects slots).map Select.fresh
  | [] => by simp [freshSlots, slotSelects]
  | ⟨_, f⟩ :: slots => by
    simp [freshSlots, Slot.fresh, slotSelects, f.selects_fresh, slotSelects_fresh slots]

theorem Expression.selects_fresh :
    (e : Expression) → e.fresh.selects = e.selects.map Select.fresh
  | ⟨_, slots⟩ => by simp [Expression.fresh, Expression.selects, slotSelects_fresh slots]

theorem Predicate.selects_fresh : (p : Predicate) → p.fresh.selects = p.selects.map Select.fresh
  | .comparison _ _ right => by simp [Predicate.fresh, Predicate.selects, right.selects_fresh]
  | .between _ _ low high => by
    simp [Predicate.fresh, Predicate.selects, low.selects_fresh, high.selects_fresh]
  | .inValues _ _ _ _ | .truth _ _ _ | .literal _ => by simp [Predicate.fresh, Predicate.selects]
  | .inSelect _ _ s => by simp [Predicate.fresh, Predicate.selects, s.selects_fresh]
  | .like _ _ pattern _ => by simp [Predicate.fresh, Predicate.selects, pattern.selects_fresh]
  | .existence _ s => by simp [Predicate.fresh, Predicate.selects, s.selects_fresh]
  | .quantified _ _ _ s => by simp [Predicate.fresh, Predicate.selects, s.selects_fresh]
  | .expression e => by simp [Predicate.fresh, Predicate.selects, e.selects_fresh]
  | .group g => by simp [Predicate.fresh, Predicate.selects, g.selects_fresh]

theorem termSelects_fresh :
    (terms : List Term) → termSelects (freshTerms terms) = (termSelects terms).map Select.fresh
  | [] => by simp [freshTerms, termSelects]
  | ⟨_, p⟩ :: terms => by
    simp [freshTerms, Term.fresh, termSelects, p.selects_fresh, termSelects_fresh terms]

theorem Group.selects_fresh : (g : Group) → g.fresh.selects = g.selects.map Select.fresh
  | ⟨terms, _, _, _, _⟩ => by simp [Group.fresh, Group.selects, termSelects_fresh terms]

theorem Clause.selects_fresh : (c : Clause) → c.fresh.selects = c.selects.map Select.fresh
  | ⟨_, none⟩ => by simp [Clause.fresh, Clause.selects]
  | ⟨_, some g⟩ => by simp [Clause.fresh, Clause.selects, g.selects_fresh]

theorem JoinTarget.selects_fresh :
    (t : JoinTarget) → t.fresh.selects = t.selects.map Select.fresh
  | .table _ => by simp [JoinTarget.fresh, JoinTarget.selects]
  | .subquery s => by simp [JoinTarget.fresh, JoinTarget.selects, s.selects_fresh]

theorem Join.selects_fresh : (j : Join) → j.fresh.selects = j.selects.map Select.fresh
  | ⟨_, target, _, on, _⟩ => by
    simp [Join.fresh, Join.selects, target.selects_fresh, on.selects_fresh]

theorem joinSelects_fresh :
    (joins : List Join) → joinSelects (freshJoins joins) = (joinSelects joins).map Select.fresh
  | [] => by simp [freshJoins, joinSelects]
  | j :: joins => by simp [freshJoins, joinSelects, j.selects_fresh, joinSelects_fresh joins]

theorem ColumnSource.selects_fresh :
    (source : ColumnSource) → source.fresh.selects = source.selects.map Select.fresh
  | .reference _ => by simp [ColumnSource.fresh, ColumnSource.selects]
  | .expression e => by simp [ColumnSource.fresh, ColumnSource.selects, e.selects_fresh]
  | .subquery s => by simp [ColumnSource.fresh, ColumnSource.selects, s.selects_fresh]

theorem columnSelects_fresh :
    (columns : List Column) →
      columnSelects (freshColumns columns) = (columnSelects columns).map Select.fresh
  | [] => by simp [freshColumns, columnSelects]
  | ⟨source, _⟩ :: columns => by
    simp [freshColumns, Column.fresh, columnSelects, source.selects_fresh,
      columnSelects_fresh columns]

theorem originSelects_fresh :
    (origin? : Option Origin) →
      originSelects (freshOrigin origin?) = (originSelects origin?).map Select.fresh
  | none => by simp [freshOrigin, originSelects]
  | some (.table _ _) => by simp [freshOrigin, Origin.fresh, originSelects]
  | some (.subquery s _) => by simp [freshOrigin, Origin.fresh, originSelects, s.selects_fresh]

theorem combinedSelects_fresh :
    (combined? : Option (SetOperation × Select)) →
      combinedSelects (freshCombined combined?) = (combinedSelects combined?).map Select.fresh
  | none => by simp [freshCombined, combinedSelects]
  | some (_, s) => by simp [freshCombined, combinedSelects, s.selects_fresh]

theorem Select.selects_fresh : (s : Select) → s.fresh.selects = s.selects.map Select.fresh
  | ⟨_, columns, _, origin?, joins, filter, _, having, combined?, _, _, _, _, _, _, _⟩ => by
    simp [Select.fresh, Select.selects, columnSelects_fresh columns, originSelects_fresh origin?,
      joinSelects_fresh joins, filter.selects_fresh, having.selects_fresh,
      combinedSelects_fresh combined?]

end

theorem Node.selects_fresh {k : Kind} (n : Node k) :
    Node.selects k (Node.fresh k n) = (Node.selects k n).map Select.fresh := by
  cases k with
  | select => exact Select.selects_fresh n
  | insert =>
    obtain ⟨_, _, rows, source?, _⟩ : Insert := n
    have hrows : (rows.map fun row => row.map Operand.fresh).flatten.flatMap Operand.selects =
        (rows.flatten.flatMap Operand.selects).map Select.fresh := by
      rw [← List.map_flatten, List.flatMap_map, List.map_flatMap]
      simp only [Operand.selects_fresh]
    cases source? <;> simp [Node.selects, Node.fresh, Insert.fresh, hrows, Select.selects_fresh]
  | update =>
    obtain ⟨_, assignments, filter, _⟩ : Update := n
    simp [Node.selects, Node.fresh, Update.fresh, List.flatMap_map, List.map_flatMap,
      Operand.selects_fresh, filter.selects_fresh]
  | delete => exact Clause.selects_fresh _
  | group => exact Group.selects_fresh n
  | clause => exact Clause.selects_fresh n
  | join => exact Join.selects_fresh n
  | predicate => exact Predicate.selects_fresh n
  | expression => exact Expression.selects_fresh n
  | reference => rfl

end SqlTree
