import SqlTree.Tree.Basic

/-!
# SqlTree.Tree.Fresh

A copy of a node with nothing kept in it or anywhere below.  `fresh`
changes caches only: what a node is built from stays as it is.  It is the
reference point for everything that is said about caches, as compiling a
fresh node consults none.
-/

namespace SqlTree

mutual

/-- An operand with nothing kept below. -/
def Operand.fresh : Operand → Operand
  | .value v => .value v
  | .identifier i => .identifier i
  | .literal l => .literal l
  | .expression e => .expression e.fresh
  | .subquery s => .subquery s.fresh

/-- A filling with nothing kept below. -/
def Filling.fresh : Filling → Filling
  | .value v => .value v
  | .identifier i => .identifier i
  | .alias a => .alias a
  | .literal l => .literal l
  | .subquery s => .subquery s.fresh

/-- A slot with nothing kept below. -/
def Slot.fresh : Slot → Slot
  | ⟨name, filling⟩ => ⟨name, filling.fresh⟩

/-- Slots with nothing kept below. -/
def freshSlots : List Slot → List Slot
  | [] => []
  | slot :: slots => slot.fresh :: freshSlots slots

/-- An expression with nothing kept below. -/
def Expression.fresh : Expression → Expression
  | ⟨template, slots⟩ => ⟨template, freshSlots slots⟩

/-- A predicate with nothing kept below. -/
def Predicate.fresh : Predicate → Predicate
  | .comparison left op right => .comparison left op right.fresh
  | .between left negated low high => .between left negated low.fresh high.fresh
  | .inValues left negated values orNull => .inValues left negated values orNull
  | .inSelect left negated select => .inSelect left negated select.fresh
  | .like left negated pattern escape => .like left negated pattern.fresh escape
  | .truth left negated word => .truth left negated word
  | .existence negated select => .existence negated select.fresh
  | .quantified left op quantifier select => .quantified left op quantifier select.fresh
  | .literal l => .literal l
  | .expression e => .expression e.fresh
  | .group g => .group g.fresh

/-- A term with nothing kept below. -/
def Term.fresh : Term → Term
  | ⟨connective, predicate⟩ => ⟨connective, predicate.fresh⟩

/-- Terms with nothing kept below. -/
def freshTerms : List Term → List Term
  | [] => []
  | term :: terms => term.fresh :: freshTerms terms

/-- A group with nothing kept. -/
def Group.fresh : Group → Group
  | ⟨terms, default, pending, nested, _⟩ => ⟨freshTerms terms, default, pending, nested, none⟩

/-- A clause with nothing kept below. -/
def Clause.fresh : Clause → Clause
  | ⟨kind, none⟩ => ⟨kind, none⟩
  | ⟨kind, some g⟩ => ⟨kind, some g.fresh⟩

/-- A join target with nothing kept below. -/
def JoinTarget.fresh : JoinTarget → JoinTarget
  | .table name => .table name
  | .subquery s => .subquery s.fresh

/-- A join with nothing kept. -/
def Join.fresh : Join → Join
  | ⟨kind, target, alias?, on, _⟩ => ⟨kind, target.fresh, alias?, on.fresh, none⟩

/-- Joins with nothing kept. -/
def freshJoins : List Join → List Join
  | [] => []
  | join :: joins => join.fresh :: freshJoins joins

/-- A column source with nothing kept below. -/
def ColumnSource.fresh : ColumnSource → ColumnSource
  | .reference r => .reference r
  | .expression e => .expression e.fresh
  | .subquery s => .subquery s.fresh

/-- A column with nothing kept below. -/
def Column.fresh : Column → Column
  | ⟨source, alias?⟩ => ⟨source.fresh, alias?⟩

/-- Columns with nothing kept below. -/
def freshColumns : List Column → List Column
  | [] => []
  | column :: columns => column.fresh :: freshColumns columns

/-- An origin with nothing kept below. -/
def Origin.fresh : Origin → Origin
  | .table name alias? => .table name alias?
  | .subquery s a => .subquery s.fresh a

/-- The origin of a select with nothing kept below. -/
def freshOrigin : Option Origin → Option Origin
  | none => none
  | some o => some o.fresh

/-- The combined select with nothing kept. -/
def freshCombined : Option (SetOperation × Select) → Option (SetOperation × Select)
  | none => none
  | some (operation, s) => some (operation, s.fresh)

/-- A select with nothing kept. -/
def Select.fresh : Select → Select
  | ⟨distinct, columns, into?, origin?, joins, filter, groupBy, having, combined?, orderBy, limit, offset,
      nesting, pretty, _, _⟩ =>
    ⟨distinct, freshColumns columns, into?, freshOrigin origin?, freshJoins joins, filter.fresh, groupBy,
      having.fresh, freshCombined combined?, orderBy, limit, offset, nesting, pretty, none, none⟩

end

/-! ## Laws -/

@[simp] theorem Group.cache_fresh (g : Group) : g.fresh.cache = none := by
  cases g; simp [Group.fresh]

@[simp] theorem Join.cache_fresh (j : Join) : j.fresh.cache = none := by
  cases j; simp [Join.fresh]

@[simp] theorem Select.cache_fresh (s : Select) : s.fresh.cache = none := by
  cases s; simp [Select.fresh]

@[simp] theorem Select.columnTexts_fresh (s : Select) : s.fresh.columnTexts = none := by
  cases s; simp [Select.fresh]

theorem freshTerms_eq_map (terms : List Term) : freshTerms terms = terms.map Term.fresh := by
  induction terms <;> simp_all [freshTerms]

theorem freshSlots_eq_map (slots : List Slot) : freshSlots slots = slots.map Slot.fresh := by
  induction slots <;> simp_all [freshSlots]

theorem freshJoins_eq_map (joins : List Join) : freshJoins joins = joins.map Join.fresh := by
  induction joins <;> simp_all [freshJoins]

end SqlTree
