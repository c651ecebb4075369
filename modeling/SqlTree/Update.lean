import SqlTree.Group
import SqlTree.Tree.Fresh

/-!
# SqlTree.Update

Updates.  The assignments are a list without repeated columns: assigning to
a column again replaces the earlier value and keeps its place.
-/

namespace SqlTree

/-- A column and what it is set to. -/
structure Assignment where
  column : Identifier
  value : Operand

/-- An update. -/
structure Update where
  table? : Option Identifier
  assignments : List Assignment
  filter : Clause
  cache : Cache

/-- Assigns to a column, in its old place if it has one. -/
def assign (column : Identifier) (value : Operand) : List Assignment → List Assignment
  | [] => [⟨column, value⟩]
  | a :: rest => if a.column = column then ⟨column, value⟩ :: rest else a :: assign column value rest

namespace Update

/-- An update of nothing. -/
def empty : Update := ⟨none, [], Clause.empty .filter, none⟩

/-- The update without its kept text. -/
def uncached (u : Update) : Update := { u with cache := none }

/-- A text is kept. -/
def isCached (u : Update) : Bool := u.cache.isSome

/-- The update with nothing kept in it or below. -/
def fresh (u : Update) : Update :=
  { u with
    assignments := u.assignments.map fun a => ⟨a.column, a.value.fresh⟩
    filter := u.filter.fresh
    cache := none }

/-- Sets the table, once. -/
def setTable (name : String) (u : Update) : Except Error Update :=
  match u.table? with
  | some existing => .error (.tableAlreadySet existing.text)
  | none => do
    let name ← Identifier.parse name
    return { u.uncached with table? := some name }

/-- Assigns a value to a column. -/
def set (column : String) (value : Operand) (u : Update) : Except Error Update := do
  let column ← Identifier.parse column
  return { u.uncached with assignments := assign column value u.assignments }

/-- Assigns values to columns in order. -/
def setAll : List (String × Operand) → Update → Except Error Update
  | [], u => .ok u
  | (column, value) :: pairs, u =>
    match u.set column value with
    | .ok u => setAll pairs u
    | .error e => .error e

/-- Adds a condition on rows. -/
def whereItem (item : Item) (u : Update) : Except Error Update := do
  let filter ← (Clause.add item).apply u.filter
  return { u.uncached with filter }

/-- Adds an alternative condition on rows. -/
def orWhereItem (item : Item) (u : Update) : Except Error Update := do
  let filter ← (Clause.onGroup (Group.addJoined .or item)).apply u.filter
  return { u.uncached with filter }

end Update

end SqlTree
