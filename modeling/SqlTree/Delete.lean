import SqlTree.Group
import SqlTree.Tree.Fresh

/-!
# SqlTree.Delete

Deletes: a table and the condition on the rows to remove.
-/

namespace SqlTree

/-- A delete. -/
structure Delete where
  table? : Option Identifier
  filter : Clause
  cache : Cache

namespace Delete

/-- A delete from nowhere. -/
def empty : Delete := ⟨none, Clause.empty .filter, none⟩

/-- The delete without its kept text. -/
def uncached (d : Delete) : Delete := { d with cache := none }

/-- A text is kept. -/
def isCached (d : Delete) : Bool := d.cache.isSome

/-- The delete with nothing kept in it or below. -/
def fresh (d : Delete) : Delete := { d with filter := d.filter.fresh, cache := none }

/-- Sets the table, once. -/
def fromTable (name : String) (d : Delete) : Except Error Delete :=
  match d.table? with
  | some existing => .error (.tableAlreadySet existing.text)
  | none => do
    let name ← Identifier.parse name
    return { d.uncached with table? := some name }

/-- Adds a condition on rows. -/
def whereItem (item : Item) (d : Delete) : Except Error Delete := do
  let filter ← (Clause.add item).apply d.filter
  return { d.uncached with filter }

/-- Adds an alternative condition on rows. -/
def orWhereItem (item : Item) (d : Delete) : Except Error Delete := do
  let filter ← (Clause.onGroup (Group.addJoined .or item)).apply d.filter
  return { d.uncached with filter }

end Delete

end SqlTree
