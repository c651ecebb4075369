import SqlTree.Group

/-!
# SqlTree.Join

Building joins.  A condition is added to the clause of the join; a cross
join takes none.
-/

namespace SqlTree

namespace Join

/-- A join without alias and condition. -/
def ofTarget (kind : JoinKind) (target : JoinTarget) : Join := ⟨kind, target, none, Clause.empty .on, none⟩

/-- Joins a table. -/
def table (kind : JoinKind) (name : String) : Except Error Join := do
  let name ← Identifier.parse name
  return ofTarget kind (.table name)

/-- Joins a subquery. -/
def subquery (kind : JoinKind) (s : Select) : Join := ofTarget kind (.subquery s)

/-- The join under an alias. -/
def withAlias (name : String) (j : Join) : Except Error Join := do
  let a ← Alias.parse name
  return { j.uncached with alias? := some a }

/-- The join with a condition added. -/
def onItem (item : Item) (j : Join) : Except Error Join :=
  if j.kind = .cross then .error .crossJoinCondition
  else do
    let on ← (Clause.add item).apply j.on
    return { j.uncached with on }

end Join

end SqlTree
