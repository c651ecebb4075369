import SqlTree.Join

/-!
# SqlTree.Select

Building selects.  Every step answers a new select, or the error that kept
it from being made, and clears what the select kept.  Attaching a subquery
as the origin tells the selects inside how deep they lie.  `Select.order`
reads sort terms from text: names with commas between them, each perhaps
followed by its direction.
-/

namespace SqlTree

namespace Select

/-! ## Columns -/

/-- Returns each row once. -/
def distinctRows (s : Select) : Select := { s.touched with distinct := true }

/-- Adds a column under an alias. -/
def addColumn (source : ColumnSource) (alias? : Option String) (s : Select) : Except Error Select := do
  let alias? ← alias?.mapM Alias.parse
  return { s.touched with columns := s.columns ++ [⟨source, alias?⟩] }

/-- Adds a column that refers to something. -/
def column (r : Reference) (s : Select) : Select :=
  { s.touched with columns := s.columns ++ [⟨.reference r, none⟩] }

/-! ## Origin -/

/-- Writes the rows into a table. -/
def intoTable (name : String) (s : Select) : Except Error Select := do
  let name ← Identifier.parse name
  return { s.touched with into? := some name }

/-- The select at a depth of nesting, with those inside it each one level
deeper. -/
def atNesting (nesting : Nat) : Select → Select
  | ⟨distinct, columns, into?, some (.subquery inner a), joins, filter, groupBy, having, combined?, orderBy, limit,
      offset, _, pretty, _, _⟩ =>
    ⟨distinct, columns, into?, some (.subquery (inner.atNesting (nesting + 1)) a), joins, filter, groupBy, having,
      combined?, orderBy, limit, offset, nesting, pretty, none, none⟩
  | s => { s.touched with nesting }

/-- The name that an origin is known by when another one is refused. -/
def originName : Origin → String
  | .table name _ => name.text
  | .subquery _ a => a.text

/-- Takes the rows from an origin, unless there is one already. -/
def setOrigin (origin : Origin) (s : Select) : Except Error Select :=
  match s.origin? with
  | some existing => .error (.tableAlreadySet (originName existing))
  | none => .ok (({ s with origin? := some origin } : Select).atNesting s.nesting)

/-- Takes the rows from a table. -/
def fromTable (name : String) (s : Select) : Except Error Select := do
  let name ← Identifier.parse name
  s.setOrigin (.table name none)

/-- Takes the rows from a table under an alias. -/
def fromTableAs (name label : String) (s : Select) : Except Error Select := do
  let name ← Identifier.parse name
  let a ← Alias.parse label
  s.setOrigin (.table name (some a))

/-- Takes the rows from a subquery. -/
def fromSubquery (s inner : Select) (label : String) : Except Error Select := do
  let a ← Alias.parse label
  s.setOrigin (.subquery inner a)

/-- Adds a join. -/
def addJoin (j : Join) (s : Select) : Select := { s.touched with joins := s.joins ++ [j] }

/-! ## Clauses -/

/-- Adds a condition on rows. -/
def whereItem (item : Item) (s : Select) : Except Error Select := do
  let filter ← (Clause.add item).apply s.filter
  return { s.touched with filter }

/-- Adds an alternative condition on rows. -/
def orWhereItem (item : Item) (s : Select) : Except Error Select := do
  let filter ← (Clause.onGroup (Group.addJoined .or item)).apply s.filter
  return { s.touched with filter }

/-- Adds a condition on groups of rows. -/
def havingItem (item : Item) (s : Select) : Except Error Select := do
  let having ← (Clause.add item).apply s.having
  return { s.touched with having }

/-- Adds a term that rows are grouped by. -/
def groupByTerm (r : Reference) (s : Select) : Select := { s.touched with groupBy := s.groupBy ++ [r] }

/-! ## Combination -/

/-- Combines with another select.  A second combination replaces the first
if it is of the same kind, and is refused otherwise. -/
def combine (s : Select) (operation : SetOperation) (other : Select) : Except Error Select :=
  match s.combined? with
  | some (existing, _) =>
    if existing ≠ operation then .error (.combineConflict existing operation)
    else .ok { s.touched with combined? := some (operation, other) }
  | none => .ok { s.touched with combined? := some (operation, other) }

/-! ## Order -/

/-- Adds a term that rows are ordered by. -/
def orderByTerm (r : Reference) (direction : Direction) (s : Select) : Select :=
  { s.touched with orderBy := s.orderBy ++ [(r, direction)] }

/-- The direction that a word denotes. -/
def directionOf (word : String) : Except Error Direction :=
  let t := raised word
  if t = "ASC" then .ok .ascending else if t = "DESC" then .ok .descending else .error (.unknownOperator t)

/-- The direction that the words after a name denote. -/
def directionOfWords : List (List Char) → Except Error Direction
  | [] => .ok .ascending
  | [word] => directionOf (String.ofList word)
  | word :: extra :: _ =>
    match directionOf (String.ofList word) with
    | .ok _ => .error (.unknownOperator (String.ofList extra))
    | .error e => .error e

/-- A sort term: a name and perhaps its direction. -/
def orderTerm (cs : List Char) : Except Error (Reference × Direction) :=
  match words cs with
  | [] => (Reference.parse "").map fun r => (r, .ascending)
  | name :: rest => do
    let direction ← directionOfWords rest
    let reference ← Reference.parse (String.ofList name)
    return (reference, direction)

/-- Adds the sort terms that a text lists. -/
def order (terms : String) (s : Select) : Except Error Select := do
  let terms ← (splitAt ',' terms.toList).mapM orderTerm
  return { s.touched with orderBy := s.orderBy ++ terms }

/-! ## Page and layout -/

/-- Sets or removes the limit. -/
def setLimit (limit : Option UInt64) (s : Select) : Select := { s.touched with limit }

/-- Sets or removes the offset. -/
def setOffset (offset : Option UInt64) (s : Select) : Select := { s.touched with offset }

/-- Spreads subqueries that rows come from over several lines, or not. -/
def setPretty (pretty : Bool) (s : Select) : Select := { s.touched with pretty }

end Select

end SqlTree
