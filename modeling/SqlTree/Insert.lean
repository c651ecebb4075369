import SqlTree.Tree.Fresh

/-!
# SqlTree.Insert

Inserts.  The rows are lists of operands, lined up with the columns if
there are any, or they come from a select, never both.  A row can also be
given by column names in any order; the first such row sets the columns.
All rows are equally long and none is empty.
-/

namespace SqlTree

/-- An insert. -/
structure Insert where
  table? : Option Identifier
  columns : List Identifier
  rows : List (List Operand)
  source? : Option Select
  cache : Cache

namespace Insert

/-- An insert of nothing into nowhere. -/
def empty : Insert := ⟨none, [], [], none, none⟩

/-- The insert without its kept text. -/
def uncached (i : Insert) : Insert := { i with cache := none }

/-- A text is kept. -/
def isCached (i : Insert) : Bool := i.cache.isSome

/-- The insert with nothing kept in it or below. -/
def fresh (i : Insert) : Insert :=
  { i with rows := i.rows.map fun row => row.map Operand.fresh, source? := i.source?.map Select.fresh, cache := none }

/-- Sets the table, once. -/
def intoTable (name : String) (i : Insert) : Except Error Insert :=
  match i.table? with
  | some existing => .error (.tableAlreadySet existing.text)
  | none => do
    let name ← Identifier.parse name
    return { i.uncached with table? := some name }

/-- Sets the columns, which must fit the rows there are. -/
def setColumns (names : List String) (i : Insert) : Except Error Insert := do
  let columns ← names.mapM Identifier.parse
  match i.rows.head? with
  | some row =>
    if row.length ≠ columns.length then throw (.row (.columnCount columns.length row.length))
    else return { i.uncached with columns }
  | none => return { i.uncached with columns }

/-- How long a row must be, if that is settled. -/
def rowLength? (i : Insert) : Option Nat :=
  if i.columns.isEmpty then i.rows.head?.map List.length else some i.columns.length

/-- Adds a row in the order of the columns. -/
def addRow (row : List Operand) (i : Insert) : Except Error Insert :=
  if i.source?.isSome then .error .rowsAndSource
  else
    match i.rowLength?.filter (· ≠ row.length) with
    | some expected => .error (.row (.valueCount expected row.length))
    | none =>
      if row.isEmpty then .error (.row .empty)
      else .ok { i.uncached with rows := i.rows ++ [row] }

/-! ## Rows by name -/

/-- The names of the pairs as columns, none of them twice; `seen` are those
before. -/
def namedValues (seen : List Identifier) : List (String × Operand) → Except Error (List (Identifier × Operand))
  | [] => .ok []
  | (name, value) :: pairs => do
    let column ← Identifier.parse name
    if column ∈ seen then throw (.row (.repeatedColumn column.text))
    let rest ← namedValues (column :: seen) pairs
    return (column, value) :: rest

/-- The values given for the columns, in the order of the columns.  Each
value serves one column. -/
def valuesFor : List Identifier → List (Identifier × Operand) → Except Error (List Operand)
  | [], _ => .ok []
  | column :: columns, named =>
    match named.lookup column with
    | none => .error (.row (.missingColumn column.text))
    | some value => do
      let values ← valuesFor columns (named.eraseP fun pair => pair.1 = column)
      return value :: values

/-- Adds a row of columns with their values. -/
def addNamedRow (pairs : List (String × Operand)) (i : Insert) : Except Error Insert := do
  let named ← namedValues [] pairs
  if i.columns.isEmpty ∧ i.rows.isEmpty then
    let added ← i.addRow (named.map Prod.snd)
    return { added with columns := named.map Prod.fst }
  else if named.length ≠ i.columns.length then
    throw (.row (.otherColumns (i.columns.map Identifier.text)))
  else
    let row ← valuesFor i.columns named
    i.addRow row

/-- Takes the rows from a select. -/
def fromSelect (source : Select) (i : Insert) : Except Error Insert :=
  if i.rows.isEmpty then .ok { i.uncached with source? := some source } else .error .rowsAndSource

end Insert

end SqlTree
