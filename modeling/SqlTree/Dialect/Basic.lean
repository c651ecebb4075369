import SqlTree.Collector

/-!
# SqlTree.Dialect.Basic

What a database makes of SQL, as data: how names and values are quoted, how
markers are written, and which constructs it has or lacks.  A construct
that replaces the standard one is a field of its own (`pageSyntax`,
`insertAll`, `topRows`, `rowNumbers`), so a dialect is any combination of
them.

A compiled text is kept for later use together with the `Fingerprint` of
the dialect.  Two dialects with equal fingerprints share texts; the
fingerprint tells whether a construct is replaced and not by what, and it
leaves out everything that concerns values alone.
-/

namespace SqlTree

/-- A live connection, which knows how its database escapes text. -/
structure Connection where
  quote : String → String

/-- How a page of rows is asked for at the end of a select. -/
inductive PageSyntax where
  /-- `LIMIT n OFFSET m`; `unbounded` stands for the number when only an
  offset is given. -/
  | limitOffset (unbounded : String)
  /-- `OFFSET m ROWS FETCH NEXT n ROWS ONLY`, which needs an order. -/
  | offsetFetch
deriving DecidableEq

/-- A dialect of SQL. -/
structure Dialect where
  name : String
  leftQuote : Char
  rightQuote : Char
  valueQuote : Char
  style : MarkerStyle
  /-- The standard `LIMIT` and `OFFSET` are understood. -/
  limitOffset : Bool
  /-- An insert can list several rows. -/
  multiRowInsert : Bool
  /-- Pages are asked for in this way instead of the standard one. -/
  pageSyntax : Option PageSyntax
  /-- Several rows are inserted by `INSERT ALL`. -/
  insertAll : Bool
  /-- A limit without an offset is written as `TOP` before the columns. -/
  topRows : Bool
  /-- Pages are cut by numbering the rows of the finished select. -/
  rowNumbers : Bool
  /-- Booleans are written as numbers. -/
  numericBools : Bool
  /-- Text is escaped alike on every connection. -/
  quotesText : Bool
  connection : Option Connection

namespace Dialect

/-- What a text kept for later depends on. -/
structure Fingerprint where
  name : String
  leftQuote : Char
  rightQuote : Char
  valueQuote : Char
  style : MarkerStyle
  limitOffset : Bool
  multiRowInsert : Bool
  ownPages : Bool
  ownInsert : Bool
  ownColumns : Bool
  ownSelect : Bool
deriving DecidableEq

/-- The fingerprint of a dialect. -/
def fingerprint (d : Dialect) : Fingerprint where
  name := d.name
  leftQuote := d.leftQuote
  rightQuote := d.rightQuote
  valueQuote := d.valueQuote
  style := d.style
  limitOffset := d.limitOffset
  multiRowInsert := d.multiRowInsert
  ownPages := d.pageSyntax.isSome
  ownInsert := d.insertAll
  ownColumns := d.topRows
  ownSelect := d.rowNumbers

end Dialect

end SqlTree
