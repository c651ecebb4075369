import SqlTree.Dialect.Pagination
import SqlTree.Dialect.Quoting

/-!
# SqlTree.Dialect.Shipped

The dialects that the library knows: standard SQL, MySQL, Oracle,
SQL Server and SQLite.  Each is the standard dialect with the fields
changed in which the database differs from it.
-/

namespace SqlTree

namespace Connection

/-- Escapes an apostrophe by a second one. -/
def doubling : Connection := ⟨Dialect.textLiteral⟩

/-- Escapes backslashes and apostrophes by a backslash. -/
def backslashing : Connection where
  quote s := String.ofList <|
    '\'' :: s.toList.flatMap (fun c => if c = '\\' ∨ c = '\'' then ['\\', c] else [c]) ++ ['\'']

end Connection

namespace Dialect

/-- Standard SQL: names in double quotes, named markers. -/
def ansi : Dialect where
  name := "ansi"
  leftQuote := '"'
  rightQuote := '"'
  valueQuote := '\''
  style := .named
  limitOffset := true
  multiRowInsert := true
  pageSyntax := none
  insertAll := false
  topRows := false
  rowNumbers := false
  numericBools := false
  quotesText := false
  connection := none

/-- MySQL.  An offset needs a limit; its greatest row count stands for
none. -/
def mysql : Dialect :=
  { ansi with
    name := "mysql"
    leftQuote := '\x60'
    rightQuote := '\x60'
    style := .positional
    pageSyntax := some (.limitOffset "18446744073709551615") }

/-- Oracle, which has neither a limit clause nor rows in a list nor
booleans. -/
def oracle : Dialect :=
  { ansi with
    name := "oracle"
    limitOffset := false
    multiRowInsert := false
    insertAll := true
    rowNumbers := true
    numericBools := true }

/-- SQL Server. -/
def sqlServer : Dialect :=
  { ansi with
    name := "sqlsrv"
    leftQuote := '['
    rightQuote := ']'
    pageSyntax := some .offsetFetch
    topRows := true
    numericBools := true }

/-- SQLite, where a negative limit stands for none. -/
def sqlite (style : MarkerStyle) : Dialect :=
  { ansi with
    name := "sqlite"
    style := style
    pageSyntax := some (.limitOffset "-1")
    numericBools := true
    quotesText := true }

/-- The dialect on a live connection; one that quotes text alike on every
connection has no use for any. -/
def withConnection (d : Dialect) (connection : Connection) : Dialect :=
  if d.quotesText then d else { d with connection := some connection }

end Dialect

end SqlTree
