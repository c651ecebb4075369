import SqlTree.Dialect.Basic

/-!
# SqlTree.Dialect.Pagination

Pages of rows and lists of rows, the two places where dialects disagree on
the shape of a statement.  A page is asked for in one of three places: at
the end of the select (`pageClause`), before its columns (`columnHead`), or
around the finished select (`numberRows`).  Each of them binds its counts
in the order in which their markers stand in the text.
-/

namespace SqlTree

/-- Which rows of a result are wanted. -/
structure Page where
  limit : Option UInt64
  offset : Option UInt64
deriving DecidableEq

namespace Page

/-- All rows. -/
def all : Page := ⟨none, none⟩

/-- Some rows may be left out. -/
def isPartial (p : Page) : Bool := p.limit.isSome || p.offset.isSome

/-- The number of the last row wanted, at most the greatest count. -/
def lastRow (limit offset : UInt64) : UInt64 :=
  UInt64.ofNat (min (offset.toNat + limit.toNat) (UInt64.size - 1))

end Page

/-! ## At the end of the select -/

/-- One of the standard clauses, if its count is present. -/
def standardPart (keyword hint : String) : Option UInt64 → Collecting (List String)
  | none => pure []
  | some n => do
    let marker ← Collecting.bindCount n hint
    pure [keyword ++ marker]

/-- The standard clauses. -/
def standardPage (page : Page) : Collecting String := do
  let limit ← standardPart "LIMIT " "limit" page.limit
  let offset ← standardPart "OFFSET " "offset" page.offset
  pure (joined " " (limit ++ offset))

/-- A limit is always written, `unbounded` if there is none to bind. -/
def limitOffsetPage (unbounded : String) (page : Page) : Collecting String :=
  match page.limit, page.offset with
  | none, none => pure ""
  | some n, none => do
    let limit ← Collecting.bindCount n "limit"
    pure s!"LIMIT {limit}"
  | none, some m => do
    let offset ← Collecting.bindCount m "offset"
    pure s!"LIMIT {unbounded} OFFSET {offset}"
  | some n, some m => do
    let limit ← Collecting.bindCount n "limit"
    let offset ← Collecting.bindCount m "offset"
    pure s!"LIMIT {limit} OFFSET {offset}"

/-- Nothing without an offset, as the limit then stands before the columns.
Rows without an order get an empty one. -/
def offsetFetchPage (page : Page) (ordered : Bool) : Collecting String :=
  let order := if ordered then "" else "ORDER BY (SELECT NULL) "
  match page.offset, page.limit with
  | none, _ => pure ""
  | some m, none => do
    let offset ← Collecting.bindCount m "offset"
    pure s!"{order}OFFSET {offset} ROWS"
  | some m, some n => do
    let offset ← Collecting.bindCount m "offset"
    let limit ← Collecting.bindCount n "limit"
    pure s!"{order}OFFSET {offset} ROWS FETCH NEXT {limit} ROWS ONLY"

namespace PageSyntax

/-- The clause in this syntax. -/
def clause (s : PageSyntax) (page : Page) (ordered : Bool) : Collecting String :=
  match s with
  | .limitOffset unbounded => limitOffsetPage unbounded page
  | .offsetFetch => offsetFetchPage page ordered

end PageSyntax

namespace Dialect

/-- The clause for a page at the end of a select. -/
def pageClause (d : Dialect) (page : Page) (ordered : Bool) : Collecting String :=
  match d.pageSyntax with
  | some s => s.clause page ordered
  | none => if d.limitOffset then standardPage page else throw (.unsupported d.name .pagination)

end Dialect

/-! ## Before the columns -/

/-- The quantifier and a blank, if there is one. -/
def quantifierHead (quantifier : Option String) : String :=
  match quantifier with
  | some q => q ++ " "
  | none => ""

/-- The quantifier, and the limit if there is no offset. -/
def topHead (quantifier : Option String) (page : Page) : Collecting String :=
  match page.limit, page.offset with
  | some n, none => do
    let limit ← Collecting.bindCount n "limit"
    pure (quantifierHead quantifier ++ s!"TOP ({limit}) ")
  | _, _ => pure (quantifierHead quantifier)

/-- What stands between `SELECT` and the columns. -/
def Dialect.columnHead (d : Dialect) (quantifier : Option String) (page : Page) : Collecting String :=
  if d.topRows then topHead quantifier page else pure (quantifierHead quantifier)

/-! ## Around the select -/

/-- The select with its rows numbered and cut at the bounds of the page. -/
def numberRows (sql : String) (page : Page) : Collecting String :=
  match page.limit, page.offset with
  | none, none => pure sql
  | some n, none => do
    let upper ← Collecting.bindCount n "limit"
    pure s!"SELECT * FROM ({sql}) WHERE ROWNUM <= {upper}"
  | some n, some m => do
    let upper ← Collecting.bindCount (Page.lastRow n m) "limit"
    let lower ← Collecting.bindCount m "offset"
    pure s!"SELECT * FROM (SELECT b.*, ROWNUM b_rownum FROM ({sql}) b WHERE ROWNUM <= {upper}) WHERE b_rownum > {lower}"
  | none, some m => do
    let lower ← Collecting.bindCount m "offset"
    pure s!"SELECT * FROM (SELECT b.*, ROWNUM b_rownum FROM ({sql}) b) WHERE b_rownum > {lower}"

/-! ## Rows to insert -/

/-- Texts between parentheses. -/
def parenthesised (texts : List String) : String := "(" ++ joined ", " texts ++ ")"

/-- The column list of an insert, nothing if there are no columns. -/
def columnList (columns : List String) : String :=
  if columns.isEmpty then "" else " " ++ parenthesised columns

/-- The table, its columns and one row. -/
def insertRow (table : String) (columns row : List String) : String :=
  table ++ columnList columns ++ " VALUES " ++ parenthesised row

/-- One row after the other, into the same table. -/
def insertAllRows (table : String) (columns : List String) : List (List String) → String
  | [] => ""
  | row :: rows =>
    " INTO " ++ insertRow table columns row ++ insertAllRows table columns rows

/-- A single row needs no `INSERT ALL`. -/
def insertAllText (table : String) (columns : List String) (rows : List (List String)) : String :=
  match rows with
  | [row] => "INSERT INTO " ++ insertRow table columns row
  | rows => "INSERT ALL" ++ insertAllRows table columns rows ++ " SELECT 1 FROM DUAL"

/-- The rows one after the other in one list. -/
def insertValues (table : String) (columns : List String) (rows : List (List String)) : String :=
  "INSERT INTO " ++ table ++ columnList columns ++ " VALUES " ++ joined ", " (rows.map parenthesised)

/-- The insert of these rows in a dialect; several rows may be more than it
can say. -/
def Dialect.insertRows (d : Dialect) (table : String) (columns : List String) (rows : List (List String)) :
    Except Error String :=
  if 1 < rows.length ∧ d.insertAll then .ok (insertAllText table columns rows)
  else if 1 < rows.length ∧ !d.multiRowInsert then .error (.unsupported d.name .multiRowInsert)
  else .ok (insertValues table columns rows)

/-! ## Laws -/

/-- The last row is the exact sum wherever 64 bits hold it. -/
theorem Page.toNat_lastRow {limit offset : UInt64} (h : offset.toNat + limit.toNat < UInt64.size) :
    (Page.lastRow limit offset).toNat = offset.toNat + limit.toNat := by
  simp only [Page.lastRow, UInt64.toNat_ofNat', UInt64.size] at h ⊢
  omega

end SqlTree
