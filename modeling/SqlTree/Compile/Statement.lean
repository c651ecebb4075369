import SqlTree.Compile.Tree
import SqlTree.Delete
import SqlTree.Insert
import SqlTree.Update

/-!
# SqlTree.Compile.Statement

Compiling inserts, updates and deletes.  An update or a delete without a
condition on its rows is refused, be it that none was given or that all that
was given is empty groups.
-/

namespace SqlTree

instance : Keeps Insert := ⟨Insert.cache, fun cache i => { i with cache }, fun _ _ => rfl⟩
instance : Keeps Update := ⟨Update.cache, fun cache u => { u with cache }, fun _ _ => rfl⟩
instance : Keeps Delete := ⟨Delete.cache, fun cache d => { d with cache }, fun _ _ => rfl⟩

/-! ## Inserts -/

/-- The hint for a value: its column, or a neutral one beyond the
columns. -/
def columnHint (column? : Option Identifier) : String :=
  match column? with
  | some column => column.text
  | none => "value"

/-- Compiles the values of a row under the hints of their columns. -/
def rowRun (d : Dialect) : List Identifier → List Operand → Run (List Operand) (List String)
  | _, [] => Run.pure [] []
  | columns, value :: values =>
    Run.cons (value.run d (columnHint columns.head?)) values (rowRun d columns.tail values)

/-- Compiles rows one after the other. -/
def rowRuns (d : Dialect) (columns : List Identifier) : List (List Operand) → Run (List (List Operand)) (List (List String))
  | [] => Run.pure [] []
  | row :: rows => Run.cons (rowRun d columns row) rows (rowRuns d columns rows)

/-- The insert of what a select gives. -/
def insertSelectText (table : String) (columns : List String) (sql : String) : String :=
  "INSERT INTO " ++ table ++ columnList columns ++ " " ++ sql

/-- An insert. -/
def Insert.body (d : Dialect) (i : Insert) : Pass Insert String :=
  match i.table? with
  | none => Pass.fail (.missingTable .insert)
  | some table =>
    let columns := i.columns.map (·.quoted d)
    match i.source? with
    | some s => do
      let sql ← Pass.visit (fun s i => { i with source? := some s }) (asPart d s (s.body d))
      pure (insertSelectText (table.quoted d) columns sql)
    | none =>
      if i.rows.isEmpty then Pass.fail (.missingValues .insert)
      else do
        let rows ← Pass.visit (fun rows i => { i with rows }) (rowRuns d i.columns i.rows)
        match d.insertRows (table.quoted d) columns rows with
        | .ok sql => pure sql
        | .error e => Pass.fail e

/-! ## Updates -/

/-- Compiles assignments one after the other, each under the hint of its
column. -/
def assignmentRuns (d : Dialect) : List Assignment → Run (List Assignment) (List String)
  | [] => Run.pure [] []
  | ⟨column, value⟩ :: rest =>
    Run.cons ((value.run d column.text).map (fun text => column.quoted d ++ " = " ++ text) (Assignment.mk column)) rest
      (assignmentRuns d rest)

/-- An update from the texts of its parts. -/
def updateText (table : String) (assignments : List String) (filter : String) : String :=
  "UPDATE " ++ table ++ " SET " ++ joined ", " assignments ++ " " ++ filter

/-- An update. -/
def Update.body (d : Dialect) (u : Update) : Pass Update String :=
  match u.table? with
  | none => Pass.fail (.missingTable .update)
  | some table =>
    if u.assignments.isEmpty then Pass.fail (.missingValues .update)
    else if u.filter.isEmpty then Pass.fail (.missingFilter .update)
    else do
      let assignments ← Pass.visit (fun assignments u => { u with assignments }) (assignmentRuns d u.assignments)
      let filter ← Pass.visit (fun filter u => { u with filter }) (u.filter.run d)
      if filter = "" then Pass.fail (.missingFilter .update)
      else pure (d.quotePrefixes [table.text] (updateText (table.quoted d) assignments filter))

/-! ## Deletes -/

/-- A delete from the texts of its parts. -/
def deleteText (table filter : String) : String := "DELETE FROM " ++ table ++ " " ++ filter

/-- A delete. -/
def Delete.body (d : Dialect) (del : Delete) : Pass Delete String :=
  match del.table? with
  | none => Pass.fail (.missingTable .delete)
  | some table => do
    let filter ← Pass.visit (fun filter del => { del with filter }) (del.filter.run d)
    if filter = "" then Pass.fail (.missingFilter .delete)
    else pure (d.quotePrefixes [table.text] (deleteText (table.quoted d) filter))

/-! ## Compiling statements by themselves -/

/-- Compiles an insert as a whole. -/
def Insert.compile (d : Dialect) (i : Insert) : EStateM.Result Error Insert String := asWhole d i (i.body d)

/-- Compiles an insert as a part of what the collector belongs to. -/
def Insert.compileInto (d : Dialect) (i : Insert) : Run Insert String := asPart d i (i.body d)

/-- Compiles an update as a whole. -/
def Update.compile (d : Dialect) (u : Update) : EStateM.Result Error Update String := asWhole d u (u.body d)

/-- Compiles an update as a part of what the collector belongs to. -/
def Update.compileInto (d : Dialect) (u : Update) : Run Update String := asPart d u (u.body d)

/-- Compiles a delete as a whole. -/
def Delete.compile (d : Dialect) (del : Delete) : EStateM.Result Error Delete String := asWhole d del (del.body d)

/-- Compiles a delete as a part of what the collector belongs to. -/
def Delete.compileInto (d : Dialect) (del : Delete) : Run Delete String := asPart d del (del.body d)

end SqlTree
