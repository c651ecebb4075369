import SqlTree.Proofs.Draft.Page
import SqlTree.Compile.Statement

/-!
# SqlTree.Proofs.Draft.Statement

Drafts of selects, inserts, updates and deletes, given the drafts of their
parts.  As for the smaller shapes, each has a law for its text and a law
for the values that it binds; the parts of a select stand in its text in
the order in which they are compiled (`text_select`).
-/

namespace SqlTree

namespace Draft

variable {d : Dialect} {p q : Draft} {c : Collector}

/-! ## Columns -/

/-- The star of a select, qualified by the alias of its origin. -/
def star (alias? : Option Alias) : Draft :=
  match alias? with
  | some a => label a ++ code ".*"
  | none => code "*"

@[simp] theorem bindings_star (alias? : Option Alias) : (star alias?).bindings = [] := by
  cases alias? <;> rfl

theorem text_star (alias? : Option Alias) :
    (star alias?).text d c = starText d (alias?.map Alias.text) := by
  cases alias? <;> rfl

/-- A reference as a column: the bare star stands for the columns of the
origin. -/
def referenceColumn (star : Draft) : Reference → Draft
  | .identifier i => if i.isWildcard then star else identifier i
  | r => ofReference r

theorem referenceColumn_cases (star : Draft) (r : Reference) :
    referenceColumn star r = star ∨ referenceColumn star r = ofReference r := by
  cases r with
  | identifier i =>
    by_cases hi : i.isWildcard = true
    · exact .inl (if_pos hi)
    · exact .inr (if_neg hi)
  | «alias» a => exact .inr rfl
  | literal l => exact .inr rfl

theorem bindings_referenceColumn (h : p.bindings = []) (r : Reference) :
    (referenceColumn p r).bindings = [] := by
  rcases referenceColumn_cases p r with hr | hr
  · rw [hr, h]
  · rw [hr, bindings_ofReference]

theorem text_referenceColumn (r : Reference) :
    (referenceColumn p r).text d c = referenceColumnText d (p.text d c) r := by
  cases r with
  | identifier i =>
    by_cases hi : i.isWildcard = true
    · simp only [referenceColumn, referenceColumnText, if_pos hi]
    · simp only [referenceColumn, referenceColumnText, if_neg hi, text_identifier]
  | «alias» a => rfl
  | literal l => rfl

/-- A column under its alias. -/
def column (alias? : Option Alias) (p : Draft) : Draft :=
  match alias? with
  | some a => p ++ (code " AS " ++ label a)
  | none => p

@[simp] theorem bindings_column (alias? : Option Alias) :
    (column alias? p).bindings = p.bindings := by
  cases alias? <;> simp [column]

@[simp] theorem text_column (alias? : Option Alias) :
    (column alias? p).text d c = columnText d alias? (p.text d c) := by
  cases alias? <;> simp [column, columnText, String.append_assoc]

/-- The columns, the star if there are none. -/
def columnsOr (star : Draft) (ps : List Draft) : List Draft := if ps.isEmpty then [star] else ps

theorem of_mem_columnsOr {ps : List Draft} (h : q ∈ columnsOr p ps) : q = p ∨ q ∈ ps := by
  cases ps with
  | nil => exact .inl (List.mem_singleton.1 h)
  | cons r ps => exact .inr h

theorem texts_columnsOr (ps : List Draft) :
    texts d (columnsOr p ps) c = columnTextsOr (p.text d c) (texts d ps c) := by
  cases ps <;> rfl

theorem afterAll_columnsOr (h : p.bindings = []) (ps : List Draft) :
    afterAll (columnsOr p ps) c = afterAll ps c := by
  cases ps with
  | nil => simp [columnsOr, after, h]
  | cons q ps => rfl

/-! ## Origins -/

/-- A table that rows come from. -/
def tableOrigin (name : Identifier) (alias? : Option Alias) : Draft :=
  code " FROM " ++ (identifier name ++ aliased alias?)

@[simp] theorem bindings_tableOrigin (name : Identifier) (alias? : Option Alias) :
    (tableOrigin name alias?).bindings = [] := by simp [tableOrigin]

@[simp] theorem text_tableOrigin (name : Identifier) (alias? : Option Alias) :
    (tableOrigin name alias?).text d c = tableOriginText d name alias? := by
  simp [tableOrigin, tableOriginText, String.append_assoc]

/-- A subquery that rows come from, on lines of its own if it is to look
pretty. -/
def subqueryOrigin (pretty : Bool) (outer inner : Nat) (a : Alias) (p : Draft) : Draft :=
  code " FROM " ++ (enclosed (if pretty then code ("\n" ++ indent inner) ++
    (p ++ code ("\n" ++ indent outer)) else p) ++
    (code " " ++ label a))

@[simp] theorem bindings_subqueryOrigin (pretty : Bool) (outer inner : Nat) (a : Alias) :
    (subqueryOrigin pretty outer inner a p).bindings = p.bindings := by
  cases pretty <;> simp [subqueryOrigin]

@[simp] theorem text_subqueryOrigin (pretty : Bool) (outer inner : Nat) (a : Alias) :
    (subqueryOrigin pretty outer inner a p).text d c = subqueryOriginText d pretty outer inner a
    (p.text d c) := by
  cases pretty <;>
    simp [subqueryOrigin, subqueryOriginText, SqlTree.enclosed, String.append_assoc,
      ← String.toList_inj]

/-! ## Lists within a select -/

/-- The joins, each after a blank. -/
def joins : List Draft → Draft
  | [] => code ""
  | p :: ps => code " " ++ (p ++ joins ps)

@[simp] theorem bindings_joins (ps : List Draft) : (joins ps).bindings = ps.flatMap bindings := by
  fun_induction joins ps <;> simp_all

@[simp] theorem after_joins (ps : List Draft) : (joins ps).after c = afterAll ps c := by
  simp only [after, afterAll, bindings_joins]

@[simp] theorem text_joins (ps : List Draft) : (joins ps).text d c = joinsText (texts d ps c) := by
  fun_induction joins ps generalizing c <;> simp_all [texts, joinsText, String.append_assoc]

/-- A list of terms after its keyword, nothing if there are none. -/
def termList (keyword : String) (ps : List Draft) : Draft :=
  if ps.isEmpty then code "" else code keyword ++ joined ", " ps

theorem text_termList (keyword : String) (ps : List Draft) :
    (termList keyword ps).text d c = termListText keyword (texts d ps c) := by
  cases ps with
  | nil => rfl
  | cons p ps => simp [termList, termListText, texts]

theorem bindings_termList (keyword : String) (ps : List Draft) :
    (termList keyword ps).bindings = ps.flatMap bindings := by
  cases ps <;> simp [termList]

/-- The terms that rows are grouped by. -/
def groupBy (terms : List Reference) : Draft := termList " GROUP BY " (terms.map ofReference)

/-- A term that rows are ordered by. -/
def orderTerm (t : Reference × Direction) : Draft := ofReference t.1 ++ code (" " ++ t.2.keyword)

/-- The terms that rows are ordered by. -/
def orderBy (terms : List (Reference × Direction)) :
    Draft := termList " ORDER BY " (terms.map orderTerm)

@[simp] theorem bindings_groupBy (terms : List Reference) : (groupBy terms).bindings = [] := by
  simp [groupBy, bindings_termList, List.flatMap_map]

@[simp] theorem bindings_orderBy (terms : List (Reference × Direction)) :
    (orderBy terms).bindings = [] := by
  simp [orderBy, bindings_termList, List.flatMap_map, orderTerm]

@[simp] theorem after_groupBy (terms : List Reference) : (groupBy terms).after c = c :=
  after_of_bindings_eq_nil (bindings_groupBy terms)

@[simp] theorem after_orderBy (terms : List (Reference × Direction)) :
    (orderBy terms).after c = c :=
  after_of_bindings_eq_nil (bindings_orderBy terms)

theorem texts_map_ofReference (terms : List Reference) :
    texts d (terms.map ofReference) c = terms.map (·.quoted d) := by
  induction terms with
  | nil => rfl
  | cons r terms ih => simp [texts, ih]

theorem texts_map_orderTerm (terms : List (Reference × Direction)) :
    texts d (terms.map orderTerm) c = terms.map fun t => t.1.quoted d ++ " " ++ t.2.keyword := by
  induction terms with
  | nil => rfl
  | cons t terms ih => simp [texts, ih, orderTerm, String.append_assoc]

@[simp] theorem text_groupBy (terms : List Reference) :
    (groupBy terms).text d c = groupByText d terms := by
  rw [groupBy, text_termList, texts_map_ofReference, groupByText]

@[simp] theorem text_orderBy (terms : List (Reference × Direction)) :
    (orderBy terms).text d c = orderByText d terms := by
  rw [orderBy, text_termList, texts_map_orderTerm, orderByText]

/-- The table that the rows are written into. -/
def into (into? : Option Identifier) : Draft :=
  match into? with
  | some name => code " INTO " ++ identifier name
  | none => code ""

@[simp] theorem bindings_into (into? : Option Identifier) : (into into?).bindings = [] := by
  cases into? <;> rfl

@[simp] theorem after_into (into? : Option Identifier) : (into into?).after c = c :=
  after_of_bindings_eq_nil (bindings_into into?)

@[simp] theorem text_into (into? : Option Identifier) :
    (into into?).text d c = intoText d into? := by
  cases into? <;> rfl

/-! ## Selects -/

/-- What a select is made of, drafts for the parts that bind values. -/
structure SelectParts where
  head : Draft
  columns : List Draft
  into? : Option Identifier
  origin : Draft
  joins : List Draft
  filter : Draft
  groupBy : List Reference
  having : Draft
  combined : Draft
  orderBy : List (Reference × Direction)
  page : Draft

/-- A select from its parts. -/
def select (s : SelectParts) : Draft :=
  code "SELECT " ++ (s.head ++
    (joined ", " s.columns ++ (into s.into? ++ (s.origin ++ (joins s.joins ++
    (spaced s.filter ++ (groupBy s.groupBy ++
    (spaced s.having ++ (s.combined ++ (orderBy s.orderBy ++
      spaced s.page))))))))))

@[simp] theorem bindings_select (s : SelectParts) :
    (select s).bindings = s.head.bindings ++ s.columns.flatMap bindings ++ s.origin.bindings ++
      s.joins.flatMap bindings ++ s.filter.bindings ++ s.having.bindings ++ s.combined.bindings ++
        s.page.bindings := by
  simp [select]

theorem after_select (s : SelectParts) : (select s).after c =
    s.page.after (s.combined.after (s.having.after (s.filter.after (afterAll s.joins (s.origin.after
      (afterAll s.columns (s.head.after c))))))) := by
  simp only [after, afterAll, bindings_select, Collector.bindAll_append]

/-- The parts are written in the order in which they stand. -/
theorem text_select (s : SelectParts) {c₁ c₂ c₃ c₄ c₅ c₆ c₇ : Collector} (h₁ : s.head.after c = c₁)
    (h₂ : afterAll s.columns c₁ = c₂) (h₃ : s.origin.after c₂ = c₃) (h₄ : afterAll s.joins c₃ = c₄)
    (h₅ : s.filter.after c₄ = c₅) (h₆ : s.having.after c₅ = c₆) (h₇ : s.combined.after c₆ = c₇) :
    (select s).text d c = SelectTexts.text
      { head := s.head.text d c, columns := texts d s.columns c₁, into := intoText d s.into?,
        origin := s.origin.text d c₂, joins := texts d s.joins c₃, filter := s.filter.text d c₄,
        groupBy := groupByText d s.groupBy, having := s.having.text d c₅, combined :=
          s.combined.text d c₆,
        orderBy := orderByText d s.orderBy, page := s.page.text d c₇ } := by
  subst h₁ h₂ h₃ h₄ h₅ h₆ h₇
  delta SelectTexts.text select
  simp only [text_append, text_code, text_joined, text_into, text_joins, text_spaced,
    text_groupBy, text_orderBy, after_code, after_joined, after_into, after_joins, after_spaced,
      after_groupBy,
    after_orderBy, String.append_assoc]

/-! ## Inserts -/

/-- Drafts between parentheses. -/
def parenthesised (ps : List Draft) : Draft := enclosed (joined ", " ps)

@[simp] theorem bindings_parenthesised (ps : List Draft) :
    (parenthesised ps).bindings = ps.flatMap bindings := by
  simp [parenthesised]

@[simp] theorem after_parenthesised (ps : List Draft) :
    (parenthesised ps).after c = afterAll ps c := by
  simp only [after, afterAll, bindings_parenthesised]

@[simp] theorem text_parenthesised (ps : List Draft) :
    (parenthesised ps).text d c = SqlTree.parenthesised (texts d ps c) := by
  simp [parenthesised, SqlTree.parenthesised, SqlTree.enclosed]

/-- The column list of an insert. -/
def columnList (columns : List Identifier) : Draft :=
  if columns.isEmpty then code "" else code " " ++ parenthesised (columns.map identifier)

@[simp] theorem bindings_columnList (columns : List Identifier) :
    (columnList columns).bindings = [] := by
  cases columns <;> simp [columnList, List.flatMap_map]

@[simp] theorem after_columnList (columns : List Identifier) : (columnList columns).after c = c :=
  after_of_bindings_eq_nil (bindings_columnList columns)

theorem texts_map_identifier (columns : List Identifier) :
    texts d (columns.map identifier) c = columns.map (·.quoted d) := by
  induction columns with
  | nil => rfl
  | cons i columns ih => simp [texts, ih]

@[simp] theorem text_columnList (columns : List Identifier) :
    (columnList columns).text d c = SqlTree.columnList (columns.map (·.quoted d)) := by
  cases columns with
  | nil => rfl
  | cons i columns =>
    rw [columnList, if_neg (by simp), text_append, text_code, text_parenthesised,
      texts_map_identifier, SqlTree.columnList, if_neg (by simp)]

/-- The table, its columns and one row. -/
def insertRow (table : Identifier) (columns : List Identifier) (row : List Draft) : Draft :=
  identifier table ++ (columnList columns ++ (code " VALUES " ++ parenthesised row))

@[simp] theorem bindings_insertRow (table : Identifier) (columns : List Identifier)
    (row : List Draft) :
    (insertRow table columns row).bindings = row.flatMap bindings := by simp [insertRow]

@[simp] theorem after_insertRow (table : Identifier) (columns : List Identifier)
    (row : List Draft) : (insertRow table columns row).after c = afterAll row c := by
  simp only [after, afterAll, bindings_insertRow]

@[simp] theorem text_insertRow (table : Identifier) (columns : List Identifier) (row : List Draft) :
    (insertRow table columns row).text d c =
      SqlTree.insertRow (table.quoted d) (columns.map (·.quoted d)) (texts d row c) := by
  simp [insertRow, SqlTree.insertRow, String.append_assoc]

/-- One row after the other, into the same table. -/
def insertAllRows (table : Identifier) (columns : List Identifier) : List (List Draft) → Draft
  | [] => code ""
  | row :: rows => code " INTO " ++
      (insertRow table columns row ++ insertAllRows table columns rows)

@[simp] theorem bindings_insertAllRows (table : Identifier) (columns : List Identifier)
    (rows : List (List Draft)) :
    (insertAllRows table columns rows).bindings = rows.flatten.flatMap bindings := by
  induction rows with
  | nil => rfl
  | cons row rows ih => simp [insertAllRows, ih]

@[simp] theorem text_insertAllRows (table : Identifier) (columns : List Identifier)
    (rows : List (List Draft)) : (insertAllRows table columns rows).text d c =
      SqlTree.insertAllRows (table.quoted d) (columns.map (·.quoted d)) (rowTexts d rows c) := by
  induction rows generalizing c with
  | nil => rfl
  | cons row rows ih =>
    simp [insertAllRows, SqlTree.insertAllRows, rowTexts, ih, String.append_assoc]

/-- Several rows, each with the table; a single row needs no `INSERT ALL`. -/
def insertAll (table : Identifier) (columns : List Identifier) (rows : List (List Draft)) : Draft :=
  match rows with
  | [row] => code "INSERT INTO " ++ insertRow table columns row
  | rows => code "INSERT ALL" ++ (insertAllRows table columns rows ++ code " SELECT 1 FROM DUAL")

@[simp] theorem bindings_insertAll (table : Identifier) (columns : List Identifier)
    (rows : List (List Draft)) :
    (insertAll table columns rows).bindings = rows.flatten.flatMap bindings := by
  unfold insertAll
  split <;> simp

@[simp] theorem text_insertAll (table : Identifier) (columns : List Identifier)
    (rows : List (List Draft)) : (insertAll table columns rows).text d c =
      insertAllText (table.quoted d) (columns.map (·.quoted d)) (rowTexts d rows c) := by
  match rows with
  | [] => simp [insertAll, insertAllText, rowTexts, String.append_assoc]
  | [row] => simp [insertAll, insertAllText, rowTexts]
  | row :: row' :: rows =>
    simp [insertAll, insertAllText, rowTexts, SqlTree.insertAllRows, String.append_assoc]

theorem texts_map_parenthesised (rows : List (List Draft)) :
    texts d (rows.map parenthesised) c = (rowTexts d rows c).map SqlTree.parenthesised := by
  induction rows generalizing c with
  | nil => rfl
  | cons row rows ih => simp [texts, rowTexts, ih]

/-- The rows one after the other in one list. -/
def insertValues (table : Identifier) (columns : List Identifier) (rows : List (List Draft)) :
    Draft :=
  code "INSERT INTO " ++ (identifier table ++ (columnList columns ++ (code " VALUES " ++
    joined ", " (rows.map parenthesised))))

@[simp] theorem bindings_insertValues (table : Identifier) (columns : List Identifier)
    (rows : List (List Draft)) :
    (insertValues table columns rows).bindings = rows.flatten.flatMap bindings := by
  have h : (joined ", " (rows.map parenthesised)).bindings = rows.flatten.flatMap bindings := by
    rw [bindings_joined]
    induction rows with
    | nil => rfl
    | cons row rows ih => simp [ih]
  simp [insertValues, -bindings_joined, h]

@[simp] theorem text_insertValues (table : Identifier) (columns : List Identifier)
    (rows : List (List Draft)) : (insertValues table columns rows).text d c =
      SqlTree.insertValues (table.quoted d) (columns.map (·.quoted d)) (rowTexts d rows c) := by
  simp [insertValues, SqlTree.insertValues, texts_map_parenthesised, String.append_assoc]

/-- The insert of rows, unless they are more than the dialect can say. -/
def insertRows (k : Constructs) (table : Identifier) (columns : List Identifier)
    (rows : List (List Draft)) : Except Error Draft :=
  if 1 < rows.length ∧ k.insertAll then .ok (insertAll table columns rows)
  else if 1 < rows.length ∧ !k.multiRowInsert then .error (.unsupported k.name .multiRowInsert)
  else .ok (insertValues table columns rows)

/-- Rows that can be inserted are inserted in one of two ways. -/
theorem insertRows_cases {k : Constructs} {table : Identifier} {columns : List Identifier}
    {rows : List (List Draft)} (h : insertRows k table columns rows = .ok p) :
    p = insertAll table columns rows ∨ p = insertValues table columns rows := by
  unfold insertRows at h
  split at h
  · exact .inl (Except.ok.inj h).symm
  · split at h
    · cases h
    · exact .inr (Except.ok.inj h).symm

theorem bindings_insertRows {k : Constructs} {table : Identifier} {columns : List Identifier}
    {rows : List (List Draft)} {p : Draft} (h : insertRows k table columns rows = .ok p) :
    p.bindings = rows.flatten.flatMap bindings := by
  rcases insertRows_cases h with rfl | rfl
  · exact bindings_insertAll table columns rows
  · exact bindings_insertValues table columns rows

/-- Whether the rows can be said is settled by their number. -/
theorem text_insertRows (table : Identifier) (columns : List Identifier)
    (rows : List (List Draft)) :
    d.insertRows (table.quoted d) (columns.map (·.quoted d)) (rowTexts d rows c) =
      (insertRows d.constructs table columns rows).map fun p => p.text d c := by
  unfold insertRows Dialect.insertRows Dialect.constructs
  rw [length_rowTexts]
  split
  · exact congrArg Except.ok (text_insertAll table columns rows).symm
  · split
    · rfl
    · exact congrArg Except.ok (text_insertValues table columns rows).symm

/-- The insert of what a select gives. -/
def insertSelect (table : Identifier) (columns : List Identifier) (p : Draft) : Draft :=
  code "INSERT INTO " ++ (identifier table ++ (columnList columns ++ (code " " ++ p)))

@[simp] theorem bindings_insertSelect (table : Identifier) (columns : List Identifier) :
    (insertSelect table columns p).bindings = p.bindings := by simp [insertSelect]

@[simp] theorem text_insertSelect (table : Identifier) (columns : List Identifier) :
    (insertSelect table columns p).text d c =
      insertSelectText (table.quoted d) (columns.map (·.quoted d)) (p.text d c) := by
  simp [insertSelect, insertSelectText, String.append_assoc]

/-! ## Updates and deletes -/

/-- An assignment to a column. -/
def assignment (column : Identifier) (p : Draft) : Draft := identifier column ++ (code " = " ++ p)

@[simp] theorem bindings_assignment (column : Identifier) :
    (assignment column p).bindings = p.bindings := by
  simp [assignment]

@[simp] theorem text_assignment (column : Identifier) :
    (assignment column p).text d c = column.quoted d ++ " = " ++ p.text d c := by
  simp [assignment, String.append_assoc]

/-- An update. -/
def update (table : Identifier) (assignments : List Draft) (filter : Draft) : Draft :=
  code "UPDATE " ++ (identifier table ++
    (code " SET " ++ (joined ", " assignments ++ (code " " ++ filter))))

@[simp] theorem bindings_update (table : Identifier) (assignments : List Draft) :
    (update table assignments p).bindings = assignments.flatMap bindings ++ p.bindings :=
    by simp [update]

@[simp] theorem text_update (table : Identifier) (assignments : List Draft) :
    (update table assignments p).text d c =
      updateText (table.quoted d) (texts d assignments c) (p.text d (afterAll assignments c)) := by
  simp [update, updateText, String.append_assoc]

/-- A delete. -/
def delete (table : Identifier) (filter : Draft) : Draft :=
  code "DELETE FROM " ++ (identifier table ++ (code " " ++ filter))

@[simp] theorem bindings_delete (table : Identifier) :
    (delete table p).bindings = p.bindings := by simp [delete]

@[simp] theorem text_delete (table : Identifier) :
    (delete table p).text d c = deleteText (table.quoted d) (p.text d c) := by
  simp [delete, deleteText, String.append_assoc]

end Draft

end SqlTree
