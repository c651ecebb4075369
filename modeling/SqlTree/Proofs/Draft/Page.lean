import SqlTree.Proofs.Draft.Effect

/-!
# SqlTree.Proofs.Draft.Page

Drafts of pages, in the three places where a page can be asked for: at the
end of a select, before its columns and around it.  A page whose count is
out of range, or which the dialect cannot say, has no draft.  For each of
them the action on the collector has the effect of writing the draft
(`effect_pageClause`, `effect_columnHead`, `effect_numberRows`).
-/

namespace SqlTree

/-! ## Constructs -/

/-- What of a dialect decides which drafts there are; the rest of it decides
how they are written. -/
structure Constructs where
  name : String
  limitOffset : Bool
  multiRowInsert : Bool
  pageSyntax : Option PageSyntax
  insertAll : Bool
  topRows : Bool
  rowNumbers : Bool

/-- The constructs of a dialect. -/
def Dialect.constructs (d : Dialect) : Constructs where
  name := d.name
  limitOffset := d.limitOffset
  multiRowInsert := d.multiRowInsert
  pageSyntax := d.pageSyntax
  insertAll := d.insertAll
  topRows := d.topRows
  rowNumbers := d.rowNumbers

/-- The page that is asked for within the select. -/
def Constructs.innerPage (k : Constructs) (page : Page) :
    Page := if k.rowNumbers then Page.all else page

namespace Draft

variable {d : Dialect}

/-! ## At the end of the select -/

/-- One of the standard clauses, if its count is present. -/
def standardPart (keyword hint : String) : Option UInt64 → Except Error (List Draft)
  | none => .ok []
  | some n => do
    let count ← rowCount n hint
    return [code keyword ++ count]

/-- The standard clauses. -/
def standardPage (page : Page) : Except Error Draft := do
  let limit ← standardPart "LIMIT " "limit" page.limit
  let offset ← standardPart "OFFSET " "offset" page.offset
  return joined " " (limit ++ offset)

/-- A limit is always written, `unbounded` if there is none to bind. -/
def limitOffsetPage (unbounded : String) (page : Page) : Except Error Draft :=
  match page.limit, page.offset with
  | none, none => .ok (code "")
  | some n, none => do
    let limit ← rowCount n "limit"
    return code "LIMIT " ++ limit
  | none, some m => do
    let offset ← rowCount m "offset"
    return code ("LIMIT " ++ unbounded ++ " OFFSET ") ++ offset
  | some n, some m => do
    let limit ← rowCount n "limit"
    let offset ← rowCount m "offset"
    return code "LIMIT " ++ (limit ++ (code " OFFSET " ++ offset))

/-- The order that rows without an order get. -/
def emptyOrder (ordered : Bool) : Draft :=
  if ordered then code "" else code "ORDER BY " ++ (enclosed (code "SELECT NULL") ++ code " ")

/-- Nothing without an offset, as the limit then stands before the
columns. -/
def offsetFetchPage (page : Page) (ordered : Bool) : Except Error Draft :=
  match page.offset, page.limit with
  | none, _ => .ok (code "")
  | some m, none => do
    let offset ← rowCount m "offset"
    return emptyOrder ordered ++ (code "OFFSET " ++ (offset ++ code " ROWS"))
  | some m, some n => do
    let offset ← rowCount m "offset"
    let limit ← rowCount n "limit"
    return emptyOrder ordered ++
      (code "OFFSET " ++ (offset ++ (code " ROWS FETCH NEXT " ++ (limit ++ code " ROWS ONLY"))))

/-- The clause for a page in the syntax of a dialect. -/
def syntaxPage (s : PageSyntax) (page : Page) (ordered : Bool) : Except Error Draft :=
  match s with
  | .limitOffset unbounded => limitOffsetPage unbounded page
  | .offsetFetch => offsetFetchPage page ordered

/-- The clause for a page at the end of a select. -/
def pageClause (k : Constructs) (page : Page) (ordered : Bool) : Except Error Draft :=
  match k.pageSyntax with
  | some s => syntaxPage s page ordered
  | none => if k.limitOffset then standardPage page else .error (.unsupported k.name .pagination)

/-- The clause for the page within a select, nothing for all rows. -/
def innerPageClause (k : Constructs) (page : Page) (ordered : Bool) : Except Error Draft :=
  if (k.innerPage page).isPartial then pageClause k (k.innerPage page) ordered else .ok (code "")

/-! ## Before the columns -/

/-- The quantifier, and the limit if there is no offset. -/
def topHead (quantifier : Option String) (page : Page) : Except Error Draft :=
  match page.limit, page.offset with
  | some n, none => do
    let limit ← rowCount n "limit"
    return code (quantifierHead quantifier ++ "TOP ") ++ (enclosed limit ++ code " ")
  | _, _ => .ok (code (quantifierHead quantifier))

/-- What stands between `SELECT` and the columns. -/
def columnHead (k : Constructs) (quantifier : Option String) (page : Page) : Except Error Draft :=
  if k.topRows then topHead quantifier page else .ok (code (quantifierHead quantifier))

/-! ## Around the select -/

/-- A select with the rows of its result numbered. -/
def numbered (p rest : Draft) : Draft :=
  code "SELECT b.*, ROWNUM b_rownum FROM " ++ (enclosed p ++ (code " b" ++ rest))

/-- The select with its rows numbered and cut at the bounds of the page. -/
def numberRows (p : Draft) (page : Page) : Except Error Draft :=
  match page.limit, page.offset with
  | none, none => .ok p
  | some n, none => do
    let upper ← rowCount n "limit"
    return code "SELECT * FROM " ++ (enclosed p ++ (code " WHERE ROWNUM <= " ++ upper))
  | some n, some m => do
    let upper ← rowCount (Page.lastRow n m) "limit"
    let lower ← rowCount m "offset"
    return code "SELECT * FROM " ++ (enclosed (numbered p (code " WHERE ROWNUM <= " ++ upper)) ++
      (code " WHERE b_rownum > " ++ lower))
  | none, some m => do
    let lower ← rowCount m "offset"
    return code "SELECT * FROM " ++
      (enclosed (numbered p (code "")) ++ (code " WHERE b_rownum > " ++ lower))

/-- The select with its rows numbered where that is how pages are cut. -/
def aroundSelect (k : Constructs) (p : Draft) (page : Page) : Except Error Draft :=
  if k.rowNumbers then numberRows p page else .ok p

/-! ## Effects -/

theorem effect_standardPart (keyword hint : String) (count? : Option UInt64) :
    (SqlTree.standardPart keyword hint count?).effect = (listScribe d).effect
    (standardPart keyword hint count?) := by
  cases count? with
  | none => rfl
  | some n =>
    simp only [SqlTree.standardPart, standardPart, Collecting.effect_bind, Collecting.effect_pure,
      effect_bindCount (d := d)]
    simp only [bind_pure_comp]
    exact Scribe.effect_map (w := scribe d) (v := listScribe d) (f := fun m => [keyword ++ m])
      (g := fun p => [code keyword ++ p]) (fun _ _ => rfl)
        (fun p c => by simp [listScribe, scribe]) _

theorem effect_standardPage (page : Page) :
    (SqlTree.standardPage page).effect = (scribe d).effect (standardPage page) := by
  simp only [SqlTree.standardPage, standardPage, Collecting.effect_bind, Collecting.effect_pure,
    effect_standardPart (d := d)]
  exact Scribe.effect_pair (u := listScribe d) (v := listScribe d) (w := scribe d)
    (f := fun a b => SqlTree.joined " " (a ++ b)) (g := fun ps qs => joined " " (ps ++ qs))
    (fun ps qs c => by simp [scribe, listScribe, texts_append])
    (fun ps qs c => by simp [scribe, listScribe, afterAll, after]) _ _

theorem effect_limitOffsetPage (unbounded : String) (page : Page) :
    (SqlTree.limitOffsetPage unbounded page).effect = (scribe d).effect
    (limitOffsetPage unbounded page) := by
  rcases page with ⟨_ | n, _ | m⟩ <;>
    simp only [SqlTree.limitOffsetPage, limitOffsetPage, Collecting.effect_bind,
      Collecting.effect_pure, effect_bindCount (d := d)]
  case none.none => rfl
  case none.some =>
    simp only [bind_pure_comp]
    exact effect_map (fun p c => by simp [toString, String.append_assoc]) (fun p => by simp) _
  case some.none =>
    simp only [bind_pure_comp]
    exact effect_map (fun p c => by simp [toString]) (fun p => by simp) _
  case some.some =>
    exact effect_pair (fun p q c => by simp [toString, String.append_assoc])
      (fun p q => by simp) _ _

theorem text_emptyOrder (ordered : Bool) (c : Collector) :
    (emptyOrder ordered).text d c = if ordered then "" else "ORDER BY (SELECT NULL) " := by
  cases ordered <;> rfl

@[simp] theorem bindings_emptyOrder (ordered : Bool) : (emptyOrder ordered).bindings = [] := by
  cases ordered <;> rfl

theorem effect_offsetFetchPage (page : Page) (ordered : Bool) :
    (SqlTree.offsetFetchPage page ordered).effect = (scribe d).effect
    (offsetFetchPage page ordered) := by
  have hafter (c : Collector) : (emptyOrder ordered).after c = c :=
    after_of_bindings_eq_nil (bindings_emptyOrder ordered)
  rcases page with ⟨_ | n, _ | m⟩ <;>
    simp only [SqlTree.offsetFetchPage, offsetFetchPage, Collecting.effect_bind,
      Collecting.effect_pure, effect_bindCount (d := d)]
  case none.none => rfl
  case some.none => rfl
  case none.some =>
    simp only [bind_pure_comp]
    exact effect_map (fun p c => by simp [toString, String.append_assoc, text_emptyOrder, hafter])
      (fun p => by simp) _
  case some.some =>
    exact effect_pair
      (fun p q c => by simp [toString, String.append_assoc, text_emptyOrder, hafter])
      (fun p q => by simp) _ _

theorem effect_pageClause (page : Page) (ordered : Bool) :
    (d.pageClause page ordered).effect = (scribe d).effect
    (pageClause d.constructs page ordered) := by
  unfold Dialect.pageClause pageClause Dialect.constructs
  cases d.pageSyntax with
  | none =>
    cases d.limitOffset with
    | true => exact effect_standardPage page
    | false => rfl
  | some s =>
    cases s with
    | limitOffset unbounded => exact effect_limitOffsetPage unbounded page
    | offsetFetch => exact effect_offsetFetchPage page ordered

theorem effect_innerPageClause (page : Page) (ordered : Bool) :
    (d.innerPageClause page ordered).effect = (scribe d).effect
    (innerPageClause d.constructs page ordered) := by
  have hpage : d.constructs.innerPage page = d.innerPage page := rfl
  rw [Dialect.innerPageClause, innerPageClause, hpage]
  split
  · exact effect_pageClause _ ordered
  · rfl

theorem effect_columnHead (quantifier : Option String) (page : Page) :
    (d.columnHead quantifier page).effect = (scribe d).effect
    (columnHead d.constructs quantifier page) := by
  unfold Dialect.columnHead columnHead Dialect.constructs
  split
  · rcases page with ⟨_ | n, _ | m⟩ <;>
      simp only [SqlTree.topHead, topHead, Collecting.effect_bind, Collecting.effect_pure,
        effect_bindCount (d := d)]
    case some.none =>
      simp only [bind_pure_comp]
      exact effect_map (fun p c => by simp [toString, String.append_assoc, SqlTree.enclosed,
        ← String.toList_inj])
        (fun p => by simp) _
    all_goals rfl
  · rfl

theorem text_numbered (p rest : Draft) (c : Collector) :
    (numbered p rest).text d c = s!"SELECT b.*, ROWNUM b_rownum FROM ({p.text d c}) b" ++
    rest.text d (p.after c) := by
  simp [numbered, SqlTree.enclosed, toString, String.append_assoc, ← String.toList_inj]

@[simp] theorem bindings_numbered (p rest : Draft) :
    (numbered p rest).bindings = p.bindings ++ rest.bindings := by
  simp [numbered]

@[simp] theorem after_numbered (p rest : Draft) (c : Collector) :
    (numbered p rest).after c = rest.after (p.after c) := by
  simp [after]

/-- Numbering the rows of a select that is already written. -/
theorem effect_numberRows (p : Draft) (page : Page) (c : Collector) :
    (SqlTree.numberRows (p.text d c) page).effect (p.after c) = (scribe d).effect
    (numberRows p page) c := by
  rcases page with ⟨_ | n, _ | m⟩ <;>
    simp only [SqlTree.numberRows, numberRows, Collecting.effect_bind, Collecting.effect_pure,
      effect_bindCount (d := d)]
  case none.none => rfl
  case none.some =>
    cases rowCount m "offset" with
    | error e => rfl
    | ok lower =>
      refine congrArg Except.ok (Prod.ext ?_ ?_)
      · simp [scribe, text_numbered, SqlTree.enclosed, toString, String.append_assoc,
          ← String.toList_inj]
      · simp [scribe]
  case some.none =>
    cases rowCount n "limit" with
    | error e => rfl
    | ok upper =>
      refine congrArg Except.ok (Prod.ext ?_ ?_)
      · simp [scribe, SqlTree.enclosed, toString, String.append_assoc, ← String.toList_inj]
      · simp [scribe]
  case some.some =>
    cases rowCount (Page.lastRow n m) "limit" with
    | error e => rfl
    | ok upper =>
      cases rowCount m "offset" with
      | error e => rfl
      | ok lower =>
        refine congrArg Except.ok (Prod.ext ?_ ?_)
        · simp [scribe, text_numbered, SqlTree.enclosed, toString, String.append_assoc,
            ← String.toList_inj]
        · simp [scribe]

theorem effect_aroundSelect (p : Draft) (page : Page) (c : Collector) :
    (d.aroundSelect (p.text d c) page).effect (p.after c) = (scribe d).effect
    (aroundSelect d.constructs p page) c := by
  unfold Dialect.aroundSelect aroundSelect Dialect.constructs
  split
  · exact effect_numberRows p page c
  · rfl

end Draft

end SqlTree
