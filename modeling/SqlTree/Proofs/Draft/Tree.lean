import SqlTree.Proofs.Draft.Statement
import SqlTree.Node

/-!
# SqlTree.Proofs.Draft.Tree

The draft of a tree, or the error that keeps it from having one.  The
recursion is the one of the compilation, without its collector and without
its caches: what a node keeps plays no part (`draft_fresh`), and of the
dialect only its constructs do.
-/

namespace SqlTree

/-- The alias of a table or a subquery. -/
def Origin.alias? : Origin → Option Alias
  | .table _ alias? => alias?
  | .subquery _ a => some a

/-- The draft of the parts of a template, given those of its slots. -/
def piecesDraft (slots : List (String × Except Error Draft)) : List Piece → Except Error Draft
  | [] => .ok (.code "")
  | .text cs :: rest => do
    let after ← piecesDraft slots rest
    return .raw (String.ofList cs) ++ after
  | .slot name :: rest => do
    let p ← match slots.lookup (String.ofList name) with
      | some p => p
      | none => .ok (.raw (String.ofList (Piece.slot name).source))
    let after ← piecesDraft slots rest
    return p ++ after

mutual

/-- The draft of an operand whose value is bound under the hint. -/
def Operand.draft (k : Constructs) (hint : String) : Operand → Except Error Draft
  | .value v => .ok (.value ⟨v, v.bindType, hint⟩)
  | .identifier i => .ok (.identifier i)
  | .literal l => .ok (.raw l.text)
  | .expression e => e.draft k
  | .subquery s => Draft.enclosed <$> s.draft k

/-- The draft of a filling. -/
def Filling.draft (k : Constructs) : Filling → Except Error Draft
  | .value v => .ok (.value ⟨v, v.bindType, "expr"⟩)
  | .identifier i => .ok (.identifier i)
  | .alias a => .ok (.label a)
  | .literal l => .ok (.raw l.text)
  | .subquery s => Draft.enclosed <$> s.draft k

/-- The drafts of slots under their names. -/
def slotDrafts (k : Constructs) : List Slot → List (String × Except Error Draft)
  | [] => []
  | ⟨name, filling⟩ :: slots => (name, filling.draft k) :: slotDrafts k slots

/-- The draft of an expression. -/
def Expression.draft (k : Constructs) : Expression → Except Error Draft
  | ⟨template, slots⟩ => piecesDraft (slotDrafts k slots) (pieces template)

/-- The draft of a predicate. -/
def Predicate.draft (k : Constructs) : Predicate → Except Error Draft
  | .comparison left op right => Draft.comparison left op <$> right.draft k op.hint
  | .between left negated low high => do
    let low ← low.draft k "between"
    let high ← high.draft k "between"
    return Draft.between left negated low high
  | .inValues left negated values orNull =>
    .ok (Draft.inList left negated (values.map fun v => .value ⟨v, v.bindType, "in"⟩) orNull)
  | .inSelect left negated s => Draft.inParentheses left negated <$> s.draft k
  | .like left negated pattern escape => (fun p => Draft.like left negated p escape) <$>
      pattern.draft k "like"
  | .truth left negated word => .ok (Draft.truth left negated word)
  | .existence negated s => Draft.existence negated <$> s.draft k
  | .quantified left op quantifier s => Draft.quantified left op quantifier <$> s.draft k
  | .literal l => .ok (.raw l.text)
  | .expression e => e.draft k
  | .group g => g.draft k

/-- The drafts of terms. -/
def termDrafts (k : Constructs) : List Term → Except Error (List (Connective × Draft))
  | [] => .ok []
  | ⟨connective, p⟩ :: terms => do
    let p ← p.draft k
    let terms ← termDrafts k terms
    return (connective, p) :: terms

/-- The draft of a group. -/
def Group.draft (k : Constructs) : Group → Except Error Draft
  | ⟨terms, _, _, nested, _⟩ => Draft.group nested <$> termDrafts k terms

/-- The draft of a clause. -/
def Clause.draft (k : Constructs) : Clause → Except Error Draft
  | ⟨_, none⟩ => .ok (.code "")
  | ⟨kind, some g⟩ => Draft.clause kind <$> g.draft k

/-- The draft of what is joined. -/
def JoinTarget.draft (k : Constructs) : JoinTarget → Except Error Draft
  | .table name => .ok (.identifier name)
  | .subquery s => Draft.enclosed <$> s.draft k

/-- The draft of a join. -/
def Join.draft (k : Constructs) : Join → Except Error Draft
  | ⟨kind, target, alias?, on, _⟩ => do
    let target ← target.draft k
    let on ← on.draft k
    return Draft.join kind target alias? on

/-- The drafts of joins. -/
def joinDrafts (k : Constructs) : List Join → Except Error (List Draft)
  | [] => .ok []
  | j :: joins => do
    let p ← j.draft k
    let ps ← joinDrafts k joins
    return p :: ps

/-- The draft of where a column comes from. -/
def ColumnSource.draft (k : Constructs) (star : Draft) : ColumnSource → Except Error Draft
  | .reference r => .ok (Draft.referenceColumn star r)
  | .expression e => e.draft k
  | .subquery s => Draft.enclosed <$> s.draft k

/-- The drafts of columns. -/
def columnDrafts (k : Constructs) (star : Draft) : List Column → Except Error (List Draft)
  | [] => .ok []
  | ⟨source, alias?⟩ :: columns => do
    let p ← Draft.column alias? <$> source.draft k star
    let ps ← columnDrafts k star columns
    return p :: ps

/-- The draft of where rows come from. -/
def originDraft (k : Constructs) (pretty : Bool) (nesting : Nat) :
    Option Origin → Except Error Draft
  | none => .ok (.code "")
  | some (.table name alias?) => .ok (Draft.tableOrigin name alias?)
  | some (.subquery s a) => Draft.subqueryOrigin pretty nesting s.nesting a <$> s.draft k

/-- The draft of a combined select. -/
def combinedDraft (k : Constructs) : Option (SetOperation × Select) → Except Error Draft
  | none => .ok (.code "")
  | some (operation, s) => (fun p => .code (" " ++ operation.keyword ++ " ") ++ p) <$> s.draft k

/-- The draft of a select. -/
def Select.draft (k : Constructs) : Select → Except Error Draft
  | ⟨distinct, columns, into?, origin?, joins, filter, groupBy, having, combined?, orderBy, limit,
      offset, nesting, pretty, _, _⟩ => do
    let page : Page := ⟨limit, offset⟩
    let star := Draft.star (origin?.bind Origin.alias?)
    let head ← Draft.columnHead k (if distinct then some "DISTINCT" else none) (k.innerPage page)
    let columns ← columnDrafts k star columns
    let origin ← originDraft k pretty nesting origin?
    let joined ← joinDrafts k joins
    let filter ← filter.draft k
    let having ← having.draft k
    let combined ← combinedDraft k combined?
    let last ← Draft.innerPageClause k page (!orderBy.isEmpty)
    let parts : Draft.SelectParts :=
      { head, columns := Draft.columnsOr star columns, into?, origin, joins := joined, filter,
        groupBy, having, combined, orderBy, page := last }
    Draft.aroundSelect k (.requoted (knownNames origin? joins) (Draft.select parts)) page

end

/-! ## Statements -/

/-- The drafts of a row, each value under the hint of its column. -/
def rowDraft (k : Constructs) : List Identifier → List Operand → Except Error (List Draft)
  | _, [] => .ok []
  | columns, value :: values => do
    let p ← value.draft k (columnHint columns.head?)
    let ps ← rowDraft k columns.tail values
    return p :: ps

/-- The drafts of rows. -/
def rowDrafts (k : Constructs) (columns : List Identifier) :
    List (List Operand) → Except Error (List (List Draft))
  | [] => .ok []
  | row :: rows => do
    let ps ← rowDraft k columns row
    let rows ← rowDrafts k columns rows
    return ps :: rows

/-- The draft of an insert. -/
def Insert.draft (k : Constructs) (i : Insert) : Except Error Draft :=
  match i.table? with
  | none => .error (.missingTable .insert)
  | some table =>
    match i.source? with
    | some s => Draft.insertSelect table i.columns <$> s.draft k
    | none =>
      if i.rows.isEmpty then .error (.missingValues .insert)
      else do
        let rows ← rowDrafts k i.columns i.rows
        Draft.insertRows k table i.columns rows

/-- The drafts of assignments. -/
def assignmentDrafts (k : Constructs) : List Assignment → Except Error (List Draft)
  | [] => .ok []
  | ⟨column, value⟩ :: rest => do
    let p ← Draft.assignment column <$> value.draft k column.text
    let ps ← assignmentDrafts k rest
    return p :: ps

/-- The draft of an update. -/
def Update.draft (k : Constructs) (u : Update) : Except Error Draft :=
  match u.table? with
  | none => .error (.missingTable .update)
  | some table =>
    if u.assignments.isEmpty then .error (.missingValues .update)
    else if u.filter.isEmpty then .error (.missingFilter .update)
    else do
      let assignments ← assignmentDrafts k u.assignments
      let filter ← u.filter.draft k
      if filter.isEmpty then .error (.missingFilter .update)
      else .ok (.requoted [table.text] (Draft.update table assignments filter))

/-- The draft of a delete. -/
def Delete.draft (k : Constructs) (del : Delete) : Except Error Draft :=
  match del.table? with
  | none => .error (.missingTable .delete)
  | some table => do
    let filter ← del.filter.draft k
    if filter.isEmpty then .error (.missingFilter .delete)
    else .ok (.requoted [table.text] (Draft.delete table filter))

/-- The draft of a node of any kind. -/
def Node.draft (c : Constructs) : (k : Kind) → Node k → Except Error Draft
  | .select, s => Select.draft c s
  | .insert, i => Insert.draft c i
  | .update, u => Update.draft c u
  | .delete, del => Delete.draft c del
  | .group, g => Group.draft c g
  | .clause, cl => Clause.draft c cl
  | .join, j => Join.draft c j
  | .predicate, p => Predicate.draft c p
  | .expression, e => Expression.draft c e
  | .reference, r => .ok (Draft.ofReference r)

/-! ## What is kept plays no part -/

theorem Origin.alias?_fresh (o : Origin) : o.fresh.alias? = o.alias? := by
  cases o <;> simp only [Origin.fresh, Origin.alias?]

theorem bind_alias?_fresh (origin? : Option Origin) :
    (freshOrigin origin?).bind Origin.alias? = origin?.bind Origin.alias? := by
  cases origin? with
  | none => rfl
  | some o => simpa only [freshOrigin, Option.bind_some] using Origin.alias?_fresh o

theorem Origin.tableName?_fresh (o : Origin) : o.fresh.tableName? = o.tableName? := by
  cases o <;> simp only [Origin.fresh, Origin.tableName?]

theorem Origin.aliasName?_fresh (o : Origin) : o.fresh.aliasName? = o.aliasName? := by
  cases o <;> simp only [Origin.fresh, Origin.aliasName?]

theorem Join.names_fresh (j : Join) : j.fresh.names = j.names := by
  obtain ⟨kind, target, alias?, on, cache⟩ := j
  cases target <;> simp only [Join.fresh, JoinTarget.fresh, Join.names, Join.tableName?,
    Join.aliasName?]

/-- A fresh copy knows the same names. -/
theorem knownNames_fresh (origin? : Option Origin) (joins : List Join) :
    knownNames (freshOrigin origin?) (freshJoins joins) = knownNames origin? joins := by
  have hjoins : (freshJoins joins).flatMap Join.names = joins.flatMap Join.names := by
    rw [freshJoins_eq_map, List.flatMap_map]
    simp only [Join.names_fresh]
  cases origin? with
  | none => simp only [knownNames, freshOrigin, hjoins]
  | some o =>
    simp only [knownNames, freshOrigin, Option.bind_some, hjoins, Origin.tableName?_fresh,
      Origin.aliasName?_fresh]

theorem Select.nesting_fresh (s : Select) : s.fresh.nesting = s.nesting := by
  cases s; simp only [Select.fresh]

variable (k : Constructs)

mutual

theorem Operand.draft_fresh (hint : String) : (o : Operand) → o.fresh.draft k hint = o.draft k hint
  | .value _ | .identifier _ | .literal _ => by simp only [Operand.fresh]
  | .expression e => by simp only [Operand.fresh, Operand.draft, e.draft_fresh]
  | .subquery s => by simp only [Operand.fresh, Operand.draft, s.draft_fresh]

theorem Filling.draft_fresh : (f : Filling) → f.fresh.draft k = f.draft k
  | .value _ | .identifier _ | .alias _ | .literal _ => by simp only [Filling.fresh]
  | .subquery s => by simp only [Filling.fresh, Filling.draft, s.draft_fresh]

theorem slotDrafts_fresh :
    (slots : List Slot) → slotDrafts k (freshSlots slots) = slotDrafts k slots
  | [] => by simp only [freshSlots]
  | ⟨name, filling⟩ :: slots => by
    simp only [freshSlots, Slot.fresh, slotDrafts, filling.draft_fresh, slotDrafts_fresh slots]

theorem Expression.draft_fresh : (e : Expression) → e.fresh.draft k = e.draft k
  | ⟨template, slots⟩ => by simp only [Expression.fresh, Expression.draft, slotDrafts_fresh slots]

theorem Predicate.draft_fresh : (p : Predicate) → p.fresh.draft k = p.draft k
  | .comparison left op right => by simp only [Predicate.fresh, Predicate.draft, right.draft_fresh]
  | .between left negated low high => by
    simp only [Predicate.fresh, Predicate.draft, low.draft_fresh, high.draft_fresh]
  | .inValues .. | .truth .. | .literal _ => by simp only [Predicate.fresh]
  | .inSelect left negated s => by simp only [Predicate.fresh, Predicate.draft, s.draft_fresh]
  | .like left negated pattern escape => by simp only [Predicate.fresh, Predicate.draft,
      pattern.draft_fresh]
  | .existence negated s => by simp only [Predicate.fresh, Predicate.draft, s.draft_fresh]
  | .quantified left op quantifier s => by
      simp only [Predicate.fresh, Predicate.draft, s.draft_fresh]
  | .expression e => by simp only [Predicate.fresh, Predicate.draft, e.draft_fresh]
  | .group g => by simp only [Predicate.fresh, Predicate.draft, g.draft_fresh]

theorem termDrafts_fresh :
    (terms : List Term) → termDrafts k (freshTerms terms) = termDrafts k terms
  | [] => by simp only [freshTerms]
  | ⟨connective, p⟩ :: terms => by
    simp only [freshTerms, Term.fresh, termDrafts, p.draft_fresh, termDrafts_fresh terms]

theorem Group.draft_fresh : (g : Group) → g.fresh.draft k = g.draft k
  | ⟨terms, _, _, _, _⟩ => by simp only [Group.fresh, Group.draft, termDrafts_fresh terms]

theorem Clause.draft_fresh : (c : Clause) → c.fresh.draft k = c.draft k
  | ⟨_, none⟩ => by simp only [Clause.fresh]
  | ⟨_, some g⟩ => by simp only [Clause.fresh, Clause.draft, g.draft_fresh]

theorem JoinTarget.draft_fresh : (t : JoinTarget) → t.fresh.draft k = t.draft k
  | .table _ => by simp only [JoinTarget.fresh]
  | .subquery s => by simp only [JoinTarget.fresh, JoinTarget.draft, s.draft_fresh]

theorem Join.draft_fresh : (j : Join) → j.fresh.draft k = j.draft k
  | ⟨_, target, _, on, _⟩ => by simp only [Join.fresh, Join.draft, target.draft_fresh,
      on.draft_fresh]

theorem joinDrafts_fresh :
    (joins : List Join) → joinDrafts k (freshJoins joins) = joinDrafts k joins
  | [] => by simp only [freshJoins]
  | j :: joins => by simp only [freshJoins, joinDrafts, j.draft_fresh, joinDrafts_fresh joins]

theorem ColumnSource.draft_fresh (star : Draft) :
    (s : ColumnSource) → s.fresh.draft k star = s.draft k star
  | .reference _ => by simp only [ColumnSource.fresh]
  | .expression e => by simp only [ColumnSource.fresh, ColumnSource.draft, e.draft_fresh]
  | .subquery s => by simp only [ColumnSource.fresh, ColumnSource.draft, s.draft_fresh]

theorem columnDrafts_fresh (star : Draft) :
    (columns : List Column) →
      columnDrafts k star (freshColumns columns) = columnDrafts k star columns
  | [] => by simp only [freshColumns]
  | ⟨source, _⟩ :: columns => by
    simp only [freshColumns, Column.fresh, columnDrafts, source.draft_fresh,
      columnDrafts_fresh star columns]

theorem originDraft_fresh (pretty : Bool) (nesting : Nat) : (origin? : Option Origin) →
    originDraft k pretty nesting (freshOrigin origin?) = originDraft k pretty nesting origin?
  | none => by simp only [freshOrigin]
  | some (.table _ _) => by simp only [freshOrigin, Origin.fresh]
  | some (.subquery s _) => by
    simp only [freshOrigin, Origin.fresh, originDraft, s.draft_fresh, s.nesting_fresh]

theorem combinedDraft_fresh : (combined? : Option (SetOperation × Select)) →
    combinedDraft k (freshCombined combined?) = combinedDraft k combined?
  | none => by simp only [freshCombined]
  | some (_, s) => by simp only [freshCombined, combinedDraft, s.draft_fresh]

theorem Select.draft_fresh : (s : Select) → s.fresh.draft k = s.draft k
  | ⟨_, columns, _, origin?, joins, filter, _, having, combined?, _, _, _, nesting, pretty, _,
      _⟩ => by
    simp only [Select.fresh, Select.draft, bind_alias?_fresh, knownNames_fresh,
      columnDrafts_fresh _ columns, originDraft_fresh pretty nesting origin?,
      joinDrafts_fresh joins, filter.draft_fresh, having.draft_fresh, combinedDraft_fresh combined?]

end

theorem rowDraft_fresh (columns : List Identifier) (row : List Operand) :
    rowDraft k columns (row.map Operand.fresh) = rowDraft k columns row := by
  induction row generalizing columns with
  | nil => rfl
  | cons o row ih => rw [List.map_cons, rowDraft, rowDraft, o.draft_fresh, ih]

theorem rowDrafts_fresh (columns : List Identifier) (rows : List (List Operand)) :
    rowDrafts k columns (rows.map fun row => row.map Operand.fresh) = rowDrafts k columns rows := by
  induction rows with
  | nil => rfl
  | cons row rows ih => rw [List.map_cons, rowDrafts, rowDrafts, rowDraft_fresh, ih]

theorem Insert.draft_fresh (i : Insert) : i.fresh.draft k = i.draft k := by
  obtain ⟨table?, columns, rows, source?, cache⟩ := i
  cases source? with
  | none =>
    simp only [Insert.fresh, Insert.draft, Option.map_none, rowDrafts_fresh, List.isEmpty_map]
  | some s => simp only [Insert.fresh, Insert.draft, Option.map_some, s.draft_fresh]

theorem assignmentDrafts_fresh (assignments : List Assignment) :
    assignmentDrafts k (assignments.map fun a => ⟨a.column, a.value.fresh⟩) = assignmentDrafts k
      assignments := by
  induction assignments with
  | nil => rfl
  | cons a rest ih =>
    rw [List.map_cons, assignmentDrafts, assignmentDrafts, a.value.draft_fresh, ih]

theorem Clause.isEmpty_fresh (c : Clause) : c.fresh.isEmpty = c.isEmpty := by
  obtain ⟨kind, _ | ⟨terms, default, pending, nested, cache⟩⟩ := c
  · simp only [Clause.fresh]
  · simp [Clause.fresh, Group.fresh, Clause.isEmpty, Clause.groupOrEmpty, Group.isEmpty,
      freshTerms_eq_map]

theorem Update.draft_fresh (u : Update) : u.fresh.draft k = u.draft k := by
  simp only [Update.fresh, Update.draft, assignmentDrafts_fresh, Clause.draft_fresh,
    Clause.isEmpty_fresh, List.isEmpty_map]

theorem Delete.draft_fresh (del : Delete) : del.fresh.draft k = del.draft k := by
  simp only [Delete.fresh, Delete.draft, Clause.draft_fresh]

theorem Node.draft_fresh {kind : Kind} (n : Node kind) :
    Node.draft k kind (n.fresh kind) = n.draft k kind := by
  cases kind with
  | select => exact Select.draft_fresh k n
  | insert => exact Insert.draft_fresh k n
  | update => exact Update.draft_fresh k n
  | delete => exact Delete.draft_fresh k n
  | group => exact Group.draft_fresh k n
  | clause => exact Clause.draft_fresh k n
  | join => exact Join.draft_fresh k n
  | predicate => exact Predicate.draft_fresh k n
  | expression => exact Expression.draft_fresh k n
  | reference => rfl

end SqlTree
