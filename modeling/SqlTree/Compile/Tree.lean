import SqlTree.Compile.Pass
import SqlTree.Compile.Text
import SqlTree.Prefixes

/-!
# SqlTree.Compile.Tree

Compiling operands, expressions, predicates, groups, clauses, joins and
selects.  Each node binds its values at the moment its place in the text is
fixed, from left to right, so the entries of the collector are in the order
of their markers.  Groups, joins and selects go through the caching protocol
whenever they are parts of something; `body` is what they come to without
it.  An expression and a predicate keep nothing, but take back what they
bound if they fail.

The recursion is on the tree.  A placeholder that occurs several times is
compiled anew at each occurrence, as each occurrence has markers of its own.
-/

namespace SqlTree

instance : Keeps Group := ⟨Group.cache, fun cache g => { g with cache }, fun _ _ => rfl⟩
instance : Keeps Join := ⟨Join.cache, fun cache j => { j with cache }, fun _ _ => rfl⟩
instance : Keeps Select := ⟨Select.cache, fun cache s => { s with cache }, fun _ _ => rfl⟩

/-! ## Expressions -/

/-- Puts a filling back into its slot. -/
def putFilling (name : String) (filling : Filling) (slots : List Slot) : List Slot :=
  slots.map fun slot => if slot.name = name then { slot with filling } else slot

/-- Compiles the parts of a template, given the runs of its slots. -/
def piecesText (runs : List (String × Run Filling String)) : List Piece → Pass (List Slot) String
  | [] => pure ""
  | .text cs :: rest => do
    let after ← piecesText runs rest
    pure (String.ofList cs ++ after)
  | .slot name :: rest => do
    let text ← match runs.lookup (String.ofList name) with
      | some run => Pass.visit (putFilling (String.ofList name)) run
      | none => pure (String.ofList (Piece.slot name).source)
    let after ← piecesText runs rest
    pure (text ++ after)

/-! ## Columns -/

/-- The column refers to something and computes nothing, so its text binds
no values. -/
def Column.isPlain (c : Column) : Bool :=
  match c.source with
  | .reference _ => true
  | _ => false

/-- A reference as a column: the bare star stands for the columns of the
origin. -/
def referenceColumnText (d : Dialect) (star : String) : Reference → String
  | .identifier i => if i.isWildcard then star else i.quoted d
  | r => r.quoted d

/-- The texts of the columns, the star if there are none. -/
def columnTextsOr (star : String) (texts : List String) : List String :=
  if texts.isEmpty then [star] else texts

/-- The texts of the columns: those kept, or those that the run gives,
which are kept if no column binds values. -/
def visitColumns (d : Dialect) (s : Select) (star : String) (run : Run (List Column) (List String)) :
    Pass Select (List String) :=
  match ColumnTexts.find? s.columnTexts d with
  | some texts => pure texts
  | none => do
    let texts ← Pass.visit (fun columns s => { s with columns }) run
    let texts := columnTextsOr star texts
    if s.columns.all Column.isPlain then
      Pass.adjust fun s => { s with columnTexts := some ⟨d.fingerprint, texts⟩ }
    pure texts

/-! ## The tree -/

mutual

/-- Compiles an operand; its value is bound under the hint. -/
def Operand.run (d : Dialect) (hint : String) : Operand → Run Operand String
  | .value v => Run.collect (Collecting.bindValue v hint) (.value v)
  | .identifier i => Run.pure (i.quoted d) (.identifier i)
  | .literal l => Run.pure l.text (.literal l)
  | .expression e => (e.run d).map id .expression
  | .subquery s => (asPart d s (s.body d)).map enclosed .subquery

/-- Compiles what a placeholder is replaced by. -/
def Filling.run (d : Dialect) : Filling → Run Filling String
  | .value v => Run.collect (Collecting.bindValue v "expr") (.value v)
  | .identifier i => Run.pure (i.quoted d) (.identifier i)
  | .alias a => Run.pure (a.quoted d) (.alias a)
  | .literal l => Run.pure l.text (.literal l)
  | .subquery s => (asPart d s (s.body d)).map enclosed .subquery

/-- The runs of the slots under their names. -/
def slotRuns (d : Dialect) : List Slot → List (String × Run Filling String)
  | [] => []
  | ⟨name, filling⟩ :: slots => (name, filling.run d) :: slotRuns d slots

/-- Compiles an expression, all or nothing. -/
def Expression.run (d : Dialect) : Expression → Run Expression String
  | ⟨template, slots⟩ =>
    (((piecesText (slotRuns d slots) (pieces template)).run slots).map id (Expression.mk template)).orRestore

/-- Compiles a predicate as far as it gets. -/
def Predicate.steps (d : Dialect) : Predicate → Run Predicate String
  | .comparison left op right =>
    (right.run d op.hint).map (comparisonText (left.quoted d) op) (.comparison left op)
  | .between left negated low high =>
    (Run.both (low.run d "between") high (high.run d "between")).map
      (fun t => betweenText (left.quoted d) negated t.1 t.2) (fun o => .between left negated o.1 o.2)
  | .inValues left negated values orNull =>
    Run.collect
      (do
        let markers ← values.mapM fun v => Collecting.bindValue v "in"
        pure (inListText (left.quoted d) negated markers orNull))
      (.inValues left negated values orNull)
  | .inSelect left negated s => (asPart d s (s.body d)).map (inText (left.quoted d) negated) (.inSelect left negated)
  | .like left negated pattern escape =>
    (pattern.run d "like").map (fun p => likeText d (left.quoted d) negated p escape)
      (fun p => .like left negated p escape)
  | .truth left negated word => Run.pure (truthText (left.quoted d) negated word) (.truth left negated word)
  | .existence negated s => (asPart d s (s.body d)).map (existenceText negated) (.existence negated)
  | .quantified left op quantifier s =>
    (asPart d s (s.body d)).map (quantifiedText (left.quoted d) op quantifier) (.quantified left op quantifier)
  | .literal l => Run.pure l.text (.literal l)
  | .expression e => (e.run d).map id .expression
  | .group g => (asPart d g (g.body d)).map id .group

/-- Compiles terms, each with its connective. -/
def termRuns (d : Dialect) : List Term → Run (List Term) (List (Connective × String))
  | [] => Run.pure [] []
  | ⟨connective, p⟩ :: terms =>
    Run.cons ((p.steps d).orRestore.map (fun text => (connective, text)) (Term.mk connective)) terms (termRuns d terms)

/-- A group of predicates. -/
def Group.body (d : Dialect) : Group → Pass Group String
  | ⟨terms, _, _, nested, _⟩ => do
    let texts ← Pass.visit (fun terms g => { g with terms }) (termRuns d terms)
    pure (groupText nested texts)

/-- Compiles a clause. -/
def Clause.run (d : Dialect) : Clause → Run Clause String
  | ⟨kind, none⟩ => Run.pure "" ⟨kind, none⟩
  | ⟨kind, some g⟩ => (asPart d g (g.body d)).map (clauseText kind) (fun g => ⟨kind, some g⟩)

/-- Compiles what is joined. -/
def JoinTarget.run (d : Dialect) : JoinTarget → Run JoinTarget String
  | .table name => Run.pure (name.quoted d) (.table name)
  | .subquery s => (asPart d s (s.body d)).map enclosed .subquery

/-- A join. -/
def Join.body (d : Dialect) : Join → Pass Join String
  | ⟨kind, target, alias?, on, _⟩ => do
    let target ← Pass.visit (fun target j => { j with target }) (target.run d)
    let on ← Pass.visit (fun on j => { j with on }) (on.run d)
    pure (joinText d kind target alias? on)

/-- Compiles joins one after the other. -/
def joinRuns (d : Dialect) : List Join → Run (List Join) (List String)
  | [] => Run.pure [] []
  | j :: joins => Run.cons (asPart d j (j.body d)) joins (joinRuns d joins)

/-- Compiles where a column comes from. -/
def ColumnSource.run (d : Dialect) (star : String) : ColumnSource → Run ColumnSource String
  | .reference r => Run.pure (referenceColumnText d star r) (.reference r)
  | .expression e => (e.run d).map id .expression
  | .subquery s => (asPart d s (s.body d)).map enclosed .subquery

/-- Compiles columns one after the other. -/
def columnRuns (d : Dialect) (star : String) : List Column → Run (List Column) (List String)
  | [] => Run.pure [] []
  | ⟨source, alias?⟩ :: columns =>
    Run.cons ((source.run d star).map (columnText d alias?) (fun source => ⟨source, alias?⟩)) columns
      (columnRuns d star columns)

/-- Compiles where the rows come from. -/
def originRun (d : Dialect) (pretty : Bool) (nesting : Nat) : Option Origin → Run (Option Origin) String
  | none => Run.pure "" none
  | some (.table name alias?) => Run.pure (tableOriginText d name alias?) (some (.table name alias?))
  | some (.subquery s a) =>
    (asPart d s (s.body d)).map (subqueryOriginText d pretty nesting s.nesting a)
      (fun s => some (.subquery s a))

/-- Compiles the select that this one is combined with. -/
def combinedRun (d : Dialect) : Option (SetOperation × Select) → Run (Option (SetOperation × Select)) String
  | none => Run.pure "" none
  | some (operation, s) =>
    (asPart d s (s.body d)).map (fun sql => " " ++ operation.keyword ++ " " ++ sql) (fun s => some (operation, s))

/-- A select. -/
def Select.body (d : Dialect) : Select → Pass Select String
  | s@⟨distinct, columns, into?, origin?, joins, filter, groupBy, having, combined?, orderBy, limit, offset,
      nesting, pretty, _, _⟩ => do
    let page : Page := ⟨limit, offset⟩
    let star := starText d s.aliasName?
    let head ← Pass.collect (d.columnHead (if distinct then some "DISTINCT" else none) (d.innerPage page))
    let columns ← visitColumns d s star (columnRuns d star columns)
    let origin ← Pass.visit (fun origin? s => { s with origin? }) (originRun d pretty nesting origin?)
    let joinTexts ← Pass.visit (fun joins s => { s with joins }) (joinRuns d joins)
    let filter ← Pass.visit (fun filter s => { s with filter }) (filter.run d)
    let having ← Pass.visit (fun having s => { s with having }) (having.run d)
    let combined ← Pass.visit (fun combined? s => { s with combined? }) (combinedRun d combined?)
    let pageText ← Pass.collect (d.innerPageClause page (!orderBy.isEmpty))
    let texts : SelectTexts :=
      { head, columns, into := intoText d into?, origin, joins := joinTexts, filter, groupBy := groupByText d groupBy,
        having, combined, orderBy := orderByText d orderBy, page := pageText }
    Pass.collect (d.aroundSelect (d.quotePrefixes (knownNames origin? joins) texts.text) page)

end

/-! ## Compiling nodes by themselves -/

/-- Compiles a group as a whole. -/
def Group.compile (d : Dialect) (g : Group) : EStateM.Result Error Group String := asWhole d g (g.body d)

/-- Compiles a group as a part of what the collector belongs to. -/
def Group.compileInto (d : Dialect) (g : Group) : Run Group String := asPart d g (g.body d)

/-- Compiles a join as a whole. -/
def Join.compile (d : Dialect) (j : Join) : EStateM.Result Error Join String := asWhole d j (j.body d)

/-- Compiles a join as a part of what the collector belongs to. -/
def Join.compileInto (d : Dialect) (j : Join) : Run Join String := asPart d j (j.body d)

/-- Compiles a select as a whole. -/
def Select.compile (d : Dialect) (s : Select) : EStateM.Result Error Select String := asWhole d s (s.body d)

/-- Compiles a select as a part of what the collector belongs to. -/
def Select.compileInto (d : Dialect) (s : Select) : Run Select String := asPart d s (s.body d)

/-- Compiles a clause as a whole, which is its group as a whole. -/
def Clause.compile (d : Dialect) (c : Clause) : EStateM.Result Error Clause String :=
  match c.group? with
  | none => .ok "" c
  | some g =>
    match g.compile d with
    | .ok sql g => .ok (clauseText c.kind sql) { c with group? := some g }
    | .error e g => .error e { c with group? := some g }

/-- Compiles a predicate as a whole. -/
def Predicate.compile (d : Dialect) (p : Predicate) : EStateM.Result Error Predicate String := unkept d (p.steps d)

/-- Compiles a predicate, all or nothing. -/
def Predicate.run (d : Dialect) (p : Predicate) : Run Predicate String := (p.steps d).orRestore

/-- Compiles an expression as a whole. -/
def Expression.compile (d : Dialect) (e : Expression) : EStateM.Result Error Expression String := unkept d (e.run d)

end SqlTree
