import SqlTree.Compile.Statement
import SqlTree.Proofs.Rollback.Grows

/-!
# SqlTree.Proofs.Rollback.Tree

Compiling any part of a tree only adds to the collector, in any dialect and
whatever is kept in the tree; and the bodies of the nodes that keep a text
leave their own text alone.  The proof is one induction over the tree, along
the recursion of the compilation, with a rule of `Grows` for each step.
-/

namespace SqlTree

variable {d : Dialect}

/-! ## Pages -/

namespace Collecting.Grows

theorem standardPart (keyword hint : String) (count? : Option UInt64) :
    (SqlTree.standardPart keyword hint count?).Grows := by
  cases count? with
  | none => exact .pure _
  | some n => exact (bindCount n hint).bind fun _ => .pure _

theorem standardPage (page : Page) : (SqlTree.standardPage page).Grows :=
  (standardPart "LIMIT " "limit" page.limit).bind fun _ =>
    (standardPart "OFFSET " "offset" page.offset).bind fun _ => .pure _

theorem limitOffsetPage (unbounded : String) (page : Page) :
    (SqlTree.limitOffsetPage unbounded page).Grows := by
  unfold SqlTree.limitOffsetPage
  split
  · exact .pure _
  · exact (bindCount _ "limit").bind fun _ => .pure _
  · exact (bindCount _ "offset").bind fun _ => .pure _
  · exact (bindCount _ "limit").bind fun _ => (bindCount _ "offset").bind fun _ => .pure _

theorem offsetFetchPage (page : Page) (ordered : Bool) :
    (SqlTree.offsetFetchPage page ordered).Grows := by
  obtain ⟨limit?, _ | m⟩ := page
  · exact .pure _
  · cases limit? with
    | none => exact (bindCount m "offset").bind fun _ => .pure _
    | some n => exact (bindCount m "offset").bind fun _ => (bindCount n "limit").bind fun _ => .pure _

theorem pageClause (d : Dialect) (page : Page) (ordered : Bool) :
    (d.pageClause page ordered).Grows := by
  unfold Dialect.pageClause
  cases d.pageSyntax with
  | none =>
    by_cases hlimit : d.limitOffset = true
    · simp only [if_pos hlimit]
      exact standardPage page
    · simp only [if_neg hlimit]
      exact .throw _
  | some pages =>
    cases pages with
    | limitOffset unbounded => exact limitOffsetPage unbounded page
    | offsetFetch => exact offsetFetchPage page ordered

theorem innerPageClause (d : Dialect) (page : Page) (ordered : Bool) :
    (d.innerPageClause page ordered).Grows := by
  unfold Dialect.innerPageClause
  split
  · exact pageClause d _ ordered
  · exact .pure _

theorem columnHead (d : Dialect) (quantifier : Option String) (page : Page) :
    (d.columnHead quantifier page).Grows := by
  unfold Dialect.columnHead
  split
  · unfold topHead
    split
    · exact (bindCount _ "limit").bind fun _ => .pure _
    · exact .pure _
  · exact .pure _

theorem aroundSelect (d : Dialect) (sql : String) (page : Page) :
    (d.aroundSelect sql page).Grows := by
  unfold Dialect.aroundSelect
  split
  · unfold numberRows
    split
    · exact .pure _
    · exact (bindCount _ "limit").bind fun _ => .pure _
    · exact (bindCount _ "limit").bind fun _ => (bindCount _ "offset").bind fun _ => .pure _
    · exact (bindCount _ "offset").bind fun _ => .pure _
  · exact .pure _

end Collecting.Grows

/-! ## Steps of bodies -/

/-- The parts of a template, if their slots only add. -/
theorem piecesText_grows {runs : List (String × Run Filling String)}
    (hruns : ∀ run ∈ runs, run.2.Grows) (parts : List Piece) :
    (piecesText runs parts).Grows fun _ => True := by
  induction parts with
  | nil => exact .pure ""
  | cons piece parts ih =>
    cases piece with
    | text cs => exact ih.bind fun _ => .pure _
    | slot name =>
      have hrest (first : String) : Pass.Grows (fun _ => True)
          (do let after ← piecesText runs parts; pure (first ++ after)) :=
        ih.bind fun _ => .pure _
      cases hlookup : runs.lookup (String.ofList name) with
      | none =>
        simp only [piecesText, hlookup]
        exact hrest _
      | some run =>
        obtain ⟨before, after, hslot, -⟩ := List.lookup_eq_some_iff.1 hlookup
        have hmem : (String.ofList name, run) ∈ runs := by simp [hslot]
        simp only [piecesText, hlookup]
        exact Pass.Grows.bind (.visit (hruns _ hmem) fun _ _ _ => trivial) hrest

theorem visitColumns_grows {s : Select} {star : String} {run : Run (List Column) (List String)}
    (hrun : run.Grows) : (visitColumns d s star run).Bare := by
  unfold visitColumns
  split
  · exact .pure _
  · refine Pass.Grows.bind (.visit hrun fun _ _ h => h) fun texts => ?_
    split
    · exact Pass.Grows.bind (.adjust fun _ h => h) fun _ => .pure _
    · exact .pure _

/-! ## The tree -/

mutual

theorem Operand.run_grows (hint : String) : (o : Operand) → (o.run d hint).Grows
  | .value v => by
    rw [Operand.run]
    exact .collect (.bindValue v hint) _
  | .identifier i => by
    rw [Operand.run]
    exact .pure _ _
  | .literal l => by
    rw [Operand.run]
    exact .pure _ _
  | .expression e => by
    rw [Operand.run]
    exact e.run_grows.map _ _
  | .subquery s => by
    rw [Operand.run]
    exact (Run.Grows.part s.body_bare s).map _ _

theorem Filling.run_grows : (f : Filling) → (f.run d).Grows
  | .value v => by
    rw [Filling.run]
    exact .collect (.bindValue v "expr") _
  | .identifier i => by
    rw [Filling.run]
    exact .pure _ _
  | .alias a => by
    rw [Filling.run]
    exact .pure _ _
  | .literal l => by
    rw [Filling.run]
    exact .pure _ _
  | .subquery s => by
    rw [Filling.run]
    exact (Run.Grows.part s.body_bare s).map _ _

theorem slotRuns_grow : (slots : List Slot) → ∀ run ∈ slotRuns d slots, run.2.Grows
  | [] => by
    rw [slotRuns]
    nofun
  | ⟨name, filling⟩ :: slots => by
    have hfirst := filling.run_grows
    have hrest := slotRuns_grow slots
    rw [slotRuns]
    intro run hmem
    rcases List.mem_cons.1 hmem with rfl | hmem
    · exact hfirst
    · exact hrest run hmem

theorem Expression.run_grows : (e : Expression) → (e.run d).Grows
  | ⟨template, slots⟩ => by
    rw [Expression.run]
    have hpieces := piecesText_grows (slotRuns_grow slots) (pieces template)
    exact ((hpieces.run slots).map _ _).orRestore

theorem Predicate.steps_grow : (p : Predicate) → (p.steps d).Grows
  | .comparison left op right => by
    rw [Predicate.steps]
    exact (right.run_grows op.hint).map _ _
  | .between left negated low high => by
    rw [Predicate.steps]
    exact (Run.Grows.both (low.run_grows "between") high (high.run_grows "between")).map _ _
  | .inValues left negated values orNull => by
    rw [Predicate.steps]
    exact .collect ((Collecting.Grows.mapM (fun v => .bindValue v "in") values).bind
      fun _ => .pure _) _
  | .inSelect left negated s => by
    rw [Predicate.steps]
    exact (Run.Grows.part s.body_bare s).map _ _
  | .like left negated pattern escape => by
    rw [Predicate.steps]
    exact (pattern.run_grows "like").map _ _
  | .truth left negated word => by
    rw [Predicate.steps]
    exact .pure _ _
  | .existence negated s => by
    rw [Predicate.steps]
    exact (Run.Grows.part s.body_bare s).map _ _
  | .quantified left op quantifier s => by
    rw [Predicate.steps]
    exact (Run.Grows.part s.body_bare s).map _ _
  | .literal l => by
    rw [Predicate.steps]
    exact .pure _ _
  | .expression e => by
    rw [Predicate.steps]
    exact e.run_grows.map _ _
  | .group g => by
    rw [Predicate.steps]
    exact (Run.Grows.part g.body_bare g).map _ _

theorem termRuns_grow : (terms : List Term) → (termRuns d terms).Grows
  | [] => by
    rw [termRuns]
    exact .pure _ _
  | ⟨connective, p⟩ :: terms => by
    rw [termRuns]
    exact (p.steps_grow.orRestore.map _ _).cons terms (termRuns_grow terms)

theorem Group.body_bare : (g : Group) → (g.body d).Bare
  | ⟨terms, _, _, nested, _⟩ => by
    rw [Group.body]
    exact Pass.Grows.bind (.visit (termRuns_grow terms) fun _ _ h => h) fun _ => .pure _

theorem Clause.run_grows : (c : Clause) → (c.run d).Grows
  | ⟨kind, none⟩ => by
    rw [Clause.run]
    exact .pure _ _
  | ⟨kind, some g⟩ => by
    rw [Clause.run]
    exact (Run.Grows.part g.body_bare g).map _ _

theorem JoinTarget.run_grows : (t : JoinTarget) → (t.run d).Grows
  | .table name => by
    rw [JoinTarget.run]
    exact .pure _ _
  | .subquery s => by
    rw [JoinTarget.run]
    exact (Run.Grows.part s.body_bare s).map _ _

theorem Join.body_bare : (j : Join) → (j.body d).Bare
  | ⟨kind, target, alias?, on, _⟩ => by
    rw [Join.body]
    exact Pass.Grows.bind (.visit target.run_grows fun _ _ h => h) fun _ =>
      Pass.Grows.bind (.visit on.run_grows fun _ _ h => h) fun _ => .pure _

theorem joinRuns_grow : (joins : List Join) → (joinRuns d joins).Grows
  | [] => by
    rw [joinRuns]
    exact .pure _ _
  | j :: joins => by
    rw [joinRuns]
    exact (Run.Grows.part j.body_bare j).cons joins (joinRuns_grow joins)

theorem ColumnSource.run_grows (star : String) : (s : ColumnSource) → (s.run d star).Grows
  | .reference r => by
    rw [ColumnSource.run]
    exact .pure _ _
  | .expression e => by
    rw [ColumnSource.run]
    exact e.run_grows.map _ _
  | .subquery s => by
    rw [ColumnSource.run]
    exact (Run.Grows.part s.body_bare s).map _ _

theorem columnRuns_grow (star : String) : (columns : List Column) → (columnRuns d star columns).Grows
  | [] => by
    rw [columnRuns]
    exact .pure _ _
  | ⟨source, alias?⟩ :: columns => by
    rw [columnRuns]
    exact ((source.run_grows star).map _ _).cons columns (columnRuns_grow star columns)

theorem originRun_grows (pretty : Bool) (nesting : Nat) :
    (origin? : Option Origin) → (originRun d pretty nesting origin?).Grows
  | none => by
    rw [originRun]
    exact .pure _ _
  | some (.table name alias?) => by
    rw [originRun]
    exact .pure _ _
  | some (.subquery s a) => by
    rw [originRun]
    exact (Run.Grows.part s.body_bare s).map _ _

theorem combinedRun_grows :
    (combined? : Option (SetOperation × Select)) → (combinedRun d combined?).Grows
  | none => by
    rw [combinedRun]
    exact .pure _ _
  | some (operation, s) => by
    rw [combinedRun]
    exact (Run.Grows.part s.body_bare s).map _ _

theorem Select.body_bare : (s : Select) → (s.body d).Bare
  | ⟨distinct, columns, into?, origin?, joins, filter, groupBy, having, combined?, orderBy, limit,
      offset, nesting, pretty, _, _⟩ => by
    rw [Select.body]
    refine Pass.Grows.bind (.collect (.columnHead d _ _)) fun _ => ?_
    refine Pass.Grows.bind (visitColumns_grows (columnRuns_grow _ columns)) fun _ => ?_
    refine Pass.Grows.bind (.visit (originRun_grows pretty nesting origin?) fun _ _ h => h)
      fun _ => ?_
    refine Pass.Grows.bind (.visit (joinRuns_grow joins) fun _ _ h => h) fun _ => ?_
    refine Pass.Grows.bind (.visit filter.run_grows fun _ _ h => h) fun _ => ?_
    refine Pass.Grows.bind (.visit having.run_grows fun _ _ h => h) fun _ => ?_
    refine Pass.Grows.bind (.visit (combinedRun_grows combined?) fun _ _ h => h) fun _ => ?_
    refine Pass.Grows.bind (.collect (.innerPageClause d _ _)) fun _ => ?_
    exact .collect (.aroundSelect d _ _)

end

/-! ## Statements -/

theorem rowRun_grows (columns : List Identifier) (row : List Operand) :
    (rowRun d columns row).Grows := by
  induction row generalizing columns with
  | nil => exact .pure _ _
  | cons value row ih => exact (value.run_grows _).cons row (ih columns.tail)

theorem rowRuns_grow (columns : List Identifier) (rows : List (List Operand)) :
    (rowRuns d columns rows).Grows := by
  induction rows with
  | nil => exact .pure _ _
  | cons row rows ih => exact (rowRun_grows columns row).cons rows ih

theorem assignmentRuns_grow (assignments : List Assignment) :
    (assignmentRuns d assignments).Grows := by
  induction assignments with
  | nil => exact .pure _ _
  | cons a rest ih => exact ((a.value.run_grows _).map _ _).cons rest ih

theorem Insert.body_bare (i : Insert) : (i.body d).Bare := by
  unfold Insert.body
  split
  · exact .fail _
  · split
    · rename_i s _
      exact Pass.Grows.bind (.visit (Run.Grows.part s.body_bare s) fun _ _ h => h) fun _ => .pure _
    · split
      · exact .fail _
      · refine Pass.Grows.bind (.visit (rowRuns_grow _ _) fun _ _ h => h) fun rows => ?_
        split
        · exact .pure _
        · exact .fail _

theorem Update.body_bare (u : Update) : (u.body d).Bare := by
  unfold Update.body
  split
  · exact .fail _
  · split
    · exact .fail _
    · split
      · exact .fail _
      · refine Pass.Grows.bind (.visit (assignmentRuns_grow _) fun _ _ h => h) fun _ => ?_
        refine Pass.Grows.bind (.visit u.filter.run_grows fun _ _ h => h) fun filter => ?_
        split
        · exact .fail _
        · exact .pure _

theorem Delete.body_bare (del : Delete) : (del.body d).Bare := by
  unfold Delete.body
  split
  · exact .fail _
  · refine Pass.Grows.bind (.visit del.filter.run_grows fun _ _ h => h) fun filter => ?_
    split
    · exact .fail _
    · exact .pure _

end SqlTree
