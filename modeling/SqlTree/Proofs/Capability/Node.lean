import SqlTree.Proofs.Capability.Tree
import SqlTree.Proofs.Combined.Page
import SqlTree.Proofs.Rows.Build

/-!
# SqlTree.Proofs.Capability.Node

What a configured dialect cannot say.  It may lack the clauses for a page, or
the list of rows of an insert.  A tree with a page anywhere in it, or an
insert of several rows, then lacks a feature (`Config.missing?`), and it is
refused, be it compiled by itself or into a collector, and whatever has been
compiled from it before in dialects that have the feature.  Where the dialect
would compile the tree if only it had both features, the error says which one
is missing (`Reachable.refuses_missing`).
-/

namespace SqlTree

/-- The rows that a node lists, if it is an insert. -/
def Node.rowCount : (k : Kind) → Node k → Nat
  | .insert, i => (Insert.rows i).length
  | _, _ => 0

/-! ## Nodes in two dialects -/

section

variable {allowed : Page → Prop} {e e' : Error} {k k' : Constructs} {Q : Prop}

theorem hinges_row (hk : k.Hinge allowed e k') (columns : List Identifier) (row : List Operand)
    (h : RowCoherent row) : Hinges (∀ s ∈ row.flatMap Operand.selects, allowed s.page) e
      (rowDraft k columns row) (rowDraft k' columns row) := by
  induction row generalizing columns with
  | nil => exact .refl (fun _ h => nomatch h) _
  | cons o row ih =>
    obtain ⟨ho, hrow⟩ := List.forall_mem_cons.1 h
    rw [rowDraft, rowDraft, List.flatMap_cons, List.forall_mem_append]
    exact (o.hinges hk _ ho).bind fun _ => (ih _ hrow).map _

theorem hinges_rows (hk : k.Hinge allowed e k') (columns : List Identifier)
    (rows : List (List Operand)) (h : RowsCoherent rows) :
    Hinges (∀ s ∈ rows.flatten.flatMap Operand.selects, allowed s.page) e
      (rowDrafts k columns rows) (rowDrafts k' columns rows) := by
  induction rows with
  | nil => exact .refl (fun _ h => nomatch h) _
  | cons row rows ih =>
    obtain ⟨hrow, hrows⟩ := List.forall_mem_cons.1 h
    rw [rowDrafts, rowDrafts, List.flatten_cons, List.flatMap_append, List.forall_mem_append]
    exact (hinges_row hk columns row hrow).bind fun _ => (ih hrows).map _

theorem hinges_assignments (hk : k.Hinge allowed e k') (assignments : List Assignment)
    (h : AssignmentsCoherent assignments) :
    Hinges (∀ s ∈ assignments.flatMap fun a => a.value.selects, allowed s.page) e
      (assignmentDrafts k assignments) (assignmentDrafts k' assignments) := by
  induction assignments with
  | nil => exact .refl (fun _ h => nomatch h) _
  | cons a rest ih =>
    obtain ⟨ha, hrest⟩ := List.forall_mem_cons.1 h
    rw [assignmentDrafts, assignmentDrafts, List.flatMap_cons, List.forall_mem_append]
    exact ((a.value.hinges hk _ ha).map _).bind fun _ => (ih hrest).map _

theorem Update.hinges (hk : k.Hinge allowed e k') {u : Update} (h : u.Coherent) :
    Hinges (∀ s ∈ Node.selects .update u, allowed s.page) e (u.draft k) (u.draft k') := by
  rw [Update.draft, Update.draft]
  split
  · exact .failed _
  split
  · exact .failed _
  split
  · exact .failed _
  rw [show Node.selects .update u = (u.assignments.flatMap fun a => a.value.selects) ++
    u.filter.selects from rfl, List.forall_mem_append]
  refine (hinges_assignments hk _ h.assignments).bind fun _ => ?_
  refine ((u.filter.hinges hk h.filter).bind fun _ => .refl trivial _).congr ?_
  exact (and_iff_left trivial).symm

theorem Delete.hinges (hk : k.Hinge allowed e k') {del : Delete} (h : del.Coherent) :
    Hinges (∀ s ∈ Node.selects .delete del, allowed s.page) e (del.draft k) (del.draft k') := by
  rw [Delete.draft, Delete.draft]
  split
  · exact .failed _
  · refine ((del.filter.hinges hk h.filter).bind fun _ => .refl trivial _).congr ?_
    exact (and_iff_left trivial).symm

/-- The rows of an insert come before their number. -/
theorem Insert.hinges (hk : k.Hinge allowed e k') {i : Insert} (h : i.Coherent)
    (hapart : i.SourceApart)
    (hrows : ∀ table columns (cells : List (List Draft)), cells.length = i.rows.length →
      Hinges Q e' (Draft.insertRows k table columns cells)
        (Draft.insertRows k' table columns cells))
    (hnone : i.rows.length = 0 → Q) [Decidable (∀ s ∈ Node.selects .insert i, allowed s.page)] :
    Hinges ((∀ s ∈ Node.selects .insert i, allowed s.page) ∧ Q)
      (if ∀ s ∈ Node.selects .insert i, allowed s.page then e' else e)
      (i.draft k) (i.draft k') := by
  rw [Insert.draft, Insert.draft]
  cases i.table? with
  | none => exact .failed _
  | some table =>
  cases hsource : i.source? with
  | some source =>
    have hempty : i.rows = [] := hapart (by rw [hsource]; rfl)
    refine Hinges.alone (.congr ((source.hinges hk (h.source _ hsource)).map _) ?_)
      (hnone (by rw [hempty]; rfl))
    simp [Node.selects, hsource, hempty]
  | none =>
    have hiff : (∀ s ∈ Node.selects .insert i, allowed s.page) ↔
        ∀ s ∈ i.rows.flatten.flatMap Operand.selects, allowed s.page := by
      simp only [Node.selects, hsource, Option.toList_none, List.flatMap_nil, List.nil_append]
    dsimp only
    by_cases hempty : i.rows.isEmpty = true
    · rw [if_pos hempty, if_pos hempty]
      exact .failed _
    · rw [if_neg hempty, if_neg hempty]
      have hcongr := (hinges_rows hk i.columns i.rows h.rows).congr hiff
      refine hcongr.bind_either fun cells hcells => ?_
      exact hrows table i.columns cells (length_rowDrafts hcells)

/-- Every node hinges on the pages in it, and an insert on its rows as well. -/
theorem Node.hinges (hk : k.Hinge allowed e k') {kind : Kind} {n : Node kind}
    (h : Node.Coherent kind n) (hapart : Node.SourceApart kind n)
    (hrows : ∀ table columns (cells : List (List Draft)), cells.length = Node.rowCount kind n →
      Hinges Q e' (Draft.insertRows k table columns cells)
        (Draft.insertRows k' table columns cells))
    (hnone : Node.rowCount kind n = 0 → Q)
    [Decidable (∀ s ∈ Node.selects kind n, allowed s.page)] :
    Hinges ((∀ s ∈ Node.selects kind n, allowed s.page) ∧ Q)
      (if ∀ s ∈ Node.selects kind n, allowed s.page then e' else e)
      (Node.draft k kind n) (Node.draft k' kind n) := by
  cases kind with
  | insert => exact Insert.hinges hk h hapart hrows hnone
  | select => exact .alone (Select.hinges hk n h) (hnone rfl)
  | update => exact .alone (Update.hinges hk h) (hnone rfl)
  | delete => exact .alone (Delete.hinges hk h) (hnone rfl)
  | group => exact .alone (Group.hinges hk n h) (hnone rfl)
  | clause => exact .alone (Clause.hinges hk n h) (hnone rfl)
  | join => exact .alone (Join.hinges hk n h) (hnone rfl)
  | predicate => exact .alone (Predicate.hinges hk n h) (hnone rfl)
  | expression => exact .alone (Expression.hinges hk n h) (hnone rfl)
  | reference => exact .alone (.refl (fun _ h => nomatch h) _) (hnone rfl)

end

/-! ## Configured dialects -/

namespace Config

/-- The settings with both features. -/
def able (c : Config) : Config := { c with limitOffset := true, multiRowInsert := true }

/-- The dialect can say the page. -/
def Says (c : Config) (page : Page) : Prop := c.limitOffset = true ∨ page = .all

instance (c : Config) (page : Page) : Decidable (c.Says page) := inferInstanceAs (Decidable (_ ∨ _))

/-- The feature that the dialect lacks for a node, pages first. -/
def missing? (c : Config) (k : Kind) (n : Node k) : Option Feature :=
  if ∀ s ∈ Node.selects k n, c.Says s.page then
    if c.multiRowInsert = true ∨ Node.rowCount k n ≤ 1 then none else some .multiRowInsert
  else some .pagination

variable (c : Config)

theorem hinge_able : c.dialect.constructs.Hinge c.Says (.unsupported c.name .pagination)
    c.able.dialect.constructs where
  head _ _ _ := rfl
  clause page hpage ordered := by
    rcases hpage with hable | rfl
    · simp only [Draft.innerPageClause, Draft.pageClause, Constructs.innerPage,
        Dialect.constructs, dialect, able, hable]
      rfl
    · rfl
  around _ _ _ := rfl
  goesOn _ _ _ := ⟨_, rfl⟩
  refuses page hpage ordered := by
    obtain ⟨hlacks, hpartial⟩ := not_or.1 hpage
    have hsome : page.isPartial = true := by
      obtain ⟨_ | n, _ | m⟩ := page
      case none.none => exact absurd rfl hpartial
      all_goals rfl
    have hinner : c.dialect.constructs.innerPage page = page := rfl
    rw [Draft.innerPageClause, hinner, if_pos hsome]
    simp only [Draft.pageClause, Dialect.constructs, dialect, Dialect.ansi]
    exact if_neg hlacks

/-- Rows are refused for their number. -/
theorem hinges_insertRows (table : Identifier) (columns : List Identifier)
    (cells : List (List Draft)) :
    Hinges (c.multiRowInsert = true ∨ cells.length ≤ 1) (.unsupported c.name .multiRowInsert)
      (Draft.insertRows c.dialect.constructs table columns cells)
      (Draft.insertRows c.able.dialect.constructs table columns cells) := by
  have hplain : ∀ k : Constructs, k.insertAll = false →
      Draft.insertRows k table columns cells =
        if 1 < cells.length ∧ k.multiRowInsert = false then
          .error (.unsupported k.name .multiRowInsert)
        else .ok (Draft.insertValues table columns cells) := fun k hk => by
    simp [Draft.insertRows, hk]
  rw [hplain _ rfl, hplain c.able.dialect.constructs rfl]
  refine ⟨fun hfits => ?_, fun hnot => ?_⟩
  · rw [if_neg, if_neg]
    · simp [able, dialect, Dialect.constructs]
    · rintro ⟨hmany, hlacks⟩
      rcases hfits with hable | hfew
      · exact Bool.false_ne_true (hlacks.symm.trans hable)
      · exact absurd hmany (Nat.not_lt.2 hfew)
  · obtain ⟨hlacks, hmany⟩ := not_or.1 hnot
    rw [if_pos ⟨Nat.not_le.1 hmany, Bool.eq_false_iff.2 hlacks⟩]
    exact .of_error _

/-- A node that lacks nothing has the draft that it has in the dialect with
both features; another one is stopped for what it lacks. -/
theorem draft_of_missing {k : Kind} {n : Node k} (h : Node.Coherent k n)
    (hapart : Node.SourceApart k n) :
    (c.missing? k n = none → Node.draft c.dialect.constructs k n =
      Node.draft c.able.dialect.constructs k n) ∧
    ∀ feature, c.missing? k n = some feature →
      Stops (.unsupported c.name feature) (Node.draft c.dialect.constructs k n)
        (Node.draft c.able.dialect.constructs k n) := by
  have hhinges := Node.hinges c.hinge_able h hapart
    (Q := c.multiRowInsert = true ∨ Node.rowCount k n ≤ 1)
    (fun table columns cells hcells => hcells ▸ c.hinges_insertRows table columns cells)
    (fun hnone => .inr (hnone ▸ Nat.zero_le 1))
  unfold missing?
  split
  · next hpages =>
    rw [if_pos hpages] at hhinges
    split
    · next hrows => exact ⟨fun _ => hhinges.same ⟨hpages, hrows⟩, nofun⟩
    · next hrows =>
      refine ⟨nofun, fun feature hfeature => ?_⟩
      obtain rfl := Option.some.inj hfeature
      exact hhinges.stops fun hboth => hrows hboth.2
  · next hpages =>
    rw [if_neg hpages] at hhinges
    refine ⟨nofun, fun feature hfeature => ?_⟩
    obtain rfl := Option.some.inj hfeature
    exact hhinges.stops fun hboth => hpages hboth.1

/-- Nothing is missing just where no select has a page that the dialect cannot
ask for, and no insert has rows that it cannot list. -/
theorem missing?_eq_none {k : Kind} {n : Node k} : c.missing? k n = none ↔
    (c.limitOffset = false → ∀ s ∈ Node.selects k n, s.limit = none ∧ s.offset = none) ∧
      (c.multiRowInsert = false → Node.rowCount k n ≤ 1) := by
  have hable (s : Select) : c.Says s.page ↔
      (c.limitOffset = false → s.limit = none ∧ s.offset = none) := by
    cases h : c.limitOffset <;> simp [Says, h, Select.page, Page.all]
  have hpages : (∀ s ∈ Node.selects k n, c.Says s.page) ↔
      (c.limitOffset = false → ∀ s ∈ Node.selects k n, s.limit = none ∧ s.offset = none) := by
    simp only [hable]
    exact ⟨fun h hlacks s hs => h s hs hlacks, fun h s hs hlacks => h hlacks s hs⟩
  have hrows : (c.multiRowInsert = true ∨ Node.rowCount k n ≤ 1) ↔
      (c.multiRowInsert = false → Node.rowCount k n ≤ 1) := by
    cases c.multiRowInsert <;> simp
  rw [← hpages, ← hrows]
  unfold missing?
  split
  · next h =>
    split
    · next h' => exact ⟨fun _ => ⟨h, h'⟩, fun _ => rfl⟩
    · next h' =>
      exact ⟨fun hnone => absurd hnone (Option.some_ne_none _), fun hboth => absurd hboth.2 h'⟩
  · next h =>
    exact ⟨fun hnone => absurd hnone (Option.some_ne_none _), fun hboth => absurd hboth.1 h⟩

end Config

/-- The dialect answers for a node only what it can say: no select has a page
and no insert has several rows where the feature is missing.  What the dialect
with both features answers, it answers as well, unless it lacks a feature, and
then the error names the dialect and the feature. -/
structure Config.AnswersFor (c : Config) (k : Kind) (n : Node k)
    (answered able : Except Error String) :
    Prop where
  pages : ∀ sql, answered = .ok sql → c.limitOffset = false →
    ∀ s ∈ Node.selects k n, s.limit = none ∧ s.offset = none
  rows : ∀ sql, answered = .ok sql → c.multiRowInsert = false → Node.rowCount k n ≤ 1
  able : ∀ sql, able = .ok sql → answered =
    match c.missing? k n with
    | none => .ok sql
    | some feature => .error (.unsupported c.name feature)

theorem Config.answersFor_of_draft (c : Config) {k : Kind} {n : Node k} (h : Node.Coherent k n)
    (hapart : Node.SourceApart k n) (write : Draft → String) {answered able : Except Error String}
    (hanswered : answered = (Node.draft c.dialect.constructs k n).map write)
    (hable : able = (Node.draft c.able.dialect.constructs k n).map write) :
    c.AnswersFor k n answered able := by
  obtain ⟨hsame, hstops⟩ := c.draft_of_missing h hapart
  have hnone (sql : String) (hsql : answered = .ok sql) : c.missing? k n = none := by
    obtain ⟨p, hp, -⟩ := exists_of_map_eq_ok (hanswered.symm.trans hsql)
    cases hmissing : c.missing? k n with
    | none => rfl
    | some feature => exact absurd hp ((hstops feature hmissing).nowhere p)
  refine ⟨fun sql hsql => (c.missing?_eq_none.1 (hnone sql hsql)).1,
    fun sql hsql => (c.missing?_eq_none.1 (hnone sql hsql)).2, fun sql hsql => ?_⟩
  cases hmissing : c.missing? k n with
  | none => rw [hanswered, hsame hmissing, ← hable, hsql]
  | some feature =>
    obtain ⟨p, hp, -⟩ := exists_of_map_eq_ok (hable.symm.trans hsql)
    rw [hanswered, (hstops feature hmissing).error p hp]
    rfl

/-- Whatever has been compiled from a node before, also in dialects with other
features, a configured dialect compiles it only if it can say all of it. -/
theorem Reachable.refuses_missing {k : Kind} {n : Node k} (h : Reachable k n) (c : Config) :
    c.AnswersFor k n (answer (Node.compile c.dialect k n))
        (answer (Node.compile c.able.dialect k n)) ∧
      ∀ into, c.AnswersFor k n (answer (Node.compileInto c.dialect k n into))
        (answer (Node.compileInto c.able.dialect k n into)) := by
  have htext (p : Draft) (into : Collector) :
      p.text c.able.dialect into = p.text c.dialect into := by
    apply Draft.text_congr_quotes <;> rfl
  refine ⟨c.answersFor_of_draft h.coherent h.sourceApart
    (fun p => p.text c.dialect (.empty c.style)) (Node.answer_compile (.config c) h.coherent) ?_, fun into =>
    c.answersFor_of_draft h.coherent h.sourceApart (fun p => p.text c.dialect into)
      (Node.answer_compileInto (.config c) h.coherent into) ?_⟩
  · rw [Node.answer_compile (.config c.able) h.coherent]
    simp only [htext]
    rfl
  · rw [Node.answer_compileInto (.config c.able) h.coherent into]
    simp only [htext]

/-- A page in a subquery that has been compiled where pages are understood. -/
theorem Reachable.refuses_missing_of_page :
    let called (call : Call .select) (s : Select) : Select := call.act s
    let built (b : Builder .select) : Select → Select := called (.build b)
    let inner := built (.limit (some 1)) (built (.fromTable "u") Select.empty)
    let outer := built (.selectWhere (.predicate (.existence false inner)))
      (built (.fromTable "t") Select.empty)
    let s := called (.compile Dialect.ansi (.config .standard)) outer
    let c : Config := { Config.standard with limitOffset := false }
    Reachable .select s ∧ c.missing? .select s = some .pagination ∧
      answer (s.compile c.able.dialect) =
        .ok "SELECT * FROM \"t\" WHERE EXISTS (SELECT * FROM \"u\" LIMIT :limit1)" ∧
      answer (s.compile c.dialect) = .error (.unsupported "ansi" .pagination) := by
  intro called built inner outer s c
  have hinner : Reachable .select inner := .built (.fromTable "u") rfl
  have hpredicate : Reachable .predicate (.existence false inner) :=
    .made (.existence false inner) (List.forall_mem_singleton.2 hinner) rfl
  have houter : Reachable .select outer := .built_using (.fromTable "t") hpredicate rfl
  have hs : Reachable .select s :=
    .called .here (.compile Dialect.ansi (.config .standard)) houter (fun _ h => nomatch h)
  have hmissing : c.missing? .select s = some .pagination := by decide +kernel
  have hable : answer (s.compile c.able.dialect) =
      .ok "SELECT * FROM \"t\" WHERE EXISTS (SELECT * FROM \"u\" LIMIT :limit1)" := by
    refine eq_ok_of_toOption ?_
    decide +kernel
  have hrefused := (hs.refuses_missing c).1.able _ hable
  rw [hmissing] at hrefused
  exact ⟨hs, hmissing, hable, hrefused⟩

end SqlTree
