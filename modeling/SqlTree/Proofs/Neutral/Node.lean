import SqlTree.Proofs.Capability.Node
import SqlTree.Proofs.Grouping.Node
import SqlTree.Proofs.Neutral.Reader
import SqlTree.Proofs.Positional.Node
import SqlTree.Proofs.Verbatim.Node

/-!
# SqlTree.Proofs.Neutral.Node

Where dialects agree.  They have constructs of their own for pages and for
several rows, so a node without either has one and the same draft in all of
them (`Node.draft_eq_of_all`).  What is left to them are the quotes around
names and the style of markers: read without these, the texts are equal, and
so are the values in them, with their types and in their order
(`Reachable.compile_neutral`).
-/

namespace SqlTree

/-! ## One draft -/

/-- The constructs of standard SQL that all dialects share. -/
def Constructs.shared : Constructs :=
  ({ Config.standard with limitOffset := false, multiRowInsert := false }).dialect.constructs

/-- For all rows every dialect has the constructs that are shared. -/
theorem Constructs.hinge_shared (k : Constructs) :
    Constructs.shared.Hinge (· = .all) (.unsupported "ansi" .pagination) k where
  head page hpage quantifier := by
    subst hpage
    rw [innerPage_all, innerPage_all, Draft.columnHead, Draft.columnHead]
    split <;> split <;> rfl
  clause page hpage ordered := by
    subst hpage
    rw [Draft.innerPageClause, Draft.innerPageClause, innerPage_all, innerPage_all]
    rfl
  around page hpage p := by
    subst hpage
    rw [Draft.aroundSelect_all, Draft.aroundSelect_all]
  goesOn _ _ _ := ⟨_, rfl⟩
  refuses page hpage ordered := by
    have hsome : page.isPartial = true := by
      obtain ⟨_ | n, _ | m⟩ := page
      case none.none => exact absurd rfl hpage
      all_goals rfl
    have hinner : Constructs.shared.innerPage page = page := rfl
    rw [Draft.innerPageClause, hinner, if_pos hsome]
    rfl

theorem Draft.insertRows_of_length_le_one (k : Constructs) (table : Identifier)
    (columns : List Identifier) {cells : List (List Draft)} (h : cells.length ≤ 1) :
    insertRows k table columns cells = .ok (insertValues table columns cells) := by
  have hfew : ¬1 < cells.length := Nat.not_lt.2 h
  rw [insertRows, if_neg (fun hboth => hfew hboth.1), if_neg (fun hboth => hfew hboth.1)]

/-- A node without pages and with one row at most has one draft in all
dialects. -/
theorem Node.draft_eq_of_all {kind : Kind} {n : Node kind} (h : Node.Coherent kind n)
    (hapart : Node.SourceApart kind n) (hpages : ∀ s ∈ Node.selects kind n, s.page = .all)
    (hrows : Node.rowCount kind n ≤ 1) (k : Constructs) :
    Node.draft .shared kind n = Node.draft k kind n := by
  classical
  have hinsert (table : Identifier) (columns : List Identifier) (cells : List (List Draft))
      (hcells : cells.length = Node.rowCount kind n) :
      Hinges True (.unsupported "ansi" .pagination) (Draft.insertRows .shared table columns cells)
        (Draft.insertRows k table columns cells) := by
    have hfew : cells.length ≤ 1 := hcells ▸ hrows
    rw [Draft.insertRows_of_length_le_one _ _ _ hfew, Draft.insertRows_of_length_le_one _ _ _ hfew]
    exact .refl trivial _
  have hhinges := Node.hinges k.hinge_shared h hapart hinsert fun _ => trivial
  exact hhinges.same ⟨hpages, trivial⟩

/-! ## One text -/

theorem Dialect.Shipped.quotesTold {d : Dialect} (h : d.Shipped) (hquotes : d.HasUsualQuotes) :
    d.QuotesTold := by
  have hvalue := h.valueQuote_eq
  refine ⟨h.quotesStandOut hquotes, h.quotesApart hquotes, ?_, ?_⟩ <;>
  · simp only [HasUsualQuotes, List.mem_cons, Prod.mk.injEq, List.not_mem_nil, or_false] at hquotes
    rcases hquotes with ⟨hleft, hright⟩ | ⟨hleft, hright⟩ | ⟨hleft, hright⟩ <;>
      simp only [hvalue, hleft, hright] <;> decide

/-- What is left of a node without raw SQL, pages and several rows is the same
in every dialect. -/
theorem Node.neutral_text {kind : Kind} {n : Node kind} (hraws : Node.raws kind n = []) {p : Draft}
    (hp : Node.draft .shared kind n = .ok p) {d : Dialect} (hd : d.Shipped)
    (hquotes : d.HasUsualQuotes) (c : Collector) :
    d.neutral (p.text d c) = String.ofList p.plain := by
  have hconfig : Dialect.Shipped
      ({ Config.standard with limitOffset := false, multiRowInsert := false } : Config).dialect :=
    .config _
  have hcomposed : p.Composed fun _ => False :=
    Node.draft_composed hconfig.plain (hraws ▸ List.forall_mem_nil _) p hp
  have hwritten : p.Written (Constructs.shared.rowNumbers = true) fun _ => False :=
    Node.draft_written hconfig.undotted (hraws ▸ List.forall_mem_nil _) p hp
  have htold := hd.quotesTold hquotes
  have hlevels := (hwritten.guarded htold.quotesNoName (hwritten.rowsUnknown nofun)).2
  have hend : p.dangles = true → EndsWord [] := fun _ => rfl
  have htext := Draft.neutralFrom_text htold hd.valueQuote_eq hcomposed hlevels (c := c) hend
  rw [List.append_nil, Dialect.neutralFrom, List.append_nil] at htext
  rw [Dialect.neutral, htext]

/-- What a collector binds, without its markers. -/
def Collector.bound (c : Collector) : List (Value × BindType) :=
  c.entries.map fun e => (e.value, e.type)

theorem Collector.bound_bindAll (style : MarkerStyle) (bs : List Binding) :
    ((Collector.empty style).bindAll bs).bound = bs.map fun b => (b.value, b.type) := by
  obtain ⟨added, hentries, hvalues, -⟩ := (Collector.empty style).entries_bindAll bs
  rw [bound, hentries]
  exact hvalues

/-- A node without raw SQL, without pages and with one row at most compiles in
two dialects alike: to the same error, or to texts that are the same but for
the quotes around names and the markers, and to the same values and types in
the same order. -/
theorem Reachable.compile_neutral {k : Kind} {n : Node k} (h : Reachable k n)
    (hraws : Node.raws k n = [])
    (hpages : ∀ s ∈ Node.selects k n, s.limit = none ∧ s.offset = none)
    (hrows : Node.rowCount k n ≤ 1) {d d' : Dialect} (hd : d.Shipped) (hd' : d'.Shipped)
    (hquotes : d.HasUsualQuotes) (hquotes' : d'.HasUsualQuotes) :
    (answer (Node.compile d k n)).map d.neutral = (answer (Node.compile d' k n)).map d'.neutral ∧
      (Node.collector? k (left (Node.compile d k n))).map Collector.bound =
        (Node.collector? k (left (Node.compile d' k n))).map Collector.bound := by
  have hall : ∀ s ∈ Node.selects k n, s.page = .all := by
    intro s hs
    obtain ⟨hlimit, hoffset⟩ := hpages s hs
    rw [Select.page, hlimit, hoffset]
    rfl
  have hdraft := Node.draft_eq_of_all h.coherent h.sourceApart hall hrows
  obtain ⟨-, hanswer, hcollector⟩ := Node.compile_follows hd h.coherent
  obtain ⟨-, hanswer', hcollector'⟩ := Node.compile_follows hd' h.coherent
  rw [hanswer, hanswer', hcollector, hcollector', ← hdraft d.constructs, ← hdraft d'.constructs]
  cases hp : Node.draft .shared k n with
  | error e =>
    refine ⟨rfl, ?_⟩
    split <;> rfl
  | ok p =>
    refine ⟨congrArg Except.ok ?_, ?_⟩
    · exact (Node.neutral_text hraws hp hd hquotes _).trans
        (Node.neutral_text hraws hp hd' hquotes' _).symm
    · have hbound : (p.after (.empty d.style)).bound = (p.after (.empty d'.style)).bound := by
        rw [Draft.after, Draft.after, Collector.bound_bindAll, Collector.bound_bindAll]
      split
      · exact congrArg some hbound
      · rfl

/-- A pattern whose escape character is the quote that one of the dialects
puts around names. -/
theorem Reachable.compile_neutral_of_escape :
    let built (b : Builder .select) (s : Select) : Select := (Call.build b).act s
    let like : Predicate := .like (.identifier ⟨"a", rfl⟩) false (.value (.text "x[_")) (some '[')
    let s := built (.selectWhere (.predicate like)) (built (.fromTable "t") Select.empty)
    let sql := "SELECT * FROM [t] WHERE [a] LIKE :like1 ESCAPE '['"
    let sql' := "SELECT * FROM \x60t\x60 WHERE \x60a\x60 LIKE ? ESCAPE '['"
    Reachable .select s ∧ Node.raws .select s = [] ∧
      (∀ s' ∈ Node.selects .select s, s'.limit = none ∧ s'.offset = none) ∧
      Node.rowCount .select s ≤ 1 ∧ Dialect.sqlServer.Shipped ∧ Dialect.mysql.Shipped ∧
      Dialect.sqlServer.HasUsualQuotes ∧ Dialect.mysql.HasUsualQuotes ∧
      answer (s.compile .sqlServer) = .ok sql ∧ answer (s.compile .mysql) = .ok sql' ∧
      Dialect.sqlServer.neutral sql = Dialect.mysql.neutral sql' ∧
      (Node.collector? .select (left (s.compile .sqlServer))).map Collector.bound =
        (Node.collector? .select (left (s.compile .mysql))).map Collector.bound := by
  intro built like s sql sql'
  have hlike : Reachable .predicate like :=
    .made (.like (.identifier ⟨"a", rfl⟩) false (.value (.text "x[_")) (some '['))
      (List.forall_mem_nil _) rfl
  have hs : Reachable .select s := (Reachable.fromTable "t").built_using hlike rfl
  have hpages : ∀ s' ∈ Node.selects .select s, s'.limit = none ∧ s'.offset = none :=
    List.forall_mem_singleton.2 ⟨rfl, rfl⟩
  have hquotes : Dialect.sqlServer.HasUsualQuotes := .tail _ (.tail _ (.head _))
  have hquotes' : Dialect.mysql.HasUsualQuotes := .tail _ (.head _)
  have hsql : answer (s.compile .sqlServer) = .ok sql := by
    refine eq_ok_of_toOption ?_
    decide +kernel
  have hsql' : answer (s.compile .mysql) = .ok sql' := by
    refine eq_ok_of_toOption ?_
    decide +kernel
  obtain ⟨htexts, hvalues⟩ :=
    hs.compile_neutral rfl hpages (Nat.zero_le 1) .sqlServer .mysql hquotes hquotes'
  have hneutral : Dialect.sqlServer.neutral sql = Dialect.mysql.neutral sql' := by
    change (answer (s.compile .sqlServer)).map _ = (answer (s.compile .mysql)).map _ at htexts
    rw [hsql, hsql'] at htexts
    exact Except.ok.inj htexts
  exact ⟨hs, rfl, hpages, Nat.zero_le 1, .sqlServer, .mysql, hquotes, hquotes', hsql, hsql',
    hneutral, hvalues⟩

end SqlTree
