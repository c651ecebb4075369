import SqlTree.Proofs.Verbatim.Within

/-!
# SqlTree.Proofs.Verbatim.Node

Only raw SQL is ever requoted.  In a tree without raw SQL no statement
changes the text that it quotes names in, so every node of the tree stands
in the text of the whole with the text that it compiles to by itself
(`Reachable.embeds_verbatim`).

There is one exception.  Where a dialect numbers rows it calls them `b`, in
text of its own, and a statement around it that has a table or an alias of
this name quotes that `b` as well (`Reachable.numbered_rows_requoted`).
-/

namespace SqlTree

theorem Dialect.Shipped.quotesNoName {d : Dialect} (h : d.Shipped)
    (hleft : isNameChar d.leftQuote = false) (hright : isNameChar d.rightQuote = false) :
    d.QuotesNoName :=
  ⟨by rw [h.valueQuote_eq]; decide, hleft, hright⟩

/-- A page of the rows of a table. -/
def Select.paged : Select :=
  let called (b : Builder .select) (s : Select) : Select := (Call.build b).act s
  called (.offset (some 5)) (called (.limit (some 10)) (called (.fromTable "t") Select.empty))

/-- A select from another table, with a test against that page. -/
def Select.testingPage (table : String) : Select :=
  let called (b : Builder .select) (s : Select) : Select := (Call.build b).act s
  called (.selectWhere (.predicate (.inSelect (.identifier ⟨"id", rfl⟩) false Select.paged)))
    (called (.fromTable table) Select.empty)

theorem Select.reachable_paged : Reachable .select Select.paged := by
  have hempty : Reachable .select Select.empty := .made .select (fun _ h => nomatch h) rfl
  have hfrom := Reachable.called .here (.build (.fromTable "t")) hempty fun _ h => nomatch h
  have hlimit := Reachable.called .here (.build (.limit (some 10))) hfrom fun _ h => nomatch h
  exact .called .here (.build (.offset (some 5))) hlimit fun _ h => nomatch h

theorem Select.reachable_testingPage (table : String) :
    Reachable .select (Select.testingPage table) := by
  let p : Predicate := .inSelect (.identifier ⟨"id", rfl⟩) false Select.paged
  have hp : Reachable .predicate p := by
    refine .made (.inSelect (.identifier ⟨"id", rfl⟩) false Select.paged) (fun u hu => ?_) rfl
    cases List.mem_singleton.1 hu
    exact Select.reachable_paged
  have hempty : Reachable .select Select.empty := .made .select (fun _ h => nomatch h) rfl
  have hfrom := Reachable.called .here (.build (.fromTable table)) hempty fun _ h => nomatch h
  refine .called .here (.build (.selectWhere (.predicate p))) hfrom fun u hu => ?_
  cases List.mem_singleton.1 hu
  exact hp

theorem Select.within_testingPage (table : String) :
    AnyNode.Within ⟨.select, Select.paged⟩ ⟨.select, Select.testingPage table⟩ := by
  simp only [Select.testingPage, Call.act, Builder.build, Select.fromTable]
  -- the condition, its group, the test in it and the page
  cases Identifier.parse table <;>
    exact .step (List.Mem.head _) (.step (List.Mem.head _) (.step (List.Mem.head _)
      (.step (List.Mem.head _) (.refl _))))

/-- In a tree without raw SQL no statement changes the text that it quotes
names in.  Whatever is in the tree stands in the text of the whole as it
compiles by itself, into the collector that has the values in front of it.
Quotes must not be characters of names, and a statement that knows the name
of numbered rows must not have any below it. -/
theorem Reachable.embeds_verbatim {k : Kind} {n : Node k} (h : Reachable k n)
    (hraws : Node.raws k n = []) {d : Dialect} (hd : d.Shipped)
    (hleft : isNameChar d.leftQuote = false) (hright : isNameChar d.rightQuote = false) {p : Draft}
    (hp : Node.draft d.constructs k n = .ok p) (hrows : d.rowNumbers = true → p.RowsUnknown) :
    (∀ l ∈ p.levels, ∀ c, d.quotePrefixes l.1 (l.2.text d c) = l.2.text d c) ∧
      ∀ c, answer (Node.compileInto d k n c) = .ok (p.text d c) ∧
        ∀ u : AnyNode, u.Within ⟨k, n⟩ → ∃ before sql, before <+: p.bindings ∧
          answer (Node.compileInto d u.1 u.2 (c.bindAll before)) = .ok sql ∧
          sql.toList <:+: (p.text d c).toList := by
  have hwritten : p.Written (d.rowNumbers = true) fun _ => False := by
    refine Node.draft_written hd.undotted (fun raw hraw => ?_) p hp
    rw [hraws] at hraw
    cases hraw
  have hunknown : p.RowsUnknown := by
    by_cases hnumbers : d.rowNumbers = true
    · exact hrows hnumbers
    · exact hwritten.rowsUnknown hnumbers
  obtain ⟨-, hkeep⟩ := hwritten.guarded (hd.quotesNoName hleft hright) hunknown
  have hanswer {u : AnyNode} (hu : u.Coherent) {q : Draft}
      (hq : Node.draft d.constructs u.1 u.2 = .ok q) (c : Collector) :
      answer (Node.compileInto d u.1 u.2 c) = .ok (q.text d c) := by
    rw [(Node.collector_compileInto hd hu c).1, hq]
    rfl
  refine ⟨hkeep, fun c => ⟨hanswer (u := ⟨k, n⟩) h.coherent hp c, fun u hu => ?_⟩⟩
  obtain ⟨q, hq, hpart⟩ := hu.draftedIn hp
  obtain ⟨before, hbefore, hinfix⟩ := hpart.exists_infix hkeep c
  exact ⟨before, _, hbefore, hanswer (hu.coherent h.coherent) hq _, hinfix⟩

/-- That select from a table `a`, where no statement knows the name of the
numbered rows of the page. -/
theorem Reachable.embeds_verbatim_of_page :
    let d := Dialect.oracle
    let s := Select.testingPage "a"
    Reachable .select s ∧ Node.raws .select s = [] ∧ d.Shipped ∧
      isNameChar d.leftQuote = false ∧ isNameChar d.rightQuote = false ∧
      ∃ p, Node.draft d.constructs .select s = .ok p ∧ p.RowsUnknown ∧
        (∀ l ∈ p.levels, ∀ c, d.quotePrefixes l.1 (l.2.text d c) = l.2.text d c) ∧
        ∀ c, ∃ before sql, before <+: p.bindings ∧
          answer (Node.compileInto d .select Select.paged (c.bindAll before)) = .ok sql ∧
          sql.toList <:+: (p.text d c).toList := by
  intro d s
  have hs := Select.reachable_testingPage "a"
  have hraws : Node.raws .select s = [] := by decide +kernel
  have hunknown : (Node.draft d.constructs .select s).toOption.any
      (fun p => p.levels.all fun l => decide ("b" ∉ l.1)) = true := by
    decide +kernel
  cases hp : Node.draft d.constructs .select s with
  | error e =>
    rw [hp] at hunknown
    cases hunknown
  | ok p =>
    rw [hp] at hunknown
    have hrows : p.RowsUnknown := fun l hl hb =>
      absurd hb (of_decide_eq_true (List.all_eq_true.1 hunknown l hl))
    obtain ⟨hkeep, hembeds⟩ := Reachable.embeds_verbatim hs hraws (d := d) .oracle (by decide)
      (by decide) hp fun _ => hrows
    exact ⟨hs, hraws, .oracle, by decide, by decide, p, rfl, hrows, hkeep,
      fun c => (hembeds c).2 _ (Select.within_testingPage "a")⟩

/-- The same select from a table `b`.  The name of the numbered rows is taken
for that of the table, and the text of the page is not what it is by itself. -/
theorem Reachable.numbered_rows_requoted :
    let d := Dialect.oracle
    let s := Select.testingPage "b"
    let c := Collector.empty .named
    Reachable .select s ∧ Node.raws .select s = [] ∧ d.Shipped ∧
      AnyNode.Within ⟨.select, Select.paged⟩ ⟨.select, s⟩ ∧
      ∃ sql page, answer (Node.compileInto d .select s c) = .ok sql ∧
        answer (Node.compileInto d .select Select.paged c) = .ok page ∧
        ¬page.toList <:+: sql.toList := by
  intro d s c
  have hsql : answer (Node.compileInto d .select s c) =
      .ok ("SELECT * FROM \"b\" WHERE \"id\" IN (SELECT * FROM (SELECT \"b\".*, ROWNUM b_rownum " ++
        "FROM (SELECT * FROM \"t\") b WHERE ROWNUM <= :limit1) WHERE b_rownum > :offset1)") := by
    refine eq_ok_of_toOption ?_
    decide +kernel
  have hpage : answer (Node.compileInto d .select Select.paged c) =
      .ok ("SELECT * FROM (SELECT b.*, ROWNUM b_rownum FROM (SELECT * FROM \"t\") b " ++
        "WHERE ROWNUM <= :limit1) WHERE b_rownum > :offset1") := by
    refine eq_ok_of_toOption ?_
    decide +kernel
  refine ⟨Select.reachable_testingPage "b", by decide +kernel, .oracle,
    Select.within_testingPage "b", _, _, hsql, hpage, fun hinfix => ?_⟩
  have hstar : "b.*".toList <:+: _ := List.IsInfix.trans (by decide +kernel) hinfix
  exact absurd hstar (by decide +kernel)

end SqlTree
