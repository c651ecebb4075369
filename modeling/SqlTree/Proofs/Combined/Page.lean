import SqlTree.Proofs.Caching.Transparency
import SqlTree.Proofs.Combined.Clause

/-!
# SqlTree.Proofs.Combined.Page

The page of a combined select.  A page at the end of a select is written
behind everything else, and quoting the prefixes of the text in front of it
does not touch it (`Draft.text_requoted_page`); where rows are numbered, it
is written around everything else.  In both cases it cuts what both selects
give together (`Reachable.pages_combination`).

A limit without an offset has a place of its own where the dialect writes
`TOP` before the columns.  Of a combined select these are the columns of the
first operand (`Reachable.limits_first_operand`).
-/

namespace SqlTree

/-! ## Behind the select -/

namespace Dialect

variable {d : Dialect} {names : List String}

/-- Text without dots behind a blank stays as it is. -/
theorem quotePrefixes_blank (hnames : ∀ name ∈ names, ' ' ∉ name.toList) (before : String)
    {after : String} (hafter : '.' ∉ after.toList) :
    d.quotePrefixes names (before ++ " " ++ after) =
      d.quotePrefixes names before ++ " " ++ after := by
  obtain ⟨s, hs, heq⟩ := quotePrefixesFrom_blank (d := d) (List.forall_mem_map.2 hnames)
    before.toList after.toList (s := .start) rfl
  rw [quotePrefixesFrom_of_not_mem hafter hs] at heq
  rw [← String.toList_inj]
  simpa [quotePrefixes, String.toList_append] using heq

end Dialect

namespace Draft

variable {d : Dialect} {names : List String} {parts : SelectParts}

/-- The select in front of its page. -/
def SelectParts.unpaged (parts : SelectParts) : SelectParts := { parts with page := code "" }

theorem after_unpaged (parts : SelectParts) (c : Collector) : (select parts).after c =
    parts.page.after ((select parts.unpaged).after c) := by
  rw [after, after, after, bindings_core, bindings_core parts.unpaged]
  simp [SelectParts.unpaged, SelectParts.core]

/-- The page of a select stands behind everything else, and no prefix in it
is quoted. -/
theorem text_requoted_page (hnames : ∀ name ∈ names, ' ' ∉ name.toList) (hpage : parts.page.IsPage)
    (c : Collector) : (requoted names (select parts)).text d c =
      (requoted names (select parts.unpaged)).text d c ++ " " ++
        parts.page.text d ((select parts.unpaged).after c) := by
  have hspaced (c : Collector) :
      SqlTree.spaced (parts.page.text d c) = " " ++ parts.page.text d c := by
    rw [SqlTree.spaced, if_neg (hpage.text_ne_empty c)]
  have hafter : (select parts.unpaged).after c =
      parts.combined.after ((select parts.core).after c) := by
    rw [after, after, after, bindings_core]
    simp [SelectParts.unpaged, SelectParts.core]
  have htext : (select parts).text d c = (select parts.unpaged).text d c ++ " " ++
      parts.page.text d ((select parts.unpaged).after c) := by
    rw [text_select_core parts, text_select_core parts.unpaged, hspaced, hafter]
    simp only [SelectParts.unpaged, text_code, String.append_assoc]
    rfl
  rw [text_requoted, text_requoted, htext]
  exact Dialect.quotePrefixes_blank hnames _ (dot_not_mem_of_isBare hpage.bare _)

/-- In front of its page a combined select has its core, the operator, the
other select and the order.  In the other select the prefixes that the first
one knows are quoted. -/
theorem exists_text_combined (hnames : ∀ name ∈ names, ' ' ∉ name.toList) {op : SetOperation}
    {other : Draft} (hcombined : parts.combined = code (" " ++ op.keyword ++ " ") ++ other)
    (c : Collector) : ∃ position operand order,
      (requoted names (select parts.unpaged)).text d c =
        (requoted names (select parts.core)).text d c ++ " " ++ op.keyword ++ " " ++ operand ++
          order ∧
      operand.toList = d.quotePrefixesFrom (names.map String.toList) position
        (other.text d ((select parts.core).after c)).toList ∧
      (parts.orderBy = [] → order = "") := by
  let lists := names.map String.toList
  have hlists : ∀ name ∈ lists, ' ' ∉ name := List.forall_mem_map.2 hnames
  let core := ((select parts.core).text d c).toList
  let text := (other.text d ((select parts.core).after c)).toList
  have hword : '.' ∉ op.keyword.toList := by cases op <;> decide
  have htext : ((select parts.unpaged).text d c).toList =
      core ++ ' ' :: (op.keyword.toList ++
        ' ' :: (text ++ (orderByText d parts.orderBy).toList)) := by
    have hempty : SqlTree.spaced "" = "" := rfl
    rw [text_select_core]
    simp [SelectParts.unpaged, hcombined, hempty, core, text, SelectParts.core]
  obtain ⟨s, hs, hcore⟩ := Dialect.quotePrefixesFrom_blank (d := d) hlists core
    (op.keyword.toList ++ ' ' :: (text ++ (orderByText d parts.orderBy).toList)) (s := .start) rfl
  obtain ⟨s', hs', hop⟩ := Dialect.quotePrefixesFrom_blank (d := d) hlists op.keyword.toList
    (text ++ (orderByText d parts.orderBy).toList) hs
  rw [Dialect.quotePrefixesFrom_of_not_mem hword hs] at hop
  have hsplit : ∃ order,
      d.quotePrefixesFrom lists s' (text ++ (orderByText d parts.orderBy).toList) =
        d.quotePrefixesFrom lists s' text ++ order ∧ (parts.orderBy = [] → order = []) := by
    cases horder : parts.orderBy with
    | nil => exact ⟨[], by simp [orderByText, termListText], fun _ => rfl⟩
    | cons t ts =>
      have hblank : ∃ rest, (orderByText d (t :: ts)).toList = ' ' :: rest := by
        simp [orderByText, termListText]
      obtain ⟨rest, hrest⟩ := hblank
      obtain ⟨s'', -, heq⟩ := Dialect.quotePrefixesFrom_blank (d := d) hlists text rest hs'
      rw [hrest, heq]
      exact ⟨_, rfl, fun h => absurd h (List.cons_ne_nil t ts)⟩
  obtain ⟨order, horder, hnone⟩ := hsplit
  refine ⟨s', String.ofList (d.quotePrefixesFrom lists s' text), String.ofList order, ?_,
    String.toList_ofList, fun h => by rw [hnone h]⟩
  rw [← String.toList_inj]
  simp only [text_requoted, Dialect.quotePrefixes, String.toList_append, String.toList_ofList,
    htext, List.append_assoc]
  rw [hcore, hop, horder]
  simp [lists, core]

/-- The page of a select is cut from its rows where they are numbered, and
asked for by a clause behind it elsewhere. -/
theorem page_behind_or_around (hd : d.Shipped) (hnames : ∀ name ∈ names, ' ' ∉ name.toList)
    {page : Page} (hpage : page.isPartial = true)
    (htop : d.topRows = false ∨ page.offset.isSome = true) {ordered : Bool}
    (hlast : innerPageClause d.constructs page ordered = .ok parts.page) {p : Draft}
    (haround : aroundSelect d.constructs (.requoted names (select parts)) page = .ok p)
    (c : Collector) :
    let whole := Draft.requoted names (select parts.unpaged)
    if d.rowNumbers then
      SqlTree.numberRows (whole.text d c) page (whole.after c) = .ok (p.text d c) (p.after c)
    else ∃ clause, clause ≠ "" ∧
      d.pageClause page ordered (whole.after c) = .ok clause (p.after c) ∧
      p.text d c = whole.text d c ++ " " ++ clause := by
  intro whole
  by_cases hrow : d.rowNumbers = true
  · have hrow' : d.constructs.rowNumbers = true := hrow
    have hempty : code "" = parts.page := by
      rw [innerPageClause, Constructs.innerPage, if_pos hrow'] at hlast
      exact Except.ok.inj hlast
    have hwhole : whole = .requoted names (select parts) := by
      change Draft.requoted names (select { parts with page := code "" }) = _
      rw [hempty]
    rw [if_pos hrow, hwhole]
    rw [aroundSelect, if_pos hrow'] at haround
    refine Collecting.eq_ok_of_effect ?_
    rw [effect_numberRows, haround]
    rfl
  · have hrow' : ¬d.constructs.rowNumbers = true := hrow
    have hasks : d.constructs.asksBehind page = true := by
      have hinner : (d.constructs.innerPage page).isPartial = true := by
        rwa [Constructs.innerPage, if_neg hrow']
      have hhead : (d.constructs.topRows && page.offset.isNone) = false := by
        obtain h | h := htop
        · rw [show d.constructs.topRows = false from h, Bool.false_and]
        · simp [h]
      rw [Constructs.asksBehind, hinner, hhead]
      rfl
    have hclause : parts.page.IsPage := innerPageClause_isPage hd hasks ordered _ hlast
    rw [innerPageClause, Constructs.innerPage, if_neg hrow', if_pos hpage] at hlast
    rw [aroundSelect, if_neg hrow'] at haround
    obtain rfl := Except.ok.inj haround
    have hafter : (requoted names (select parts)).after c = parts.page.after (whole.after c) :=
      after_unpaged parts c
    rw [if_neg hrow]
    refine ⟨parts.page.text d (whole.after c), hclause.text_ne_empty _,
      Collecting.eq_ok_of_effect ?_, text_requoted_page hnames hclause c⟩
    rw [effect_pageClause, hlast, hafter]
    rfl

end Draft

/-! ## Main result -/

/-- Where the page of a select `s` combined with `other` stands in the text
`sql` that it compiles to, from the collector `c` to `c'`.  The select
without the page gives the text `whole`: its core without the combination,
the operator, the other select and the order.  The page is cut from the
numbered rows of `whole`, or asked for by a clause behind it. -/
def Select.PagesWhole (d : Dialect) (s : Select) (op : SetOperation) (other : Select)
    (c : Collector) (sql : String) (c' : Collector) : Prop :=
  ∃ whole c₁, answer (s.unpaged.compileInto d c) = .ok whole ∧
    (left (s.unpaged.compileInto d c)).2 = c₁ ∧
    (if d.rowNumbers then numberRows whole s.page c₁ = .ok sql c'
      else ∃ clause, clause ≠ "" ∧ d.pageClause s.page (!s.orderBy.isEmpty) c₁ = .ok clause c' ∧
        sql = whole ++ " " ++ clause) ∧
    ∃ core c₀ text position operand order,
      answer ((s.vary none [] .all).compileInto d c) = .ok core ∧
      (left ((s.vary none [] .all).compileInto d c)).2 = c₀ ∧
      answer (other.compileInto d c₀) = .ok text ∧
      operand.toList = d.quotePrefixesFrom (s.names.map String.toList) position text.toList ∧
      whole = core ++ " " ++ op.keyword ++ " " ++ operand ++ order ∧ (s.orderBy = [] → order = "")

namespace Select

variable {d : Dialect} {s other : Select} {op : SetOperation}

theorem blank_not_mem_names (s : Select) : ∀ name ∈ s.names, ' ' ∉ name.toList := fun name hname =>
  not_mem_of_isName (by simpa using isName_knownNames s.origin? s.joins name hname) (by decide)

/-- The draft of a select whose page does not stand in its head. -/
theorem pagesWhole_of_draft (hd : d.Shipped) (hcoherent : s.Coherent)
    (hcombined : s.combined? = some (op, other)) (hpage : s.page.isPartial = true)
    (htop : d.topRows = false ∨ s.offset.isSome = true) {p : Draft}
    (hp : s.draft d.constructs = .ok p) (c : Collector) :
    s.PagesWhole d op other c (p.text d c) (p.after c) := by
  obtain ⟨parts, hmade, haround⟩ := exists_madeOf hp
  have hnames := s.blank_not_mem_names
  obtain ⟨q, hq, hparts⟩ := exists_combinedDraft (hcombined ▸ hmade.combined)
  have hall : d.constructs.headPage s.page = .all := Constructs.headPage_eq_all htop
  have hhead := (Draft.columnHead_headPage d.constructs s.quantifier s.page).trans hmade.head
  obtain ⟨hnone, haroundAll⟩ := Draft.page_headPage hd s.page (!s.orderBy.isEmpty)
  rw [hall] at hhead hnone haroundAll
  -- the select without its page, and its core
  have hunpaged : s.unpaged.draft d.constructs =
      .ok (.requoted s.names (Draft.select parts.unpaged)) := by
    rw [unpaged_eq_vary, (hmade.vary hhead hmade.combined hnone).draft, ← hmade.orderBy]
    exact haroundAll _
  have hcore := hmade.core hd
  rw [Select.core, hall] at hcore
  obtain ⟨hwhole, hleft⟩ :=
    compileInto_of_draft hd (coherent_unpaged hcoherent) hunpaged c
  obtain ⟨hcoreText, hcoreLeft⟩ := compileInto_of_draft hd
    (coherent_vary hcoherent combinedCoherent_none [] .all) hcore c
  obtain ⟨hotherText, -⟩ := compileInto_of_draft hd (coherent_other hcoherent hcombined) hq
    ((Draft.select parts.core).after c)
  obtain ⟨position, operand, order, htext, hoperand, hnoOrder⟩ :=
    Draft.exists_text_combined (d := d) hnames hparts.symm c
  refine ⟨_, _, hwhole, hleft, ?_, _, _, _, position, operand, order, hcoreText, hcoreLeft,
    hotherText, hoperand, htext, fun h => hnoOrder (hmade.orderBy.trans h)⟩
  exact Draft.page_behind_or_around hd hnames hpage htop hmade.page haround c

end Select

/-! ## Steps of histories -/

/-- A new select is reached. -/
theorem Reachable.new : Reachable .select Select.empty :=
  .made .select (List.forall_mem_nil _) rfl

section

variable {k m : Kind} {n : Node k} {used : Node m} {b : Builder k}

/-- A builder that uses no other node is a step of a history. -/
theorem Reachable.built (hn : Reachable k n) (huses : (Call.build b).uses = []) :
    Reachable k ((Call.build b).act n) :=
  .called .here (.build b) hn (huses ▸ List.forall_mem_nil _)

/-- A builder that uses one other node is a step of its history. -/
theorem Reachable.built_using (hn : Reachable k n) (hused : Reachable m used)
    (huses : (Call.build b).uses = [⟨m, used⟩]) : Reachable k ((Call.build b).act n) :=
  .called .here (.build b) hn (huses ▸ List.forall_mem_singleton.2 hused)

end

/-- Combining is a step of a history. -/
theorem Reachable.combine {s other : Select} (hs : Reachable .select s)
    (hother : Reachable .select other) (op : SetOperation) :
    Reachable .select ((Call.build (.combine op other)).act s) :=
  hs.built_using hother rfl

/-- A select from a table is reached. -/
theorem Reachable.fromTable (name : String) :
    Reachable .select ((Call.build (.fromTable name)).act Select.empty) :=
  .built .new rfl

/-- Whatever has been done to a select before, when it is combined with
another one and has a page, its page cuts what both give together, by itself
and as a part of something else.  Where a limit stands before the columns
there must be an offset. -/
theorem Reachable.pages_combination {s other : Select} {op : SetOperation}
    (h : Reachable .select s) (hcombined : s.combined? = some (op, other))
    (hpage : s.page.isPartial = true) {d : Dialect} (hd : d.Shipped)
    (htop : d.topRows = false ∨ s.offset.isSome = true) :
    (∀ sql, answer (s.compile d) = .ok sql →
      ∃ c', Node.collector? .select (left (s.compile d)) = some c' ∧
        s.PagesWhole d op other (.empty d.style) sql c') ∧
    ∀ c sql, answer (s.compileInto d c) = .ok sql →
      s.PagesWhole d op other c sql (left (s.compileInto d c)).2 := by
  have hcoherent : s.Coherent := h.coherent
  refine ⟨fun sql hsql => ?_, fun c sql hsql => ?_⟩
  · obtain ⟨p, hp, rfl, hcollector⟩ := Node.draft_of_compile (k := .select) hd h.coherent hsql
    exact ⟨_, hcollector, Select.pagesWhole_of_draft hd hcoherent hcombined hpage htop hp _⟩
  · have hdraft := (Node.answer_compileInto (k := .select) hd h.coherent c).symm.trans hsql
    obtain ⟨p, hp, rfl⟩ := exists_of_map_eq_ok hdraft
    rw [(Select.compileInto_of_draft hd hcoherent hp c).2]
    exact Select.pagesWhole_of_draft hd hcoherent hcombined hpage htop hp c

/-- Two tables are combined, and of both the rows after the first five are
asked for. -/
theorem Reachable.pages_combination_of_offset :
    let called (b : Builder .select) (s : Select) : Select := (Call.build b).act s
    let other : Select := called (.fromTable "b") Select.empty
    let s : Select := called (.offset (some 5)) (called (.combine .union other)
      (called (.fromTable "a") Select.empty))
    let sql := "SELECT * FROM [a] UNION SELECT * FROM [b] ORDER BY (SELECT NULL) OFFSET :offset1 ROWS"
    Reachable .select s ∧ s.combined? = some (.union, other) ∧ s.page.isPartial = true ∧
      Dialect.sqlServer.Shipped ∧ s.offset.isSome = true ∧
      answer (s.compile Dialect.sqlServer) = .ok sql ∧
      ∃ c', s.PagesWhole Dialect.sqlServer .union other (.empty .named) sql c' := by
  intro called other s sql
  have hs : Reachable .select s :=
    .built ((Reachable.fromTable "a").combine (.fromTable "b") .union) rfl
  have hsql : answer (s.compile Dialect.sqlServer) = .ok sql := by
    refine eq_ok_of_toOption ?_
    simp only [s, sql, called, other]
    decide +kernel
  obtain ⟨c', -, hpages⟩ :=
    (Reachable.pages_combination hs rfl rfl .sqlServer (.inr rfl)).1 sql hsql
  exact ⟨hs, rfl, rfl, .sqlServer, rfl, hsql, c', hpages⟩

/-! ## Limits before the columns -/

/-- A limit that stands before the columns of a combined select stands
before those of the first operand.  Nothing of it is written behind the other
select. -/
theorem Reachable.limits_first_operand {s other : Select} {op : SetOperation}
    (h : Reachable .select s) (hcombined : s.combined? = some (op, other)) {d : Dialect}
    (hd : d.Shipped) (htop : d.topRows = true) (hoffset : s.offset = none) {c : Collector}
    {sql : String} (hsql : answer (s.compileInto d c) = .ok sql) :
    ∃ first c₀ text position operand order,
      answer ((s.vary none [] s.page).compileInto d c) = .ok first ∧
      (left ((s.vary none [] s.page).compileInto d c)).2 = c₀ ∧
      answer (other.compileInto d c₀) = .ok text ∧
      operand.toList = d.quotePrefixesFrom (s.names.map String.toList) position text.toList ∧
      sql = first ++ " " ++ op.keyword ++ " " ++ operand ++ order ∧
      (s.orderBy = [] → order = "") := by
  have hcoherent : s.Coherent := h.coherent
  have hdraft := (Node.answer_compileInto (k := .select) hd h.coherent c).symm.trans hsql
  obtain ⟨p, hp, rfl⟩ := exists_of_map_eq_ok hdraft
  obtain ⟨parts, hmade, haround⟩ := Select.exists_madeOf hp
  obtain ⟨q, hq, hparts⟩ := Select.exists_combinedDraft (hcombined ▸ hmade.combined)
  have hall : d.constructs.headPage s.page = s.page :=
    if_pos (Bool.and_eq_true_iff.2 ⟨htop, Option.isNone_iff_eq_none.2 hoffset⟩)
  obtain ⟨hnone, haroundAll⟩ := Draft.page_headPage hd s.page (!s.orderBy.isEmpty)
  rw [hall] at hnone haroundAll
  have hempty : Draft.code "" = parts.page := Except.ok.inj (hnone.symm.trans hmade.page)
  rw [haroundAll] at haround
  obtain rfl := Except.ok.inj haround
  have hwhole : parts = parts.unpaged := by rw [Draft.SelectParts.unpaged, hempty]
  have hfirst := hmade.core hd
  rw [Select.core, hall] at hfirst
  obtain ⟨hfirstText, hfirstLeft⟩ := Select.compileInto_of_draft hd
    (Select.coherent_vary hcoherent Select.combinedCoherent_none [] s.page) hfirst c
  obtain ⟨hotherText, -⟩ := Select.compileInto_of_draft hd
    (Select.coherent_other hcoherent hcombined) hq ((Draft.select parts.core).after c)
  obtain ⟨position, operand, order, htext, hoperand, hnoOrder⟩ :=
    Draft.exists_text_combined (d := d) s.blank_not_mem_names hparts.symm c
  rw [hwhole]
  exact ⟨_, _, _, position, operand, order, hfirstText, hfirstLeft, hotherText, hoperand, htext,
    fun h => hnoOrder (hmade.orderBy.trans h)⟩

/-- Of a limit and two tables, the limit goes with the first table, and not
with what both give together. -/
theorem Reachable.limits_first_operand_of_top :
    let called (b : Builder .select) (s : Select) : Select := (Call.build b).act s
    let other : Select := called (.fromTable "b") Select.empty
    let s : Select := called (.limit (some 1)) (called (.combine .union other)
      (called (.fromTable "a") Select.empty))
    let sql := "SELECT TOP (:limit1) * FROM [a] UNION SELECT * FROM [b]"
    Reachable .select s ∧ s.combined? = some (.union, other) ∧ s.page.isPartial = true ∧
      Dialect.sqlServer.Shipped ∧ answer (s.compile Dialect.sqlServer) = .ok sql ∧
      answer ((s.vary none [] s.page).compile Dialect.sqlServer) =
        .ok "SELECT TOP (:limit1) * FROM [a]" ∧
      ∀ c', ¬ s.PagesWhole Dialect.sqlServer .union other (.empty .named) sql c' := by
  intro called other s sql
  have hs : Reachable .select s :=
    .built ((Reachable.fromTable "a").combine (.fromTable "b") .union) rfl
  have hsql : answer (s.compile Dialect.sqlServer) = .ok sql := by
    refine eq_ok_of_toOption ?_
    simp only [s, sql, called, other]
    decide +kernel
  have hfirst : answer ((s.vary none [] s.page).compile Dialect.sqlServer) =
      .ok "SELECT TOP (:limit1) * FROM [a]" := by
    refine eq_ok_of_toOption ?_
    simp only [s, called, other]
    decide +kernel
  have hunpaged : answer (s.unpaged.compileInto Dialect.sqlServer (.empty .named)) =
      .ok "SELECT * FROM [a] UNION SELECT * FROM [b]" := by
    refine eq_ok_of_toOption ?_
    simp only [s, called, other]
    decide +kernel
  refine ⟨hs, rfl, rfl, .sqlServer, hsql, hfirst, fun c' hpages => ?_⟩
  obtain ⟨whole, c₁, hwhole, -, hpage, -⟩ := hpages
  obtain rfl := Except.ok.inj (hunpaged.symm.trans hwhole)
  obtain ⟨clause, -, -, hclause⟩ := hpage
  have hat : sql.toList[7]? = some 'T' := by decide +kernel
  rw [hclause, String.append_assoc, String.toList_append,
    List.getElem?_append_left (by decide)] at hat
  exact absurd hat (by decide)

end SqlTree
