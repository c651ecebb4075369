import SqlTree.Proofs.Combined.Core
import SqlTree.Proofs.Combined.Page
import SqlTree.Proofs.Grouping.Node

/-!
# SqlTree.Proofs.Combined.Scope

How the text of a combined select is read.  The other select stands there
without parentheses, so what it is combined with and what orders or cuts its
rows is read as a part of the whole.  From the select alone it can be told
what there is of that (`Select.outline`), and from this whether the other
select keeps its scope (`Reachable.reads_combination`).
-/

namespace SqlTree

variable {d : Dialect}

/-! ## Outlines of selects -/

/-- Something is written at the end of the select. -/
def Select.trails (k : Constructs) (s : Select) : Bool := !s.orderBy.isEmpty || k.asksBehind s.page

mutual

/-- The outline of the chain that a select is read as. -/
def Select.outline (k : Constructs) : Select → Outline
  | ⟨_, _, _, _, _, _, _, _, combined?, orderBy, limit, offset, _, _, _, _⟩ =>
    let page : Page := ⟨limit, offset⟩
    if k.rowNumbers && page.isPartial then .single
    else (combinedOutline k combined?).andTail (!orderBy.isEmpty || k.asksBehind page)

/-- The outline of what is written behind the core of a select. -/
def combinedOutline (k : Constructs) : Option (SetOperation × Select) → Outline
  | none => .single
  | some (op, s) => (s.outline k).behind op

end

/-! ## Words of selects -/

theorem Signal.ofWord?_unprefixed (w : List Char) : ofWord? (unprefixed w) = ofWord? w := by
  unfold unprefixed
  split
  · next hdot =>
    rw [ofWord?_eq_none hdot (by decide), ofWord?_eq_none List.mem_cons_self (by decide)]
  · rfl

theorem QuietText.areQuiet {s : String} (h : QuietText d s.toList) : AreQuiet (plainWords d s) := by
  refine List.forall_mem_map.2 fun w hw => ?_
  rw [Signal.ofWord?_unprefixed]
  exact h.quiet w hw

/-- The words of a select that begins as all of them do. -/
def BeginsSelect (ws : List (List Char)) : Prop := ws.head? = some ['S', 'E', 'L', 'E', 'C', 'T']

theorem BeginsSelect.not_isAll {ws : List (List Char)} (h : BeginsSelect ws) :
    ∀ w, (Chain.ofWords ws).first.head? = some w → isAll w = false := by
  obtain ⟨vs, rfl⟩ := List.head?_eq_some_iff.1 h
  have hselect : AreQuiet [['S', 'E', 'L', 'E', 'C', 'T']] :=
    List.forall_mem_singleton.2 (by decide)
  intro w hw
  rw [← List.singleton_append, Chain.ofWords_append_quiet hselect, List.singleton_append,
    List.head?_cons, Option.some.injEq] at hw
  rw [← hw]
  decide

namespace Draft

/-- However it is written, the text of the draft is read as a chain with this
outline. -/
def Outlined (d : Dialect) (o : Outline) (p : Draft) : Prop := ∀ c,
  (Chain.ofWords (plainWords d (p.text d c))).outline = o ∧ BeginsSelect (plainWords d (p.text d c))

/-- The text of the draft is what stands at the end of a select, or nothing. -/
def Ends (d : Dialect) (trails : Bool) (p : Draft) : Prop := ∀ c,
  if trails then ∃ word ∈ endKeywords, ∃ rest, p.text d c = " " ++ word ++ " " ++ rest
  else p.text d c = ""

variable (hd : d.QuotesStandOut)
include hd

theorem beginsSelect_text {p : Draft} {c : Collector} {rest : String}
    (h : p.text d c = "SELECT " ++ rest) : BeginsSelect (plainWords d (p.text d c)) := by
  have hselect : "SELECT " = "SELECT" ++ " " := rfl
  rw [h, hselect, plainWords_code hd (by decide)]
  rfl

theorem plainWords_requoted {names : List String} (hnames : ∀ name ∈ names, isName name = true)
    (p : Draft) (c : Collector) :
    plainWords d ((requoted names p).text d c) = plainWords d (p.text d c) := by
  rw [text_requoted, plainWords_quotePrefixes hd hnames]

/-- No prefix that is quoted makes the core of a select say more. -/
theorem SelectParts.Settled.areQuiet_core {parts : SelectParts} (h : parts.Settled d)
    {names : List String} (hnames : ∀ name ∈ names, isName name = true) (c : Collector) :
    AreQuiet (plainWords d ((requoted names (select parts.core)).text d c)) := by
  rw [plainWords_requoted hd hnames]
  exact (h.core_quiet hd c).areQuiet

theorem Ends.words {trails : Bool} {p : Draft} (h : Ends d trails p) (c : Collector) :
    StandsApart (p.text d c).toList ∧ AreTail (plainWords d (p.text d c)) ∧
      (plainWords d (p.text d c)).isEmpty = !trails := by
  have htext := h c
  cases trails with
  | false =>
    rw [if_neg (by decide)] at htext
    have hwords : plainWords d "" = [] := rfl
    rw [htext, hwords]
    exact ⟨.inl rfl, by simp [AreTail], rfl⟩
  | true =>
    rw [if_pos rfl] at htext
    obtain ⟨word, hword, rest, htext⟩ := htext
    have hone : isCode word = true ∧
        ∃ w, (SqlTree.words word.toList).map unprefixed = [w] ∧ Signal.ofWord? w = some .tail := by
      simp only [endKeywords, List.mem_cons, List.not_mem_nil, or_false] at hword
      rcases hword with rfl | rfl | rfl <;> exact ⟨by decide, _, rfl, by decide⟩
    obtain ⟨hcode, w, hw, htail⟩ := hone
    have hwords : plainWords d (p.text d c) = w :: plainWords d rest := by
      rw [htext, String.append_assoc, String.append_assoc, plainWords_blank hd,
        ← String.append_assoc, plainWords_code hd hcode, hw]
      rfl
    rw [hwords]
    refine ⟨.inr ⟨(word ++ " " ++ rest).toList, ?_⟩, fun v hv => ?_, rfl⟩
    · rw [htext]
      simp
    · rw [List.head?_cons, Option.some.injEq] at hv
      rw [← hv, htail]

end Draft

/-- Numbering rows begins another select. -/
theorem Draft.numberRows_begins {p : Draft} {page : Page} (hpage : page.isPartial = true) :
    Yields (fun q => ∀ d c, ∃ rest, q.text d c = "SELECT " ++ rest) (Draft.numberRows p page) := by
  have hbegins (q : Draft) (d : Dialect) (c : Collector) :
      ∃ rest, (Draft.code "SELECT * FROM " ++ q).text d c = "SELECT " ++ rest :=
    ⟨"* FROM " ++ q.text d c, by rw [← String.append_assoc]; rfl⟩
  obtain ⟨_ | n, _ | m⟩ := page
  case none.none => cases hpage
  case none.some | some.none => exact .bind_any fun _ => .ok (hbegins _)
  case some.some => exact .bind_any fun _ => .bind_any fun _ => .ok (hbegins _)

/-- An operator between blanks has its words. -/
theorem plainWords_operation (hd : d.QuotesStandOut) (op : SetOperation) (sql : String) :
    plainWords d (" " ++ op.keyword ++ " " ++ sql) = op.words ++ plainWords d sql := by
  have hcode : isCode op.keyword = true := by cases op <;> decide
  have hwords : (words op.keyword.toList).map unprefixed = op.words := by cases op <;> rfl
  rw [String.append_assoc, String.append_assoc, plainWords_blank hd, ← String.append_assoc,
    plainWords_code hd hcode, hwords]

namespace Select

variable {s : Select} {parts : Draft.SelectParts}

namespace MadeOf

/-- The order and the page stand at the end. -/
theorem tail_ends (h : s.MadeOf d.constructs parts) (hd : d.Shipped) :
    (Draft.orderBy parts.orderBy ++ Draft.spaced parts.page).Ends d (s.trails d.constructs) := by
  intro c
  have hpage := h.page
  rw [h.orderBy, Draft.text_append, trails]
  cases horder : s.orderBy with
  | cons t ts =>
    let terms := (Draft.joined ", " ((t :: ts).map Draft.orderTerm)).text d c
    have hterms : (Draft.orderBy (t :: ts)).text d c =
        " " ++ "ORDER" ++ " " ++ ("BY " ++ terms) := by
      have hkeyword : " ORDER BY " = " " ++ "ORDER" ++ " " ++ "BY " := rfl
      rw [Draft.orderBy, Draft.termList, if_neg (by simp), Draft.text_append, Draft.text_code,
        hkeyword, String.append_assoc]
      rfl
    let last := (Draft.spaced parts.page).text d ((Draft.orderBy (t :: ts)).after c)
    exact ⟨"ORDER", by decide, "BY " ++ terms ++ last, by rw [hterms, String.append_assoc]⟩
  | nil =>
    have hnone : (Draft.orderBy []).text d c = "" ∧ (Draft.orderBy []).after c = c := ⟨rfl, rfl⟩
    rw [hnone.1, hnone.2, String.empty_append, List.isEmpty_nil, Bool.not_true, Bool.false_or,
      Draft.text_spaced]
    split
    · next hasks =>
      have hclause := Draft.innerPageClause_isPage hd hasks _ _ hpage
      obtain ⟨word, hword, rest, htext⟩ := hclause.leads d c
      refine ⟨word, hword, rest, ?_⟩
      rw [SqlTree.spaced, if_neg (hclause.text_ne_empty c), htext]
      simp only [String.append_assoc]
    · next hasks =>
      rw [Draft.innerPageClause_of_not_asksBehind hd (Bool.eq_false_iff.2 hasks)] at hpage
      rw [← Except.ok.inj hpage]
      rfl

/-- The words of a select are those of its core, of the combination and of
what stands at the end. -/
theorem plainWords_text (h : s.MadeOf d.constructs parts) (hd : d.Shipped)
    (hquotes : d.QuotesStandOut) (hparts : parts.Settled d) (c : Collector) :
    ∃ tail, AreTail tail ∧ tail.isEmpty = !s.trails d.constructs ∧
      plainWords d ((Draft.requoted s.names (Draft.select parts)).text d c) =
        plainWords d ((Draft.requoted s.names (Draft.select parts.core)).text d c) ++
          plainWords d (parts.combined.text d ((Draft.select parts.core).after c)) ++ tail := by
  let last := Draft.orderBy parts.orderBy ++ Draft.spaced parts.page
  let c₁ := (Draft.select parts.core).after c
  obtain ⟨hapart, htail, hnil⟩ := (h.tail_ends hd).words hquotes (parts.combined.after c₁)
  refine ⟨_, htail, hnil, ?_⟩
  have htext : (Draft.select parts).text d c = (Draft.select parts.core).text d c ++
      (parts.combined.text d c₁ ++ last.text d (parts.combined.after c₁)) := by
    rw [Draft.text_select_core]
    simp only [last, c₁, Draft.text_append, Draft.text_orderBy, Draft.text_spaced,
      Draft.after_orderBy]
  have hcombined : StandsApart (parts.combined.text d c₁).toList := by
    have hdraft := h.combined
    cases hs : s.combined? with
    | none =>
      rw [hs, combinedDraft] at hdraft
      rw [← Except.ok.inj hdraft]
      exact .inl rfl
    | some t =>
      obtain ⟨op, other⟩ := t
      obtain ⟨q, -, hq⟩ := exists_combinedDraft (hs ▸ hdraft)
      rw [← hq]
      exact .inr ⟨(op.keyword ++ " " ++ q.text d c₁).toList, by simp⟩
  rw [Draft.plainWords_requoted hquotes s.isName_names,
    Draft.plainWords_requoted hquotes s.isName_names, htext,
    plainWords_append hquotes ((hparts.core_quiet hquotes).closed c)
      (by rw [String.toList_append]; exact hcombined.append hapart),
    plainWords_append hquotes (hparts.combined c₁) hapart, List.append_assoc]

end MadeOf

theorem mem_raws_of_mem_combinedRaws {s : Select} {raw : RawSql}
    (h : raw ∈ combinedRaws s.combined?) : raw ∈ s.raws := by
  cases s
  simp only [raws, List.mem_append]
  exact .inr (.inr (.inr (.inr (.inr (.inr (.inl h))))))

theorem outline_eq (k : Constructs) (s : Select) : s.outline k =
    if k.rowNumbers && s.page.isPartial then .single
    else (combinedOutline k s.combined?).andTail (s.trails k) := by
  cases s
  rw [outline]
  rfl

/-- Around the select or behind its core, its text is read with the outline of
the select, if that of what it is combined with is. -/
theorem draft_outlined_of (hd : d.Shipped) (hquotes : d.QuotesStandOut)
    (hparts : ∀ parts, s.MadeOf d.constructs parts → parts.Settled d)
    (hcombined : Yields (fun p => ∀ c, (Chain.ofWords (plainWords d (p.text d c))).outline =
      combinedOutline d.constructs s.combined?) (combinedDraft d.constructs s.combined?)) :
    Yields (Draft.Outlined d (s.outline d.constructs)) (s.draft d.constructs) := by
  intro p hp
  obtain ⟨parts, hmade, haround⟩ := exists_madeOf hp
  have hsettled := hparts parts hmade
  let whole := Draft.requoted s.names (Draft.select parts)
  have hbegins (c : Collector) : BeginsSelect (plainWords d (whole.text d c)) := by
    rw [Draft.plainWords_requoted hquotes s.isName_names]
    exact Draft.beginsSelect_text hquotes rfl
  have hinside : Draft.Outlined d
      ((combinedOutline d.constructs s.combined?).andTail (s.trails d.constructs)) whole := by
    refine fun c => ⟨?_, hbegins c⟩
    obtain ⟨tail, htail, hnil, hwords⟩ := hmade.plainWords_text hd hquotes hsettled c
    rw [hwords, Chain.outline_append_tail htail,
      Chain.outline_append_quiet (hsettled.areQuiet_core hquotes s.isName_names c),
      hcombined _ hmade.combined, hnil, Bool.not_not]
  rw [outline_eq]
  by_cases h : (d.constructs.rowNumbers && s.page.isPartial) = true
  · obtain ⟨hrow, hpage⟩ := Bool.and_eq_true_iff.1 h
    rw [Draft.aroundSelect, if_pos hrow] at haround
    have hclosed := (hsettled.closed hquotes).requoted hquotes s.isName_names
    have hquiet := Draft.numberRows_quiet hquotes hpage hclosed p haround
    rw [if_pos h]
    refine fun c => ⟨Chain.outline_of_quiet (hquiet c).areQuiet, ?_⟩
    obtain ⟨rest, hrest⟩ := Draft.numberRows_begins hpage p haround d c
    exact Draft.beginsSelect_text hquotes hrest
  · rw [Draft.aroundSelect_eq_ok h] at haround
    rw [if_neg h, ← Except.ok.inj haround]
    exact hinside

section

variable (hd : d.Shipped) (hquotes : d.QuotesStandOut)
include hd hquotes

-- only selects use `hd` themselves, combinations hand it down to them
set_option linter.unusedSectionVars false in
mutual

/-- The text of a select is read with the outline of the select. -/
theorem draft_outlined : (s : Select) → (∀ raw ∈ s.raws, raw.KeepsToItself d) →
    Yields (Draft.Outlined d (s.outline d.constructs)) (s.draft d.constructs)
  | ⟨_, _, _, _, _, _, _, _, combined?, _, _, _, _, _, _, _⟩, h =>
    draft_outlined_of hd hquotes (Select.parts_settled hquotes hd.plain _ h)
      (combinedDraft_outlined combined? fun raw hraw => h raw (mem_raws_of_mem_combinedRaws hraw))

theorem combinedDraft_outlined : (combined? : Option (SetOperation × Select)) →
    (∀ raw ∈ combinedRaws combined?, raw.KeepsToItself d) →
    Yields (fun p => ∀ c, (Chain.ofWords (plainWords d (p.text d c))).outline =
      combinedOutline d.constructs combined?) (combinedDraft d.constructs combined?)
  | none, _ => by
    rw [combinedDraft]
    exact .ok fun _ => rfl
  | some (op, s), h => by
    rw [combinedRaws] at h
    rw [combinedDraft]
    refine (draft_outlined s h).map fun p hp c => ?_
    obtain ⟨houtline, hbegins⟩ := hp c
    rw [Draft.text_append, Draft.text_code, Draft.after_code, plainWords_operation hquotes,
      Chain.outline_operation op hbegins.not_isAll, houtline, combinedOutline]

end

end

end Select

/-! ## Main result -/

/-- How the text `sql`, that a select `s` combined with `other` compiles to from
the collector `c` to `c'`, is read.  Before its rows may be numbered it is
`whole`: the core of the select, the operator, the other select, and the order
and the page if there are any.  It is read as the core combined with a query `q`
just if what the other select is made of fits behind the operator, and then `q`
is what the other select is read as by itself. -/
def Select.ReadsCombined (d : Dialect) (s : Select) (op : SetOperation) (other : Select)
    (c : Collector) (sql : String) (c' : Collector) : Prop :=
  ∃ whole c₁, answer ((s.inner d).compileInto d c) = .ok whole ∧
    (left ((s.inner d).compileInto d c)).2 = c₁ ∧ d.aroundSelect whole s.page c₁ = .ok sql c' ∧
    ∃ core c₀ operand tail,
      answer ((s.core d).compileInto d c) = .ok core ∧
      (left ((s.core d).compileInto d c)).2 = c₀ ∧
      answer (other.compileInto d c₀) = .ok operand ∧
      plainWords d whole = plainWords d core ++ op.words ++ plainWords d operand ++ tail ∧
      tail.isEmpty = !s.trails d.constructs ∧
      readWords (plainWords d core) = .core (plainWords d core) ∧
      ∀ q, readWords (plainWords d whole) =
          (Query.combined op (.core (plainWords d core)) q).withTail tail ↔
        (other.outline d.constructs).FitsBehind op ∧ q = readWords (plainWords d operand)

theorem Select.readsCombined_of_draft {s other : Select} {op : SetOperation} (hd : d.Shipped)
    (hquotes : d.QuotesStandOut) (hcoherent : s.Coherent)
    (hraws : ∀ raw ∈ s.raws, raw.KeepsToItself d) (hcombined : s.combined? = some (op, other))
    {p : Draft} (hp : s.draft d.constructs = .ok p) (c : Collector) :
    s.ReadsCombined d op other c (p.text d c) (p.after c) := by
  obtain ⟨parts, hmade, haround⟩ := exists_madeOf hp
  have hsettled := s.parts_settled hquotes hd.plain hraws parts hmade
  obtain ⟨q, hq, hparts⟩ := exists_combinedDraft (hcombined ▸ hmade.combined)
  have hother : ∀ raw ∈ other.raws, raw.KeepsToItself d := fun raw hraw =>
    hraws raw (mem_raws_of_mem_combinedRaws (by rwa [hcombined, combinedRaws]))
  let core := Draft.requoted s.names (Draft.select parts.core)
  let whole := Draft.requoted s.names (Draft.select parts)
  obtain ⟨hwhole, hleft⟩ := compileInto_of_draft hd (coherent_inner hcoherent) hmade.inner c
  obtain ⟨hcoreText, hcoreLeft⟩ := compileInto_of_draft hd
    (coherent_vary hcoherent combinedCoherent_none [] _) (hmade.core hd) c
  obtain ⟨hotherText, -⟩ := compileInto_of_draft hd (coherent_other hcoherent hcombined) hq
    ((Draft.select parts.core).after c)
  obtain ⟨tail, htail, hnil, hwords⟩ := hmade.plainWords_text hd hquotes hsettled c
  obtain ⟨houtline, hbegins⟩ :=
    draft_outlined hd hquotes other hother q hq ((Draft.select parts.core).after c)
  have hquiet : AreQuiet (plainWords d (core.text d c)) :=
    hsettled.areQuiet_core hquotes s.isName_names c
  rw [← hparts, Draft.text_append, Draft.text_code, Draft.after_code,
    plainWords_operation hquotes, ← List.append_assoc] at hwords
  refine ⟨_, _, hwhole, hleft, ?_, _, _, _, tail, hcoreText, hcoreLeft, hotherText, hwords, hnil,
    readWords_of_quiet hquiet, fun query => ?_⟩
  · refine Collecting.eq_ok_of_effect ((Draft.effect_aroundSelect whole s.page c).trans ?_)
    rw [haround]
    rfl
  · rw [hwords, readWords_combined op hquiet hbegins.not_isAll htail, houtline]

/-- Whatever has been done to a select before it is combined with another one,
by itself and as a part of something else its text is read as the core of the
select combined with the other one just if that fits behind the operator: if it
has no order and no page at its end and is combined with others by operators
that bind tighter.  The order and the page of the select itself are read as
those of the combination.  Raw SQL must keep to itself, and the quotes of the
dialect must be no characters that SQL is made of. -/
theorem Reachable.reads_combination {s other : Select} {op : SetOperation}
    (h : Reachable .select s) (hcombined : s.combined? = some (op, other)) {d : Dialect}
    (hd : d.Shipped) (hquotes : d.QuotesStandOut)
    (hraws : ∀ raw ∈ Node.raws .select s, raw.KeepsToItself d) :
    (∀ sql, answer (s.compile d) = .ok sql →
      ∃ c', Node.collector? .select (left (s.compile d)) = some c' ∧
        s.ReadsCombined d op other (.empty d.style) sql c') ∧
    ∀ c sql, answer (s.compileInto d c) = .ok sql →
      s.ReadsCombined d op other c sql (left (s.compileInto d c)).2 := by
  have hcoherent : s.Coherent := h.coherent
  refine ⟨fun sql hsql => ?_, fun c sql hsql => ?_⟩
  · obtain ⟨p, hp, rfl, hcollector⟩ := Node.draft_of_compile (k := .select) hd h.coherent hsql
    exact ⟨_, hcollector,
      Select.readsCombined_of_draft hd hquotes hcoherent hraws hcombined hp _⟩
  · obtain ⟨p, hp, rfl, -⟩ := Node.draft_of_compileInto (k := .select) hd h.coherent hsql
    rw [(Select.compileInto_of_draft hd hcoherent hp c).2]
    exact Select.readsCombined_of_draft hd hquotes hcoherent hraws hcombined hp c

/-- The numbers of rows of a table and of what two others have in common are
put together, and of both the first one is taken.  The intersection keeps its
scope. -/
theorem Reachable.reads_combination_of_intersection :
    let called (b : Builder .select) (s : Select) : Select := (Call.build b).act s
    let fromTable (name : String) : Select := called (.fromTable name) Select.empty
    let count : Expression := ⟨"COUNT(\x7bcolumn\x7d)", [⟨"column", .identifier ⟨"id", rfl⟩⟩]⟩
    let counted (s : Select) : Select := called (.column (.expression count) none) s
    let other := called (.combine .intersect (fromTable "c")) (fromTable "b")
    let s := called (.limit (some 1)) (called (.combine .union other) (counted (fromTable "a")))
    let sql := "SELECT COUNT(\"id\") FROM \"a\" UNION SELECT * FROM \"b\" INTERSECT SELECT * FROM \"c\" LIMIT :limit1"
    Reachable .select s ∧ s.combined? = some (.union, other) ∧ Dialect.ansi.Shipped ∧
      Dialect.ansi.QuotesStandOut ∧ (∀ raw ∈ Node.raws .select s, raw.KeepsToItself Dialect.ansi) ∧
      answer (s.compile Dialect.ansi) = .ok sql ∧
      (other.outline Dialect.ansi.constructs).FitsBehind .union ∧
      ∃ c', s.ReadsCombined Dialect.ansi .union other (.empty .named) sql c' := by
  intro called fromTable count counted other s sql
  have hcount : Reachable .expression count := by
    have hfault : templateFault count.template (count.slots.map Slot.name) = none := by
      decide +kernel
    refine .made (.expression count.template count.slots) (List.forall_mem_nil _) ?_
    rw [Maker.make, Expression.make, checkTemplate, hfault]
    rfl
  have hcounted : Reachable .select (counted (fromTable "a")) :=
    (Reachable.fromTable "a").built_using hcount rfl
  have hother : Reachable .select other :=
    (Reachable.fromTable "b").combine (.fromTable "c") .intersect
  have hs : Reachable .select s := .built (hcounted.combine hother .union) rfl
  have hquotes : Dialect.ansi.QuotesStandOut :=
    Dialect.Shipped.quotesStandOut (.config .standard) (.head _)
  have hraws : Node.raws .select s = [.template "COUNT(\x7bcolumn\x7d)"] := rfl
  have hkeeps : ∀ raw ∈ Node.raws .select s, raw.KeepsToItself Dialect.ansi := by
    rw [hraws]
    refine List.forall_mem_singleton.2 ?_
    have hpieces : pieces "COUNT(\x7bcolumn\x7d)" =
        [.text ("COUNT".toList ++ ['(']), .slot "column".toList, .text [')']] := by decide
    exact .call hquotes hpieces (by decide) fun _ => rfl
  have hsql : answer (s.compile Dialect.ansi) = .ok sql := by
    refine eq_ok_of_toOption ?_
    simp only [s, sql, other, counted, count, fromTable, called]
    decide +kernel
  obtain ⟨c', -, hreads⟩ :=
    (Reachable.reads_combination hs rfl (.config .standard) hquotes hkeeps).1 sql hsql
  exact ⟨hs, rfl, .config .standard, hquotes, hkeeps, hsql, by decide, c', hreads⟩

/-- A table combined with the first row of another one compiles to the same
text as the first row of what both tables give together, and is read as the
latter. -/
theorem Reachable.widens_limit_of_operand :
    let called (b : Builder .select) (s : Select) : Select := (Call.build b).act s
    let fromTable (name : String) : Select := called (.fromTable name) Select.empty
    let first (s : Select) : Select := called (.limit (some 1)) s
    let combined (s other : Select) : Select := called (.combine .union other) s
    let sql := "SELECT * FROM \"a\" UNION SELECT * FROM \"b\" LIMIT :limit1"
    let operand := "SELECT * FROM \"b\" LIMIT :limit1"
    let table (name : List Char) : Query :=
      .core [['S', 'E', 'L', 'E', 'C', 'T'], ['*'], ['F', 'R', 'O', 'M'], name]
    let cut := [['L', 'I', 'M', 'I', 'T'], ":limit1".toList]
    Reachable .select (combined (fromTable "a") (first (fromTable "b"))) ∧
      Reachable .select (first (combined (fromTable "a") (fromTable "b"))) ∧
      answer ((combined (fromTable "a") (first (fromTable "b"))).compile Dialect.ansi) = .ok sql ∧
      answer ((first (combined (fromTable "a") (fromTable "b"))).compile Dialect.ansi) = .ok sql ∧
      answer ((first (fromTable "b")).compile Dialect.ansi) = .ok operand ∧
      readWords (plainWords Dialect.ansi operand) = .tailed (table "\"b\"".toList) cut ∧
      readWords (plainWords Dialect.ansi sql) =
        .tailed (.combined .union (table "\"a\"".toList) (table "\"b\"".toList)) cut ∧
      readWords (plainWords Dialect.ansi sql) ≠
        .combined .union (table "\"a\"".toList) (readWords (plainWords Dialect.ansi operand)) := by
  intro called fromTable first combined sql operand table cut
  have hread : readWords (plainWords Dialect.ansi sql) =
      .tailed (.combined .union (table "\"a\"".toList) (table "\"b\"".toList)) cut := by
    decide +kernel
  have hfirst : Reachable .select (first (fromTable "b")) := (Reachable.fromTable "b").built rfl
  refine ⟨(Reachable.fromTable "a").combine hfirst .union,
    .built ((Reachable.fromTable "a").combine (.fromTable "b") .union) rfl, eq_ok_of_toOption ?_,
    eq_ok_of_toOption ?_, eq_ok_of_toOption ?_, by decide +kernel, hread, ?_⟩
  · simp only [sql, fromTable, first, combined, called]
    decide +kernel
  · simp only [sql, fromTable, first, combined, called]
    decide +kernel
  · simp only [operand, fromTable, first, called]
    decide +kernel
  · rw [hread]
    exact fun h => by cases h

end SqlTree
