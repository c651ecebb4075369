import SqlTree.Proofs.Combined.Page
import SqlTree.Proofs.Grouping.Nesting
import SqlTree.Proofs.Paging.Bound

/-!
# SqlTree.Proofs.Paging.Parts

A select and the same select without its page.  They are made of the same
parts but for the head and the end (`Select.MadeOf.paged`), and open with the
same words (`Select.opening`).  A page at the end comes behind the text of
the select without it (`Draft.text_requoted_spaced`); a limit in the head
comes between the opening and the rest of that text
(`Select.MadeOf.exists_rest_behind_top`), since the limit has neither dots nor
quotes in it and prefixes behind it are quoted as they would be without it.
-/

namespace SqlTree

/-! ## Openings -/

/-- A character that has no part in quoting prefixes. -/
def isClear (c : Char) : Bool := isSyntax c && c != '.'

theorem isClear_of_isWordChar {c : Char} (h : isWordChar c = true) : isClear c = true := by
  have hdot : c ≠ '.' := by rintro rfl; cases h
  simp [isClear, isSyntax, isCodeChar, h, hdot]

/-- Markers are made of such characters. -/
theorem Collector.all_isClear_record (c : Collector) (b : Binding) :
    (c.record b.value b.type b.hint).1.toList.all isClear = true := by
  obtain hmark | ⟨w, hw, hword⟩ := c.record_eq_mark_or_word b
  · rw [hmark]
    decide
  · rw [hword, List.all_cons, Bool.and_eq_true, List.all_eq_true]
    exact ⟨by decide, fun x hx =>
      isClear_of_isWordChar (List.all_eq_true.1 (all_isWordChar_of_isWord hw) x hx)⟩

namespace Dialect

variable {d : Dialect}

/-- Where a limit may stand before the columns, names and values are quoted by
characters that stand out. -/
theorem Shipped.quotesStandOut_of_topRows (hd : d.Shipped) (h : d.topRows = true) :
    d.QuotesStandOut := by
  induction hd with
  | withConnection _ connection ih =>
    obtain ⟨connection?, hd⟩ := withConnection_eq _ connection
    rw [hd] at h ⊢
    exact { ih h with }
  | sqlServer => constructor <;> decide
  | _ => cases h

/-- A reader of them stays outside of quotes. -/
theorem passAll_of_isSyntax (hd : d.QuotesStandOut) {cs : List Char}
    (hcs : cs.all isSyntax = true) {c : Char} (hc : isSyntax c = true) (previous : Option Char) :
    Scan.passAll d (.outside previous) (cs ++ [c]) = .outside (some c) := by
  induction cs generalizing previous with
  | nil =>
    simp only [Scan.passAll, List.nil_append, List.foldl_cons, List.foldl_nil, Scan.pass,
      hd.closer?_of_isSyntax hc]
  | cons x cs ih =>
    obtain ⟨hx, hcs⟩ := Bool.and_eq_true_iff.1 hcs
    have hstep : Scan.pass d (.outside previous) x = .outside (some x) := by
      simp only [Scan.pass, hd.closer?_of_isSyntax hx]
    rw [List.cons_append, Scan.passAll, List.foldl_cons, hstep]
    exact ih hcs _

/-- What is made of them up to a blank is copied. -/
theorem quotePrefixesFrom_clear (hd : d.QuotesStandOut) {names : List (List Char)}
    (hnames : ∀ name ∈ names, ' ' ∉ name) {cs : List Char} (hcs : cs.all isClear = true)
    (previous : Option Char) (rest : List Char) :
    d.quotePrefixesFrom names (.outside previous) (cs ++ ' ' :: rest) =
      cs ++ ' ' :: d.quotePrefixesFrom names (.outside (some ' ')) rest := by
  have hdot : '.' ∉ cs := fun h => absurd (List.all_eq_true.1 hcs '.' h) (by decide)
  have hsyntax : cs.all isSyntax = true :=
    List.all_eq_true.2 fun c hc => (Bool.and_eq_true_iff.1 (List.all_eq_true.1 hcs c hc)).1
  rw [quotePrefixesFrom_stretch hnames (by decide) hdot rfl,
    passAll_of_isSyntax hd hsyntax (by decide)]

/-- A start of a text that is made of them is copied, and what follows it is
treated alike behind any such start. -/
theorem quotePrefixes_clear (hd : d.QuotesStandOut) {names : List String}
    (hnames : ∀ name ∈ names, ' ' ∉ name.toList) (rest : String) : ∃ rest',
      ∀ start : String, start.toList.all isClear = true →
        d.quotePrefixes names (start ++ " " ++ rest) = start ++ " " ++ rest' := by
  refine ⟨String.ofList (d.quotePrefixesFrom (names.map String.toList) (.outside (some ' '))
    rest.toList), fun start hstart => ?_⟩
  have hlists : ∀ name ∈ names.map String.toList, ' ' ∉ name := List.forall_mem_map.2 hnames
  have hcopied := quotePrefixesFrom_clear hd hlists hstart none rest.toList
  rw [← String.toList_inj]
  simpa [quotePrefixes, Scan.start] using hcopied

/-- In any dialect a start without dots is copied. -/
theorem exists_quotePrefixes_start {names : List String}
    (hnames : ∀ name ∈ names, ' ' ∉ name.toList) {start : String} (hdot : '.' ∉ start.toList)
    (rest : String) : ∃ rest',
      d.quotePrefixes names (start ++ " " ++ rest) = start ++ " " ++ rest' := by
  have hlists : ∀ name ∈ names.map String.toList, ' ' ∉ name := List.forall_mem_map.2 hnames
  have hcopied := quotePrefixesFrom_stretch (d := d) hlists (by decide) hdot (s := .start) rfl
    rest.toList
  refine ⟨String.ofList (d.quotePrefixesFrom (names.map String.toList)
    (Scan.passAll d .start (start.toList ++ [' '])) rest.toList), ?_⟩
  rw [← String.toList_inj]
  simpa [quotePrefixes] using hcopied

end Dialect

/-! ## Drafts -/

namespace Draft

variable {d : Dialect} {names : List String} {parts : SelectParts}

/-- A draft of an action that binds values, written from each collector. -/
theorem exists_of_binds {α β : Type} {action : Collecting α} {bs : List Binding}
    {markers : α → List String} {read : Collector → α → Option β} {value : β}
    (h : action.Binds bs markers read value) {f : Collector → α → String}
    {before : Collector → Collector} {plan : Except Error Draft}
    (heffect : ∀ c, Collecting.effect (f c <$> action) (before c) = (scribe d).effect plan c) :
    ∃ p, plan = .ok p ∧ ∀ c, ∃ a, p.text d c = f c a ∧ p.after c = (before c).bindAll bs ∧
      markers a = (before c).markersFor bs ∧
      ∀ later, read (((before c).bindAll bs).bindAll later) a = some value := by
  have hwritten (c : Collector) : ∃ a, (scribe d).effect plan c =
      .ok (f c a, (before c).bindAll bs) ∧ markers a = (before c).markersFor bs ∧
      ∀ later, read (((before c).bindAll bs).bindAll later) a = some value := by
    obtain ⟨a, hrun, ha⟩ := h (before c)
    refine ⟨a, ?_, ha⟩
    have hmap : (f c <$> action) (before c) = .ok (f c a) ((before c).bindAll bs) := by
      change EStateM.map (f c) action (before c) = _
      rw [EStateM.map, hrun]
    rw [← heffect, Collecting.effect, hmap]
  cases plan with
  | error e =>
    obtain ⟨a, hnone, -⟩ := hwritten (.empty .named)
    cases hnone
  | ok p =>
    refine ⟨p, rfl, fun c => ?_⟩
    obtain ⟨a, hsome, ha⟩ := hwritten c
    rw [Scribe.effect_ok, Except.ok.injEq, Prod.mk.injEq] at hsome
    exact ⟨a, hsome.1, hsome.2, ha⟩

/-- What follows the head of a select. -/
def body (parts : SelectParts) : Draft :=
  joined ", " parts.columns ++ (into parts.into? ++ (parts.origin ++ (joins parts.joins ++
    (spaced parts.filter ++ (groupBy parts.groupBy ++ (spaced parts.having ++ (parts.combined ++
      (orderBy parts.orderBy ++ spaced parts.page))))))))

theorem select_eq (parts : SelectParts) :
    select parts = code "SELECT " ++ (parts.head ++ body parts) := rfl

/-- Whatever page stands behind the select, something or nothing, it follows
the select without it. -/
theorem text_requoted_spaced (hnames : ∀ name ∈ names, ' ' ∉ name.toList)
    (hpage : parts.page.IsPage ∨ parts.page = code "") (c : Collector) :
    (requoted names (select parts)).text d c = (requoted names (select parts.unpaged)).text d c ++
      SqlTree.spaced (parts.page.text d ((select parts.unpaged).after c)) := by
  obtain hpage | hempty := hpage
  · rw [text_requoted_page hnames hpage, SqlTree.spaced, if_neg (hpage.text_ne_empty _),
      String.append_assoc]
  · have hwhole : parts.unpaged = parts := by rw [SelectParts.unpaged, ← hempty]
    rw [hwhole, hempty]
    exact String.append_empty.symm

end Draft

namespace Select

/-! ## Selects -/

variable {k : Constructs} {s : Select} {parts : Draft.SelectParts}

/-- What a select opens with. -/
def opening (s : Select) : String := "SELECT " ++ quantifierHead s.quantifier

/-- It does so in words, with a blank behind them. -/
theorem exists_start (s : Select) :
    ∃ start : String, s.opening = start ++ " " ∧ start.toList.all isClear = true := by
  unfold opening quantifier
  cases s.distinct
  · exact ⟨"SELECT", rfl, by decide⟩
  · exact ⟨"SELECT DISTINCT", rfl, by decide⟩

namespace MadeOf

variable (h : s.unpaged.MadeOf k parts)
include h

/-- With its page, a select is made of another head and another end. -/
theorem paged {head last : Draft}
    (hhead : Draft.columnHead k s.quantifier (k.innerPage s.page) = .ok head)
    (hlast : Draft.innerPageClause k s.page (!s.orderBy.isEmpty) = .ok last) :
    s.MadeOf k { parts with head, page := last } :=
  ⟨hhead, h.columns, h.into, h.origin, h.joins, h.filter, h.groupBy, h.having, h.combined,
    h.orderBy, hlast⟩

/-- Without a page there is nothing of one in the head and at the end. -/
theorem parts_of_unpaged :
    parts.head = .code (quantifierHead s.quantifier) ∧ parts.page = .code "" := by
  have hhead := h.head
  have hlast := h.page
  have hall : k.innerPage s.unpaged.page = .all := Constructs.innerPage_all k
  rw [hall] at hhead
  rw [Draft.innerPageClause, hall] at hlast
  refine ⟨?_, (Except.ok.inj hlast).symm⟩
  unfold Draft.columnHead at hhead
  split at hhead <;> exact (Except.ok.inj hhead).symm

theorem draft_unpaged :
    s.unpaged.draft k = .ok (.requoted s.names (Draft.select parts)) :=
  h.draft.trans (Draft.aroundSelect_all k _)

theorem text_unpaged (d : Dialect) (c : Collector) :
    (Draft.select parts).text d c = s.opening ++ (Draft.body parts).text d c := by
  rw [Draft.select_eq, h.parts_of_unpaged.1, opening, String.append_assoc]
  rfl

/-- The select without its page opens as the select does. -/
theorem exists_rest (d : Dialect) (c : Collector) : ∃ rest,
    (Draft.requoted s.names (Draft.select parts)).text d c = s.opening ++ rest := by
  obtain ⟨start, hstart, hclear⟩ := s.exists_start
  have hdot : '.' ∉ start.toList := fun h =>
    absurd (List.all_eq_true.1 hclear '.' h) (by decide)
  obtain ⟨rest, hrest⟩ := Dialect.exists_quotePrefixes_start (d := d) s.blank_not_mem_names hdot
    ((Draft.body parts).text d c)
  rw [← hstart] at hrest
  exact ⟨rest, by rw [Draft.text_requoted, h.text_unpaged, hrest]⟩

/-- With a limit in its head, the select goes on behind the limit as it does
without it. -/
theorem exists_rest_behind_top {d : Dialect} (hd : d.QuotesStandOut) {head : Draft} {c : Collector}
    {limit : Count Key} (hlimit : limit.text.toList.all isClear = true)
    (hhead : head.text d c = quantifierHead s.quantifier ++ (Cut.top limit).head) : ∃ rest,
      (Draft.requoted s.names (Draft.select parts)).text d (head.after c) = s.opening ++ rest ∧
      (Draft.requoted s.names (Draft.select { parts with head })).text d c =
        s.opening ++ (Cut.top limit).head ++ rest := by
  obtain ⟨start, hstart, hclear⟩ := s.exists_start
  obtain ⟨rest, hrest⟩ := Dialect.quotePrefixes_clear hd s.blank_not_mem_names
    ((Draft.body parts).text d (head.after c))
  -- the limit goes on the words of the opening
  have hlonger : s.opening ++ (Cut.top limit).head =
      start ++ (" TOP (" ++ limit.text ++ ")") ++ " " := by
    rw [hstart, Cut.head]
    simp [toString, ← String.toList_inj]
  have hclear' : (start ++ (" TOP (" ++ limit.text ++ ")")).toList.all isClear = true := by
    simp only [String.toList_append, List.all_append, hclear, hlimit, Bool.true_and]
    decide
  have htext : (Draft.select { parts with head }).text d c =
      s.opening ++ (Cut.top limit).head ++ (Draft.body parts).text d (head.after c) := by
    have hselect : (Draft.select { parts with head }).text d c =
        "SELECT " ++ (head.text d c ++ (Draft.body parts).text d (head.after c)) := rfl
    rw [hselect, hhead, opening, String.append_assoc, String.append_assoc, String.append_assoc]
  refine ⟨rest, ?_, ?_⟩
  · rw [Draft.text_requoted, h.text_unpaged, hstart]
    exact hrest start hclear
  · rw [Draft.text_requoted, htext, hlonger]
    exact hrest _ hclear'

/-- The values of another head come before those of the select. -/
theorem after_head (head : Draft) (c : Collector) : (Draft.select { parts with head }).after c =
    (Draft.select parts).after (head.after c) := by
  rw [Draft.select_eq parts, h.parts_of_unpaged.1]
  simp only [Draft.select_eq, Draft.after_append, Draft.after_code]
  rfl

end MadeOf

end Select

end SqlTree
