import Mathlib.Tactic.MkIffOfInductiveProp
import SqlTree.Proofs.Paging.Parts

/-!
# SqlTree.Proofs.Paging.Range

Which pages are accepted.  The counts of a page are bound as signed integers
and nothing else about them can be wrong, so a plan that takes counts goes
well just if they are in range (`Draft.TakesIf`).  Each of the three places
of a page has such a condition, and put together they say when a select with
a page has a draft if it has one without (`Select.MadeOf.takesIf_draft`).
A dialect without any of the three places refuses every page.
-/

namespace SqlTree

/-! ## Counts in range -/

/-- The number can be bound as a signed integer. -/
def IsCount (n : Nat) : Prop := (n : Int) ≤ Int64.maxValue.toInt

instance (n : Nat) : Decidable (IsCount n) :=
  inferInstanceAs (Decidable ((n : Int) ≤ Int64.maxValue.toInt))

theorem IsCount.of_le {m n : Nat} (h : IsCount n) (hle : m ≤ n) : IsCount m := by
  unfold IsCount at h ⊢
  omega

/-- Each count of the page can be bound. -/
@[mk_iff]
structure Page.InRange (page : Page) : Prop where
  limit : ∀ limit, page.limit = some limit → IsCount limit.toNat
  offset : ∀ offset, page.offset = some offset → IsCount offset.toNat

/-- The counts by which numbered rows are cut can be bound. -/
@[mk_iff]
structure Page.InNumberedRange (page : Page) : Prop where
  upper : ∀ limit, page.limit = some limit →
    IsCount (page.offset.elim limit (Page.lastRow limit)).toNat
  lower : ∀ offset, page.offset = some offset → IsCount offset.toNat

namespace Page

variable {page : Page}

/-- Where the last row of the page has a signed number, rows can be cut by
their numbers. -/
theorem Fits.inNumberedRange (h : page.Fits) : page.InNumberedRange := by
  refine ⟨fun limit hlimit => ?_, h.offset⟩
  have hlast := h.last limit hlimit
  cases hoffset : page.offset with
  | none =>
    rw [skipped, hoffset] at hlast
    simpa [IsCount] using hlast
  | some offset =>
    rw [skipped, hoffset] at hlast
    have hsum := h.lastRow_eq hlimit hoffset
    change IsCount (lastRow limit offset).toNat
    rw [hsum]
    exact hlast

/-- The number of the last row is no less than the limit. -/
theorem toNat_le_lastRow (limit offset : UInt64) : limit.toNat ≤ (lastRow limit offset).toNat := by
  have hsize := limit.toNat_lt
  simp only [lastRow, UInt64.toNat_ofNat', UInt64.size]
  omega

theorem InNumberedRange.inRange (h : page.InNumberedRange) : page.InRange := by
  refine ⟨fun limit hlimit => ?_, h.lower⟩
  have hupper := h.upper limit hlimit
  cases hoffset : page.offset with
  | none => rwa [hoffset] at hupper
  | some offset =>
    rw [hoffset] at hupper
    exact hupper.of_le (toNat_le_lastRow limit offset)

end Page

/-- Where rows are not numbered the whole page is asked for within the
select. -/
theorem Constructs.innerPage_eq {d : Dialect} (hrow : d.rowNumbers = false) (page : Page) :
    d.constructs.innerPage page = page :=
  if_neg (Bool.eq_false_iff.1 hrow)

/-- The dialect has a way to ask for a page. -/
def Dialect.AsksPages (d : Dialect) : Prop := d.limitOffset = true ∨ d.rowNumbers = true

/-- A dialect without any of them is a standard one that is configured so. -/
theorem Dialect.Shipped.pageSyntax_eq_none {d : Dialect} (hd : d.Shipped)
    (hlimits : d.limitOffset = false) (hrow : d.rowNumbers = false) :
    d.pageSyntax = none ∧ d.topRows = false := by
  induction hd with
  | withConnection _ connection ih =>
    obtain ⟨connection?, hd⟩ := withConnection_eq _ connection
    rw [hd] at hlimits hrow ⊢
    exact ih hlimits hrow
  | config c => exact ⟨rfl, rfl⟩
  | oracle => cases hrow
  | _ => cases hlimits

/-! ## Plans that take counts -/

namespace Draft

variable {α β : Type} {p q : Prop} {plan : Except Error α}

/-- The plan goes well under this condition, and otherwise takes a count that
is out of range. -/
structure TakesIf (p : Prop) (plan : Except Error α) : Prop where
  ok : p → ∃ a, plan = .ok a
  error : ¬p → ∃ n, ¬IsCount n ∧ plan = .error (.countOutOfRange n)

theorem takesIf_ok (a : α) : TakesIf True (.ok a : Except Error α) :=
  ⟨fun _ => ⟨a, rfl⟩, fun h => absurd trivial h⟩

theorem takesIf_rowCount (n : UInt64) (hint : String) :
    TakesIf (IsCount n.toNat) (rowCount n hint) :=
  ⟨fun h => ⟨_, if_pos h⟩, fun h => ⟨n.toNat, h, if_neg h⟩⟩

namespace TakesIf

theorem congr (h : TakesIf p plan) (hpq : p ↔ q) : TakesIf q plan := propext hpq ▸ h

/-- One plan after the other takes the counts of both. -/
theorem bind {f : α → Except Error β} (h : TakesIf p plan) (hf : ∀ a, TakesIf q (f a)) :
    TakesIf (p ∧ q) (plan >>= f) := by
  by_cases hp : p
  · obtain ⟨a, rfl⟩ := h.ok hp
    exact (hf a).congr (by simp [hp])
  · obtain ⟨n, hn, rfl⟩ := h.error hp
    exact ⟨fun hpq => absurd hpq.1 hp, fun _ => ⟨n, hn, rfl⟩⟩

/-- What is written around a count does not matter. -/
theorem map (h : TakesIf p plan) (f : α → β) : TakesIf p (plan >>= fun a => .ok (f a)) :=
  (h.bind fun a => takesIf_ok (f a)).congr (and_iff_left trivial)

end TakesIf

/-! ## The three places -/

variable (page : Page)

theorem takesIf_standardPart (keyword hint : String) (count? : Option UInt64) :
    TakesIf (∀ n, count? = some n → IsCount n.toNat) (standardPart keyword hint count?) := by
  cases count? with
  | none => exact (takesIf_ok _).congr (by simp)
  | some n => exact ((takesIf_rowCount n hint).map _).congr (by simp)

theorem takesIf_standardPage : TakesIf page.InRange (standardPage page) := by
  have hlimit := takesIf_standardPart "LIMIT " "limit" page.limit
  have hoffset := takesIf_standardPart "OFFSET " "offset" page.offset
  exact (hlimit.bind fun limit => hoffset.map fun offset => joined " " (limit ++ offset)).congr
    (page.inRange_iff).symm

theorem takesIf_limitOffsetPage (unbounded : String) :
    TakesIf page.InRange (limitOffsetPage unbounded page) := by
  obtain ⟨_ | n, _ | m⟩ := page
  case none.none => exact (takesIf_ok _).congr (by simp [Page.inRange_iff])
  case some.none => exact ((takesIf_rowCount n _).map _).congr (by simp [Page.inRange_iff])
  case none.some => exact ((takesIf_rowCount m _).map _).congr (by simp [Page.inRange_iff])
  case some.some =>
    exact ((takesIf_rowCount n _).bind fun limit => (takesIf_rowCount m _).map _).congr
      (by simp [Page.inRange_iff])

/-- Without an offset no count is taken behind the select. -/
theorem takesIf_offsetFetchPage (ordered : Bool) :
    TakesIf (page.offset.isSome = true → page.InRange) (offsetFetchPage page ordered) := by
  obtain ⟨_ | n, _ | m⟩ := page
  case none.none => exact (takesIf_ok _).congr (by simp)
  case some.none => exact (takesIf_ok _).congr (by simp)
  case none.some => exact ((takesIf_rowCount m _).map _).congr (by simp [Page.inRange_iff])
  case some.some =>
    exact ((takesIf_rowCount m _).bind fun offset => (takesIf_rowCount n _).map _).congr
      (by simp [Page.inRange_iff, and_comm])

/-- With an offset none is taken before the columns. -/
theorem takesIf_topHead (quantifier : Option String) :
    TakesIf (page.offset = none → page.InRange) (topHead quantifier page) := by
  obtain ⟨_ | n, _ | m⟩ := page
  case none.none => exact (takesIf_ok _).congr (by simp [Page.inRange_iff])
  case some.none => exact ((takesIf_rowCount n _).map _).congr (by simp [Page.inRange_iff])
  case none.some => exact (takesIf_ok _).congr (by simp)
  case some.some => exact (takesIf_ok _).congr (by simp)

theorem takesIf_numberRows (p : Draft) : TakesIf page.InNumberedRange (numberRows p page) := by
  obtain ⟨_ | n, _ | m⟩ := page
  case none.none => exact (takesIf_ok _).congr (by simp [Page.inNumberedRange_iff])
  case some.none => exact ((takesIf_rowCount n _).map _).congr (by simp [Page.inNumberedRange_iff])
  case none.some => exact ((takesIf_rowCount m _).map _).congr (by simp [Page.inNumberedRange_iff])
  case some.some =>
    exact ((takesIf_rowCount _ _).bind fun upper => (takesIf_rowCount m _).map _).congr
      (by simp [Page.inNumberedRange_iff])

/-! ## Dialects -/

variable {d : Dialect}

theorem takesIf_columnHead (hrow : d.rowNumbers = false) (quantifier : Option String) :
    TakesIf (d.topRows = true → page.offset = none → page.InRange)
      (columnHead d.constructs quantifier (d.constructs.innerPage page)) := by
  rw [Constructs.innerPage_eq hrow, columnHead]
  split
  · next htop =>
    have htop' : d.topRows = true := htop
    exact (takesIf_topHead page quantifier).congr (by simp [htop'])
  · next htop => exact (takesIf_ok _).congr (iff_of_true trivial fun h => absurd h htop)

theorem takesIf_innerPageClause (hd : d.Shipped) (hrow : d.rowNumbers = false)
    (hpages : d.limitOffset = true) (ordered : Bool) :
    TakesIf (¬(d.topRows = true ∧ page.offset = none) → page.InRange)
      (innerPageClause d.constructs page ordered) := by
  have htop := hd.topRows_eq.1
  rw [innerPageClause, Constructs.innerPage_eq hrow]
  split
  · change TakesIf _ (pageClause d.constructs page ordered)
    unfold pageClause
    rw [show d.constructs.pageSyntax = d.pageSyntax from rfl]
    cases hkind : d.pageSyntax with
    | none =>
      have hnot : ¬d.topRows = true := by simp [htop, hkind]
      rw [if_pos (show d.constructs.limitOffset = true from hpages)]
      exact (takesIf_standardPage page).congr (by simp [hnot])
    | some s =>
      cases s with
      | limitOffset unbounded =>
        have hnot : ¬d.topRows = true := by simp [htop, hkind]
        exact (takesIf_limitOffsetPage page unbounded).congr (by simp [hnot])
      | offsetFetch =>
        have hyes : d.topRows = true := htop.2 hkind
        exact (takesIf_offsetFetchPage page ordered).congr
          (by simp [hyes, ← Option.isSome_iff_ne_none])
  · next hall =>
    obtain ⟨_ | n, _ | m⟩ := page
    case none.none => exact (takesIf_ok _).congr (by simp [Page.inRange_iff])
    all_goals exact absurd rfl hall

end Draft

/-! ## Selects -/

namespace Select

/-- The counts of the page that the dialect takes can be bound. -/
def PageInRange (d : Dialect) (s : Select) : Prop :=
  if d.rowNumbers then s.page.InNumberedRange else s.page.InRange

variable {d : Dialect} {s : Select}

namespace MadeOf

/-- The draft of a select from the parts that it has without its page. -/
theorem draft_paged {k : Constructs} {parts : Draft.SelectParts} (h : s.unpaged.MadeOf k parts) :
    s.draft k = (do
    let head ← Draft.columnHead k s.quantifier (k.innerPage s.page)
    let last ← Draft.innerPageClause k s.page (!s.orderBy.isEmpty)
    Draft.aroundSelect k (.requoted s.names (Draft.select { parts with head, page := last }))
      s.page) := by
  obtain ⟨distinct, columns, into?, origin?, joins, filter, groupBy, having, combined?, orderBy,
    limit, offset, nesting, pretty, columnTexts, cache⟩ := s
  obtain ⟨-, ⟨ps, hcolumns, hcols⟩, hinto, horigin, hjoined, hfilter, hgroupBy, hhaving,
    hcombined, horderBy, -⟩ := h
  obtain ⟨head, cols, into', origin, joined, filter', groupBy', having', combined, orderBy',
    last⟩ := parts
  dsimp only [unpaged, setLimit, setOffset, touched, star] at *
  subst hcols hinto hgroupBy horderBy
  simp only [Select.draft, hcolumns, horigin, hjoined, hfilter, hhaving, hcombined]
  rfl

/-- A select that has a draft without its page has one with it if the counts
of the page are in range. -/
theorem takesIf_draft {parts : Draft.SelectParts} (h : s.unpaged.MadeOf d.constructs parts)
    (hd : d.Shipped) (hpages : d.AsksPages) :
    Draft.TakesIf (s.PageInRange d) (s.draft d.constructs) := by
  rw [h.draft_paged, PageInRange]
  cases hrow : d.rowNumbers with
  | true =>
    -- within the select all rows are asked for
    have hrow' : d.constructs.rowNumbers = true := hrow
    have hinner : d.constructs.innerPage s.page = d.constructs.innerPage s.unpaged.page := by
      rw [Constructs.innerPage, Constructs.innerPage, if_pos hrow', if_pos hrow']
    have hlast : Draft.innerPageClause d.constructs s.page (!s.orderBy.isEmpty) =
        .ok parts.page := by
      rw [Draft.innerPageClause, hinner]
      exact h.page
    have hhead : Draft.columnHead d.constructs s.quantifier (d.constructs.innerPage s.page) =
        .ok parts.head := hinner ▸ h.head
    rw [hhead, hlast]
    change Draft.TakesIf _ (Draft.aroundSelect d.constructs _ s.page)
    rw [Draft.aroundSelect, if_pos hrow', if_pos rfl]
    exact Draft.takesIf_numberRows s.page _
  | false =>
    have hlimits : d.limitOffset = true := hpages.resolve_right (Bool.eq_false_iff.1 hrow)
    have hhead := Draft.takesIf_columnHead s.page hrow s.quantifier
    have hlast := Draft.takesIf_innerPageClause s.page hd hrow hlimits (!s.orderBy.isEmpty)
    have haround (p : Draft) : Draft.aroundSelect d.constructs p s.page = .ok p :=
      if_neg (Bool.eq_false_iff.1 hrow)
    simp only [haround, Bool.false_eq_true, if_false]
    refine (hhead.bind fun head => hlast.map _).congr ⟨fun hboth => ?_, fun hpage => ?_⟩
    · by_cases htop : d.topRows = true ∧ s.page.offset = none
      · exact hboth.1 htop.1 htop.2
      · exact hboth.2 htop
    · exact ⟨fun _ _ => hpage, fun _ => hpage⟩

/-- With a page it has none in a dialect that cannot ask for pages. -/
theorem draft_eq_unsupported {parts : Draft.SelectParts} (h : s.unpaged.MadeOf d.constructs parts)
    (hd : d.Shipped) (hpages : ¬d.AsksPages) (hpage : s.page.isPartial = true) :
    s.draft d.constructs = .error (.unsupported d.name .pagination) := by
  obtain ⟨hlimits, hrow⟩ := not_or.1 hpages
  obtain ⟨hkind, htop⟩ := hd.pageSyntax_eq_none (Bool.eq_false_iff.2 hlimits)
    (Bool.eq_false_iff.2 hrow)
  have hinner := Constructs.innerPage_eq (Bool.eq_false_iff.2 hrow) s.page
  have hhead : Draft.columnHead d.constructs s.quantifier s.page =
      .ok (.code (quantifierHead s.quantifier)) := if_neg (Bool.eq_false_iff.1 htop)
  have hlast : Draft.innerPageClause d.constructs s.page (!s.orderBy.isEmpty) =
      .error (.unsupported d.name .pagination) := by
    rw [Draft.innerPageClause, hinner, if_pos hpage, Draft.pageClause,
      show d.constructs.pageSyntax = none from hkind]
    exact if_neg hlimits
  rw [h.draft_paged, hinner, hhead, hlast]
  rfl

end MadeOf

/-- The select compiles, by itself and into any collector. -/
def AcceptedBy (d : Dialect) (s : Select) : Prop :=
  (∃ sql, answer (s.compile d) = .ok sql) ∧ ∀ c, ∃ sql, answer (s.compileInto d c) = .ok sql

/-- The select fails to compile with this error, by itself and into any
collector, which it leaves alone. -/
def RefusedBy (d : Dialect) (s : Select) (e : Error) : Prop :=
  answer (s.compile d) = .error e ∧
    ∀ c, answer (s.compileInto d c) = .error e ∧ (left (s.compileInto d c)).2 = c

theorem acceptedBy_of_draft (hd : d.Shipped) (h : s.Coherent) {p : Draft}
    (hp : s.draft d.constructs = .ok p) : s.AcceptedBy d := by
  refine ⟨⟨p.text d (.empty d.style), ?_⟩, fun c => ⟨p.text d c, ?_⟩⟩
  · have hanswer := Node.answer_compile (k := .select) hd h
    rwa [show Node.draft d.constructs .select s = .ok p from hp] at hanswer
  · exact (compileInto_of_draft hd h hp c).1

theorem refusedBy_of_draft (hd : d.Shipped) (h : s.Coherent) {e : Error}
    (he : s.draft d.constructs = .error e) : s.RefusedBy d e := by
  have hdraft : Node.draft d.constructs .select s = .error e := he
  refine ⟨?_, fun c => ?_⟩
  · have hanswer := Node.answer_compile (k := .select) hd h
    rwa [hdraft] at hanswer
  · have hcollector := Node.collector_compileInto (k := .select) hd h c
    rwa [hdraft] at hcollector

end Select

/-! ## Main result -/

/-- Whatever has been done to a select before, if it compiles without its
page, then a dialect that has a way to ask for pages accepts it with every
page of signed counts, where rows are numbered with every page whose last row
has a signed number.  A count that is out of range is refused in all of these
dialects, and every page is in the others; the collector is then left alone. -/
theorem Reachable.accepts_page {s : Select} (h : Reachable .select s) {d : Dialect}
    (hd : d.Shipped) {whole : String} (hwhole : answer (s.unpaged.compile d) = .ok whole) :
    (d.AsksPages → s.page.InRange → (d.rowNumbers = true → s.page.Fits) → s.AcceptedBy d) ∧
    (d.AsksPages → ¬s.page.InRange →
      ∃ n, ¬IsCount n ∧ s.RefusedBy d (.countOutOfRange n)) ∧
    (¬d.AsksPages → s.page.isPartial = true →
      s.RefusedBy d (.unsupported d.name .pagination)) := by
  have hcoherent : s.Coherent := h.coherent
  obtain ⟨q, hq, -⟩ := Node.draft_of_compile (k := .select) (n := s.unpaged) hd
    (Select.coherent_unpaged hcoherent) hwhole
  obtain ⟨parts, hmade, -⟩ := Select.exists_madeOf hq
  refine ⟨fun hpages hrange hfits => ?_, fun hpages hrange => ?_, fun hpages hpage => ?_⟩
  · have hcounts : s.PageInRange d := by
      unfold Select.PageInRange
      split
      · next hrow => exact (hfits hrow).inNumberedRange
      · exact hrange
    obtain ⟨p, hp⟩ := (hmade.takesIf_draft hd hpages).ok hcounts
    exact Select.acceptedBy_of_draft hd hcoherent hp
  · have hcounts : ¬s.PageInRange d := by
      unfold Select.PageInRange
      split
      · exact fun hnumbers => hrange hnumbers.inRange
      · exact hrange
    obtain ⟨n, hn, he⟩ := (hmade.takesIf_draft hd hpages).error hcounts
    exact ⟨n, hn, Select.refusedBy_of_draft hd hcoherent he⟩
  · exact Select.refusedBy_of_draft hd hcoherent (hmade.draft_eq_unsupported hd hpages hpage)

/-- On SQL Server all rows after the first are asked for by the greatest limit
there is; one more is refused. -/
theorem Reachable.accepts_page_of_greatest :
    let called (b : Builder .select) (s : Select) : Select := (Call.build b).act s
    let s (limit : UInt64) : Select := called (.offset (some 1)) (called (.limit (some limit))
      (called (.fromTable "a") Select.empty))
    let greatest : UInt64 := 9223372036854775807
    Reachable .select (s greatest) ∧ Dialect.sqlServer.Shipped ∧
      answer ((s greatest).unpaged.compile Dialect.sqlServer) = .ok "SELECT * FROM [a]" ∧
      (s greatest).page.InRange ∧ (s greatest).AcceptedBy Dialect.sqlServer ∧
      ¬(s (greatest + 1)).page.InRange ∧
      ∃ n, ¬IsCount n ∧ (s (greatest + 1)).RefusedBy Dialect.sqlServer (.countOutOfRange n) := by
  intro called s greatest
  have hs (limit : UInt64) : Reachable .select (s limit) := .built (.built (.fromTable "a") rfl) rfl
  have hunpaged (limit : UInt64) :
      answer ((s limit).unpaged.compile Dialect.sqlServer) = .ok "SELECT * FROM [a]" := by
    change answer ((s 0).unpaged.compile Dialect.sqlServer) = _
    refine eq_ok_of_toOption ?_
    simp only [s, called]
    decide +kernel
  have hrange : (s greatest).page.InRange := by
    refine ⟨fun limit hlimit => ?_, fun offset hoffset => ?_⟩
    · cases hlimit
      decide
    · cases hoffset
      decide
  have hbeyond : ¬(s (greatest + 1)).page.InRange := fun h =>
    absurd (h.limit (greatest + 1) rfl) (by decide)
  obtain ⟨haccepted, -, -⟩ := (hs greatest).accepts_page .sqlServer (hunpaged greatest)
  obtain ⟨-, hrefused, -⟩ :=
    (hs (greatest + 1)).accepts_page .sqlServer (hunpaged (greatest + 1))
  exact ⟨hs greatest, .sqlServer, hunpaged greatest, hrange, haccepted (.inl rfl) hrange nofun,
    hbeyond, hrefused (.inl rfl) hbeyond⟩

/-- A configured dialect without the standard clauses refuses each page, be
its counts as small as they may.  Where rows are numbered, the greatest limit
leaves no number for the last row behind an offset. -/
theorem Reachable.refuses_page_in_range :
    let called (b : Builder .select) (s : Select) : Select := (Call.build b).act s
    let a : Select := called (.fromTable "a") Select.empty
    let first : Select := called (.limit (some 1)) a
    let rest : Select := called (.offset (some 1)) (called (.limit (some 9223372036854775807)) a)
    let bare : Dialect := { Config.standard with name := "bare", limitOffset := false }.dialect
    let sql := "SELECT * FROM \"a\""
    (Reachable .select first ∧ bare.Shipped ∧ answer (first.unpaged.compile bare) = .ok sql ∧
      first.page.InRange ∧ first.RefusedBy bare (.unsupported "bare" .pagination)) ∧
    (Reachable .select rest ∧ Dialect.oracle.Shipped ∧
      answer (rest.unpaged.compile Dialect.oracle) = .ok sql ∧ rest.page.InRange ∧
      rest.RefusedBy Dialect.oracle (.countOutOfRange 9223372036854775808)) := by
  intro called a first rest bare sql
  have ha : Reachable .select a := .fromTable "a"
  have hfirst : Reachable .select first := .built ha rfl
  have hrest : Reachable .select rest := .built (.built ha rfl) rfl
  have hfirstRange : first.page.InRange := by
    refine ⟨fun limit hlimit => ?_, nofun⟩
    cases hlimit
    decide
  have hrestRange : rest.page.InRange := by
    refine ⟨fun limit hlimit => ?_, fun offset hoffset => ?_⟩
    · cases hlimit
      decide
    · cases hoffset
      decide
  have hbare : answer (first.unpaged.compile bare) = .ok sql := by
    refine eq_ok_of_toOption ?_
    simp only [first, a, called, bare, sql]
    decide +kernel
  have horacle : answer (rest.unpaged.compile Dialect.oracle) = .ok sql := by
    refine eq_ok_of_toOption ?_
    simp only [rest, a, called, sql]
    decide +kernel
  have hunsupported : first.draft bare.constructs = .error (.unsupported "bare" .pagination) := rfl
  have hsum : rest.draft Dialect.oracle.constructs =
      .error (.countOutOfRange 9223372036854775808) := rfl
  exact ⟨⟨hfirst, .config _, hbare, hfirstRange,
      Select.refusedBy_of_draft (.config _) hfirst.coherent hunsupported⟩,
    hrest, .oracle, horacle, hrestRange,
      Select.refusedBy_of_draft .oracle hrest.coherent hsum⟩

end SqlTree
