import SqlTree.Collector
import SqlTree.Dialect.Pagination

/-!
# SqlTree.Proofs.Paging.Cut

What a select says about which of its rows are kept.  A `Cut` is that as a
tree, in one of the ways that databases have for it, with counts at the
leaves.  It has two readings.  Its text stands in three places of a select:
before the columns, behind everything else, and around the whole
(`Cut.head`, `Cut.tail`, `Cut.around`).  Its meaning is a function on the
rows of the select without it (`Cut.rows`), written after the manuals of the
databases: a negative limit is none, and `ROWNUM` numbers the rows that pass.

A page is asked for in the way of a dialect (`Page.standardCut`,
`Page.unboundedCut`, `Page.fetchCut`, `Page.numberedCut`), and in each of
them the rows that are kept are those on the page (`Cut.Serves`).
-/

namespace SqlTree

/-! ## Pages -/

namespace Page

variable {ρ : Type}

/-- How many rows come before the page. -/
def skipped (page : Page) : Nat := page.offset.elim 0 UInt64.toNat

/-- The row at this position, counted from one, is on the page. -/
def holds (page : Page) (position : Nat) : Bool :=
  page.offset.all (fun offset => offset.toNat < position) &&
    page.limit.all fun limit => position ≤ page.skipped + limit.toNat

/-- The rows of a result that are on the page. -/
def window (page : Page) (rows : List ρ) : List ρ :=
  ((rows.zipIdx 1).filter fun row => page.holds row.2).map Prod.fst

/-- The counts that a page asks for.  Where rows are numbered, the number of
the last row stands for the limit. -/
def counts (page : Page) (numbered : Bool) : List Nat :=
  (page.limit.map fun limit =>
      if numbered then page.skipped + limit.toNat else limit.toNat).toList ++
    (page.offset.map UInt64.toNat).toList

/-- The counts of the page are signed integers, and so is the number of its
last row, which is the limit or the sum of both. -/
structure Fits (page : Page) : Prop where
  last : ∀ limit, page.limit = some limit →
    ((page.skipped + limit.toNat : Nat) : Int) ≤ Int64.maxValue.toInt
  offset : ∀ offset, page.offset = some offset → (offset.toNat : Int) ≤ Int64.maxValue.toInt

end Page

/-! ## Cuts -/

/-- The rows that a select keeps, as databases say it. -/
inductive Cut (α : Type) where
  /-- `LIMIT limit OFFSET offset`, each if there is one. -/
  | limits (limit? offset? : Option α)
  /-- `TOP (limit)`. -/
  | top (limit : α)
  /-- `OFFSET offset ROWS FETCH NEXT limit ROWS ONLY`, the latter part if
  there is a limit. -/
  | fetch (offset : α) (limit? : Option α)
  /-- `ROWNUM <= upper` within and `b_rownum > lower` outside, each if there
  is one. -/
  | numbered (upper? lower? : Option α)

/-- A count: one that is bound, or a numeral. -/
inductive Count (α : Type) where
  | bound (a : α)
  | numeral (n : Int)

namespace Count

variable {α β : Type}

/-- The count with something else in place of what is bound. -/
def map (f : α → β) : Count α → Count β
  | bound a => bound (f a)
  | numeral n => numeral n

/-- What is bound. -/
def bound? : Count α → Option α
  | bound a => some a
  | numeral _ => none

/-- The number that a count is. -/
def value : Count Int → Int
  | bound n => n
  | numeral n => n

/-- The text of a count, which is bound under a key. -/
def text : Count Key → String
  | bound key => key.marker
  | numeral n => toString n

@[simp] theorem text_numeral (n : Int) : (numeral n : Count Key).text = toString n := rfl

end Count

namespace Cut

/-- The cut with other counts. -/
def map {α β : Type} (f : α → β) : Cut α → Cut β
  | limits limit? offset? => limits (limit?.map f) (offset?.map f)
  | top limit => top (f limit)
  | fetch offset limit? => fetch (f offset) (limit?.map f)
  | numbered upper? lower? => numbered (upper?.map f) (lower?.map f)

/-- Does something with each count, in the order of the text. -/
def mapM {m : Type → Type} [Monad m] {α β : Type} (f : α → m β) : Cut α → m (Cut β)
  | limits limit? offset? => do
    let limit? ← limit?.mapM f
    let offset? ← offset?.mapM f
    return limits limit? offset?
  | top limit => do
    let limit ← f limit
    return top limit
  | fetch offset limit? => do
    let offset ← f offset
    let limit? ← limit?.mapM f
    return fetch offset limit?
  | numbered upper? lower? => do
    let upper? ← upper?.mapM f
    let lower? ← lower?.mapM f
    return numbered upper? lower?

/-- The counts in the order of the text. -/
def toList {α : Type} : Cut α → List α
  | limits limit? offset? => limit?.toList ++ offset?.toList
  | top limit => [limit]
  | fetch offset limit? => offset :: limit?.toList
  | numbered upper? lower? => upper?.toList ++ lower?.toList

/-- The cut is made by counting rows before the columns, by a clause at the
end of the select, or around it. -/
inductive Place where
  | columns
  | behind
  | around
deriving DecidableEq

/-- Where the cut stands. -/
def place {α : Type} : Cut α → Place
  | top _ => .columns
  | limits _ _ | fetch _ _ => .behind
  | numbered _ _ => .around

@[simp] theorem place_map {α β : Type} (f : α → β) (cut : Cut α) :
    (cut.map f).place = cut.place := by
  cases cut <;> rfl

/-! ### Text -/

/-- What stands before the columns. -/
def head : Cut (Count Key) → String
  | top limit => s!"TOP ({limit.text}) "
  | _ => ""

/-- What stands at the end of the select.  Without an order the rows get an
empty one to fetch by. -/
def tail (ordered : Bool) : Cut (Count Key) → String
  | limits limit? offset? =>
    joined " " ((limit?.map fun limit => "LIMIT " ++ limit.text).toList ++
      (offset?.map fun offset => "OFFSET " ++ offset.text).toList)
  | fetch offset none =>
    let order := if ordered then "" else "ORDER BY (SELECT NULL) "
    s!"{order}OFFSET {offset.text} ROWS"
  | fetch offset (some limit) =>
    let order := if ordered then "" else "ORDER BY (SELECT NULL) "
    s!"{order}OFFSET {offset.text} ROWS FETCH NEXT {limit.text} ROWS ONLY"
  | top _ | numbered _ _ => ""

/-- What stands around the select. -/
def around : Cut (Count Key) → String → String
  | numbered none none, sql => sql
  | numbered (some upper) none, sql => s!"SELECT * FROM ({sql}) WHERE ROWNUM <= {upper.text}"
  | numbered none (some lower), sql =>
    s!"SELECT * FROM (SELECT b.*, ROWNUM b_rownum FROM ({sql}) b) WHERE b_rownum > {lower.text}"
  | numbered (some upper) (some lower), sql =>
    s!"SELECT * FROM (SELECT b.*, ROWNUM b_rownum FROM ({sql}) b WHERE ROWNUM <= {upper.text}) WHERE b_rownum > {lower.text}"
  | limits _ _, sql | top _, sql | fetch _ _, sql => sql

section

variable {cut : Cut (Count Key)}

theorem head_eq_empty (h : cut.place ≠ .columns) : cut.head = "" := by
  cases cut with
  | top limit => exact absurd rfl h
  | _ => rfl

theorem tail_eq_empty (h : cut.place ≠ .behind) (ordered : Bool) : cut.tail ordered = "" := by
  cases cut with
  | limits limit? offset? => exact absurd rfl h
  | fetch offset limit? => exact absurd rfl h
  | _ => rfl

theorem around_eq (h : cut.place ≠ .around) (sql : String) : cut.around sql = sql := by
  cases cut with
  | numbered upper? lower? => exact absurd rfl h
  | _ => rfl

variable (upper lower : Count Key) (sql : String)

theorem around_upper : around (numbered (some upper) none) sql =
    s!"SELECT * FROM ({sql}) WHERE ROWNUM <= {upper.text}" := rfl

theorem around_lower : around (numbered none (some lower)) sql =
    s!"SELECT * FROM (SELECT b.*, ROWNUM b_rownum FROM ({sql}) b) WHERE b_rownum > {lower.text}" :=
  rfl

theorem around_both : around (numbered (some upper) (some lower)) sql =
    s!"SELECT * FROM (SELECT b.*, ROWNUM b_rownum FROM ({sql}) b WHERE ROWNUM <= {upper.text}) WHERE b_rownum > {lower.text}" :=
  rfl

end

/-! ### Meaning -/

variable {ρ : Type}

/-- So many rows and no more; a negative number stands for all of them. -/
def limited (limit? : Option Int) (rows : List ρ) : List ρ :=
  match limit? with
  | some limit => if limit < 0 then rows else rows.take limit.toNat
  | none => rows

/-- The rows behind so many. -/
def beyond (offset? : Option Int) (rows : List ρ) : List ρ :=
  match offset? with
  | some offset => rows.drop offset.toNat
  | none => rows

/-- The rows whose number passes the test, with their numbers.  A row that
does not pass leaves its number to the next one. -/
def passing (test : Int → Bool) : Nat → List ρ → List (ρ × Nat)
  | _, [] => []
  | n, row :: rows =>
    if test n then (row, n) :: passing test (n + 1) rows else passing test n rows

/-- The rows that are kept. -/
def rows : Cut Int → List ρ → List ρ
  | limits limit? offset?, rows => limited limit? (beyond offset? rows)
  | top limit, rows => limited (some limit) rows
  | fetch offset limit?, rows => limited limit? (beyond (some offset) rows)
  | numbered upper? lower?, rows =>
    ((passing (fun n => upper?.all (n ≤ ·)) 1 rows).filter
      fun row => lower?.all (· < (row.2 : Int))).map Prod.fst

/-! ### Dialects -/

/-- The dialect has clauses of this form.  Where a limit is always written,
there is one; nothing at all can be said in every dialect. -/
def HasForm {α : Type} (d : Dialect) : Cut α → Prop
  | limits none none => True
  | limits limit? _ =>
    match d.pageSyntax with
    | none => d.limitOffset = true
    | some (.limitOffset _) => limit?.isSome = true
    | some .offsetFetch => False
  | top _ => d.topRows = true
  | fetch _ _ => d.pageSyntax = some .offsetFetch
  | numbered _ _ => d.rowNumbers = true

end Cut

/-- The dialect understands the cut: it has the form, and for no limit the
numeral. -/
structure Dialect.Understands (d : Dialect) (cut : Cut (Count Int)) : Prop where
  form : cut.HasForm d
  numerals : ∀ n, .numeral n ∈ cut.toList → d.pageSyntax = some (.limitOffset (toString n))

/-! ## Rows by their positions -/

section

variable {ρ : Type}

/-- The rows behind so many are those at greater positions. -/
theorem filter_zipIdx_lt (rows : List ρ) (i m : Nat) :
    ((rows.zipIdx (i + 1)).filter fun row => i + m < row.2) =
      (rows.drop m).zipIdx (i + m + 1) := by
  induction rows generalizing i m with
  | nil => simp
  | cons row rows ih =>
    cases m with
    | zero =>
      have hall : ∀ r ∈ (row :: rows).zipIdx (i + 1), i + 0 < r.2 := fun r hr => by
        have := List.le_snd_of_mem_zipIdx hr
        omega
      simpa using hall
    | succ m =>
      have hnext := ih (i + 1) m
      rw [List.zipIdx_cons, List.filter_cons_of_neg (by simp), List.drop_succ_cons,
        show i + (m + 1) = i + 1 + m by omega, hnext]

/-- So many rows are those up to this position. -/
theorem filter_zipIdx_le (rows : List ρ) (i n : Nat) :
    ((rows.zipIdx (i + 1)).filter fun row => row.2 ≤ i + n) = (rows.take n).zipIdx (i + 1) := by
  induction rows generalizing i n with
  | nil => simp
  | cons row rows ih =>
    cases n with
    | zero =>
      have hnone : ∀ r ∈ (row :: rows).zipIdx (i + 1), ¬ r.2 ≤ i + 0 := fun r hr => by
        have := List.le_snd_of_mem_zipIdx hr
        omega
      simpa using hnone
    | succ n =>
      have hnext := ih (i + 1) n
      rw [List.zipIdx_cons, List.filter_cons_of_pos (by simp), List.take_succ_cons,
        List.zipIdx_cons, ← hnext, show i + (n + 1) = i + 1 + n by omega]

namespace Cut

variable {test : Int → Bool}

theorem passing_eq_nil {n : Nat} (h : test n = false) (rows : List ρ) :
    passing test n rows = [] := by
  induction rows with
  | nil => rfl
  | cons row rows ih =>
    rw [passing, h, if_neg Bool.false_ne_true]
    exact ih

/-- If a number passes only with all before it, the rows that pass are those
whose positions do. -/
theorem passing_eq_filter (htest : ∀ n : Nat, test (n + 1 : Nat) = true → test n = true) (n : Nat)
    (rows : List ρ) : passing test n rows = (rows.zipIdx n).filter fun row => test row.2 := by
  induction rows generalizing n with
  | nil => rfl
  | cons row rows ih =>
    rw [List.zipIdx_cons, passing, List.filter_cons]
    by_cases hn : test n = true
    · rw [if_pos hn, if_pos hn, ih]
    · have hnext : test (n + 1 : Nat) = false := Bool.eq_false_iff.2 fun h => hn (htest n h)
      rw [if_neg hn, if_neg hn, ← ih, passing_eq_nil hnext,
        passing_eq_nil (Bool.eq_false_iff.2 hn)]

end Cut

/-- A page leaves out the rows before it and then takes so many. -/
theorem Page.window_eq (page : Page) (rows : List ρ) : page.window rows =
    Cut.limited (page.limit.map fun limit => (limit.toNat : Int)) (rows.drop page.skipped) := by
  let after (row : ρ × Nat) : Bool := page.offset.all fun offset => offset.toNat < row.2
  let before (row : ρ × Nat) : Bool :=
    page.limit.all fun limit => row.2 ≤ page.skipped + limit.toNat
  have hsplit : page.window rows = (((rows.zipIdx 1).filter after).filter before).map Prod.fst := by
    rw [List.filter_filter, window]
    refine congrArg (fun test => ((rows.zipIdx 1).filter test).map Prod.fst) (funext fun row => ?_)
    exact Bool.and_comm _ _
  have hafter : (rows.zipIdx 1).filter after =
      (rows.drop page.skipped).zipIdx (page.skipped + 1) := by
    unfold after skipped
    cases page.offset with
    | none => simp
    | some offset => simpa using filter_zipIdx_lt rows 0 offset.toNat
  have hbefore (kept : List ρ) : ((kept.zipIdx (page.skipped + 1)).filter before).map Prod.fst =
      Cut.limited (page.limit.map fun limit => (limit.toNat : Int)) kept := by
    unfold before
    cases page.limit with
    | none => simp [Cut.limited, List.filter_eq_self.2]
    | some limit =>
      have hlimit : ¬(limit.toNat : Int) < 0 := by omega
      simp [Cut.limited, filter_zipIdx_le, hlimit]
  rw [hsplit, hafter, hbefore]

end

/-! ## What is asked for -/

/-- A number of rows to bind under a hint. -/
structure Request where
  rows : UInt64
  hint : String

/-- The number of the request. -/
def Request.value (r : Request) : Int := r.rows.toNat

namespace Page

/-- In the standard clauses. -/
def standardCut (page : Page) : Cut (Count Request) :=
  .limits (page.limit.map (.bound ⟨·, "limit"⟩)) (page.offset.map (.bound ⟨·, "offset"⟩))

/-- In clauses of which the limit is always written. -/
def unboundedCut (unbounded : Int) (page : Page) : Cut (Count Request) :=
  match page.limit, page.offset with
  | none, some offset => .limits (some (.numeral unbounded)) (some (.bound ⟨offset, "offset"⟩))
  | _, _ => page.standardCut

/-- Behind an offset, or before the columns. -/
def fetchCut (page : Page) : Cut (Count Request) :=
  match page.offset, page.limit with
  | some offset, limit? => .fetch (.bound ⟨offset, "offset"⟩) (limit?.map (.bound ⟨·, "limit"⟩))
  | none, some limit => .top (.bound ⟨limit, "limit"⟩)
  | none, none => .limits none none

/-- By the numbers of the rows. -/
def numberedCut (page : Page) : Cut (Count Request) :=
  .numbered (page.limit.map fun limit => .bound ⟨page.offset.elim limit (lastRow limit), "limit"⟩)
    (page.offset.map (.bound ⟨·, "offset"⟩))

end Page

/-- What the cut reads as once its counts are bound. -/
def Cut.asked (cut : Cut (Count Request)) : Cut (Count Int) := cut.map (Count.map Request.value)

/-- With the counts as requested, the cut keeps the rows on the page, and
it binds the counts of the page and no others. -/
structure Cut.Serves (cut : Cut (Count Request)) (page : Page) (numbered : Bool) : Prop where
  rows : ∀ {ρ : Type} (rows : List ρ), rows.length < UInt64.size →
    (cut.asked.map Count.value).rows rows = page.window rows
  counts : ((cut.toList.filterMap Count.bound?).map fun r => r.rows.toNat).Perm
    (page.counts numbered)

namespace Page

variable {page : Page}

theorem standardCut_serves (page : Page) : page.standardCut.Serves page false := by
  refine ⟨fun rows _ => ?_, ?_⟩
  · rw [window_eq]
    obtain ⟨_ | limit, _ | offset⟩ := page <;> rfl
  · obtain ⟨_ | limit, _ | offset⟩ := page <;> exact .refl _

/-- No limit is a negative one, or one that no result exceeds. -/
theorem unboundedCut_serves {unbounded : Int}
    (h : unbounded < 0 ∨ ((UInt64.size - 1 : Nat) : Int) ≤ unbounded) (page : Page) :
    (page.unboundedCut unbounded).Serves page false := by
  obtain ⟨_ | limit, _ | offset⟩ := page
  case none.some =>
    refine ⟨fun rows hrows => ?_, .refl _⟩
    have hall : Cut.limited (some unbounded) (rows.drop offset.toNat) = rows.drop offset.toNat := by
      unfold Cut.limited
      obtain h | h := h
      · exact if_pos h
      · have hlength : (rows.drop offset.toNat).length ≤ unbounded.toNat := by
          rw [List.length_drop]
          omega
        dsimp only
        rw [if_neg (by omega), List.take_of_length_le hlength]
    rw [window_eq]
    exact hall
  all_goals exact standardCut_serves _

theorem fetchCut_serves (page : Page) : page.fetchCut.Serves page false := by
  obtain ⟨_ | limit, _ | offset⟩ := page
  case none.none => exact standardCut_serves ⟨none, none⟩
  case some.none => exact ⟨(standardCut_serves ⟨some limit, none⟩).rows, .refl _⟩
  case none.some => exact ⟨(standardCut_serves ⟨none, some offset⟩).rows, .refl _⟩
  case some.some => exact ⟨(standardCut_serves ⟨some limit, some offset⟩).rows, .swap _ _ _⟩

theorem Fits.lastRow_eq (h : page.Fits) {limit offset : UInt64} (hlimit : page.limit = some limit)
    (hoffset : page.offset = some offset) :
    (lastRow limit offset).toNat = offset.toNat + limit.toNat := by
  have hlast := h.last limit hlimit
  rw [skipped, hoffset] at hlast
  have hmax : Int64.maxValue.toInt < (UInt64.size : Int) := by decide
  refine toNat_lastRow ?_
  change ((offset.toNat + limit.toNat : Nat) : Int) ≤ _ at hlast
  omega

theorem numberedCut_serves (h : page.Fits) : page.numberedCut.Serves page true := by
  have hupper (limit : UInt64) (hlimit : page.limit = some limit) :
      (page.offset.elim limit (lastRow limit)).toNat = page.skipped + limit.toNat := by
    unfold skipped
    cases hoffset : page.offset with
    | none => exact (Nat.zero_add _).symm
    | some offset => exact h.lastRow_eq hlimit hoffset
  refine ⟨fun rows _ => ?_, ?_⟩
  · let upper? : Option Int := page.limit.map fun limit => (page.skipped + limit.toNat : Nat)
    let lower? : Option Int := page.offset.map fun offset => offset.toNat
    have hcut : page.numberedCut.asked.map Count.value = .numbered upper? lower? := by
      simp only [numberedCut, Cut.asked, Cut.map, Option.map_map]
      refine congrArg (Cut.numbered · lower?) (Option.map_congr fun limit hlimit => ?_)
      exact congrArg Nat.cast (hupper limit hlimit)
    have hpass (n : Nat) : upper?.all (((n + 1 : Nat) : Int) ≤ ·) = true →
        upper?.all ((n : Int) ≤ ·) = true := by
      cases upper? with
      | none => exact fun _ => rfl
      | some upper =>
        simp only [Option.all_some, decide_eq_true_eq]
        omega
    rw [hcut, Cut.rows, Cut.passing_eq_filter hpass, List.filter_filter, window]
    refine congrArg (fun test => ((rows.zipIdx 1).filter test).map Prod.fst) (funext fun row => ?_)
    rw [holds, Option.all_map, Option.all_map]
    simp only [Int.ofNat_le, Int.ofNat_lt]
  · have hcount : ((page.numberedCut.toList.filterMap Count.bound?).map fun r => r.rows.toNat) =
        page.counts true := by
      have hlast : page.limit.map (fun limit => (page.offset.elim limit (lastRow limit)).toNat) =
          page.limit.map fun limit => page.skipped + limit.toNat :=
        Option.map_congr hupper
      simp only [counts, if_true, ← hlast, numberedCut]
      cases page.limit <;> cases page.offset <;> rfl
    rw [hcount]

section

variable {d : Dialect} (page : Page)

theorem standardCut_understood (hkind : d.pageSyntax = none) (hlimits : d.limitOffset = true) :
    d.Understands page.standardCut.asked := by
  refine ⟨?_, fun n hn => ?_⟩
  · obtain ⟨_ | limit, _ | offset⟩ := page <;>
      simp [standardCut, Cut.asked, Cut.map, Cut.HasForm, hkind, hlimits]
  · obtain ⟨_ | limit, _ | offset⟩ := page <;>
      simp [standardCut, Cut.asked, Cut.map, Cut.toList, Count.map] at hn

theorem unboundedCut_understood {unbounded : Int}
    (hkind : d.pageSyntax = some (.limitOffset (toString unbounded))) :
    d.Understands (page.unboundedCut unbounded).asked := by
  refine ⟨?_, fun n hn => ?_⟩
  · obtain ⟨_ | limit, _ | offset⟩ := page <;>
      simp [unboundedCut, standardCut, Cut.asked, Cut.map, Cut.HasForm, hkind]
  · obtain ⟨_ | limit, _ | offset⟩ := page <;>
      simp [unboundedCut, standardCut, Cut.asked, Cut.map, Cut.toList, Count.map] at hn
    rw [hkind, hn]

theorem fetchCut_understood (hkind : d.pageSyntax = some .offsetFetch) (htop : d.topRows = true) :
    d.Understands page.fetchCut.asked := by
  refine ⟨?_, fun n hn => ?_⟩
  · obtain ⟨_ | limit, _ | offset⟩ := page <;>
      simp [fetchCut, Cut.asked, Cut.map, Cut.HasForm, hkind, htop]
  · obtain ⟨_ | limit, _ | offset⟩ := page <;>
      simp [fetchCut, Cut.asked, Cut.map, Cut.toList, Count.map] at hn

theorem numberedCut_understood (hrow : d.rowNumbers = true) :
    d.Understands page.numberedCut.asked := by
  refine ⟨hrow, fun n hn => ?_⟩
  obtain ⟨_ | limit, _ | offset⟩ := page <;>
    simp [numberedCut, Cut.asked, Cut.map, Cut.toList, Count.map] at hn

end

end Page

end SqlTree
