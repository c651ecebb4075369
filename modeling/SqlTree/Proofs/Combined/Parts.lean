import SqlTree.Proofs.Caching.Building
import SqlTree.Proofs.Caching.Node
import SqlTree.Proofs.Requoting

/-!
# SqlTree.Proofs.Combined.Parts

The parts of a select that has been combined with another one.  What is
written up to `HAVING` is the core of the select; the other select, the
order and the page come behind it.  A select that differs in these alone has
the same core (`Select.MadeOf.vary`).
-/

namespace SqlTree

/-! ## Places of a page -/

/-- A limit stands before the columns just where rows are fetched behind an
offset, and there rows are not numbered. -/
theorem Dialect.Shipped.topRows_eq {d : Dialect} (hd : d.Shipped) :
    (d.topRows = true ↔ d.pageSyntax = some .offsetFetch) ∧
      (d.topRows && d.rowNumbers) = false := by
  induction hd with
  | withConnection _ connection ih =>
    obtain ⟨connection?, hd⟩ := withConnection_eq _ connection
    rw [hd]
    exact ih
  | sqlServer => exact ⟨by decide, rfl⟩
  | _ => exact ⟨⟨nofun, nofun⟩, rfl⟩

theorem Dialect.Shipped.not_rowNumbers {d : Dialect} (hd : d.Shipped) (h : d.topRows = true) :
    ¬d.rowNumbers = true := fun hrow => by
  have hboth := hd.topRows_eq.2
  rw [h, hrow] at hboth
  cases hboth

namespace Constructs

/-- The page as far as it stands before the columns. -/
def headPage (k : Constructs) (page : Page) : Page :=
  if k.topRows && page.offset.isNone then page else .all

/-- Something of the page stands at the end of the select. -/
def asksBehind (k : Constructs) (page : Page) : Bool :=
  (k.innerPage page).isPartial && !(k.topRows && page.offset.isNone)

theorem headPage_eq_all {k : Constructs} {page : Page}
    (h : k.topRows = false ∨ page.offset.isSome = true) : k.headPage page = .all := by
  unfold headPage
  rw [if_neg]
  obtain htop | hoffset := h
  · simp [htop]
  · simp [Option.isNone_iff_eq_none, Option.isSome_iff_ne_none.1 hoffset]

@[simp] theorem innerPage_all (k : Constructs) : k.innerPage .all = .all := by
  unfold innerPage
  split <;> rfl

end Constructs

namespace Draft

variable {d : Dialect}

theorem columnHead_headPage (k : Constructs) (quantifier : Option String) (page : Page) :
    columnHead k quantifier (k.innerPage (k.headPage page)) =
      columnHead k quantifier (k.innerPage page) := by
  unfold Constructs.innerPage Constructs.headPage columnHead
  obtain ⟨_ | n, _ | m⟩ := page <;> cases k.rowNumbers <;> cases k.topRows <;> rfl

/-- Nothing is written around a select but to number its rows. -/
theorem aroundSelect_eq_ok {k : Constructs} {page : Page}
    (h : ¬(k.rowNumbers && page.isPartial) = true) (p : Draft) :
    aroundSelect k p page = .ok p := by
  unfold aroundSelect
  split
  · next hrow =>
    rw [hrow, Bool.true_and] at h
    obtain ⟨_ | n, _ | m⟩ := page
    case none.none => rfl
    all_goals exact absurd rfl h
  · rfl

theorem aroundSelect_all (k : Constructs) (p : Draft) : aroundSelect k p .all = .ok p :=
  aroundSelect_eq_ok (by simp [Page.isPartial, Page.all]) p

/-- What does not stand at the end of a select is not asked for there. -/
theorem innerPageClause_of_not_asksBehind (hd : d.Shipped) {page : Page}
    (h : d.constructs.asksBehind page = false) (ordered : Bool) :
    innerPageClause d.constructs page ordered = .ok (code "") := by
  unfold innerPageClause
  split
  · next hpage =>
    rw [Constructs.asksBehind, hpage, Bool.true_and, Bool.not_eq_false', Bool.and_eq_true] at h
    obtain ⟨htop, hoffset⟩ := h
    have hrow : ¬d.constructs.rowNumbers = true := hd.not_rowNumbers htop
    have hsyntax : d.constructs.pageSyntax = some .offsetFetch := hd.topRows_eq.1.1 htop
    rw [Constructs.innerPage, if_neg hrow, pageClause, hsyntax]
    change offsetFetchPage page ordered = _
    rw [offsetFetchPage, Option.isNone_iff_eq_none.1 hoffset]
  · rfl

/-- Nothing is left of what stands before the columns. -/
theorem page_headPage (hd : d.Shipped) (page : Page) (ordered : Bool) :
    innerPageClause d.constructs (d.constructs.headPage page) ordered = .ok (code "") ∧
      ∀ p, aroundSelect d.constructs p (d.constructs.headPage page) = .ok p := by
  unfold Constructs.headPage
  split
  · next htop =>
    have hasks : d.constructs.asksBehind page = false := by
      rw [Constructs.asksBehind, htop]
      exact Bool.and_false _
    have hrow : ¬(d.constructs.rowNumbers && page.isPartial) = true := fun h =>
      hd.not_rowNumbers (Bool.and_eq_true_iff.1 htop).1 (Bool.and_eq_true_iff.1 h).1
    exact ⟨innerPageClause_of_not_asksBehind hd hasks ordered, aroundSelect_eq_ok hrow⟩
  · have hasks : d.constructs.asksBehind .all = false := by
      rw [Constructs.asksBehind, Constructs.innerPage_all]
      rfl
    exact ⟨innerPageClause_of_not_asksBehind hd hasks ordered, aroundSelect_all _⟩

end Draft

/-! ## Selects -/

namespace Select

/-- The page that is asked for. -/
def page (s : Select) : Page := ⟨s.limit, s.offset⟩

/-- The names that prefixes are looked for. -/
def names (s : Select) : List String := knownNames s.origin? s.joins

/-- The quantifier of the columns. -/
def quantifier (s : Select) : Option String := if s.distinct then some "DISTINCT" else none

/-- The star that stands for all columns. -/
def star (s : Select) : Draft := Draft.star (s.origin?.bind Origin.alias?)

/-- The select with another combination, order and page. -/
def vary (s : Select) (combined? : Option (SetOperation × Select))
    (orderBy : List (Reference × Direction)) (page : Page) : Select :=
  { s.touched with combined?, orderBy, limit := page.limit, offset := page.offset }

/-- The select without a page. -/
def unpaged (s : Select) : Select := (s.setLimit none).setOffset none

theorem unpaged_eq_vary (s : Select) : s.unpaged = s.vary s.combined? s.orderBy .all := rfl

/-- The select up to `HAVING`, with what of its page stands before the
columns. -/
def core (d : Dialect) (s : Select) : Select := s.vary none [] (d.constructs.headPage s.page)

/-- The select without a page that is cut from around it. -/
def inner (d : Dialect) (s : Select) : Select := if d.rowNumbers then s.unpaged else s

end Select

/-! ## Texts -/

namespace Draft

variable {d : Dialect}

/-- The parts up to `HAVING`. -/
def SelectParts.core (parts : SelectParts) : SelectParts :=
  { parts with combined := code "", orderBy := [], page := code "" }

theorem bindings_core (parts : SelectParts) : (select parts).bindings =
    (select parts.core).bindings ++ (parts.combined.bindings ++ parts.page.bindings) := by
  simp [SelectParts.core]

/-- Behind the core stand the other select, the order and the page. -/
theorem text_select_core (parts : SelectParts) (c : Collector) :
    (select parts).text d c = (select parts.core).text d c ++
      (parts.combined.text d ((select parts.core).after c) ++ (orderByText d parts.orderBy ++
        SqlTree.spaced (parts.page.text d (parts.combined.after ((select parts.core).after c))))) := by
  have hnone : orderByText d [] = "" := rfl
  have hempty : SqlTree.spaced "" = "" := rfl
  simp only [select, SelectParts.core, text_append, text_code, text_joined, text_into, text_joins,
    text_spaced, text_groupBy, text_orderBy, after_append, after_code, after_joined, after_into,
    after_joins, after_spaced, after_groupBy, after_orderBy, hnone, hempty, String.append_empty,
    String.append_assoc]

end Draft

namespace Select

variable {k : Constructs} {s : Select}

/-- The parts are those that the draft of the select is made of. -/
structure MadeOf (k : Constructs) (s : Select) (parts : Draft.SelectParts) : Prop where
  head : Draft.columnHead k s.quantifier (k.innerPage s.page) = .ok parts.head
  columns : ∃ ps, columnDrafts k s.star s.columns = .ok ps ∧
    parts.columns = Draft.columnsOr s.star ps
  into : parts.into? = s.into?
  origin : originDraft k s.pretty s.nesting s.origin? = .ok parts.origin
  joins : joinDrafts k s.joins = .ok parts.joins
  filter : s.filter.draft k = .ok parts.filter
  groupBy : parts.groupBy = s.groupBy
  having : s.having.draft k = .ok parts.having
  combined : combinedDraft k s.combined? = .ok parts.combined
  orderBy : parts.orderBy = s.orderBy
  page : Draft.innerPageClause k s.page (!s.orderBy.isEmpty) = .ok parts.page

theorem exists_madeOf {p : Draft} (h : s.draft k = .ok p) : ∃ parts, s.MadeOf k parts ∧
    Draft.aroundSelect k (.requoted s.names (Draft.select parts)) s.page = .ok p := by
  obtain ⟨distinct, columns, into?, origin?, joins, filter, groupBy, having, combined?, orderBy,
    limit, offset, nesting, pretty, columnTexts, cache⟩ := s
  rw [Select.draft] at h
  obtain ⟨head, hhead, h⟩ := exists_of_bind_eq_ok h
  obtain ⟨ps, hcolumns, h⟩ := exists_of_bind_eq_ok h
  obtain ⟨origin, horigin, h⟩ := exists_of_bind_eq_ok h
  obtain ⟨joined, hjoined, h⟩ := exists_of_bind_eq_ok h
  obtain ⟨filter', hfilter, h⟩ := exists_of_bind_eq_ok h
  obtain ⟨having', hhaving, h⟩ := exists_of_bind_eq_ok h
  obtain ⟨combined, hcombined, h⟩ := exists_of_bind_eq_ok h
  obtain ⟨last, hlast, h⟩ := exists_of_bind_eq_ok h
  let parts : Draft.SelectParts :=
    { head, columns := Draft.columnsOr (Draft.star (origin?.bind Origin.alias?)) ps, into?, origin,
      joins := joined, filter := filter', groupBy, having := having', combined, orderBy,
      page := last }
  refine ⟨parts, ?_, h⟩
  exact ⟨hhead, ⟨ps, hcolumns, rfl⟩, rfl, horigin, hjoined, hfilter, rfl, hhaving, hcombined, rfl,
    hlast⟩

namespace MadeOf

variable {parts : Draft.SelectParts} (h : s.MadeOf k parts)
include h

theorem draft : s.draft k =
    Draft.aroundSelect k (.requoted s.names (Draft.select parts)) s.page := by
  obtain ⟨distinct, columns, into?, origin?, joins, filter, groupBy, having, combined?, orderBy,
    limit, offset, nesting, pretty, columnTexts, cache⟩ := s
  obtain ⟨hhead, ⟨ps, hcolumns, hcols⟩, hinto, horigin, hjoined, hfilter, hgroupBy, hhaving,
    hcombined, horderBy, hlast⟩ := h
  simp only [Select.quantifier, Select.page, Select.star] at hhead hcolumns hcols hlast
  simp only at hinto hgroupBy horderBy
  obtain ⟨head, cols, into', origin, joined, filter', groupBy', having', combined, orderBy',
    last⟩ := parts
  subst hcols hinto hgroupBy horderBy
  simp only [Select.draft, hhead, hcolumns, horigin, hjoined, hfilter, hhaving, hcombined, hlast]
  rfl

/-- With another combination, order and page the other parts stay, apart
from the head, which may hold a limit. -/
theorem vary {combined? : Option (SetOperation × Select)} {orderBy : List (Reference × Direction)}
    {page : Page} {head combined last : Draft}
    (hhead : Draft.columnHead k s.quantifier (k.innerPage page) = .ok head)
    (hcombined : combinedDraft k combined? = .ok combined)
    (hlast : Draft.innerPageClause k page (!orderBy.isEmpty) = .ok last) :
    (s.vary combined? orderBy page).MadeOf k { parts with head, combined, orderBy, page := last } :=
  ⟨hhead, h.columns, h.into, h.origin, h.joins, h.filter, h.groupBy, h.having, hcombined, rfl,
    hlast⟩

end MadeOf

namespace MadeOf

variable {d : Dialect} {parts : Draft.SelectParts} (h : s.MadeOf d.constructs parts)
include h

theorem core (hd : d.Shipped) :
    (s.core d).draft d.constructs = .ok (.requoted s.names (Draft.select parts.core)) := by
  obtain ⟨hlast, haround⟩ := Draft.page_headPage hd s.page false
  have hmade : (s.core d).MadeOf d.constructs parts.core :=
    h.vary ((Draft.columnHead_headPage _ _ _).trans h.head) rfl hlast
  rw [hmade.draft]
  exact haround _

theorem inner : (s.inner d).draft d.constructs = .ok (.requoted s.names (Draft.select parts)) := by
  have hrowNumbers : d.rowNumbers = d.constructs.rowNumbers := rfl
  rw [Select.inner, hrowNumbers]
  split
  · next hrow =>
    have hall : d.constructs.innerPage s.page = d.constructs.innerPage .all := by
      rw [Constructs.innerPage, if_pos hrow, Constructs.innerPage_all]
    have hhead := h.head
    have hlast := h.page
    rw [hall] at hhead
    rw [Draft.innerPageClause, hall] at hlast
    rw [unpaged_eq_vary, (h.vary hhead h.combined hlast).draft, ← h.orderBy]
    exact Draft.aroundSelect_all _ _
  · next hrow =>
    rw [h.draft, Draft.aroundSelect, if_neg hrow]

end MadeOf

theorem exists_combinedDraft {op : SetOperation} {other : Select} {p : Draft}
    (h : combinedDraft k (some (op, other)) = .ok p) : ∃ q, other.draft k = .ok q ∧
      Draft.code (" " ++ op.keyword ++ " ") ++ q = p := by
  rw [combinedDraft] at h
  exact exists_of_map_eq_ok h

/-- It is coherent if the select that it is combined with is. -/
theorem coherent_vary (h : s.Coherent) {combined? : Option (SetOperation × Select)}
    (hcombined : CombinedCoherent combined?) (orderBy : List (Reference × Direction))
    (page : Page) : (s.vary combined? orderBy page).Coherent :=
  coherent_of_unkept rfl rfl { inside h with combined := hcombined }

theorem combinedCoherent_none : CombinedCoherent none := trivial

theorem coherent_combined (h : s.Coherent) : CombinedCoherent s.combined? := (inside h).combined

theorem coherent_other {op : SetOperation} {other : Select} (h : s.Coherent)
    (hcombined : s.combined? = some (op, other)) : other.Coherent := by
  have hpart := coherent_combined h
  rw [hcombined] at hpart
  exact hpart

theorem coherent_unpaged (h : s.Coherent) : s.unpaged.Coherent := by
  rw [unpaged_eq_vary]
  exact coherent_vary h (coherent_combined h) _ _

theorem coherent_inner {d : Dialect} (h : s.Coherent) : (s.inner d).Coherent := by
  unfold inner
  split
  · exact coherent_unpaged h
  · exact h

end Select

/-! ## Answers -/

/-- An action whose effect is known answers it. -/
theorem Collecting.eq_ok_of_effect {α : Type} {action : Collecting α} {a : α} {c c' : Collector}
    (h : action.effect c = .ok (a, c')) : action c = .ok a c' := by
  rw [effect] at h
  cases hrun : action c with
  | ok a' s =>
    rw [hrun] at h
    cases h
    rfl
  | error e s => rw [hrun] at h; cases h

/-- A coherent node with a draft compiles to it. -/
theorem Node.compileInto_of_draft {d : Dialect} (hd : d.Shipped) {k : Kind} {n : Node k}
    (h : Coherent k n) {p : Draft} (hp : draft d.constructs k n = .ok p) (c : Collector) :
    answer (compileInto d k n c) = .ok (p.text d c) ∧
      (left (compileInto d k n c)).2 = p.after c := by
  obtain ⟨hanswer, hcollector⟩ := collector_compileInto hd h c
  rw [hanswer, hcollector, hp]
  exact ⟨rfl, rfl⟩

/-- So does a select. -/
theorem Select.compileInto_of_draft {d : Dialect} (hd : d.Shipped) {s : Select} (h : s.Coherent)
    {p : Draft} (hp : s.draft d.constructs = .ok p) (c : Collector) :
    answer (s.compileInto d c) = .ok (p.text d c) ∧ (left (s.compileInto d c)).2 = p.after c :=
  Node.compileInto_of_draft (k := .select) (n := s) hd h hp c

end SqlTree
