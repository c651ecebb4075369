import SqlTree.Proofs.Markers.Collector
import SqlTree.Proofs.Paging.Cut

/-!
# SqlTree.Proofs.Paging.Bound

Cuts whose counts are bound.  What the dialects write of a page is the text
of its cut, with each count bound as it is come to (`standardPage_eq_tail`,
`limitOffsetPage_eq_tail`, `offsetFetchPage_eq_tail`, `topHead_eq_head`,
`numberRows_eq_around`).  A count that is bound is found again in any later
collector by the key that its marker shows (`Collector.entryAt?_bindAll`), so
the cut in the text reads as the one that was asked for
(`Cut.binds`).
-/

namespace SqlTree

/-! ## Keys -/

namespace Collector

/-- The key that the next value gets. -/
def nextKey (c : Collector) (hint : String) : Key :=
  match c.style with
  | .positional => .position (c.size + 1)
  | .named => .named (markerOf (hintWord hint) (c.nextNumber (hintWord hint)))

/-- The entry that a marker of this key stands for. -/
def entryAt? (c : Collector) : Key → Option Entry
  | .named marker => c.find? marker
  | .position n => c.findAt? n

theorem fst_record (c : Collector) (v : Value) (type : BindType) (hint : String) :
    (c.record v type hint).1 = (c.nextKey hint).marker := by
  unfold record nextKey
  split <;> simp_all [Key.marker]

theorem entries_bind (c : Collector) (b : Binding) :
    (c.bind b).entries = c.entries ++ [⟨c.nextKey b.hint, b.value, b.type⟩] := by
  unfold bind record nextKey
  split <;> simp_all

/-- A value is found under its key, whatever is bound after it. -/
theorem entryAt?_bindAll (c : Collector) (b : Binding) (bs : List Binding) :
    ((c.bind b).bindAll bs).entryAt? (c.nextKey b.hint) =
      some ⟨c.nextKey b.hint, b.value, b.type⟩ := by
  obtain ⟨added, hadded, -, -⟩ := (c.bind b).entries_bindAll bs
  rw [entries_bind, List.append_assoc, List.singleton_append] at hadded
  cases hstyle : c.style with
  | positional =>
    have hkey : c.nextKey b.hint = .position (c.size + 1) := by rw [nextKey, hstyle]
    have hstyle' : ((c.bind b).bindAll bs).style = .positional := by
      rw [style_bindAll, style_bind, hstyle]
    rw [hkey] at hadded ⊢
    rw [entryAt?, findAt?, if_pos hstyle', hadded, size, List.getElem?_append_right (Nat.le_refl _),
      Nat.sub_self]
    rfl
  | named =>
    obtain ⟨marker, hkey, hfree⟩ : ∃ marker, c.nextKey b.hint = .named marker ∧
        c.isTaken marker = false := by
      rw [nextKey, hstyle]
      exact ⟨_, rfl, not_isTaken_nextNumber c _⟩
    have hnone : c.entries.find? (fun e => e.key == .named marker) = none := by
      rwa [isTaken, List.any_eq_false, ← List.find?_eq_none] at hfree
    rw [hkey] at hadded ⊢
    rw [entryAt?, find?, hadded, List.find?_append, hnone, Option.none_or,
      List.find?_cons_of_pos (by simp)]

end Collector

/-! ## Counts -/

namespace Count

/-- A count in a text with the integer that its marker stands for, given the
values that are bound. -/
def read (c : Collector) : Count Key → Option (Count Int)
  | bound key =>
    match c.entryAt? key with
    | some ⟨_, .int n, .int⟩ => some (.bound n.toInt)
    | _ => none
  | numeral n => some (.numeral n)

/-- The marker of a count in a text. -/
def marker? (count : Count Key) : Option String := count.bound?.map Key.marker

/-- The values to bind. -/
def bindings : Count Request → List Binding
  | bound r => [⟨.int (Int64.ofNat r.rows.toNat), .int, r.hint⟩]
  | numeral _ => []

/-- Binds the count, if it is one to bind. -/
def collect : Count Request → Collecting (Count Key)
  | bound r => do
    let c ← get
    let _ ← Collecting.bindCount r.rows r.hint
    return .bound (c.nextKey r.hint)
  | numeral n => return .numeral n

@[simp] theorem collect_numeral (n : Int) : (numeral n).collect = pure (.numeral n) := rfl

theorem collect_bound (r : Request) (c : Collector) : (bound r).collect c =
    EStateM.map (fun _ => .bound (c.nextKey r.hint)) (Collecting.bindCount r.rows r.hint) c := rfl

/-- A count in a text is the marker that binding it answers. -/
theorem text_collect (n : UInt64) (hint : String) :
    Collecting.bindCount n hint = text <$> (bound ⟨n, hint⟩).collect := by
  funext c
  have hcollect : (text <$> (bound ⟨n, hint⟩).collect : Collecting String) c =
      EStateM.map (fun _ => (c.nextKey hint).marker) (Collecting.bindCount n hint) c := by
    change EStateM.map text _ c = _
    rw [EStateM.map, collect_bound, EStateM.map, EStateM.map]
    cases Collecting.bindCount n hint c <;> rfl
  rw [hcollect, EStateM.map, Collecting.bindCount]
  split
  · exact congrArg (EStateM.Result.ok · _) (c.fst_record _ _ _)
  · rfl

end Count

/-! ## Texts -/

section

variable (page : Page) (ordered : Bool)

theorem standardPage_eq_tail :
    standardPage page = Cut.tail ordered <$> page.standardCut.mapM Count.collect := by
  obtain ⟨_ | limit, _ | offset⟩ := page <;>
    simp [standardPage, standardPart, Page.standardCut, Cut.mapM, Count.text_collect, Cut.tail]

theorem limitOffsetPage_eq_tail (unbounded : Int) : limitOffsetPage (toString unbounded) page =
    Cut.tail ordered <$> (page.unboundedCut unbounded).mapM Count.collect := by
  have hone (limit : String) : joined " " ["LIMIT " ++ limit] = s!"LIMIT {limit}" := rfl
  have hboth (limit offset : String) : joined " " ["LIMIT " ++ limit, "OFFSET " ++ offset] =
      s!"LIMIT {limit} OFFSET {offset}" := by
    simp [joined, toString, ← String.toList_inj]
  obtain ⟨_ | limit, _ | offset⟩ := page
  case none.none => rfl
  all_goals
    simp [limitOffsetPage, Page.unboundedCut, Page.standardCut, Cut.mapM, Count.text_collect,
      Cut.tail, hone, hboth]

theorem offsetFetchPage_eq_tail (h : page.offset.isSome = true) : offsetFetchPage page ordered =
    Cut.tail ordered <$> page.fetchCut.mapM Count.collect := by
  obtain ⟨_ | limit, _ | offset⟩ := page
  case none.none | some.none => cases h
  all_goals
    simp [offsetFetchPage, Page.fetchCut, Cut.mapM, Count.text_collect, Cut.tail]

theorem topHead_eq_head (quantifier : Option String) (h : page.offset = none) :
    topHead quantifier page =
      (quantifierHead quantifier ++ Cut.head ·) <$> page.fetchCut.mapM Count.collect := by
  obtain ⟨_ | limit, _ | offset⟩ := page
  case none.some | some.some => cases h
  all_goals
    simp [topHead, Page.fetchCut, Cut.mapM, Count.text_collect, Cut.head]

theorem numberRows_eq_around (sql : String) : numberRows sql page =
    (Cut.around · sql) <$> page.numberedCut.mapM Count.collect := by
  obtain ⟨_ | limit, _ | offset⟩ := page
  case none.none => rfl
  all_goals
    simp [numberRows, Page.numberedCut, Cut.mapM, Count.text_collect, Cut.around_upper,
      Cut.around_lower, Cut.around_both]

end

/-! ## What is bound -/

namespace Collecting

variable {α α' β β' γ γ' : Type}

/-- From any collector the action binds these values.  What it answers has
their markers, and reads as `value` in every later collector. -/
def Binds (action : Collecting α) (bs : List Binding) (markers : α → List String)
    (read : Collector → α → Option β) (value : β) : Prop :=
  ∀ c, ∃ a, action c = .ok a (c.bindAll bs) ∧ markers a = c.markersFor bs ∧
    ∀ later, read ((c.bindAll bs).bindAll later) a = some value

variable {action : Collecting α} {action' : Collecting α'} {bs bs' : List Binding}
  {markers : α → List String} {markers' : α' → List String} {read : Collector → α → Option β}
  {read' : Collector → α' → Option β'} {value : β} {value' : β'}

/-- Two actions one after the other bind what each of them binds. -/
theorem Binds.pair (h : Binds action bs markers read value)
    (h' : Binds action' bs' markers' read' value') {f : α → α' → γ} {g : β → β' → γ'}
    {both : γ → List String} {readBoth : Collector → γ → Option γ'}
    (hmarkers : ∀ a a', both (f a a') = markers a ++ markers' a')
    (hread : ∀ c a a', read c a = some value → read' c a' = some value' →
      readBoth c (f a a') = some (g value value')) :
    Binds (do let a ← action; let a' ← action'; return f a a') (bs ++ bs') both readBoth
      (g value value') := by
  intro c
  obtain ⟨a, hrun, hm, hr⟩ := h c
  obtain ⟨a', hrun', hm', hr'⟩ := h' (c.bindAll bs)
  refine ⟨f a a', ?_, ?_, fun later => hread _ a a' ?_ ?_⟩
  · simp only [bind, EStateM.bind, hrun, hrun', Collector.bindAll_append]
    rfl
  · rw [hmarkers, hm, hm', Collector.markersFor_append]
  · have hlater := hr (bs' ++ later)
    rwa [Collector.bindAll_append, ← Collector.bindAll_append c] at hlater
  · rw [Collector.bindAll_append]
    exact hr' later

/-- The answer put into something else. -/
theorem Binds.map (h : Binds action bs markers read value) {f : α → γ} {g : β → γ'}
    {whole : γ → List String} {readWhole : Collector → γ → Option γ'}
    (hmarkers : ∀ a, whole (f a) = markers a)
    (hread : ∀ c a, read c a = some value → readWhole c (f a) = some (g value)) :
    Binds (f <$> action) bs whole readWhole (g value) := by
  intro c
  obtain ⟨a, hrun, hm, hr⟩ := h c
  refine ⟨f a, ?_, (hmarkers a).trans hm, fun later => hread _ a (hr later)⟩
  change EStateM.map f action c = _
  rw [EStateM.map, hrun]

end Collecting

namespace Count

/-- The count is a signed integer, if it is one to bind. -/
def Fits (count : Count Request) : Prop :=
  ∀ r, count.bound? = some r → (r.rows.toNat : Int) ≤ Int64.maxValue.toInt

theorem binds {count : Count Request} (h : count.Fits) :
    count.collect.Binds count.bindings (fun count => count.marker?.toList) read
      (count.map Request.value) := by
  intro c
  cases count with
  | numeral n => exact ⟨.numeral n, rfl, rfl, fun _ => rfl⟩
  | bound r =>
    have hrows : (r.rows.toNat : Int) ≤ Int64.maxValue.toInt := h r rfl
    have hvalue : (Int64.ofNat r.rows.toNat).toInt = r.rows.toNat := by
      have hmax : Int64.maxValue.toInt < 2 ^ 63 := by decide
      exact Int64.toInt_ofNat_of_lt (by omega)
    refine ⟨.bound (c.nextKey r.hint), ?_, ?_, fun later => ?_⟩
    · rw [collect_bound, EStateM.map, Collecting.bindCount, if_pos hrows]
      rfl
    · simp [marker?, bound?, bindings, Collector.markersFor, Collector.fst_record]
    · have hentry := c.entryAt?_bindAll ⟨.int (Int64.ofNat r.rows.toNat), .int, r.hint⟩ later
      change (match ((c.bind _).bindAll later).entryAt? (c.nextKey r.hint) with
        | some ⟨_, .int n, .int⟩ => some (bound n.toInt)
        | _ => none) = _
      rw [hentry]
      exact congrArg (fun n => some (bound n)) hvalue

/-- A count that may be missing. -/
theorem binds_option {count? : Option (Count Request)}
    (h : ∀ count, count? = some count → count.Fits) :
    (count?.mapM collect).Binds (count?.toList.flatMap bindings)
      (fun count? => count?.toList.filterMap marker?) (fun c count? => count?.mapM (read c))
      (count?.map (map Request.value)) := by
  cases count? with
  | none => exact fun c => ⟨none, rfl, rfl, fun _ => rfl⟩
  | some count =>
    have hbindings : count.bindings = (some count).toList.flatMap bindings := by simp
    rw [← hbindings]
    refine (binds (h count rfl)).map (fun count => ?_) fun c count hread => ?_
    · cases count <;> rfl
    · rw [Option.mapM_some, hread]
      rfl

end Count

namespace Cut

/-- A cut in a text with its counts read, if they can be. -/
def read (c : Collector) (cut : Cut (Count Key)) : Option (Cut (Count Int)) :=
  cut.mapM (Count.read c)

/-- The markers in the text of a cut. -/
def markers (cut : Cut (Count Key)) : List String := cut.toList.filterMap Count.marker?

/-- The values to bind for a cut. -/
def bindings (cut : Cut (Count Request)) : List Binding := cut.toList.flatMap Count.bindings

/-- Reading the counts leaves a cut where it stands. -/
theorem place_of_read {c : Collector} {cut : Cut (Count Key)} {counts : Cut (Count Int)}
    (h : cut.read c = some counts) : counts.place = cut.place := by
  cases cut with
  | top limit =>
    obtain ⟨_, -, h⟩ := Option.bind_eq_some_iff.1 h
    cases h
    rfl
  | _ =>
    obtain ⟨_, -, h⟩ := Option.bind_eq_some_iff.1 h
    obtain ⟨_, -, h⟩ := Option.bind_eq_some_iff.1 h
    cases h
    rfl

/-- A cut in a text reads as the one that was asked for. -/
theorem binds {cut : Cut (Count Request)} (h : ∀ count ∈ cut.toList, count.Fits) :
    (cut.mapM Count.collect).Binds cut.bindings markers read cut.asked := by
  have hoption {count? : Option (Count Request)} (hcount : count?.toList ⊆ cut.toList) :
      ∀ count, count? = some count → count.Fits :=
    fun count heq => h count (hcount (by simp [heq]))
  cases cut with
  | limits limit? offset? =>
    rw [bindings, toList, List.flatMap_append]
    refine (Count.binds_option (hoption (List.subset_append_left _ _))).pair
      (Count.binds_option (hoption (List.subset_append_right _ _))) (f := limits) (g := limits)
      (fun limit? offset? => List.filterMap_append) fun c limit? offset? hlimit hoffset => ?_
    rw [read, mapM, hlimit, hoffset]
    rfl
  | top limit =>
    rw [bindings, toList, List.flatMap_singleton]
    refine (Count.binds (h limit List.mem_cons_self)).map (f := top) (g := top) (fun limit => ?_)
      fun c limit hlimit => ?_
    · rw [markers, toList]
      cases limit <;> rfl
    · rw [read, mapM, hlimit]
      rfl
  | fetch offset limit? =>
    rw [bindings, toList, List.flatMap_cons]
    refine (Count.binds (h offset List.mem_cons_self)).pair
      (Count.binds_option (hoption (List.subset_cons_self _ _))) (f := fetch) (g := fetch)
      (fun offset limit? => ?_) fun c offset limit? hoffset hlimit => ?_
    · rw [markers, toList]
      cases offset <;> rfl
    · rw [read, mapM, hoffset, hlimit]
      rfl
  | numbered upper? lower? =>
    rw [bindings, toList, List.flatMap_append]
    refine (Count.binds_option (hoption (List.subset_append_left _ _))).pair
      (Count.binds_option (hoption (List.subset_append_right _ _))) (f := numbered) (g := numbered)
      (fun upper? lower? => List.filterMap_append) fun c upper? lower? hupper hlower => ?_
    rw [read, mapM, hupper, hlower]
    rfl

namespace Serves

variable {cut : Cut (Count Request)} {page : Page} {numbered : Bool} (h : cut.Serves page numbered)
include h

/-- The counts of a page that fits are those of its cut. -/
theorem fits (hpage : page.Fits) : ∀ count ∈ cut.toList, count.Fits := by
  intro count hcount r hr
  have hmem : r.rows.toNat ∈ page.counts numbered :=
    h.counts.subset (List.mem_map_of_mem (List.mem_filterMap.2 ⟨count, hcount, hr⟩))
  rcases List.mem_append.1 hmem with hrows | hrows
  · obtain ⟨limit, hlimit, hrows⟩ := Option.map_eq_some_iff.1 (Option.mem_toList.1 hrows)
    have hlast := hpage.last limit hlimit
    rw [← hrows]
    split <;> omega
  · obtain ⟨offset, hoffset, hrows⟩ := Option.map_eq_some_iff.1 (Option.mem_toList.1 hrows)
    rw [← hrows]
    exact hpage.offset offset hoffset

/-- They are bound as integers, each of them once. -/
theorem bindings : (cut.bindings.map fun b => (b.value, b.type)).Perm
    ((page.counts numbered).map fun n => (.int (Int64.ofNat n), .int)) := by
  have hbindings : (cut.bindings.map fun b => (b.value, b.type)) =
      ((cut.toList.filterMap Count.bound?).map fun r => r.rows.toNat).map
        fun n => (.int (Int64.ofNat n), .int) := by
    rw [Cut.bindings]
    induction cut.toList with
    | nil => rfl
    | cons count counts ih =>
      rw [List.flatMap_cons, List.map_append, ih]
      cases count <;> rfl
  rw [hbindings]
  exact h.counts.map _

end Serves

end Cut

end SqlTree
