import SqlTree.Proofs.Paging.Parts

/-!
# SqlTree.Proofs.Paging.Node

A page means the same rows in every dialect.  A select with a page compiles
whenever it does without, and what its text has more is one cut
(`Select.CutBy`): around the select where rows are numbered, before its
columns where a limit stands by itself and the dialect writes `TOP`, and at
its end elsewhere.  The counts of the page are bound for it, each of them
once, and read with them the cut keeps the rows on the page
(`Reachable.cuts_page`).
-/

namespace SqlTree

/-! ## At the end of the select -/

namespace Dialect

variable {d : Dialect}

/-- What stands for no limit is a negative one or the greatest number of
rows. -/
theorem Shipped.exists_unbounded (hd : d.Shipped) {unbounded : String}
    (h : d.pageSyntax = some (.limitOffset unbounded)) : ∃ n : Int, toString n = unbounded ∧
      (n < 0 ∨ ((UInt64.size - 1 : Nat) : Int) ≤ n) := by
  rcases hd.unbounded_eq h with rfl | rfl
  · exact ⟨18446744073709551615, by decide +kernel, .inr (by decide)⟩
  · exact ⟨-1, by decide +kernel, .inl (by decide)⟩

/-- The page at the end of a select is asked for by a cut that serves it. -/
theorem Shipped.exists_request_behind (hd : d.Shipped) (hrow : d.rowNumbers = false)
    (hpages : d.limitOffset = true) (page : Page) (htop : d.topRows = true →
      page.limit.isSome = true → page.offset.isSome = true) : ∃ request : Cut (Count Request),
      request.Serves page false ∧ d.Understands request.asked ∧ request.place = .behind ∧
      ∀ ordered, d.innerPageClause page ordered =
        Cut.tail ordered <$> request.mapM Count.collect := by
  have hinner : d.innerPage page = page := by rw [innerPage, hrow, if_neg Bool.false_ne_true]
  by_cases hpage : page.isPartial = true
  · have hclause (ordered : Bool) : d.innerPageClause page ordered = d.pageClause page ordered := by
      rw [innerPageClause, hinner, if_pos hpage]
    simp only [hclause, pageClause]
    cases hkind : d.pageSyntax with
    | none =>
      refine ⟨page.standardCut, page.standardCut_serves,
        page.standardCut_understood hkind hpages, rfl, fun ordered => ?_⟩
      rw [← standardPage_eq_tail]
      exact if_pos hpages
    | some s =>
      cases s with
      | limitOffset unbounded =>
        obtain ⟨n, rfl, hn⟩ := hd.exists_unbounded hkind
        refine ⟨page.unboundedCut n, page.unboundedCut_serves hn,
          page.unboundedCut_understood hkind, ?_, fun ordered =>
          limitOffsetPage_eq_tail page ordered n⟩
        obtain ⟨_ | limit, _ | offset⟩ := page <;> rfl
      | offsetFetch =>
        have hoffset : page.offset.isSome = true := by
          have hfetch := htop (hd.topRows_eq.1.2 hkind)
          rcases Bool.or_eq_true_iff.1 hpage with h | h
          · exact hfetch h
          · exact h
        refine ⟨page.fetchCut, page.fetchCut_serves,
          page.fetchCut_understood hkind (hd.topRows_eq.1.2 hkind), ?_, fun ordered =>
          offsetFetchPage_eq_tail page ordered hoffset⟩
        obtain ⟨limit?, _ | offset⟩ := page
        · cases hoffset
        · rfl
  · obtain ⟨_ | limit, _ | offset⟩ := page
    case none.none =>
      refine ⟨.limits none none, Page.standardCut_serves ⟨none, none⟩, ⟨trivial, fun _ hn => absurd hn List.not_mem_nil⟩, rfl,
        fun ordered => ?_⟩
      rw [innerPageClause, hinner, if_neg hpage]
      rfl
    all_goals exact absurd rfl hpage

end Dialect

/-- No limit stands in the head if there is an offset with every limit that
could. -/
theorem Constructs.headPage_eq_all_of_offset {k : Constructs} {page : Page}
    (h : k.topRows = true → page.limit.isSome = true → page.offset.isSome = true) :
    k.headPage page = .all := by
  obtain ⟨_ | limit, _ | offset⟩ := page
  case none.none => exact ite_self _
  case some.none =>
    refine headPage_eq_all (.inl (Bool.eq_false_iff.2 fun htop => ?_))
    cases h htop rfl
  all_goals exact headPage_eq_all (.inr rfl)

/-- What is written at the end of a select is a page or nothing. -/
theorem Draft.isPage_or_empty_of_innerPageClause {d : Dialect} (hd : d.Shipped) {page : Page}
    {ordered : Bool} {last : Draft}
    (h : innerPageClause d.constructs page ordered = .ok last) :
    last.IsPage ∨ last = .code "" := by
  cases hasks : d.constructs.asksBehind page with
  | true => exact .inl (innerPageClause_isPage hd hasks ordered last h)
  | false =>
    have hnone := innerPageClause_of_not_asksBehind hd hasks ordered
    exact .inr (Except.ok.inj (h.symm.trans hnone))

/-- A cut that reads as a limit before the columns is one, with a marker for
its count. -/
theorem Cut.exists_top {c c' : Collector} {cut : Cut (Count Key)} {r : Request}
    (hread : cut.read c' = some (Cut.top (.bound r)).asked)
    (hmarkers : cut.markers = c.markersFor (Cut.top (.bound r)).bindings) :
    ∃ limit, cut = .top limit ∧ limit.text.toList.all isClear = true := by
  have hplace : cut.place = .columns := (place_of_read hread).symm
  cases cut with
  | top limit =>
    refine ⟨limit, rfl, ?_⟩
    cases limit with
    | numeral n => cases hmarkers
    | bound key =>
      have hkey := (List.cons.inj hmarkers).1
      rw [Count.text, hkey]
      exact c.all_isClear_record _
  | _ => cases hplace

/-! ## Cut selects -/

namespace Select

variable {s : Select} {parts : Draft.SelectParts}

/-- The select `s` compiles to `sql`, from the collector `c` to `c'`, and all
that its page adds is this cut.  Values that are bound for it come before or
behind those of the select without it, which goes on with `rest`. -/
structure CutBy (d : Dialect) (s : Select) (c : Collector) (sql : String) (c' : Collector)
    (cut : Cut (Count Key)) (before behind : List Binding) (rest : String) : Prop where
  unpaged : answer (s.unpaged.compileInto d (c.bindAll before)) = .ok (s.opening ++ rest)
  text : sql = cut.around (s.opening ++ cut.head ++ rest ++
    spaced (cut.tail (!s.orderBy.isEmpty)))
  collector : c' = (left (s.unpaged.compileInto d (c.bindAll before))).2.bindAll behind
  /-- Each value that is bound for the cut has its marker in it. -/
  markers : cut.markers = c.markersFor before ++
    (left (s.unpaged.compileInto d (c.bindAll before))).2.markersFor behind
  /-- The values are the counts of the page. -/
  counts : ((before ++ behind).map fun b => (b.value, b.type)).Perm
    ((s.page.counts d.rowNumbers).map fun n => (.int (Int64.ofNat n), .int))
  /-- A limit before the columns is one for all rows. -/
  whole : cut.place = .columns → s.combined? = none
  /-- With the values that are bound, the dialect understands the cut, which
  keeps the rows on the page. -/
  kept : ∃ counts, cut.read c' = some counts ∧ d.Understands counts ∧
    ∀ {ρ : Type} (rows : List ρ), rows.length < UInt64.size →
      (counts.map Count.value).rows rows = s.page.window rows

section

variable {d : Dialect} (hd : d.Shipped) (hs : s.Coherent) (hone : s.combined? = none)
  (hfits : s.page.Fits) (hmade : s.unpaged.MadeOf d.constructs parts)

include hone in
/-- A cut that reads as one that serves the page. -/
theorem CutBy.of_request {c c' : Collector} {sql rest : String} {cut : Cut (Count Key)}
    {before behind : List Binding} {request : Cut (Count Request)}
    (hserves : request.Serves s.page d.rowNumbers) (hunderstood : d.Understands request.asked)
    (hbindings : before ++ behind = request.bindings)
    (hread : cut.read c' = some request.asked)
    (hunpaged : answer (s.unpaged.compileInto d (c.bindAll before)) = .ok (s.opening ++ rest))
    (htext : sql = cut.around (s.opening ++ cut.head ++ rest ++
      spaced (cut.tail (!s.orderBy.isEmpty))))
    (hcollector : c' = (left (s.unpaged.compileInto d (c.bindAll before))).2.bindAll behind)
    (hmarkers : cut.markers = c.markersFor before ++
      (left (s.unpaged.compileInto d (c.bindAll before))).2.markersFor behind) :
    s.CutBy d c sql c' cut before behind rest where
  unpaged := hunpaged
  text := htext
  collector := hcollector
  markers := hmarkers
  counts := hbindings ▸ hserves.bindings
  whole := fun _ => hone
  kept := ⟨request.asked, hread, hunderstood, hserves.rows⟩

include hd hs hone hmade in
/-- Counts that are bound behind the values of the select leave these as they
are without the page. -/
theorem CutBy.of_behind {c c' : Collector} {sql rest : String} {cut : Cut (Count Key)}
    {request : Cut (Count Request)} (hserves : request.Serves s.page d.rowNumbers)
    (hunderstood : d.Understands request.asked)
    (hrest : (Draft.requoted s.names (Draft.select parts)).text d c = s.opening ++ rest)
    (htext : sql = cut.around (s.opening ++ cut.head ++ rest ++
      spaced (cut.tail (!s.orderBy.isEmpty))))
    (hafter : c' = ((Draft.requoted s.names (Draft.select parts)).after c).bindAll
      request.bindings)
    (hmarkers : cut.markers = ((Draft.requoted s.names (Draft.select parts)).after c).markersFor
      request.bindings)
    (hread : cut.read c' = some request.asked) :
    s.CutBy d c sql c' cut [] request.bindings rest := by
  obtain ⟨hwhole, hleft⟩ :=
    compileInto_of_draft hd (coherent_unpaged hs) hmade.draft_unpaged c
  refine .of_request hone hserves hunderstood rfl hread ?_ htext ?_ ?_
  · exact hwhole.trans (congrArg Except.ok hrest)
  · rw [hafter]
    exact congrArg (Collector.bindAll · _) hleft.symm
  · rw [hmarkers]
    exact congrArg (Collector.markersFor · _) hleft.symm

include hd hs hone hfits hmade

/-- Where rows are numbered, the cut stands around the select. -/
theorem exists_cutBy_around (hrow : d.rowNumbers = true) : ∃ p, s.draft d.constructs = .ok p ∧
    ∀ c, ∃ cut before behind rest,
      s.CutBy d c (p.text d c) (p.after c) cut before behind rest := by
  let whole := Draft.requoted s.names (Draft.select parts)
  have hserves : s.page.numberedCut.Serves s.page d.rowNumbers := by
    rw [hrow]
    exact Page.numberedCut_serves hfits
  have heffect (c : Collector) : Collecting.effect ((fun cut => cut.around (whole.text d c)) <$>
      s.page.numberedCut.mapM Count.collect) (whole.after c) =
        (Draft.scribe d).effect (Draft.numberRows whole s.page) c := by
    rw [← numberRows_eq_around]
    exact Draft.effect_numberRows whole s.page c
  obtain ⟨p, hp, hwritten⟩ := Draft.exists_of_binds (Cut.binds (hserves.fits hfits)) heffect
  -- the select within is the one without a page
  have hpaged : s.MadeOf d.constructs parts := by
    have hrow' : d.constructs.rowNumbers = true := hrow
    have hinner : d.constructs.innerPage s.page = d.constructs.innerPage s.unpaged.page := by
      rw [Constructs.innerPage, Constructs.innerPage, if_pos hrow', if_pos hrow']
    refine hmade.paged (hinner ▸ hmade.head) ?_
    rw [Draft.innerPageClause, hinner]
    exact hmade.page
  refine ⟨p, ?_, fun c => ?_⟩
  · rw [hpaged.draft, Draft.aroundSelect, if_pos (show d.constructs.rowNumbers = true from hrow)]
    exact hp
  obtain ⟨cut, htext, hafter, hmarkers, hread⟩ := hwritten c
  obtain ⟨rest, hrest⟩ := hmade.exists_rest d c
  have hplace : cut.place = .around := (Cut.place_of_read (hread [])).symm
  refine ⟨cut, [], s.page.numberedCut.bindings, rest, .of_behind hd hs hone hmade hserves
    (Page.numberedCut_understood _ hrow) hrest ?_ hafter hmarkers (hafter ▸ hread [])⟩
  rw [htext, hrest, Cut.head_eq_empty (by rw [hplace]; decide),
    Cut.tail_eq_empty (by rw [hplace]; decide), String.append_empty]
  exact congrArg cut.around String.append_empty.symm

/-- Where the page is asked for at the end of the select, the cut stands
there. -/
theorem exists_cutBy_behind (hrow : d.rowNumbers = false) (hpages : d.limitOffset = true)
    (htop : d.topRows = true → s.limit.isSome = true → s.offset.isSome = true) :
    ∃ p, s.draft d.constructs = .ok p ∧ ∀ c, ∃ cut before behind rest,
      s.CutBy d c (p.text d c) (p.after c) cut before behind rest := by
  let whole := Draft.requoted s.names (Draft.select parts)
  have hrow' : ¬d.constructs.rowNumbers = true := Bool.eq_false_iff.1 hrow
  obtain ⟨request, hserves, hunderstood, hplace, hclause⟩ :=
    hd.exists_request_behind hrow hpages s.page htop
  have heffect (c : Collector) : Collecting.effect
      (Cut.tail (!s.orderBy.isEmpty) <$> request.mapM Count.collect) c = (Draft.scribe d).effect
        (Draft.innerPageClause d.constructs s.page (!s.orderBy.isEmpty)) c := by
    rw [← hclause, Draft.effect_innerPageClause]
  obtain ⟨last, hlast, hwritten⟩ := Draft.exists_of_binds (Cut.binds (hserves.fits hfits)) heffect
  have hpaged : s.MadeOf d.constructs { parts with page := last } := by
    refine hmade.paged ?_ hlast
    rw [← Draft.columnHead_headPage, Constructs.headPage_eq_all_of_offset htop]
    exact hmade.head
  have hparts : ({ parts with page := last } : Draft.SelectParts).unpaged = parts := by
    rw [Draft.SelectParts.unpaged, ← hmade.parts_of_unpaged.2]
  refine ⟨.requoted s.names (Draft.select { parts with page := last }), ?_, fun c => ?_⟩
  · rw [hpaged.draft, Draft.aroundSelect, if_neg hrow']
  obtain ⟨cut, htext, hafter, hmarkers, hread⟩ := hwritten (whole.after c)
  obtain ⟨rest, hrest⟩ := hmade.exists_rest d c
  have hbehind : cut.place = .behind := by
    rw [← Cut.place_of_read (hread []), Cut.asked, Cut.place_map, hplace]
  have hafter' : (Draft.requoted s.names (Draft.select { parts with page := last })).after c =
      (whole.after c).bindAll request.bindings := by
    rw [← hafter, Draft.after_requoted, Draft.after_unpaged, hparts]
    rfl
  refine ⟨cut, [], request.bindings, rest, .of_behind hd hs hone hmade (hrow ▸ hserves)
    hunderstood hrest ?_ hafter' hmarkers (hafter' ▸ hread [])⟩
  rw [Draft.text_requoted_spaced s.blank_not_mem_names
      (Draft.isPage_or_empty_of_innerPageClause hd hlast), hparts, hrest,
    Cut.head_eq_empty (by rw [hbehind]; decide), Cut.around_eq (by rw [hbehind]; decide),
    String.append_empty]
  exact congrArg (s.opening ++ rest ++ SqlTree.spaced ·) htext

/-- Where the limit stands before the columns, so does the cut. -/
theorem exists_cutBy_columns (htop : d.topRows = true) {limit : UInt64}
    (hlimit : s.limit = some limit) (hoffset : s.offset = none) :
    ∃ p, s.draft d.constructs = .ok p ∧ ∀ c, ∃ cut before behind rest,
      s.CutBy d c (p.text d c) (p.after c) cut before behind rest := by
  have hrow : d.rowNumbers = false := Bool.eq_false_iff.2 (hd.not_rowNumbers htop)
  have hinner : d.constructs.innerPage s.page = s.page :=
    if_neg (hd.not_rowNumbers htop)
  have hserves : s.page.fetchCut.Serves s.page d.rowNumbers := by
    rw [hrow]
    exact Page.fetchCut_serves _
  have heffect (c : Collector) : Collecting.effect
      ((quantifierHead s.quantifier ++ Cut.head ·) <$> s.page.fetchCut.mapM Count.collect) c =
        (Draft.scribe d).effect (Draft.columnHead d.constructs s.quantifier s.page) c := by
    rw [← topHead_eq_head s.page s.quantifier hoffset, ← Draft.effect_columnHead,
      Dialect.columnHead, if_pos htop]
  obtain ⟨head, hhead, hwritten⟩ := Draft.exists_of_binds (Cut.binds (hserves.fits hfits)) heffect
  -- nothing of the page stands at the end or around
  have hall : d.constructs.headPage s.page = s.page :=
    if_pos (Bool.and_eq_true_iff.2 ⟨htop, Option.isNone_iff_eq_none.2 hoffset⟩)
  obtain ⟨hlast, haround⟩ := Draft.page_headPage hd s.page (!s.orderBy.isEmpty)
  rw [hall] at hlast haround
  have hpaged : s.MadeOf d.constructs { parts with head } := by
    have hpaged := hmade.paged (hinner.symm ▸ hhead) hlast
    rwa [← hmade.parts_of_unpaged.2] at hpaged
  refine ⟨.requoted s.names (Draft.select { parts with head }), hpaged.draft.trans (haround _),
    fun c => ?_⟩
  obtain ⟨cut, htext, hafter, hmarkers, hread⟩ := hwritten c
  have hrequest : s.page.fetchCut = .top (.bound ⟨limit, "limit"⟩) := by
    rw [Page.fetchCut, page, hlimit, hoffset]
  obtain ⟨count, rfl, hcount⟩ : ∃ count, cut = .top count ∧ count.text.toList.all isClear = true :=
    Cut.exists_top (hrequest ▸ hread []) (hrequest ▸ hmarkers)
  obtain ⟨rest, hunpaged, hrest⟩ :=
    hmade.exists_rest_behind_top (hd.quotesStandOut_of_topRows htop) hcount htext
  obtain ⟨hwhole, hleft⟩ :=
    compileInto_of_draft hd (coherent_unpaged hs) hmade.draft_unpaged (head.after c)
  rw [hunpaged, hafter] at hwhole
  rw [hafter] at hleft
  refine ⟨.top count, s.page.fetchCut.bindings, [], rest,
    .of_request hone hserves (Page.fetchCut_understood _ (hd.topRows_eq.1.1 htop) htop)
      (List.append_nil _) ?_ hwhole ?_ ?_ ?_⟩
  · rw [Draft.after_requoted, hmade.after_head, hafter]
    exact hread (Draft.select parts).bindings
  · rw [hrest]
    exact String.append_empty.symm
  · rw [hleft, Draft.after_requoted, hmade.after_head, hafter]
    rfl
  · rw [hmarkers]
    exact (List.append_nil _).symm

/-- In each place a page is cut out if the select has a draft without it. -/
theorem exists_cutBy (hpages : d.limitOffset = true ∨ d.rowNumbers = true) :
    ∃ p, s.draft d.constructs = .ok p ∧ ∀ c, ∃ cut before behind rest,
      s.CutBy d c (p.text d c) (p.after c) cut before behind rest := by
  cases hrow : d.rowNumbers with
  | true => exact exists_cutBy_around hd hs hone hfits hmade hrow
  | false =>
    have hlimits : d.limitOffset = true := hpages.resolve_right (Bool.eq_false_iff.1 hrow)
    cases hlimit : s.limit with
    | none =>
      exact exists_cutBy_behind hd hs hone hfits hmade hrow hlimits fun _ h => by
        rw [hlimit] at h
        cases h
    | some limit =>
      cases hoffset : s.offset with
      | some offset =>
        exact exists_cutBy_behind hd hs hone hfits hmade hrow hlimits fun _ _ => by
          rw [hoffset]
          rfl
      | none =>
        cases htop : d.topRows with
        | true => exact exists_cutBy_columns hd hs hone hfits hmade htop hlimit hoffset
        | false =>
          exact exists_cutBy_behind hd hs hone hfits hmade hrow hlimits fun h => by
            rw [htop] at h
            cases h

end

end Select

/-! ## Main result -/

/-- Standard SQL and the databases that the library knows. -/
def Dialect.known : List Dialect :=
  [.ansi, .mysql, .oracle, .sqlServer, .sqlite .named, .sqlite .positional]

/-- All of them have a way to ask for a page. -/
theorem Dialect.shipped_of_mem_known {d : Dialect} (h : d ∈ known) :
    d.Shipped ∧ (d.limitOffset = true ∨ d.rowNumbers = true) := by
  simp only [known, List.mem_cons, List.not_mem_nil, or_false] at h
  rcases h with rfl | rfl | rfl | rfl | rfl | rfl
  · exact ⟨.config .standard, .inl rfl⟩
  · exact ⟨.mysql, .inl rfl⟩
  · exact ⟨.oracle, .inr rfl⟩
  · exact ⟨.sqlServer, .inl rfl⟩
  · exact ⟨.sqlite .named, .inl rfl⟩
  · exact ⟨.sqlite .positional, .inl rfl⟩

/-- Whatever has been done to a select before, if it is not combined with
another one and its page fits into signed integers, then in every dialect
that has a way to ask for a page it compiles whenever it does without the
page, by itself and as a part of something else.  All that the page adds is
one cut, which the dialect understands.  The values that are bound for it are
the counts of the page, each with its marker in the cut, and read with these
values it keeps of every result the rows on the page and no others. -/
theorem Reachable.cuts_page {s : Select} (h : Reachable .select s) (hone : s.combined? = none)
    (hfits : s.page.Fits) {d : Dialect} (hd : d.Shipped)
    (hpages : d.limitOffset = true ∨ d.rowNumbers = true) {whole : String}
    (hwhole : answer (s.unpaged.compile d) = .ok whole) :
    (∃ sql c' cut before behind rest, answer (s.compile d) = .ok sql ∧
      Node.collector? .select (left (s.compile d)) = some c' ∧
      s.CutBy d (.empty d.style) sql c' cut before behind rest) ∧
    ∀ c, ∃ sql cut before behind rest, answer (s.compileInto d c) = .ok sql ∧
      s.CutBy d c sql (left (s.compileInto d c)).2 cut before behind rest := by
  have hcoherent : s.Coherent := h.coherent
  obtain ⟨q, hq, -⟩ := Node.draft_of_compile (k := .select) (n := s.unpaged) hd
    (Select.coherent_unpaged hcoherent) hwhole
  obtain ⟨parts, hmade, -⟩ := Select.exists_madeOf hq
  obtain ⟨p, hp, hcut⟩ := Select.exists_cutBy hd hcoherent hone hfits hmade hpages
  refine ⟨?_, fun c => ?_⟩
  · have hsql : answer (s.compile d) = .ok (p.text d (.empty d.style)) := by
      have hanswer := Node.answer_compile (k := .select) hd h.coherent
      rw [show Node.draft d.constructs .select s = .ok p from hp] at hanswer
      exact hanswer
    obtain ⟨p', hp', -, hcollector⟩ := Node.draft_of_compile (k := .select) hd h.coherent hsql
    obtain rfl := Except.ok.inj (hp.symm.trans hp')
    obtain ⟨cut, before, behind, rest, hcut⟩ := hcut (.empty d.style)
    exact ⟨_, _, cut, before, behind, rest, hsql, hcollector, hcut⟩
  · obtain ⟨hsql, hleft⟩ := Select.compileInto_of_draft hd hcoherent hp c
    obtain ⟨cut, before, behind, rest, hcut⟩ := hcut c
    exact ⟨_, cut, before, behind, rest, hsql, hleft ▸ hcut⟩

/-- Of thirty rows, those after the twentieth, and no more than five. -/
theorem Reachable.cuts_page_of_five :
    let called (b : Builder .select) (s : Select) : Select := (Call.build b).act s
    let s : Select := called (.offset (some 20)) (called (.limit (some 5))
      (called (.fromTable "a") Select.empty))
    let sql := "SELECT * FROM (SELECT b.*, ROWNUM b_rownum FROM (SELECT * FROM \"a\") b WHERE ROWNUM <= :limit1) WHERE b_rownum > :offset1"
    Reachable .select s ∧ s.combined? = none ∧ s.page.Fits ∧ Dialect.oracle ∈ Dialect.known ∧
      answer (s.unpaged.compile Dialect.oracle) = .ok "SELECT * FROM \"a\"" ∧
      answer (s.compile Dialect.oracle) = .ok sql ∧
      ∃ c' cut before behind rest,
        s.CutBy Dialect.oracle (.empty .named) sql c' cut before behind rest ∧
        (cut.read c').map (fun counts => (counts.map Count.value).rows (List.range 30)) =
          some [20, 21, 22, 23, 24] := by
  intro called s sql
  have hs : Reachable .select s := .built (.built (.fromTable "a") rfl) rfl
  have hfits : s.page.Fits := by
    refine ⟨fun limit hlimit => ?_, fun offset hoffset => ?_⟩
    · cases hlimit
      decide
    · cases hoffset
      decide
  have hknown : Dialect.oracle ∈ Dialect.known := by simp [Dialect.known]
  have hunpaged : answer (s.unpaged.compile Dialect.oracle) = .ok "SELECT * FROM \"a\"" := by
    refine eq_ok_of_toOption ?_
    simp only [s, called]
    decide +kernel
  have hsql : answer (s.compile Dialect.oracle) = .ok sql := by
    refine eq_ok_of_toOption ?_
    simp only [s, sql, called]
    decide +kernel
  obtain ⟨hd, hpages⟩ := Dialect.shipped_of_mem_known hknown
  obtain ⟨⟨sql', c', cut, before, behind, rest, hsql', -, hcut⟩, -⟩ :=
    hs.cuts_page rfl hfits hd hpages hunpaged
  obtain rfl := Except.ok.inj (hsql.symm.trans hsql')
  refine ⟨hs, rfl, hfits, hknown, hunpaged, hsql, c', cut, before, behind, rest, hcut, ?_⟩
  obtain ⟨counts, hread, -, hkept⟩ := hcut.kept
  rw [hread, Option.map_some, hkept (List.range 30) (by decide)]
  decide

end SqlTree
