import Mathlib.Data.List.Nodup
import SqlTree.Proofs.Caching.Coherent

/-!
# SqlTree.Proofs.Caching.Bodies

The bodies of groups, joins and selects.  Each of them follows its draft if
the runs of its parts follow theirs.  On the way through its body a node is
renewed part by part and keeps no text; a select may get or use the texts of
its columns, which need no collector.
-/

namespace SqlTree

variable {d : Dialect}

/-! ## The columns of a select -/

/-- A select on the way through its body: renewed, with nothing kept. -/
abbrev Select.Passing (s n : Select) : Prop := Drafted.Renewal s n ∧ n.cache = none

theorem Select.star_eq (s : Select) (c : Collector) :
    (Draft.star (s.origin?.bind Origin.alias?)).text d c = starText d s.aliasName? := by
  rw [Draft.text_star, Select.aliasName?]
  rcases s.origin? with _ | ⟨name, alias?⟩ | ⟨inner, a⟩ <;> rfl

/-- Columns that refer to something bind nothing. -/
theorem bindings_columnDrafts {k : Constructs} {star : Draft} (hstar : star.bindings = [])
    {columns : List Column} (hplain : columns.all Column.isPlain = true) :
    ∃ ps, columnDrafts k star columns = .ok ps ∧ ps.flatMap Draft.bindings = [] := by
  induction columns with
  | nil => exact ⟨[], rfl, rfl⟩
  | cons column columns ih =>
    obtain ⟨source, alias?⟩ := column
    rw [List.all_cons, Bool.and_eq_true] at hplain
    obtain ⟨ps, hps, hbindings⟩ := ih hplain.2
    cases source with
    | reference r =>
      refine ⟨Draft.column alias? (Draft.referenceColumn star r) :: ps, ?_, ?_⟩
      · simp only [columnDrafts, ColumnSource.draft, hps]
        rfl
      · simp only [List.flatMap_cons, Draft.bindings_column, Draft.bindings_referenceColumn hstar,
          hbindings, List.append_nil]
    | expression e => cases hplain.1
    | subquery s => cases hplain.1

/-- The parts of a fresh copy are fresh copies of the parts. -/
theorem Select.fresh_eq (s : Select) :
    s.fresh = { s with
      columns := freshColumns s.columns
      origin? := freshOrigin s.origin?
      joins := freshJoins s.joins
      filter := s.filter.fresh
      having := s.having.fresh
      combined? := freshCombined s.combined?
      columnTexts := none
      cache := none } := by
  cases s
  simp only [Select.fresh]

theorem Select.columns_congr {s n : Select} (h : n.fresh = s.fresh) :
    freshColumns n.columns = freshColumns s.columns := by
  rw [Select.fresh_eq, Select.fresh_eq s] at h
  exact congrArg Select.columns h

theorem Select.origin?_congr {s n : Select} (h : n.fresh = s.fresh) :
    freshOrigin n.origin? = freshOrigin s.origin? := by
  rw [Select.fresh_eq, Select.fresh_eq s] at h
  exact congrArg Select.origin? h

theorem Select.joins_congr {s n : Select} (h : n.fresh = s.fresh) :
    freshJoins n.joins = freshJoins s.joins := by
  rw [Select.fresh_eq, Select.fresh_eq s] at h
  exact congrArg Select.joins h

theorem Select.filter_congr {s n : Select} (h : n.fresh = s.fresh) :
    Clause.fresh n.filter = Clause.fresh s.filter := by
  rw [Select.fresh_eq, Select.fresh_eq s] at h
  exact congrArg Select.filter h

theorem Select.having_congr {s n : Select} (h : n.fresh = s.fresh) :
    Clause.fresh n.having = Clause.fresh s.having := by
  rw [Select.fresh_eq, Select.fresh_eq s] at h
  exact congrArg Select.having h

theorem Select.combined?_congr {s n : Select} (h : n.fresh = s.fresh) :
    freshCombined n.combined? = freshCombined s.combined? := by
  rw [Select.fresh_eq, Select.fresh_eq s] at h
  exact congrArg Select.combined? h

/-- A renewed select is put together from the parts of a renewed select. -/
theorem Select.passing_of {s n n' : Select} (h : s.Passing n) (hfresh : n'.fresh = n.fresh)
    (hmemo : n'.columnTexts = n.columnTexts) (hcache : n'.cache = n.cache)
    (hcolumns : ColumnsCoherent n'.columns) (horigin : OriginCoherent n'.origin?)
    (hjoins : JoinsCoherent n'.joins) (hfilter : n'.filter.Coherent) (hhaving : n'.having.Coherent)
    (hcombined : CombinedCoherent n'.combined?) : s.Passing n' := by
  have hnone : n'.cache = none := hcache.trans h.2
  have hparts := (Select.coherent_iff n).1 h.1.coherent
  refine ⟨⟨(Select.coherent_iff n').2 ⟨?_, ?_, hcolumns, horigin, hjoins, hfilter, hhaving,
    hcombined⟩, hfresh.trans h.1.fresh⟩, hnone⟩
  · exact hnone ▸ Cache.sound_none
  · simpa only [Select.columnPlan_congr hfresh, hmemo] using hparts.columnTexts

theorem Select.passing_columns {s n : Select} {columns : List Column} (h : s.Passing n)
    (hcolumns : Renewed ColumnsCoherent freshColumns s.columns columns) :
    s.Passing { n with columns } := by
  have hn := (Select.coherent_iff n).1 h.1.coherent
  have hpart : freshColumns columns = freshColumns n.columns :=
    hcolumns.fresh.trans (Select.columns_congr h.1.fresh).symm
  have hfresh : ({ n with columns } : Select).fresh = n.fresh := by
    rw [Select.fresh_eq, Select.fresh_eq n, hpart]
  exact Select.passing_of h hfresh rfl rfl hcolumns.coherent hn.origin hn.joins hn.filter hn.having
    hn.combined

theorem Select.passing_origin {s n : Select} {origin? : Option Origin} (h : s.Passing n)
    (horigin : Renewed OriginCoherent freshOrigin s.origin? origin?) :
    s.Passing { n with origin? } := by
  have hn := (Select.coherent_iff n).1 h.1.coherent
  have hpart : freshOrigin origin? = freshOrigin n.origin? :=
    horigin.fresh.trans (Select.origin?_congr h.1.fresh).symm
  have hfresh : ({ n with origin? } : Select).fresh = n.fresh := by
    rw [Select.fresh_eq, Select.fresh_eq n, hpart]
  exact Select.passing_of h hfresh rfl rfl hn.columns horigin.coherent hn.joins hn.filter hn.having
    hn.combined

theorem Select.passing_joins {s n : Select} {joins : List Join} (h : s.Passing n)
    (hjoins : Renewed JoinsCoherent freshJoins s.joins joins) : s.Passing { n with joins } := by
  have hn := (Select.coherent_iff n).1 h.1.coherent
  have hpart : freshJoins joins = freshJoins n.joins :=
    hjoins.fresh.trans (Select.joins_congr h.1.fresh).symm
  have hfresh : ({ n with joins } : Select).fresh = n.fresh := by
    rw [Select.fresh_eq, Select.fresh_eq n, hpart]
  exact Select.passing_of h hfresh rfl rfl hn.columns hn.origin hjoins.coherent hn.filter hn.having
    hn.combined

theorem Select.passing_filter {s n : Select} {filter : Clause} (h : s.Passing n)
    (hfilter : Renewed Clause.Coherent Clause.fresh s.filter filter) :
    s.Passing { n with filter } := by
  have hn := (Select.coherent_iff n).1 h.1.coherent
  have hpart : Clause.fresh filter = Clause.fresh n.filter :=
    hfilter.fresh.trans (Select.filter_congr h.1.fresh).symm
  have hfresh : ({ n with filter } : Select).fresh = n.fresh := by
    rw [Select.fresh_eq, Select.fresh_eq n, hpart]
  exact Select.passing_of h hfresh rfl rfl hn.columns hn.origin hn.joins hfilter.coherent hn.having
    hn.combined

theorem Select.passing_having {s n : Select} {having : Clause} (h : s.Passing n)
    (hhaving : Renewed Clause.Coherent Clause.fresh s.having having) :
    s.Passing { n with having } := by
  have hn := (Select.coherent_iff n).1 h.1.coherent
  have hpart : Clause.fresh having = Clause.fresh n.having :=
    hhaving.fresh.trans (Select.having_congr h.1.fresh).symm
  have hfresh : ({ n with having } : Select).fresh = n.fresh := by
    rw [Select.fresh_eq, Select.fresh_eq n, hpart]
  exact Select.passing_of h hfresh rfl rfl hn.columns hn.origin hn.joins hn.filter hhaving.coherent
    hn.combined

theorem Select.passing_combined {s n : Select} {combined? : Option (SetOperation × Select)}
    (h : s.Passing n) (hcombined : Renewed CombinedCoherent freshCombined s.combined? combined?) :
    s.Passing { n with combined? } := by
  have hn := (Select.coherent_iff n).1 h.1.coherent
  have hpart : freshCombined combined? = freshCombined n.combined? :=
    hcombined.fresh.trans (Select.combined?_congr h.1.fresh).symm
  have hfresh : ({ n with combined? } : Select).fresh = n.fresh := by
    rw [Select.fresh_eq, Select.fresh_eq n, hpart]
  exact Select.passing_of h hfresh rfl rfl hn.columns hn.origin hn.joins hn.filter hn.having
    hcombined.coherent

theorem Select.passing_columnTexts {s n : Select} {columnTexts : Option ColumnTexts}
    (h : s.Passing n) (hmemo : ColumnTexts.Sound (fun k => s.columnPlan k) columnTexts) :
    s.Passing { n with columnTexts } := by
  have hn := (Select.coherent_iff n).1 h.1.coherent
  have hfresh : ({ n with columnTexts } : Select).fresh = n.fresh := by
    rw [Select.fresh_eq, Select.fresh_eq n]
  refine ⟨⟨(Select.coherent_iff _).2 ⟨h.2 ▸ Cache.sound_none, ?_, hn.columns, hn.origin, hn.joins,
    hn.filter, hn.having, hn.combined⟩, hfresh.trans h.1.fresh⟩, h.2⟩
  simpa only [Select.columnPlan_congr (hfresh.trans h.1.fresh)] using hmemo

/-- The texts of the columns, or else of the star, are those of the plan. -/
theorem Select.effect_columns (s : Select) : (do
    let texts ← (Draft.listScribe d).effect
      (columnDrafts d.constructs (Draft.star (s.origin?.bind Origin.alias?)) s.columns)
    pure (columnTextsOr (starText d s.aliasName?) texts)) =
    (Draft.listScribe d).effect (s.columnPlan d.constructs) := by
  rw [bind_pure_comp, Select.columnPlan]
  refine Scribe.effect_map (fun ps c => ?_) (fun ps c => ?_) _
  · rw [← s.star_eq c]
    exact Draft.texts_columnsOr ps
  · exact Draft.afterAll_columnsOr (Draft.bindings_star _) ps

/-- The texts of the columns of a select, kept or not. -/
theorem visitColumns_follows (hd : d.Shipped) {s : Select} (hs : s.Coherent)
    {run : Run (List Column) (List String)}
    (hrun : run.Follows
      ((Draft.listScribe d).effect
        (columnDrafts d.constructs (Draft.star (s.origin?.bind Origin.alias?)) s.columns))
      (Renewed ColumnsCoherent freshColumns s.columns)) :
    (visitColumns d s (starText d s.aliasName?) run).Follows
      ((Draft.listScribe d).effect (s.columnPlan d.constructs)) s.Passing := by
  have hparts := (Select.coherent_iff s).1 hs
  unfold visitColumns
  cases hmemo : ColumnTexts.find? s.columnTexts d with
  | some texts =>
    rw [hparts.columnTexts.find? hd hmemo]
    exact Pass.Follows.pure texts
  | none =>
    rw [← s.effect_columns]
    refine Pass.Follows.bind (Pass.Follows.visit hrun fun n columns => Select.passing_columns) ?_
    rintro texts ⟨c, c', htexts⟩
    by_cases hplain : s.columns.all Column.isPlain = true
    · obtain ⟨ps, hps, hbindings⟩ := bindings_columnDrafts (k := d.constructs)
        (Draft.bindings_star (s.origin?.bind Origin.alias?)) hplain
      rw [hps] at htexts
      have hwritten : Draft.texts d ps c = texts := (Prod.mk.inj (Except.ok.inj htexts)).1
      have hsound : ColumnTexts.Sound (fun k => s.columnPlan k)
          (some ⟨d.fingerprint, columnTextsOr (starText d s.aliasName?) texts⟩) := by
        refine ColumnTexts.sound_some (c := c) hd (?_ : s.columnPlan d.constructs =
          .ok (Draft.columnsOr (Draft.star (s.origin?.bind Origin.alias?)) ps)) ?_ ?_
        · rw [Select.columnPlan, hps]
          rfl
        · cases ps with
          | nil => simp [Draft.columnsOr]
          | cons p ps => simpa [Draft.columnsOr] using hbindings
        · rw [Draft.texts_columnsOr, s.star_eq c, hwritten]
      simp only [hplain, if_true]
      exact .after_adjust (fun n hn => Select.passing_columnTexts hn hsound) (.pure _)
    · simp only [hplain]
      exact Pass.Follows.pure _

/-! ## The body of a select -/

/-- The draft of a select, by its fields. -/
theorem Select.draft_eq (k : Constructs) (s : Select) : s.draft k = (do
    let page : Page := ⟨s.limit, s.offset⟩
    let head ← Draft.columnHead k (if s.distinct then some "DISTINCT" else none) (k.innerPage page)
    let columns ← s.columnPlan k
    let origin ← originDraft k s.pretty s.nesting s.origin?
    let joins ← joinDrafts k s.joins
    let filter ← s.filter.draft k
    let having ← s.having.draft k
    let combined ← combinedDraft k s.combined?
    let last ← Draft.innerPageClause k page (!s.orderBy.isEmpty)
    Draft.aroundSelect k (.requoted (knownNames s.origin? s.joins) (Draft.select
      { head, columns, into? := s.into?, origin, joins, filter, groupBy := s.groupBy, having,
        combined, orderBy := s.orderBy, page := last })) page) := by
  cases s
  simp only [Select.draft, Select.columnPlan, map_eq_pure_bind, bind_assoc, pure_bind]

/-- The body of a select, by its fields. -/
theorem Select.body_eq (s : Select) : s.body d = (do
    let page : Page := ⟨s.limit, s.offset⟩
    let head ← Pass.collect (d.columnHead (if s.distinct then some "DISTINCT" else none)
      (d.innerPage page))
    let columns ← visitColumns d s (starText d s.aliasName?)
      (columnRuns d (starText d s.aliasName?) s.columns)
    let origin ← Pass.visit (fun origin? s => { s with origin? })
      (originRun d s.pretty s.nesting s.origin?)
    let joins ← Pass.visit (fun joins s => { s with joins }) (joinRuns d s.joins)
    let filter ← Pass.visit (fun filter s => { s with filter }) (s.filter.run d)
    let having ← Pass.visit (fun having s => { s with having }) (s.having.run d)
    let combined ← Pass.visit (fun combined? s => { s with combined? }) (combinedRun d s.combined?)
    let last ← Pass.collect (d.innerPageClause page (!s.orderBy.isEmpty))
    Pass.collect (d.aroundSelect (d.quotePrefixes (knownNames s.origin? s.joins) (SelectTexts.text
      { head, columns, into := intoText d s.into?, origin, joins, filter,
        groupBy := groupByText d s.groupBy, having, combined, orderBy := orderByText d s.orderBy,
        page := last })) page)) := by
  cases s
  rw [Select.body]

/-- Writing the parts of a select one after the other is writing its
draft. -/
theorem Select.effect_parts (s : Select) : (do
    let page : Page := ⟨s.limit, s.offset⟩
    let head ← (Draft.scribe d).effect
      (Draft.columnHead d.constructs (if s.distinct then some "DISTINCT" else none)
        (d.constructs.innerPage page))
    let columns ← (Draft.listScribe d).effect (s.columnPlan d.constructs)
    let origin ← (Draft.scribe d).effect (originDraft d.constructs s.pretty s.nesting s.origin?)
    let joins ← (Draft.listScribe d).effect (joinDrafts d.constructs s.joins)
    let filter ← (Draft.scribe d).effect (s.filter.draft d.constructs)
    let having ← (Draft.scribe d).effect (s.having.draft d.constructs)
    let combined ← (Draft.scribe d).effect (combinedDraft d.constructs s.combined?)
    let last ← (Draft.scribe d).effect (Draft.innerPageClause d.constructs page
      (!s.orderBy.isEmpty))
    (d.aroundSelect (d.quotePrefixes (knownNames s.origin? s.joins) (SelectTexts.text
      { head, columns, into := intoText d s.into?, origin, joins, filter,
        groupBy := groupByText d s.groupBy, having, combined, orderBy := orderByText d s.orderBy,
        page := last })) page).effect) = Drafted.effect d s := by
  have hdraft : Drafted.draft d.constructs s = s.draft d.constructs := rfl
  rw [Drafted.effect, hdraft, Select.draft_eq]
  funext c
  -- every part is written with the collector that the parts before it leave
  refine Scribe.effect_bind fun head _ => ?_
  refine Scribe.effect_bind fun columns _ => ?_
  refine Scribe.effect_bind fun origin _ => ?_
  refine Scribe.effect_bind fun joins _ => ?_
  refine Scribe.effect_bind fun filter _ => ?_
  refine Scribe.effect_bind fun having _ => ?_
  refine Scribe.effect_bind fun combined _ => ?_
  refine Scribe.effect_bind fun last _ => ?_
  rw [← Draft.effect_aroundSelect, Draft.text_requoted, Draft.after_requoted, Draft.after_select,
    Draft.text_select _ rfl rfl rfl rfl rfl rfl rfl]
  rfl

/-- A select follows its draft if its parts do, and the node on the way
keeps the property when they are put back. -/
theorem Select.body_follows_of {s : Select} {P : Select → Prop} {Q₁ : Option Origin → Prop}
    {Q₂ : List Join → Prop} {Q₃ Q₄ : Clause → Prop} {Q₅ : Option (SetOperation × Select) → Prop}
    (hcolumns : (visitColumns d s (starText d s.aliasName?)
      (columnRuns d (starText d s.aliasName?) s.columns)).Follows
      ((Draft.listScribe d).effect (s.columnPlan d.constructs)) P)
    (horigin : (originRun d s.pretty s.nesting s.origin?).Follows
      ((Draft.scribe d).effect (originDraft d.constructs s.pretty s.nesting s.origin?)) Q₁)
    (hjoins : (joinRuns d s.joins).Follows
      ((Draft.listScribe d).effect (joinDrafts d.constructs s.joins)) Q₂)
    (hfilter : (s.filter.run d).Follows ((Draft.scribe d).effect (s.filter.draft d.constructs)) Q₃)
    (hhaving : (s.having.run d).Follows ((Draft.scribe d).effect (s.having.draft d.constructs)) Q₄)
    (hcombined : (combinedRun d s.combined?).Follows
      ((Draft.scribe d).effect (combinedDraft d.constructs s.combined?)) Q₅)
    (putOrigin : ∀ n origin?, P n → Q₁ origin? → P { n with origin? })
    (putJoins : ∀ n joins, P n → Q₂ joins → P { n with joins })
    (putFilter : ∀ n filter, P n → Q₃ filter → P { n with filter })
    (putHaving : ∀ n having, P n → Q₄ having → P { n with having })
    (putCombined : ∀ n combined?, P n → Q₅ combined? → P { n with combined? }) :
    (s.body d).Follows (Drafted.effect d s) P := by
  rw [Select.body_eq, ← Select.effect_parts]
  refine .bind (.collect (Draft.effect_columnHead _ _)) fun head _ => ?_
  refine .bind hcolumns fun columns _ => ?_
  refine .bind (.visit horigin putOrigin) fun origin _ => ?_
  refine .bind (.visit hjoins putJoins) fun joins _ => ?_
  refine .bind (.visit hfilter putFilter) fun filter _ => ?_
  refine .bind (.visit hhaving putHaving) fun having _ => ?_
  refine .bind (.visit hcombined putCombined) fun combined _ => ?_
  refine .bind (.collect (Draft.effect_innerPageClause _ _)) fun last _ => ?_
  exact .collect rfl

/-- A coherent select follows its draft if its parts do. -/
theorem Select.body_follows_of_parts (hd : d.Shipped) {s : Select} (hs : s.Coherent)
    (hcolumns : (columnRuns d (starText d s.aliasName?) s.columns).Follows
      ((Draft.listScribe d).effect
        (columnDrafts d.constructs (Draft.star (s.origin?.bind Origin.alias?)) s.columns))
      (Renewed ColumnsCoherent freshColumns s.columns))
    (horigin : (originRun d s.pretty s.nesting s.origin?).Follows
      ((Draft.scribe d).effect (originDraft d.constructs s.pretty s.nesting s.origin?))
      (Renewed OriginCoherent freshOrigin s.origin?))
    (hjoins : (joinRuns d s.joins).Follows
      ((Draft.listScribe d).effect (joinDrafts d.constructs s.joins))
      (Renewed JoinsCoherent freshJoins s.joins))
    (hfilter : (s.filter.run d).Follows ((Draft.scribe d).effect (s.filter.draft d.constructs))
      (Renewed Clause.Coherent Clause.fresh s.filter))
    (hhaving : (s.having.run d).Follows ((Draft.scribe d).effect (s.having.draft d.constructs))
      (Renewed Clause.Coherent Clause.fresh s.having))
    (hcombined : (combinedRun d s.combined?).Follows
      ((Draft.scribe d).effect (combinedDraft d.constructs s.combined?))
      (Renewed CombinedCoherent freshCombined s.combined?)) :
    (s.body d).Follows (Drafted.effect d s) s.Passing :=
  Select.body_follows_of (visitColumns_follows hd hs hcolumns) horigin hjoins hfilter hhaving
    hcombined (fun _ _ => Select.passing_origin) (fun _ _ => Select.passing_joins)
    (fun _ _ => Select.passing_filter) (fun _ _ => Select.passing_having)
    fun _ _ => Select.passing_combined

/-! ## The bodies of groups and joins -/

/-- A group on the way through its body: renewed, with nothing kept. -/
abbrev Group.Passing (g n : Group) : Prop := Drafted.Renewal g n ∧ n.cache = none

theorem Group.passing_terms {g n : Group} {terms : List Term} (h : g.Passing n)
    (hterms : Renewed TermsCoherent freshTerms g.terms terms) : g.Passing { n with terms } := by
  obtain ⟨⟨-, hfresh⟩, hnone⟩ := h
  obtain ⟨terms₀, default₀, pending₀, nested₀, cache₀⟩ := g
  obtain ⟨terms₁, default₁, pending₁, nested₁, cache₁⟩ := n
  cases hnone
  simp only [Drafted.fresh, Group.fresh, Group.mk.injEq] at hfresh
  refine ⟨⟨?_, ?_⟩, rfl⟩
  · simp only [Drafted.Coherent, Group.Coherent]
    exact ⟨Cache.sound_none, hterms.coherent⟩
  · simp only [Drafted.fresh, Group.fresh, Group.mk.injEq]
    exact ⟨hterms.fresh, hfresh.2⟩

/-- A group follows its draft if its terms do, and the node on the way keeps
the property when they are put back. -/
theorem Group.body_follows_of {g : Group} {P : Group → Prop} {Q : List Term → Prop}
    (hterms : (termRuns d g.terms).Follows
      ((Draft.termScribe d).effect (termDrafts d.constructs g.terms)) Q)
    (putTerms : ∀ n terms, P n → Q terms → P { n with terms }) :
    (g.body d).Follows (Drafted.effect d g) P := by
  have hplan : (do
      let texts ← (Draft.termScribe d).effect (termDrafts d.constructs g.terms)
      pure (groupText g.nested texts)) = Drafted.effect d g := by
    rw [bind_pure_comp]
    have hdraft : Drafted.draft d.constructs g =
      Draft.group g.nested <$> termDrafts d.constructs g.terms := by
      cases g
      simp only [Drafted.draft, Group.draft]
    rw [Drafted.effect, hdraft]
    refine Scribe.effect_map (fun ts c => Draft.text_group g.nested ts) (fun ts c => ?_) _
    simp only [Draft.scribe, Draft.termScribe, Draft.after, Draft.afterAll, Draft.bindings_group,
      List.flatMap_map]
  have hbody : g.body d = (do
      let texts ← Pass.visit (fun terms g => { g with terms }) (termRuns d g.terms)
      pure (groupText g.nested texts)) := by
    cases g
    simp only [Group.body]
  rw [hbody, ← hplan]
  exact .bind (.visit hterms putTerms) fun _ _ => .pure _

/-- A coherent group follows its draft if its terms do. -/
theorem Group.body_follows_of_terms {g : Group}
    (hterms : (termRuns d g.terms).Follows
    ((Draft.termScribe d).effect (termDrafts d.constructs g.terms))
      (Renewed TermsCoherent freshTerms g.terms)) :
    (g.body d).Follows (Drafted.effect d g) g.Passing :=
  Group.body_follows_of hterms fun _ _ => Group.passing_terms

/-- A join on the way through its body: renewed, with nothing kept. -/
abbrev Join.Passing (j n : Join) : Prop := Drafted.Renewal j n ∧ n.cache = none

theorem Join.passing_target {j n : Join} {target : JoinTarget} (h : j.Passing n)
    (htarget : Renewed JoinTarget.Coherent JoinTarget.fresh j.target target) :
    j.Passing { n with target } := by
  obtain ⟨⟨hcoherent, hfresh⟩, hnone⟩ := h
  obtain ⟨kind₀, target₀, alias₀, on₀, cache₀⟩ := j
  obtain ⟨kind₁, target₁, alias₁, on₁, cache₁⟩ := n
  cases hnone
  simp only [Drafted.fresh, Join.fresh, Join.mk.injEq] at hfresh
  simp only [Drafted.Coherent, Join.Coherent] at hcoherent
  refine ⟨⟨?_, ?_⟩, rfl⟩
  · simp only [Drafted.Coherent, Join.Coherent]
    exact ⟨Cache.sound_none, htarget.coherent, hcoherent.2.2⟩
  · simp only [Drafted.fresh, Join.fresh, Join.mk.injEq]
    exact ⟨hfresh.1, htarget.fresh, hfresh.2.2⟩

theorem Join.passing_on {j n : Join} {on : Clause} (h : j.Passing n)
    (hon : Renewed Clause.Coherent Clause.fresh j.on on) : j.Passing { n with on } := by
  obtain ⟨⟨hcoherent, hfresh⟩, hnone⟩ := h
  obtain ⟨kind₀, target₀, alias₀, on₀, cache₀⟩ := j
  obtain ⟨kind₁, target₁, alias₁, on₁, cache₁⟩ := n
  cases hnone
  simp only [Drafted.fresh, Join.fresh, Join.mk.injEq] at hfresh
  simp only [Drafted.Coherent, Join.Coherent] at hcoherent
  refine ⟨⟨?_, ?_⟩, rfl⟩
  · simp only [Drafted.Coherent, Join.Coherent]
    exact ⟨Cache.sound_none, hcoherent.2.1, hon.coherent⟩
  · simp only [Drafted.fresh, Join.fresh, Join.mk.injEq]
    exact ⟨hfresh.1, hfresh.2.1, hfresh.2.2.1, hon.fresh, trivial⟩

/-- A join follows its draft if its parts do, and the node on the way keeps
the property when they are put back. -/
theorem Join.body_follows_of {j : Join} {P : Join → Prop} {Q : JoinTarget → Prop}
    {R : Clause → Prop}
    (htarget : (j.target.run d).Follows
      ((Draft.scribe d).effect (j.target.draft d.constructs)) Q)
    (hon : (j.on.run d).Follows ((Draft.scribe d).effect (j.on.draft d.constructs)) R)
    (putTarget : ∀ n target, P n → Q target → P { n with target })
    (putOn : ∀ n on, P n → R on → P { n with on }) :
    (j.body d).Follows (Drafted.effect d j) P := by
  have hplan : (do
      let target ← (Draft.scribe d).effect (j.target.draft d.constructs)
      let on ← (Draft.scribe d).effect (j.on.draft d.constructs)
      pure (joinText d j.kind target j.alias? on)) = Drafted.effect d j := by
    have hdraft : Drafted.draft d.constructs j = (do
        let target ← j.target.draft d.constructs
        let on ← j.on.draft d.constructs
        pure (Draft.join j.kind target j.alias? on)) := by
      cases j
      simp only [Drafted.draft, Join.draft]
    rw [Drafted.effect, hdraft]
    exact Draft.effect_pair (fun p q c => Draft.text_join j.kind j.alias?)
      (fun p q => Draft.bindings_join j.kind j.alias?)
      _ _
  have hbody : j.body d = (do
      let target ← Pass.visit (fun target j => { j with target }) (j.target.run d)
      let on ← Pass.visit (fun on j => { j with on }) (j.on.run d)
      pure (joinText d j.kind target j.alias? on)) := by
    cases j
    simp only [Join.body]
  rw [hbody, ← hplan]
  exact .bind (.visit htarget putTarget) fun _ _ => .bind (.visit hon putOn) fun _ _ => .pure _

/-- A coherent join follows its draft if its parts do. -/
theorem Join.body_follows_of_parts {j : Join}
    (htarget : (j.target.run d).Follows ((Draft.scribe d).effect (j.target.draft d.constructs))
      (Renewed JoinTarget.Coherent JoinTarget.fresh j.target))
    (hon : (j.on.run d).Follows ((Draft.scribe d).effect (j.on.draft d.constructs))
      (Renewed Clause.Coherent Clause.fresh j.on)) :
    (j.body d).Follows (Drafted.effect d j) j.Passing :=
  Join.body_follows_of htarget hon (fun _ _ => Join.passing_target) fun _ _ => Join.passing_on

/-! ## Parts, given their bodies -/

theorem Group.part_follows_of_body (hd : d.Shipped) {g : Group} (hg : g.Coherent)
    (hbody : (g.body d).Follows (Drafted.effect d g) g.Passing) :
    (asPart d g (g.body d)).Follows ((Draft.scribe d).effect (g.draft d.constructs))
      (Renewed Group.Coherent Group.fresh g) :=
  Drafted.part_follows hd hg hbody

theorem Join.part_follows_of_body (hd : d.Shipped) {j : Join} (hj : j.Coherent)
    (hbody : (j.body d).Follows (Drafted.effect d j) j.Passing) :
    (asPart d j (j.body d)).Follows ((Draft.scribe d).effect (j.draft d.constructs))
      (Renewed Join.Coherent Join.fresh j) :=
  Drafted.part_follows hd hj hbody

theorem Select.part_follows_of_body (hd : d.Shipped) {s : Select} (hs : s.Coherent)
    (hbody : (s.body d).Follows (Drafted.effect d s) s.Passing) :
    (asPart d s (s.body d)).Follows ((Draft.scribe d).effect (s.draft d.constructs))
      (Renewed Select.Coherent Select.fresh s) :=
  Drafted.part_follows hd hs hbody

/-! ## Templates -/

theorem slotsCoherent_iff (slots : List Slot) :
    SlotsCoherent slots ↔ ∀ slot ∈ slots, slot.filling.Coherent := by
  induction slots with
  | nil => simp [SlotsCoherent]
  | cons slot slots ih =>
    cases slot
    simp only [SlotsCoherent, ih, List.forall_mem_cons]

/-- The run of a placeholder and its draft belong to one and the same slot,
if there is one. -/
theorem lookup_slotRuns (k : Constructs) (name : String) (slots : List Slot) :
    ((slotRuns d slots).lookup name = none ∧ (slotDrafts k slots).lookup name = none) ∨
      ∃ slot ∈ slots, slot.name = name ∧
        (slotRuns d slots).lookup name = some (slot.filling.run d) ∧
        (slotDrafts k slots).lookup name = some (slot.filling.draft k) := by
  induction slots with
  | nil => exact .inl ⟨rfl, rfl⟩
  | cons slot slots ih =>
    obtain ⟨slotName, filling⟩ := slot
    by_cases h : name = slotName
    · refine .inr ⟨⟨slotName, filling⟩, List.mem_cons_self, h.symm, ?_, ?_⟩
      · simp only [slotRuns, h, List.lookup_cons_self]
      · simp only [slotDrafts, h, List.lookup_cons_self]
    · have hne : (name == slotName) = false := by simpa using h
      simp only [slotRuns, slotDrafts, List.lookup_cons, hne]
      rcases ih with hnone | ⟨slot, hslot, hsome⟩
      · exact .inl hnone
      · exact .inr ⟨slot, List.mem_cons_of_mem _ hslot, hsome⟩

theorem Slot.fresh_eq (slot : Slot) : slot.fresh = ⟨slot.name, slot.filling.fresh⟩ := by
  cases slot
  simp only [Slot.fresh]

theorem names_freshSlots (slots : List Slot) :
    (freshSlots slots).map Slot.name = slots.map Slot.name := by
  rw [freshSlots_eq_map, List.map_map]
  exact List.map_congr_left fun slot _ => by rw [Function.comp, Slot.fresh_eq]

/-- Putting a renewed filling back renews the slots, as no other slot has
its name. -/
theorem renewed_putFilling {slots slots' : List Slot} {slot : Slot} {filling : Filling}
    (hnames : (slots.map Slot.name).Nodup) (h : Renewed SlotsCoherent freshSlots slots slots')
    (hslot : slot ∈ slots)
    (hfilling : Renewed Filling.Coherent Filling.fresh slot.filling filling) :
    Renewed SlotsCoherent freshSlots slots (putFilling slot.name filling slots') := by
  obtain ⟨hcoherent, hfresh⟩ := h
  rw [slotsCoherent_iff] at hcoherent
  have hsame : ∀ slot' ∈ slots', slot'.name = slot.name → slot'.filling.fresh = filling.fresh := by
    intro slot' hslot' hname
    have hmem : slot'.fresh ∈ freshSlots slots := by
      rw [← hfresh, freshSlots_eq_map]
      exact List.mem_map_of_mem hslot'
    rw [freshSlots_eq_map, List.mem_map] at hmem
    obtain ⟨slot₀, hslot₀, heq⟩ := hmem
    simp only [Slot.fresh_eq, Slot.mk.injEq] at heq
    have hslot₀' : slot₀ = slot := List.inj_on_of_nodup_map hnames hslot₀ hslot (heq.1.trans hname)
    rw [← heq.2, hslot₀', hfilling.fresh]
  refine ⟨(slotsCoherent_iff _).2 fun slot' hslot' => ?_, ?_⟩
  · obtain ⟨slot₁, hslot₁, rfl⟩ := List.mem_map.1 hslot'
    split
    · exact hfilling.coherent
    · exact hcoherent slot₁ hslot₁
  · rw [← hfresh, freshSlots_eq_map, freshSlots_eq_map, putFilling, List.map_map]
    refine List.map_congr_left fun slot' hslot' => ?_
    simp only [Function.comp_apply]
    split
    · next hname => rw [Slot.fresh_eq, Slot.fresh_eq slot', hsame slot' hslot' hname]
    · rfl

/-- The parts of a template follow their draft if the slots do, and the
slots keep the property when a filling is put back. -/
theorem piecesText_follows_of {slots : List Slot} {P : List Slot → Prop}
    {Q : Slot → Filling → Prop}
    (hslots : ∀ slot ∈ slots, (slot.filling.run d).Follows
      ((Draft.scribe d).effect (slot.filling.draft d.constructs)) (Q slot))
    (putFilling : ∀ slot ∈ slots, ∀ n filling, P n → Q slot filling →
      P (putFilling slot.name filling n)) (parts : List Piece) :
    (piecesText (slotRuns d slots) parts).Follows
      ((Draft.scribe d).effect (piecesDraft (slotDrafts d.constructs slots) parts)) P := by
  induction parts with
  | nil => exact .pure _
  | cons part parts ih =>
    cases part with
    | text cs =>
      have hplan : (do
          let after ← (Draft.scribe d).effect (piecesDraft (slotDrafts d.constructs slots) parts)
          pure (String.ofList cs ++ after)) =
          (Draft.scribe d).effect (piecesDraft (slotDrafts d.constructs slots)
            (.text cs :: parts)) := by
        rw [bind_pure_comp, piecesDraft]
        simp only [bind_pure_comp]
        exact Draft.effect_map (f := (String.ofList cs ++ ·))
          (g := (Draft.raw (String.ofList cs) ++ ·))
          (fun p c => rfl) (fun p => rfl) _
      rw [← hplan, piecesText]
      exact .bind ih fun _ _ => .pure _
    | slot name =>
      have hplan (plan : Except Error Draft) : (do
          let text ← (Draft.scribe d).effect plan
          let after ← (Draft.scribe d).effect (piecesDraft (slotDrafts d.constructs slots) parts)
          pure (text ++ after)) =
          (Draft.scribe d).effect (do
            let p ← plan
            let after ← piecesDraft (slotDrafts d.constructs slots) parts
            pure (p ++ after)) :=
        Draft.effect_pair (fun p q c => rfl) (fun p q => rfl) _ _
      rw [piecesText, piecesDraft]
      rcases lookup_slotRuns (d := d) d.constructs (String.ofList name) slots with
        ⟨hrun, hdraft⟩ | ⟨slot, hslot, hname, hrun, hdraft⟩
      · rw [hrun, hdraft, ← hplan]
        exact .bind (.pure _) fun _ _ => .bind ih fun _ _ => .pure _
      · rw [hrun, hdraft, ← hplan]
        refine .bind (.visit (hslots slot hslot) fun n x hn hx => ?_) fun _ _ =>
          .bind ih fun _ _ => .pure _
        exact hname ▸ putFilling slot hslot n x hn hx

/-- The parts of a coherent template follow their draft if the slots do. -/
theorem piecesText_follows {slots : List Slot} (hnames : (slots.map Slot.name).Nodup)
    (hslots : ∀ slot ∈ slots, (slot.filling.run d).Follows
    ((Draft.scribe d).effect (slot.filling.draft d.constructs))
      (Renewed Filling.Coherent Filling.fresh slot.filling)) (parts : List Piece) :
    (piecesText (slotRuns d slots) parts).Follows
      ((Draft.scribe d).effect (piecesDraft (slotDrafts d.constructs slots) parts))
      (Renewed SlotsCoherent freshSlots slots) :=
  piecesText_follows_of hslots
    (fun _ hslot _ _ hn hx => renewed_putFilling hnames hn hslot hx) parts

end SqlTree
