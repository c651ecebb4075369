import SqlTree.Expression
import SqlTree.Path
import SqlTree.Proofs.Caching.Node
import SqlTree.Proofs.Specification
import SqlTree.Select

/-!
# SqlTree.Proofs.Caching.Building

Building keeps trees coherent.  What changes a node drops what it keeps, so
the new node has nothing to be wrong about, and its parts are parts of
coherent nodes.  The one thing that is changed under a kept text is the
connective of the terms to come, which no text depends on.  There is a lemma
for every function that makes or changes a node.
-/

namespace SqlTree

/-! ## Lists of parts -/

theorem termsCoherent_iff (terms : List Term) :
    TermsCoherent terms ↔ ∀ t ∈ terms, t.predicate.Coherent := by
  induction terms with
  | nil => simp [TermsCoherent]
  | cons t terms ih =>
    cases t
    simp only [TermsCoherent, ih, List.forall_mem_cons]

theorem joinsCoherent_iff (joins : List Join) : JoinsCoherent joins ↔ ∀ j ∈ joins, j.Coherent := by
  induction joins with
  | nil => simp [JoinsCoherent]
  | cons j joins ih => simp only [JoinsCoherent, ih, List.forall_mem_cons]

theorem columnsCoherent_iff (columns : List Column) :
    ColumnsCoherent columns ↔ ∀ c ∈ columns, c.source.Coherent := by
  induction columns with
  | nil => simp [ColumnsCoherent]
  | cons c columns ih =>
    cases c
    simp only [ColumnsCoherent, ih, List.forall_mem_cons]

theorem Group.coherent_iff (g : Group) :
    g.Coherent ↔ g.cache.Sound (fun k => g.draft k) ∧ ∀ t ∈ g.terms, t.predicate.Coherent := by
  cases g
  rw [Group.Coherent, termsCoherent_iff]

theorem Clause.coherent_iff (c : Clause) : c.Coherent ↔ ∀ g, c.group? = some g → g.Coherent := by
  obtain ⟨kind, _ | g⟩ := c <;> simp [Clause.Coherent]

theorem Join.coherent_iff (j : Join) :
    j.Coherent ↔ j.cache.Sound (fun k => j.draft k) ∧ j.target.Coherent ∧ j.on.Coherent := by
  cases j
  rw [Join.Coherent]

/-! ## Edits -/

/-- The edit keeps the property, be it with success or not. -/
def Edit.Keeps {ν : Type} (edit : Edit ν) (P : ν → Prop) : Prop := ∀ n, P n → P (left (edit n))

namespace Edit

variable {ν χ : Type} {P : ν → Prop}

theorem Keeps.apply {edit : Edit ν} (h : edit.Keeps P) {n n' : ν} (hn : P n)
    (happly : edit.apply n = .ok n') : P n' := by
  have hleft := h n hn
  simp only [Edit.apply] at happly
  cases hedit : edit n with
  | ok a s =>
    rw [hedit] at happly hleft
    cases happly
    exact hleft
  | error e s => rw [hedit] at happly; cases happly

theorem keeps_attempt {f : ν → Except Error ν} (h : ∀ n n', P n → f n = .ok n' → P n') :
    (attempt f).Keeps P := by
  intro n hn
  cases hf : f n with
  | ok n' => simpa only [attempt, hf, left] using h n n' hn hf
  | error e => simpa only [attempt, hf, left] using hn

theorem keeps_part {Q : χ → Prop} {get : ν → χ} {put : χ → ν → ν} {edit : Edit χ} (h : edit.Keeps Q)
    (hget : ∀ n, P n → Q (get n)) (hput : ∀ n x, P n → Q x → P (put x n)) :
    (part get put edit).Keeps P := by
  intro n hn
  have hleft := h (get n) (hget n hn)
  cases hedit : edit (get n) with
  | ok a x =>
    rw [hedit] at hleft
    simpa only [part, hedit, left] using hput n x hn hleft
  | error e x =>
    rw [hedit] at hleft
    simpa only [part, hedit, left] using hput n x hn hleft

end Edit

/-! ## Predicates -/

namespace Predicate

theorem coherent_compare {left : Reference} {op : Comparison} {right : Operand} {p : Predicate}
    (hright : right.Coherent) (h : compare left op right = .ok p) : p.Coherent := by
  unfold compare at h
  split at h
  · split at h <;> cases h <;> rw [Predicate.Coherent] <;> trivial
  · cases h
    rwa [Predicate.Coherent]

theorem coherent_inRange {left : Reference} {negated : Bool} {low high : Operand} {p : Predicate}
    (hlow : low.Coherent) (hhigh : high.Coherent) (h : inRange left negated low high = .ok p) :
    p.Coherent := by
  unfold inRange at h
  split at h
  · cases h
  · split at h <;> cases h
    rw [Predicate.Coherent]
    exact ⟨hlow, hhigh⟩

theorem coherent_inList {left : Reference} {negated : Bool} {values : List Value} {p : Predicate}
    (h : inList left negated values = .ok p) : p.Coherent := by
  unfold inList at h
  split at h <;> cases h
  rw [Predicate.Coherent]
  trivial

theorem coherent_matching {left : Reference} {negated : Bool} {pattern : Operand}
    {escape : Option Char} {p : Predicate} (hpattern : pattern.Coherent)
    (h : matching left negated pattern escape = .ok p) : p.Coherent := by
  unfold matching at h
  split at h <;> cases h
  rwa [Predicate.Coherent]

theorem coherent_group {g : Group} (h : g.Coherent) : (Predicate.group g).Coherent := by
  rwa [Predicate.Coherent]

theorem coherent_of_group? {p : Predicate} {g : Group} (hp : p.Coherent) (h : p.group? = some g) :
    g.Coherent := by
  cases p with
  | group g' =>
    rw [Predicate.Coherent] at hp
    cases h
    exact hp
  | _ => cases h

theorem coherent_of_select? {p : Predicate} {s : Select} (hp : p.Coherent)
    (h : p.select? = some s) : s.Coherent := by
  cases p with
  | inSelect left negated s' => rw [Predicate.Coherent] at hp; cases h; exact hp
  | existence negated s' => rw [Predicate.Coherent] at hp; cases h; exact hp
  | quantified left op quantifier s' => rw [Predicate.Coherent] at hp; cases h; exact hp
  | comparison left op right =>
    cases right with
    | subquery s' =>
      rw [Predicate.Coherent, Operand.Coherent] at hp
      cases h
      exact hp
    | _ => cases h
  | _ => cases h

theorem coherent_putGroup {p : Predicate} {g : Group} (hp : p.Coherent) (hg : g.Coherent) :
    (p.putGroup g).Coherent := by
  cases p with
  | group g' => rwa [putGroup, Predicate.Coherent]
  | _ => exact hp

theorem coherent_putSelect {p : Predicate} {s : Select} (hp : p.Coherent) (hs : s.Coherent) :
    (p.putSelect s).Coherent := by
  cases p with
  | inSelect left negated s' => rwa [putSelect, Predicate.Coherent]
  | existence negated s' => rwa [putSelect, Predicate.Coherent]
  | quantified left op quantifier s' => rwa [putSelect, Predicate.Coherent]
  | comparison left op right =>
    cases right with
    | subquery s' => rwa [putSelect, Predicate.Coherent, Operand.Coherent]
    | _ => exact hp
  | _ => exact hp

end Predicate

/-! ## Groups -/

namespace Group

theorem coherent_empty (default : Connective) : (Group.empty default).Coherent := by
  rw [Group.empty, Group.Coherent, TermsCoherent]
  exact ⟨Cache.sound_none, trivial⟩

theorem coherent_push {g : Group} {p : Predicate} (hg : g.Coherent) (hp : p.Coherent) :
    (g.push p).Coherent := by
  rw [coherent_iff] at hg ⊢
  refine ⟨Cache.sound_none, fun t ht => ?_⟩
  rw [terms_push, List.mem_append, List.mem_singleton] at ht
  rcases ht with ht | rfl
  · exact hg.2 t ht
  · exact hp

theorem coherent_pushGroup {g inner : Group} (hg : g.Coherent) (hinner : inner.Coherent) :
    (g.pushGroup inner).Coherent := by
  refine coherent_push hg ?_
  rw [Predicate.Coherent, coherent_iff]
  exact ⟨Cache.sound_none, ((coherent_iff inner).1 hinner).2⟩

/-- No text depends on the connectives that are not used yet. -/
theorem coherent_withConnectives {g : Group} (hg : g.Coherent) (default : Connective)
    (pending : Option Connective) : Group.Coherent { g with default, pending } := by
  cases g
  rw [Group.Coherent] at hg ⊢
  simpa only [Group.draft] using hg

theorem coherent_joinNext {g : Group} (hg : g.Coherent) (connective : Connective) :
    (g.joinNext connective).Coherent :=
  coherent_withConnectives hg g.default (some connective)

theorem coherent_setDefault {g : Group} (hg : g.Coherent) (connective : Connective) :
    (g.setDefault connective).Coherent :=
  coherent_withConnectives hg connective g.pending

theorem coherent_uncached {g : Group} (hg : g.Coherent) : g.uncached.Coherent := by
  rw [coherent_iff] at hg ⊢
  exact ⟨Cache.sound_none, hg.2⟩

theorem coherent_clear (g : Group) : g.clear.Coherent := by
  rw [coherent_iff]
  exact ⟨Cache.sound_none, fun t ht => nomatch ht⟩

theorem coherent_nest {g : Group} (hg : g.Coherent) (connective : Connective) :
    (g.nest connective).Coherent :=
  coherent_pushGroup hg (coherent_empty connective)

theorem coherent_predicateAt? {g : Group} (hg : g.Coherent) {i : Nat} {p : Predicate}
    (h : g.predicateAt? i = some p) : p.Coherent := by
  obtain ⟨t, ht, rfl⟩ := Option.map_eq_some_iff.1 h
  exact ((coherent_iff g).1 hg).2 t (List.mem_of_getElem? ht)

theorem coherent_putPredicateAt {g : Group} (hg : g.Coherent) (hcache : g.cache = none) (i : Nat)
    {p : Predicate} (hp : p.Coherent) : (g.putPredicateAt i p).Coherent := by
  rw [coherent_iff] at hg ⊢
  refine ⟨hcache ▸ Cache.sound_none, fun t ht => ?_⟩
  obtain ⟨j, hj, rfl⟩ := List.mem_iff_getElem.1 ht
  simp only [putPredicateAt, List.getElem_modify]
  split
  · exact hp
  · exact hg.2 _ (List.getElem_mem _)

end Group

/-! ## Specifications -/

theorem Predicate.coherent_of_isPlain {p : Predicate} (h : p.isPlain = true) : p.Coherent := by
  have hvalue {o : Operand} (ho : o.isValue = true) : o.Coherent := by
    cases o with
    | value v => rw [Operand.Coherent]; trivial
    | _ => cases ho
  cases p with
  | comparison left op right => rw [Predicate.Coherent]; exact hvalue h
  | between left negated low high =>
    rw [Predicate.Coherent]
    exact ⟨hvalue (Bool.and_eq_true_iff.1 h).1, hvalue (Bool.and_eq_true_iff.1 h).2⟩
  | like left negated pattern escape => rw [Predicate.Coherent]; exact hvalue h
  | inValues left negated values orNull => rw [Predicate.Coherent]; trivial
  | truth left negated word => rw [Predicate.Coherent]; trivial
  | literal l => rw [Predicate.Coherent]; trivial
  | _ => cases h

theorem Group.coherent_specify {spec : Json} {g g' : Group} (hg : g.Coherent)
    (h : g.specify spec = .ok g') : g'.Coherent :=
  specify_keeps Group.coherent_empty (fun _ _ hg hp =>
    Group.coherent_push hg (Predicate.coherent_of_isPlain hp))
    (fun _ _ hg hinner => Group.coherent_pushGroup hg hinner)
    (fun _ _ hg => Group.coherent_joinNext hg _) hg h

/-! ## Items and clauses -/

/-- Every text kept below is right. -/
def Item.Coherent : Item → Prop
  | .raw _ => True
  | .predicate p => p.Coherent
  | .group g => g.Coherent
  | .clause c => c.Coherent
  | .spec _ => True

theorem Group.coherent_added {item : Item} {g g' : Group} (hitem : item.Coherent) (hg : g.Coherent)
    (h : Group.added item g = .ok g') : g'.Coherent := by
  match item with
  | .raw sql =>
    obtain ⟨p, hp, rfl⟩ := exists_of_map_eq_ok h
    exact coherent_push hg (Predicate.coherent_of_isPlain (Predicate.isPlain_ofText hp))
  | .predicate p =>
    cases h
    exact coherent_push hg hitem
  | .group inner =>
    cases h
    exact coherent_pushGroup hg hitem
  | .clause ⟨_, none⟩ =>
    cases h
    exact hg
  | .clause ⟨_, some inner⟩ =>
    cases h
    exact coherent_pushGroup hg ((Clause.coherent_iff _).1 hitem inner rfl)
  | .spec j =>
    obtain ⟨pushed, hpushed, rfl⟩ := exists_of_added_spec h
    exact coherent_uncached (coherent_specify hg hpushed)

theorem Group.keeps_add {item : Item} (hitem : item.Coherent) :
    (Group.add item).Keeps Group.Coherent :=
  Edit.keeps_attempt fun _ _ hg h => coherent_added hitem hg h

theorem Group.keeps_addJoined {item : Item} (hitem : item.Coherent) (connective : Connective) :
    (Group.addJoined connective item).Keeps Group.Coherent := fun _ hg =>
  keeps_add hitem _ (coherent_joinNext hg connective)

namespace Clause

theorem coherent_empty (kind : ClauseKind) : (Clause.empty kind).Coherent := by
  rw [Clause.empty, Clause.Coherent]
  trivial

theorem coherent_groupOrEmpty {c : Clause} (h : c.Coherent) : c.groupOrEmpty.Coherent := by
  rw [coherent_iff] at h
  obtain ⟨kind, _ | g⟩ := c
  · exact Group.coherent_empty .and
  · exact h g rfl

theorem coherent_putGroup {c : Clause} {g : Group} (hg : g.Coherent) : (c.putGroup g).Coherent :=
  (coherent_iff _).2 fun _ h => Option.some.inj h ▸ hg

theorem coherent_opened {c : Clause} (h : c.Coherent) : c.opened.Coherent :=
  coherent_putGroup (coherent_groupOrEmpty h)

theorem keeps_onGroup {edit : Edit Group} (h : edit.Keeps Group.Coherent) :
    (onGroup edit).Keeps Clause.Coherent :=
  Edit.keeps_part h (fun _ => coherent_groupOrEmpty) fun _ _ _ => coherent_putGroup

theorem keeps_add {item : Item} (hitem : item.Coherent) : (Clause.add item).Keeps Clause.Coherent :=
  keeps_onGroup (Group.keeps_add hitem)

end Clause

/-! ## Joins -/

theorem JoinTarget.coherent_table (name : Identifier) : (JoinTarget.table name).Coherent := by
  rw [JoinTarget.Coherent]
  trivial

theorem JoinTarget.coherent_subquery {s : Select} (h : s.Coherent) :
    (JoinTarget.subquery s).Coherent := by
  rwa [JoinTarget.Coherent]

namespace Join

theorem coherent_of_unkept {j : Join} (hcache : j.cache = none) (htarget : j.target.Coherent)
    (hon : j.on.Coherent) : j.Coherent :=
  (coherent_iff j).2 ⟨hcache ▸ Cache.sound_none, htarget, hon⟩

theorem coherent_ofTarget {kind : JoinKind} {target : JoinTarget} (h : target.Coherent) :
    (ofTarget kind target).Coherent :=
  coherent_of_unkept rfl h (Clause.coherent_empty .on)

theorem coherent_table {kind : JoinKind} {name : String} {j : Join} (h : table kind name = .ok j) :
    j.Coherent := by
  obtain ⟨name, -, h⟩ := exists_of_bind_eq_ok h
  cases h
  exact coherent_ofTarget (JoinTarget.coherent_table name)

theorem coherent_subquery {kind : JoinKind} {s : Select} (h : s.Coherent) :
    (subquery kind s).Coherent :=
  coherent_ofTarget (JoinTarget.coherent_subquery h)

theorem coherent_withAlias {name : String} {j j' : Join} (hj : j.Coherent)
    (h : j.withAlias name = .ok j') : j'.Coherent := by
  obtain ⟨a, -, h⟩ := exists_of_bind_eq_ok h
  cases h
  rw [coherent_iff] at hj
  exact coherent_of_unkept rfl hj.2.1 hj.2.2

theorem coherent_onItem {item : Item} {j j' : Join} (hitem : item.Coherent) (hj : j.Coherent)
    (h : j.onItem item = .ok j') : j'.Coherent := by
  unfold onItem at h
  split at h
  · cases h
  · obtain ⟨on, hon, h⟩ := exists_of_bind_eq_ok h
    cases h
    rw [coherent_iff] at hj
    exact coherent_of_unkept rfl hj.2.1 ((Clause.keeps_add hitem).apply hj.2.2 hon)

theorem coherent_of_select? {j : Join} {s : Select} (hj : j.Coherent) (h : j.select? = some s) :
    s.Coherent := by
  obtain ⟨kind, _ | s', alias?, on, cache⟩ := j
  · cases h
  · cases h
    simp only [Join.Coherent, JoinTarget.Coherent] at hj
    exact hj.2.1

theorem coherent_putSelect {j : Join} {s : Select} (hcache : j.cache = none) (hj : j.Coherent)
    (hs : s.Coherent) : (j.putSelect s).Coherent := by
  obtain ⟨kind, _ | s', alias?, on, cache⟩ := j
  · exact hj
  · rw [coherent_iff] at hj
    exact coherent_of_unkept hcache (JoinTarget.coherent_subquery hs) hj.2.2

end Join

/-! ## Selects -/

namespace Select

/-- The parts of a select are coherent, whatever it keeps itself. -/
structure Inside (s : Select) : Prop where
  columns : ColumnsCoherent s.columns
  origin : OriginCoherent s.origin?
  joins : JoinsCoherent s.joins
  filter : s.filter.Coherent
  having : s.having.Coherent
  combined : CombinedCoherent s.combined?

theorem inside {s : Select} (h : s.Coherent) : s.Inside :=
  let ⟨_, _, hcolumns, horigin, hjoins, hfilter, hhaving, hcombined⟩ := (coherent_iff s).1 h
  ⟨hcolumns, horigin, hjoins, hfilter, hhaving, hcombined⟩

/-- A select that keeps nothing is coherent if its parts are. -/
theorem coherent_of_unkept {s : Select} (hcache : s.cache = none) (hmemo : s.columnTexts = none)
    (h : s.Inside) : s.Coherent :=
  (coherent_iff s).2 ⟨hcache ▸ Cache.sound_none, hmemo ▸ ColumnTexts.sound_none, h.columns,
    h.origin, h.joins, h.filter, h.having, h.combined⟩

theorem coherent_empty : Select.empty.Coherent := by
  refine coherent_of_unkept rfl rfl
    ⟨?_, ?_, ?_, Clause.coherent_empty _, Clause.coherent_empty _, ?_⟩
  · exact (columnsCoherent_iff _).2 fun _ h => nomatch h
  · rw [Select.empty, OriginCoherent]; trivial
  · exact (joinsCoherent_iff _).2 fun _ h => nomatch h
  · rw [Select.empty, CombinedCoherent]; trivial

theorem coherent_touched {s : Select} (h : s.Coherent) : s.touched.Coherent :=
  coherent_of_unkept rfl rfl { inside h with }

theorem columnsCoherent_append {columns : List Column} {column : Column}
    (hcolumns : ColumnsCoherent columns) (hcolumn : column.source.Coherent) :
    ColumnsCoherent (columns ++ [column]) := by
  rw [columnsCoherent_iff] at hcolumns ⊢
  intro c hc
  rcases List.mem_append.1 hc with hc | hc
  · exact hcolumns c hc
  · rwa [List.mem_singleton.1 hc]

theorem coherent_addColumn {source : ColumnSource} {alias? : Option String} {s s' : Select}
    (hs : s.Coherent) (hsource : source.Coherent) (h : s.addColumn source alias? = .ok s') :
    s'.Coherent := by
  obtain ⟨alias?, -, h⟩ := exists_of_bind_eq_ok h
  cases h
  exact coherent_of_unkept rfl rfl
    { inside hs with columns := columnsCoherent_append (inside hs).columns hsource }

theorem coherent_intoTable {name : String} {s s' : Select} (hs : s.Coherent)
    (h : s.intoTable name = .ok s') : s'.Coherent := by
  obtain ⟨name, -, h⟩ := exists_of_bind_eq_ok h
  cases h
  exact coherent_of_unkept rfl rfl { inside hs with }

theorem coherent_atNesting :
    (s : Select) → (nesting : Nat) → s.Inside → (s.atNesting nesting).Coherent
  | ⟨_, _, _, some (.subquery inner a), _, _, _, _, _, _, _, _, _, _, _, _⟩, nesting, h => by
    rw [atNesting]
    have horigin := h.origin
    rw [OriginCoherent] at horigin
    refine coherent_of_unkept rfl rfl { h with origin := ?_ }
    rw [OriginCoherent]
    exact coherent_atNesting inner (nesting + 1) (inside horigin)
  | ⟨_, _, _, some (.table _ _), _, _, _, _, _, _, _, _, _, _, _, _⟩, _, h
  | ⟨_, _, _, none, _, _, _, _, _, _, _, _, _, _, _, _⟩, _, h =>
      coherent_of_unkept rfl rfl { h with }

theorem coherent_setOrigin {origin : Origin} {s s' : Select}
    (horigin : OriginCoherent (some origin)) (hs : s.Coherent) (h : s.setOrigin origin = .ok s') :
    s'.Coherent := by
  unfold setOrigin at h
  split at h <;> cases h
  exact coherent_atNesting _ _ { inside hs with origin := horigin }

theorem originCoherent_table (name : Identifier) (alias? : Option Alias) :
    OriginCoherent (some (.table name alias?)) := by
  rw [OriginCoherent]
  trivial

theorem coherent_fromTable {name : String} {s s' : Select} (hs : s.Coherent)
    (h : s.fromTable name = .ok s') : s'.Coherent := by
  obtain ⟨name, -, h⟩ := exists_of_bind_eq_ok h
  exact coherent_setOrigin (originCoherent_table name none) hs h

theorem coherent_fromTableAs {name label : String} {s s' : Select} (hs : s.Coherent)
    (h : s.fromTableAs name label = .ok s') : s'.Coherent := by
  obtain ⟨name, -, h⟩ := exists_of_bind_eq_ok h
  obtain ⟨a, -, h⟩ := exists_of_bind_eq_ok h
  exact coherent_setOrigin (originCoherent_table name (some a)) hs h

theorem coherent_fromSubquery {inner s s' : Select} {label : String} (hs : s.Coherent)
    (hinner : inner.Coherent) (h : s.fromSubquery inner label = .ok s') : s'.Coherent := by
  obtain ⟨a, -, h⟩ := exists_of_bind_eq_ok h
  exact coherent_setOrigin (by rwa [OriginCoherent]) hs h

theorem coherent_addJoin {j : Join} {s : Select} (hs : s.Coherent) (hj : j.Coherent) :
    (s.addJoin j).Coherent := by
  refine coherent_of_unkept rfl rfl { inside hs with joins := ?_ }
  have hjoins := (inside hs).joins
  rw [joinsCoherent_iff] at hjoins ⊢
  intro j' hj'
  rcases List.mem_append.1 hj' with hj' | hj'
  · exact hjoins j' hj'
  · rwa [List.mem_singleton.1 hj']

theorem coherent_whereItem {item : Item} {s s' : Select} (hitem : item.Coherent) (hs : s.Coherent)
    (h : s.whereItem item = .ok s') : s'.Coherent := by
  obtain ⟨filter, hfilter, h⟩ := exists_of_bind_eq_ok h
  cases h
  exact coherent_of_unkept rfl rfl
    { inside hs with filter := (Clause.keeps_add hitem).apply (inside hs).filter hfilter }

theorem coherent_orWhereItem {item : Item} {s s' : Select} (hitem : item.Coherent) (hs : s.Coherent)
    (h : s.orWhereItem item = .ok s') : s'.Coherent := by
  obtain ⟨filter, hfilter, h⟩ := exists_of_bind_eq_ok h
  cases h
  exact coherent_of_unkept rfl rfl
    { inside hs with
      filter :=
        (Clause.keeps_onGroup (Group.keeps_addJoined hitem .or)).apply (inside hs).filter hfilter }

theorem coherent_havingItem {item : Item} {s s' : Select} (hitem : item.Coherent) (hs : s.Coherent)
    (h : s.havingItem item = .ok s') : s'.Coherent := by
  obtain ⟨having, hhaving, h⟩ := exists_of_bind_eq_ok h
  cases h
  exact coherent_of_unkept rfl rfl
    { inside hs with having := (Clause.keeps_add hitem).apply (inside hs).having hhaving }

theorem coherent_combine {operation : SetOperation} {s other s' : Select} (hs : s.Coherent)
    (hother : other.Coherent) (h : s.combine operation other = .ok s') : s'.Coherent := by
  have hcombined : CombinedCoherent (some (operation, other)) := by rwa [CombinedCoherent]
  unfold combine at h
  split at h
  · split at h <;> cases h
    exact coherent_of_unkept rfl rfl { inside hs with combined := hcombined }
  · cases h
    exact coherent_of_unkept rfl rfl { inside hs with combined := hcombined }

theorem coherent_order {terms : String} {s s' : Select} (hs : s.Coherent)
    (h : s.order terms = .ok s') : s'.Coherent := by
  obtain ⟨terms, -, h⟩ := exists_of_bind_eq_ok h
  cases h
  exact coherent_of_unkept rfl rfl { inside hs with }

theorem coherent_of_originSelect? {s inner : Select} (hs : s.Coherent)
    (h : s.originSelect? = some inner) : inner.Coherent := by
  unfold originSelect? at h
  split at h
  · next heq =>
    cases h
    have horigin := (inside hs).origin
    rwa [heq, OriginCoherent] at horigin
  · cases h

theorem coherent_putOriginSelect {s inner : Select} (hs : s.Coherent) (hcache : s.cache = none)
    (hmemo : s.columnTexts = none) (hinner : inner.Coherent) :
    (s.putOriginSelect inner).Coherent := by
  unfold putOriginSelect
  split
  · exact coherent_of_unkept hcache hmemo { inside hs with origin := by rwa [OriginCoherent] }
  · exact hs

end Select

/-! ## Inserts -/

namespace Insert

theorem coherent_empty : Insert.empty.Coherent :=
  ⟨Cache.sound_none, (fun _ h => nomatch h), fun _ h => nomatch h⟩

theorem coherent_uncached {i : Insert} (h : i.Coherent) : i.uncached.Coherent :=
  ⟨Cache.sound_none, h.rows, h.source⟩

theorem coherent_intoTable {name : String} {i i' : Insert} (hi : i.Coherent)
    (h : i.intoTable name = .ok i') : i'.Coherent := by
  unfold intoTable at h
  split at h
  · cases h
  · obtain ⟨name, -, h⟩ := exists_of_bind_eq_ok h
    cases h
    exact ⟨Cache.sound_none, hi.rows, hi.source⟩

theorem coherent_setColumns {names : List String} {i i' : Insert} (hi : i.Coherent)
    (h : i.setColumns names = .ok i') : i'.Coherent := by
  obtain ⟨columns, -, h⟩ := exists_of_bind_eq_ok h
  split at h
  · split at h <;> cases h
    exact ⟨Cache.sound_none, hi.rows, hi.source⟩
  · cases h
    exact ⟨Cache.sound_none, hi.rows, hi.source⟩

theorem coherent_addRow {row : List Operand} {i i' : Insert} (hrow : RowCoherent row)
    (hi : i.Coherent) (h : i.addRow row = .ok i') : i'.Coherent := by
  unfold addRow at h
  split at h
  · cases h
  · split at h
    · cases h
    · split at h <;> cases h
      refine ⟨Cache.sound_none, fun row' hrow' => ?_, hi.source⟩
      rcases List.mem_append.1 hrow' with hrow' | hrow'
      · exact hi.rows row' hrow'
      · rwa [List.mem_singleton.1 hrow']

theorem mem_of_namedValues {seen : List Identifier} {pairs : List (String × Operand)}
    {named : List (Identifier × Operand)} (h : namedValues seen pairs = .ok named) :
    ∀ o ∈ named.map Prod.snd, o ∈ pairs.map Prod.snd := by
  induction pairs generalizing seen named with
  | nil => cases h; simp
  | cons pair pairs ih =>
    obtain ⟨column, -, h⟩ := exists_of_bind_eq_ok h
    split at h
    · cases h
    · obtain ⟨rest, hrest, h⟩ := exists_of_bind_eq_ok h
      cases h
      intro o ho
      rw [List.map_cons, List.mem_cons] at ho ⊢
      exact ho.imp_right (ih hrest o)

theorem mem_of_valuesFor {columns : List Identifier} {named : List (Identifier × Operand)}
    {row : List Operand} (h : valuesFor columns named = .ok row) :
    ∀ o ∈ row, o ∈ named.map Prod.snd := by
  induction columns generalizing named row with
  | nil => cases h; simp
  | cons column columns ih =>
    rw [valuesFor] at h
    cases hlookup : named.lookup column with
    | none => rw [hlookup] at h; cases h
    | some value =>
      rw [hlookup] at h
      obtain ⟨values, hvalues, h⟩ := exists_of_bind_eq_ok h
      cases h
      intro o ho
      rcases List.mem_cons.1 ho with rfl | ho
      · obtain ⟨l₁, l₂, hnamed, -⟩ := List.lookup_eq_some_iff.1 hlookup
        rw [hnamed]
        simp
      · obtain ⟨pair, hpair, rfl⟩ := List.mem_map.1 (ih hvalues o ho)
        exact List.mem_map_of_mem (List.mem_of_mem_eraseP hpair)

theorem coherent_addNamedRow {pairs : List (String × Operand)} {i i' : Insert}
    (hpairs : RowCoherent (pairs.map Prod.snd)) (hi : i.Coherent)
    (h : i.addNamedRow pairs = .ok i') : i'.Coherent := by
  obtain ⟨named, hnamed, h⟩ := exists_of_bind_eq_ok h
  have hvalues : RowCoherent (named.map Prod.snd) :=
    fun o ho => hpairs o (mem_of_namedValues hnamed o ho)
  split at h
  · obtain ⟨added, hadded, h⟩ := exists_of_bind_eq_ok h
    cases h
    have hcoherent := coherent_addRow hvalues hi hadded
    have hcache : added.cache = none := by
      unfold addRow at hadded
      split at hadded
      · cases hadded
      · split at hadded
        · cases hadded
        · split at hadded <;> cases hadded
          rfl
    exact ⟨hcache ▸ Cache.sound_none, hcoherent.rows, hcoherent.source⟩
  · split at h
    · cases h
    · obtain ⟨row, hrow, h⟩ := exists_of_bind_eq_ok h
      exact coherent_addRow (fun o ho => hvalues o (mem_of_valuesFor hrow o ho)) hi h

theorem coherent_fromSelect {source : Select} {i i' : Insert} (hsource : source.Coherent)
    (hi : i.Coherent) (h : i.fromSelect source = .ok i') : i'.Coherent := by
  unfold fromSelect at h
  split at h <;> cases h
  exact ⟨Cache.sound_none, hi.rows, fun _ hs => Option.some.inj hs ▸ hsource⟩

end Insert

/-! ## Updates and deletes -/

namespace Update

theorem coherent_empty : Update.empty.Coherent :=
  ⟨Cache.sound_none, (fun _ h => nomatch h), Clause.coherent_empty _⟩

theorem coherent_setTable {name : String} {u u' : Update} (hu : u.Coherent)
    (h : u.setTable name = .ok u') : u'.Coherent := by
  unfold setTable at h
  split at h
  · cases h
  · obtain ⟨name, -, h⟩ := exists_of_bind_eq_ok h
    cases h
    exact ⟨Cache.sound_none, hu.assignments, hu.filter⟩

theorem coherent_assign {column : Identifier} {value : Operand} {assignments : List Assignment}
    (hvalue : value.Coherent) (h : AssignmentsCoherent assignments) :
    AssignmentsCoherent (assign column value assignments) := by
  induction assignments with
  | nil => exact List.forall_mem_singleton.2 hvalue
  | cons a rest ih =>
    obtain ⟨ha, hrest⟩ := List.forall_mem_cons.1 h
    rw [assign]
    split
    · exact List.forall_mem_cons.2 ⟨hvalue, hrest⟩
    · exact List.forall_mem_cons.2 ⟨ha, ih hrest⟩

theorem coherent_set {column : String} {value : Operand} {u u' : Update} (hvalue : value.Coherent)
    (hu : u.Coherent) (h : u.set column value = .ok u') : u'.Coherent := by
  obtain ⟨column, -, h⟩ := exists_of_bind_eq_ok h
  cases h
  exact ⟨Cache.sound_none, coherent_assign hvalue hu.assignments, hu.filter⟩

theorem coherent_setAll {pairs : List (String × Operand)} {u u' : Update}
    (hpairs : RowCoherent (pairs.map Prod.snd)) (hu : u.Coherent)
    (h : Update.setAll pairs u = .ok u') : u'.Coherent := by
  induction pairs generalizing u with
  | nil => cases h; exact hu
  | cons pair pairs ih =>
    obtain ⟨column, value⟩ := pair
    rw [List.map_cons] at hpairs
    obtain ⟨hvalue, hrest⟩ := List.forall_mem_cons.1 hpairs
    rw [setAll] at h
    split at h
    · next u₁ hset => exact ih hrest (coherent_set hvalue hu hset) h
    · cases h

theorem coherent_whereItem {item : Item} {u u' : Update} (hitem : item.Coherent) (hu : u.Coherent)
    (h : u.whereItem item = .ok u') : u'.Coherent := by
  obtain ⟨filter, hfilter, h⟩ := exists_of_bind_eq_ok h
  cases h
  exact ⟨Cache.sound_none, hu.assignments, (Clause.keeps_add hitem).apply hu.filter hfilter⟩

theorem coherent_orWhereItem {item : Item} {u u' : Update} (hitem : item.Coherent) (hu : u.Coherent)
    (h : u.orWhereItem item = .ok u') : u'.Coherent := by
  obtain ⟨filter, hfilter, h⟩ := exists_of_bind_eq_ok h
  cases h
  exact ⟨Cache.sound_none, hu.assignments,
    (Clause.keeps_onGroup (Group.keeps_addJoined hitem .or)).apply hu.filter hfilter⟩

end Update

namespace Delete

theorem coherent_empty : Delete.empty.Coherent := ⟨Cache.sound_none, Clause.coherent_empty _⟩

theorem coherent_fromTable {name : String} {del del' : Delete} (hdel : del.Coherent)
    (h : del.fromTable name = .ok del') : del'.Coherent := by
  unfold fromTable at h
  split at h
  · cases h
  · obtain ⟨name, -, h⟩ := exists_of_bind_eq_ok h
    cases h
    exact ⟨Cache.sound_none, hdel.filter⟩

theorem coherent_whereItem {item : Item} {del del' : Delete} (hitem : item.Coherent)
    (hdel : del.Coherent) (h : del.whereItem item = .ok del') : del'.Coherent := by
  obtain ⟨filter, hfilter, h⟩ := exists_of_bind_eq_ok h
  cases h
  exact ⟨Cache.sound_none, (Clause.keeps_add hitem).apply hdel.filter hfilter⟩

theorem coherent_orWhereItem {item : Item} {del del' : Delete} (hitem : item.Coherent)
    (hdel : del.Coherent) (h : del.orWhereItem item = .ok del') : del'.Coherent := by
  obtain ⟨filter, hfilter, h⟩ := exists_of_bind_eq_ok h
  cases h
  exact ⟨Cache.sound_none, (Clause.keeps_onGroup (Group.keeps_addJoined hitem .or)).apply
    hdel.filter hfilter⟩

end Delete

/-! ## Expressions -/

theorem Expression.coherent_make {template : String} {slots : List Slot} {e : Expression}
    (hslots : ∀ slot ∈ slots, slot.filling.Coherent) (h : make template slots = .ok e) :
    e.Coherent := by
  obtain ⟨rfl, hfault⟩ := template_make h
  rw [Expression.Coherent, slotsCoherent_iff]
  exact ⟨hfault, hslots⟩

end SqlTree
