import SqlTree.Proofs.Invariant

/-!
# SqlTree.Proofs.Rows.Build

Building the rows of an insert.  A row that has been given is there to stay
(`Builder.rows_build`), and once there is one, only a call for other columns
changes the columns (`Builder.columns_build`).  A row that is given by
column names is put in the order of the columns, which are those of the
first such row if there are none yet: each of its values stands where its
column stands (`Insert.addNamedRow_places`).  Along every history an insert
that takes its rows from a select has none of its own
(`Reachable.sourceApart`).
-/

namespace SqlTree

theorem Identifier.text_of_parse {name : String} {i : Identifier} (h : parse name = .ok i) :
    i.text = name := by
  unfold parse at h
  split at h <;> cases h
  rfl

namespace Insert

/-! ## One call -/

/-- An insert with a select to take rows from has no rows of its own. -/
def SourceApart (i : Insert) : Prop := i.source?.isSome = true → i.rows = []

theorem addRow_eq_ok {row : List Operand} {i i' : Insert} (h : i.addRow row = .ok i') :
    i.source? = none ∧ i' = { i.uncached with rows := i.rows ++ [row] } := by
  simp only [addRow] at h
  split at h
  · cases h
  · next hsource =>
    refine ⟨by simpa using hsource, ?_⟩
    split at h
    · cases h
    · split at h
      · cases h
      · exact (Except.ok.inj h).symm

theorem intoTable_eq_ok {name : String} {i i' : Insert} (h : i.intoTable name = .ok i') :
    ∃ table, i' = { i.uncached with table? := some table } := by
  simp only [intoTable] at h
  split at h
  · cases h
  · obtain ⟨table, -, h⟩ := exists_of_bind_eq_ok h
    exact ⟨table, (Except.ok.inj h).symm⟩

theorem setColumns_eq_ok {names : List String} {i i' : Insert} (h : i.setColumns names = .ok i') :
    ∃ columns, i' = { i.uncached with columns } := by
  obtain ⟨columns, -, h⟩ := exists_of_bind_eq_ok h
  dsimp only at h
  split at h
  · split at h
    · cases h
    · exact ⟨columns, (Except.ok.inj h).symm⟩
  · exact ⟨columns, (Except.ok.inj h).symm⟩

theorem fromSelect_eq_ok {s : Select} {i i' : Insert} (h : i.fromSelect s = .ok i') :
    i.rows = [] ∧ i' = { i.uncached with source? := some s } := by
  simp only [fromSelect] at h
  split at h
  · next hrows => exact ⟨List.isEmpty_iff.1 hrows, (Except.ok.inj h).symm⟩
  · cases h

/-! ## Rows by name -/

/-- The columns of a row by name are distinct and hold what was given for
them. -/
theorem namedValues_eq_ok {seen : List Identifier} {pairs : List (String × Operand)}
    {named : List (Identifier × Operand)} (h : namedValues seen pairs = .ok named) :
    (named.map Prod.fst).Nodup ∧ (∀ column ∈ named.map Prod.fst, column ∉ seen) ∧
      ∀ name v, (name, v) ∈ pairs → ∃ c, Identifier.parse name = .ok c ∧ (c, v) ∈ named := by
  induction pairs generalizing seen named with
  | nil =>
    cases h
    simp
  | cons pair pairs ih =>
    obtain ⟨name, v⟩ := pair
    obtain ⟨column, hcolumn, h⟩ := exists_of_bind_eq_ok h
    split at h
    · cases h
    next hseen =>
    obtain ⟨rest, hrest, h⟩ := exists_of_bind_eq_ok h
    cases h
    obtain ⟨hnodup, hfresh, hpairs⟩ := ih hrest
    have hout : column ∉ rest.map Prod.fst := fun hin =>
      hfresh column hin (List.mem_cons_self ..)
    refine ⟨List.nodup_cons.2 ⟨hout, hnodup⟩, ?_, ?_⟩
    · rintro other (_ | ⟨_, hother⟩)
      · exact hseen
      · exact fun hin => hfresh other hother (List.mem_cons_of_mem _ hin)
    · rintro name' v' (_ | ⟨_, hpair⟩)
      · exact ⟨column, hcolumn, List.mem_cons_self ..⟩
      · obtain ⟨c, hc, hin⟩ := hpairs name' v' hpair
        exact ⟨c, hc, List.mem_cons_of_mem _ hin⟩

/-- A value is looked up under its column, if no column is there twice. -/
theorem lookup_of_mem {named : List (Identifier × Operand)} {c : Identifier} {v : Operand}
    (hnodup : (named.map Prod.fst).Nodup) (h : (c, v) ∈ named) : named.lookup c = some v := by
  induction named with
  | nil => cases h
  | cons pair named ih =>
    obtain ⟨hout, hnodup⟩ := List.nodup_cons.1 hnodup
    cases h with
    | head => simp
    | tail _ h =>
      have hne : c ≠ pair.1 := fun heq => hout (heq ▸ List.mem_map_of_mem (f := Prod.fst) h)
      rw [List.lookup_cons, beq_eq_false_iff_ne.2 hne]
      exact ih hnodup h

/-- Every value that is given stands where its column stands. -/
theorem valuesFor_places {columns : List Identifier} {named : List (Identifier × Operand)}
    {row : List Operand} (h : valuesFor columns named = .ok row)
    (hlength : named.length = columns.length) (hnodup : (named.map Prod.fst).Nodup)
    {c : Identifier} {v : Operand} (hin : (c, v) ∈ named) :
    ∃ j : Nat, columns[j]? = some c ∧ row[j]? = some v := by
  induction columns generalizing named row with
  | nil =>
    rw [List.length_nil, List.length_eq_zero_iff] at hlength
    simp [hlength] at hin
  | cons column columns ih =>
    rw [valuesFor] at h
    split at h
    · cases h
    next value hvalue =>
    obtain ⟨values, hvalues, h⟩ := exists_of_bind_eq_ok h
    cases h
    by_cases hcolumn : c = column
    · subst hcolumn
      rw [lookup_of_mem hnodup hin] at hvalue
      exact ⟨0, rfl, hvalue.symm⟩
    · obtain ⟨before, after, hsplit, -⟩ := List.lookup_eq_some_iff.1 hvalue
      have hpair : (column, value) ∈ named :=
        hsplit ▸ List.mem_append_right _ (List.mem_cons_self ..)
      have hsub := List.eraseP_sublist (p := fun pair => decide (pair.1 = column)) (l := named)
      have hrest : (named.eraseP fun pair => decide (pair.1 = column)).length =
          columns.length := by
        rw [List.length_eraseP_of_mem hpair (decide_eq_true rfl), hlength, List.length_cons,
          Nat.add_sub_cancel]
      obtain ⟨j, hj, hrow⟩ := ih hvalues hrest (hnodup.sublist (hsub.map _))
        ((List.mem_eraseP_of_neg (by simpa using hcolumn)).2 hin)
      exact ⟨j + 1, hj, hrow⟩

/-- A row by name is a new last row in which each value stands where its
column stands.  If there were rows, the columns are those that there
were. -/
theorem addNamedRow_places {pairs : List (String × Operand)} {i i' : Insert}
    (h : i.addNamedRow pairs = .ok i') :
    i.source? = none ∧ i'.source? = none ∧ (i.rows ≠ [] → i'.columns = i.columns) ∧
      ∃ row, i'.rows = i.rows ++ [row] ∧ ∀ name v, (name, v) ∈ pairs →
        ∃ (c : Identifier) (j : Nat),
          Identifier.parse name = .ok c ∧ i'.columns[j]? = some c ∧ row[j]? = some v := by
  obtain ⟨named, hnamed, h⟩ := exists_of_bind_eq_ok h
  obtain ⟨hnodup, -, hpairs⟩ := namedValues_eq_ok hnamed
  split at h
  · next hempty =>
    obtain ⟨added, hadded, h⟩ := exists_of_bind_eq_ok h
    cases h
    obtain ⟨hsource, rfl⟩ := addRow_eq_ok hadded
    refine ⟨hsource, hsource, fun hrows => absurd (List.isEmpty_iff.1 hempty.2) hrows, _, rfl,
      fun name v hpair => ?_⟩
    obtain ⟨c, hc, hin⟩ := hpairs name v hpair
    obtain ⟨j, hj⟩ := List.mem_iff_getElem?.1 hin
    exact ⟨c, j, hc, by simp [List.getElem?_map, hj], by simp [List.getElem?_map, hj]⟩
  · split at h
    · cases h
    next hlength =>
    obtain ⟨row, hrow, h⟩ := exists_of_bind_eq_ok h
    obtain ⟨hsource, rfl⟩ := addRow_eq_ok h
    refine ⟨hsource, hsource, fun _ => rfl, row, rfl, fun name v hpair => ?_⟩
    obtain ⟨c, hc, hin⟩ := hpairs name v hpair
    obtain ⟨j, hj, hv⟩ := valuesFor_places hrow (not_not.1 hlength) hnodup hin
    exact ⟨c, j, hc, hj, hv⟩

end Insert

namespace Builder

variable {b : Builder .insert} {i i' : Insert}

/-- A row that has been given stays. -/
theorem rows_build (h : b.build i = .ok i') : i.rows <+: i'.rows := by
  cases b with
  | insertInto name =>
    obtain ⟨table, rfl⟩ := Insert.intoTable_eq_ok h
    exact List.prefix_refl _
  | columns names =>
    obtain ⟨columns, rfl⟩ := Insert.setColumns_eq_ok h
    exact List.prefix_refl _
  | row values => exact (Insert.addRow_eq_ok h).2 ▸ List.prefix_append ..
  | namedRow pairs =>
    obtain ⟨-, -, -, row, hrows, -⟩ := Insert.addNamedRow_places h
    exact hrows ▸ List.prefix_append ..
  | source s => exact (Insert.fromSelect_eq_ok h).2 ▸ List.prefix_refl _

/-- Once there is a row, only a call for other columns changes the
columns. -/
theorem columns_build (h : b.build i = .ok i') (hrows : i.rows ≠ [])
    (hb : ∀ names, b ≠ .columns names) : i'.columns = i.columns := by
  cases b with
  | insertInto name =>
    obtain ⟨table, rfl⟩ := Insert.intoTable_eq_ok h
    rfl
  | columns names => exact absurd rfl (hb names)
  | row values => rw [(Insert.addRow_eq_ok h).2]; rfl
  | namedRow pairs => exact (Insert.addNamedRow_places h).2.2.1 hrows
  | source s => rw [(Insert.fromSelect_eq_ok h).2]; rfl

theorem sourceApart_build (h : b.build i = .ok i') (hi : i.SourceApart) : i'.SourceApart := by
  cases b with
  | insertInto name =>
    obtain ⟨table, rfl⟩ := Insert.intoTable_eq_ok h
    exact hi
  | columns names =>
    obtain ⟨columns, rfl⟩ := Insert.setColumns_eq_ok h
    exact hi
  | row values =>
    obtain ⟨hsource, rfl⟩ := Insert.addRow_eq_ok h
    simp [Insert.SourceApart, Insert.uncached, hsource]
  | namedRow pairs =>
    simp [Insert.SourceApart, (Insert.addNamedRow_places h).2.1]
  | source s =>
    obtain ⟨hrows, rfl⟩ := Insert.fromSelect_eq_ok h
    exact fun _ => hrows

end Builder

/-- Every row has its drafts. -/
theorem length_rowDrafts {k : Constructs} {columns : List Identifier} {rows : List (List Operand)}
    {cells : List (List Draft)} (h : rowDrafts k columns rows = .ok cells) :
    cells.length = rows.length := by
  induction rows generalizing cells with
  | nil =>
    cases h
    rfl
  | cons row rows ih =>
    obtain ⟨ps, -, h⟩ := exists_of_bind_eq_ok h
    obtain ⟨rest, hrest, h⟩ := exists_of_bind_eq_ok h
    cases h
    simp [ih hrest]

/-! ## Along a history -/

/-- A property of inserts, as one of nodes. -/
def Node.OnInserts (P : Insert → Prop) : (k : Kind) → Node k → Prop
  | .insert, i => P i
  | _, _ => True

/-- Histories keep what methods keep and what does not depend on the select
that rows are taken from. -/
theorem invariant_onInserts {P : Insert → Prop} (hempty : P Insert.empty)
    (hfresh : ∀ i : Insert, P i.fresh ↔ P i)
    (hbuild : ∀ {b : Builder .insert} {i i' : Insert}, P i → b.build i = .ok i' → P i')
    (hsource : ∀ {i : Insert} {s s' : Select}, P i → i.source? = some s →
      P { i with source? := some s' }) : Invariant .free (Node.OnInserts P) := by
  have huncached {i : Insert} (hi : P i) : P i.uncached := (hfresh i.uncached).1 ((hfresh i).2 hi)
  refine ⟨?fresh, ?make, ?build, ?change, ?enter, ?find, ?put⟩
  case fresh =>
    intro k n
    cases k with
    | insert => exact hfresh n
    | _ => exact Iff.rfl
  case make =>
    intro _ maker _ _ hmake
    cases maker with
    | insert =>
      cases hmake
      exact hempty
    | _ => trivial
  case build =>
    intro k _ _ _ _ hn h
    cases k with
    | insert => exact hbuild hn h
    | _ => trivial
  case change =>
    intro _ c _ _ _
    cases c <;> trivial
  case enter =>
    intro _ _ hop _ _ hn
    cases hop with
    | source => exact huncached hn
    | _ => trivial
  case find =>
    intro _ _ hop _ _ _ _ _
    cases hop <;> trivial
  case put =>
    intro _ _ hop _ _ _ _ hn hfound _
    cases hop with
    | source => exact hsource (huncached hn) hfound
    | _ => trivial

/-- An insert with a select to take rows from has no rows of its own; other
nodes have none anyway. -/
def Node.SourceApart : (k : Kind) → Node k → Prop
  | .insert, i => Insert.SourceApart i
  | _, _ => True

/-- Along every history an insert that takes its rows from a select has none
of its own. -/
theorem Reachable.sourceApart {k : Kind} {n : Node k} (h : Reachable k n) :
    Node.SourceApart k n := by
  have hinvariant : Invariant .free (Node.OnInserts Insert.SourceApart) :=
    invariant_onInserts (fun _ => rfl) (fun i => by simp [Insert.SourceApart, Insert.fresh])
      (fun hi h => Builder.sourceApart_build h hi)
      (fun hi hsource _ => hi (by rw [hsource]; rfl))
  have hholds := hinvariant.holds h.free
  cases k with
  | insert => exact hholds
  | _ => trivial

end SqlTree
