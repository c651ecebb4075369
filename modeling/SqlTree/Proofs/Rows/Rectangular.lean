import Mathlib.Data.List.Perm.Basic
import SqlTree.Proofs.Rows.Named

/-!
# SqlTree.Proofs.Rows.Rectangular

An insert is a rectangle.  All of its rows are equally long, none is empty,
and a list of columns is as long as they are (`Insert.HasWidth`); every
method keeps this (`Builder.hasWidth_build`).  With columns, a row by name is
taken if and only if the names are those of the columns in some order, and
then it is the row that pairs up with the columns to the pairs that were
given (`Insert.addNamedRow_eq_ok_iff`), so it does not depend on their order.
The text lists the rows as they were given, in either of its two forms, and
binds their values in this order (`Insert.Lists`).
-/

namespace SqlTree

namespace Insert

variable {i i' : Insert} {r : Nat}

/-! ## The width -/

/-- The rows are of this length, and so is the list of columns if there is
one. -/
structure HasWidth (i : Insert) (r : Nat) : Prop where
  pos : 1 ≤ r
  rows : ∀ row ∈ i.rows, row.length = r
  columns : i.columns ≠ [] → i.columns.length = r

theorem hasWidth_empty : empty.HasWidth 1 :=
  ⟨Nat.le_refl 1, List.forall_mem_nil _, fun hne => absurd rfl hne⟩

/-- What the values keep is of no account. -/
theorem hasWidth_fresh : i.fresh.HasWidth r ↔ i.HasWidth r := by
  have hrows : (∀ row ∈ i.fresh.rows, row.length = r) ↔ ∀ row ∈ i.rows, row.length = r := by
    simp [fresh]
  exact ⟨fun h => ⟨h.pos, hrows.1 h.rows, h.columns⟩, fun h => ⟨h.pos, hrows.2 h.rows, h.columns⟩⟩

/-- A row is taken if it fits and there is no source. -/
theorem addRow_eq_ok_iff {row : List Operand} : i.addRow row = .ok i' ↔
    i.source? = none ∧ row ≠ [] ∧ (∀ width, i.rowLength? = some width → row.length = width) ∧
      i' = { i.uncached with rows := i.rows ++ [row] } := by
  have hfits : i.rowLength?.filter (· ≠ row.length) = none ↔
      ∀ width, i.rowLength? = some width → row.length = width := by
    simp [Option.filter_eq_none_iff, @eq_comm _ row.length]
  simp only [addRow]
  split
  · next hsource => simp [Option.isSome_iff_ne_none.1 hsource]
  next hsource =>
  have hsource : i.source? = none := by simpa using hsource
  split
  · next width hwidth =>
    have hnot : ¬ ∀ width, i.rowLength? = some width → row.length = width := fun h => by
      rw [hfits.2 h] at hwidth
      cases hwidth
    simp [hnot]
  · next hnone =>
    split
    · next hempty => simp [List.isEmpty_iff.1 hempty]
    · next hempty =>
      have hrow : row ≠ [] := fun h => hempty (List.isEmpty_iff.2 h)
      simp only [Except.ok.injEq, hsource, true_and, hrow, ne_eq, not_false_eq_true]
      exact ⟨fun h => ⟨hfits.1 hnone, h.symm⟩, fun h => h.2.symm⟩

/-- The width is what a further row must be long. -/
theorem HasWidth.rowLength? (h : i.HasWidth r) (hsome : i.rows ≠ [] ∨ i.columns ≠ []) :
    i.rowLength? = some r := by
  rw [Insert.rowLength?]
  split
  · next hempty =>
    obtain ⟨row, rows, hrows⟩ := List.exists_cons_of_ne_nil
      (hsome.resolve_right fun hne => hne (List.isEmpty_iff.1 hempty))
    rw [hrows, List.head?_cons, Option.map_some, h.rows row (hrows ▸ List.mem_cons_self ..)]
  · next hempty =>
    rw [h.columns fun hnil => hempty (List.isEmpty_iff.2 hnil)]

/-- A row that is taken is as wide as the insert then is. -/
theorem HasWidth.addRow {row : List Operand} (h : i.HasWidth r) (hadd : i.addRow row = .ok i') :
    i'.HasWidth row.length := by
  obtain ⟨-, hrow, hfits, rfl⟩ := addRow_eq_ok_iff.1 hadd
  have hsame (hsome : i.rows ≠ [] ∨ i.columns ≠ []) : row.length = r :=
    hfits r (h.rowLength? hsome)
  refine ⟨List.length_pos_iff.2 hrow, fun other hother => ?_, fun hcolumns => ?_⟩
  · rcases List.mem_append.1 hother with hother | hother
    · rw [h.rows other hother, hsame (.inl (List.ne_nil_of_mem hother))]
    · rw [List.mem_singleton.1 hother]
  · exact (h.columns hcolumns).trans (hsame (.inr hcolumns)).symm

theorem hasWidth_setColumns {names : List String} (h : i.HasWidth r)
    (hset : i.setColumns names = .ok i') : ∃ r', i'.HasWidth r' := by
  obtain ⟨columns, -, hset⟩ := exists_of_bind_eq_ok hset
  dsimp only at hset
  split at hset
  · next row hrow =>
    split at hset
    · cases hset
    next hlength =>
    cases hset
    have hrow : row.length = r := h.rows row (List.mem_of_head? hrow)
    exact ⟨r, h.pos, h.rows, fun _ => (not_not.1 hlength).symm.trans hrow⟩
  · next hnone =>
    cases hset
    have hrows : i.rows = [] := List.head?_eq_none_iff.1 hnone
    have hnone (row : List Operand) : row ∉ i.rows := hrows ▸ List.not_mem_nil
    exact ⟨max 1 columns.length, Nat.le_max_left .., fun row hrow => absurd hrow (hnone row),
      fun hne => (Nat.max_eq_right (List.length_pos_iff.2 hne)).symm⟩

theorem hasWidth_addNamedRow {pairs : List (String × Operand)} (h : i.HasWidth r)
    (hadd : i.addNamedRow pairs = .ok i') : ∃ r', i'.HasWidth r' := by
  obtain ⟨named, -, hadd⟩ := exists_of_bind_eq_ok hadd
  split at hadd
  · obtain ⟨added, hadded, hadd⟩ := exists_of_bind_eq_ok hadd
    cases hadd
    obtain ⟨hpos, hrows, -⟩ := h.addRow hadded
    exact ⟨_, hpos, hrows, fun _ => by simp⟩
  · split at hadd
    · cases hadd
    obtain ⟨row, -, hadd⟩ := exists_of_bind_eq_ok hadd
    exact ⟨_, h.addRow hadd⟩


/-! ## Rows by name -/

/-- A pair of a column and its value, as it is given. -/
def byText (pair : Identifier × Operand) : String × Operand := (pair.1.text, pair.2)

/-- The pairs are read if their names are those of distinct columns. -/
theorem namedValues_eq_ok_iff {seen : List Identifier} {pairs : List (String × Operand)}
    {named : List (Identifier × Operand)} : namedValues seen pairs = .ok named ↔
      (named.map Prod.fst).Nodup ∧ (∀ column ∈ named.map Prod.fst, column ∉ seen) ∧
        named.map byText = pairs := by
  induction pairs generalizing seen named with
  | nil =>
    rw [namedValues]
    constructor
    · intro h
      cases h
      simp
    · rintro ⟨-, -, h⟩
      rw [List.map_eq_nil_iff.1 h]
  | cons pair pairs ih =>
    obtain ⟨name, v⟩ := pair
    refine ⟨fun h => ?_, fun ⟨hnodup, hseen, h⟩ => ?_⟩
    · have hboth := namedValues_eq_ok h
      refine ⟨hboth.1, hboth.2.1, ?_⟩
      obtain ⟨column, hcolumn, h⟩ := exists_of_bind_eq_ok h
      split at h
      · cases h
      obtain ⟨rest, hrest, h⟩ := exists_of_bind_eq_ok h
      cases h
      rw [List.map_cons, (ih.1 hrest).2.2, byText, Identifier.text_of_parse hcolumn]
    · obtain ⟨⟨column, value⟩, rest, rfl, hpair, hrest⟩ := List.map_eq_cons_iff.1 h
      obtain ⟨rfl, rfl⟩ := Prod.mk.inj hpair
      obtain ⟨hout, hnodup⟩ := List.nodup_cons.1 hnodup
      have hread : namedValues (column :: seen) pairs = .ok rest := by
        refine ih.2 ⟨hnodup, fun other hother hin => ?_, hrest⟩
        rcases List.mem_cons.1 hin with rfl | hin
        · exact hout hother
        · exact hseen other (List.mem_cons_of_mem _ hother) hin
      simp only [namedValues, Identifier.parse_text, bind, Except.bind,
        if_neg (hseen column (List.mem_cons_self ..)), hread]
      rfl

/-- What is found under a column is taken from among the values. -/
theorem perm_of_lookup {named : List (Identifier × Operand)} {column : Identifier}
    {value : Operand} (h : named.lookup column = some value) :
    named.Perm ((column, value) :: named.eraseP fun pair => pair.1 = column) := by
  obtain ⟨before, after, rfl, hbefore⟩ := List.lookup_eq_some_iff.1 h
  have hnot : ∀ pair ∈ before, ¬ decide (pair.1 = column) = true := fun pair hpair heq => by
    simpa [of_decide_eq_true heq] using hbefore pair hpair
  rw [List.eraseP_append_right _ hnot, List.eraseP_cons_of_pos (by simp)]
  exact List.perm_middle

/-- The values that are taken pair up with the columns to the pairs that they
are taken from. -/
theorem perm_of_valuesFor {columns : List Identifier} {named : List (Identifier × Operand)}
    {row : List Operand} (h : valuesFor columns named = .ok row) :
    row.length = columns.length ∧ ∃ rest, named.Perm (columns.zip row ++ rest) := by
  induction columns generalizing named row with
  | nil =>
    cases h
    exact ⟨rfl, named, List.Perm.refl _⟩
  | cons column columns ih =>
    rw [valuesFor] at h
    split at h
    · cases h
    next value hvalue =>
    obtain ⟨values, hvalues, h⟩ := exists_of_bind_eq_ok h
    cases h
    obtain ⟨hlength, rest, hrest⟩ := ih hvalues
    exact ⟨congrArg Nat.succ hlength, rest, (perm_of_lookup hvalue).trans (hrest.cons _)⟩

/-- There are values for columns that are all there. -/
theorem exists_valuesFor {columns : List Identifier} {named : List (Identifier × Operand)}
    (h : (named.map Prod.fst).Perm columns) : ∃ row, valuesFor columns named = .ok row := by
  induction columns generalizing named with
  | nil => exact ⟨[], rfl⟩
  | cons column columns ih =>
    obtain ⟨pair, hpair, hcolumn⟩ := List.mem_map.1 (h.mem_iff.2 (List.mem_cons_self ..))
    obtain ⟨value, hvalue⟩ : ∃ value, named.lookup column = some value := by
      rw [← Option.isSome_iff_exists, List.lookup_isSome_iff]
      exact ⟨pair, hpair, by simp [hcolumn]⟩
    have hrest := (((perm_of_lookup hvalue).map Prod.fst).symm.trans h).cons_inv
    obtain ⟨values, hvalues⟩ := ih hrest
    rw [valuesFor, hvalue]
    exact ⟨value :: values, by simp [hvalues, bind, Except.bind, pure, Except.pure]⟩

/-- Distinct columns pair up with one list of values only. -/
theorem eq_of_zip_perm {columns : List Identifier} {row row' : List Operand}
    (hnodup : columns.Nodup) (hrow : row.length = columns.length)
    (hrow' : row'.length = columns.length) (h : (columns.zip row).Perm (columns.zip row')) :
    row = row' := by
  induction columns generalizing row row' with
  | nil => rw [List.length_eq_zero_iff.1 hrow, List.length_eq_zero_iff.1 hrow']
  | cons column columns ih =>
    obtain ⟨value, row, rfl⟩ := List.exists_cons_of_length_eq_add_one hrow
    obtain ⟨value', row', rfl⟩ := List.exists_cons_of_length_eq_add_one hrow'
    obtain ⟨hout, hnodup⟩ := List.nodup_cons.1 hnodup
    have hvalue : value = value' := by
      rcases List.mem_cons.1 (h.mem_iff.1 (List.mem_cons_self ..)) with heq | hin
      · exact (Prod.mk.inj heq).2
      · exact absurd (List.of_mem_zip hin).1 hout
    subst hvalue
    rw [ih hnodup (Nat.succ.inj hrow) (Nat.succ.inj hrow') h.cons_inv]

/-- The values for columns are those that pair up with them to what is
named. -/
theorem valuesFor_eq_ok_iff {columns : List Identifier} {named : List (Identifier × Operand)}
    {row : List Operand} (hnodup : (named.map Prod.fst).Nodup)
    (hlength : named.length = columns.length) : valuesFor columns named = .ok row ↔
      row.length = columns.length ∧ named.Perm (columns.zip row) := by
  have hboth {row : List Operand} (h : valuesFor columns named = .ok row) :
      row.length = columns.length ∧ named.Perm (columns.zip row) := by
    obtain ⟨hrow, rest, hrest⟩ := perm_of_valuesFor h
    have hnone : rest = [] := by
      have := hrest.length_eq
      rw [List.length_append, List.length_zip, hrow, Nat.min_self, hlength] at this
      exact List.length_eq_zero_iff.1 (by omega)
    rw [hnone, List.append_nil] at hrest
    exact ⟨hrow, hrest⟩
  refine ⟨hboth, fun ⟨hrow, hperm⟩ => ?_⟩
  have hkeys : (named.map Prod.fst).Perm columns := by
    have hfst := hperm.map Prod.fst
    rwa [List.map_fst_zip (Nat.le_of_eq hrow.symm)] at hfst
  obtain ⟨found, hfound⟩ := exists_valuesFor hkeys
  obtain ⟨hfound_length, hfound_perm⟩ := hboth hfound
  rw [hfound, eq_of_zip_perm (hkeys.nodup_iff.1 hnodup) hfound_length hrow
    (hfound_perm.symm.trans hperm)]

/-- The values pair up with the columns to the pairs, in some order. -/
def Places (columns : List Identifier) (row : List Operand) (pairs : List (String × Operand)) :
    Prop :=
  row.length = columns.length ∧ ((columns.map Identifier.text).zip row).Perm pairs

section Places

variable {columns : List Identifier} {row : List Operand} {pairs pairs' : List (String × Operand)}

/-- Each value that is placed is what was given for its column. -/
theorem Places.mem (h : Places columns row pairs) {k : Nat} {c : Identifier}
    {v : Operand} (hc : columns[k]? = some c) (hv : row[k]? = some v) : (c.text, v) ∈ pairs := by
  refine h.2.mem_iff.1 (List.mem_iff_getElem?.2 ⟨k, ?_⟩)
  rw [List.getElem?_zip_eq_some]
  exact ⟨by simp [hc], hv⟩

theorem Places.names (h : Places columns row pairs) :
    (pairs.map Prod.fst).Perm (columns.map Identifier.text) := by
  have hfst := (h.2.map Prod.fst).symm
  rwa [List.map_fst_zip (by simp [h.1])] at hfst

/-- The order of the pairs is of no account. -/
theorem places_congr (h : pairs'.Perm pairs) : Places columns row pairs' ↔ Places columns row pairs :=
  and_congr_right fun _ => ⟨fun h' => h'.trans h, fun h' => h'.trans h.symm⟩

/-- Pairs for all columns can be placed. -/
theorem exists_places (h : (pairs.map Prod.fst).Perm (columns.map Identifier.text)) :
    ∃ row, Places columns row pairs := by
  obtain ⟨ordered, hnames, hordered⟩ : ∃ ordered : List (String × Operand),
      columns.map Identifier.text = ordered.map Prod.fst ∧ ordered.Perm pairs := by
    have hcomp := List.eq_map_comp_perm (Prod.fst : String × Operand → String)
    exact (congrFun (congrFun hcomp _) _).mpr h.symm
  refine ⟨ordered.map Prod.snd, ?_, ?_⟩
  · rw [List.length_map, ← List.length_map (f := Identifier.text), hnames, List.length_map]
  · rwa [← List.zip_of_prod hnames.symm rfl]

/-- Pairs that are placed are those of distinct columns that are named. -/
theorem Places.exists_named (h : Places columns row pairs) : ∃ named : List (Identifier × Operand),
    named.map byText = pairs ∧ named.Perm (columns.zip row) := by
  have hzip : (columns.map Identifier.text).zip row = (columns.zip row).map byText := by
    rw [List.zip_map_left]
    rfl
  have hcomp := List.eq_map_comp_perm byText
  obtain ⟨named, hpairs, hnamed⟩ := (congrFun (congrFun hcomp _) _).mpr (hzip ▸ h.2.symm)
  exact ⟨named, hpairs.symm, hnamed⟩

end Places

/-- With columns, a row by name is the row that pairs up with them to what is
given. -/
theorem addNamedRow_eq_ok_iff {pairs : List (String × Operand)} (hcolumns : i.columns ≠ []) :
    i.addNamedRow pairs = .ok i' ↔ i.source? = none ∧ i.columns.Nodup ∧
      ∃ row, Places i.columns row pairs ∧ i' = { i.uncached with rows := i.rows ++ [row] } := by
  have hnot : ¬ (i.columns.isEmpty = true ∧ i.rows.isEmpty = true) := fun h =>
    hcolumns (List.isEmpty_iff.1 h.1)
  have hlengths : i.rowLength? = some i.columns.length := by
    rw [rowLength?, if_neg fun h => hcolumns (List.isEmpty_iff.1 h)]
  constructor
  · intro h
    obtain ⟨named, hnamed, h⟩ := exists_of_bind_eq_ok h
    obtain ⟨hnodup, -, hpairs⟩ := namedValues_eq_ok_iff.1 hnamed
    rw [if_neg hnot] at h
    split at h
    · cases h
    next hlength =>
    obtain ⟨row, hrow, h⟩ := exists_of_bind_eq_ok h
    obtain ⟨hrow, hperm⟩ := (valuesFor_eq_ok_iff hnodup (not_not.1 hlength)).1 hrow
    obtain ⟨hsource, -, -, hadded⟩ := addRow_eq_ok_iff.1 h
    have hkeys : (named.map Prod.fst).Perm i.columns := by
      have hfst := hperm.map Prod.fst
      rwa [List.map_fst_zip (Nat.le_of_eq hrow.symm)] at hfst
    refine ⟨hsource, hkeys.nodup_iff.1 hnodup, row, ⟨hrow, ?_⟩, hadded⟩
    rw [← hpairs, List.zip_map_left]
    exact (hperm.map byText).symm
  · rintro ⟨hsource, hnodup, row, hplaces, hadded⟩
    obtain ⟨named, hpairs, hperm⟩ := hplaces.exists_named
    have hkeys : (named.map Prod.fst).Perm i.columns := by
      have hfst := hperm.map Prod.fst
      rwa [List.map_fst_zip (Nat.le_of_eq hplaces.1.symm)] at hfst
    have hnamed : namedValues [] pairs = .ok named :=
      namedValues_eq_ok_iff.2 ⟨hkeys.nodup_iff.2 hnodup, fun _ _ => List.not_mem_nil, hpairs⟩
    have hlength : named.length = i.columns.length := by
      rw [← hkeys.length_eq, List.length_map]
    have hvalues : valuesFor i.columns named = .ok row :=
      (valuesFor_eq_ok_iff (hkeys.nodup_iff.2 hnodup) hlength).2 ⟨hplaces.1, hperm⟩
    have hrow : row ≠ [] := fun h => hcolumns (by simpa [h] using hplaces.1.symm)
    have hfits : ∀ width, i.rowLength? = some width → row.length = width := fun width h =>
      hplaces.1.trans (Option.some.inj (hlengths.symm.trans h))
    simp only [addNamedRow, bind, Except.bind, hnamed, if_neg hnot, if_neg (not_not.2 hlength),
      hvalues]
    exact addRow_eq_ok_iff.2 ⟨hsource, hrow, hfits, hadded⟩

/-- A row by name is a new last row in which the pairs are placed by the
columns that there then are. -/
theorem exists_placed {pairs : List (String × Operand)} (h : i.addNamedRow pairs = .ok i') :
    ∃ row, Places i'.columns row pairs ∧ i'.rows = i.rows ++ [row] := by
  by_cases hcolumns : i.columns = []
  · obtain ⟨named, hnamed, h⟩ := exists_of_bind_eq_ok h
    obtain ⟨-, -, hpairs⟩ := namedValues_eq_ok_iff.1 hnamed
    split at h
    · obtain ⟨added, hadded, h⟩ := exists_of_bind_eq_ok h
      cases h
      obtain ⟨-, -, -, rfl⟩ := addRow_eq_ok_iff.1 hadded
      refine ⟨named.map Prod.snd, ⟨by simp, ?_⟩, rfl⟩
      have hzip : pairs = ((named.map Prod.fst).map Identifier.text).zip (named.map Prod.snd) :=
        List.zip_of_prod (by simp [← hpairs, byText]) (by simp [← hpairs, byText])
      rw [← hzip]
    · split at h
      · cases h
      -- There are rows, but no columns to name: the row would be empty.
      obtain ⟨row, hrow, h⟩ := exists_of_bind_eq_ok h
      rw [hcolumns] at hrow
      cases hrow
      exact absurd rfl (addRow_eq_ok_iff.1 h).2.1
  · obtain ⟨-, -, row, hplaces, rfl⟩ := (addNamedRow_eq_ok_iff hcolumns).1 h
    exact ⟨row, hplaces, rfl⟩

end Insert

/-! ## Every method -/

namespace Builder

variable {b : Builder .insert} {i i' : Insert} {r : Nat}

/-- Every method leaves a rectangle. -/
theorem hasWidth_build (h : i.HasWidth r) (hbuild : b.build i = .ok i') :
    ∃ r', i'.HasWidth r' := by
  cases b with
  | insertInto name =>
    obtain ⟨table, rfl⟩ := Insert.intoTable_eq_ok hbuild
    exact ⟨r, h.pos, h.rows, h.columns⟩
  | columns names => exact Insert.hasWidth_setColumns h hbuild
  | row values => exact ⟨_, h.addRow hbuild⟩
  | namedRow pairs => exact Insert.hasWidth_addNamedRow h hbuild
  | source s =>
    obtain ⟨-, rfl⟩ := Insert.fromSelect_eq_ok hbuild
    exact ⟨r, h.pos, h.rows, h.columns⟩

/-- The rows that a call gives, if these are the columns after it. -/
def Gives (columns : List Identifier) : Builder .insert → List (List Operand) → Prop
  | .row values, given => given = [values]
  | .namedRow pairs, given => ∃ row, Insert.Places columns row pairs ∧ given = [row]
  | _, given => given = []

/-- What a call gives goes behind the rows that there are. -/
theorem gives_build (h : b.build i = .ok i') :
    ∃ given, b.Gives i'.columns given ∧ i'.rows = i.rows ++ given := by
  cases b with
  | insertInto name =>
    obtain ⟨table, rfl⟩ := Insert.intoTable_eq_ok h
    exact ⟨[], rfl, (List.append_nil _).symm⟩
  | columns names =>
    obtain ⟨columns, rfl⟩ := Insert.setColumns_eq_ok h
    exact ⟨[], rfl, (List.append_nil _).symm⟩
  | row values => exact ⟨[values], rfl, (Insert.addRow_eq_ok h).2 ▸ rfl⟩
  | namedRow pairs =>
    obtain ⟨row, hplaces, hrows⟩ := Insert.exists_placed h
    exact ⟨[row], ⟨row, hplaces, rfl⟩, hrows⟩
  | source s => exact ⟨[], rfl, (Insert.fromSelect_eq_ok h).2 ▸ (List.append_nil _).symm⟩

end Builder

/-! ## The text -/

/-- Texts separated by commas, in parentheses. -/
def parenthesisedList (texts : List String) : String := "(" ++ ", ".intercalate texts ++ ")"

theorem joined_eq_intercalate (sep : String) (texts : List String) :
    joined sep texts = sep.intercalate texts := by
  induction texts with
  | nil => rfl
  | cons text texts ih =>
    cases texts with
    | nil => rfl
    | cons next texts =>
      rw [joined, ih, String.intercalate_cons_cons]
      exact List.cons_ne_nil next texts

namespace Insert

variable {d : Dialect} {i : Insert} {r : Nat}

/-- Where the rows go: the table, with its columns if there are any. -/
def target (i : Insert) (d : Dialect) (table : Identifier) : String :=
  if i.columns = [] then table.quoted d
  else table.quoted d ++ " " ++ parenthesisedList (i.columns.map (·.quoted d))

/-- The text lists the rows of the insert: their values are written one after
the other, from the first collector to the last, each row has as many cells as
the insert is wide, and `VALUES` is followed by the cells of all rows or, in
the dialects that have it, several rows are inserted by `INSERT ALL`, each
into the table. -/
structure Lists (i : Insert) (d : Dialect) (r : Nat) (first : Collector) (table : Identifier)
    (cells : List (List String)) (sql : String) (last : Collector) : Prop where
  inserted : i.table? = some table
  rows : RowsWrite d i.columns i.rows first cells last
  length : cells.length = i.rows.length
  width : ∀ texts ∈ cells, texts.length = r
  all : d.insertAll = true → 1 < cells.length → sql = "INSERT ALL" ++
    String.join (cells.map fun texts =>
      " INTO " ++ i.target d table ++ " VALUES " ++ parenthesisedList texts) ++
    " SELECT 1 FROM DUAL"
  values : d.insertAll = false ∨ cells.length ≤ 1 → sql = "INSERT INTO " ++ i.target d table ++
    " VALUES " ++ ", ".intercalate (cells.map parenthesisedList)

theorem parenthesised_eq (texts : List String) : parenthesised texts = parenthesisedList texts := by
  rw [parenthesised, joined_eq_intercalate, parenthesisedList]

theorem append_columnList (i : Insert) (d : Dialect) (table : Identifier) :
    table.quoted d ++ columnList (i.columns.map (·.quoted d)) = i.target d table := by
  rw [target, columnList, List.isEmpty_map, parenthesised_eq]
  by_cases hnone : i.columns = []
  · rw [if_pos hnone, if_pos (List.isEmpty_iff.2 hnone), String.append_empty]
  · rw [if_neg hnone, if_neg fun h => hnone (List.isEmpty_iff.1 h), String.append_assoc]

theorem insertAllRows_eq (i : Insert) (d : Dialect) (table : Identifier)
    (cells : List (List String)) :
    insertAllRows (table.quoted d) (i.columns.map (·.quoted d)) cells =
      String.join (cells.map fun texts =>
        " INTO " ++ i.target d table ++ " VALUES " ++ parenthesisedList texts) := by
  induction cells with
  | nil => rfl
  | cons texts cells ih =>
    rw [insertAllRows, insertRow, append_columnList, ih, parenthesised_eq, List.map_cons,
      String.join_cons]
    simp only [String.append_assoc]

/-- Rows that are written are listed. -/
theorem WritesRows.lists {first last : Collector} {sql : String}
    (h : i.WritesRows d first sql last) (hwidth : i.HasWidth r) :
    ∃ table cells, i.Lists d r first table cells sql last := by
  obtain ⟨table, cells, htable, hcells, hsql⟩ := h
  refine ⟨table, cells, htable, hcells, hcells.length, fun texts htexts => ?_, fun hall hmany => ?_,
    fun hone => ?_⟩
  · obtain ⟨row, hrow, hlength⟩ := hcells.exists_row htexts
    exact hlength.trans (hwidth.rows row hrow)
  · rw [Dialect.insertRows, if_pos ⟨hmany, hall⟩] at hsql
    rw [← Except.ok.inj hsql, ← insertAllRows_eq]
    match cells, hmany with
    | _ :: _ :: _, _ => rfl
  · have hnot : ¬(1 < cells.length ∧ d.insertAll = true) := fun ⟨hmany, hall⟩ =>
      hone.elim (fun hnone => by rw [hnone] at hall; cases hall) (Nat.not_le_of_lt hmany)
    rw [Dialect.insertRows, if_neg hnot] at hsql
    split at hsql
    · cases hsql
    · rw [← Except.ok.inj hsql, insertValues, joined_eq_intercalate, ← append_columnList,
        List.map_congr_left fun texts _ => parenthesised_eq texts]
      simp only [String.append_assoc]

end Insert

/-! ## Along a history -/

/-- Along every history an insert has one kind of data, and its rows are a
rectangle under its columns.  What a call gives goes behind the rows that
there are.  With columns, a row by distinct names is taken if and only if
they are the names of the columns in some order and there is no source; every
order then gives the same insert, and each value stands where its column
stands.  Every text lists the rows in their order, and this is the order in
which their values are bound.  A kept text is one that a shipped dialect would
write again; for any other dialect the insert is compiled anew. -/
theorem Reachable.rectangular {i : Insert} (h : Reachable .insert i) :
    (i.source? = none ∨ i.rows = []) ∧ ∃ r, i.HasWidth r ∧
      (∀ (b : Builder .insert) (i' : Insert), b.build i = .ok i' →
        ∃ given, b.Gives i'.columns given ∧ i'.rows = i.rows ++ given) ∧
      (i.columns ≠ [] → ∀ pairs : List (String × Operand), (pairs.map Prod.fst).Nodup →
        ((∃ i', i.addNamedRow pairs = .ok i') ↔
          (pairs.map Prod.fst).Perm (i.columns.map Identifier.text) ∧ i.source? = none) ∧
        ∀ i', i.addNamedRow pairs = .ok i' →
          (∀ pairs' : List (String × Operand), pairs'.Perm pairs →
            i.addNamedRow pairs' = .ok i') ∧
          ∃ row, i' = { i.uncached with rows := i.rows ++ [row] } ∧ row.length = r ∧
            ∀ (k : Nat) (c : Identifier) (v : Operand), i.columns[k]? = some c →
              row[k]? = some v → (c.text, v) ∈ pairs) ∧
      (i.source? = none → ∀ d : Dialect,
        (d.Shipped ∨ i.cache.wholeText? d = none → ∀ sql,
          answer (Node.compile d .insert i) = .ok sql →
          ∃ last, Node.collector? .insert (left (Node.compile d .insert i)) = some last ∧
            ∃ table cells, i.Lists d r (.empty d.style) table cells sql last) ∧
        (d.Shipped ∨ i.cache.partText? d = none → ∀ first sql,
          answer (Node.compileInto d .insert i first) = .ok sql →
          ∃ table cells, i.Lists d r first table cells sql
            (left (Node.compileInto d .insert i first)).2)) := by
  have hinvariant : Invariant .free (Node.OnInserts fun i => ∃ r, i.HasWidth r) :=
    invariant_onInserts
      ⟨1, Insert.hasWidth_empty⟩ (fun _ => exists_congr fun _ => Insert.hasWidth_fresh)
      (fun ⟨_, hr⟩ hbuild => Builder.hasWidth_build hr hbuild)
      (fun ⟨r, hr⟩ _ => ⟨r, hr.pos, hr.rows, hr.columns⟩)
  obtain ⟨r, hr⟩ : ∃ r, i.HasWidth r := hinvariant.holds h.free
  refine ⟨?_, r, hr, fun _ _ => Builder.gives_build, fun hcolumns pairs hpairs => ⟨?_, ?_⟩,
    fun hsource d => ⟨fun hd sql hsql => ?_, fun hd first sql hsql => ?_⟩⟩
  · cases hsource : i.source? with
    | none => exact .inl rfl
    | some s => exact .inr (h.sourceApart (by rw [hsource]; rfl))
  · constructor
    · rintro ⟨i', hi'⟩
      obtain ⟨hsource, -, row, hplaces, -⟩ := (Insert.addNamedRow_eq_ok_iff hcolumns).1 hi'
      exact ⟨hplaces.names, hsource⟩
    · rintro ⟨hnames, hsource⟩
      obtain ⟨row, hplaces⟩ := Insert.exists_places hnames
      have hnodup : i.columns.Nodup := (hnames.nodup_iff.1 hpairs).of_map _
      exact ⟨_, (Insert.addNamedRow_eq_ok_iff hcolumns).2 ⟨hsource, hnodup, row, hplaces, rfl⟩⟩
  · intro i' hi'
    obtain ⟨hsource, hnodup, row, hplaces, heq⟩ := (Insert.addNamedRow_eq_ok_iff hcolumns).1 hi'
    refine ⟨fun pairs' hperm => ?_, row, heq, hplaces.1.trans (hr.columns hcolumns),
      fun k c v hc hv => hplaces.mem hc hv⟩
    exact (Insert.addNamedRow_eq_ok_iff hcolumns).2
      ⟨hsource, hnodup, row, (Insert.places_congr hperm).2 hplaces, heq⟩
  · obtain ⟨last, hlast, hwrites⟩ := Insert.writesRows_of_compile h.coherent hsource hd hsql
    exact ⟨last, hlast, hwrites.lists hr⟩
  · exact (Insert.writesRows_of_compileInto h.coherent hsource hd hsql).lists hr

/-- Two rows by name in different orders, and a third one that may come in
either.  The rows are listed by `VALUES`, where all markers look alike, and by
`INSERT ALL`. -/
theorem rectangular_of_two_rows :
    let calls : List (Builder .insert) :=
      [.insertInto "t", .namedRow [("a", .value (.int 1)), ("b", .value (.int 2))],
        .namedRow [("b", .value (.int 3)), ("a", .value (.int 4))]]
    let third : List (String × Operand) := [("b", .value (.int 5)), ("a", .value (.int 6))]
    let values := "INSERT INTO \x60t\x60 (\x60a\x60, \x60b\x60) VALUES (?, ?), (?, ?)"
    let all := "INSERT ALL INTO \"t\" (\"a\", \"b\") VALUES (:a1, :b1) " ++
      "INTO \"t\" (\"a\", \"b\") VALUES (:a2, :b2) SELECT 1 FROM DUAL"
    ∃ i : Insert, Insert.run calls Insert.empty = .ok i ∧ Reachable .insert i ∧ i.HasWidth 2 ∧
      (∃ i', i.addNamedRow third = .ok i' ∧ i.addNamedRow third.reverse = .ok i') ∧
      answer (Node.compile Dialect.mysql .insert i) = .ok values ∧
      (∃ table cells last, i.Lists Dialect.mysql 2 (.empty .positional) table cells values last ∧
        last.values = [.int 1, .int 2, .int 4, .int 3]) ∧
      answer (Node.compile Dialect.oracle .insert i) = .ok all ∧
      ∃ table cells last, i.Lists Dialect.oracle 2 (.empty .named) table cells all last ∧
        last.values = [.int 1, .int 2, .int 4, .int 3] := by
  intro calls third values all
  obtain ⟨i, hrun⟩ : ∃ i, Insert.run calls Insert.empty = .ok i := ⟨_, rfl⟩
  have hmysql : answer (Node.compile Dialect.mysql .insert i) = .ok values ∧
      (Node.collector? .insert (left (Node.compile Dialect.mysql .insert i))).map
        Collector.values = some [.int 1, .int 2, .int 4, .int 3] := by
    cases hrun
    exact ⟨eq_ok_of_toOption (by decide +kernel), by decide +kernel⟩
  have horacle : answer (Node.compile Dialect.oracle .insert i) = .ok all ∧
      (Node.collector? .insert (left (Node.compile Dialect.oracle .insert i))).map
        Collector.values = some [.int 1, .int 2, .int 4, .int 3] := by
    cases hrun
    exact ⟨eq_ok_of_toOption (by decide +kernel), by decide +kernel⟩
  obtain ⟨hsource, hcolumns, hwidth⟩ : i.source? = none ∧
      i.columns.map Identifier.text = ["a", "b"] ∧ ∃ row ∈ i.rows, row.length = 2 := by
    cases hrun
    exact ⟨rfl, rfl, _, List.mem_cons_self, rfl⟩
  have hreachable := Insert.reachable_run (by simp [calls, Builder.uses, Operand.uses])
    (.made .insert (fun _ h => nomatch h) rfl) hrun
  obtain ⟨-, r, hr, -, hnamed, hlists⟩ := hreachable.rectangular
  obtain rfl : 2 = r := by
    obtain ⟨row, hrow, hlength⟩ := hwidth
    exact hlength.symm.trans (hr.rows row hrow)
  have hsome : i.columns ≠ [] := fun hnone => by simp [hnone] at hcolumns
  obtain ⟨htaken, hsame⟩ := hnamed hsome third (by decide)
  obtain ⟨i', hi'⟩ := htaken.2 ⟨hcolumns ▸ List.Perm.swap .., hsource⟩
  have hlisted {d : Dialect} (hd : d.Shipped) {sql : String}
      (h : answer (Node.compile d .insert i) = .ok sql ∧
        (Node.collector? .insert (left (Node.compile d .insert i))).map Collector.values =
          some [.int 1, .int 2, .int 4, .int 3]) :
      ∃ table cells last, i.Lists d 2 (.empty d.style) table cells sql last ∧
        last.values = [.int 1, .int 2, .int 4, .int 3] := by
    obtain ⟨last, hlast, table, cells, hcells⟩ := (hlists hsource d).1 (.inl hd) sql h.1
    rw [hlast] at h
    exact ⟨table, cells, last, hcells, Option.some.inj h.2⟩
  exact ⟨i, hrun, hreachable, hr, ⟨i', hi', (hsame i' hi').1 _ (List.reverse_perm third)⟩,
    hmysql.1, hlisted .mysql hmysql, horacle.1, hlisted .oracle horacle⟩

end SqlTree
