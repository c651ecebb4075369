import SqlTree.Proofs.Draft.Tree

/-!
# SqlTree.Proofs.Blank.Draft

Drafts without their values.  `Draft.blank` puts null in the place of every
value and keeps the hint; what is left is all that the text depends on.
Collectors that differ in values only give the same markers
(`Collector.SameMarkers`), so a draft and its blank read the same in them
(`Draft.text_blank`).  Blanking goes through every shape.
-/

namespace SqlTree

/-! ## Collectors -/

namespace Collector

/-- Collectors that give the same markers from now on: they differ in values
and types only. -/
structure SameMarkers (c c' : Collector) : Prop where
  style : c.style = c'.style
  counters : c.counters = c'.counters
  keys : c.entries.map Entry.key = c'.entries.map Entry.key

namespace SameMarkers

variable {c c' c'' : Collector}

theorem refl (c : Collector) : c.SameMarkers c := ⟨rfl, rfl, rfl⟩

theorem symm (h : c.SameMarkers c') :
    c'.SameMarkers c := ⟨h.style.symm, h.counters.symm, h.keys.symm⟩

theorem trans (h : c.SameMarkers c') (h' : c'.SameMarkers c'') : c.SameMarkers c'' :=
  ⟨h.style.trans h'.style, h.counters.trans h'.counters, h.keys.trans h'.keys⟩

theorem size_eq (h : c.SameMarkers c') : c.size = c'.size := by
  simpa [size] using congrArg List.length h.keys

theorem isTaken_eq (h : c.SameMarkers c') (marker : String) :
    c.isTaken marker = c'.isTaken marker := by
  have hany (c : Collector) : c.isTaken marker = (c.entries.map Entry.key).any
    (· == .named marker) := by
    rw [isTaken, List.any_map]
    rfl
  rw [hany, hany, h.keys]

theorem freeNumber_eq (h : c.SameMarkers c') (hint : String) (fuel n : Nat) :
    c.freeNumber hint fuel n = c'.freeNumber hint fuel n := by
  induction fuel generalizing n with
  | zero => rfl
  | succ fuel ih => rw [freeNumber, freeNumber, h.isTaken_eq, ih]

theorem nextNumber_eq (h : c.SameMarkers c') (hint : String) :
    c.nextNumber hint = c'.nextNumber hint := by
  rw [nextNumber, nextNumber, counter, counter, h.counters, h.size_eq, h.freeNumber_eq]

/-- Whatever is recorded, it gets the same marker. -/
theorem record (h : c.SameMarkers c') (v v' : Value) (type type' : BindType) (hint : String) :
    (c.record v type hint).1 = (c'.record v' type' hint).1 ∧
      (c.record v type hint).2.SameMarkers (c'.record v' type' hint).2 := by
  unfold Collector.record
  rw [← h.style]
  cases c.style with
  | positional =>
    refine ⟨rfl, rfl, h.counters, ?_⟩
    rw [List.map_append, List.map_append, h.keys, h.size_eq]
    rfl
  | named =>
    simp only [h.nextNumber_eq]
    refine ⟨trivial, rfl, ?_, ?_⟩
    · rw [h.counters]
    · rw [List.map_append, List.map_append, h.keys]
      rfl

end SameMarkers

end Collector

/-! ## Drafts -/

/-- The binding of null in the place of another value. -/
def Binding.blank (b : Binding) : Binding := ⟨.null, .null, b.hint⟩

namespace Draft

/-- The draft with null for every value. -/
def blank : Draft → Draft
  | value b => value b.blank
  | append p q => append p.blank q.blank
  | requoted names p => requoted names p.blank
  | p => p

variable {d : Dialect} {p q : Draft}

@[simp] theorem blank_code (s : String) : (code s).blank = code s := rfl

@[simp] theorem blank_raw (s : String) : (raw s).blank = raw s := rfl

@[simp] theorem blank_identifier (i : Identifier) : (identifier i).blank = identifier i := rfl

@[simp] theorem blank_label (a : Alias) : (label a).blank = label a := rfl

@[simp] theorem blank_quotedChar (ch : Char) : (quotedChar ch).blank = quotedChar ch := rfl

@[simp] theorem blank_value (b : Binding) : (value b).blank = value b.blank := rfl

@[simp] theorem blank_append : (p ++ q).blank = p.blank ++ q.blank := rfl

@[simp] theorem blank_requoted (names : List String) :
    (requoted names p).blank = requoted names p.blank := rfl

/-- A draft reads like its blank, and binds under the same markers. -/
theorem text_blank {c c' : Collector} (h : c.SameMarkers c') :
    p.text d c = p.blank.text d c' ∧ (p.after c).SameMarkers (p.blank.after c') := by
  induction p generalizing c c' with
  | value b => exact h.record b.value .null b.type .null b.hint
  | append p q ihp ihq =>
    obtain ⟨hptext, hpafter⟩ := ihp h
    obtain ⟨hqtext, hqafter⟩ := ihq hpafter
    change (p ++ q).text d c = (p ++ q).blank.text d c' ∧ _
    simp only [blank_append, text_append, hptext, hqtext, true_and]
    change ((p ++ q).after c).SameMarkers ((p.blank ++ q.blank).after c')
    simpa only [after_append] using hqafter
  | requoted names p ih =>
    obtain ⟨htext, hafter⟩ := ih h
    exact ⟨congrArg (d.quotePrefixes names) htext, hafter⟩
  | _ => exact ⟨rfl, h⟩

/-- Drafts with one blank read alike. -/
theorem written_congr (hblank : p.blank = q.blank) {c c' : Collector} (h : c.SameMarkers c') :
    p.text d c = q.text d c' ∧ (p.after c).SameMarkers (q.after c') := by
  obtain ⟨hptext, hpafter⟩ := text_blank (d := d) (p := p) h
  obtain ⟨hqtext, hqafter⟩ := text_blank (d := d) (p := q) (.refl c')
  rw [hblank] at hptext hpafter
  exact ⟨hptext.trans hqtext.symm, hpafter.trans hqafter.symm⟩

@[simp] theorem isEmpty_blank : p.blank.isEmpty = p.isEmpty := by
  induction p with
  | append p q ihp ihq => rw [blank, isEmpty, isEmpty, ihp, ihq]
  | requoted names p ih => exact ih
  | _ => rfl

/-! ## Shapes -/

@[simp] theorem blank_joined (sep : String) (ps : List Draft) :
    (joined sep ps).blank = joined sep (ps.map blank) := by
  fun_induction joined sep ps with
  | case1 => rfl
  | case2 p => rfl
  | case3 p ps h ih =>
    obtain ⟨q, qs, rfl⟩ := List.exists_cons_of_ne_nil (by simpa using h)
    simp only [blank_append, blank_code, ih, List.map_cons, joined]

@[simp] theorem blank_ofReference (r : Reference) : (ofReference r).blank = ofReference r := by
  cases r <;> rfl

@[simp] theorem blank_enclosed : (enclosed p).blank = enclosed p.blank := rfl

@[simp] theorem blank_spaced : (spaced p).blank = spaced p.blank := by
  unfold spaced
  rw [isEmpty_blank]
  split <;> rfl

@[simp] theorem blank_truth (left : Reference) (negated : Bool) (word : Truth) :
    (truth left negated word).blank = truth left negated word := by
  simp [truth]

@[simp] theorem blank_inList (left : Reference) (negated : Bool) (ps : List Draft) (orNull : Bool) :
    (inList left negated ps orNull).blank = inList left negated (ps.map blank) orNull := by
  cases ps with
  | nil => simp [inList]
  | cons p ps => cases orNull <;> simp [inList, inParentheses]

@[simp] theorem blank_like (left : Reference) (negated : Bool) (escape : Option Char) :
    (like left negated p escape).blank = like left negated p.blank escape := by
  cases escape <;> simp [like]

/-- Terms with null for every value. -/
def blankTerms (ts : List (Connective × Draft)) : List (Connective × Draft) :=
  ts.map fun t => (t.1, t.2.blank)

theorem blank_following (ts : List (Connective × Draft)) :
    (following ts).blank = following (blankTerms ts) := by
  induction ts with
  | nil => rfl
  | cons t ts ih =>
    change (following (t :: ts)).blank = following ((t.1, t.2.blank) :: blankTerms ts)
    simp only [following, blank_append, blank_code, ih]

theorem blank_terms (ts : List (Connective × Draft)) :
    (terms ts).blank = terms (blankTerms ts) := by
  cases ts with
  | nil => rfl
  | cons t ts =>
    change (terms (t :: ts)).blank = terms ((t.1, t.2.blank) :: blankTerms ts)
    simp only [terms, blank_append, blank_following]

theorem live_blankTerms (ts : List (Connective × Draft)) :
    live (blankTerms ts) = blankTerms (live ts) := by
  rw [live, live, blankTerms, blankTerms, List.filter_map]
  refine congrArg (List.map _) (List.filter_congr fun t _ => ?_)
  simp

@[simp] theorem blank_group (nested : Bool) (ts : List (Connective × Draft)) :
    (group nested ts).blank = group nested (blankTerms ts) := by
  have hlength : (blankTerms (live ts)).length = (live ts).length := List.length_map _
  rw [group, group, live_blankTerms, hlength, ← blank_terms]
  split <;> rfl

@[simp] theorem blank_clause (kind : ClauseKind) : (clause kind p).blank = clause kind p.blank := by
  unfold clause
  rw [isEmpty_blank]
  split <;> rfl

@[simp] theorem blank_aliased (alias? : Option Alias) :
    (aliased alias?).blank = aliased alias? := by
  cases alias? <;> rfl

@[simp] theorem blank_star (alias? : Option Alias) : (star alias?).blank = star alias? := by
  cases alias? <;> rfl

@[simp] theorem blank_column (alias? : Option Alias) :
    (column alias? p).blank = column alias? p.blank := by
  cases alias? <;> rfl

theorem map_blank_columnsOr (h : p.blank = p) (ps : List Draft) :
    (columnsOr p ps).map blank = columnsOr p (ps.map blank) := by
  cases ps with
  | nil => exact congrArg (· :: []) h
  | cons q ps => rfl

@[simp] theorem blank_tableOrigin (name : Identifier) (alias? : Option Alias) :
    (tableOrigin name alias?).blank = tableOrigin name alias? := by
  simp [tableOrigin]

@[simp] theorem blank_subqueryOrigin (pretty : Bool) (outer inner : Nat) (a : Alias) :
    (subqueryOrigin pretty outer inner a p).blank =
      subqueryOrigin pretty outer inner a p.blank := by
  cases pretty <;> rfl

@[simp] theorem blank_joins (ps : List Draft) : (joins ps).blank = joins (ps.map blank) := by
  induction ps with
  | nil => rfl
  | cons p ps ih => simp only [joins, List.map_cons, blank_append, blank_code, ih]

theorem blank_termList (keyword : String) (ps : List Draft) :
    (termList keyword ps).blank = termList keyword (ps.map blank) := by
  cases ps with
  | nil => rfl
  | cons p ps => simp [termList]

@[simp] theorem blank_groupBy (terms : List Reference) : (groupBy terms).blank = groupBy terms := by
  rw [groupBy, blank_termList, List.map_map]
  exact congrArg _ (List.map_congr_left fun r _ => blank_ofReference r)

@[simp] theorem blank_orderBy (terms : List (Reference × Direction)) :
    (orderBy terms).blank = orderBy terms := by
  rw [orderBy, blank_termList, List.map_map]
  refine congrArg _ (List.map_congr_left fun t _ => ?_)
  simp [orderTerm]

@[simp] theorem blank_into (into? : Option Identifier) : (into into?).blank = into into? := by
  cases into? <;> rfl

/-- The parts of a select with null for every value. -/
def SelectParts.blank (s : SelectParts) : SelectParts :=
  { s with
    head := s.head.blank
    columns := s.columns.map Draft.blank
    origin := s.origin.blank
    joins := s.joins.map Draft.blank
    filter := s.filter.blank
    having := s.having.blank
    combined := s.combined.blank
    page := s.page.blank }

@[simp] theorem blank_select (s : SelectParts) : (select s).blank = select s.blank := by
  simp only [select, SelectParts.blank, blank_append, blank_code, blank_joined, blank_into,
    blank_joins, blank_spaced, blank_groupBy, blank_orderBy]

@[simp] theorem blank_parenthesised (ps : List Draft) :
    (parenthesised ps).blank = parenthesised (ps.map blank) := by
  simp [parenthesised]

@[simp] theorem blank_columnList (columns : List Identifier) :
    (columnList columns).blank = columnList columns := by
  have hmap : (columns.map identifier).map blank = columns.map identifier := by
    rw [List.map_map]
    exact List.map_congr_left fun i _ => rfl
  unfold columnList
  split
  · rfl
  · rw [blank_append, blank_code, blank_parenthesised, hmap]

@[simp] theorem blank_insertRow (table : Identifier) (columns : List Identifier)
    (row : List Draft) :
    (insertRow table columns row).blank = insertRow table columns (row.map blank) := by
  simp [insertRow]

/-- Rows with null for every value. -/
def blankRows (rows : List (List Draft)) : List (List Draft) := rows.map fun row => row.map blank

theorem blank_insertAllRows (table : Identifier) (columns : List Identifier)
    (rows : List (List Draft)) :
    (insertAllRows table columns rows).blank = insertAllRows table columns (blankRows rows) := by
  induction rows with
  | nil => rfl
  | cons row rows ih =>
    change (insertAllRows table columns (row :: rows)).blank =
      insertAllRows table columns (row.map blank :: blankRows rows)
    simp only [insertAllRows, blank_append, blank_code, blank_insertRow, ih]

theorem blank_insertAll (table : Identifier) (columns : List Identifier)
    (rows : List (List Draft)) :
    (insertAll table columns rows).blank = insertAll table columns (blankRows rows) := by
  match rows with
  | [] => rfl
  | [row] => exact congrArg (code "INSERT INTO " ++ ·) (blank_insertRow table columns row)
  | row :: row' :: rows =>
    have h := blank_insertAllRows table columns (row :: row' :: rows)
    exact congrArg (fun p => code "INSERT ALL" ++ (p ++ code " SELECT 1 FROM DUAL")) h

theorem blank_insertValues (table : Identifier) (columns : List Identifier)
    (rows : List (List Draft)) :
    (insertValues table columns rows).blank = insertValues table columns (blankRows rows) := by
  have hmap : (rows.map parenthesised).map blank = (blankRows rows).map parenthesised := by
    rw [blankRows, List.map_map, List.map_map]
    exact List.map_congr_left fun row _ => blank_parenthesised row
  simp only [insertValues, blank_append, blank_code, blank_identifier, blank_columnList,
    blank_joined, hmap]

/-- Whether rows can be inserted does not depend on their values. -/
theorem insertRows_blankRows {k : Constructs} {table : Identifier} {columns : List Identifier}
    {rows : List (List Draft)} (h : insertRows k table columns rows = .ok p) :
    insertRows k table columns (blankRows rows) = .ok p.blank := by
  have hlength : (blankRows rows).length = rows.length := List.length_map _
  unfold insertRows at h ⊢
  rw [hlength]
  split at h
  · next hall =>
    cases h
    rw [if_pos hall, blank_insertAll]
  · next hall =>
    rw [if_neg hall]
    split at h
    · cases h
    · next hone =>
      cases h
      rw [if_neg hone, blank_insertValues]

end Draft

end SqlTree
