import SqlTree.Proofs.Draft.Statement
import SqlTree.Proofs.Verbatim.Draft

/-!
# SqlTree.Proofs.Verbatim.Part

The parts of a draft.  If no level of a draft changes its text, the text of
every part stands in the text of the whole as it is (`Part.exists_infix`).
A part that is empty may be left out, since its text is found anywhere.
Each shape of draft has what it is given as parts.
-/

namespace SqlTree

namespace Draft

/-- A draft is a part of another one. -/
inductive Part : Draft → Draft → Prop where
  | refl (p : Draft) : Part p p
  | empty {q p : Draft} (h : q.isEmpty = true) : Part q p
  | left {q p r : Draft} (h : Part q p) : Part q (p ++ r)
  | right {q p r : Draft} (h : Part q r) : Part q (p ++ r)
  | requoted {names : List String} {q p : Draft} (h : Part q p) : Part q (requoted names p)

variable {d : Dialect} {p q r : Draft} {c : Collector}

namespace Part

/-! ## Parts of parts -/

theorem isEmpty (h : Part q p) (hp : p.isEmpty = true) : q.isEmpty = true := by
  induction h with
  | refl => exact hp
  | empty hq => exact hq
  | left _ ih => exact ih (Bool.and_eq_true_iff.1 hp).1
  | right _ ih => exact ih (Bool.and_eq_true_iff.1 hp).2
  | requoted _ ih => exact ih hp

theorem trans (hrq : Part r q) (hqp : Part q p) : Part r p := by
  induction hqp with
  | refl => exact hrq
  | empty hq => exact .empty (hrq.isEmpty hq)
  | left _ ih => exact .left (ih hrq)
  | right _ ih => exact .right (ih hrq)
  | requoted _ ih => exact .requoted (ih hrq)

/-- The text of a part is in the text of the whole, written into the
collector that has the values in front of it. -/
theorem exists_infix (h : Part q p)
    (hkeep : ∀ l ∈ p.levels, ∀ c, d.quotePrefixes l.1 (l.2.text d c) = l.2.text d c)
    (c : Collector) :
    ∃ before, before <+: p.bindings ∧
      (q.text d (c.bindAll before)).toList <:+: (p.text d c).toList := by
  induction h generalizing c with
  | refl => exact ⟨[], List.nil_prefix, List.infix_rfl⟩
  | empty hq =>
    refine ⟨[], List.nil_prefix, ?_⟩
    rw [text_eq_empty_iff.2 hq]
    exact List.nil_infix
  | left _ ih =>
    obtain ⟨before, hbefore, hinfix⟩ := ih (List.forall_mem_append.1 hkeep).1 c
    refine ⟨before, hbefore.trans (List.prefix_append ..), ?_⟩
    rw [text_append, String.toList_append]
    exact hinfix.trans (List.prefix_append ..).isInfix
  | @right _ p _ _ ih =>
    obtain ⟨before, hbefore, hinfix⟩ := ih (List.forall_mem_append.1 hkeep).2 (p.after c)
    refine ⟨p.bindings ++ before, (List.prefix_append_right_inj _).2 hbefore, ?_⟩
    rw [text_append, String.toList_append, Collector.bindAll_append]
    exact hinfix.trans (List.suffix_append ..).isInfix
  | requoted _ ih =>
    obtain ⟨hown, hbelow⟩ := List.forall_mem_cons.1 hkeep
    rw [text_requoted, hown]
    exact ih hbelow c

/-! ## Lists -/

theorem enclosed : Part p (enclosed p) := .right (.left (.refl p))

theorem joined {sep : String} {ps : List Draft} (h : p ∈ ps) : Part p (joined sep ps) := by
  fun_induction Draft.joined sep ps with
  | case1 => cases h
  | case2 q => exact List.mem_singleton.1 h ▸ .refl p
  | case3 q ps _ ih =>
    rcases List.mem_cons.1 h with rfl | h
    · exact .left (.refl p)
    · exact .right (.right (ih h))

/-! ## Predicates -/

section

variable (left : Reference)

theorem comparison (op : Comparison) : Part p (comparison left op p) := .right (.right (.refl p))

theorem between_low (negated : Bool) : Part p (between left negated p q) :=
  .right (.right (.left (.refl p)))

theorem between_high (negated : Bool) : Part q (between left negated p q) :=
  .right (.right (.right (.right (.refl q))))

theorem inParentheses (negated : Bool) : Part p (inParentheses left negated p) :=
  .right (.right .enclosed)

theorem like (negated : Bool) (escape : Option Char) : Part p (like left negated p escape) :=
  .right (.right (.left (.refl p)))

theorem existence (negated : Bool) : Part p (existence negated p) := .right .enclosed

theorem quantified (op : Comparison) (quantifier : Quantifier) :
    Part p (quantified left op quantifier p) :=
  .right (.right .enclosed)

end

/-! ## Groups, clauses and joins -/

theorem following {ts : List (Connective × Draft)} {t : Connective × Draft} (h : t ∈ ts) :
    Part t.2 (following ts) := by
  induction ts with
  | nil => cases h
  | cons t' ts ih =>
    rcases List.mem_cons.1 h with rfl | h
    · exact .right (.left (.refl _))
    · exact .right (.right (ih h))

theorem terms {ts : List (Connective × Draft)} {t : Connective × Draft} (h : t ∈ ts) :
    Part t.2 (terms ts) := by
  cases ts with
  | nil => cases h
  | cons t' ts =>
    rcases List.mem_cons.1 h with rfl | h
    · exact .left (.refl _)
    · exact .right (following h)

/-- A term that is left out of a group is empty. -/
theorem group (nested : Bool) {ts : List (Connective × Draft)} {t : Connective × Draft}
    (h : t ∈ ts) : Part t.2 (group nested ts) := by
  by_cases hempty : t.2.isEmpty = true
  · exact .empty hempty
  · have hlive : Part t.2 (Draft.terms (live ts)) := terms (List.mem_filter.2 ⟨h, by simp [hempty]⟩)
    unfold Draft.group
    split
    · exact hlive.trans .enclosed
    · exact hlive

theorem clause (kind : ClauseKind) : Part p (clause kind p) := by
  unfold Draft.clause
  split
  · next h => exact .empty h
  · exact .right (.refl p)

theorem spaced : Part p (spaced p) := by
  unfold Draft.spaced
  split
  · next h => exact .empty h
  · exact .right (.refl p)

theorem join_target (kind : JoinKind) (alias? : Option Alias) : Part p (join kind p alias? q) :=
  .right (.left (.refl p))

theorem join_on (kind : JoinKind) (alias? : Option Alias) : Part q (join kind p alias? q) :=
  .right (.right (.right .spaced))

/-! ## Selects -/

theorem column (alias? : Option Alias) : Part p (column alias? p) := by
  cases alias? with
  | none => exact .refl p
  | some a => exact .left (.refl p)

theorem subqueryOrigin (pretty : Bool) (outer inner : Nat) (a : Alias) :
    Part p (subqueryOrigin pretty outer inner a p) := by
  refine .right (.left (Part.trans ?_ .enclosed))
  split
  · exact .right (.left (.refl p))
  · exact .refl p

theorem joins {ps : List Draft} (h : p ∈ ps) : Part p (joins ps) := by
  induction ps with
  | nil => cases h
  | cons q ps ih =>
    rcases List.mem_cons.1 h with rfl | h
    · exact .right (.left (.refl p))
    · exact .right (.right (ih h))

section

variable (s : SelectParts)

theorem select_column (h : p ∈ s.columns) : Part p (select s) :=
  .right (.right (.left (.joined h)))

theorem select_origin (h : s.origin = p) : Part p (select s) :=
  h ▸ .right (.right (.right (.right (.left (.refl _)))))

theorem select_join (h : p ∈ s.joins) : Part p (select s) :=
  .right (.right (.right (.right (.right (.left (.joins h))))))

theorem select_filter (h : s.filter = p) : Part p (select s) :=
  h ▸ .right (.right (.right (.right (.right (.right (.left .spaced))))))

theorem select_having (h : s.having = p) : Part p (select s) :=
  h ▸ .right (.right (.right (.right (.right (.right (.right (.right (.left .spaced))))))))

theorem select_combined (h : s.combined = p) : Part p (select s) :=
  h ▸ .right (.right (.right (.right (.right (.right (.right (.right (.right
    (.left (.refl _))))))))))

end

end Part

theorem Part.numbered : Part p (numbered p q) := .right (.left .enclosed)

/-- However a page is cut, the select stays a part. -/
theorem aroundSelect_part (k : Constructs) (page : Page) :
    Yields (Part p) (aroundSelect k p page) := by
  have hwrapped {q r : Draft} {s : String} (hq : Part p q) :
      Part p (code "SELECT * FROM " ++ (Draft.enclosed q ++ (code s ++ r))) :=
    .right (.left (hq.trans .enclosed))
  unfold aroundSelect
  split
  · rcases page with ⟨_ | n, _ | m⟩
    case none.none => exact .ok (.refl p)
    case none.some => exact .bind_any fun _ => .ok (hwrapped .numbered)
    case some.none => exact .bind_any fun _ => .ok (hwrapped (.refl p))
    case some.some => exact .bind_any fun _ => .bind_any fun _ => .ok (hwrapped .numbered)
  · exact .ok (.refl p)

/-! ## Inserts, updates and deletes -/

namespace Part

section

variable (table : Identifier) (columns : List Identifier)

theorem insertRow {row : List Draft} (h : p ∈ row) : Part p (insertRow table columns row) :=
  .right (.right (.right (.trans (.joined h) .enclosed)))

theorem insertAllRows {rows : List (List Draft)} {row : List Draft} (hrow : row ∈ rows)
    (h : p ∈ row) : Part p (insertAllRows table columns rows) := by
  induction rows with
  | nil => cases hrow
  | cons row' rows ih =>
    rcases List.mem_cons.1 hrow with rfl | hrow
    · exact .right (.left (insertRow table columns h))
    · exact .right (.right (ih hrow))

theorem insertAll {rows : List (List Draft)} {row : List Draft} (hrow : row ∈ rows)
    (h : p ∈ row) : Part p (insertAll table columns rows) := by
  unfold Draft.insertAll
  split
  · exact .right (insertRow table columns (List.mem_singleton.1 hrow ▸ h))
  · exact .right (.left (insertAllRows table columns hrow h))

theorem insertValues {rows : List (List Draft)} {row : List Draft} (hrow : row ∈ rows)
    (h : p ∈ row) : Part p (insertValues table columns rows) :=
  .right (.right (.right (.right
    (.trans (.trans (.joined h) .enclosed) (.joined (List.mem_map_of_mem hrow))))))

theorem insertRows {k : Constructs} {rows : List (List Draft)} {row : List Draft}
    (hrow : row ∈ rows) (h : p ∈ row) : Yields (Part p) (insertRows k table columns rows) := by
  intro q hq
  rcases insertRows_cases hq with rfl | rfl
  · exact insertAll table columns hrow h
  · exact insertValues table columns hrow h

theorem insertSelect : Part p (insertSelect table columns p) :=
  .right (.right (.right (.right (.refl p))))

theorem assignment : Part p (assignment table p) := .right (.right (.refl p))

theorem update_assignment {ps : List Draft} (h : p ∈ ps) : Part p (update table ps q) :=
  .right (.right (.right (.left (.joined h))))

theorem update_filter (ps : List Draft) : Part p (update table ps p) :=
  .right (.right (.right (.right (.right (.refl p)))))

theorem delete : Part p (delete table p) := .right (.right (.right (.refl p)))

end

end Part

end Draft

end SqlTree
