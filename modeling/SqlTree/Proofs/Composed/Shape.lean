import SqlTree.Proofs.Composed.Basic

/-!
# SqlTree.Proofs.Composed.Shape

The shapes of texts are composed where their parts are.  Wherever a part
may end with a marker, what the shape puts behind it starts with a blank, a
comma or a parenthesis.
-/

namespace SqlTree

/-- An indentation has blanks only. -/
theorem all_indent {f : Char → Bool} (h : f ' ' = true) (levels : Nat) :
    (indent levels).toList.all f = true := by
  rw [indent, String.toList_ofList, List.all_eq_true]
  intro c hc
  rw [(List.mem_replicate.1 hc).2, h]

namespace Draft

variable {P : String → Prop} {p q : Draft}

namespace Composed

/-! ## Lists -/

theorem joined {sep : String} (hsep : isCode sep = true) (hstart : startsWord sep = false)
    (hne : sep ≠ "") {ps : List Draft} (h : ∀ p ∈ ps, Composed P p) :
    Composed P (joined sep ps) := by
  fun_induction Draft.joined sep ps with
  | case1 => exact .code rfl
  | case2 p => exact h p List.mem_cons_self
  | case3 p ps _ ih =>
    obtain ⟨hp, hps⟩ := List.forall_mem_cons.1 h
    exact .around_code hsep hstart hne hp (ih hps)

theorem commas {ps : List Draft} (h : ∀ p ∈ ps, Composed P p) : Composed P (Draft.joined ", " ps) :=
  joined (by decide) (by decide) (by decide) h

/-! ## Predicates -/

section

variable {left : Reference}

/-- Anything behind a reference, which is no marker. -/
theorem after_reference (hleft : Composed P (ofReference left)) (hp : Composed P p) :
    Composed P (ofReference left ++ p) :=
  .append hleft hp (.inl (dangles_ofReference left))

theorem comparison (hleft : Composed P (ofReference left)) (op : Comparison) (hp : Composed P p) :
    Composed P (comparison left op p) :=
  .after_reference hleft (.after_code (by cases op <;> decide) hp)

theorem between (hleft : Composed P (ofReference left)) (negated : Bool) (hp : Composed P p)
    (hq : Composed P q) : Composed P (between left negated p q) :=
  .after_reference hleft <| .after_code (by cases negated <;> decide) <|
    .around_code (by decide) (by decide) (by decide) hp hq

theorem inParentheses (hleft : Composed P (ofReference left)) (negated : Bool) (hp : Composed P p) :
    Composed P (inParentheses left negated p) :=
  .after_reference hleft (.after_code (by cases negated <;> decide) (.enclosed hp))

theorem truth (hleft : Composed P (ofReference left)) (negated : Bool) (word : Truth) :
    Composed P (truth left negated word) :=
  .after_reference hleft (.code (by cases negated <;> cases word <;> decide))

theorem inList (hleft : Composed P (ofReference left)) (negated : Bool) {ps : List Draft}
    (h : ∀ p ∈ ps, Composed P p) (orNull : Bool) : Composed P (inList left negated ps orNull) := by
  have hlist := inParentheses hleft negated (commas h)
  unfold Draft.inList
  split
  · exact truth hleft negated .null
  · split
    · exact .enclosed <| .around_code (by cases negated <;> decide) (by cases negated <;> decide)
        (by cases negated <;> decide) hlist (truth hleft negated .null)
    · exact hlist

theorem like (hleft : Composed P (ofReference left)) (negated : Bool) (hp : Composed P p)
    (escape : Option Char) : Composed P (like left negated p escape) := by
  refine .after_reference hleft (.after_code (by cases negated <;> decide) ?_)
  cases escape with
  | none => exact .before_code rfl rfl hp
  | some ch => exact .around_code (by decide) (by decide) (by decide) hp (.quotedChar ch)

theorem existence (negated : Bool) (hp : Composed P p) : Composed P (existence negated p) :=
  .after_code (by cases negated <;> decide) (.enclosed hp)

theorem quantified (hleft : Composed P (ofReference left)) (op : Comparison)
    (quantifier : Quantifier) (hp : Composed P p) : Composed P (quantified left op quantifier p) :=
  .after_reference hleft (.after_code (by cases op <;> cases quantifier <;> decide) (.enclosed hp))

end

/-! ## Groups and clauses -/

theorem following {ts : List (Connective × Draft)} (h : ∀ t ∈ ts, Composed P t.2) :
    Composed P (following ts) ∧ (Draft.following ts).opens = false := by
  induction ts with
  | nil => exact ⟨.code rfl, rfl⟩
  | cons t ts ih =>
    obtain ⟨op, p⟩ := t
    obtain ⟨hp, hts⟩ := List.forall_mem_cons.1 h
    obtain ⟨hrest, hopens⟩ := ih hts
    refine ⟨.after_code (by cases op <;> decide) (.append hp hrest (.inr hopens)), ?_⟩
    simp only [Draft.following, opens_append, opens_code, isEmpty_code]
    cases op <;> rfl

theorem terms {ts : List (Connective × Draft)} (h : ∀ t ∈ ts, Composed P t.2) :
    Composed P (terms ts) := by
  cases ts with
  | nil => exact .code rfl
  | cons t ts =>
    obtain ⟨hp, hts⟩ := List.forall_mem_cons.1 h
    obtain ⟨hrest, hopens⟩ := following hts
    exact .append hp hrest (.inr hopens)

theorem group (nested : Bool) {ts : List (Connective × Draft)} (h : ∀ t ∈ ts, Composed P t.2) :
    Composed P (group nested ts) := by
  have hlive := terms fun t (ht : t ∈ live ts) => h t (List.mem_filter.1 ht).1
  unfold Draft.group
  split
  · exact .enclosed hlive
  · exact hlive

theorem clause (kind : ClauseKind) (hp : Composed P p) : Composed P (clause kind p) := by
  unfold Draft.clause
  split
  · exact .code rfl
  · exact .after_code (by cases kind <;> decide) hp

/-! ## Parts of selects -/

theorem aliased (alias? : Option Alias) : Composed P (aliased alias?) := by
  cases alias? with
  | none => exact .code rfl
  | some a => exact .after_code (by decide) (.label a)

theorem spaced (hp : Composed P p) : Composed P (spaced p) := by
  unfold Draft.spaced
  split
  · exact .code rfl
  · exact .after_code (by decide) hp

end Composed

@[simp] theorem opens_aliased (alias? : Option Alias) : (aliased alias?).opens = false := by
  cases alias? <;> rfl

@[simp] theorem opens_spaced (p : Draft) : (spaced p).opens = false := by
  unfold spaced
  split <;> rfl

@[simp] theorem opens_joins (ps : List Draft) : (joins ps).opens = false := by
  cases ps <;> rfl

@[simp] theorem opens_into (into? : Option Identifier) : (into into?).opens = false := by
  cases into? <;> rfl

@[simp] theorem opens_groupBy (terms : List Reference) : (groupBy terms).opens = false := by
  cases terms <;> rfl

@[simp] theorem opens_orderBy (terms : List (Reference × Direction)) :
    (orderBy terms).opens = false := by
  cases terms <;> rfl

namespace Composed

theorem join (kind : JoinKind) (hp : Composed P p) (alias? : Option Alias) (hq : Composed P q) :
    Composed P (join kind p alias? q) :=
  .after_code (by cases kind <;> decide) <|
    .append hp (.append (.aliased alias?) (.spaced hq) (.inr (opens_spaced q))) (.inr (by simp))

theorem star (alias? : Option Alias) : Composed P (star alias?) := by
  cases alias? with
  | none => exact .code (by decide)
  | some a => exact .append (.label a) (.code (by decide)) (.inl rfl)

theorem referenceColumn (hp : Composed P p) {r : Reference} (hr : Composed P (ofReference r)) :
    Composed P (referenceColumn p r) := by
  rcases referenceColumn_cases p r with h | h
  · exact h.symm ▸ hp
  · exact h.symm ▸ hr

theorem column (alias? : Option Alias) (hp : Composed P p) : Composed P (column alias? p) := by
  cases alias? with
  | none => exact hp
  | some a => exact .around_code (by decide) (by decide) (by decide) hp (.label a)

theorem columnsOr (hp : Composed P p) {ps : List Draft} (h : ∀ q ∈ ps, Composed P q) :
    ∀ q ∈ columnsOr p ps, Composed P q :=
  fun q hq => (of_mem_columnsOr hq).elim (fun heq => heq ▸ hp) (h q)

theorem tableOrigin (name : Identifier) (alias? : Option Alias) :
    Composed P (tableOrigin name alias?) :=
  .after_code (by decide) (.append (.identifier name) (.aliased alias?) (.inl rfl))

theorem isCode_indent (levels : Nat) : isCode ("\n" ++ indent levels) = true := by
  have hblanks : isCode (indent levels) = true := all_indent (by decide) levels
  rw [isCode_append, hblanks]
  decide

theorem startsWord_indent (levels : Nat) : startsWord ("\n" ++ indent levels) = false := by
  rw [startsWord, String.toList_append]
  rfl

theorem subqueryOrigin (pretty : Bool) (outer inner : Nat) (a : Alias) (hp : Composed P p) :
    Composed P (subqueryOrigin pretty outer inner a p) := by
  refine .after_code (by decide) (.append (.enclosed ?_) (.after_code (by decide) (.label a))
    (.inl dangles_enclosed))
  split
  · exact .after_code (isCode_indent inner)
      (.before_code (isCode_indent outer) (startsWord_indent outer) hp)
  · exact hp

theorem joins {ps : List Draft} (h : ∀ p ∈ ps, Composed P p) : Composed P (joins ps) := by
  induction ps with
  | nil => exact .code rfl
  | cons p ps ih =>
    obtain ⟨hp, hps⟩ := List.forall_mem_cons.1 h
    exact .after_code (by decide) (.append hp (ih hps) (.inr (opens_joins ps)))

theorem termList {keyword : String} (hkeyword : isCode keyword = true) {ps : List Draft}
    (h : ∀ p ∈ ps, Composed P p) : Composed P (termList keyword ps) := by
  unfold Draft.termList
  split
  · exact .code rfl
  · exact .after_code hkeyword (commas h)

theorem groupBy {terms : List Reference} (h : ∀ r ∈ terms, Composed P (ofReference r)) :
    Composed P (groupBy terms) :=
  .termList (by decide) (List.forall_mem_map.2 h)

theorem orderBy {terms : List (Reference × Direction)}
    (h : ∀ t ∈ terms, Composed P (ofReference t.1)) : Composed P (orderBy terms) := by
  refine .termList (by decide) (List.forall_mem_map.2 fun t ht => ?_)
  exact .after_reference (h t ht) (.code (by cases t.2 <;> decide))

theorem into (into? : Option Identifier) : Composed P (into into?) := by
  cases into? with
  | none => exact .code rfl
  | some name => exact .after_code (by decide) (.identifier name)

/-- The parts of a select are composed. -/
structure Parts (P : String → Prop) (s : SelectParts) : Prop where
  head : Composed P s.head
  head_dangles : s.head.dangles = false
  columns : ∀ p ∈ s.columns, Composed P p
  origin : Composed P s.origin
  origin_opens : s.origin.opens = false
  joins : ∀ p ∈ s.joins, Composed P p
  filter : Composed P s.filter
  groupBy : ∀ r ∈ s.groupBy, Composed P (ofReference r)
  having : Composed P s.having
  combined : Composed P s.combined
  combined_opens : s.combined.opens = false
  orderBy : ∀ t ∈ s.orderBy, Composed P (ofReference t.1)
  page : Composed P s.page

theorem select {s : SelectParts} (h : Parts P s) : Composed P (select s) := by
  have hpage := Composed.append (.orderBy h.orderBy) (.spaced h.page) (.inr (opens_spaced _))
  have hcombined := Composed.append h.combined hpage (.inr (by simp))
  have hhaving := Composed.append (.spaced h.having) hcombined (.inr (by simp [h.combined_opens]))
  have hgroupBy := Composed.append (.groupBy h.groupBy) hhaving (.inr (by simp [h.combined_opens]))
  have hfilter := Composed.append (.spaced h.filter) hgroupBy (.inr (by simp [h.combined_opens]))
  have hjoins := Composed.append (.joins h.joins) hfilter (.inr (by simp [h.combined_opens]))
  have horigin := Composed.append h.origin hjoins (.inr (by simp [h.combined_opens]))
  have hinto := Composed.append (.into s.into?) horigin
    (.inr (by simp [h.combined_opens, h.origin_opens]))
  have hcolumns := Composed.append (.commas h.columns) hinto
    (.inr (by simp [h.combined_opens, h.origin_opens]))
  exact .after_code (by decide) (.append h.head hcolumns (.inl h.head_dangles))

/-! ## Inserts, updates and deletes -/

theorem parenthesised {ps : List Draft} (h : ∀ p ∈ ps, Composed P p) :
    Composed P (parenthesised ps) :=
  .enclosed (commas h)

theorem columnList (columns : List Identifier) : Composed P (columnList columns) := by
  unfold Draft.columnList
  split
  · exact .code rfl
  · exact .after_code (by decide) (.parenthesised (List.forall_mem_map.2 fun i _ => .identifier i))

/-- A table with its columns in front of code and more. -/
theorem table_columns (table : Identifier) (columns : List Identifier) {s : String}
    (hs : isCode s = true) (hp : Composed P p) :
    Composed P (.identifier table ++ (Draft.columnList columns ++ (.code s ++ p))) := by
  refine .append (.identifier table)
    (.append (.columnList columns) (.after_code hs hp) (.inl ?_)) (.inl rfl)
  cases columns with
  | nil => rfl
  | cons i columns =>
    change (Draft.code " " ++ Draft.enclosed _).dangles = false
    simp

theorem insertRow (table : Identifier) (columns : List Identifier) {row : List Draft}
    (h : ∀ p ∈ row, Composed P p) : Composed P (insertRow table columns row) :=
  .table_columns table columns (by decide) (.parenthesised h)

theorem insertAllRows (table : Identifier) (columns : List Identifier) {rows : List (List Draft)}
    (h : ∀ row ∈ rows, ∀ p ∈ row, Composed P p) :
    Composed P (insertAllRows table columns rows) := by
  induction rows with
  | nil => exact .code rfl
  | cons row rows ih =>
    obtain ⟨hrow, hrows⟩ := List.forall_mem_cons.1 h
    refine .after_code (by decide) (.append (.insertRow table columns hrow) (ih hrows) (.inr ?_))
    cases rows <;> rfl

theorem insertAll (table : Identifier) (columns : List Identifier) {rows : List (List Draft)}
    (h : ∀ row ∈ rows, ∀ p ∈ row, Composed P p) : Composed P (insertAll table columns rows) := by
  unfold Draft.insertAll
  split
  · next row => exact .after_code (by decide) (.insertRow table columns (h row List.mem_cons_self))
  · exact .after_code (by decide)
      (.before_code (by decide) (by decide) (.insertAllRows table columns h))

theorem insertValues (table : Identifier) (columns : List Identifier) {rows : List (List Draft)}
    (h : ∀ row ∈ rows, ∀ p ∈ row, Composed P p) : Composed P (insertValues table columns rows) :=
  .after_code (by decide) <| .table_columns table columns (by decide) <|
    commas (List.forall_mem_map.2 fun row hrow => .parenthesised (h row hrow))

theorem insertRows {k : Constructs} {table : Identifier} {columns : List Identifier}
    {rows : List (List Draft)} (h : ∀ row ∈ rows, ∀ p ∈ row, Composed P p)
    (hp : insertRows k table columns rows = .ok p) : Composed P p := by
  rcases insertRows_cases hp with rfl | rfl
  · exact .insertAll table columns h
  · exact .insertValues table columns h

theorem insertSelect (table : Identifier) (columns : List Identifier) (hp : Composed P p) :
    Composed P (insertSelect table columns p) :=
  .after_code (by decide) (.table_columns table columns (by decide) hp)

theorem assignment (column : Identifier) (hp : Composed P p) : Composed P (assignment column p) :=
  .append (.identifier column) (.after_code (by decide) hp) (.inl rfl)

theorem update (table : Identifier) {ps : List Draft} (h : ∀ p ∈ ps, Composed P p)
    (hp : Composed P p) : Composed P (update table ps p) := by
  refine .after_code (by decide)
    (.append (.identifier table) (.after_code (by decide) ?_) (.inl rfl))
  exact .around_code (by decide) (by decide) (by decide) (commas h) hp

theorem delete (table : Identifier) (hp : Composed P p) : Composed P (delete table p) :=
  .after_code (by decide) (.append (.identifier table) (.after_code (by decide) hp) (.inl rfl))

end Composed

end Draft

end SqlTree
