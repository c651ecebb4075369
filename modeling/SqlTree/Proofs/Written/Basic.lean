import SqlTree.Proofs.Composed.Tree

/-!
# SqlTree.Proofs.Written.Basic

Where the dots of a text come from.  The code around names and values has
none, so outside of names and raw SQL there are two places for one: the star
of a select that is qualified by an alias, and the star of the select that
numbers rows, which is qualified by the name that it gives to the rows.
`Draft.Written R P` are the drafts of which this is true, with raw SQL that
satisfies `P`, and with rows numbered only if `R`.
-/

namespace SqlTree

/-- The text has no dot. -/
def isUndotted (s : String) : Bool := s.toList.all fun c => c != '.'

theorem isUndotted_append (s t : String) :
    isUndotted (s ++ t) = (isUndotted s && isUndotted t) := by
  rw [isUndotted, String.toList_append, List.all_append]
  rfl

theorem isUndotted_indent (levels : Nat) : isUndotted ("\n" ++ indent levels) = true := by
  have hblanks : isUndotted (indent levels) = true := all_indent (by decide) levels
  rw [isUndotted_append, hblanks]
  decide

theorem dot_not_mem_of_isUndotted {s : String} (h : isUndotted s = true) : '.' ∉ s.toList := by
  intro hdot
  exact absurd (List.all_eq_true.1 h '.' hdot) (by decide)

/-- The raw SQL satisfies `P`, a template in each of its parts. -/
def RawSql.Meets (P : String → Prop) : RawSql → Prop
  | .literal l => P l.text
  | .template text => ∀ part ∈ pieces text, P (String.ofList part.source)

namespace Draft

/-- Drafts that are written without dots of their own, apart from those
behind the alias of a star and, if `R`, behind the name of numbered rows.
Their raw SQL satisfies `P`. -/
inductive Written (R : Prop) (P : String → Prop) : Draft → Prop where
  | code {s : String} (h : isUndotted s = true) : Written R P (code s)
  | raw {s : String} (h : P s) : Written R P (raw s)
  | identifier (i : Identifier) : Written R P (identifier i)
  | label (a : Alias) : Written R P (label a)
  | quotedChar (ch : Char) : Written R P (quotedChar ch)
  | value (b : Binding) : Written R P (value b)
  | append {p q : Draft} (hp : Written R P p) (hq : Written R P q) : Written R P (p ++ q)
  | qualifiedStar (a : Alias) : Written R P (label a ++ code ".*")
  | numbered {p rest : Draft} (hR : R) (hp : Written R P p) (hrest : Written R P rest) :
      Written R P (numbered p rest)
  | requoted {names : List String} {p : Draft} (hnames : ∀ name ∈ names, isName name = true)
      (h : Written R P p) : Written R P (requoted names p)

variable {R : Prop} {P : String → Prop} {p q : Draft}

namespace Written

/-- Code in front of anything. -/
theorem after_code {s : String} (hs : isUndotted s = true) (hp : Written R P p) :
    Written R P (.code s ++ p) :=
  .append (.code hs) hp

/-- Code behind anything. -/
theorem before_code {s : String} (hs : isUndotted s = true) (hp : Written R P p) :
    Written R P (p ++ .code s) :=
  .append hp (.code hs)

/-- Code between two drafts. -/
theorem around_code {s : String} (hs : isUndotted s = true) (hp : Written R P p)
    (hq : Written R P q) : Written R P (p ++ (.code s ++ q)) :=
  .append hp (.after_code hs hq)

theorem enclosed (hp : Written R P p) : Written R P (enclosed p) :=
  .after_code (by decide) (.before_code (by decide) hp)

/-! ## Lists -/

theorem joined {sep : String} (hsep : isUndotted sep = true) {ps : List Draft}
    (h : ∀ p ∈ ps, Written R P p) : Written R P (joined sep ps) := by
  fun_induction Draft.joined sep ps with
  | case1 => exact .code rfl
  | case2 p => exact h p List.mem_cons_self
  | case3 p ps _ ih =>
    obtain ⟨hp, hps⟩ := List.forall_mem_cons.1 h
    exact .around_code hsep hp (ih hps)

theorem commas {ps : List Draft} (h : ∀ p ∈ ps, Written R P p) :
    Written R P (Draft.joined ", " ps) :=
  joined (by decide) h

/-! ## Predicates -/

section

variable {left : Reference}

theorem comparison (hleft : Written R P (ofReference left)) (op : Comparison)
    (hp : Written R P p) : Written R P (comparison left op p) :=
  .around_code (by cases op <;> decide) hleft hp

theorem between (hleft : Written R P (ofReference left)) (negated : Bool) (hp : Written R P p)
    (hq : Written R P q) : Written R P (between left negated p q) :=
  .around_code (by cases negated <;> decide) hleft (.around_code (by decide) hp hq)

theorem inParentheses (hleft : Written R P (ofReference left)) (negated : Bool)
    (hp : Written R P p) : Written R P (inParentheses left negated p) :=
  .around_code (by cases negated <;> decide) hleft hp.enclosed

theorem truth (hleft : Written R P (ofReference left)) (negated : Bool) (word : Truth) :
    Written R P (truth left negated word) :=
  .before_code (by cases negated <;> cases word <;> decide) hleft

theorem inList (hleft : Written R P (ofReference left)) (negated : Bool) {ps : List Draft}
    (h : ∀ p ∈ ps, Written R P p) (orNull : Bool) :
    Written R P (inList left negated ps orNull) := by
  have hnull := truth hleft negated .null
  have hlist := inParentheses hleft negated (commas h)
  unfold Draft.inList
  split
  · exact hnull
  · split
    · exact .enclosed (.around_code (by cases negated <;> decide) hlist hnull)
    · exact hlist

theorem like (hleft : Written R P (ofReference left)) (negated : Bool) (hp : Written R P p)
    (escape : Option Char) : Written R P (like left negated p escape) := by
  refine .around_code (by cases negated <;> decide) hleft ?_
  cases escape with
  | none => exact .before_code rfl hp
  | some ch => exact .around_code (by decide) hp (.quotedChar ch)

theorem existence (negated : Bool) (hp : Written R P p) : Written R P (existence negated p) :=
  .after_code (by cases negated <;> decide) hp.enclosed

theorem quantified (hleft : Written R P (ofReference left)) (op : Comparison)
    (quantifier : Quantifier) (hp : Written R P p) :
    Written R P (quantified left op quantifier p) :=
  .around_code (by cases op <;> cases quantifier <;> decide) hleft hp.enclosed

end

/-! ## Groups, clauses and joins -/

theorem following {ts : List (Connective × Draft)} (h : ∀ t ∈ ts, Written R P t.2) :
    Written R P (following ts) := by
  induction ts with
  | nil => exact .code rfl
  | cons t ts ih =>
    obtain ⟨op, p⟩ := t
    obtain ⟨hp, hts⟩ := List.forall_mem_cons.1 h
    exact .after_code (by cases op <;> decide) (.append hp (ih hts))

theorem terms {ts : List (Connective × Draft)} (h : ∀ t ∈ ts, Written R P t.2) :
    Written R P (terms ts) := by
  cases ts with
  | nil => exact .code rfl
  | cons t ts =>
    obtain ⟨hp, hts⟩ := List.forall_mem_cons.1 h
    exact .append hp (following hts)

theorem group (nested : Bool) {ts : List (Connective × Draft)} (h : ∀ t ∈ ts, Written R P t.2) :
    Written R P (group nested ts) := by
  have hlive := terms fun t (ht : t ∈ live ts) => h t (List.mem_filter.1 ht).1
  unfold Draft.group
  split
  · exact hlive.enclosed
  · exact hlive

theorem clause (kind : ClauseKind) (hp : Written R P p) : Written R P (clause kind p) := by
  unfold Draft.clause
  split
  · exact .code rfl
  · exact .after_code (by cases kind <;> decide) hp

theorem aliased (alias? : Option Alias) : Written R P (aliased alias?) := by
  cases alias? with
  | none => exact .code rfl
  | some a => exact .after_code (by decide) (.label a)

theorem spaced (hp : Written R P p) : Written R P (spaced p) := by
  unfold Draft.spaced
  split
  · exact .code rfl
  · exact .after_code (by decide) hp

theorem join (kind : JoinKind) (hp : Written R P p) (alias? : Option Alias) (hq : Written R P q) :
    Written R P (join kind p alias? q) :=
  .after_code (by cases kind <;> decide) (.append hp (.append (.aliased alias?) hq.spaced))

/-! ## Selects -/

theorem star (alias? : Option Alias) : Written R P (star alias?) := by
  cases alias? with
  | none => exact .code (by decide)
  | some a => exact .qualifiedStar a

theorem referenceColumn (hp : Written R P p) {r : Reference} (hr : Written R P (ofReference r)) :
    Written R P (referenceColumn p r) := by
  rcases referenceColumn_cases p r with h | h
  · exact h.symm ▸ hp
  · exact h.symm ▸ hr

theorem column (alias? : Option Alias) (hp : Written R P p) : Written R P (column alias? p) := by
  cases alias? with
  | none => exact hp
  | some a => exact .around_code (by decide) hp (.label a)

theorem columnsOr (hp : Written R P p) {ps : List Draft} (h : ∀ q ∈ ps, Written R P q) :
    ∀ q ∈ columnsOr p ps, Written R P q :=
  fun q hq => (of_mem_columnsOr hq).elim (fun heq => heq ▸ hp) (h q)

theorem tableOrigin (name : Identifier) (alias? : Option Alias) :
    Written R P (tableOrigin name alias?) :=
  .after_code (by decide) (.append (.identifier name) (.aliased alias?))

theorem subqueryOrigin (pretty : Bool) (outer inner : Nat) (a : Alias) (hp : Written R P p) :
    Written R P (subqueryOrigin pretty outer inner a p) := by
  refine .after_code (by decide) (.append (.enclosed ?_) (.after_code (by decide) (.label a)))
  split
  · exact .after_code (isUndotted_indent inner) (.before_code (isUndotted_indent outer) hp)
  · exact hp

theorem joins {ps : List Draft} (h : ∀ p ∈ ps, Written R P p) : Written R P (joins ps) := by
  induction ps with
  | nil => exact .code rfl
  | cons p ps ih =>
    obtain ⟨hp, hps⟩ := List.forall_mem_cons.1 h
    exact .after_code (by decide) (.append hp (ih hps))

theorem termList {keyword : String} (hkeyword : isUndotted keyword = true) {ps : List Draft}
    (h : ∀ p ∈ ps, Written R P p) : Written R P (termList keyword ps) := by
  unfold Draft.termList
  split
  · exact .code rfl
  · exact .after_code hkeyword (commas h)

theorem groupBy {terms : List Reference} (h : ∀ r ∈ terms, Written R P (ofReference r)) :
    Written R P (groupBy terms) :=
  .termList (by decide) (List.forall_mem_map.2 h)

theorem orderBy {terms : List (Reference × Direction)}
    (h : ∀ t ∈ terms, Written R P (ofReference t.1)) : Written R P (orderBy terms) := by
  refine .termList (by decide) (List.forall_mem_map.2 fun t ht => ?_)
  exact .before_code (by cases t.2 <;> decide) (h t ht)

theorem into (into? : Option Identifier) : Written R P (into into?) := by
  cases into? with
  | none => exact .code rfl
  | some name => exact .after_code (by decide) (.identifier name)

/-- The parts of a select are written so. -/
structure Parts (R : Prop) (P : String → Prop) (s : SelectParts) : Prop where
  head : Written R P s.head
  columns : ∀ p ∈ s.columns, Written R P p
  origin : Written R P s.origin
  joins : ∀ p ∈ s.joins, Written R P p
  filter : Written R P s.filter
  groupBy : ∀ r ∈ s.groupBy, Written R P (ofReference r)
  having : Written R P s.having
  combined : Written R P s.combined
  orderBy : ∀ t ∈ s.orderBy, Written R P (ofReference t.1)
  page : Written R P s.page

theorem select {s : SelectParts} (h : Parts R P s) : Written R P (select s) :=
  .after_code (by decide) <| .append h.head <| .append (.commas h.columns) <|
    .append (.into s.into?) <| .append h.origin <| .append (.joins h.joins) <|
    .append h.filter.spaced <| .append (.groupBy h.groupBy) <| .append h.having.spaced <|
    .append h.combined <| .append (.orderBy h.orderBy) h.page.spaced

/-! ## Inserts, updates and deletes -/

theorem parenthesised {ps : List Draft} (h : ∀ p ∈ ps, Written R P p) :
    Written R P (parenthesised ps) :=
  .enclosed (commas h)

theorem columnList (columns : List Identifier) : Written R P (columnList columns) := by
  unfold Draft.columnList
  split
  · exact .code rfl
  · exact .after_code (by decide) (.parenthesised (List.forall_mem_map.2 fun i _ => .identifier i))

/-- A table with its columns in front of code and more. -/
theorem table_columns (table : Identifier) (columns : List Identifier) {s : String}
    (hs : isUndotted s = true) (hp : Written R P p) :
    Written R P (.identifier table ++ (Draft.columnList columns ++ (.code s ++ p))) :=
  .append (.identifier table) (.around_code hs (.columnList columns) hp)

theorem insertRow (table : Identifier) (columns : List Identifier) {row : List Draft}
    (h : ∀ p ∈ row, Written R P p) : Written R P (insertRow table columns row) :=
  .table_columns table columns (by decide) (.parenthesised h)

theorem insertAllRows (table : Identifier) (columns : List Identifier) {rows : List (List Draft)}
    (h : ∀ row ∈ rows, ∀ p ∈ row, Written R P p) :
    Written R P (insertAllRows table columns rows) := by
  induction rows with
  | nil => exact .code rfl
  | cons row rows ih =>
    obtain ⟨hrow, hrows⟩ := List.forall_mem_cons.1 h
    exact .after_code (by decide) (.append (.insertRow table columns hrow) (ih hrows))

theorem insertAll (table : Identifier) (columns : List Identifier) {rows : List (List Draft)}
    (h : ∀ row ∈ rows, ∀ p ∈ row, Written R P p) : Written R P (insertAll table columns rows) := by
  unfold Draft.insertAll
  split
  · next row => exact .after_code (by decide) (.insertRow table columns (h row List.mem_cons_self))
  · exact .after_code (by decide) (.before_code (by decide) (.insertAllRows table columns h))

theorem insertValues (table : Identifier) (columns : List Identifier) {rows : List (List Draft)}
    (h : ∀ row ∈ rows, ∀ p ∈ row, Written R P p) : Written R P (insertValues table columns rows) :=
  .after_code (by decide) <| .table_columns table columns (by decide) <|
    commas (List.forall_mem_map.2 fun row hrow => .parenthesised (h row hrow))

theorem insertRows {k : Constructs} {table : Identifier} {columns : List Identifier}
    {rows : List (List Draft)} (h : ∀ row ∈ rows, ∀ p ∈ row, Written R P p)
    (hp : insertRows k table columns rows = .ok p) : Written R P p := by
  rcases insertRows_cases hp with rfl | rfl
  · exact .insertAll table columns h
  · exact .insertValues table columns h

theorem insertSelect (table : Identifier) (columns : List Identifier) (hp : Written R P p) :
    Written R P (insertSelect table columns p) :=
  .after_code (by decide) (.table_columns table columns (by decide) hp)

theorem assignment (column : Identifier) (hp : Written R P p) :
    Written R P (assignment column p) :=
  .around_code (by decide) (.identifier column) hp

theorem update (table : Identifier) {ps : List Draft} (h : ∀ p ∈ ps, Written R P p)
    (hp : Written R P p) : Written R P (update table ps p) :=
  .after_code (by decide) <| .around_code (by decide) (.identifier table) <|
    .around_code (by decide) (commas h) hp

theorem delete (table : Identifier) (hp : Written R P p) : Written R P (delete table p) :=
  .after_code (by decide) (.around_code (by decide) (.identifier table) hp)

end Written

end Draft

end SqlTree
