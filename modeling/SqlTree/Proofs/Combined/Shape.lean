import SqlTree.Proofs.Combined.Parts
import SqlTree.Proofs.Combined.Quiet

/-!
# SqlTree.Proofs.Combined.Shape

The shapes that a select is made of are quiet if their parts are: tests and
groups of them, columns, joins and origins.  What stands between parentheses
only has to be closed, and a select whose rows are numbered stands there
(`Draft.numberRows_quiet`).  The core of a select is quiet, and the whole of
it closed (`Draft.SelectParts.Settled`).
-/

namespace SqlTree

variable {d : Dialect}

namespace Draft

variable (hd : d.QuotesStandOut) {p q : Draft}
include hd

/-! ## Predicates -/

namespace Quiet

section

variable {left : Reference} (hleft : Quiet d (ofReference left))
include hleft

theorem comparison (op : Comparison) (hp : Quiet d p) : Quiet d (comparison left op p) :=
  .append hd hleft (.after_phrase hd rfl (by cases op <;> decide) hp)

theorem between (negated : Bool) (hp : Quiet d p) (hq : Quiet d q) :
    Quiet d (between left negated p q) := by
  have hword : " " ++ notWord negated ++ "BETWEEN " =
      " " ++ (notWord negated ++ "BETWEEN") ++ " " := by
    cases negated <;> rfl
  exact .append hd hleft (.after_phrase hd hword (by cases negated <;> decide)
    (.append hd hp (.after_phrase hd (t := "AND") rfl (by decide) hq)))

theorem inParentheses (negated : Bool) (hp : Closed d p) :
    Quiet d (inParentheses left negated p) := by
  have hword : " " ++ notWord negated ++ "IN " = " " ++ (notWord negated ++ "IN") ++ " " := by
    cases negated <;> rfl
  exact .append hd hleft (.after_phrase hd hword (by cases negated <;> decide) (.enclosed hd hp))

theorem truth (negated : Bool) (word : Truth) : Quiet d (truth left negated word) := by
  have hword : " IS " ++ notWord negated ++ word.keyword =
      " " ++ ("IS " ++ notWord negated ++ word.keyword) := by cases negated <;> cases word <;> rfl
  exact .append hd hleft (.phrase hd hword (by cases negated <;> cases word <;> decide))

theorem inList (negated : Bool) {ps : List Draft} (h : ∀ p ∈ ps, Quiet d p) (orNull : Bool) :
    Quiet d (inList left negated ps orNull) := by
  have hlist := inParentheses hd hleft negated (commas hd h).closed
  unfold Draft.inList
  split
  · exact truth hd hleft negated .null
  · split
    · have hword : (if negated then " AND " else " OR ") =
          " " ++ (if negated then "AND" else "OR") ++ " " := by cases negated <;> rfl
      refine .enclosed hd (Quiet.closed (.append hd hlist (.after_phrase hd hword ?_ ?_)))
      · cases negated <;> decide
      · exact truth hd hleft negated .null
    · exact hlist

theorem like (negated : Bool) (hp : Quiet d p) (escape : Option Char) :
    Quiet d (like left negated p escape) := by
  have hword : " " ++ notWord negated ++ "LIKE " = " " ++ (notWord negated ++ "LIKE") ++ " " := by
    cases negated <;> rfl
  refine .append hd hleft (.after_phrase hd hword (by cases negated <;> decide) (.append hd hp ?_))
  cases escape with
  | none => exact .nil
  | some ch =>
    exact .after_phrase hd (t := "ESCAPE") rfl (by decide) fun _ => .quoting hd (.charLiteral ch)

theorem quantified (op : Comparison) (quantifier : Quantifier) (hp : Closed d p) :
    Quiet d (quantified left op quantifier p) := by
  have hword : " " ++ op.symbol ++ " " ++ quantifier.keyword ++ " " =
      " " ++ (op.symbol ++ " " ++ quantifier.keyword) ++ " " := by simp [String.append_assoc]
  exact .append hd hleft (.after_phrase hd hword (by cases op <;> cases quantifier <;> decide)
    (.enclosed hd hp))

end

theorem existence (negated : Bool) (hp : Closed d p) : Quiet d (existence negated p) := by
  have hword : notWord negated ++ "EXISTS " = notWord negated ++ "EXISTS" ++ " " := by
    cases negated <;> rfl
  exact .after_phrase hd hword (by cases negated <;> decide) (.enclosed hd hp)

end Quiet

/-! ## Groups and clauses -/

theorem Trailing.following {ts : List (Connective × Draft)} (h : ∀ t ∈ ts, Quiet d t.2) :
    Trailing d (following ts) := by
  induction ts with
  | nil => exact .nil
  | cons t ts ih =>
    obtain ⟨op, p⟩ := t
    obtain ⟨hp, hts⟩ := List.forall_mem_cons.1 h
    exact .after_phrase hd rfl (by cases op <;> decide) (.append hd hp (ih hts))

namespace Quiet

theorem terms {ts : List (Connective × Draft)} (h : ∀ t ∈ ts, Quiet d t.2) :
    Quiet d (terms ts) := by
  cases ts with
  | nil => exact .code hd (by decide)
  | cons t ts =>
    obtain ⟨hp, hts⟩ := List.forall_mem_cons.1 h
    exact .append hd hp (.following hd hts)

theorem group (nested : Bool) {ts : List (Connective × Draft)} (h : ∀ t ∈ ts, Quiet d t.2) :
    Quiet d (group nested ts) := by
  have hlive := terms hd fun t (ht : t ∈ live ts) => h t (List.mem_filter.1 ht).1
  unfold Draft.group
  split
  · exact .enclosed hd hlive.closed
  · exact hlive

theorem clause (kind : ClauseKind) (hp : Quiet d p) : Quiet d (clause kind p) := by
  unfold Draft.clause
  split
  · exact .code hd (by decide)
  · exact .after_phrase hd rfl (by cases kind <;> decide) hp

end Quiet

/-! ## Parts of selects -/

theorem Trailing.aliased (alias? : Option Alias) : Trailing d (aliased alias?) := by
  cases alias? with
  | none => exact .nil
  | some a => exact .blank (.label hd a)

namespace Quiet

theorem join (kind : JoinKind) (hp : Quiet d p) (alias? : Option Alias) (hq : Quiet d q) :
    Quiet d (join kind p alias? q) :=
  .after_phrase hd rfl (by cases kind <;> decide)
    (.append hd hp (.append hd (.aliased hd alias?) (.spaced hq)))

theorem star (alias? : Option Alias) : Quiet d (star alias?) := by
  cases alias? with
  | none => exact .code hd (by decide)
  | some a =>
    have hquoting : Quoting d ((d.quoteAlias a.text).toList ++ (['.'] ++ ['*'])) :=
      .append (.quoteAlias hd a.isCode_text) (.append (.sign (by decide)) (.sign (by decide)))
    intro c
    have htext : ((Draft.star (some a)).text d c).toList =
        (d.quoteAlias a.text).toList ++ (['.'] ++ ['*']) := by
      have hcode : ".*".toList = ['.'] ++ ['*'] := by decide
      rw [← hcode]
      exact String.toList_append
    rw [htext]
    exact .quoting hd hquoting

omit hd in
theorem referenceColumn (hp : Quiet d p) {r : Reference} (hr : Quiet d (ofReference r)) :
    Quiet d (referenceColumn p r) := by
  rcases referenceColumn_cases p r with h | h
  · exact h.symm ▸ hp
  · exact h.symm ▸ hr

theorem column (alias? : Option Alias) (hp : Quiet d p) : Quiet d (column alias? p) := by
  cases alias? with
  | none => exact hp
  | some a => exact .append hd hp (.after_phrase hd (t := "AS") rfl (by decide) (.label hd a))

end Quiet

namespace Trailing

theorem tableOrigin (name : Identifier) (alias? : Option Alias) :
    Trailing d (tableOrigin name alias?) :=
  .after_phrase hd (t := "FROM") rfl (by decide)
    (.append hd (.identifier hd name) (.aliased hd alias?))

theorem subqueryOrigin (pretty : Bool) (outer inner : Nat) (a : Alias) (hp : Closed d p) :
    Trailing d (subqueryOrigin pretty outer inner a p) := by
  refine .after_phrase hd (t := "FROM") rfl (by decide)
    (.append hd (.enclosed hd ?_) (.blank (.label hd a)))
  have hindent (levels : Nat) : Balanced d ("\n" ++ indent levels).toList :=
    .of_isCode hd (Composed.isCode_indent levels)
  split
  · intro c
    rw [text_append, text_append, String.toList_append, String.toList_append]
    exact (hindent inner).append ((hp _).append (hindent outer))
  · exact hp

theorem joins {ps : List Draft} (h : ∀ p ∈ ps, Quiet d p) : Trailing d (joins ps) := by
  induction ps with
  | nil => exact .nil
  | cons p ps ih =>
    obtain ⟨hp, hps⟩ := List.forall_mem_cons.1 h
    exact .blank (.append hd hp (ih hps))

theorem groupBy {terms : List Reference} (h : ∀ r ∈ terms, Quiet d (ofReference r)) :
    Trailing d (groupBy terms) := by
  unfold Draft.groupBy termList
  split
  · exact .nil
  · exact .after_phrase hd (t := "GROUP BY") rfl (by decide) (.commas hd (List.forall_mem_map.2 h))

theorem into (into? : Option Identifier) : Trailing d (into into?) := by
  cases into? with
  | none => exact .nil
  | some name => exact .after_phrase hd (t := "INTO") rfl (by decide) (.identifier hd name)

end Trailing

/-! ## Selects -/

theorem rowCount_quiet (n : UInt64) (hint : String) : Yields (Quiet d) (rowCount n hint) := by
  unfold rowCount
  split
  · exact .ok (.value hd _)
  · exact .error

theorem columnHead_leading (k : Constructs) (distinct : Bool) (page : Page) :
    Yields (Leading d) (columnHead k (if distinct then some "DISTINCT" else none) page) := by
  have hquantifier : Leading d
      (code (quantifierHead (if distinct then some "DISTINCT" else none))) := by
    cases distinct with
    | false => exact fun _ => .inl rfl
    | true => exact .phrase hd (t := "DISTINCT") rfl (by decide)
  unfold columnHead
  split
  · obtain ⟨_ | n, _ | m⟩ := page
    case some.none =>
      let quantifier := quantifierHead (if distinct then some "DISTINCT" else none)
      have hword : quantifier ++ "TOP " = quantifier ++ "TOP" ++ " " := by
        rw [String.append_assoc]
        rfl
      refine (rowCount_quiet hd n _).bind fun p hp => .ok fun c => ?_
      have htop : Quiet d (code (quantifier ++ "TOP ") ++ enclosed p) :=
        .after_phrase hd hword (by cases distinct <;> decide) (.enclosed hd hp.closed)
      refine .inr ⟨_, ?_, htop c⟩
      simp only [text_append, text_code, after_code, String.append_assoc, quantifier]
    all_goals exact .ok hquantifier
  · exact .ok hquantifier

/-- Numbering rows puts the select between parentheses. -/
theorem numberRows_quiet {page : Page} (hpage : page.isPartial = true) (hp : Closed d p) :
    Yields (Quiet d) (numberRows p page) := by
  have hwrapped {q r : Draft} (hq : Closed d q) (hr : Trailing d r) :
      Quiet d (code "SELECT * FROM " ++ (enclosed q ++ r)) :=
    .after_phrase hd (t := "SELECT * FROM") rfl (by decide) (.append hd (.enclosed hd hq) hr)
  have hnumbered {r : Draft} (hr : Trailing d r) : Closed d (numbered p r) := by
    have hname : Trailing d (code " b") := .phrase hd (t := "b") rfl (by decide)
    exact Quiet.closed (.after_phrase hd (t := "SELECT b.*, ROWNUM b_rownum FROM") rfl (by decide)
      (.append hd (.enclosed hd hp) (.append hd hname hr)))
  have hupper {r : Draft} (hr : Quiet d r) : Trailing d (code " WHERE ROWNUM <= " ++ r) :=
    .after_phrase hd (t := "WHERE ROWNUM <=") rfl (by decide) hr
  have hlower {r : Draft} (hr : Quiet d r) : Trailing d (code " WHERE b_rownum > " ++ r) :=
    .after_phrase hd (t := "WHERE b_rownum >") rfl (by decide) hr
  obtain ⟨_ | n, _ | m⟩ := page
  case none.none => cases hpage
  case none.some =>
    exact (rowCount_quiet hd m _).bind fun lower hlow =>
      .ok (hwrapped (hnumbered .nil) (hlower hlow))
  case some.none =>
    exact (rowCount_quiet hd n _).bind fun upper hup => .ok (hwrapped hp (hupper hup))
  case some.some =>
    exact (rowCount_quiet hd _ _).bind fun upper hup =>
      (rowCount_quiet hd m _).bind fun lower hlow =>
      .ok (hwrapped (hnumbered (hupper hup)) (hlower hlow))

theorem aroundSelect_closed (k : Constructs) (hp : Closed d p) (page : Page) :
    Yields (Closed d) (aroundSelect k p page) := by
  by_cases h : (k.rowNumbers && page.isPartial) = true
  · obtain ⟨hrow, hpage⟩ := Bool.and_eq_true_iff.1 h
    rw [aroundSelect, if_pos hrow]
    exact fun q hq => (numberRows_quiet hd hpage hp q hq).closed
  · rw [aroundSelect_eq_ok h]
    exact .ok hp

theorem orderBy_closed {terms : List (Reference × Direction)}
    (h : ∀ t ∈ terms, Quiet d (ofReference t.1)) : Closed d (orderBy terms) := by
  unfold Draft.orderBy termList
  split
  · exact .code hd (by decide)
  · refine (Closed.code hd (by decide)).append (Quiet.closed (.commas hd ?_))
    refine List.forall_mem_map.2 fun t ht => ?_
    exact .append hd (h t ht) (.phrase hd rfl (by cases t.2 <;> decide))

omit hd

/-- The parts of a select up to `HAVING` are quiet, and the others closed. -/
structure SelectParts.Settled (d : Dialect) (parts : SelectParts) : Prop where
  head : Leading d parts.head
  columns : ∀ p ∈ parts.columns, Quiet d p
  origin : Trailing d parts.origin
  joins : ∀ p ∈ parts.joins, Quiet d p
  filter : Quiet d parts.filter
  groupBy : ∀ r ∈ parts.groupBy, Quiet d (ofReference r)
  having : Quiet d parts.having
  combined : Closed d parts.combined
  orderBy : ∀ t ∈ parts.orderBy, Quiet d (ofReference t.1)
  page : Closed d parts.page

namespace SelectParts.Settled

include hd

variable {parts : SelectParts} (h : parts.Settled d)
include h

theorem core_quiet : Quiet d (select parts.core) := by
  have hhaving : Trailing d
      (spaced parts.having ++ (code "" ++ (Draft.orderBy [] ++ spaced (code "")))) :=
    .append hd (.spaced h.having) (.append hd .nil (.append hd .nil .nil))
  refine .after_phrase hd (t := "SELECT") rfl (by decide) (.after_leading hd h.head ?_)
  exact .append hd (.commas hd h.columns) (.append hd (.into hd _) (.append hd h.origin
    (.append hd (.joins hd h.joins) (.append hd (.spaced h.filter)
      (.append hd (.groupBy hd h.groupBy) hhaving)))))

/-- Behind the core nothing but closed parts. -/
theorem closed : Closed d (select parts) := by
  have hparts : Closed d (select parts.core ++
      (parts.combined ++ (Draft.orderBy parts.orderBy ++ spaced parts.page))) :=
    (h.core_quiet hd).closed.append
      (h.combined.append ((orderBy_closed hd h.orderBy).append (.spaced hd h.page)))
  intro c
  have htext := hparts c
  simpa only [text_select_core parts, text_append, text_orderBy, text_spaced, after_orderBy]
    using htext

end SelectParts.Settled

end Draft

end SqlTree
