import SqlTree.Proofs.Grouping.Lexeme

/-!
# SqlTree.Proofs.Grouping.Test

Every test is read as one test.  Each shape of a test is put together from
its pieces, left to right; the `AND` of a range is the one that its
`BETWEEN` waits for.
-/

namespace SqlTree

variable {d : Dialect}

/-! ## Shapes of tests -/

namespace Begins

variable (hd : d.QuotesStandOut) {left : String}
include hd

theorem comparison (hleft : Begins d left false) (op : Comparison) {right : String}
    (hright : Lexeme d false right false) : Begins d (comparisonText left op right) false :=
  (hleft.append hd ((Steady.comparison hd op).lexeme false)).append hd hright

theorem range (hleft : Begins d left false) (negated : Bool) {low high : String}
    (hlow : Lexeme d true low true) (hhigh : Lexeme d false high false) :
    Begins d (betweenText left negated low high) false := by
  have hbetween := hleft.append_negated hd negated (.between hd)
  have hall := ((hbetween.append hd hlow).append hd (.and hd)).append hd hhigh
  have htext : betweenText left negated low high =
      left ++ " " ++ notWord negated ++ "BETWEEN" ++ " " ++ low ++ " " ++ "AND" ++ " " ++ high := by
    simp [betweenText, String.append_assoc]
  rw [htext]
  exact hall

theorem inParentheses (hleft : Begins d left false) (negated : Bool) {inner : String}
    (hinner : Balanced d inner.toList) : Begins d (inText left negated inner) false := by
  have hin : Steady d "IN" := .letters hd (by decide) (by decide) (by decide)
  have hall := (hleft.append_negated hd negated (hin.lexeme false)).append hd
    (.enclosed hd hinner false)
  have htext : inText left negated inner = left ++ " " ++ notWord negated ++ "IN" ++ " " ++
    enclosed inner := by
    simp [inText, String.append_assoc]
  rw [htext]
  exact hall

theorem truth (hleft : Begins d left false) (negated : Bool) (word : Truth) :
    Begins d (truthText left negated word) false := by
  have his : Steady d "IS" := .letters hd (by decide) (by decide) (by decide)
  have hall := (hleft.append hd (his.lexeme false)).append_negated hd negated
    ((Steady.truth hd word).lexeme false)
  have htext : truthText left negated word = left ++ " " ++ "IS" ++ " " ++ notWord negated ++
    word.keyword := by
    simp [truthText, String.append_assoc]
  rw [htext]
  exact hall

theorem like (hleft : Begins d left false) (negated : Bool) {pattern : String}
    (hpattern : Lexeme d false pattern false) (escape : Option Char) :
    Begins d (likeText d left negated pattern escape) false := by
  have hlike : Steady d "LIKE" := .letters hd (by decide) (by decide) (by decide)
  have hescape : Steady d "ESCAPE" := .letters hd (by decide) (by decide) (by decide)
  have hall := (hleft.append_negated hd negated (hlike.lexeme false)).append hd hpattern
  cases escape with
  | none =>
    have htext : likeText d left negated pattern none =
        left ++ " " ++ notWord negated ++ "LIKE" ++ " " ++ pattern := by
      simp [likeText, String.append_assoc]
    rw [htext]
    exact hall
  | some c =>
    have htext : likeText d left negated pattern (some c) = left ++ " " ++ notWord negated ++
      "LIKE" ++ " " ++
        pattern ++ " " ++ "ESCAPE" ++ " " ++ charLiteral d.valueQuote c := by
      simp [likeText, String.append_assoc]
    rw [htext]
    exact (hall.append hd (hescape.lexeme false)).append hd ((Steady.charLiteral hd c).lexeme false)

theorem existence (negated : Bool) {sql : String} (hsql : Balanced d sql.toList) :
    Begins d (existenceText negated sql) false := by
  have hnot : Steady d "NOT" := .letters hd (by decide) (by decide) (by decide)
  have hexists : Steady d "EXISTS" := .letters hd (by decide) (by decide) (by decide)
  have hsub : Lexeme d false (enclosed sql) false := .enclosed hd hsql false
  cases negated with
  | false =>
    have htext : existenceText false sql = "EXISTS" ++ " " ++ enclosed sql := by
      simp [existenceText, notWord]
    rw [htext]
    exact hexists.begins.append hd hsub
  | true =>
    have htext : existenceText true sql = "NOT" ++ " " ++ "EXISTS" ++ " " ++ enclosed sql := by
      simp [existenceText, notWord]
    rw [htext]
    exact (hnot.begins.append hd (hexists.lexeme false)).append hd hsub

theorem quantified (hleft : Begins d left false) (op : Comparison) (q : Quantifier) {sql : String}
    (hsql : Balanced d sql.toList) : Begins d (quantifiedText left op q sql) false :=
  ((hleft.append hd ((Steady.comparison hd op).lexeme false)).append hd
    ((Steady.quantifier hd q).lexeme false)).append
    hd (.enclosed hd hsql false)

end Begins

/-! ## Tests without raw SQL -/

section NoRawSql

variable (hd : d.QuotesStandOut) {k : Constructs} (hk : k.Plain)
include hd hk

/-- The draft of a subquery is written with its parentheses in pairs. -/
theorem Select.draft_balanced {s : Select} (hraws : s.raws = []) :
    Yields (fun q => ∀ c, Balanced d (q.text d c).toList) (s.draft k) := fun q hq c =>
  (s.draft_composed hk (by simp [hraws]) q hq : q.Composed fun _ => False).balanced hd c

omit hk in
/-- So are the markers of a list. -/
theorem Draft.markers_balanced (values : List Value) (c : Collector) :
    Balanced d (SqlTree.joined ", "
      (Draft.texts d (values.map fun v => .value ⟨v, v.bindType, "in"⟩) c)).toList := by
  have hvalues : ∀ p ∈ values.map fun v => Draft.value ⟨v, v.bindType, "in"⟩,
      p.Composed fun _ => False := by
    intro p hp
    obtain ⟨v, -, rfl⟩ := List.mem_map.1 hp
    exact .value _
  rw [← Draft.text_joined]
  exact (Draft.Composed.commas hvalues).balanced hd c

theorem Operand.draft_lexeme (hint : String) {o : Operand} (hraws : o.raws = []) :
    Yields (fun q => ∀ c b, Lexeme d b (q.text d c) b) (o.draft k hint) := by
  cases o with
  | value v =>
    rw [Operand.draft]
    exact .ok fun c b => (Steady.marker hd c _).lexeme b
  | identifier i =>
    rw [Operand.draft]
    exact .ok fun c b => (Steady.identifier hd i).lexeme b
  | literal l => simp [Operand.raws] at hraws
  | expression e =>
    obtain ⟨template, slots⟩ := e
    simp [Operand.raws, Expression.raws] at hraws
  | subquery s =>
    rw [Operand.raws] at hraws
    rw [Operand.draft]
    refine (Select.draft_balanced hd hk hraws).map fun q hq c b => ?_
    rw [Draft.text_enclosed]
    exact .enclosed hd (hq c) b

/-- A test without raw SQL is read as one test, unless it is a list with
null in it. -/
theorem Predicate.draft_begins {p : Predicate} (hraws : p.raws = []) (hgroup : ∀ g, p ≠ .group g)
    (hlist : ∀ left negated v values, p ≠ .inValues left negated (v :: values) true) :
    Yields (fun q => ∀ c, Begins d (q.text d c) false) (p.draft k) := by
  have hreference {r : Reference} (hr : r.raws = []) : Begins d (r.quoted d) false :=
    (Steady.reference hd hr).begins
  cases p with
  | comparison left op right =>
    obtain ⟨hleft, hright⟩ := List.append_eq_nil_iff.1 hraws
    rw [Predicate.draft]
    refine (Operand.draft_lexeme hd hk _ hright).map fun q hq c => ?_
    rw [Draft.text_comparison]
    exact .comparison hd (hreference hleft) op (hq c false)
  | between left negated low high =>
    obtain ⟨hleft, hbounds⟩ := List.append_eq_nil_iff.1 hraws
    obtain ⟨hlow, hhigh⟩ := List.append_eq_nil_iff.1 hbounds
    rw [Predicate.draft]
    refine (Operand.draft_lexeme hd hk _ hlow).bind fun q hq => ?_
    refine (Operand.draft_lexeme hd hk _ hhigh).bind fun q' hq' => .ok fun c => ?_
    rw [Draft.text_between]
    exact .range hd (hreference hleft) negated (hq c true) (hq' _ false)
  | inValues left negated values orNull =>
    rw [Predicate.raws] at hraws
    rw [Predicate.draft]
    refine .ok fun c => ?_
    rw [Draft.text_inList, inListText]
    cases values with
    | nil => exact .truth hd (hreference hraws) negated .null
    | cons v values =>
      have hnull : orNull = false := by
        rw [Bool.eq_false_iff]
        rintro rfl
        exact hlist left negated v values rfl
      subst hnull
      exact .inParentheses hd (hreference hraws) negated (Draft.markers_balanced hd (v :: values) c)
  | inSelect left negated s =>
    obtain ⟨hleft, hs⟩ := List.append_eq_nil_iff.1 hraws
    rw [Predicate.draft]
    refine (Select.draft_balanced hd hk hs).map fun q hq c => ?_
    rw [Draft.text_inParentheses]
    exact .inParentheses hd (hreference hleft) negated (hq c)
  | like left negated pattern escape =>
    obtain ⟨hleft, hpattern⟩ := List.append_eq_nil_iff.1 hraws
    rw [Predicate.draft]
    refine (Operand.draft_lexeme hd hk _ hpattern).map fun q hq c => ?_
    rw [Draft.text_like]
    exact .like hd (hreference hleft) negated (hq c false) escape
  | truth left negated word =>
    rw [Predicate.raws] at hraws
    rw [Predicate.draft]
    refine .ok fun c => ?_
    rw [Draft.text_truth]
    exact .truth hd (hreference hraws) negated word
  | existence negated s =>
    rw [Predicate.raws] at hraws
    rw [Predicate.draft]
    refine (Select.draft_balanced hd hk hraws).map fun q hq c => ?_
    rw [Draft.text_existence]
    exact .existence hd negated (hq c)
  | quantified left op q s =>
    obtain ⟨hleft, hs⟩ := List.append_eq_nil_iff.1 hraws
    rw [Predicate.draft]
    refine (Select.draft_balanced hd hk hs).map fun p hp c => ?_
    rw [Draft.text_quantified]
    exact .quantified hd (hreference hleft) op q (hp c)
  | literal l => simp [Predicate.raws] at hraws
  | expression e =>
    obtain ⟨template, slots⟩ := e
    simp [Predicate.raws, Expression.raws] at hraws
  | group g => exact absurd rfl (hgroup g)

end NoRawSql

end SqlTree
