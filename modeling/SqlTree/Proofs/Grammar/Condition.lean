import SqlTree.Proofs.Grammar.Operator
import SqlTree.Proofs.History

/-!
# SqlTree.Proofs.Grammar.Condition

What conditions mean.  The operator of a condition, its value and perhaps
an element more are a test of the column, which a call makes
(`ConditionOperator.Tests`), or they have a fault
(`ConditionOperator.Faulty`).  Every condition is one of the two
(`tests_or_faulty`), and it is read as that (`condition_of_tests`,
`condition_of_faulty`).
-/

namespace SqlTree

/-- The predicate that a call makes. -/
def Maker.predicate (maker : Maker .predicate) : Except Error Predicate := maker.make

namespace ConditionOperator

/-- The operator, the value and the element after it are the test of the
column that the call makes. -/
inductive Tests (column : Reference) :
    ConditionOperator → Json → Option Json → Maker .predicate → Prop where
  | compare {op : Comparison} {value : Json} {v : Value} (h : Value.ofJson? value = some v) :
      Tests column (.compare op) value none (.comparison column op (.value v))
  | inList {negated : Bool} {items : List Json} {values : List Value}
      (h : items.map Value.ofJson? = values.map some) :
      Tests column (.inList negated) (.arr items) none (.inValues column negated values)
  | like {negated : Bool} {value : Json} {v : Value} {escape : Option Char}
      (h : Value.ofJson? value = some v) :
      Tests column (.like negated) value (escape.map fun c => .str (String.singleton c))
        (.like column negated (.value v) escape)
  | between {negated : Bool} {low high : Json} {v w : Value} (hlow : Value.ofJson? low = some v)
      (hhigh : Value.ofJson? high = some w) :
      Tests column (.between negated) low (some high)
        (.between column negated (.value v) (.value w))
  | null {negated : Bool} : Tests column (.truth negated) .null none (.truth column negated .null)
  | bool {negated : Bool} (b : Bool) :
      Tests column (.truth negated) (.bool b) none
        (.truth column negated (if b then .true else .false))
  | word {negated : Bool} {s : String} {t : Truth} (h : Truth.ofText? s = some t) :
      Tests column (.truth negated) (.str s) none (.truth column negated t)

/-- The operator, the value and the element after it are no test, for this
reason. -/
inductive Faulty (spec : Json) : ConditionOperator → Json → Option Json → Error → Prop where
  | extra {op : ConditionOperator} {value extra : Json}
      (h : ∀ negated, op ≠ .like negated ∧ op ≠ .between negated) :
      Faulty spec op value (some extra) (.spec spec .tooManyElements)
  | notScalar {op : Comparison} {value : Json} (h : Value.ofJson? value = none) :
      Faulty spec (.compare op) value none (.spec spec .notScalar)
  | notList {negated : Bool} {value : Json} (h : ∀ items, value ≠ .arr items) :
      Faulty spec (.inList negated) value none (.spec spec .notList)
  | item {negated : Bool} {items : List Json} {item : Json} (hitem : item ∈ items)
      (h : Value.ofJson? item = none) :
      Faulty spec (.inList negated) (.arr items) none (.spec spec .notScalar)
  | escapeNotText {negated : Bool} {value escape : Json} (h : ∀ s, escape ≠ .str s) :
      Faulty spec (.like negated) value (some escape) (.spec spec .escapeNotText)
  | escapeLength {negated : Bool} {value : Json} {s : String} (h : s.length ≠ 1) :
      Faulty spec (.like negated) value (some (.str s)) (.spec spec .escapeLength)
  | pattern {negated : Bool} {value : Json} {escape : Option Char}
      (h : Value.ofJson? value = none) :
      Faulty spec (.like negated) value (escape.map fun c => .str (String.singleton c))
        (.spec spec .notScalar)
  | oneBound {negated : Bool} {value : Json} :
      Faulty spec (.between negated) value none (.spec spec .oneBound)
  | bound {negated : Bool} {low high : Json}
      (h : Value.ofJson? low = none ∨ Value.ofJson? high = none) :
      Faulty spec (.between negated) low (some high) (.spec spec .notScalar)
  | notTruth {negated : Bool} {value : Json} (hnull : value ≠ .null) (hbool : ∀ b, value ≠ .bool b)
      (hword : ∀ s, value ≠ .str s) :
      Faulty spec (.truth negated) value none (.spec spec .notTruth)
  | word {negated : Bool} {s : String} (h : Truth.ofText? s = none) :
      Faulty spec (.truth negated) (.str s) none (.notTruth s)

end ConditionOperator

/-! ## Values -/

section

variable {spec : Json}

theorem scalar_of_ofJson? {value : Json} {v : Value} (h : Value.ofJson? value = some v) :
    scalar spec value = .ok v := by
  rw [scalar, h]

theorem scalar_of_none {value : Json} (h : Value.ofJson? value = none) :
    scalar spec value = .error (.spec spec .notScalar) := by
  rw [scalar, h]

theorem scalars_of_map {items : List Json} {values : List Value}
    (h : items.map Value.ofJson? = values.map some) : scalars spec (.arr items) = .ok values := by
  rw [scalars]
  induction items generalizing values with
  | nil =>
    rw [List.map_nil, eq_comm, List.map_eq_nil_iff] at h
    rw [h]
    rfl
  | cons item items ih =>
    cases values with
    | nil => cases h
    | cons v values =>
      obtain ⟨hitem, hitems⟩ := List.cons.inj h
      rw [List.mapM_cons, scalar_of_ofJson? hitem, ih hitems]
      rfl

/-- One item that is no scalar is enough. -/
theorem scalars_of_mem {items : List Json} {item : Json} (hitem : item ∈ items)
    (h : Value.ofJson? item = none) :
    scalars spec (.arr items) = .error (.spec spec .notScalar) := by
  rw [scalars]
  induction items with
  | nil => cases hitem
  | cons first items ih =>
    rw [List.mapM_cons]
    cases hfirst : Value.ofJson? first with
    | none =>
      rw [scalar_of_none hfirst]
      rfl
    | some v =>
      have hrest : item ∈ items := by
        rcases List.mem_cons.1 hitem with rfl | hrest
        · rw [h] at hfirst
          cases hfirst
        · exact hrest
      rw [scalar_of_ofJson? hfirst, ih hrest]
      rfl

/-- The items of a list are scalars, or one of them is not. -/
theorem map_ofJson?_cases (items : List Json) :
    (∃ values : List Value, items.map Value.ofJson? = values.map some) ∨
      ∃ item ∈ items, Value.ofJson? item = none := by
  induction items with
  | nil => exact .inl ⟨[], rfl⟩
  | cons item items ih =>
    cases hitem : Value.ofJson? item with
    | none => exact .inr ⟨item, List.mem_cons_self, hitem⟩
    | some v =>
      rcases ih with ⟨values, hvalues⟩ | ⟨other, hother, hnone⟩
      · exact .inl ⟨v :: values, by rw [List.map_cons, List.map_cons, hitem, hvalues]⟩
      · exact .inr ⟨other, List.mem_cons_of_mem _ hother, hnone⟩

theorem escapeChar?_singleton (escape : Option Char) :
    escapeChar? spec (escape.map fun c => .str (String.singleton c)) = .ok escape := by
  cases escape with
  | none => rfl
  | some c => simp [escapeChar?]

theorem escapeChar?_of_length {s : String} (h : s.length ≠ 1) :
    escapeChar? spec (some (.str s)) = .error (.spec spec .escapeLength) := by
  rw [← String.length_toList] at h
  rw [escapeChar?]
  split
  · next c hs =>
    rw [hs] at h
    exact absurd rfl h
  · rfl

/-- An element behind a pattern is one character, a longer or an empty text,
or no text. -/
theorem escape_cases (extra : Option Json) :
    (∃ escape : Option Char, extra = escape.map fun c => .str (String.singleton c)) ∨
      (∃ s, extra = some (.str s) ∧ s.length ≠ 1) ∨
      ∃ j, extra = some j ∧ ∀ s, j ≠ .str s := by
  match extra with
  | none => exact .inl ⟨none, rfl⟩
  | some (.str s) =>
    by_cases h : s.length = 1
    · rw [← String.length_toList] at h
      obtain ⟨c, hc⟩ := List.length_eq_one_iff.1 h
      refine .inl ⟨some c, ?_⟩
      rw [← String.ofList_toList (s := s), hc]
      rfl
    · exact .inr (.inl ⟨s, rfl, h⟩)
  | some .null | some (.bool _) | some (.int _) | some (.float _) | some (.arr _)
  | some (.obj _) => exact .inr (.inr ⟨_, rfl, nofun⟩)

end

/-! ## Conditions -/

variable {spec : Json} {column : Reference} {op : ConditionOperator} {value : Json}
  {extra : Option Json}

/-- A test is read as the predicate that the call makes. -/
theorem condition_of_tests {maker : Maker .predicate} (h : op.Tests column value extra maker) :
    condition spec column op value extra = maker.predicate := by
  cases h with
  | compare h =>
    rw [condition, scalar_of_ofJson? h]
    rfl
  | inList h =>
    rw [condition, scalars_of_map h]
    rfl
  | like h =>
    rw [condition, escapeChar?_singleton, scalar_of_ofJson? h]
    rfl
  | between hlow hhigh =>
    rw [condition, scalar_of_ofJson? hlow, scalar_of_ofJson? hhigh]
    rfl
  | null => rfl
  | bool b => rfl
  | word h =>
    rw [condition, truthOf, Truth.parse, h]
    rfl

/-- What has a fault is refused for it. -/
theorem condition_of_faulty {e : Error} (h : op.Faulty spec value extra e) :
    condition spec column op value extra = .error e := by
  cases h with
  | extra h =>
    cases op with
    | compare | inList | truth => rfl
    | like negated => exact absurd rfl (h negated).1
    | between negated => exact absurd rfl (h negated).2
  | notScalar h =>
    rw [condition, scalar_of_none h]
    rfl
  | notList h =>
    rw [condition, scalars]
    · rfl
    · exact h
  | item hitem h =>
    rw [condition, scalars_of_mem hitem h]
    rfl
  | escapeNotText h =>
    rw [condition, escapeChar?]
    · rfl
    · exact h
  | escapeLength h =>
    rw [condition, escapeChar?_of_length h]
    rfl
  | pattern h =>
    rw [condition, escapeChar?_singleton, scalar_of_none h]
    rfl
  | oneBound => rfl
  | @bound _ _ high h =>
    rw [condition]
    cases hlow : Value.ofJson? value with
    | none =>
      rw [scalar_of_none hlow]
      rfl
    | some v =>
      have hhigh : Value.ofJson? high = none := h.resolve_left (by simp [hlow])
      rw [scalar_of_ofJson? hlow, scalar_of_none hhigh]
      rfl
  | notTruth hnull hbool hword =>
    rw [condition, truthOf]
    · rfl
    · exact hnull
    · exact hbool
    · exact hword
  | word h =>
    rw [condition, truthOf, Truth.parse, h]
    rfl

/-- A condition is a test or has a fault. -/
theorem tests_or_faulty (spec : Json) (column : Reference) (op : ConditionOperator) (value : Json)
    (extra : Option Json) :
    (∃ maker, op.Tests column value extra maker) ∨ ∃ e, op.Faulty spec value extra e := by
  cases op with
  | compare comparison =>
    cases extra with
    | some extra => exact .inr ⟨_, .extra fun _ => ⟨nofun, nofun⟩⟩
    | none =>
      cases hvalue : Value.ofJson? value with
      | none => exact .inr ⟨_, .notScalar hvalue⟩
      | some v => exact .inl ⟨_, .compare hvalue⟩
  | inList negated =>
    cases extra with
    | some extra => exact .inr ⟨_, .extra fun _ => ⟨nofun, nofun⟩⟩
    | none =>
      cases value with
      | arr items =>
        rcases map_ofJson?_cases items with ⟨values, hvalues⟩ | ⟨item, hitem, hnone⟩
        · exact .inl ⟨_, .inList hvalues⟩
        · exact .inr ⟨_, .item hitem hnone⟩
      | _ => exact .inr ⟨_, .notList nofun⟩
  | like negated =>
    rcases escape_cases extra with ⟨escape, rfl⟩ | ⟨s, rfl, hlength⟩ | ⟨j, rfl, hj⟩
    · cases hvalue : Value.ofJson? value with
      | none => exact .inr ⟨_, .pattern hvalue⟩
      | some v => exact .inl ⟨_, .like hvalue⟩
    · exact .inr ⟨_, .escapeLength hlength⟩
    · exact .inr ⟨_, .escapeNotText hj⟩
  | between negated =>
    cases extra with
    | none => exact .inr ⟨_, .oneBound⟩
    | some high =>
      cases hlow : Value.ofJson? value with
      | none => exact .inr ⟨_, .bound (.inl hlow)⟩
      | some v =>
        cases hhigh : Value.ofJson? high with
        | none => exact .inr ⟨_, .bound (.inr hhigh)⟩
        | some w => exact .inl ⟨_, .between hlow hhigh⟩
  | truth negated =>
    cases extra with
    | some extra => exact .inr ⟨_, .extra fun _ => ⟨nofun, nofun⟩⟩
    | none =>
      cases value with
      | null => exact .inl ⟨_, .null⟩
      | bool b => exact .inl ⟨_, .bool b⟩
      | str s =>
        cases hword : Truth.ofText? s with
        | none => exact .inr ⟨_, .word hword⟩
        | some t => exact .inl ⟨_, .word hword⟩
      | _ => exact .inr ⟨_, .notTruth nofun nofun nofun⟩

end SqlTree
