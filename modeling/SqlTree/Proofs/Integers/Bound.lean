import SqlTree.Proofs.Grammar.Values
import SqlTree.Proofs.Integers.Exact

/-!
# SqlTree.Proofs.Integers.Bound

Integers of specifications.  `Json.valuePlaces` are the places of values in a
specification, nulls among them; one value is bound for each place that
holds a scalar other than null (`Json.boundValues_eq_flatMap`).
-/

namespace SqlTree

/-! ## Places of values -/

/-- What a condition tests against. -/
def ConditionOperator.testedPlaces : ConditionOperator → Json → Option Json → List Json
  | .compare _, value, _ => [value]
  | .inList _, .arr items, _ => items
  | .inList _, _, _ => []
  | .like _, pattern, _ => [pattern]
  | .between _, low, high? => low :: high?.toList
  | .truth _, _, _ => []

theorem ConditionOperator.testedValues_eq_flatMap (op : ConditionOperator) (value : Json)
    (extra : Option Json) :
    op.testedValues value extra = (op.testedPlaces value extra).flatMap scalarValues := by
  cases op with
  | inList => cases value <;> simp [testedValues, testedPlaces]
  | _ => simp [testedValues, testedPlaces]

mutual

/-- What stands in the places of values. -/
def Json.valuePlaces : Json → List Json
  | .obj [(name, .arr items)] =>
    match Connective.ofSymbol? name with
    | some _ => valuePlacesOf items
    | none => items
  | .obj [(_, value)] => [value]
  | .arr items =>
    match listShape items with
    | .condition _ op value extra => op.testedPlaces value extra
    | _ => valuePlacesOf items
  | _ => []

/-- The places of several specifications, one after the other. -/
def valuePlacesOf : List Json → List Json
  | [] => []
  | item :: items => item.valuePlaces ++ valuePlacesOf items

end

mutual

/-- One value is bound for each place that holds a scalar other than null. -/
theorem Json.boundValues_eq_flatMap :
    (spec : Json) → spec.boundValues = spec.valuePlaces.flatMap scalarValues
  | .obj [(name, .arr items)] => by
    rw [Json.boundValues, Json.valuePlaces]
    cases Connective.ofSymbol? name with
    | none => rfl
    | some => exact boundValuesOf_eq_flatMap items
  | .obj [(_, .null)] | .obj [(_, .bool _)] | .obj [(_, .int _)] | .obj [(_, .float _)]
  | .obj [(_, .str _)] | .obj [(_, .obj _)] => (List.flatMap_singleton _ _).symm
  | .arr items => by
    rw [Json.boundValues, Json.valuePlaces]
    cases listShape items with
    | condition => exact ConditionOperator.testedValues_eq_flatMap _ _ _
    | _ => exact boundValuesOf_eq_flatMap items
  | .null | .bool _ | .int _ | .float _ | .str _ | .obj [] => rfl
  | .obj (_ :: _ :: _) => by
    rw [Json.boundValues, Json.valuePlaces]
    · rfl
    all_goals nofun

theorem boundValuesOf_eq_flatMap :
    (specs : List Json) → boundValuesOf specs = (valuePlacesOf specs).flatMap scalarValues
  | [] => rfl
  | item :: items => by
    rw [boundValuesOf, valuePlacesOf, List.flatMap_append, item.boundValues_eq_flatMap,
      boundValuesOf_eq_flatMap items]

end

/-! ## Integers of specifications -/

namespace Group

/-- An accepted specification compiles, with the values in its places. -/
theorem values_ofSpec {spec : Json} {g : Group} (h : ofSpec spec = .ok g) (d : Dialect) :
    ∃ sql c, answer (Node.compile d .group g) = .ok sql ∧
      Node.collector? .group (left (Node.compile d .group g)) = some c ∧
      c.values = spec.valuePlaces.flatMap scalarValues := by
  rw [← Json.boundValues_eq_flatMap]
  exact compile_ofSpec h d

/-- An integer in a place of values is bound, behind the values of the places
before it.  What is bound is the integer itself if 64 bits hold it, and else
a double nearest to it, so it is another number unless the integer is a
multiple of 2048. -/
theorem integer_of_ofSpec {spec : Json} {g : Group} (h : ofSpec spec = .ok g) (d : Dialect) :
    ∃ sql c, answer (Node.compile d .group g) = .ok sql ∧
      Node.collector? .group (left (Node.compile d .group g)) = some c ∧
      ∀ before n after, spec.valuePlaces = before ++ .int n :: after →
        Int64.minValue.toInt ≤ n → n < 2 ^ 64 →
        ∃ v, Value.ofJson? (.int n) = some v ∧
          c.values = before.flatMap scalarValues ++ v :: after.flatMap scalarValues ∧
          (n ≤ Int64.maxValue.toInt → v = .int (Int64.ofInt n)) ∧
          (Int64.maxValue.toInt < n → ∃ x : Double, v = .float x ∧ x.isFinite = true ∧
            ∀ y : Double, y.isFinite = true → |x.toRat - n| ≤ |y.toRat - n|) ∧
          (v.Denotes n ↔ n ≤ Int64.maxValue.toInt ∨ 2048 ∣ n) := by
  obtain ⟨sql, c, hsql, hcollector, hvalues⟩ := values_ofSpec h d
  refine ⟨sql, c, hsql, hcollector, fun before n after hplaces hlow hhigh => ?_⟩
  refine ⟨.ofInt n, rfl, ?_, fun hmax => Value.ofInt_eq_int ⟨hlow, hmax⟩, fun hmax => ?_,
    Value.ofInt_denotes_iff hlow hhigh⟩
  · rw [hvalues, hplaces, List.flatMap_append, List.flatMap_cons,
      scalarValues_of_not_isNull rfl (Value.isNull_ofInt n)]
    rfl
  · exact ⟨_, Value.ofInt_of_max_lt hmax, Double.ofInt_nearest (Value.log2_natAbs_lt hmax hhigh)⟩

/-- In a list behind a null the largest multiple of 2048 is kept, and the
greatest unsigned integer is not. -/
theorem integer_of_ofSpec_of_list :
    let kept : ℤ := 18446744073709549568
    let altered : ℤ := 18446744073709551615
    let spec : Json := .obj [("a", .arr [.null, .int kept, .int altered])]
    Dialect.ansi.Shipped ∧ Int64.minValue.toInt ≤ kept ∧ kept < 2 ^ 64 ∧
      Int64.minValue.toInt ≤ altered ∧ altered < 2 ^ 64 ∧
      spec.valuePlaces = [.null] ++ .int kept :: [.int altered] ∧
      spec.valuePlaces = [.null, .int kept] ++ .int altered :: [] ∧
      ∃ g sql c v w, ofSpec spec = .ok g ∧ answer (Node.compile Dialect.ansi .group g) = .ok sql ∧
        Node.collector? .group (left (Node.compile Dialect.ansi .group g)) = some c ∧
        c.values = [v, w] ∧ v.Denotes kept ∧ ¬w.Denotes altered := by
  intro kept altered spec
  have haccepted : (ofSpec spec).toOption.isSome = true := by decide +kernel
  have hkept : Int64.minValue.toInt ≤ kept ∧ kept < 2 ^ 64 := by decide
  have haltered : Int64.minValue.toInt ≤ altered ∧ altered < 2 ^ 64 := by decide
  cases hg : ofSpec spec with
  | error e =>
    rw [hg] at haccepted
    cases haccepted
  | ok g =>
    obtain ⟨sql, c, hsql, hcollector, hintegers⟩ := integer_of_ofSpec hg Dialect.ansi
    obtain ⟨v, -, hvalues, -, -, hv⟩ :=
      hintegers [.null] kept [.int altered] rfl hkept.1 hkept.2
    obtain ⟨w, hw, hvalues', -, -, hdenotes⟩ :=
      hintegers [.null, .int kept] altered [] rfl haltered.1 haltered.2
    refine ⟨.config .standard, hkept.1, hkept.2, haltered.1, haltered.2, rfl, rfl, g, sql, c, v, w,
      rfl, hsql, hcollector, ?_, hv.2 (by decide), mt hdenotes.1 (by decide)⟩
    cases hw
    exact hvalues

/-- The integer behind `2 ^ 63` is accepted, and `2 ^ 63` is bound for it. -/
theorem ofSpec_alters_integer :
    let n : ℤ := 9223372036854775809
    let spec : Json := .obj [("a", .int n)]
    Dialect.ansi.Shipped ∧ ∃ g sql c v, ofSpec spec = .ok g ∧
      answer (Node.compile Dialect.ansi .group g) = .ok sql ∧
      Node.collector? .group (left (Node.compile Dialect.ansi .group g)) = some c ∧
      Value.ofJson? (.int n) = some v ∧ c.values = [v] ∧ ¬v.Denotes n ∧ v.Denotes (n - 1) := by
  intro n spec
  have haccepted : (ofSpec spec).toOption.isSome = true := by decide +kernel
  have hrounded : Value.ofInt n = Value.ofInt (n - 1) := by decide +kernel
  cases hg : ofSpec spec with
  | error e =>
    rw [hg] at haccepted
    cases haccepted
  | ok g =>
    obtain ⟨sql, c, hsql, hcollector, hvalues⟩ := values_ofSpec hg Dialect.ansi
    refine ⟨.config .standard, g, sql, c, .ofInt n, rfl, hsql, hcollector, rfl, hvalues, ?_, ?_⟩
    · exact mt (Value.ofInt_denotes_iff (by decide) (by decide)).1 (by decide)
    · rw [hrounded]
      exact (Value.ofInt_denotes_iff (by decide) (by decide)).2 (by decide)

end Group

end SqlTree
