import SqlTree.Keyword
import SqlTree.Value

/-!
# SqlTree.Proofs.Membership.Meaning

What tests of a column against a list mean.  A condition comes to one of
three verdicts on a row (`Verdict`): a comparison with null is neither true
nor false, and `NOT`, `AND` and `OR` carry that on.  A `ColumnTest` is one of
the tests that know a list or null, and a `ColumnCondition` is such a test or
two of them joined.

`ColumnCondition.listed` tests a list with null in it as values and null
apart.  On a row with a value in the column it says whether the value is in
the list, and on one without it says whether null is, if the list has it at
all (`verdict_listed_some`, `verdict_listed_none`).
-/

namespace SqlTree

/-! ## Three truth values -/

/-- What a condition comes to on a row. -/
inductive Verdict where
  | fails
  | unknown
  | holds
deriving DecidableEq

namespace Verdict

/-- The verdict of what is known. -/
def ofBool (b : Bool) : Verdict := if b then holds else fails

/-- `NOT`. -/
def not : Verdict → Verdict
  | fails => holds
  | unknown => unknown
  | holds => fails

/-- `AND`: one that fails decides. -/
def and : Verdict → Verdict → Verdict
  | fails, _ | _, fails => fails
  | holds, holds => holds
  | _, _ => unknown

/-- `OR`: one that holds decides. -/
def or : Verdict → Verdict → Verdict
  | holds, _ | _, holds => holds
  | fails, fails => fails
  | _, _ => unknown

/-- One of the alternatives, of which none at all fails. -/
def any (vs : List Verdict) : Verdict := vs.foldr or fails

/-! ### Laws -/

@[simp] theorem ofBool_true : ofBool true = holds := rfl

@[simp] theorem ofBool_false : ofBool false = fails := rfl

@[simp] theorem ofBool_eq_holds {b : Bool} : ofBool b = holds ↔ b = true := by cases b <;> simp

theorem ofBool_ne_unknown (b : Bool) : ofBool b ≠ unknown := by cases b <;> decide

theorem not_ofBool (b : Bool) : (ofBool b).not = ofBool !b := by cases b <;> rfl

theorem and_ofBool (a b : Bool) : (ofBool a).and (ofBool b) = ofBool (a && b) := by
  cases a <;> cases b <;> rfl

theorem or_ofBool (a b : Bool) : (ofBool a).or (ofBool b) = ofBool (a || b) := by
  cases a <;> cases b <;> rfl

/-- What is known of each alternative is known of them all. -/
theorem any_map_ofBool {α : Type} (f : α → Bool) (as : List α) :
    any (as.map fun a => ofBool (f a)) = ofBool (as.any f) := by
  induction as with
  | nil => rfl
  | cons a as ih =>
    change (ofBool (f a)).or (any (as.map fun a => ofBool (f a))) = _
    rw [ih, or_ofBool, List.any_cons]

/-- Nothing is known of alternatives of which nothing is. -/
theorem any_map_unknown {α : Type} {as : List α} (h : as ≠ []) :
    any (as.map fun _ => unknown) = unknown := by
  induction as with
  | nil => exact absurd rfl h
  | cons a as ih =>
    change unknown.or (any (as.map fun _ => unknown)) = unknown
    by_cases has : as = []
    · rw [has]
      rfl
    · rw [ih has]
      rfl

end Verdict

theorem Value.isNull_iff {v : Value} : v.isNull = true ↔ v = .null := by
  cases v <;> simp [isNull]

/-! ## Tests of a column -/

/-- A test of a column, with `α` for each member of a list. -/
inductive ColumnTest (α : Type) where
  /-- `IS NULL` or `IS NOT NULL`. -/
  | isNull (negated : Bool)
  /-- `IN` or `NOT IN`. -/
  | isIn (negated : Bool) (members : List α)

/-- A test of a column, or two of them joined. -/
inductive ColumnCondition (α : Type) where
  | test (t : ColumnTest α)
  | pair (op : Connective) (t t' : ColumnTest α)

/-- Whether what is in the column equals a value, given what equality is
outside of null.  Nothing is known of a comparison with null. -/
def equalTo {ρ : Type} (equal : ρ → Value → Bool) : Option ρ → Value → Verdict
  | none, _ => .unknown
  | some x, v => if v.isNull then .unknown else .ofBool (equal x v)

section

variable {α ρ : Type} (equal : ρ → Value → Bool) (x? : Option ρ)

/-- The verdict of a test on a row, given what is in the column: a value, or
null.  `IN` is a comparison with one of the members, and `NOT IN` is not
that. -/
def ColumnTest.verdict : ColumnTest Value → Verdict
  | isNull negated => .ofBool (negated ^^ x?.isNone)
  | isIn false members => .any (members.map (equalTo equal x?))
  | isIn true members => (Verdict.any (members.map (equalTo equal x?))).not

/-- The verdict of a condition. -/
def ColumnCondition.verdict : ColumnCondition Value → Verdict
  | test t => t.verdict equal x?
  | pair .and t t' => (t.verdict equal x?).and (t'.verdict equal x?)
  | pair .or t t' => (t.verdict equal x?).or (t'.verdict equal x?)

/-! ## Lists with null in them -/

/-- The test of a list of values other than null, which may have null in it
besides.  Null is tested by itself. -/
def ColumnCondition.listed (negated : Bool) (members : List α) (orNull : Bool) :
    ColumnCondition α :=
  if members.isEmpty then test (.isNull negated)
  else if orNull then pair (if negated then .and else .or) (.isIn negated members) (.isNull negated)
  else test (.isIn negated members)

variable {equal} {values : List Value}

/-- Where the column has a value, it is compared with the members. -/
theorem ColumnTest.verdict_isIn_some (negated : Bool) (h : ∀ v ∈ values, v.isNull = false) (x : ρ) :
    (isIn negated values).verdict equal (some x) = .ofBool (negated ^^ values.any (equal x)) := by
  have hmembers : values.map (equalTo equal (some x)) =
      values.map fun v => .ofBool (equal x v) :=
    List.map_congr_left fun v hv => by simp [equalTo, h v hv]
  cases negated with
  | false => rw [verdict, hmembers, Verdict.any_map_ofBool, Bool.false_xor]
  | true => rw [verdict, hmembers, Verdict.any_map_ofBool, Verdict.not_ofBool, Bool.true_xor]

/-- Where it has none, nothing is known. -/
theorem ColumnTest.verdict_isIn_none (negated : Bool) (h : values ≠ []) :
    (isIn negated values).verdict equal none = .unknown := by
  have hmembers : values.map (equalTo equal none) = values.map fun _ => .unknown :=
    List.map_congr_left fun v _ => by cases v <;> rfl
  cases negated <;> rw [verdict, hmembers, Verdict.any_map_unknown h]
  rfl

namespace ColumnCondition

variable (negated : Bool)

/-- On a row with a value in the column the verdict is known. -/
theorem verdict_listed_some (x : ρ) :
    (listed negated (values.filter fun v => !v.isNull) (values.any Value.isNull)).verdict equal
        (some x) =
      .ofBool (negated ^^ values.any fun v => !v.isNull && equal x v) := by
  have hmembers : ∀ v ∈ values.filter fun v => !v.isNull, v.isNull = false := fun v hv => by
    simpa using (List.mem_filter.1 hv).2
  have hany : (values.filter fun v => !v.isNull).any (equal x) =
      values.any fun v => !v.isNull && equal x v := List.any_filter
  have hlist : (ColumnTest.isIn negated (values.filter fun v => !v.isNull)).verdict equal
      (some x) = .ofBool (negated ^^ values.any fun v => !v.isNull && equal x v) := by
    rw [ColumnTest.verdict_isIn_some negated hmembers, hany]
  have hnull : (ColumnTest.isNull (α := Value) negated).verdict equal (some x) =
      .ofBool negated := by simp [ColumnTest.verdict]
  unfold listed
  split
  · next hempty =>
    rw [List.isEmpty_iff.1 hempty] at hany
    rw [verdict, hnull, ← hany, List.any_nil, Bool.xor_false]
  · split
    · cases negated with
      | false =>
        rw [if_neg Bool.false_ne_true, verdict, hlist, hnull, Verdict.or_ofBool, Bool.or_false]
      | true => rw [if_pos rfl, verdict, hlist, hnull, Verdict.and_ofBool, Bool.and_true]
    · rw [verdict, hlist]

/-- On a row with null in the column it is if the list has null in it. -/
theorem verdict_listed_none (h : values ≠ []) :
    (listed negated (values.filter fun v => !v.isNull) (values.any Value.isNull)).verdict equal
        (none : Option ρ) =
      if values.any Value.isNull then .ofBool !negated else .unknown := by
  have hnull : (ColumnTest.isNull (α := Value) negated).verdict equal (none : Option ρ) =
      .ofBool !negated := by simp [ColumnTest.verdict]
  by_cases hempty : values.filter (fun v => !v.isNull) = []
  · -- all there is in the list is null
    have hall : values.any Value.isNull = true := by
      obtain ⟨v, vs, rfl⟩ := List.exists_cons_of_ne_nil h
      have hv := List.filter_eq_nil_iff.1 hempty v List.mem_cons_self
      rw [List.any_cons, Bool.or_eq_true]
      exact .inl (by simpa using hv)
    rw [hempty, hall, if_pos rfl]
    exact hnull
  · have hlist : (ColumnTest.isIn negated (values.filter fun v => !v.isNull)).verdict equal
        none = .unknown := ColumnTest.verdict_isIn_none negated hempty
    rw [listed, if_neg (by simpa using hempty)]
    split
    · next hsome =>
      cases negated with
      | false => rw [if_neg Bool.false_ne_true, verdict, hlist, hnull]; rfl
      | true => rw [if_pos rfl, verdict, hlist, hnull]; rfl
    · rw [verdict, hlist]

end ColumnCondition

end

end SqlTree
