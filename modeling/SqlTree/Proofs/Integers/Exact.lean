import Mathlib.Tactic.Ring
import SqlTree.Proofs.Integers.Nearest
import SqlTree.Value

/-!
# SqlTree.Proofs.Integers.Exact

Integers as values.  An integer that 64 bits do not hold becomes the double
nearest to it (`Double.ofInt_nearest`), which is the integer itself only if
some double is (`Double.toRat_ofInt_eq_iff`).  Of the unsigned integers that
are too large for 64 bits with a sign, those are the multiples of 2048
(`Value.ofInt_denotes_iff`).
-/

namespace SqlTree

namespace Double

/-- The rational number that a finite double is. -/
def toRat (x : Double) : ℚ := if x.negative then -x.magnitude.toRat else x.magnitude.toRat

theorem abs_toRat (x : Double) : |x.toRat| = x.magnitude.toRat := by
  rw [toRat]
  split
  · rw [abs_neg, abs_of_nonneg x.magnitude.toRat_nonneg]
  · exact abs_of_nonneg x.magnitude.toRat_nonneg

/-! ## Fields -/

theorem holds_magnitude {x : Double} (h : x.isFinite = true) : binary64.Holds x.magnitude := by
  have hfield : x.exponentField < 2047 := by simpa [isFinite] using h
  have hfraction : x.fraction < exponentWeight := Nat.mod_lt _ (by decide)
  unfold exponentWeight at hfraction
  unfold magnitude
  split
  · exact ⟨hfraction.trans (by decide), le_rfl, by simp [binary64], fun _ => rfl⟩
  · constructor <;> simp only [binary64, exponentWeight] <;> omega

theorem ofFields_unsigned (negative : Bool) {unsigned : ℕ} (h : unsigned < signWeight) :
    (ofFields negative unsigned).unsigned = unsigned ∧
      (ofFields negative unsigned).negative = negative := by
  unfold signWeight at h
  have hbits : (ofFields negative unsigned).bits.toNat =
      (if negative then signWeight else 0) + unsigned := by
    refine UInt64.toNat_ofNat_of_lt' ?_
    cases negative <;> simp [signWeight, UInt64.size] <;> omega
  unfold Double.unsigned Double.negative
  rw [hbits]
  cases negative <;> simp [signWeight] <;> omega

/-- The way back from the value of a double to its bits. -/
theorem ofScaled_magnitude (negative : Bool) {s : Scaled} (h : binary64.Holds s) :
    (ofScaled negative s).magnitude = s ∧ (ofScaled negative s).negative = negative ∧
      (ofScaled negative s).isFinite = true := by
  obtain ⟨m, q⟩ := s
  obtain ⟨hdigits, hleast, hgreatest, hnormal⟩ := h
  simp only [binary64] at hdigits hleast hgreatest hnormal
  unfold ofScaled
  split
  · next hsmall =>
    obtain rfl : q = -1074 := hnormal hsmall
    simp only [exponentWeight] at hsmall
    have hbits : m < signWeight := by unfold signWeight; omega
    obtain ⟨hunsigned, hnegative⟩ := ofFields_unsigned negative hbits
    have hfield : (ofFields negative m).exponentField = 0 := by
      rw [exponentField, hunsigned, exponentWeight]
      omega
    refine ⟨?_, hnegative, by rw [isFinite, hfield]; rfl⟩
    rw [magnitude, if_pos hfield, fraction, hunsigned, exponentWeight, Nat.mod_eq_of_lt hsmall]
  · next hlarge =>
    simp only [exponentWeight] at hlarge
    have hbits : (q + 1074).toNat * exponentWeight + m < signWeight := by
      unfold exponentWeight signWeight
      omega
    obtain ⟨hunsigned, hnegative⟩ := ofFields_unsigned negative hbits
    have hfield : (ofFields negative ((q + 1074).toNat * exponentWeight + m)).exponentField =
        (q + 1074).toNat + 1 := by
      rw [exponentField, hunsigned, exponentWeight]
      omega
    refine ⟨?_, hnegative, by rw [isFinite, hfield]; simp; omega⟩
    rw [magnitude, if_neg (hfield ▸ Nat.succ_ne_zero _), hfield, fraction, hunsigned,
      exponentWeight]
    congr 1 <;> omega

/-! ## Rounding integers -/

/-- A whole number in range is rounded as the fraction that it is. -/
theorem ofDecimal_whole {digits : ℕ} (hne : digits ≠ 0) (h : digits.log2 < 1023) :
    binary64.ofDecimal digits 0 = binary64.nearest digits 1 := by
  have hone : Nat.pow 10 (0 : ℤ).toNat = 1 ∧ Nat.pow 10 (-(0 : ℤ)).toNat = 1 := ⟨rfl, rfl⟩
  rw [BinaryFormat.ofDecimal, if_neg hne, if_neg (by omega), if_neg (by omega), hone.1, hone.2,
    Nat.mul_one]

theorem grid_whole_lt {digits : ℕ} (h : digits.log2 < 1023) :
    binary64.grid digits 1 < binary64.greatest := by
  have hlog : floorLog2 digits 1 ≤ digits.log2 := by
    have hone : Nat.log2 1 = 0 := by decide
    unfold floorLog2
    dsimp only
    split <;> omega
  simp only [BinaryFormat.grid, binary64]
  omega

/-- The double of an integer in range is the number of the format that is
nearest to its size, with its sign. -/
theorem ofInt_eq_ofScaled {n : ℤ} (h : n.natAbs.log2 < 1023) :
    ∃ s, ofInt n = ofScaled (n < 0) s ∧ binary64.Holds s ∧
      ∀ t, binary64.Holds t → |s.toRat - n.natAbs| ≤ |t.toRat - n.natAbs| := by
  rcases n.natAbs.eq_zero_or_pos with hzero | hpos
  · refine ⟨⟨0, -1074⟩, ?_, ⟨by decide, le_rfl, by decide, fun _ => rfl⟩, fun t _ => ?_⟩
    · rw [ofInt, ofDecimal, BinaryFormat.ofDecimal, if_pos hzero]
      rfl
    · rw [hzero]
      simp [Scaled.toRat]
      positivity
  · obtain ⟨s, hs⟩ := BinaryFormat.nearest_isSome hpos (grid_whole_lt h)
    refine ⟨s, ?_, (BinaryFormat.holds_of_nearest (by decide) hpos one_pos hs).1, fun t ht => ?_⟩
    · rw [ofInt, ofDecimal, ofDecimal_whole hpos.ne' h, hs]
    · have hnearest := BinaryFormat.nearest_nearest (by decide) hpos one_pos hs ht
      rwa [Nat.cast_one, div_one] at hnearest

/-- No finite double is nearer to an integer than the double that it
becomes. -/
theorem ofInt_nearest {n : ℤ} (h : n.natAbs.log2 < 1023) :
    (ofInt n).isFinite = true ∧
      ∀ y : Double, y.isFinite = true → |(ofInt n).toRat - n| ≤ |y.toRat - n| := by
  obtain ⟨s, hs, hholds, hnearest⟩ := ofInt_eq_ofScaled h
  obtain ⟨hmagnitude, hnegative, hfinite⟩ := ofScaled_magnitude (n < 0) hholds
  have hdistance : |(ofInt n).toRat - n| = |s.toRat - n.natAbs| := by
    rw [toRat, hs, hmagnitude, hnegative, Nat.cast_natAbs, Int.cast_abs]
    rcases lt_or_ge n 0 with hn | hn
    · have hsize : |(n : ℚ)| = -n := abs_of_neg (by exact_mod_cast hn)
      rw [if_pos (by simpa using hn), hsize, abs_sub_comm, sub_neg_eq_add, sub_neg_eq_add, add_comm]
    · have hsize : |(n : ℚ)| = n := abs_of_nonneg (by exact_mod_cast hn)
      rw [if_neg (by simpa using hn), hsize]
  refine ⟨hs ▸ hfinite, fun y hy => ?_⟩
  calc |(ofInt n).toRat - n| = |s.toRat - n.natAbs| := hdistance
    _ ≤ |y.magnitude.toRat - n.natAbs| := hnearest _ (holds_magnitude hy)
    _ = abs (|y.toRat| - |(n : ℚ)|) := by rw [abs_toRat, Nat.cast_natAbs, Int.cast_abs]
    _ ≤ |y.toRat - n| := abs_abs_sub_abs_le _ _

/-- An integer is kept just if some finite double is that integer. -/
theorem toRat_ofInt_eq_iff {n : ℤ} (h : n.natAbs.log2 < 1023) :
    (ofInt n).toRat = n ↔ ∃ y : Double, y.isFinite = true ∧ y.toRat = n := by
  obtain ⟨hfinite, hnearest⟩ := ofInt_nearest h
  refine ⟨fun hexact => ⟨_, hfinite, hexact⟩, fun ⟨y, hy, hexact⟩ => ?_⟩
  have hzero := hnearest y hy
  rw [hexact, sub_self, abs_zero] at hzero
  exact sub_eq_zero.1 (abs_nonpos_iff.1 hzero)

/-- From `2 ^ 63` on, below `2 ^ 64`, the doubles are the multiples of
2048. -/
theorem exists_toRat_eq_iff {n : ℤ} (hlow : 2 ^ 63 ≤ n) (hhigh : n < 2 ^ 64) :
    (∃ y : Double, y.isFinite = true ∧ y.toRat = n) ↔ 2048 ∣ n := by
  constructor
  · rintro ⟨y, hy, hexact⟩
    obtain ⟨hdigits, -, -, -⟩ := holds_magnitude hy
    have hvalue : (y.magnitude.m : ℚ) * 2 ^ y.magnitude.q = n := by
      rw [← Scaled.toRat, ← abs_toRat, hexact]
      exact abs_of_nonneg (by exact_mod_cast le_trans (by decide) hlow)
    have hgrid : 11 ≤ y.magnitude.q := by
      have hsize : (2 : ℚ) ^ (63 : ℤ) < 2 ^ (53 + y.magnitude.q) := by
        calc (2 : ℚ) ^ (63 : ℤ) ≤ n := by exact_mod_cast hlow
          _ = y.magnitude.m * 2 ^ y.magnitude.q := hvalue.symm
          _ < 2 ^ (53 : ℤ) * 2 ^ y.magnitude.q :=
            mul_lt_mul_of_pos_right (by exact_mod_cast hdigits) (by positivity)
          _ = 2 ^ (53 + y.magnitude.q) := (zpow_add₀ two_ne_zero _ _).symm
      have hlog := (zpow_lt_zpow_iff_right₀ one_lt_two).1 hsize
      omega
    obtain ⟨k, hk⟩ := Int.eq_ofNat_of_zero_le (a := y.magnitude.q - 11) (by omega)
    have hmultiple : n = 2048 * (y.magnitude.m * 2 ^ k) := by
      have hq : y.magnitude.q = 11 + k := by omega
      rw [hq, zpow_add₀ two_ne_zero, zpow_natCast] at hvalue
      have hcast : ((2048 * (y.magnitude.m * 2 ^ k) : ℤ) : ℚ) = n := by
        rw [← hvalue]
        push_cast
        ring
      exact_mod_cast hcast.symm
    exact ⟨_, hmultiple⟩
  · rintro ⟨k, rfl⟩
    have hholds : binary64.Holds ⟨k.toNat, 11⟩ := by
      constructor <;> simp only [binary64] <;> omega
    obtain ⟨hmagnitude, hnegative, hfinite⟩ := ofScaled_magnitude false hholds
    refine ⟨_, hfinite, ?_⟩
    have hk : ((k.toNat : ℕ) : ℚ) = k := by exact_mod_cast Int.toNat_of_nonneg (by omega)
    rw [toRat, hnegative, if_neg Bool.false_ne_true, hmagnitude, Scaled.toRat, hk]
    push_cast
    ring

end Double

/-! ## Integers as values -/

namespace Value

/-- The value is the integer. -/
def Denotes : Value → ℤ → Prop
  | .int k, n => k.toInt = n
  | .float x, n => x.isFinite = true ∧ x.toRat = n
  | _, _ => False

variable {n : ℤ}

theorem ofInt_of_max_lt (h : Int64.maxValue.toInt < n) : ofInt n = .float (Double.ofInt n) :=
  if_neg fun hrange => absurd hrange.2 (not_le.2 h)

theorem isNull_ofInt (n : ℤ) : (ofInt n).isNull = false := by
  rw [ofInt]
  split <;> rfl

theorem two_pow_le (h : Int64.maxValue.toInt < n) : 2 ^ 63 ≤ n := by
  rw [Int64.toInt_maxValue] at h
  omega

/-- An unsigned integer of 64 bits is in the range of doubles. -/
theorem log2_natAbs_lt (h : Int64.maxValue.toInt < n) (hhigh : n < 2 ^ 64) :
    n.natAbs.log2 < 1023 := by
  have hlow := two_pow_le h
  have hbelow : n.natAbs.log2 < 64 := (Nat.log2_lt (by omega)).2 (by omega)
  omega

/-- Integers that 64 bits hold are kept.  Of the larger ones up to `2 ^ 64`
the multiples of 2048 are. -/
theorem ofInt_denotes_iff (hlow : Int64.minValue.toInt ≤ n) (hhigh : n < 2 ^ 64) :
    (ofInt n).Denotes n ↔ n ≤ Int64.maxValue.toInt ∨ 2048 ∣ n := by
  rcases le_or_gt n Int64.maxValue.toInt with hn | hn
  · rw [ofInt_eq_int ⟨hlow, hn⟩]
    exact iff_of_true (toInt_ofInt ⟨hlow, hn⟩) (.inl hn)
  · have hlog := log2_natAbs_lt hn hhigh
    rw [ofInt_of_max_lt hn, Denotes, or_iff_right (not_le.2 hn),
      and_iff_right (Double.ofInt_nearest hlog).1, Double.toRat_ofInt_eq_iff hlog,
      Double.exists_toRat_eq_iff (two_pow_le hn) hhigh]

end Value

end SqlTree
