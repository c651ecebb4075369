import Mathlib.Algebra.Order.Field.Power
import Mathlib.Data.Rat.Cast.Order
import Mathlib.Tactic.FieldSimp
import Mathlib.Tactic.Linarith
import Mathlib.Tactic.Positivity
import SqlTree.Numeric.Double

/-!
# SqlTree.Proofs.Integers.Nearest

Rounding to a binary format gives the number of the format that is nearest.
The numbers of a format are laid out on grids `2 ^ q`, and a fraction is
rounded on the grid that has `precision` digits at its size
(`BinaryFormat.grid`).  On that grid no multiple is nearer
(`divNearestEven_nearest`); numbers on a finer grid lie below the power of
two in front of the fraction, which is on the grid itself
(`BinaryFormat.grid_nearest`).
-/

namespace SqlTree

/-! ## Values -/

/-- The rational number that a scaled number is. -/
def Scaled.toRat (s : Scaled) : ℚ := s.m * (2 : ℚ) ^ s.q

theorem Scaled.toRat_nonneg (s : Scaled) : 0 ≤ s.toRat := by
  rw [Scaled.toRat]
  positivity

/-- The number fits the format, and all its digits are used unless it lies
on the finest grid. -/
structure BinaryFormat.Holds (f : BinaryFormat) (s : Scaled) : Prop where
  digits : s.m < 2 ^ f.precision
  least : f.least ≤ s.q
  greatest : s.q ≤ f.greatest
  normal : s.m < 2 ^ (f.precision - 1) → s.q = f.least

/-! ## Powers of two -/

theorem two_zpow_eq_div (e : ℤ) : (2 : ℚ) ^ e = 2 ^ e.toNat / 2 ^ (-e).toNat := by
  rw [← zpow_natCast, ← zpow_natCast, ← zpow_sub₀ two_ne_zero]
  congr 1
  omega

/-- A fraction divided by a power of two, whose exponent may be negative. -/
theorem cast_div_two_zpow (num den : ℕ) (e : ℤ) :
    ((num * Nat.pow 2 (-e).toNat : ℕ) : ℚ) / (den * Nat.pow 2 e.toNat : ℕ) =
      num / den / 2 ^ e := by
  rw [two_zpow_eq_div]
  simp only [Nat.pow_eq, Nat.cast_mul, Nat.cast_pow, Nat.cast_ofNat]
  rw [div_div_div_eq]

theorem mul_pow_lt_mul_pow_iff {num den : ℕ} (hden : 0 < den) (e : ℤ) :
    num * Nat.pow 2 (-e).toNat < den * Nat.pow 2 e.toNat ↔ (num : ℚ) / den < 2 ^ e := by
  have hpos : (0 : ℚ) < 2 ^ e := by positivity
  have hscaled : 0 < den * Nat.pow 2 e.toNat := Nat.mul_pos hden (Nat.pow_pos two_pos)
  rw [← div_lt_one hpos, ← cast_div_two_zpow, div_lt_one (by exact_mod_cast hscaled), Nat.cast_lt]

/-- The powers of two around a fraction. -/
theorem floorLog2_spec {num den : ℕ} (hnum : 0 < num) (hden : 0 < den) :
    (2 : ℚ) ^ floorLog2 num den ≤ num / den ∧ (num : ℚ) / den < 2 ^ (floorLog2 num den + 1) := by
  have hdenq : (0 : ℚ) < den := by exact_mod_cast hden
  have hnumLow : (2 : ℚ) ^ (Nat.log2 num : ℤ) ≤ num := by
    exact_mod_cast Nat.log2_self_le hnum.ne'
  have hnumHigh : (num : ℚ) < 2 ^ (Nat.log2 num + 1 : ℤ) := by
    exact_mod_cast Nat.lt_log2_self
  have hdenLow : (2 : ℚ) ^ (Nat.log2 den : ℤ) ≤ den := by
    exact_mod_cast Nat.log2_self_le hden.ne'
  have hdenHigh : (den : ℚ) < 2 ^ (Nat.log2 den + 1 : ℤ) := by
    exact_mod_cast Nat.lt_log2_self
  -- the difference of the lengths is right or one too large
  have hlow : (2 : ℚ) ^ ((Nat.log2 num : ℤ) - Nat.log2 den - 1) ≤ num / den := by
    rw [le_div_iff₀ hdenq]
    calc (2 : ℚ) ^ ((Nat.log2 num : ℤ) - Nat.log2 den - 1) * den
        ≤ 2 ^ ((Nat.log2 num : ℤ) - Nat.log2 den - 1) * 2 ^ (Nat.log2 den + 1 : ℤ) := by
          exact mul_le_mul_of_nonneg_left hdenHigh.le (by positivity)
      _ = 2 ^ (Nat.log2 num : ℤ) := by
          rw [← zpow_add₀ two_ne_zero]
          congr 1
          omega
      _ ≤ num := hnumLow
  have hhigh : (num : ℚ) / den < 2 ^ ((Nat.log2 num : ℤ) - Nat.log2 den + 1) := by
    rw [div_lt_iff₀ hdenq]
    calc (num : ℚ) < 2 ^ (Nat.log2 num + 1 : ℤ) := hnumHigh
      _ = 2 ^ ((Nat.log2 num : ℤ) - Nat.log2 den + 1) * 2 ^ (Nat.log2 den : ℤ) := by
          rw [← zpow_add₀ two_ne_zero]
          congr 1
          omega
      _ ≤ 2 ^ ((Nat.log2 num : ℤ) - Nat.log2 den + 1) * den :=
          mul_le_mul_of_nonneg_left hdenLow (by positivity)
  unfold floorLog2
  simp only [mul_pow_lt_mul_pow_iff hden]
  split
  · next hlt => exact ⟨hlow, by rwa [sub_add_cancel]⟩
  · next hle => exact ⟨not_lt.1 hle, hhigh⟩

/-! ## Rounding to whole numbers -/

/-- Rounding to nearest moves a quotient by half a unit at most. -/
theorem two_mul_le_divNearestEven (num den : ℕ) (h : 0 < den) :
    2 * num ≤ 2 * (divNearestEven num den * den) + den := by
  have hdiv := Nat.div_add_mod num den
  have hmod := Nat.mod_lt num h
  have hcomm : den * (num / den) = num / den * den := Nat.mul_comm _ _
  simp only [divNearestEven]
  split
  · next hlt =>
    have := Nat.compare_eq_lt.1 hlt
    omega
  · rw [Nat.add_mul]
    omega
  · next heq =>
    have := Nat.compare_eq_eq.1 heq
    split
    · omega
    · rw [Nat.add_mul]
      omega

theorem abs_divNearestEven_sub_le (num : ℕ) {den : ℕ} (h : 0 < den) :
    |(divNearestEven num den : ℚ) - num / den| ≤ 1 / 2 := by
  have hden : (0 : ℚ) < den := by exact_mod_cast h
  have hlow : 2 * (num : ℚ) ≤ 2 * (divNearestEven num den * den) + den := by
    exact_mod_cast two_mul_le_divNearestEven num den h
  have hhigh : 2 * ((divNearestEven num den : ℚ) * den) ≤ 2 * num + den := by
    exact_mod_cast two_mul_divNearestEven_le num den h
  have hnum : (num : ℚ) / den * den = num := div_mul_cancel₀ _ hden.ne'
  rw [abs_le]
  constructor <;> nlinarith

/-- No whole number is nearer to a quotient. -/
theorem divNearestEven_nearest (num : ℕ) {den : ℕ} (h : 0 < den) (k : ℤ) :
    |(divNearestEven num den : ℚ) - num / den| ≤ |(k : ℚ) - num / den| := by
  by_cases hk : k = divNearestEven num den
  · rw [hk]
    exact le_rfl
  · have hapart : (1 : ℚ) ≤ |(k : ℚ) - divNearestEven num den| := by
      exact_mod_cast Int.one_le_abs (sub_ne_zero.2 hk)
    have hhalf := abs_divNearestEven_sub_le num h
    have htriangle := abs_sub_le (k : ℚ) (num / den) (divNearestEven num den)
    rw [abs_sub_comm ((num : ℚ) / den)] at htriangle
    linarith

namespace BinaryFormat

/-! ## Rounding on a grid -/

section

variable (f : BinaryFormat) (num den : ℕ)

/-- The grid on which a fraction of this size uses all digits, or the finest
one. -/
def grid : ℤ := max f.least (floorLog2 num den - (f.precision - 1))

/-- The multiple of the grid that a fraction is rounded to. -/
def multiple : ℕ :=
  divNearestEven (num * Nat.pow 2 (-f.grid num den).toNat)
    (den * Nat.pow 2 (f.grid num den).toNat)

end

variable {f : BinaryFormat} {num den : ℕ}

theorem abs_mul_zpow_sub (x a : ℚ) (q : ℤ) : |x * 2 ^ q - a| = |x - a / 2 ^ q| * 2 ^ q := by
  have hpos : (0 : ℚ) < 2 ^ q := by positivity
  rw [← abs_of_pos hpos, ← abs_mul, abs_of_pos hpos, sub_mul, div_mul_cancel₀ _ hpos.ne']

/-- No multiple of the grid is nearer. -/
theorem multiple_nearest (f : BinaryFormat) (num : ℕ) (hden : 0 < den) (k : ℤ) :
    |(f.multiple num den : ℚ) * 2 ^ f.grid num den - num / den| ≤
      |(k : ℚ) * 2 ^ f.grid num den - num / den| := by
  have hscaled : 0 < den * Nat.pow 2 (f.grid num den).toNat :=
    Nat.mul_pos hden (Nat.pow_pos two_pos)
  have hnearest := divNearestEven_nearest (num * Nat.pow 2 (-f.grid num den).toNat) hscaled k
  rw [cast_div_two_zpow] at hnearest
  rw [abs_mul_zpow_sub, abs_mul_zpow_sub]
  exact mul_le_mul_of_nonneg_right hnearest (by positivity)

/-- A grid that is not the finest one holds the power of two in front of the
fraction. -/
theorem two_zpow_floorLog2 (hp : 1 ≤ f.precision)
    (hgrid : f.grid num den = floorLog2 num den - (f.precision - 1)) :
    (2 : ℚ) ^ floorLog2 num den =
      ((2 ^ (f.precision - 1) : ℕ) : ℤ) * (2 : ℚ) ^ f.grid num den := by
  push_cast
  rw [← zpow_natCast, ← zpow_add₀ two_ne_zero]
  congr 1
  omega

/-- A finer grid is not needed: what the format holds of it lies below the
power of two in front of the fraction. -/
theorem grid_nearest (hp : 1 ≤ f.precision) (hnum : 0 < num) (hden : 0 < den) {t : Scaled}
    (hdigits : t.m < 2 ^ f.precision) (hleast : f.least ≤ t.q) :
    |(f.multiple num den : ℚ) * 2 ^ f.grid num den - num / den| ≤ |t.toRat - num / den| := by
  by_cases hgrid : f.grid num den ≤ t.q
  · -- on the grid itself
    have hmultiple : t.toRat =
        ((t.m * 2 ^ (t.q - f.grid num den).toNat : ℕ) : ℤ) * (2 : ℚ) ^ f.grid num den := by
      rw [Scaled.toRat]
      push_cast
      rw [← zpow_natCast, Int.toNat_of_nonneg (by omega), mul_assoc, ← zpow_add₀ two_ne_zero,
        sub_add_cancel]
    rw [hmultiple]
    exact multiple_nearest _ _ hden _
  · have hsize : f.grid num den = floorLog2 num den - (f.precision - 1) := by
      unfold grid at hgrid ⊢
      omega
    have hbelow : t.toRat ≤ 2 ^ floorLog2 num den := by
      have hm : (t.m : ℚ) ≤ 2 ^ (f.precision : ℤ) := by exact_mod_cast hdigits.le
      calc t.toRat ≤ 2 ^ (f.precision : ℤ) * 2 ^ t.q :=
            mul_le_mul_of_nonneg_right hm (by positivity)
        _ = 2 ^ (f.precision + t.q : ℤ) := (zpow_add₀ two_ne_zero _ _).symm
        _ ≤ 2 ^ floorLog2 num den := zpow_le_zpow_right₀ one_le_two (by omega)
    have hfraction := (floorLog2_spec hnum hden).1
    calc |(f.multiple num den : ℚ) * 2 ^ f.grid num den - num / den|
        ≤ |(2 : ℚ) ^ floorLog2 num den - num / den| := by
          rw [two_zpow_floorLog2 hp hsize]
          exact multiple_nearest _ _ hden _
      _ = num / den - 2 ^ floorLog2 num den := by
          rw [abs_sub_comm, abs_of_nonneg (by linarith)]
      _ ≤ num / den - t.toRat := by linarith
      _ ≤ |t.toRat - num / den| := by
          rw [abs_sub_comm]
          exact le_abs_self _

/-- The size of the fraction on its grid. -/
theorem lt_precision_mul (hnum : 0 < num) (hden : 0 < den) :
    (num : ℚ) / den < ((2 ^ f.precision : ℕ) : ℤ) * (2 : ℚ) ^ f.grid num den := by
  calc (num : ℚ) / den < 2 ^ (floorLog2 num den + 1) := (floorLog2_spec hnum hden).2
    _ ≤ 2 ^ (f.precision + f.grid num den : ℤ) := by
        refine zpow_le_zpow_right₀ one_le_two ?_
        unfold grid
        omega
    _ = ((2 ^ f.precision : ℕ) : ℤ) * (2 : ℚ) ^ f.grid num den := by
        rw [zpow_add₀ two_ne_zero]
        push_cast
        rw [zpow_natCast]

theorem multiple_le (hnum : 0 < num) (hden : 0 < den) : f.multiple num den ≤ 2 ^ f.precision := by
  have hpos : (0 : ℚ) < 2 ^ f.grid num den := by positivity
  have hsize := lt_precision_mul (f := f) hnum hden
  have hnearest := multiple_nearest f num hden (2 ^ f.precision : ℕ)
  rw [abs_of_nonneg (sub_nonneg.2 hsize.le)] at hnearest
  have hle := sub_le_sub_iff_right _ |>.1 ((le_abs_self _).trans hnearest)
  exact_mod_cast le_of_mul_le_mul_right hle hpos

/-- Above the finest grid all digits are used. -/
theorem le_multiple (hp : 1 ≤ f.precision) (hnum : 0 < num) (hden : 0 < den)
    (hgrid : f.least < f.grid num den) : 2 ^ (f.precision - 1) ≤ f.multiple num den := by
  have hpos : (0 : ℚ) < 2 ^ f.grid num den := by positivity
  have hsize : ((2 ^ (f.precision - 1) : ℕ) : ℤ) * (2 : ℚ) ^ f.grid num den ≤ num / den := by
    rw [← two_zpow_floorLog2 hp (by unfold grid at hgrid ⊢; omega)]
    exact (floorLog2_spec hnum hden).1
  have hnearest := multiple_nearest f num hden (2 ^ (f.precision - 1) : ℕ)
  rw [abs_sub_comm, abs_sub_comm (_ * _),
    abs_of_nonneg (a := _ - ((_ : ℤ) : ℚ) * _) (sub_nonneg.2 hsize)] at hnearest
  have hle := sub_le_sub_iff_left _ |>.1 ((le_abs_self _).trans hnearest)
  exact_mod_cast le_of_mul_le_mul_right hle hpos

/-! ## Rounding to a format -/

/-- A multiple with one digit too many is written on the next grid. -/
theorem nearest_eq (hnum : 0 < num) :
    f.nearest num den =
      if f.multiple num den = 2 ^ f.precision then
        if f.greatest < f.grid num den + 1 then none
        else some ⟨2 ^ (f.precision - 1), f.grid num den + 1⟩
      else if f.greatest < f.grid num den then none
      else some ⟨f.multiple num den, f.grid num den⟩ := by
  have hm : divNearestEven (num * Nat.pow 2 (-f.grid num den).toNat)
      (den * Nat.pow 2 (f.grid num den).toNat) = f.multiple num den := rfl
  have hq : max f.least (floorLog2 num den - (f.precision - 1)) = f.grid num den := rfl
  simp only [nearest, if_neg hnum.ne', hq, hm]
  split
  · next hcarry => exact (if_pos hcarry).symm
  · next hcarry => exact (if_neg hcarry).symm

/-- What a fraction is rounded to is a number of the format, the multiple of
its grid. -/
theorem holds_of_nearest (hp : 1 ≤ f.precision) (hnum : 0 < num) (hden : 0 < den) {s : Scaled}
    (h : f.nearest num den = some s) :
    f.Holds s ∧ s.toRat = f.multiple num den * 2 ^ f.grid num den := by
  have hle := multiple_le (f := f) hnum hden
  have hleast : f.least ≤ f.grid num den := le_max_left _ _
  rw [nearest_eq hnum] at h
  split at h
  · next hcarry =>
    split at h <;> cases h
    next hgreatest =>
    refine ⟨⟨Nat.pow_lt_pow_right one_lt_two (by omega), hleast.trans (Int.le_add_one le_rfl),
      not_lt.1 hgreatest,
      fun hlt => absurd hlt (lt_irrefl _)⟩, ?_⟩
    rw [Scaled.toRat, hcarry]
    push_cast
    rw [← zpow_natCast, ← zpow_natCast, ← zpow_add₀ two_ne_zero, ← zpow_add₀ two_ne_zero]
    congr 1
    omega
  · next hcarry =>
    split at h <;> cases h
    next hgreatest =>
    refine ⟨⟨lt_of_le_of_ne hle hcarry, hleast, not_lt.1 hgreatest, fun hlt => ?_⟩, rfl⟩
    by_contra hne
    exact absurd (le_multiple hp hnum hden (lt_of_le_of_ne hleast (Ne.symm hne))) (not_le.2 hlt)

theorem nearest_isSome (hnum : 0 < num) (h : f.grid num den < f.greatest) :
    ∃ s, f.nearest num den = some s := by
  rw [nearest_eq hnum]
  split
  · exact ⟨_, if_neg (by omega)⟩
  · exact ⟨_, if_neg (by omega)⟩

/-- No number of the format is nearer to a fraction than what it is rounded
to. -/
theorem nearest_nearest (hp : 1 ≤ f.precision) (hnum : 0 < num) (hden : 0 < den) {s t : Scaled}
    (h : f.nearest num den = some s) (ht : f.Holds t) :
    |s.toRat - num / den| ≤ |t.toRat - num / den| := by
  rw [(holds_of_nearest hp hnum hden h).2]
  exact grid_nearest hp hnum hden ht.digits ht.least

end BinaryFormat

end SqlTree
