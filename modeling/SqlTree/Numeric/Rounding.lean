/-!
# SqlTree.Numeric.Rounding

Rounding an exact fraction to a binary format.  A `BinaryFormat` has a
precision and a least and a greatest exponent; `BinaryFormat.nearest`
takes `num / den` to the pair `m * 2 ^ q` of that format which is nearest
to it, ties to the even neighbour, and answers `none` when the result lies
beyond the largest finite number.  Everything is exact arithmetic on
natural numbers, so nothing here depends on the machine's own floating
point.
-/

namespace SqlTree

/-- The nonnegative numbers `m * 2 ^ q` with `m < 2 ^ precision` and
`least ≤ q ≤ greatest`. -/
structure BinaryFormat where
  precision : Nat
  least : Int
  greatest : Int

/-- Double precision. -/
def binary64 : BinaryFormat := ⟨53, -1074, 971⟩

/-- Single precision. -/
def binary32 : BinaryFormat := ⟨24, -149, 104⟩

/-- A nonnegative number `m * 2 ^ q`. -/
structure Scaled where
  m : Nat
  q : Int
deriving DecidableEq

/-- The quotient nearest to `num / den`, ties to the even one. -/
def divNearestEven (num den : Nat) : Nat :=
  let k := num / den
  match compare (2 * (num % den)) den with
  | .lt => k
  | .gt => k + 1
  | .eq => if k % 2 = 0 then k else k + 1

/-- The greatest `e` with `2 ^ e ≤ num / den`, for positive arguments: the
difference of the two binary lengths is at most one too large. -/
def floorLog2 (num den : Nat) : Int :=
  let e : Int := (Nat.log2 num : Int) - Nat.log2 den
  if num * Nat.pow 2 (-e).toNat < den * Nat.pow 2 e.toNat then e - 1 else e

/-- The number of the format nearest to `num / den`, or `none` when it is
too large for the format. -/
def BinaryFormat.nearest (f : BinaryFormat) (num den : Nat) : Option Scaled :=
  if num = 0 then some ⟨0, f.least⟩
  else
    let q := max f.least (floorLog2 num den - (f.precision - 1))
    let m := divNearestEven (num * Nat.pow 2 (-q).toNat) (den * Nat.pow 2 q.toNat)
    let (m, q) := if m = Nat.pow 2 f.precision then (Nat.pow 2 (f.precision - 1), q + 1) else (m, q)
    if f.greatest < q then none else some ⟨m, q⟩

/-- The number of the format nearest to `digits * 10 ^ exponent`.  The
logarithm of two lies between 0.30102 and 0.30103, so the binary length of
the digits bounds their number from both sides; a power of ten that decides
the result by itself is never computed.  The two cuts suit every format
whose numbers lie between `10 ^ -330` and `10 ^ 309`. -/
def BinaryFormat.ofDecimal (f : BinaryFormat) (digits : Nat) (exponent : Int) : Option Scaled :=
  if digits = 0 then some ⟨0, f.least⟩
  else if (digits.log2 * 30102 / 100000 : Nat) + exponent > 309 then none
  else if (digits.log2 * 30103 / 100000 + 1 : Nat) + exponent < -330 then some ⟨0, f.least⟩
  else f.nearest (digits * Nat.pow 10 exponent.toNat) (Nat.pow 10 (-exponent).toNat)

/-! ## Laws -/

/-- Rounding to nearest moves a quotient by half a unit at most. -/
theorem two_mul_divNearestEven_le (num den : Nat) (h : 0 < den) :
    2 * (divNearestEven num den * den) ≤ 2 * num + den := by
  have hd := Nat.div_add_mod num den
  have hm := Nat.mod_lt num h
  have hc : den * (num / den) = num / den * den := Nat.mul_comm _ _
  simp only [divNearestEven]
  split
  · omega
  · rename_i hgt
    have := Nat.compare_eq_gt.1 hgt
    rw [Nat.add_mul]; omega
  · rename_i heq
    have := Nat.compare_eq_eq.1 heq
    split
    · omega
    · rw [Nat.add_mul]; omega

end SqlTree
