import SqlTree.Numeric.Double

/-!
# SqlTree.Numeric.Shortest

The fewest decimal digits that read back as a given double.  A double
stands for an interval of real numbers, those that round to it; the ends
belong to it iff its significand is even.  `Double.shortest` looks for a
decimal in that interval on coarser grids first: with one digit, with two,
and so on.  On a grid only the two neighbours of the value can be the
nearest hit, so two tests per grid decide it (`Candidate.readsBack`).
Seventeen digits always suffice; should none of the grids hold a hit, the
exact decimal value is the answer, never a guess.
-/

namespace SqlTree

/-- The number `digits * 10 ^ exponent`. -/
structure Decimal where
  digits : Nat
  exponent : Int
deriving DecidableEq

/-- Which of two equally near decimals is taken. -/
inductive Tie where
  | up
  | even
deriving DecidableEq

namespace Decimal

/-- Compares `a * 10 ^ i` with `n * 2 ^ j`. -/
def compareScaled (a : Nat) (i : Int) (n : Nat) (j : Int) : Ordering :=
  compare (a * Nat.pow 10 i.toNat * Nat.pow 2 (-j).toNat) (n * Nat.pow 2 j.toNat * Nat.pow 10 (-i).toNat)

/-- The same number without trailing zeros among its digits; `fuel` bounds
the number of zeros taken away. -/
def trimZeros (fuel : Nat) (d : Decimal) : Decimal :=
  match fuel with
  | 0 => d
  | fuel + 1 => if d.digits ≠ 0 ∧ d.digits % 10 = 0 then trimZeros fuel ⟨d.digits / 10, d.exponent + 1⟩ else d

/-- The exact decimal value of a binary number. -/
def ofScaled (s : Scaled) : Decimal :=
  if 0 ≤ s.q then ⟨s.m * Nat.pow 2 s.q.toNat, 0⟩ else ⟨s.m * Nat.pow 5 (-s.q).toNat, s.q⟩

end Decimal

namespace Scaled

/-- Half of the gap below is half as wide at a power of two above the
subnormal range. -/
def narrowBelow (s : Scaled) : Bool := s.m == Double.exponentWeight && s.q != -1074

/-- The decimal lies among the reals that round to `s`, to nearest and ties
to even. -/
def readsBack (s : Scaled) (d : Decimal) : Bool :=
  let low := Decimal.compareScaled d.digits d.exponent (if s.narrowBelow then 4 * s.m - 1 else 4 * s.m - 2) (s.q - 2)
  let high := Decimal.compareScaled d.digits d.exponent (4 * s.m + 2) (s.q - 2)
  let closed := s.m % 2 == 0
  (low == .gt || (closed && low == .eq)) && (high == .lt || (closed && high == .eq))

/-- The greatest multiple of `10 ^ e` that is at most `s`. -/
def floorAt (s : Scaled) (e : Int) : Nat :=
  s.m * Nat.pow 2 s.q.toNat * Nat.pow 10 (-e).toNat / (Nat.pow 2 (-s.q).toNat * Nat.pow 10 e.toNat)

/-- The lower neighbour on the grid of `10 ^ e` is nearer than the upper
one (`lt`), farther (`gt`), or as far (`eq`). -/
def compareToMiddle (s : Scaled) (e : Int) : Ordering :=
  (Decimal.compareScaled (2 * s.floorAt e + 1) e (2 * s.m) s.q).swap

/-- The neighbour of `s` on the grid of `10 ^ e` that reads back, the
nearer one where both do. -/
def onGrid (s : Scaled) (tie : Tie) (e : Int) : Option Decimal :=
  let below : Decimal := ⟨s.floorAt e, e⟩
  let above : Decimal := ⟨s.floorAt e + 1, e⟩
  match s.readsBack below, s.readsBack above with
  | false, false => none
  | true, false => some below
  | false, true => some above
  | true, true =>
    match s.compareToMiddle e, tie with
    | .lt, _ => some below
    | .gt, _ => some above
    | .eq, .up => some above
    | .eq, .even => some (if below.digits % 2 = 0 then below else above)

/-- The first grid with a hit, from the exponent `e` downwards. -/
def search (s : Scaled) (tie : Tie) : Nat → Int → Decimal
  | 0, _ => Decimal.ofScaled s
  | fuel + 1, e =>
    match s.onGrid tie e with
    | some d => d
    | none => search s tie fuel (e - 1)

/-- The greatest `e` with `10 ^ e ≤ s`, for a positive number.  The guess
from the binary length is low by one at most. -/
def floorLog10 (s : Scaled) : Int :=
  let guess := ((s.m.log2 : Int) + s.q) * 30103 / 100000 - 1
  let reached (e : Int) : Bool := Decimal.compareScaled 1 e s.m s.q != .gt
  if reached (guess + 2) then guess + 2 else if reached (guess + 1) then guess + 1 else guess

end Scaled

/-- The shortest decimal that reads back as the absolute value of `x`, the
nearest of those, without trailing zeros. -/
def Double.shortest (tie : Tie) (x : Double) : Decimal :=
  let s := x.magnitude
  if s.m = 0 then ⟨0, 0⟩ else (s.search tie 18 s.floorLog10).trimZeros 400

/-! ## Examples

The last pair is a tie: the value lies in the middle between the two. -/

example : (Double.ofDecimal false 1 (-1)).shortest .even = ⟨1, -1⟩ := by decide +kernel
example : (Double.ofDecimal false 1 23).shortest .even = ⟨1, 23⟩ := by decide +kernel
example : (Double.mk 1).shortest .even = ⟨5, -324⟩ := by decide +kernel
example : (Double.mk 0x7FEFFFFFFFFFFFFF).shortest .up = ⟨17976931348623157, 292⟩ := by decide +kernel
example : (Double.mk 0x3E60000000000000).shortest .up = ⟨29802322387695313, -24⟩ := by decide +kernel
example : (Double.mk 0x3E60000000000000).shortest .even = ⟨29802322387695312, -24⟩ := by decide +kernel

end SqlTree
