import SqlTree.Numeric.Rounding

/-!
# SqlTree.Numeric.Double

Double precision numbers as bit patterns.  A `Double` is its 64 bits, so
equality is decidable, a negative zero differs from zero, and two numbers
are never confused by a comparison that the machine defines.  The value of
a finite number is the `Scaled` number of `Double.magnitude` with the sign
`Double.negative`; `Double.ofScaled` is the way back.
-/

namespace SqlTree

/-- A double precision number. -/
structure Double where
  bits : UInt64
deriving DecidableEq, Inhabited

namespace Double

/-- Weight of the sign bit. -/
def signWeight : Nat := 0x8000000000000000

/-- Weight of the lowest bit of the exponent field. -/
def exponentWeight : Nat := 0x10000000000000

/-- The sign bit. -/
def negative (x : Double) : Bool := signWeight ≤ x.bits.toNat

/-- The bits below the sign. -/
def unsigned (x : Double) : Nat := x.bits.toNat % signWeight

/-- The eleven bits of the biased exponent. -/
def exponentField (x : Double) : Nat := x.unsigned / exponentWeight

/-- The trailing bits of the significand. -/
def fraction (x : Double) : Nat := x.unsigned % exponentWeight

/-- Neither infinite nor a NaN. -/
def isFinite (x : Double) : Bool := x.exponentField < 2047

/-- Not a number. -/
def isNaN (x : Double) : Bool := x.exponentField == 2047 && x.fraction != 0

/-- The absolute value of a finite number. -/
def magnitude (x : Double) : Scaled :=
  if x.exponentField = 0 then ⟨x.fraction, -1074⟩
  else ⟨exponentWeight + x.fraction, (x.exponentField : Int) - 1075⟩

/-- The number with the given sign and lower bits. -/
def ofFields (negative : Bool) (unsigned : Nat) : Double :=
  ⟨UInt64.ofNat ((if negative then signWeight else 0) + unsigned)⟩

/-- The infinity of the given sign. -/
def infinity (negative : Bool) : Double := ofFields negative (2047 * exponentWeight)

/-- The quiet NaN. -/
def nan : Double := ofFields false (2047 * exponentWeight + exponentWeight / 2)

/-- The bit pattern of a number of the format: a significand below
`2 ^ 52` is subnormal, any other has its leading bit left out. -/
def ofScaled (negative : Bool) (s : Scaled) : Double :=
  if s.m < exponentWeight then ofFields negative s.m
  else ofFields negative ((s.q + 1074).toNat * exponentWeight + s.m)

/-- The number nearest to `digits * 10 ^ exponent`, an infinity when that
is out of range. -/
def ofDecimal (negative : Bool) (digits : Nat) (exponent : Int) : Double :=
  match binary64.ofDecimal digits exponent with
  | some s => ofScaled negative s
  | none => infinity negative

/-- The number nearest to `digits * 10 ^ exponent` in single precision,
which double precision holds exactly. -/
def ofDecimalSingle (negative : Bool) (digits : Nat) (exponent : Int) : Double :=
  match binary32.ofDecimal digits exponent with
  | some s =>
    match binary64.nearest (s.m * Nat.pow 2 s.q.toNat) (Nat.pow 2 (-s.q).toNat) with
    | some w => ofScaled negative w
    | none => infinity negative
  | none => infinity negative

/-- The number nearest to an integer. -/
def ofInt (n : Int) : Double := ofDecimal (n < 0) n.natAbs 0

/-! ## Examples -/

example : ofDecimal false 1 0 = ⟨0x3FF0000000000000⟩ := by decide +kernel
example : ofDecimal false 1 (-1) = ⟨0x3FB999999999999A⟩ := by decide +kernel
example : ofDecimal true 0 0 = ⟨0x8000000000000000⟩ := by decide +kernel
example : ofDecimal false 5 (-324) = ⟨1⟩ := by decide +kernel
example : ofDecimal false 2 (-324) = ⟨0⟩ := by decide +kernel
example : ofDecimal false 17976931348623157 292 = ⟨0x7FEFFFFFFFFFFFFF⟩ := by decide +kernel
example : ofDecimal false 18 307 = infinity false := by decide +kernel
example : ofInt 9007199254740993 = ofInt 9007199254740992 := by decide +kernel
example : ofDecimalSingle false 1 (-1) = ⟨0x3FB99999A0000000⟩ := by decide +kernel

end Double

end SqlTree
