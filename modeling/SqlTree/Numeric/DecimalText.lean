import SqlTree.Numeric.Shortest

/-!
# SqlTree.Numeric.DecimalText

Decimal text of doubles, both ways.  Writing starts from the digits of
`Double.shortest` and places the point: `Decimal.positional` never uses an
exponent, `Decimal.scientific` always does.  `Double.text` is the
positional form that SQL literals use, with names for the numbers that have
no digits.  `Double.ofText?` reads a sign, digits with an optional point,
an optional exponent, or one of those names.
-/

namespace SqlTree

/-! ## Digits -/

/-- The number that a list of decimal digits denotes. -/
def natOfDigits (cs : List Char) : Nat :=
  cs.foldl (fun n c => 10 * n + (c.toNat - '0'.toNat)) 0

/-- The decimal digits of a number. -/
def digitsOfNat (n : Nat) : List Char := Nat.toDigits 10 n

/-! ## Writing -/

namespace Decimal

/-- Digits before and after the point; the second list is empty for a whole
number. -/
def split (d : Decimal) : List Char × List Char :=
  let cs := digitsOfNat d.digits
  if 0 ≤ d.exponent then
    (if d.digits = 0 then ['0'] else cs ++ List.replicate d.exponent.toNat '0', [])
  else
    let places := (-d.exponent).toNat
    if places < cs.length then (cs.take (cs.length - places), cs.drop (cs.length - places))
    else (['0'], List.replicate (places - cs.length) '0' ++ cs)

/-- The number written out, with a point only where it has decimals. -/
def positional (d : Decimal) : List Char :=
  match d.split with
  | (whole, []) => whole
  | (whole, decimals) => whole ++ '.' :: decimals

/-- The number written out with one decimal at least. -/
def positionalPoint (d : Decimal) : List Char :=
  match d.split with
  | (whole, []) => whole ++ ['.', '0']
  | (whole, decimals) => whole ++ '.' :: decimals

/-- The power of ten of the first digit. -/
def order (d : Decimal) : Int := (digitsOfNat d.digits).length + d.exponent - 1

/-- One digit before the point and a signed power of ten. -/
def scientific (d : Decimal) : List Char :=
  let exponent := (if d.order < 0 then ['e', '-'] else ['e', '+']) ++ digitsOfNat d.order.natAbs
  match digitsOfNat d.digits with
  | c :: [] => c :: exponent
  | c :: cs => c :: '.' :: cs ++ exponent
  | [] => exponent

end Decimal

/-- The shortest digits in positional form; a whole number has no point, and
of two equally near decimals the upper one is written. -/
def Double.text (x : Double) : String :=
  if x.isNaN then "NaN"
  else
    let digits := if x.isFinite then (x.shortest .up).positional else ['i', 'n', 'f']
    String.ofList (if x.negative then '-' :: digits else digits)

/-! ## Reading -/

/-- An exponent mark with an optional sign and at least one digit, or
nothing. -/
def exponentOfText? : List Char → Option Int
  | [] => some 0
  | c :: cs =>
    let (negative, digits) :=
      match cs with
      | '-' :: ds => (true, ds)
      | '+' :: ds => (false, ds)
      | ds => (false, ds)
    if (c = 'e' || c = 'E') && !digits.isEmpty && digits.all Char.isDigit then
      some (if negative then -(natOfDigits digits : Int) else natOfDigits digits)
    else none

/-- Digits with an optional point, at least one digit in all, and an
optional exponent. -/
def decimalOfText? (cs : List Char) : Option Decimal :=
  let whole := cs.takeWhile Char.isDigit
  let (decimals, rest) :=
    match cs.dropWhile Char.isDigit with
    | '.' :: ds => (ds.takeWhile Char.isDigit, ds.dropWhile Char.isDigit)
    | ds => ([], ds)
  if whole.isEmpty && decimals.isEmpty then none
  else (exponentOfText? rest).map fun e => ⟨natOfDigits (whole ++ decimals), e - decimals.length⟩

/-- Reads a number with `nearest` as the rounding of its decimal value. -/
def numberOfText? (nearest : Bool → Nat → Int → Double) (text : String) : Option Double :=
  let (negative, digits) :=
    match text.toList with
    | '-' :: cs => (true, cs)
    | '+' :: cs => (false, cs)
    | cs => (false, cs)
  let name := String.ofList (digits.map Char.toLower)
  if name = "inf" || name = "infinity" then some (Double.infinity negative)
  else if name = "nan" then some Double.nan
  else (decimalOfText? digits).map fun d => nearest negative d.digits d.exponent

/-- The double nearest to the number that the text denotes. -/
def Double.ofText? : String → Option Double := numberOfText? Double.ofDecimal

/-- The single precision number nearest to the number that the text
denotes, as a double. -/
def Double.ofTextSingle? : String → Option Double := numberOfText? Double.ofDecimalSingle

/-! ## Examples -/

example : (Decimal.mk 125 (-2)).positional = ['1', '.', '2', '5'] := by decide +kernel
example : (Decimal.mk 1 3).positional = ['1', '0', '0', '0'] := by decide +kernel
example : (Decimal.mk 1 (-3)).positional = ['0', '.', '0', '0', '1'] := by decide +kernel
example : (Decimal.mk 125 17).scientific = ['1', '.', '2', '5', 'e', '+', '1', '9'] := by decide +kernel
example : (Decimal.mk 5 (-324)).scientific = ['5', 'e', '-', '3', '2', '4'] := by decide +kernel
example : decimalOfText? ['.', '5', 'e', '3'] = some ⟨5, 2⟩ := by decide +kernel
example : decimalOfText? ['.'] = none := by decide +kernel
example : decimalOfText? ['1', 'e', '+'] = none := by decide +kernel

end SqlTree
