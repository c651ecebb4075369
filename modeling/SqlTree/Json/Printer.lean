import SqlTree.Json.Basic
import SqlTree.Text.Separated

/-!
# SqlTree.Json.Printer

The compact text of a JSON value: no blanks, members in the order of their
names.  Of the characters only quotes, backslashes and controls are
escaped.  A fraction keeps one decimal at least and is written without an
exponent from `10 ^ -5` up to `10 ^ 16`; of two equally near decimals the
even one is taken.
-/

namespace SqlTree

/-- A fraction between these powers of ten is written without an exponent. -/
def Double.jsonRange : Int × Int := (-5, 15)

/-- The JSON text of a double.  JSON has no infinities and no NaN, so they
are null. -/
def Double.jsonText (x : Double) : String :=
  if x.isFinite then
    let d := x.shortest .even
    let plain := d.digits = 0 ∨ (Double.jsonRange.1 ≤ d.order ∧ d.order ≤ Double.jsonRange.2)
    let text := if plain then d.positionalPoint else d.scientific
    String.ofList (if x.negative then '-' :: text else text)
  else "null"

namespace Json

/-- A control character by its number, in four hexadecimal digits. -/
def unicodeEscape (c : Char) : List Char :=
  let digits := Nat.toDigits 16 c.toNat
  '\\' :: 'u' :: (List.replicate (4 - digits.length) '0' ++ digits)

/-- A character as it stands in a JSON string. -/
def escapeChar (c : Char) : List Char :=
  if c = '"' then ['\\', '"']
  else if c = '\\' then ['\\', '\\']
  else if c.toNat = 8 then ['\\', 'b']
  else if c.toNat = 9 then ['\\', 't']
  else if c.toNat = 10 then ['\\', 'n']
  else if c.toNat = 12 then ['\\', 'f']
  else if c.toNat = 13 then ['\\', 'r']
  else if c.toNat < 32 then unicodeEscape c
  else [c]

/-- A text as a JSON string. -/
def quoteText (s : String) : String :=
  String.ofList ('"' :: s.toList.flatMap escapeChar ++ ['"'])

/-- A member of an object, given the text of its value. -/
def memberText (name value : String) : String := quoteText name ++ ":" ++ value

mutual

/-- The compact text of a value. -/
def text : Json → String
  | .null => "null"
  | .bool b => if b then "true" else "false"
  | .int n => toString n
  | .float x => x.jsonText
  | .str s => quoteText s
  | .arr items => "[" ++ joined "," (itemTexts items) ++ "]"
  | .obj members => "\x7b" ++ joined "," (memberTexts members) ++ "\x7d"

/-- The texts of a list of values. -/
def itemTexts : List Json → List String
  | [] => []
  | item :: items => item.text :: itemTexts items

/-- The texts of the members of an object. -/
def memberTexts : List (String × Json) → List String
  | [] => []
  | (name, value) :: members => memberText name value.text :: memberTexts members

end

end Json

/-! ## Examples -/

example : (Double.ofDecimal false 1 16).jsonText = "1e+16" := by decide +kernel
example : (Double.ofDecimal false 1 15).jsonText = "1000000000000000.0" := by decide +kernel
example : (Double.ofDecimal false 1 (-5)).jsonText = "0.00001" := by decide +kernel
example : (Double.ofDecimal false 1 (-7)).jsonText = "1e-7" := by decide +kernel
example : (Double.ofDecimal true 0 0).jsonText = "-0.0" := by decide +kernel

end SqlTree
