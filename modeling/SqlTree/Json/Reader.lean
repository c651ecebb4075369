import SqlTree.Json.Basic

/-!
# SqlTree.Json.Reader

JSON values from text.  `Json.ofText?` reads one value with blanks around
it and nothing else.  Strings and numbers are read by recursion on the
characters; values nest, and each of them takes at least one character, so
the length of the text bounds the depth of the recursion.
-/

namespace SqlTree

namespace Json

/-- The four blanks of JSON. -/
def skipBlanks (cs : List Char) : List Char :=
  cs.dropWhile fun c => c = ' ' || c = '\t' || c = '\n' || c = '\r'

/-! ## Strings -/

/-- The value of a hexadecimal digit. -/
def hexDigit? (c : Char) : Option Nat :=
  if c.isDigit then some (c.toNat - 48)
  else if 'a' ≤ c ∧ c ≤ 'f' then some (c.toNat - 87)
  else if 'A' ≤ c ∧ c ≤ 'F' then some (c.toNat - 55)
  else none

/-- The number written with four hexadecimal digits. -/
def hexNumber? (a b c d : Char) : Option Nat := do
  let w ← hexDigit? a
  let x ← hexDigit? b
  let y ← hexDigit? c
  let z ← hexDigit? d
  return ((w * 16 + x) * 16 + y) * 16 + z

/-- The character that a one-letter escape stands for. -/
def escaped? (c : Char) : Option Char :=
  if c = '"' ∨ c = '\\' ∨ c = '/' then some c
  else if c = 'b' then some (Char.ofNat 8)
  else if c = 't' then some '\t'
  else if c = 'n' then some '\n'
  else if c = 'f' then some (Char.ofNat 12)
  else if c = 'r' then some '\r'
  else none

/-- A character outside the basic plane from its two surrogates. -/
def ofSurrogates (high low : Nat) : Char :=
  Char.ofNat (0x10000 + (high - 0xD800) * 0x400 + (low - 0xDC00))

/-- Reads up to the closing quote; `acc` holds the characters so far, last
one first. -/
def readString (acc : List Char) : List Char → Option (String × List Char)
  | [] => none
  | c :: cs =>
    if c = '"' then some (String.ofList acc.reverse, cs)
    else if c ≠ '\\' then (if c.toNat < 32 then none else readString (c :: acc) cs)
    else
      match cs with
      | 'u' :: a :: b :: c :: d :: cs =>
        match hexNumber? a b c d with
        | none => none
        | some n =>
          if n < 0xD800 ∨ 0xDFFF < n then readString (Char.ofNat n :: acc) cs
          else
            match cs with
            | '\\' :: 'u' :: e :: f :: g :: h :: cs =>
              match hexNumber? e f g h with
              | some m =>
                if n < 0xDC00 ∧ 0xDC00 ≤ m ∧ m ≤ 0xDFFF then readString (ofSurrogates n m :: acc) cs else none
              | none => none
            | _ => none
      | e :: cs =>
        match escaped? e with
        | some c => readString (c :: acc) cs
        | none => none
      | [] => none

/-! ## Numbers -/

/-- No digit before the point but a single zero, or digits that start with
another one. -/
def wholeDigits (cs : List Char) : Bool :=
  match cs with
  | [] => false
  | c :: rest => rest.isEmpty || c != '0'

/-- A point is followed by a digit. -/
def pointFollowed : List Char → Bool
  | '.' :: c :: _ => c.isDigit
  | '.' :: [] => false
  | _ => true

/-- A number from its text.  Without a point and without an exponent it is
whole, minus zero apart, which only a fraction can tell from zero. -/
def ofNumberText? (cs : List Char) : Option Json :=
  let (negative, digits) :=
    match cs with
    | '-' :: ds => (true, ds)
    | ds => (false, ds)
  let whole := digits.takeWhile Char.isDigit
  let rest := digits.dropWhile Char.isDigit
  if !wholeDigits whole || !pointFollowed rest then none
  else if rest.isEmpty then
    let n := natOfDigits whole
    some (if negative then (if n = 0 then .float (Double.ofDecimal true 0 0) else ofInt (-n)) else ofInt n)
  else
    match decimalOfText? digits with
    | none => none
    | some d =>
      let x := Double.ofDecimal negative d.digits d.exponent
      if x.isFinite then some (.float x) else none

/-- The characters that a number is made of. -/
def isNumberChar (c : Char) : Bool :=
  c.isDigit || c = '-' || c = '+' || c = '.' || c = 'e' || c = 'E'

/-- A word that the text must start with. -/
def readWord (word : List Char) (value : Json) (cs : List Char) : Option (Json × List Char) :=
  if word.isPrefixOf cs then some (value, cs.drop word.length) else none

/-! ## Values -/

mutual

/-- A value after blanks, with what follows it. -/
def readValue : Nat → List Char → Option (Json × List Char)
  | 0, _ => none
  | fuel + 1, cs =>
    match skipBlanks cs with
    | '"' :: cs => (readString [] cs).map fun (s, rest) => (.str s, rest)
    | '[' :: cs =>
      match skipBlanks cs with
      | ']' :: rest => some (.arr [], rest)
      | _ => (readItems fuel cs).map fun (items, rest) => (.arr items, rest)
    | '\x7b' :: cs =>
      match skipBlanks cs with
      | '\x7d' :: rest => some (.obj [], rest)
      | _ => (readMembers fuel cs).map fun (members, rest) => (ofMembers members, rest)
    | 'n' :: cs => readWord ['u', 'l', 'l'] .null cs
    | 't' :: cs => readWord ['r', 'u', 'e'] (.bool true) cs
    | 'f' :: cs => readWord ['a', 'l', 's', 'e'] (.bool false) cs
    | cs => (ofNumberText? (cs.takeWhile isNumberChar)).map fun v => (v, cs.dropWhile isNumberChar)

/-- The values up to the closing bracket. -/
def readItems : Nat → List Char → Option (List Json × List Char)
  | 0, _ => none
  | fuel + 1, cs =>
    match readValue fuel cs with
    | none => none
    | some (item, rest) =>
      match skipBlanks rest with
      | ']' :: rest => some ([item], rest)
      | ',' :: rest => (readItems fuel rest).map fun (items, rest) => (item :: items, rest)
      | _ => none

/-- The members up to the closing brace. -/
def readMembers : Nat → List Char → Option (List (String × Json) × List Char)
  | 0, _ => none
  | fuel + 1, cs =>
    match skipBlanks cs with
    | '"' :: cs =>
      match readString [] cs with
      | none => none
      | some (name, rest) =>
        match skipBlanks rest with
        | ':' :: rest =>
          match readValue fuel rest with
          | none => none
          | some (value, rest) =>
            match skipBlanks rest with
            | '\x7d' :: rest => some ([(name, value)], rest)
            | ',' :: rest => (readMembers fuel rest).map fun (members, rest) => ((name, value) :: members, rest)
            | _ => none
        | _ => none
    | _ => none

end

/-- The value that a text denotes. -/
def ofText? (s : String) : Option Json :=
  let cs := s.toList
  match readValue (2 * cs.length + 1) cs with
  | some (value, rest) => if (skipBlanks rest).isEmpty then some value else none
  | none => none

end Json

end SqlTree
