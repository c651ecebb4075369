import SqlTree.Error

/-!
# SqlTree.Operator

Operators and words from text, in any case of the letters A to Z.  Each
reader comes in two forms: `ofText?` answers `none` for an unknown word,
and `parse` turns that into the error which quotes the text as it was
given.
-/

namespace SqlTree

/-- A text with the letters A to Z in lower case. -/
def lowered (s : String) : String := String.ofList (s.toList.map Char.toLower)

/-- A text with the letters a to z in upper case. -/
def raised (s : String) : String := String.ofList (s.toList.map Char.toUpper)

namespace Comparison

/-- The comparison that a symbol or a name denotes. -/
def ofText? (s : String) : Option Comparison :=
  let t := lowered s
  if t ∈ ["=", "==", "eq"] then some .eq
  else if t ∈ ["!=", "<>", "ne", "neq"] then some .ne
  else if t ∈ ["<", "lt"] then some .lt
  else if t ∈ ["<=", "lte", "le"] then some .le
  else if t ∈ [">", "gt"] then some .gt
  else if t ∈ [">=", "gte", "ge"] then some .ge
  else none

/-- The comparison, or the error that names the text. -/
def parse (s : String) : Except Error Comparison :=
  match ofText? s with
  | some op => .ok op
  | none => .error (.unknownOperator s)

end Comparison

namespace Connective

/-- The connective that one of the two symbols denotes. -/
def ofSymbol? (s : String) : Option Connective :=
  if s = "&&" then some .and else if s = "||" then some .or else none

/-- The connective that a symbol or a word denotes. -/
def ofText? (s : String) : Option Connective :=
  let t := lowered s
  if t ∈ ["&&", "and"] then some .and else if t ∈ ["||", "or"] then some .or else none

/-- The connective, or the error that names the text. -/
def parse (s : String) : Except Error Connective :=
  match ofText? s with
  | some op => .ok op
  | none => .error (.unknownOperator s)

end Connective

namespace Truth

/-- What a word after `IS` denotes. -/
def ofText? (s : String) : Option Truth :=
  let t := lowered s
  if t = "null" then some .null
  else if t = "true" then some .true
  else if t = "false" then some .false
  else if t = "unknown" then some .unknown
  else none

/-- The word, or the error that names the text. -/
def parse (s : String) : Except Error Truth :=
  match ofText? s with
  | some word => .ok word
  | none => .error (.notTruth s)

end Truth

end SqlTree
