import SqlTree.Dialect.Shipped
import SqlTree.Text.Scan

/-!
# SqlTree.Prefixes

Quoting the prefixes of raw SQL.  A fragment such as `u.id = o.user_id`
refers to tables and aliases by bare names, while the statement around it
quotes them.  `Dialect.quotePrefixes` quotes a known name wherever it
stands before a dot, outside of quotes and not in the middle of a longer
word; of several known names the longest counts.
-/

namespace SqlTree

/-- A name may start after this character. -/
def isNameBoundary : Option Char → Bool
  | none => true
  | some c => !(c.isAlphanum || c = '_' || c = '.' || c = ':' || c = '$' || c = '@')

/-- The longest of the names that starts the text and has a dot after it. -/
def leadingName (names : List (List Char)) (cs : List Char) : Option (List Char) :=
  names.foldl
    (fun best name =>
      if name ≠ [] ∧ (name ++ ['.']).isPrefixOf cs then
        match best with
        | some b => if b.length < name.length then some name else best
        | none => some name
      else best)
    none

namespace Dialect

/-- The closing character of a region that `c` opens. -/
def closer? (d : Dialect) (c : Char) : Option Char :=
  if c = d.valueQuote then some d.valueQuote
  else if c = d.leftQuote then some d.rightQuote
  else none

/-- The text with its prefixes quoted, from a position on. -/
def quotePrefixesFrom (d : Dialect) (names : List (List Char)) : Scan → List Char → List Char
  | _, [] => []
  | .inside close, c :: cs => c :: quotePrefixesFrom d names (Scan.advanceInside close c) cs
  | .within n last, _ :: cs => quotePrefixesFrom d names (Scan.advanceWithin last n) cs
  | .outside previous, c :: cs =>
    match d.closer? c with
    | some close => c :: quotePrefixesFrom d names (.inside close) cs
    | none =>
      match if isNameBoundary previous then leadingName names (c :: cs) else none with
      | some name =>
        (d.quoteIdentifier (String.ofList name)).toList ++
          '.' :: quotePrefixesFrom d names (Scan.skip name.length '.') cs
      | none => c :: quotePrefixesFrom d names (.outside (some c)) cs

/-- The text with every known name before a dot quoted. -/
def quotePrefixes (d : Dialect) (names : List String) (sql : String) : String :=
  String.ofList (d.quotePrefixesFrom (names.map String.toList) Scan.start sql.toList)

end Dialect

/-! ## Examples -/

example : Dialect.ansi.quotePrefixes ["u"] "u.id = 'u.id' OR ou.id" = "\"u\".id = 'u.id' OR ou.id" := by decide +kernel
example : Dialect.ansi.quotePrefixes ["a", "a.b"] "a.b.c" = "\"a\".\"b\".c" := by decide +kernel

end SqlTree
