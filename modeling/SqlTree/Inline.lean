import SqlTree.Dialect.Quoting
import SqlTree.Text.Scan

/-!
# SqlTree.Inline

Statements with their values written in.  `Collector.inline` replaces each
marker outside of quotes by the literal of its value, for logs and for
debugging.  Named markers are looked up; positional ones take the entries
in order.  A marker without an entry stays, and so does a name after a
double colon, which is a cast.
-/

namespace SqlTree

namespace Collector

/-- The closing character of a region that `c` opens. -/
def closer? (d : Dialect) (c : Char) : Option Char :=
  if c = '\'' then some '\'' else if c = d.leftQuote then some d.rightQuote else none

/-- The characters of a named marker after its colon, where one starts. -/
def markerTail? (previous : Option Char) (cs : List Char) : Option (List Char) :=
  match cs with
  | [] => none
  | c :: _ =>
    if previous ≠ some ':' ∧ (c.isAlpha ∨ c = '_') then
      some (cs.takeWhile fun c => c.isAlphanum || c = '_')
    else none

/-- The literal of an entry, or the marker where there is none. -/
def literalOr (d : Dialect) (entry : Option Entry) (marker : List Char) : Except Error (List Char) :=
  match entry with
  | some e => (d.quoteValue e.value).map String.toList
  | none => .ok marker

/-- The text with its markers replaced, from a position on; `next` is the
number of the next positional marker. -/
def inlineFrom (c : Collector) (d : Dialect) : Nat → Scan → List Char → Except Error (List Char)
  | _, _, [] => .ok []
  | next, .inside close, x :: xs => (inlineFrom c d next (Scan.advanceInside close x) xs).map (x :: ·)
  | next, .within n last, _ :: xs => inlineFrom c d next (Scan.advanceWithin last n) xs
  | next, .outside previous, x :: xs =>
    match closer? d x with
    | some close => (inlineFrom c d next (.inside close) xs).map (x :: ·)
    | none =>
      match c.style, x with
      | .positional, '?' => do
        let text ← literalOr d (c.findAt? next) ['?']
        let rest ← inlineFrom c d (next + 1) (.outside (some '?')) xs
        pure (text ++ rest)
      | .named, ':' =>
        match markerTail? previous xs with
        | some tail => do
          let text ← literalOr d (c.find? (String.ofList (':' :: tail))) (':' :: tail)
          let rest ← inlineFrom c d next (Scan.skip tail.length (tail.getLastD ':')) xs
          pure (text ++ rest)
        | none => (inlineFrom c d next (.outside (some ':')) xs).map (':' :: ·)
      | _, x => (inlineFrom c d next (.outside (some x)) xs).map (x :: ·)

/-- The text with every marker replaced by the literal of its value. -/
def inline (c : Collector) (sql : String) (d : Dialect) : Except Error String :=
  (c.inlineFrom d 1 Scan.start sql.toList).map String.ofList

end Collector

end SqlTree
