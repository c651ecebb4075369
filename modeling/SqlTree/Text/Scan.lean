/-!
# SqlTree.Text.Scan

Where a reader of SQL text stands.  The passes over finished text read it
from left to right and must leave quoted regions alone, so they share one
account of their position: outside of quotes, inside a region with the
character that closes it, or past the start of a token whose other
characters have been dealt with.  A region ends at the first closing
character; a doubled one opens the next region at once, so text between
doubled quotes counts as quoted as well.
-/

namespace SqlTree

/-- The position of a reader. -/
inductive Scan where
  /-- Outside of quotes, after the given character. -/
  | outside (previous : Option Char)
  /-- Inside a region that the given character closes. -/
  | inside (close : Char)
  /-- Within a token of which `n + 1` characters are left and which ends
  with `last`. -/
  | within (n : Nat) (last : Char)
deriving DecidableEq

namespace Scan

/-- The position at the start of a text. -/
def start : Scan := .outside none

/-- One character further inside a region. -/
def advanceInside (close c : Char) : Scan :=
  if c = close then .outside (some close) else .inside close

/-- One character further within a token. -/
def advanceWithin (last : Char) : Nat → Scan
  | 0 => .outside (some last)
  | n + 1 => .within n last

/-- After a token of which `n` characters are left. -/
def skip (n : Nat) (last : Char) : Scan :=
  match n with
  | 0 => .outside (some last)
  | n + 1 => .within n last

end Scan

end SqlTree
