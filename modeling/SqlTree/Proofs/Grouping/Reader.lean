import SqlTree.Proofs.Grouping.Formula

/-!
# SqlTree.Proofs.Grouping.Reader

Reading a condition back from its text, the way a database does.  A
`Reader` goes through the characters once.  Quoted regions are opaque.  A
parenthesis where a condition may begin opens a level of its own, and what
it holds is one formula when it is closed; any other parenthesis belongs to
a test and hides what is inside.  Of the words outside, `AND` and `OR` end
a condition, except that the first `AND` after a `BETWEEN` belongs to it.

`readCondition` is the formula of a text, if the text is well formed.
-/

namespace SqlTree

/-! ## Inside the parentheses of a test -/

/-- A position inside the parentheses of a test: the parentheses opened
after the first one, and the character that closes the quoted region. -/
structure Nesting where
  depth : Nat
  quote : Option Char

namespace Nesting

/-- One character further; nothing is left after the last parenthesis. -/
def step (d : Dialect) (s : Nesting) (c : Char) : Option Nesting :=
  match s.quote with
  | some close => some { s with quote := if c = close then none else some close }
  | none =>
    if c = '(' then some { s with depth := s.depth + 1 }
    else if c = ')' then
      match s.depth with
      | 0 => none
      | n + 1 => some { s with depth := n }
    else some { s with quote := d.closer? c }

end Nesting

/-! ## Readers -/

/-- A test as far as it has been read: its text, the blanks after that and
the word after these, and whether a `BETWEEN` waits for its `AND`. -/
structure Scanned where
  text : List Char
  gap : List Char
  word : List Char
  range : Bool
deriving DecidableEq

/-- Nothing has been read. -/
def Scanned.empty : Scanned := ⟨[], [], [], false⟩

/-- The conditions on a level so far, and what joins the next one. -/
structure Level where
  conditions : List (Connective × Formula)
  next : Connective

namespace Level

/-- Nothing has been read. -/
def empty : Level := ⟨[], .and⟩

/-- The level with one more condition and the connective after it. -/
def joined (l : Level) (f : Formula) (op : Connective) :
    Level := ⟨l.conditions ++ [(l.next, f)], op⟩

/-- What the level means if this condition is its last. -/
def closed (l : Level) (f : Formula) : Formula := .ofSequence (l.conditions ++ [(l.next, f)])

end Level

/-- Where a reader stands. -/
inductive Place where
  /-- Outside of quotes and of the parentheses of tests. -/
  | outside
  /-- In a quoted region that the character closes. -/
  | quoted (close : Char)
  /-- In the parentheses of a test. -/
  | enclosed (s : Nesting)

/-- A condition as far as it has been read. -/
structure Reader where
  /-- The levels around this one, the innermost first. -/
  outer : List Level
  level : Level
  /-- What has just been closed by a parenthesis. -/
  unit : Option Formula
  scanned : Scanned
  place : Place

namespace Reader

/-- Nothing has been read of the next condition on this level. -/
def ready (outer : List Level) (level : Level) : Reader := ⟨outer, level, none, .empty, .outside⟩

/-- Text that belongs to a test. -/
def add (cs : List Char) (r : Reader) : Reader :=
  { r with scanned := { r.scanned with text := r.scanned.text ++ r.scanned.gap ++ cs, gap := [] } }

/-- A blank; those before a condition do not count. -/
def blank (c : Char) (r : Reader) : Reader :=
  if r.scanned.text = [] then r else
    { r with scanned := { r.scanned with gap := r.scanned.gap ++ [c] } }

/-- The condition that ends here. -/
def condition? (r : Reader) : Option Formula :=
  match r.unit, r.scanned.text with
  | some f, [] => some f
  | none, c :: cs => if r.scanned.range then none else some (.test (String.ofList (c :: cs)))
  | _, _ => none

/-- A connective ends a condition and starts the next. -/
def join (op : Connective) (r : Reader) : Option Reader :=
  r.condition?.map fun f => ready r.outer (r.level.joined f op)

/-- A word that belongs to a test. -/
def addWord (range : Bool) (r : Reader) : Reader :=
  let r := r.add r.scanned.word
  { r with scanned := { r.scanned with word := [], range } }

/-- The word ends here, if there is one.  Keywords count in any case. -/
def endWord (r : Reader) : Option Reader :=
  let word := r.scanned.word.map Char.toUpper
  if word = [] then some r
  else if word = ['B', 'E', 'T', 'W', 'E', 'E', 'N'] then some (r.addWord true)
  else if word = ['A', 'N', 'D'] then
    if r.scanned.range then some (r.addWord false) else r.join .and
  else if word = ['O', 'R'] then r.join .or
  else some (r.addWord r.scanned.range)

/-- A parenthesis where a condition begins. -/
def opened (r : Reader) : Reader := ready (r.level :: r.outer) .empty

/-- The parenthesis that closes a level. -/
def closed (r : Reader) : Option Reader :=
  match r.condition?, r.outer with
  | some f, level :: outer => some { ready outer level with unit := some (r.level.closed f) }
  | _, _ => none

/-- A character that ends the word before it, outside of quotes. -/
def sign (r : Reader) (c : Char) : Option Reader :=
  if c = ' ' ∨ c = '\n' then some (r.blank c)
  else if c = '(' then
    if r.scanned.text = [] ∧ r.unit.isNone then some r.opened
    else some { r.add [c] with place := .enclosed ⟨0, none⟩ }
  else if c = ')' then r.closed
  else some (r.add [c])

/-- One character further. -/
def step (d : Dialect) (r : Reader) (c : Char) : Option Reader :=
  match r.place with
  | .quoted close => some { r.add [c] with place := if c = close then .outside else .quoted close }
  | .enclosed s =>
    match s.step d c with
    | some s => some { r.add [c] with place := .enclosed s }
    | none => some { r.add [c] with place := .outside }
  | .outside =>
    match d.closer? c with
    | some close => r.endWord.map fun r => { r.add [c] with place := .quoted close }
    | none =>
      -- A colon starts a marker, which no keyword is read into.
      if isWordChar c ∨ c = ':' then some
        { r with scanned := { r.scanned with word := r.scanned.word ++ [c] } }
      else r.endWord.bind fun r => r.sign c

/-- All the characters of a text further. -/
def run (d : Dialect) (r : Reader) (cs : List Char) : Option Reader := cs.foldlM (step d) r

/-- The formula of what has been read, if every parenthesis is closed. -/
def finish (r : Reader) : Option Formula :=
  match r.outer with
  | [] =>
    if r.unit.isNone ∧ r.scanned.text = [] ∧ r.level.conditions = [] then some (.anyOf [])
    else r.condition?.map r.level.closed
  | _ => none

/-- The formula of a text that ends here. -/
def result (r : Reader) : Option Formula :=
  match r.place with
  | .outside => r.endWord.bind finish
  | _ => none

end Reader

/-- The formula of a condition, read from its text. -/
def readCondition (d : Dialect) (sql : String) : Option Formula :=
  (Reader.run d (.ready [] .empty) sql.toList).bind Reader.result

end SqlTree
