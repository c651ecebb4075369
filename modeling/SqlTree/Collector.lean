import SqlTree.Value
import SqlTree.Error

/-!
# SqlTree.Collector

The collector gathers the values of a statement while it is compiled.  For
each value it hands out the marker to put in the text, so its entries are
the values in the order in which their markers stand there.  A named marker
is `:` with the hint of the value and a number, the next one for that hint
which no entry has yet; hints `eq` and `eq1` both lead to `:eq11`, so the
entries and not the counters decide what is taken.  A positional marker is
always `?`, and its entry has its position as key.

An action on the collector is a `Collecting`.  It may fail after it has
recorded values; `Collecting.orRestore` then cuts the collector back to what
it was (`Collector.backTo`): later entries go, and the counters are those of
before.
-/

namespace SqlTree

/-! ## Hints -/

/-- A hint as it can stand in a marker: every other character becomes an
underscore, and a leading digit gets a letter in front. -/
def hintWord (hint : String) : String :=
  match hint.toList.map fun c => if c.isAlphanum then c else '_' with
  | [] => "param"
  | c :: cs => String.ofList (if c.isDigit then 'p' :: c :: cs else c :: cs)

/-! ## Entries -/

/-- How markers are written. -/
inductive MarkerStyle where
  | named
  | positional
deriving DecidableEq, Inhabited

/-- What an entry is found by: its marker, or its position from one. -/
inductive Key where
  | named (marker : String)
  | position (n : Nat)
deriving DecidableEq

namespace Key

/-- The marker as it stands in the text. -/
def marker : Key → String
  | .named marker => marker
  | .position _ => "?"

/-- The key with its position made visible. -/
def label : Key → String
  | .named marker => marker
  | .position n => s!"?{n}"

end Key

/-- A value under its key. -/
structure Entry where
  key : Key
  value : Value
  type : BindType
deriving DecidableEq

/-- The values of a statement in the order of their markers, and the last
number given out for each hint. -/
structure Collector where
  style : MarkerStyle
  entries : List Entry
  counters : List (String × Nat)
deriving DecidableEq

namespace Collector

/-- A collector without entries. -/
def empty (style : MarkerStyle) : Collector := ⟨style, [], []⟩

/-- The number of entries. -/
def size (c : Collector) : Nat := c.entries.length

/-- The values in order. -/
def values (c : Collector) : List Value := c.entries.map Entry.value

/-- The entry of a named marker. -/
def find? (c : Collector) (marker : String) : Option Entry :=
  c.entries.find? fun e => e.key == .named marker

/-- The entry at a position, in a collector of positional markers. -/
def findAt? (c : Collector) : Nat → Option Entry
  | 0 => none
  | n + 1 => if c.style = .positional then c.entries[n]? else none

/-! ## Recording -/

/-- The named marker of a hint and a number. -/
def markerOf (hint : String) (n : Nat) : String := s!":{hint}{n}"

/-- An entry has this marker. -/
def isTaken (c : Collector) (marker : String) : Bool :=
  c.entries.any fun e => e.key == .named marker

/-- The first number from `n` on whose marker is free, if it is among the
next `fuel` ones or comes right after them. -/
def freeNumber (c : Collector) (hint : String) : Nat → Nat → Nat
  | 0, n => n
  | fuel + 1, n => if c.isTaken (markerOf hint n) then freeNumber c hint fuel (n + 1) else n

/-- The last number given out for a hint. -/
def counter (c : Collector) (hint : String) : Nat := (c.counters.lookup hint).getD 0

/-- The next number for a hint.  Among one more numbers than there are
entries, one is free. -/
def nextNumber (c : Collector) (hint : String) : Nat :=
  c.freeNumber hint c.size (c.counter hint + 1)

/-- The counters with the one of `hint` set to `n`. -/
def setCounter (hint : String) (n : Nat) : List (String × Nat) → List (String × Nat)
  | [] => [(hint, n)]
  | (h, m) :: rest => if h = hint then (h, n) :: rest else (h, m) :: setCounter hint n rest

/-- Records a value as one of the given type and answers its marker. -/
def record (c : Collector) (value : Value) (type : BindType) (hint : String) : String × Collector :=
  match c.style with
  | .positional => ("?", { c with entries := c.entries ++ [⟨.position (c.size + 1), value, type⟩] })
  | .named =>
    let word := hintWord hint
    let n := c.nextNumber word
    let marker := markerOf word n
    (marker, { c with
      entries := c.entries ++ [⟨.named marker, value, type⟩]
      counters := setCounter word n c.counters })

/-- Records a value as the type asked for, or as its own, under the hint
given or a neutral one. -/
def create (c : Collector) (value : Value) (type? : Option BindType) (hint? : Option String) : String × Collector :=
  c.record value (type?.getD value.bindType) (hint?.getD "param")

/-! ## Cutting back -/

/-- The collector without its entries beyond those of an earlier one, whose
counters it gets. -/
def backTo (c before : Collector) : Collector :=
  { c with entries := c.entries.take before.size, counters := before.counters }

end Collector

/-! ## Actions -/

/-- An action on the collector, which may fail. -/
abbrev Collecting (α : Type) : Type := EStateM Error Collector α

namespace Collecting

/-- Records a value as its own type. -/
def bindValue (value : Value) (hint : String) : Collecting String := fun c =>
  let (marker, c) := c.record value value.bindType hint
  .ok marker c

/-- Records a number of rows.  Counts are bound as signed integers. -/
def bindCount (count : UInt64) (hint : String) : Collecting String := fun c =>
  if (count.toNat : Int) ≤ Int64.maxValue.toInt then
    let (marker, c) := c.record (.int (Int64.ofNat count.toNat)) .int hint
    .ok marker c
  else .error (.countOutOfRange count.toNat) c

/-- The action, with the collector cut back to what it was before if the
action fails. -/
def orRestore {α : Type} (action : Collecting α) : Collecting α := fun before =>
  match action before with
  | .ok a c => .ok a c
  | .error e c => .error e (c.backTo before)

end Collecting

/-! ## Laws -/

namespace Collector

@[simp] theorem style_record (c : Collector) (value : Value) (type : BindType) (hint : String) :
    (c.record value type hint).2.style = c.style := by
  unfold record; split <;> simp_all

/-- Recording appends one entry with the value and the type. -/
theorem entries_record (c : Collector) (value : Value) (type : BindType) (hint : String) :
    ∃ key, (c.record value type hint).2.entries = c.entries ++ [⟨key, value, type⟩] ∧
      key.marker = (c.record value type hint).1 := by
  unfold record; split <;> exact ⟨_, rfl, rfl⟩

@[simp] theorem size_record (c : Collector) (value : Value) (type : BindType) (hint : String) :
    (c.record value type hint).2.size = c.size + 1 := by
  obtain ⟨key, h, _⟩ := c.entries_record value type hint
  simp [size, h]

end Collector

end SqlTree
