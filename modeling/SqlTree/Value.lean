import SqlTree.Json.Basic

/-!
# SqlTree.Value

SQL values and the types they are bound as.  Values never stand in
compiled text: they travel beside it, each under a marker.  `Value.ofJson?`
takes the scalars of JSON, `Value.toJson` is the form in which a value is
sent to whoever executes a statement.
-/

namespace SqlTree

/-- A SQL value. -/
inductive Value where
  | null
  | bool (b : Bool)
  | int (n : Int64)
  | float (x : Double)
  | text (s : String)
  | blob (bytes : List UInt8)
deriving DecidableEq, Inhabited

/-- How a value is bound. -/
inductive BindType where
  | null
  | int
  | string
  | lob
deriving DecidableEq, Inhabited

/-- The type as it is sent. -/
def BindType.label : BindType → String
  | .null => "NULL"
  | .int => "INT"
  | .string => "STRING"
  | .lob => "LOB"

namespace Value

/-- The null value. -/
def isNull : Value → Bool
  | .null => true
  | _ => false

/-- The type a value is bound as when none is asked for.  Most databases
bind no booleans, so they go as integers, and floats go as text. -/
def bindType : Value → BindType
  | .null => .null
  | .bool _ | .int _ => .int
  | .float _ | .text _ => .string
  | .blob _ => .lob

/-- A whole number as an integer if 64 bits hold it, otherwise as the
nearest float. -/
def ofInt (n : Int) : Value :=
  if Int64.minValue.toInt ≤ n ∧ n ≤ Int64.maxValue.toInt then .int (Int64.ofInt n) else .float (Double.ofInt n)

/-- The value of a JSON scalar; lists and objects have none. -/
def ofJson? : Json → Option Value
  | .null => some .null
  | .bool b => some (.bool b)
  | .int n => some (ofInt n)
  | .float x => some (.float x)
  | .str s => some (.text s)
  | .arr _ | .obj _ => none

/-- A value as JSON: bytes are a list of numbers. -/
def toJson : Value → Json
  | .null => .null
  | .bool b => .bool b
  | .int n => .int n.toInt
  | .float x => .float x
  | .text s => .str s
  | .blob bytes => .arr (bytes.map fun b => .int b.toNat)

/-! ## Laws -/

/-- An integer in the range of 64 bits is kept as it is. -/
theorem ofInt_eq_int {n : Int} (h : Int64.minValue.toInt ≤ n ∧ n ≤ Int64.maxValue.toInt) : ofInt n = .int (Int64.ofInt n) :=
  if_pos h

/-- The number that an integer value holds. -/
theorem toInt_ofInt {n : Int} (h : Int64.minValue.toInt ≤ n ∧ n ≤ Int64.maxValue.toInt) : (Int64.ofInt n).toInt = n :=
  Int64.toInt_ofInt_of_le h.1 (by
    have := h.2
    simp only [Int64.toInt_maxValue] at this
    omega)

theorem ofJson?_eq_none_iff (j : Json) : ofJson? j = none ↔ (∃ items, j = .arr items) ∨ ∃ members, j = .obj members := by
  cases j <;> simp [ofJson?]

end Value

end SqlTree
