import SqlTree.Numeric.DecimalText

/-!
# SqlTree.Json.Basic

JSON values.  Whole numbers and fractions are told apart, as a
specification gives `1` and `1.0` different meanings, and an object is its
list of members in the order of their names, each name once; `Json.ofMembers`
builds one and lets the last member of a name win (`Json.insertMember`).
-/

namespace SqlTree

/-- A JSON value.  Whole numbers beyond the 64-bit ranges are fractions. -/
inductive Json where
  | null
  | bool (b : Bool)
  | int (n : Int)
  | float (x : Double)
  | str (s : String)
  | arr (items : List Json)
  | obj (members : List (String × Json))
deriving Inhabited

namespace Json

/-- Puts a member in its place; one of the same name is replaced. -/
def insertMember (name : String) (value : Json) : List (String × Json) → List (String × Json)
  | [] => [(name, value)]
  | (n, v) :: rest =>
    if name < n then (name, value) :: (n, v) :: rest
    else if name = n then (name, value) :: rest
    else (n, v) :: insertMember name value rest

/-- The object with these members. -/
def ofMembers (members : List (String × Json)) : Json :=
  .obj (members.foldl (fun acc m => insertMember m.1 m.2 acc) [])

/-- The value of the first member of that name. -/
def findMember? (name : String) : List (String × Json) → Option Json
  | [] => none
  | (n, v) :: rest => if n = name then some v else findMember? name rest

/-- The member of that name, for an object that has one. -/
def member? (name : String) : Json → Option Json
  | .obj members => findMember? name members
  | _ => none

/-- A whole number is exact from the least signed to the greatest unsigned
64-bit number, and otherwise the nearest double. -/
def ofInt (n : Int) : Json :=
  if Int64.minValue.toInt ≤ n ∧ n < UInt64.size then .int n else .float (Double.ofInt n)

/-! ## Laws -/

theorem findMember?_insertMember_self (name : String) (value : Json) (members : List (String × Json)) :
    findMember? name (insertMember name value members) = some value := by
  induction members with
  | nil => simp [insertMember, findMember?]
  | cons m rest ih =>
    obtain ⟨n, v⟩ := m
    simp only [insertMember]
    split
    · simp [findMember?]
    · split
      · simp [findMember?]
      · rename_i h
        simp [findMember?, Ne.symm h, ih]

theorem findMember?_insertMember_of_ne {name other : String} (h : other ≠ name) (value : Json)
    (members : List (String × Json)) :
    findMember? other (insertMember name value members) = findMember? other members := by
  induction members with
  | nil => simp [insertMember, findMember?, h.symm]
  | cons m rest ih =>
    obtain ⟨n, v⟩ := m
    simp only [insertMember]
    split
    · simp [findMember?, h.symm]
    · split
      · rename_i h'
        subst h'
        simp [findMember?, h.symm]
      · simp [findMember?, ih]

end Json

end SqlTree
