import SqlTree.Operator
import SqlTree.Predicate

/-!
# SqlTree.Spec

Predicates from JSON data.  A specification is

* a text, which is raw SQL;
* an object with one member: a column and its value, a column and a list of
  values, or a connective and a list of specifications that form a group;
* a list that starts with a connective and goes on with the specification
  that it joins;
* a list of a column, an operator, a value and perhaps one element more: a
  condition;
* any other list, of specifications that apply one after the other.

`Group.specify` adds what a specification says to a group, all of it or
nothing.
-/

namespace SqlTree

/-! ## Groups of terms -/

namespace Group

/-- Adds a predicate, joined by the pending connective or the default
one. -/
def push (p : Predicate) (g : Group) : Group :=
  { g with terms := g.terms ++ [⟨g.pending.getD g.default, p⟩], pending := none, cache := none }

/-- Adds a group as one term. -/
def pushGroup (g inner : Group) : Group :=
  g.push (.group { inner with nested := true, cache := none })

/-- The next term is joined by the connective. -/
def joinNext (connective : Connective) (g : Group) : Group := { g with pending := some connective }

end Group

/-! ## Conditions -/

/-- The operators of conditions. -/
inductive ConditionOperator where
  | compare (op : Comparison)
  | inList (negated : Bool)
  | like (negated : Bool)
  | between (negated : Bool)
  | truth (negated : Bool)
deriving DecidableEq

/-- A text in lower case with one blank between its words. -/
def normalized (s : String) : String :=
  lowered (String.ofList (joinWith ' ' (words s.toList)))

/-- The operator that a text denotes, in any case and with any blanks. -/
def ConditionOperator.ofText? (s : String) : Option ConditionOperator :=
  let t := normalized s
  if t = "in" then some (.inList false)
  else if t = "not in" ∨ t = "nin" then some (.inList true)
  else if t = "like" then some (.like false)
  else if t = "not like" then some (.like true)
  else if t = "between" then some (.between false)
  else if t = "not between" then some (.between true)
  else if t = "is" then some (.truth false)
  else if t = "is not" then some (.truth true)
  else (Comparison.ofText? t).map .compare

/-- A value that stands for itself. -/
def scalar (spec value : Json) : Except Error Value :=
  match Value.ofJson? value with
  | some v => .ok v
  | none => .error (.spec spec .notScalar)

/-- A list of values. -/
def scalars (spec : Json) : Json → Except Error (List Value)
  | .arr items => items.mapM (scalar spec)
  | _ => .error (.spec spec .notList)

/-- The escape character of a pattern. -/
def escapeChar? (spec : Json) : Option Json → Except Error (Option Char)
  | none => .ok none
  | some (.str s) =>
    match s.toList with
    | [c] => .ok (some c)
    | _ => .error (.spec spec .escapeLength)
  | some _ => .error (.spec spec .escapeNotText)

/-- What a value after `IS` denotes. -/
def truthOf (spec : Json) : Json → Except Error Truth
  | .null => .ok .null
  | .bool b => .ok (if b then .true else .false)
  | .str s => Truth.parse s
  | _ => .error (.spec spec .notTruth)

/-- No element more than the operator takes. -/
def noExtra (spec : Json) : Option Json → Except Error Unit
  | none => .ok ()
  | some _ => .error (.spec spec .tooManyElements)

/-- The predicate of a condition. -/
def condition (spec : Json) (column : Reference) (operator : ConditionOperator) (value : Json) (extra : Option Json) :
    Except Error Predicate :=
  match operator with
  | .between negated =>
    match extra with
    | none => .error (.spec spec .oneBound)
    | some high => do
      let low ← scalar spec value
      let high ← scalar spec high
      Predicate.inRange column negated (.value low) (.value high)
  | .like negated => do
    let escape ← escapeChar? spec extra
    let pattern ← scalar spec value
    Predicate.matching column negated (.value pattern) escape
  | .compare op => do
    noExtra spec extra
    let right ← scalar spec value
    Predicate.compare column op (.value right)
  | .inList negated => do
    noExtra spec extra
    let values ← scalars spec value
    Predicate.inList column negated values
  | .truth negated => do
    noExtra spec extra
    let word ← truthOf spec value
    return .truth column negated word

/-! ## Lists -/

/-- What a list is. -/
inductive ListShape where
  /-- A connective and one specification. -/
  | chained (connective : Connective)
  | condition (column : Identifier) (operator : ConditionOperator) (value : Json) (extra : Option Json)
  | refused (e : Error)
  /-- Specifications in order. -/
  | specs

/-- A list that has the elements of a condition.  It is one if its column
is a name, and a faulty one if at least its operator is an operator;
otherwise it is a list of specifications. -/
def conditionShape (spec : Json) (column operator : String) (value : Json) (extra : Option Json) : ListShape :=
  match Identifier.parse column, ConditionOperator.ofText? operator with
  | .ok column, some op => .condition column op value extra
  | .ok _, none => .refused (.spec spec (.unknownOperator operator))
  | .error e, some _ => .refused e
  | .error _, none => .specs

/-- What a list is, by its first elements and its length. -/
def listShape (items : List Json) : ListShape :=
  let spec := Json.arr items
  match items with
  | [] => .refused (.spec spec .emptyList)
  | .str first :: rest =>
    match Connective.ofSymbol? first, rest with
    | some connective, [_] => .chained connective
    | some _, _ => .refused (.spec spec .connectiveArity)
    | none, [.str operator, value] => conditionShape spec first operator value none
    | none, [.str operator, value, extra] => conditionShape spec first operator value (some extra)
    | none, _ => .specs
  | _ => .specs

/-! ## Specifications -/

/-- A column and its value, or a list of values. -/
def pairPredicate (spec : Json) (column : String) (value : Json) : Except Error Predicate :=
  match value with
  | .arr _ => do
    let values ← scalars spec value
    let left ← Reference.parse column
    Predicate.inList left false values
  | value => do
    let right ← scalar spec value
    let left ← Reference.parse column
    Predicate.compare left .eq (.value right)

mutual

/-- Adds what a specification says to a group. -/
def specify : Json → Group → Except Error Group
  | .str s, g =>
    match Connective.ofSymbol? s with
    | some _ => .error (.spec (.str s) .loneConnective)
    | none => do
      let p ← Predicate.ofText s
      return g.push p
  | .obj [(name, .arr items)], g =>
    match Connective.ofSymbol? name with
    | some connective => do
      let inner ← specifyAll items (Group.empty connective)
      return g.pushGroup inner
    | none => do
      let p ← pairPredicate (.obj [(name, .arr items)]) name (.arr items)
      return g.push p
  | .obj [(name, value)], g =>
    match Connective.ofSymbol? name with
    | some _ => .error (.spec (.obj [(name, value)]) .groupWithoutList)
    | none => do
      let p ← pairPredicate (.obj [(name, value)]) name value
      return g.push p
  | .obj members, _ => .error (.spec (.obj members) .notOneMember)
  | .arr items, g =>
    match listShape items with
    | .chained connective => specifyLast items (g.joinNext connective)
    | .condition column operator value extra => do
      let p ← condition (.arr items) (.identifier column) operator value extra
      return g.push p
    | .refused e => .error e
    | .specs => specifyAll items g
  | spec, _ => .error (.spec spec .unrecognised)

/-- Adds what each of the specifications says. -/
def specifyAll : List Json → Group → Except Error Group
  | [], g => .ok g
  | item :: items, g =>
    match specify item g with
    | .ok g => specifyAll items g
    | .error e => .error e

/-- Adds what the last of the specifications says. -/
def specifyLast : List Json → Group → Except Error Group
  | [], g => .ok g
  | [item], g => specify item g
  | _ :: items, g => specifyLast items g

end

/-- A list is read by its shape. -/
theorem specify_list (items : List Json) (g : Group) :
    specify (.arr items) g =
      match listShape items with
      | .chained connective => specifyLast items (g.joinNext connective)
      | .condition column operator value extra =>
        (condition (.arr items) (.identifier column) operator value extra).map fun p => g.push p
      | .refused e => .error e
      | .specs => specifyAll items g := by
  rw [specify]
  cases listShape items with
  | condition column operator value extra =>
    simp only
    cases condition (.arr items) (.identifier column) operator value extra <;> rfl
  | _ => rfl

/-- Adds what a specification says, all of it or nothing. -/
def Group.specify (spec : Json) (g : Group) : Except Error Group := SqlTree.specify spec g

/-- The group that a specification describes. -/
def Group.ofSpec (spec : Json) : Except Error Group := (Group.empty .and).specify spec

end SqlTree
