import SqlTree.Tree.Basic

/-!
# SqlTree.Predicate

Building predicates.  Null needs care: nothing is equal to it, so a
comparison for equality with null becomes a test for null, any other
comparison with it is refused, and so are null bounds and null patterns.
A list may hold null, which is then remembered apart from its values.
-/

namespace SqlTree

/-- The operand is the null value. -/
def Operand.isNull : Operand → Bool
  | .value v => v.isNull
  | _ => false

/-- The operand is a value other than null, or a literal. -/
def Operand.boundFault : Operand → Option Error
  | .value v => if v.isNull then some .nullBound else none
  | .literal _ => none
  | _ => some .compoundBound

namespace Predicate

/-- A comparison. -/
def compare (left : Reference) (op : Comparison) (right : Operand) : Except Error Predicate :=
  if right.isNull then
    match op with
    | .eq => .ok (.truth left false .null)
    | .ne => .ok (.truth left true .null)
    | op => .error (.nullComparison op)
  else .ok (.comparison left op right)

/-- A range test. -/
def inRange (left : Reference) (negated : Bool) (low high : Operand) : Except Error Predicate :=
  match low.boundFault with
  | some e => .error e
  | none =>
    match high.boundFault with
    | some e => .error e
    | none => .ok (.between left negated low high)

/-- A test against a list of values. -/
def inList (left : Reference) (negated : Bool) (values : List Value) : Except Error Predicate :=
  if values.isEmpty then .error .emptyInList
  else .ok (.inValues left negated (values.filter fun v => !v.isNull) (values.any Value.isNull))

/-- A pattern test. -/
def matching (left : Reference) (negated : Bool) (pattern : Operand) (escape : Option Char) : Except Error Predicate :=
  if pattern.isNull then .error .nullPattern else .ok (.like left negated pattern escape)

/-- Trusted SQL as a predicate. -/
def ofText (sql : String) : Except Error Predicate := (Literal.parse sql).map .literal

/-- The group, if the predicate is one. -/
def group? : Predicate → Option Group
  | .group g => some g
  | _ => none

end Predicate

end SqlTree
