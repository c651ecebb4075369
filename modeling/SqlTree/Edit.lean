import SqlTree.Error

/-!
# SqlTree.Edit

Changing a node in place.  An `Edit` may fail, and the node is then what the
edit has made of it so far; `Edit.apply` is for those who build a new node
and have no use for a half-changed one.
-/

namespace SqlTree

/-- A change of a node that may fail on the way. -/
abbrev Edit (ν : Type) : Type := EStateM Error ν Unit

namespace Edit

/-- The changed node, or the error alone. -/
def apply {ν : Type} (edit : Edit ν) (node : ν) : Except Error ν :=
  match edit node with
  | .ok _ node => .ok node
  | .error e _ => .error e

/-- A change that cannot fail. -/
def always {ν : Type} (f : ν → ν) : Edit ν := fun node => .ok () (f node)

/-- A change that leaves the node alone if it fails. -/
def attempt {ν : Type} (f : ν → Except Error ν) : Edit ν := fun node =>
  match f node with
  | .ok node => .ok () node
  | .error e => .error e node

/-- A change of a part, which is put back in either case. -/
def part {ν χ : Type} (get : ν → χ) (put : χ → ν → ν) (edit : Edit χ) : Edit ν := fun node =>
  match edit (get node) with
  | .ok _ x => .ok () (put x node)
  | .error e x => .error e (put x node)

end Edit

end SqlTree
