import SqlTree.Tree.Basic

/-!
# SqlTree.Expression

Building expressions.  The names of the slots are exactly the placeholders
of the template, each given once; anything else is refused.
-/

namespace SqlTree

namespace Expression

/-- The expression of a template and the substitutions for its
placeholders. -/
def make (template : String) (slots : List Slot) : Except Error Expression := do
  checkTemplate template (slots.map Slot.name)
  return ⟨template, slots⟩

/-- The expression of a template without placeholders. -/
def raw (template : String) : Except Error Expression := make template []

/-! ## Laws -/

theorem template_make {template : String} {slots : List Slot} {e : Expression} (h : make template slots = .ok e) :
    e = ⟨template, slots⟩ ∧ templateFault template (slots.map Slot.name) = none := by
  simp only [make, checkTemplate] at h
  split at h
  · cases h
  · rename_i hf
    cases h
    exact ⟨rfl, hf⟩

end Expression

end SqlTree
