import SqlTree.Edit
import SqlTree.Spec

/-!
# SqlTree.Group

Adding to groups and clauses.  What can be added is an `Item`: raw SQL, a
predicate, a group, the predicates of a clause, or a specification, whose
terms are gathered apart first.  An item that is refused leaves the group as
it was; a clause that never had predicates is accepted and adds nothing.
`Group.add` joins the item by the pending connective or the default one,
`Group.addJoined` makes a connective pending first.
-/

namespace SqlTree

/-- What can be added to a group. -/
inductive Item where
  | raw (sql : String)
  | predicate (p : Predicate)
  | group (g : Group)
  | clause (c : Clause)
  | spec (j : Json)

namespace Group

/-- A group to gather terms in, which are joined as they would be in the group
itself. -/
def staged (g : Group) : Group := { Group.empty g.default with pending := g.pending }

/-- The group with the gathered terms behind its own. -/
def withGathered (g gathered : Group) : Group :=
  { g with terms := g.terms ++ gathered.terms, pending := gathered.pending, cache := none }

/-- The group with an item added. -/
def added (item : Item) (g : Group) : Except Error Group :=
  match item with
  | .raw sql => (Predicate.ofText sql).map g.push
  | .predicate p => .ok (g.push p)
  | .group inner => .ok (g.pushGroup inner)
  | .clause ⟨_, none⟩ => .ok g
  | .clause ⟨_, some inner⟩ => .ok (g.pushGroup inner)
  | .spec j => (g.staged.specify j).map g.withGathered

/-- Adds an item. -/
def add (item : Item) : Edit Group := Edit.attempt (added item)

/-- Adds an item joined by the connective. -/
def addJoined (connective : Connective) (item : Item) : Edit Group := fun g =>
  add item (g.joinNext connective)

/-- Appends an empty group. -/
def nest (connective : Connective) (g : Group) : Group := g.pushGroup (Group.empty connective)

/-- Removes every term. -/
def clear (g : Group) : Group := { g with terms := [], pending := none, cache := none }

/-- Later items are joined by the connective. -/
def setDefault (connective : Connective) (g : Group) : Group := { g with default := connective }

/-- There are no terms. -/
def isEmpty (g : Group) : Bool := g.terms.isEmpty

/-- The number of terms, empty groups included. -/
def size (g : Group) : Nat := g.terms.length

/-! ## Laws -/

theorem terms_push (p : Predicate) (g : Group) :
    (g.push p).terms = g.terms ++ [⟨g.pending.getD g.default, p⟩] := rfl

@[simp] theorem pending_push (p : Predicate) (g : Group) : (g.push p).pending = none := rfl

/-- An item that is refused leaves the group as it was. -/
theorem add_error {item : Item} {g g' : Group} {e : Error} (h : add item g = .error e g') :
    g' = g := by
  simp only [add, Edit.attempt] at h
  split at h <;> cases h
  rfl

end Group

namespace Clause

/-- The group of the clause, an empty one if it has none yet. -/
def groupOrEmpty (c : Clause) : Group := c.group?.getD (Group.empty .and)

/-- The clause with its group made. -/
def opened (c : Clause) : Clause := { c with group? := some c.groupOrEmpty }

/-- Changes the group of the clause, which is made first if need be. -/
def onGroup (edit : Edit Group) : Edit Clause :=
  Edit.part groupOrEmpty (fun g c => { c with group? := some g }) edit

/-- Adds an item to the clause. -/
def add (item : Item) : Edit Clause := onGroup (Group.add item)

/-- There are no predicates. -/
def isEmpty (c : Clause) : Bool := c.groupOrEmpty.isEmpty

end Clause

end SqlTree
