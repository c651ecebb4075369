import SqlTree.Join
import SqlTree.Node

/-!
# SqlTree.Path

Ways into a tree.  A `Hop` leads from a node to one below it.  Going there
first changes the node itself (`Hop.enter`): what it keeps is dropped, as
whoever goes there may change what lies below, and a clause gets its group,
or a group a new group to go to.  Then the lower node is looked up
(`Hop.find?`) and, when it comes back changed, put in its place
(`Hop.put`).  A `Path` is a row of hops, and `Path.edit` changes the node at
its end.
-/

namespace SqlTree

/-- A way from a node to one below it. -/
inductive Hop : Kind → Kind → Type where
  | selectFilter : Hop .select .group
  | updateFilter : Hop .update .group
  | deleteFilter : Hop .delete .group
  | having : Hop .select .group
  | join (index : Nat) : Hop .select .join
  | origin : Hop .select .select
  | source : Hop .insert .select
  | condition : Hop .join .group
  | joined : Hop .join .select
  | predicates : Hop .clause .group
  | term (index : Nat) : Hop .group .predicate
  | nest (connective : Connective) : Hop .group .group
  | asGroup : Hop .predicate .group
  | subquery : Hop .predicate .select

namespace Predicate

/-- The select that the predicate tests against, if it does. -/
def select? : Predicate → Option Select
  | .inSelect _ _ s | .existence _ s | .quantified _ _ _ s | .comparison _ _ (.subquery s) => some s
  | _ => none

/-- Tests against another select. -/
def putSelect (s : Select) : Predicate → Predicate
  | .inSelect left negated _ => .inSelect left negated s
  | .existence negated _ => .existence negated s
  | .quantified left op quantifier _ => .quantified left op quantifier s
  | .comparison left op (.subquery _) => .comparison left op (.subquery s)
  | p => p

/-- Another group, for a predicate that is one. -/
def putGroup (g : Group) : Predicate → Predicate
  | .group _ => .group g
  | p => p

end Predicate

namespace Select

/-- The subquery that rows come from. -/
def originSelect? (s : Select) : Option Select :=
  match s.origin? with
  | some (.subquery inner _) => some inner
  | _ => none

/-- Takes the rows from another subquery, if they come from one. -/
def putOriginSelect (s inner : Select) : Select :=
  match s.origin? with
  | some (.subquery _ a) => { s with origin? := some (.subquery inner a) }
  | _ => s

end Select

namespace Join

/-- The joined subquery. -/
def select? (j : Join) : Option Select :=
  match j.target with
  | .subquery s => some s
  | .table _ => none

/-- Joins another subquery, if one is joined. -/
def putSelect (s : Select) (j : Join) : Join :=
  match j.target with
  | .subquery _ => { j with target := .subquery s }
  | .table _ => j

end Join

namespace Clause

/-- Another group. -/
def putGroup (g : Group) (c : Clause) : Clause := { c with group? := some g }

end Clause

namespace Group

/-- The predicate of the term at an index. -/
def predicateAt? (i : Nat) (g : Group) : Option Predicate := g.terms[i]?.map Term.predicate

/-- Another predicate for the term at an index. -/
def putPredicateAt (i : Nat) (p : Predicate) (g : Group) : Group :=
  { g with terms := g.terms.modify i fun t => { t with predicate := p } }

/-- The index of the last term. -/
def lastIndex (g : Group) : Nat := g.terms.length - 1

end Group

namespace Hop

/-- The node as it is once somebody goes below. -/
def enter : {k l : Kind} → Hop k l → Node k → Node k
  | _, _, .selectFilter, (s : Select) => { s.touched with filter := s.filter.opened }
  | _, _, .updateFilter, (u : Update) => { u.uncached with filter := u.filter.opened }
  | _, _, .deleteFilter, (d : Delete) => { d.uncached with filter := d.filter.opened }
  | _, _, .having, (s : Select) => { s.touched with having := s.having.opened }
  | _, _, .join _, (s : Select) => s.touched
  | _, _, .origin, (s : Select) => s.touched
  | _, _, .source, (i : Insert) => i.uncached
  | _, _, .condition, (j : Join) => { j.uncached with on := j.on.opened }
  | _, _, .joined, (j : Join) => j.uncached
  | _, _, .predicates, (c : Clause) => c.opened
  | _, _, .term _, (g : Group) => g.uncached
  | _, _, .nest connective, (g : Group) => g.nest connective
  | _, _, .asGroup, p => p
  | _, _, .subquery, p => p

/-- The lower node, if there is one. -/
def find? : {k l : Kind} → Hop k l → Node k → Option (Node l)
  | _, _, .selectFilter, (s : Select) => s.filter.group?
  | _, _, .updateFilter, (u : Update) => u.filter.group?
  | _, _, .deleteFilter, (d : Delete) => d.filter.group?
  | _, _, .having, (s : Select) => s.having.group?
  | _, _, .join i, (s : Select) => s.joins[i]?
  | _, _, .origin, (s : Select) => s.originSelect?
  | _, _, .source, (i : Insert) => i.source?
  | _, _, .condition, (j : Join) => j.on.group?
  | _, _, .joined, (j : Join) => j.select?
  | _, _, .predicates, (c : Clause) => c.group?
  | _, _, .term i, (g : Group) => g.predicateAt? i
  | _, _, .nest _, (g : Group) => (g.predicateAt? g.lastIndex).bind Predicate.group?
  | _, _, .asGroup, (p : Predicate) => p.group?
  | _, _, .subquery, (p : Predicate) => p.select?

/-- Puts a lower node in its place. -/
def put : {k l : Kind} → Hop k l → Node l → Node k → Node k
  | _, _, .selectFilter, g, (s : Select) => { s with filter := s.filter.putGroup g }
  | _, _, .updateFilter, g, (u : Update) => { u with filter := u.filter.putGroup g }
  | _, _, .deleteFilter, g, (d : Delete) => { d with filter := d.filter.putGroup g }
  | _, _, .having, g, (s : Select) => { s with having := s.having.putGroup g }
  | _, _, .join i, j, (s : Select) => { s with joins := s.joins.set i j }
  | _, _, .origin, inner, (s : Select) => s.putOriginSelect inner
  | _, _, .source, s, (i : Insert) => { i with source? := some s }
  | _, _, .condition, g, (j : Join) => { j with on := j.on.putGroup g }
  | _, _, .joined, s, (j : Join) => j.putSelect s
  | _, _, .predicates, g, (c : Clause) => c.putGroup g
  | _, _, .term i, p, (g : Group) => g.putPredicateAt i p
  | _, _, .nest _, inner, (g : Group) => g.putPredicateAt g.lastIndex (.group inner)
  | _, _, .asGroup, g, (p : Predicate) => p.putGroup g
  | _, _, .subquery, s, (p : Predicate) => p.putSelect s

end Hop

/-- Hops one after the other. -/
inductive Path : Kind → Kind → Type where
  | here {k : Kind} : Path k k
  | via {k l m : Kind} (hop : Hop k l) (rest : Path l m) : Path k m

/-- Changes the node at the end of a path.  If the path leads nowhere, the
nodes along it are left as they were entered. -/
def Path.edit {α : Type} : {k m : Kind} → Path k m → (Node m → α × Node m) → Node k → Option α × Node k
  | _, _, .here, f, n => ((f n).1, (f n).2)
  | _, _, .via hop rest, f, n =>
    match hop.find? (hop.enter n) with
    | none => (none, hop.enter n)
    | some child => ((rest.edit f child).1, hop.put (rest.edit f child).2 (hop.enter n))

end SqlTree
