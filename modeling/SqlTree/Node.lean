import SqlTree.Compile.Statement
import SqlTree.Inline

/-!
# SqlTree.Node

Every kind of node under one roof.  `Node k` is the type of the nodes of
kind `k`, and what can be done with any of them is said here once:
compiling it as a whole (`Node.compile`) or into a collector
(`Node.compileInto`), asking what it keeps, copying it without that
(`Node.fresh`), and writing its values into its text (`Node.inlined`).
-/

namespace SqlTree

/-- The kinds of nodes. -/
inductive Kind where
  | select
  | insert
  | update
  | delete
  | group
  | clause
  | join
  | predicate
  | expression
  | reference
deriving DecidableEq

/-- The nodes of a kind. -/
def Node : Kind → Type
  | .select => Select
  | .insert => Insert
  | .update => Update
  | .delete => Delete
  | .group => Group
  | .clause => Clause
  | .join => Join
  | .predicate => Predicate
  | .expression => Expression
  | .reference => Reference

namespace Node

/-- Compiles a node with a collector of its own. -/
def compile (d : Dialect) : (k : Kind) → Node k → EStateM.Result Error (Node k) String
  | .select, s => Select.compile d s
  | .insert, i => Insert.compile d i
  | .update, u => Update.compile d u
  | .delete, del => Delete.compile d del
  | .group, g => Group.compile d g
  | .clause, c => Clause.compile d c
  | .join, j => Join.compile d j
  | .predicate, p => Predicate.compile d p
  | .expression, e => Expression.compile d e
  | .reference, r => .ok (Reference.quoted d r) r

/-- Compiles a node as a part of what the collector belongs to. -/
def compileInto (d : Dialect) : (k : Kind) → Node k → Run (Node k) String
  | .select, s => Select.compileInto d s
  | .insert, i => Insert.compileInto d i
  | .update, u => Update.compileInto d u
  | .delete, del => Delete.compileInto d del
  | .group, g => Group.compileInto d g
  | .clause, c => Clause.run d c
  | .join, j => Join.compileInto d j
  | .predicate, p => Predicate.run d p
  | .expression, e => Expression.run d e
  | .reference, r => Run.pure (Reference.quoted d r) r

/-- What a node keeps, for the kinds that keep something. -/
def cache? : (k : Kind) → Node k → Option Cache
  | .select, s => some (Select.cache s)
  | .insert, i => some (Insert.cache i)
  | .update, u => some (Update.cache u)
  | .delete, d => some (Delete.cache d)
  | .group, g => some (Group.cache g)
  | .join, j => some (Join.cache j)
  | .clause, _ | .predicate, _ | .expression, _ | .reference, _ => none

/-- The values of the last text as a whole, as long as it is kept. -/
def collector? (k : Kind) (n : Node k) : Option Collector := (cache? k n).bind Cache.collector?

/-- The last text as a whole is kept and bound values. -/
def bindsValues (k : Kind) (n : Node k) : Bool :=
  match collector? k n with
  | some c => c.size != 0
  | none => false

/-- A copy with nothing kept in it or below. -/
def fresh : (k : Kind) → Node k → Node k
  | .select, s => Select.fresh s
  | .insert, i => Insert.fresh i
  | .update, u => Update.fresh u
  | .delete, d => Delete.fresh d
  | .group, g => Group.fresh g
  | .clause, c => Clause.fresh c
  | .join, j => Join.fresh j
  | .predicate, p => Predicate.fresh p
  | .expression, e => Expression.fresh e
  | .reference, r => r

/-- The text of a node with its values written in. -/
def inlined (d : Dialect) (k : Kind) (n : Node k) : EStateM.Result Error (Node k) String :=
  match compile d k n with
  | .error e n => .error e n
  | .ok sql n =>
    match collector? k n with
    | none => .ok sql n
    | some c =>
      match c.inline sql d with
      | .ok text => .ok text n
      | .error e => .error e n

end Node

end SqlTree
