import SqlTree.Delete
import SqlTree.Expression
import SqlTree.Path
import SqlTree.Proofs.Draft.Effect
import SqlTree.Proofs.Shipped
import SqlTree.Select

/-!
# SqlTree.Proofs.History

What can be done with nodes.  A `Maker` makes one, a `Builder` takes one and
answers another, a `Change` alters one in place, and a `Call` is any of
these or a compilation of the node that a path leads to.  `Reachable` are
the nodes that histories of calls lead to, where a call may use nodes with
histories of their own.
-/

namespace SqlTree

/-- A node of any kind. -/
abbrev AnyNode : Type := (k : Kind) × Node k

/-! ## What calls use -/

/-- The nodes in an operand. -/
def Operand.uses : Operand → List AnyNode
  | .expression e => [⟨.expression, e⟩]
  | .subquery s => [⟨.select, s⟩]
  | _ => []

/-- The nodes in a substitution. -/
def Filling.uses : Filling → List AnyNode
  | .subquery s => [⟨.select, s⟩]
  | _ => []

/-- The nodes in the source of a column. -/
def ColumnSource.uses : ColumnSource → List AnyNode
  | .reference _ => []
  | .expression e => [⟨.expression, e⟩]
  | .subquery s => [⟨.select, s⟩]

/-- The nodes in an item. -/
def Item.uses : Item → List AnyNode
  | .predicate p => [⟨.predicate, p⟩]
  | .group g => [⟨.group, g⟩]
  | .clause c => [⟨.clause, c⟩]
  | .raw _ | .spec _ => []

/-! ## New nodes -/

/-- A call that makes a node. -/
inductive Maker : Kind → Type where
  | select : Maker .select
  | insert : Maker .insert
  | update : Maker .update
  | delete : Maker .delete
  | group (default : Connective) : Maker .group
  | specification (spec : Json) : Maker .group
  | clause (kind : ClauseKind) : Maker .clause
  | table (kind : JoinKind) (name : String) : Maker .join
  | subquery (kind : JoinKind) (s : Select) : Maker .join
  | comparison (left : Reference) (op : Comparison) (right : Operand) : Maker .predicate
  | between (left : Reference) (negated : Bool) (low high : Operand) : Maker .predicate
  | inValues (left : Reference) (negated : Bool) (values : List Value) : Maker .predicate
  | inSelect (left : Reference) (negated : Bool) (s : Select) : Maker .predicate
  | like (left : Reference) (negated : Bool) (pattern : Operand) (escape : Option Char) :
      Maker .predicate
  | truth (left : Reference) (negated : Bool) (word : Truth) : Maker .predicate
  | existence (negated : Bool) (s : Select) : Maker .predicate
  | quantified (left : Reference) (op : Comparison) (quantifier : Quantifier) (s : Select) :
      Maker .predicate
  | literal (l : Literal) : Maker .predicate
  | tested (e : Expression) : Maker .predicate
  | expression (template : String) (slots : List Slot) : Maker .expression
  | reference (r : Reference) : Maker .reference

namespace Maker

/-- The node, unless the call is refused. -/
def make : {k : Kind} → Maker k → Except Error (Node k)
  | _, .select => .ok Select.empty
  | _, .insert => .ok Insert.empty
  | _, .update => .ok Update.empty
  | _, .delete => .ok Delete.empty
  | _, .group default => .ok (Group.empty default)
  | _, .specification spec => Group.ofSpec spec
  | _, .clause kind => .ok (Clause.empty kind)
  | _, .table kind name => Join.table kind name
  | _, .subquery kind s => .ok (Join.subquery kind s)
  | _, .comparison left op right => Predicate.compare left op right
  | _, .between left negated low high => Predicate.inRange left negated low high
  | _, .inValues left negated values => Predicate.inList left negated values
  | _, .inSelect left negated s => .ok (.inSelect left negated s)
  | _, .like left negated pattern escape => Predicate.matching left negated pattern escape
  | _, .truth left negated word => .ok (.truth left negated word)
  | _, .existence negated s => .ok (.existence negated s)
  | _, .quantified left op quantifier s => .ok (.quantified left op quantifier s)
  | _, .literal l => .ok (.literal l)
  | _, .tested e => .ok (.expression e)
  | _, .expression template slots => Expression.make template slots
  | _, .reference r => .ok r

/-- The nodes that the new one is made of. -/
def uses : {k : Kind} → Maker k → List AnyNode
  | _, .subquery _ s | _, .inSelect _ _ s | _, .existence _ s | _, .quantified _ _ _ s =>
      [⟨.select, s⟩]
  | _, .comparison _ _ right => right.uses
  | _, .between _ _ low high => low.uses ++ high.uses
  | _, .like _ _ pattern _ => pattern.uses
  | _, .tested e => [⟨.expression, e⟩]
  | _, .expression _ slots => slots.flatMap fun slot => slot.filling.uses
  | _, _ => []

end Maker

/-! ## Nodes for nodes -/

/-- A call that takes a node and answers another. -/
inductive Builder : Kind → Type where
  | distinct : Builder .select
  | column (src : ColumnSource) (alias? : Option String) : Builder .select
  | into (name : String) : Builder .select
  | fromTable (name : String) : Builder .select
  | fromTableAs (name known : String) : Builder .select
  | fromSubquery (inner : Select) (known : String) : Builder .select
  | join (j : Join) : Builder .select
  | selectWhere (item : Item) : Builder .select
  | selectOrWhere (item : Item) : Builder .select
  | having (item : Item) : Builder .select
  | groupBy (r : Reference) : Builder .select
  | combine (operation : SetOperation) (other : Select) : Builder .select
  | orderBy (r : Reference) (direction : Direction) : Builder .select
  | order (terms : String) : Builder .select
  | limit (count : Option UInt64) : Builder .select
  | offset (count : Option UInt64) : Builder .select
  | pretty (spread : Bool) : Builder .select
  | insertInto (name : String) : Builder .insert
  | columns (names : List String) : Builder .insert
  | row (values : List Operand) : Builder .insert
  | namedRow (pairs : List (String × Operand)) : Builder .insert
  | source (s : Select) : Builder .insert
  | updateTable (name : String) : Builder .update
  | set (name : String) (value : Operand) : Builder .update
  | setAll (pairs : List (String × Operand)) : Builder .update
  | updateWhere (item : Item) : Builder .update
  | updateOrWhere (item : Item) : Builder .update
  | deleteFrom (name : String) : Builder .delete
  | deleteWhere (item : Item) : Builder .delete
  | deleteOrWhere (item : Item) : Builder .delete
  | label (name : String) : Builder .join
  | on (item : Item) : Builder .join

namespace Builder

/-- The other node, unless the call is refused. -/
def build : {k : Kind} → Builder k → Node k → Except Error (Node k)
  | _, .distinct, s => .ok (Select.distinctRows s)
  | _, .column src alias?, s => Select.addColumn src alias? s
  | _, .into name, s => Select.intoTable name s
  | _, .fromTable name, s => Select.fromTable name s
  | _, .fromTableAs name known, s => Select.fromTableAs name known s
  | _, .fromSubquery inner known, s => Select.fromSubquery s inner known
  | _, .join j, s => .ok (Select.addJoin j s)
  | _, .selectWhere item, s => Select.whereItem item s
  | _, .selectOrWhere item, s => Select.orWhereItem item s
  | _, .having item, s => Select.havingItem item s
  | _, .groupBy r, s => .ok (Select.groupByTerm r s)
  | _, .combine operation other, s => Select.combine s operation other
  | _, .orderBy r direction, s => .ok (Select.orderByTerm r direction s)
  | _, .order terms, s => Select.order terms s
  | _, .limit count, s => .ok (Select.setLimit count s)
  | _, .offset count, s => .ok (Select.setOffset count s)
  | _, .pretty spread, s => .ok (Select.setPretty spread s)
  | _, .insertInto name, i => Insert.intoTable name i
  | _, .columns names, i => Insert.setColumns names i
  | _, .row values, i => Insert.addRow values i
  | _, .namedRow pairs, i => Insert.addNamedRow pairs i
  | _, .source s, i => Insert.fromSelect s i
  | _, .updateTable name, u => Update.setTable name u
  | _, .set name value, u => Update.set name value u
  | _, .setAll pairs, u => Update.setAll pairs u
  | _, .updateWhere item, u => Update.whereItem item u
  | _, .updateOrWhere item, u => Update.orWhereItem item u
  | _, .deleteFrom name, d => Delete.fromTable name d
  | _, .deleteWhere item, d => Delete.whereItem item d
  | _, .deleteOrWhere item, d => Delete.orWhereItem item d
  | _, .label name, j => Join.withAlias name j
  | _, .on item, j => Join.onItem item j

/-- The nodes that go into the other one besides the first. -/
def uses : {k : Kind} → Builder k → List AnyNode
  | _, .column src _ => src.uses
  | _, .fromSubquery inner _ => [⟨.select, inner⟩]
  | _, .join j => [⟨.join, j⟩]
  | _, .combine _ other => [⟨.select, other⟩]
  | _, .source s => [⟨.select, s⟩]
  | _, .row values => values.flatMap Operand.uses
  | _, .namedRow pairs | _, .setAll pairs => (pairs.map Prod.snd).flatMap Operand.uses
  | _, .set _ value => value.uses
  | _, .selectWhere item | _, .selectOrWhere item | _, .having item | _, .updateWhere item | _,
      .updateOrWhere item
  | _, .deleteWhere item | _, .deleteOrWhere item | _, .on item => item.uses
  | _, _ => []

end Builder

/-! ## Changes in place -/

/-- A call that alters a node in place. -/
inductive Change : Kind → Type where
  | add (item : Item) : Change .group
  | addJoined (connective : Connective) (item : Item) : Change .group
  | joinNext (connective : Connective) : Change .group
  | setDefault (connective : Connective) : Change .group
  | clear : Change .group
  | addTo (item : Item) : Change .clause

namespace Change

/-- The change as an edit. -/
def edit : {k : Kind} → Change k → Edit (Node k)
  | _, .add item => Group.add item
  | _, .addJoined connective item => Group.addJoined connective item
  | _, .joinNext connective => Edit.always (Group.joinNext connective)
  | _, .setDefault connective => Edit.always (Group.setDefault connective)
  | _, .clear => Edit.always Group.clear
  | _, .addTo item => Clause.add item

/-- The nodes that are put into the changed one. -/
def uses : {k : Kind} → Change k → List AnyNode
  | _, .add item | _, .addJoined _ item | _, .addTo item => item.uses
  | _, _ => []

end Change

/-! ## Calls -/

/-- A call on a node: looking at it, putting another one in its place,
building on it, changing it, or compiling it in a shipped dialect, as a
whole, into a collector, or with its values written in. -/
inductive Call (k : Kind) : Type where
  | look
  | replace (n : Node k)
  | build (b : Builder k)
  | change (c : Change k)
  | compile (d : Dialect) (shipped : d.Shipped)
  | compileInto (d : Dialect) (shipped : d.Shipped) (c : Collector)
  | inlined (d : Dialect) (shipped : d.Shipped)

namespace Call

variable {k : Kind}

/-- The node that a call leaves, also when it fails.  After a builder that
refuses, it is a copy. -/
def act : Call k → Node k → Node k
  | .look, n => n
  | .replace other, _ => other
  | .build b, n =>
    match b.build n with
    | .ok n => n
    | .error _ => Node.fresh k n
  | .change c, n => left (c.edit n)
  | .compile d _, n => left (Node.compile d k n)
  | .compileInto d _ c, n => (left (Node.compileInto d k n c)).1
  | .inlined d _, n => left (Node.inlined d k n)

/-- The nodes that a call uses besides the one it is made on. -/
def uses : Call k → List AnyNode
  | .replace other => [⟨k, other⟩]
  | .build b => b.uses
  | .change c => c.uses
  | _ => []

end Call

/-! ## Histories -/

/-- The nodes that histories lead to: new ones, what calls on the nodes at
the ends of paths leave, nodes inside of others, and copies. -/
inductive Reachable : (k : Kind) → Node k → Prop where
  | made {k : Kind} (maker : Maker k) {n : Node k} (uses : ∀ u ∈ maker.uses, Reachable u.1 u.2)
      (h : maker.make = .ok n) : Reachable k n
  | called {k m : Kind} (path : Path k m) (call : Call m) {n : Node k} (node : Reachable k n)
      (uses : ∀ u ∈ call.uses, Reachable u.1 u.2) :
        Reachable k (path.edit (fun inner => ((), call.act inner)) n).2
  | inner {k m : Kind} (path : Path k m) {n : Node k} {found : Node m} (node : Reachable k n)
      (h : (path.edit (fun inner => (inner, inner)) n).1 = some found) : Reachable m found
  | copied {k : Kind} {n : Node k} (node : Reachable k n) : Reachable k (Node.fresh k n)

end SqlTree
