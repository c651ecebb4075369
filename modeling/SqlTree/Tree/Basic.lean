import SqlTree.Cache
import SqlTree.Template

/-!
# SqlTree.Tree.Basic

The tree of a select.  Operands, expressions, predicates, clauses, joins
and selects contain each other, so they are one family of types.  A group
of predicates, a join and a select keep the text they were last compiled to
(`cache`); a select keeps the texts of its columns as well (`columnTexts`).
Whoever changes a node clears what the node keeps, and whoever reaches a
node through the nodes above it clears theirs.
-/

namespace SqlTree

mutual

/-- The right-hand side of a predicate, and what is written to a column. -/
inductive Operand where
  | value (v : Value)
  | identifier (i : Identifier)
  | literal (l : Literal)
  | expression (e : Expression)
  | subquery (s : Select)

/-- What a placeholder is replaced by. -/
inductive Filling where
  | value (v : Value)
  | identifier (i : Identifier)
  | alias (a : Alias)
  | literal (l : Literal)
  | subquery (s : Select)

/-- The substitution for one placeholder. -/
structure Slot where
  name : String
  filling : Filling

/-- A template with its substitutions. -/
structure Expression where
  template : String
  slots : List Slot

/-- A boolean test, or a group of them. -/
inductive Predicate where
  | comparison (left : Reference) (op : Comparison) (right : Operand)
  | between (left : Reference) (negated : Bool) (low high : Operand)
  | inValues (left : Reference) (negated : Bool) (values : List Value) (orNull : Bool)
  | inSelect (left : Reference) (negated : Bool) (select : Select)
  | like (left : Reference) (negated : Bool) (pattern : Operand) (escape : Option Char)
  | truth (left : Reference) (negated : Bool) (word : Truth)
  | existence (negated : Bool) (select : Select)
  | quantified (left : Reference) (op : Comparison) (quantifier : Quantifier) (select : Select)
  | literal (l : Literal)
  | expression (e : Expression)
  | group (g : Group)

/-- A predicate and what joins it to those before it. -/
structure Term where
  connective : Connective
  predicate : Predicate

/-- Predicates joined by connectives.  A new one is joined by the pending
connective if there is one, else by the default one. -/
structure Group where
  terms : List Term
  default : Connective
  pending : Option Connective
  nested : Bool
  cache : Cache

/-- A keyword and a group, which is made when it is first asked for. -/
structure Clause where
  kind : ClauseKind
  group? : Option Group

/-- What is joined. -/
inductive JoinTarget where
  | table (name : Identifier)
  | subquery (s : Select)

/-- A joined table or subquery with its condition. -/
structure Join where
  kind : JoinKind
  target : JoinTarget
  alias? : Option Alias
  on : Clause
  cache : Cache

/-- Where the values of a column come from. -/
inductive ColumnSource where
  | reference (r : Reference)
  | expression (e : Expression)
  | subquery (s : Select)

/-- A column of a select. -/
structure Column where
  source : ColumnSource
  alias? : Option Alias

/-- Where the rows of a select come from. -/
inductive Origin where
  | table (name : Identifier) (alias? : Option Alias)
  | subquery (s : Select) (a : Alias)

/-- A select.  `nesting` counts the selects that this one is the origin of,
one inside the other. -/
structure Select where
  distinct : Bool
  columns : List Column
  into? : Option Identifier
  origin? : Option Origin
  joins : List Join
  filter : Clause
  groupBy : List Reference
  having : Clause
  combined? : Option (SetOperation × Select)
  orderBy : List (Reference × Direction)
  limit : Option UInt64
  offset : Option UInt64
  nesting : Nat
  pretty : Bool
  columnTexts : Option ColumnTexts
  cache : Cache

end

/-! ## Nodes without content -/

/-- A clause without a group. -/
def Clause.empty (kind : ClauseKind) : Clause := ⟨kind, none⟩

/-- A group without terms. -/
def Group.empty (default : Connective) : Group := ⟨[], default, none, false, none⟩

/-- A select of everything from nowhere. -/
def Select.empty : Select where
  distinct := false
  columns := []
  into? := none
  origin? := none
  joins := []
  filter := Clause.empty .filter
  groupBy := []
  having := Clause.empty .having
  combined? := none
  orderBy := []
  limit := none
  offset := none
  nesting := 0
  pretty := false
  columnTexts := none
  cache := none

/-! ## Clearing -/

namespace Group

/-- The group without its kept text. -/
def uncached (g : Group) : Group := { g with cache := none }

/-- A text is kept. -/
def isCached (g : Group) : Bool := g.cache.isSome

end Group

namespace Join

/-- The join without its kept text. -/
def uncached (j : Join) : Join := { j with cache := none }

/-- A text is kept. -/
def isCached (j : Join) : Bool := j.cache.isSome

end Join

namespace Select

/-- The select without its kept text; the texts of its columns stay. -/
def uncached (s : Select) : Select := { s with cache := none }

/-- The select without anything kept. -/
def touched (s : Select) : Select := { s with cache := none, columnTexts := none }

/-- A text is kept. -/
def isCached (s : Select) : Bool := s.cache.isSome

end Select

end SqlTree
