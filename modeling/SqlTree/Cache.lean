import SqlTree.Dialect.Basic

/-!
# SqlTree.Cache

Compiled text kept on a node.  A node is compiled either as a whole, with a
collector of its own, or as a part of a larger statement, into the
collector of that statement.  What is kept says which of the two it was:
a whole text is kept with its collector, and a part that bound values is of
no use to anyone else, as its markers belong to one collector.  So
`Cache.wholeText?` asks for a collector and `Cache.partText?` asks that
nothing was bound, both under the fingerprint of the dialect.
-/

namespace SqlTree

/-- A text that a node was compiled to. -/
structure Stored where
  fingerprint : Dialect.Fingerprint
  sql : String
  bindsValues : Bool
  collector : Option Collector
deriving DecidableEq

/-- What a node keeps, if anything. -/
abbrev Cache : Type := Option Stored

namespace Cache

/-- The text that compiling the node as a whole would give again. -/
def wholeText? (cache : Cache) (d : Dialect) : Option String :=
  match cache with
  | some s => if s.fingerprint = d.fingerprint ∧ s.collector.isSome then some s.sql else none
  | none => none

/-- The text that compiling the node as a part would give again, whatever
the collector. -/
def partText? (cache : Cache) (d : Dialect) : Option String :=
  match cache with
  | some s => if s.fingerprint = d.fingerprint ∧ !s.bindsValues then some s.sql else none
  | none => none

/-- The values of the last whole text, as long as it is kept. -/
def collector? (cache : Cache) : Option Collector := cache.bind Stored.collector

end Cache

/-- The texts of the columns of a select, kept under a fingerprint. -/
structure ColumnTexts where
  fingerprint : Dialect.Fingerprint
  texts : List String
deriving DecidableEq

/-- The texts kept for a dialect. -/
def ColumnTexts.find? (memo : Option ColumnTexts) (d : Dialect) : Option (List String) :=
  match memo with
  | some m => if m.fingerprint = d.fingerprint then some m.texts else none
  | none => none

end SqlTree
