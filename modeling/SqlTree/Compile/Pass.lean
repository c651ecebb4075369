import SqlTree.Cache

/-!
# SqlTree.Compile.Pass

Compiling a node answers a text or an error, and in both cases the node
with what it and its children keep by then, and the collector: an
`Outcome`.  A `Run` waits for the collector only; the node it is about is
fixed.  Runs are put together by `Run.map`, `Run.both` and `Run.cons`, and a
node with several children is rebuilt step by step in a `Pass`, which holds
the node and visits one child after the other.

`asPart` and `asWhole` are the caching protocol around the body of a node:
use what is kept if it fits, else drop it, run the body and keep the
result.  A body that fails leaves nothing kept, and as a part it takes back
what it bound: the collector is cut back to what it was.
-/

namespace SqlTree

/-- What compiling a node of type `ν` comes to. -/
abbrev Outcome (ν α : Type) : Type := EStateM.Result Error (ν × Collector) α

/-- A compilation that waits for the collector. -/
abbrev Run (ν α : Type) : Type := Collector → Outcome ν α

/-- Steps that rebuild a node while its parts are compiled. -/
abbrev Pass (ν α : Type) : Type := EStateM Error (ν × Collector) α

namespace Outcome

/-- The same outcome with another text, for another node. -/
def map {ν μ α β : Type} (text : α → β) (node : ν → μ) : Outcome ν α → Outcome μ β
  | .ok a (n, c) => .ok (text a) (node n, c)
  | .error e (n, c) => .error e (node n, c)

/-- The same outcome, with the collector cut back to an earlier one if it is
an error. -/
def orRestore {ν α : Type} (before : Collector) : Outcome ν α → Outcome ν α
  | .ok a s => .ok a s
  | .error e (n, c) => .error e (n, c.backTo before)

end Outcome

namespace Run

/-- Nothing to compile. -/
def pure {ν α : Type} (a : α) (node : ν) : Run ν α := fun c => .ok a (node, c)

/-- An action on the collector alone. -/
def collect {ν α : Type} (action : Collecting α) (node : ν) : Run ν α := fun c =>
  match action c with
  | .ok a c => .ok a (node, c)
  | .error e c => .error e (node, c)

/-- The same run with another text, for another node. -/
def map {ν μ α β : Type} (text : α → β) (node : ν → μ) (run : Run ν α) : Run μ β := fun c =>
  (run c).map text node

/-- The run, which takes back what it bound if it fails. -/
def orRestore {ν α : Type} (run : Run ν α) : Run ν α := fun c => (run c).orRestore c

/-- Two runs in order; the second node stays `y` if the first run fails. -/
def both {ν μ α β : Type} (first : Run ν α) (y : μ) (second : Run μ β) : Run (ν × μ) (α × β) := fun c =>
  match first c with
  | .error e (x, c) => .error e ((x, y), c)
  | .ok a (x, c) => (second c).map (fun b => (a, b)) (fun y => (x, y))

/-- A run and those after it, on a list of nodes; the rest stays `ys` if the
first run fails. -/
def cons {ν α : Type} (first : Run ν α) (ys : List ν) (rest : Run (List ν) (List α)) :
    Run (List ν) (List α) := fun c =>
  match first c with
  | .error e (x, c) => .error e (x :: ys, c)
  | .ok a (x, c) => (rest c).map (a :: ·) (x :: ·)

end Run

namespace Pass

/-- Runs on a part of the node and puts the part back. -/
def visit {ν χ α : Type} (put : χ → ν → ν) (run : Run χ α) : Pass ν α := fun (n, c) =>
  (run c).map id (fun x => put x n)

/-- An action on the collector alone. -/
def collect {ν α : Type} (action : Collecting α) : Pass ν α := fun (n, c) => Run.collect action n c

/-- Changes the node. -/
def adjust {ν : Type} (f : ν → ν) : Pass ν Unit := fun (n, c) => .ok () (f n, c)

/-- Fails. -/
def fail {ν α : Type} (e : Error) : Pass ν α := fun s => .error e s

/-- The steps as a run from the given node. -/
def run {ν α : Type} (pass : Pass ν α) (node : ν) : Run ν α := fun c => pass (node, c)

end Pass

/-! ## The caching protocol -/

/-- A node that keeps the text it was compiled to. -/
class Keeps (ν : Type) where
  cache : ν → Cache
  keep : Cache → ν → ν
  cache_keep (kept : Cache) (n : ν) : cache (keep kept n) = kept

variable {ν : Type} [Keeps ν]

/-- The node with the result of a body as a part: the text is kept, an
error takes back what was bound. -/
def keepPart (d : Dialect) (before : Collector) : Outcome ν String → Outcome ν String
  | .ok sql (n, c) => .ok sql (Keeps.keep (some ⟨d.fingerprint, sql, c.size != before.size, none⟩) n, c)
  | .error e (n, c) => .error e (n, c.backTo before)

/-- Compiles a node as a part of what the collector belongs to. -/
def asPart (d : Dialect) (node : ν) (body : Pass ν String) : Run ν String := fun c =>
  match (Keeps.cache node).partText? d with
  | some sql => .ok sql (node, c)
  | none => keepPart d c (body.run (Keeps.keep none node) c)

/-- The node with the result of a body as a whole: the text is kept with
its collector. -/
def keepWhole (d : Dialect) : Outcome ν String → EStateM.Result Error ν String
  | .ok sql (n, c) => .ok sql (Keeps.keep (some ⟨d.fingerprint, sql, c.size != 0, some c⟩) n)
  | .error e (n, _) => .error e n

/-- Compiles a node with a collector of its own. -/
def asWhole (d : Dialect) (node : ν) (body : Pass ν String) : EStateM.Result Error ν String :=
  match (Keeps.cache node).wholeText? d with
  | some sql => .ok sql node
  | none => keepWhole d (body.run (Keeps.keep none node) (Collector.empty d.style))

/-- Compiles a node that keeps nothing with a collector of its own, which
is forgotten. -/
def unkept {μ : Type} (d : Dialect) (run : Run μ String) : EStateM.Result Error μ String :=
  match run (Collector.empty d.style) with
  | .ok sql (n, _) => .ok sql n
  | .error e (n, _) => .error e n

end SqlTree
