import SqlTree.Proofs.Caching.Transparency

/-!
# SqlTree.Proofs.Invariant

What histories keep.  An `Access` says which hops may be taken from which
nodes, and `ReachableBy` are the nodes that histories lead to in which nobody
takes another hop.  A property that new nodes have, that every method keeps
and that goes along with every such hop, down and back, holds of all of them
(`Invariant.holds`).  What a node keeps must play no part in it, so compiling
needs no attention.
-/

namespace SqlTree

/-! ## Histories with limited access -/

/-- Which hops may be taken from which nodes. -/
abbrev Access : Type := (k l : Kind) → Hop k l → Node k → Prop

/-- Every hop may be taken. -/
def Access.free : Access := fun _ _ _ _ => True

/-- All hops of a path may be taken. -/
def Path.Allowed (access : Access) : {k m : Kind} → Path k m → Node k → Prop
  | _, _, .here, _ => True
  | _, _, .via hop rest, n =>
    access _ _ hop n ∧ ∀ child, hop.find? (hop.enter n) = some child → rest.Allowed access child

/-- The nodes that histories with limited access lead to. -/
inductive ReachableBy (access : Access) : (k : Kind) → Node k → Prop where
  | made {k : Kind} (maker : Maker k) {n : Node k}
      (uses : ∀ u ∈ maker.uses, ReachableBy access u.1 u.2) (h : maker.make = .ok n) :
        ReachableBy access k n
  | called {k m : Kind} (path : Path k m) (call : Call m) {n : Node k}
      (node : ReachableBy access k n) (uses : ∀ u ∈ call.uses, ReachableBy access u.1 u.2)
      (allowed : path.Allowed access n) :
        ReachableBy access k (path.edit (fun inner => ((), call.act inner)) n).2
  | inner {k m : Kind} (path : Path k m) {n : Node k} {found : Node m}
      (node : ReachableBy access k n) (allowed : path.Allowed access n)
      (h : (path.edit (fun inner => (inner, inner)) n).1 = some found) :
        ReachableBy access m found
  | copied {k : Kind} {n : Node k} (node : ReachableBy access k n) :
      ReachableBy access k (Node.fresh k n)

variable {access : Access} {k l m : Kind}

theorem Path.allowed_free (path : Path k m) (n : Node k) : path.Allowed .free n := by
  induction path with
  | here => trivial
  | via hop rest ih => exact ⟨trivial, fun child _ => ih child⟩

/-- Limited access leads nowhere else. -/
theorem ReachableBy.reachable {n : Node k} (h : ReachableBy access k n) : Reachable k n := by
  induction h with
  | made maker _ hmake ihuses => exact .made maker ihuses hmake
  | called path call _ _ _ ih ihuses => exact .called path call ih ihuses
  | inner path _ _ hfound ih => exact .inner path ih hfound
  | copied _ ih => exact .copied ih

theorem Reachable.free {n : Node k} (h : Reachable k n) : ReachableBy .free k n := by
  induction h with
  | made maker _ hmake ihuses => exact .made maker ihuses hmake
  | called path call _ _ ih ihuses => exact .called path call ih ihuses (path.allowed_free _)
  | inner path _ hfound ih => exact .inner path ih (path.allowed_free _) hfound
  | copied _ ih => exact .copied ih

/-! ## Invariants -/

/-- A property that histories keep: what a node keeps plays no part in it, new
nodes have it, it stays when nodes are built and changed, and it is handed
down and back by the hops that may be taken. -/
structure Invariant (access : Access) (P : (k : Kind) → Node k → Prop) : Prop where
  fresh : ∀ {k : Kind} (n : Node k), P k (Node.fresh k n) ↔ P k n
  make : ∀ {k : Kind} {maker : Maker k} {n : Node k}, (∀ u ∈ maker.uses, P u.1 u.2) →
    maker.make = .ok n → P k n
  build : ∀ {k : Kind} {b : Builder k} {n n' : Node k}, (∀ u ∈ b.uses, P u.1 u.2) → P k n →
    b.build n = .ok n' → P k n'
  change : ∀ {k : Kind} {c : Change k} {n : Node k}, (∀ u ∈ c.uses, P u.1 u.2) → P k n →
    P k (left (c.edit n))
  enter : ∀ {k l : Kind} {hop : Hop k l} {n : Node k}, access k l hop n → P k n →
    P k (hop.enter n)
  find : ∀ {k l : Kind} {hop : Hop k l} {n : Node k} {child : Node l}, access k l hop n → P k n →
    hop.find? (hop.enter n) = some child → P l child
  put : ∀ {k l : Kind} {hop : Hop k l} {n : Node k} {found child : Node l}, access k l hop n →
    P k n → hop.find? (hop.enter n) = some found → P l child → P k (hop.put child (hop.enter n))

namespace Invariant

variable {P : (k : Kind) → Node k → Prop} (h : Invariant access P)
include h

theorem congr {n n' : Node k} (hfresh : Node.fresh k n' = Node.fresh k n) : P k n' ↔ P k n := by
  rw [← h.fresh n', hfresh, h.fresh]

theorem act {call : Call k} {n : Node k} (huses : ∀ u ∈ call.uses, P u.1 u.2)
    (hcoherent : Node.Coherent k n) (hn : P k n) : P k (call.act n) := by
  cases call with
  | look => exact hn
  | replace other => exact huses ⟨k, other⟩ (List.mem_singleton.2 rfl)
  | build b =>
    cases hbuild : b.build n with
    | ok n' =>
      simp only [Call.act, hbuild]
      exact h.build huses hn hbuild
    | error e =>
      simp only [Call.act, hbuild]
      exact (h.fresh n).2 hn
  | change c => exact h.change huses hn
  | compile d hd => exact (h.congr (Node.compile_follows hd hcoherent).1.fresh).2 hn
  | compileInto d hd c =>
    exact (h.congr ((Node.compileInto_follows hd hcoherent).node c).fresh).2 hn
  | inlined d hd =>
    rw [Call.act, Node.left_inlined]
    exact (h.congr (Node.compile_follows hd hcoherent).1.fresh).2 hn

theorem edit {α : Type} (path : Path k m) {f : Node m → α × Node m}
    (hf : ∀ n, Node.Coherent m n → P m n → P m (f n).2) {n : Node k}
    (hcoherent : Node.Coherent k n) (hn : P k n) (hpath : path.Allowed access n) :
    P k (path.edit f n).2 := by
  induction path with
  | here => exact hf n hcoherent hn
  | via hop rest ih =>
    obtain ⟨hhop, hrest⟩ := hpath
    rw [Path.edit]
    split
    · exact h.enter hhop hn
    · next child hchild =>
      have hbelow := hop.coherent_find? (hop.coherent_enter hcoherent) hchild
      exact h.put hhop hn hchild
        (ih hf hbelow (h.find hhop hn hchild) (hrest child hchild))

theorem found (path : Path k m) {n : Node k} {found : Node m} (hn : P k n)
    (hpath : path.Allowed access n)
    (hfound : (path.edit (fun n => (n, n)) n).1 = some found) : P m found := by
  induction path with
  | here =>
    cases hfound
    exact hn
  | via hop rest ih =>
    obtain ⟨hhop, hrest⟩ := hpath
    rw [Path.edit] at hfound
    split at hfound
    · cases hfound
    · next child hchild =>
      exact ih (h.find hhop hn hchild) (hrest child hchild) hfound

/-- An invariant holds along every history with the access it is for. -/
theorem holds {n : Node k} (hn : ReachableBy access k n) : P k n := by
  induction hn with
  | made maker _ hmake ihuses => exact h.make ihuses hmake
  | called path call hnode _ hallowed ih ihuses =>
    exact h.edit path (fun _ => h.act ihuses) hnode.reachable.coherent ih hallowed
  | inner path _ hallowed hfound ih => exact h.found path ih hallowed hfound
  | copied _ ih => exact (h.fresh _).2 ih

end Invariant

end SqlTree
