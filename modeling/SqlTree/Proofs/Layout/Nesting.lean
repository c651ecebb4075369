import SqlTree.Proofs.Invariant

/-!
# SqlTree.Proofs.Layout.Nesting

How deep selects lie.  `Select.originAt` goes down along the subqueries that
rows come from, and a select is `NestedFrom n` if it counts `n` levels above
itself and each select further down one more.  Taking rows from a select
counts anew whatever it was part of, and no other call counts at all, so a
select that was new once and has always been its own (`Select.Rooted`) is
nested from zero, whatever was attached in it, and in which order
(`Select.Rooted.nestedFrom`).
-/

namespace SqlTree

namespace Select

/-- The select that many levels down, along the subqueries that rows come
from. -/
def originAt : Nat → Select → Option Select
  | 0, s => some s
  | k + 1, s => s.originSelect?.bind (originAt k)

/-- From `n` on, every select down the subqueries counts one level more. -/
def NestedFrom (n : Nat) (s : Select) : Prop :=
  ∀ k t, s.originAt k = some t → t.nesting = n + k

variable {n : Nat} {s s' : Select}

/-- One level further down. -/
theorem originAt_succ {k : Nat} {t inner : Select} (ht : s.originAt k = some t)
    (hinner : t.originSelect? = some inner) : s.originAt (k + 1) = some inner := by
  induction k generalizing s with
  | zero =>
    cases ht
    rw [originAt, hinner]
    rfl
  | succ k ih =>
    obtain ⟨below, hbelow, ht⟩ := Option.bind_eq_some_iff.1 ht
    rw [originAt, hbelow]
    exact ih ht

theorem nestedFrom_iff : s.NestedFrom n ↔
    s.nesting = n ∧ ∀ inner, s.originSelect? = some inner → inner.NestedFrom (n + 1) := by
  constructor
  · refine fun h => ⟨h 0 s rfl, fun inner hinner k t ht => ?_⟩
    have hbelow : s.originAt (k + 1) = some t := by rw [originAt, hinner, Option.bind_some, ht]
    rw [h (k + 1) t hbelow]
    omega
  · rintro ⟨hnesting, hinner⟩ k t ht
    cases k with
    | zero =>
      cases ht
      exact hnesting
    | succ k =>
      obtain ⟨inner, horigin, ht⟩ := Option.bind_eq_some_iff.1 ht
      rw [hinner inner horigin k t ht]
      omega

/-- Nothing but the origin and the count of a select matters. -/
theorem NestedFrom.congr (h : s.NestedFrom n) (hnesting : s'.nesting = s.nesting)
    (horigin : s'.origin? = s.origin?) : s'.NestedFrom n := by
  rw [nestedFrom_iff] at h ⊢
  rwa [hnesting, originSelect?, horigin, ← originSelect?]

/-! ## Copies -/

theorem originSelect?_fresh (s : Select) : s.fresh.originSelect? = s.originSelect?.map fresh := by
  obtain ⟨distinct, columns, into?, _ | ⟨name, alias?⟩ | ⟨inner, a⟩, joins, filter, groupBy,
    having, combined?, orderBy, limit, offset, nesting, pretty, columnTexts, cache⟩ := s <;>
    rfl

theorem originAt_fresh (k : Nat) (s : Select) :
    s.fresh.originAt k = (s.originAt k).map fresh := by
  induction k generalizing s with
  | zero => rfl
  | succ k ih =>
    rw [originAt, originAt, originSelect?_fresh]
    cases s.originSelect? with
    | none => rfl
    | some inner => exact ih inner

theorem nestedFrom_fresh_iff : s.fresh.NestedFrom n ↔ s.NestedFrom n := by
  constructor
  · intro h k t ht
    rw [← t.nesting_fresh]
    exact h k t.fresh (by rw [originAt_fresh, ht, Option.map_some])
  · intro h k t ht
    rw [originAt_fresh] at ht
    obtain ⟨below, hbelow, rfl⟩ := Option.map_eq_some_iff.1 ht
    rw [below.nesting_fresh]
    exact h k below hbelow

theorem nestedFrom_congr_fresh (h : s'.fresh = s.fresh) : s'.NestedFrom n ↔ s.NestedFrom n := by
  rw [← nestedFrom_fresh_iff, h, nestedFrom_fresh_iff]

/-! ## Building -/

theorem nestedFrom_empty : Select.empty.NestedFrom 0 :=
  nestedFrom_iff.2 ⟨rfl, fun _ h => nomatch h⟩

/-- Whatever they counted before, all selects count anew. -/
theorem nestedFrom_atNesting : (s : Select) → (nesting : Nat) →
    (s.atNesting nesting).NestedFrom nesting
  | ⟨_, _, _, some (.subquery inner a), _, _, _, _, _, _, _, _, _, _, _, _⟩, nesting => by
    rw [atNesting, nestedFrom_iff]
    refine ⟨rfl, fun _ h => ?_⟩
    cases h
    exact nestedFrom_atNesting inner (nesting + 1)
  | ⟨_, _, _, some (.table _ _), _, _, _, _, _, _, _, _, _, _, _, _⟩, _
  | ⟨_, _, _, none, _, _, _, _, _, _, _, _, _, _, _, _⟩, _ =>
    nestedFrom_iff.2 ⟨rfl, fun _ h => nomatch h⟩

theorem nestedFrom_of_setOrigin {origin : Origin} (h : s.setOrigin origin = .ok s') :
    s'.NestedFrom s.nesting := by
  unfold setOrigin at h
  split at h <;> cases h
  exact nestedFrom_atNesting _ _

theorem NestedFrom.combine {operation : SetOperation} {other : Select} (hs : s.NestedFrom n)
    (h : s.combine operation other = .ok s') : s'.NestedFrom n := by
  unfold Select.combine at h
  split at h
  · split at h <;> cases h
    exact hs.congr rfl rfl
  · cases h
    exact hs.congr rfl rfl

theorem NestedFrom.build {b : Builder .select} (hs : s.NestedFrom n) (h : b.build s = .ok s') :
    s'.NestedFrom n := by
  have horigin {origin : Origin} (h : s.setOrigin origin = .ok s') : s'.NestedFrom n := by
    rw [← (nestedFrom_iff.1 hs).1]
    exact nestedFrom_of_setOrigin h
  cases b with
  | distinct | groupBy | orderBy | limit | offset | pretty | join =>
    cases h
    exact hs.congr rfl rfl
  | column | into | selectWhere | selectOrWhere | having | order =>
    obtain ⟨_, -, h⟩ := exists_of_bind_eq_ok h
    cases h
    exact hs.congr rfl rfl
  | fromTable name =>
    obtain ⟨_, -, h⟩ := exists_of_bind_eq_ok h
    exact horigin h
  | fromTableAs name known =>
    obtain ⟨_, -, h⟩ := exists_of_bind_eq_ok h
    obtain ⟨_, -, h⟩ := exists_of_bind_eq_ok h
    exact horigin h
  | fromSubquery inner known =>
    obtain ⟨_, -, h⟩ := exists_of_bind_eq_ok h
    exact horigin h
  | combine operation other => exact hs.combine h

/-- A select put in the place of the subquery counts with the select around it,
if it counts as the one that was there. -/
theorem NestedFrom.putOriginSelect {inner inner' : Select} (hs : s.NestedFrom n)
    (horigin : s.originSelect? = some inner)
    (hinner : inner.NestedFrom (n + 1) → inner'.NestedFrom (n + 1)) :
    (s.putOriginSelect inner').NestedFrom n := by
  obtain ⟨distinct, columns, into?, _ | ⟨name, alias?⟩ | ⟨there, a⟩, joins, filter, groupBy,
    having, combined?, orderBy, limit, offset, nesting, pretty, columnTexts, cache⟩ := s
  · cases horigin
  · cases horigin
  · obtain ⟨hnesting, hbelow⟩ := nestedFrom_iff.1 hs
    refine nestedFrom_iff.2 ⟨hnesting, fun _ h => ?_⟩
    cases h
    exact hinner (hbelow inner horigin)

end Select

/-! ## Calls -/

/-- Calls that put no select in place of another one, which may count other
levels. -/
def Call.KeepsPlace {k : Kind} : Call k → Prop
  | .replace _ => k ≠ .select
  | _ => True

/-- If the node that was there is a select nested from some level, so is the
one that is there now. -/
def Node.KeepsNesting : (k : Kind) → Node k → Node k → Prop
  | .select, s, s' => ∀ n, Select.NestedFrom n s → Select.NestedFrom n s'
  | _, _, _ => True

namespace Node

variable {k l m : Kind}

theorem keepsNesting_refl (n : Node k) : KeepsNesting k n n := by
  cases k with
  | select => exact fun _ h => h
  | _ => trivial

theorem keepsNesting_of_fresh {n n' : Node k} (h : Node.fresh k n' = Node.fresh k n) :
    KeepsNesting k n n' := by
  cases k with
  | select => exact fun _ => (Select.nestedFrom_congr_fresh h).2
  | _ => trivial

theorem keepsNesting_fresh (n : Node k) : KeepsNesting k n (Node.fresh k n) := by
  cases k with
  | select => exact fun _ => Select.nestedFrom_fresh_iff.2
  | _ => trivial

theorem keepsNesting_build {b : Builder k} {n n' : Node k} (h : b.build n = .ok n') :
    KeepsNesting k n n' := by
  cases k with
  | select => exact fun _ hn => hn.build h
  | _ => trivial

theorem keepsNesting_change (c : Change k) (n : Node k) : KeepsNesting k n (left (c.edit n)) := by
  cases c <;> trivial

theorem keepsNesting_act {call : Call k} (hplace : call.KeepsPlace) {n : Node k}
    (hcoherent : Node.Coherent k n) : KeepsNesting k n (call.act n) := by
  cases call with
  | look => exact keepsNesting_refl n
  | replace other =>
    cases k with
    | select => exact absurd rfl hplace
    | _ => trivial
  | build b =>
    cases hbuild : b.build n with
    | ok n' =>
      simp only [Call.act, hbuild]
      exact keepsNesting_build hbuild
    | error e =>
      simp only [Call.act, hbuild]
      exact keepsNesting_fresh n
  | change c => exact keepsNesting_change c n
  | compile d hd => exact keepsNesting_of_fresh (Node.compile_follows hd hcoherent).1.fresh
  | compileInto d hd c =>
    exact keepsNesting_of_fresh ((Node.compileInto_follows hd hcoherent).node c).fresh
  | inlined d hd =>
    rw [Call.act, Node.left_inlined]
    exact keepsNesting_of_fresh (Node.compile_follows hd hcoherent).1.fresh

theorem keepsNesting_enter (hop : Hop k l) (n : Node k) : KeepsNesting k n (hop.enter n) := by
  cases hop <;> first | trivial | exact fun _ h => h.congr rfl rfl

/-- Only the subquery that rows come from counts with the select around it. -/
theorem keepsNesting_put {hop : Hop k l} {n : Node k} {found child : Node l}
    (hfound : hop.find? (hop.enter n) = some found) (h : KeepsNesting l found child) :
    KeepsNesting k n (hop.put child (hop.enter n)) := by
  cases hop with
  | selectFilter | having | join => exact fun _ hn => hn.congr rfl rfl
  | origin =>
    intro level hn
    have htouched : Select.NestedFrom level (Hop.origin.enter n) := hn.congr rfl rfl
    exact htouched.putOriginSelect hfound (h (level + 1))
  | _ => trivial

/-- Along a path every select keeps its place. -/
theorem keepsNesting_edit {α : Type} (path : Path k m) {f : Node m → α × Node m}
    (hf : ∀ n, Node.Coherent m n → KeepsNesting m n (f n).2) {n : Node k}
    (hcoherent : Node.Coherent k n) : KeepsNesting k n (path.edit f n).2 := by
  induction path with
  | here => exact hf n hcoherent
  | via hop rest ih =>
    rw [Path.edit]
    split
    · exact keepsNesting_enter hop n
    · next child hchild =>
      have hbelow := hop.coherent_find? (hop.coherent_enter hcoherent) hchild
      exact keepsNesting_put hchild (ih hf hbelow)

end Node

/-! ## Roots -/

namespace Select

/-- The selects that were new once and have been their own since: whatever was
done to them or, along a path, to a node in them, no select was put in place
of another.  What was attached may have any history of its own. -/
inductive Rooted : Select → Prop where
  | new : Rooted Select.empty
  | called {m : Kind} (path : Path .select m) (call : Call m) {s : Select} (root : Rooted s)
      (uses : ∀ u ∈ call.uses, Reachable u.1 u.2) (place : call.KeepsPlace) :
        Rooted (path.edit (k := .select) (fun inner => ((), call.act inner)) s).2
  | copied {s : Select} (root : Rooted s) : Rooted s.fresh

theorem Rooted.reachable {s : Select} (h : s.Rooted) : Reachable .select s := by
  induction h with
  | new => exact .made .select (fun _ h => nomatch h) rfl
  | called path call _ huses _ ih => exact .called path call ih huses
  | copied _ ih => exact .copied ih

theorem Rooted.nestedFrom {s : Select} (h : s.Rooted) : s.NestedFrom 0 := by
  induction h with
  | new => exact nestedFrom_empty
  | called path call hroot _ hplace ih =>
    exact Node.keepsNesting_edit path (fun _ => Node.keepsNesting_act hplace)
      hroot.reachable.coherent 0 ih
  | copied _ ih => exact nestedFrom_fresh_iff.2 ih

end Select

end SqlTree
