import SqlTree.Proofs.Grammar.Program
import SqlTree.Proofs.Invalidation.Address

/-!
# SqlTree.Proofs.Invalidation.Path

Going down a path drops what the nodes on the way keep and touches no other.
`Hop.address` and `Path.address` say where a hop and a path lead to.  Putting a
node back step by step is a route from the tree that there was to the new one
(`Path.route`).
-/

namespace SqlTree

open AnyNode

/-! ## Steps -/

/-- A group into which nothing has been put. -/
theorem bare_of_terms_eq_nil {g : Group} (hterms : g.terms = []) (hcache : g.cache = none) :
    Bare ⟨.group, g⟩ := by
  intro a v hv
  cases a with
  | nil =>
    cases hv
    exact hcache
  | cons p a =>
    have hnone (i : Nat) : g.predicateAt? i = none := by
      rw [Group.predicateAt?, hterms]
      rfl
    obtain ⟨c, hc, -⟩ := Option.bind_eq_some_iff.1 hv
    cases p with
    | term i => cases (congrArg (Option.map _) (hnone i)).symm.trans hc
    | _ => cases hc

/-- A predicate that is such a group. -/
theorem bare_group {g : Group} (h : Bare ⟨.group, g⟩) : Bare ⟨.predicate, .group g⟩ := by
  intro a v hv
  cases a with
  | nil =>
    cases hv
    trivial
  | cons p a =>
    obtain ⟨c, hc, hv⟩ := Option.bind_eq_some_iff.1 hv
    cases p with
    | part i =>
      cases i with
      | zero =>
        cases hc
        exact h a v hv
      | succ i => cases hc
    | _ => cases hc

/-- Another group for a clause, in place of the one it has or will have. -/
theorem Clause.steps_putGroup (c : Clause) (g : Group) :
    Steps .group ⟨.clause, c⟩ ⟨.clause, c.putGroup g⟩ ⟨.group, c.groupOrEmpty⟩ ⟨.group, g⟩ where
  root := trivial
  before := by
    obtain ⟨kind, _ | g⟩ := c
    · exact .inr ⟨rfl, bare_of_terms_eq_nil rfl rfl⟩
    · exact .inl rfl
  after := rfl
  others q v hne h := by
    cases q <;> first | exact absurd rfl hne | exact h

theorem Select.steps_filter (s : Select) (c : Clause) :
    Steps .filter ⟨.select, s⟩ ⟨.select, ({ s.touched with filter := c } : Select)⟩
      ⟨.clause, s.filter⟩ ⟨.clause, c⟩ where
  root := ⟨rfl, rfl⟩
  before := .inl rfl
  after := rfl
  others q v hne h := by
    cases q <;> first | exact absurd rfl hne | exact h

theorem Select.steps_having (s : Select) (c : Clause) :
    Steps .having ⟨.select, s⟩ ⟨.select, ({ s.touched with having := c } : Select)⟩
      ⟨.clause, s.having⟩ ⟨.clause, c⟩ where
  root := ⟨rfl, rfl⟩
  before := .inl rfl
  after := rfl
  others q v hne h := by
    cases q <;> first | exact absurd rfl hne | exact h

theorem Select.steps_join {s : Select} {i : Nat} {j : Join} (h : s.joins[i]? = some j) (j' : Join) :
    Steps (.join i) ⟨.select, s⟩
      ⟨.select, ({ s.touched with joins := s.joins.set i j' } : Select)⟩ ⟨.join, j⟩
      ⟨.join, j'⟩ where
  root := ⟨rfl, rfl⟩
  before := .inl (congrArg (Option.map _) h)
  after := by
    have hset : (s.joins.set i j')[i]? = some j' :=
      List.getElem?_set_self (List.getElem?_eq_some_iff.1 h).1
    exact congrArg (Option.map _) hset
  others q v hne h := by
    cases q with
    | join index =>
      have hindex : i ≠ index := fun heq => hne (heq ▸ rfl)
      have hset : (s.joins.set i j')[index]? = s.joins[index]? := List.getElem?_set_ne hindex
      exact (congrArg (Option.map _) hset).trans h
    | _ => exact h

theorem Select.steps_origin {s inner : Select} (h : s.originSelect? = some inner)
    (inner' : Select) :
    Steps .origin ⟨.select, s⟩ ⟨.select, s.touched.putOriginSelect inner'⟩ ⟨.select, inner⟩
      ⟨.select, inner'⟩ := by
  obtain ⟨distinct, columns, into?, _ | (_ | ⟨existing, a⟩), joins, filter, groupBy, having,
    combined?, orderBy, limit, offset, nesting, pretty, columnTexts, cache⟩ := s
  · cases h
  · cases h
  · cases h
    refine ⟨⟨rfl, rfl⟩, .inl rfl, rfl, fun q v hne h => ?_⟩
    cases q with
    | origin => exact absurd rfl hne
    | _ => exact h

theorem Insert.steps_source {i : Insert} {s : Select} (h : i.source? = some s) (s' : Select) :
    Steps .source ⟨.insert, i⟩ ⟨.insert, ({ i.uncached with source? := some s' } : Insert)⟩
      ⟨.select, s⟩ ⟨.select, s'⟩ where
  root := rfl
  before := .inl (congrArg (Option.map _) h)
  after := rfl
  others q v hne h := by
    cases q <;> first | exact absurd rfl hne | exact h

theorem Update.steps_filter (u : Update) (c : Clause) :
    Steps .filter ⟨.update, u⟩ ⟨.update, ({ u.uncached with filter := c } : Update)⟩
      ⟨.clause, u.filter⟩ ⟨.clause, c⟩ where
  root := rfl
  before := .inl rfl
  after := rfl
  others q v hne h := by
    cases q <;> first | exact absurd rfl hne | exact h

theorem Delete.steps_filter (d : Delete) (c : Clause) :
    Steps .filter ⟨.delete, d⟩ ⟨.delete, ({ d.uncached with filter := c } : Delete)⟩
      ⟨.clause, d.filter⟩ ⟨.clause, c⟩ where
  root := rfl
  before := .inl rfl
  after := rfl
  others q v hne h := by
    cases q <;> first | exact absurd rfl hne | exact h

theorem Join.steps_on (j : Join) (c : Clause) :
    Steps .on ⟨.join, j⟩ ⟨.join, ({ j.uncached with on := c } : Join)⟩ ⟨.clause, j.on⟩
      ⟨.clause, c⟩ where
  root := rfl
  before := .inl rfl
  after := rfl
  others q v hne h := by
    cases q <;> first | exact absurd rfl hne | exact h

theorem Join.steps_target {j : Join} {s : Select} (h : j.select? = some s) (s' : Select) :
    Steps .target ⟨.join, j⟩ ⟨.join, j.uncached.putSelect s'⟩ ⟨.select, s⟩ ⟨.select, s'⟩ := by
  obtain ⟨kind, _ | existing, alias?, on, cache⟩ := j
  · cases h
  · cases h
    refine ⟨rfl, .inl rfl, rfl, fun q v hne h => ?_⟩
    cases q with
    | target => exact absurd rfl hne
    | _ => exact h

/-- What is in a group is in a longer one. -/
theorem Group.child?_of_prefix {g g' : Group} (h : g.terms <+: g'.terms) {p : Position}
    {v : AnyNode} (hv : g.child? p = some v) : g'.child? p = some v := by
  cases p with
  | term i =>
    obtain ⟨q, hq, hv⟩ := Option.map_eq_some_iff.1 hv
    obtain ⟨t, ht, hq⟩ := Option.map_eq_some_iff.1 hq
    have hkept : g'.predicateAt? i = some q :=
      Option.map_eq_some_iff.2 ⟨t, getElem?_of_prefix h ht, hq⟩
    exact Option.map_eq_some_iff.2 ⟨q, hkept, hv⟩
  | _ => exact hv

theorem Group.steps_term {g : Group} {i : Nat} {p : Predicate} (h : g.predicateAt? i = some p)
    (p' : Predicate) :
    Steps (.term i) ⟨.group, g⟩ ⟨.group, g.uncached.putPredicateAt i p'⟩ ⟨.predicate, p⟩
      ⟨.predicate, p'⟩ where
  root := rfl
  before := .inl (congrArg (Option.map _) h)
  after := by
    obtain ⟨t, ht, -⟩ := Option.map_eq_some_iff.1 h
    have hmodify : (g.uncached.putPredicateAt i p').predicateAt? i = some p' := by
      simp [predicateAt?, putPredicateAt, uncached, ht]
    exact congrArg (Option.map _) hmodify
  others q v hne h := by
    cases q with
    | term index =>
      have hindex : i ≠ index := fun heq => hne (heq ▸ rfl)
      have hmodify : (g.uncached.putPredicateAt i p').predicateAt? index =
          g.predicateAt? index := by
        simp [predicateAt?, putPredicateAt, uncached, hindex]
      exact (congrArg (Option.map _) hmodify).trans h
    | _ => exact h

/-- Another predicate for one at the end of a group that was not there
before. -/
theorem Group.steps_push (g : Group) {p : Predicate} (hp : Bare ⟨.predicate, p⟩) (p' : Predicate) :
    Steps (.term g.terms.length) ⟨.group, g⟩ ⟨.group, g.push p'⟩ ⟨.predicate, p⟩
      ⟨.predicate, p'⟩ where
  root := rfl
  before := by
    have hnone : g.predicateAt? g.terms.length = none := by simp [predicateAt?]
    exact .inr ⟨congrArg (Option.map _) hnone, hp⟩
  after := by
    have hlast : (g.push p').predicateAt? g.terms.length = some p' := by
      simp [predicateAt?, terms_push]
    exact congrArg (Option.map _) hlast
  others q v _ h := child?_of_prefix (List.prefix_append _ _) h

/-- Another node for a predicate that has no more than the one. -/
theorem steps_part {p p' : Predicate} {w w' : AnyNode} (h : p.uses = [w]) (h' : p'.uses = [w']) :
    Steps (.part 0) ⟨.predicate, p⟩ ⟨.predicate, p'⟩ w w' := by
  have hpart (q : Position) : child? ⟨.predicate, p⟩ q = partAt? [w] q := h ▸ rfl
  have hpart' (q : Position) : child? ⟨.predicate, p'⟩ q = partAt? [w'] q := h' ▸ rfl
  refine ⟨trivial, .inl (hpart _), hpart' _, fun q v hne hv => ?_⟩
  rw [hpart] at hv
  match q with
  | .part 0 => exact absurd rfl hne
  | .part (i + 1) => cases hv

theorem Predicate.steps_group {p : Predicate} {g : Group} (h : p.group? = some g) (g' : Group) :
    Steps (.part 0) ⟨.predicate, p⟩ ⟨.predicate, p.putGroup g'⟩ ⟨.group, g⟩ ⟨.group, g'⟩ := by
  cases p with
  | group existing =>
    cases h
    exact steps_part rfl rfl
  | _ => cases h

theorem Predicate.steps_select {p : Predicate} {s : Select} (h : p.select? = some s) (s' : Select) :
    Steps (.part 0) ⟨.predicate, p⟩ ⟨.predicate, p.putSelect s'⟩ ⟨.select, s⟩ ⟨.select, s'⟩ := by
  cases p with
  | inSelect left negated inner | existence negated inner | quantified left op quantifier inner =>
    cases h
    exact steps_part rfl rfl
  | comparison left op right =>
    cases right with
    | subquery inner =>
      cases h
      exact steps_part rfl rfl
    | _ => cases h
  | _ => cases h

/-! ## Hops and paths -/

variable {k l m : Kind}

/-- The address that a hop leads to. -/
def Hop.address : {k l : Kind} → Hop k l → Node k → List Position
  | _, _, .selectFilter, _ | _, _, .updateFilter, _ | _, _, .deleteFilter, _ => [.filter, .group]
  | _, _, .having, _ => [.having, .group]
  | _, _, .join i, _ => [.join i]
  | _, _, .origin, _ => [.origin]
  | _, _, .source, _ => [.source]
  | _, _, .condition, _ => [.on, .group]
  | _, _, .joined, _ => [.target]
  | _, _, .predicates, _ => [.group]
  | _, _, .term i, _ => [.term i]
  | _, _, .nest _, (g : Group) => [.term g.terms.length, .part 0]
  | _, _, .asGroup, _ | _, _, .subquery, _ => [.part 0]

/-- The address that a path leads to. -/
def Path.address : {k m : Kind} → Path k m → Node k → List Position
  | _, _, .here, _ => []
  | _, _, .via hop rest, n =>
    match hop.find? (hop.enter n) with
    | none => []
    | some child => hop.address n ++ rest.address child

/-- What a hop finds is changed by the steps of its address. -/
theorem Hop.route (hop : Hop k l) {n : Node k} {child : Node l}
    (hfind : hop.find? (hop.enter n) = some child) (child' : Node l) :
    Route (hop.address n) ⟨k, n⟩ ⟨k, hop.put child' (hop.enter n)⟩ ⟨l, child⟩ ⟨l, child'⟩ := by
  cases hop with
  | selectFilter =>
    cases hfind
    exact .step (Select.steps_filter n _) (.step (Clause.steps_putGroup _ child') .here)
  | having =>
    cases hfind
    exact .step (Select.steps_having n _) (.step (Clause.steps_putGroup _ child') .here)
  | updateFilter =>
    cases hfind
    exact .step (Update.steps_filter n _) (.step (Clause.steps_putGroup _ child') .here)
  | deleteFilter =>
    cases hfind
    exact .step (Delete.steps_filter n _) (.step (Clause.steps_putGroup _ child') .here)
  | condition =>
    cases hfind
    exact .step (Join.steps_on n _) (.step (Clause.steps_putGroup _ child') .here)
  | predicates =>
    cases hfind
    exact .step (Clause.steps_putGroup n child') .here
  | join i => exact .step (Select.steps_join (s := n) hfind child') .here
  | origin => exact .step (Select.steps_origin (s := n) hfind child') .here
  | source => exact .step (Insert.steps_source (i := n) hfind child') .here
  | joined => exact .step (Join.steps_target (j := n) hfind child') .here
  | term i => exact .step (Group.steps_term (g := n) hfind child') .here
  | nest connective =>
    have hnew := Group.find?_push_group connective n { Group.empty connective with nested := true }
    cases hnew.symm.trans hfind
    have hput := Group.put_push_group connective n { Group.empty connective with nested := true }
      child'
    exact hput ▸ .step (Group.steps_push n (bare_group (bare_of_terms_eq_nil rfl rfl)) _)
      (.step (Predicate.steps_group rfl child') .here)
  | asGroup => exact .step (Predicate.steps_group hfind child') .here
  | subquery => exact .step (Predicate.steps_select hfind child') .here

/-- What a path finds is changed by the steps of its address. -/
theorem Path.route (path : Path k m) {n : Node k} {found : Node m}
    (hfound : (path.edit (fun inner => (inner, inner)) n).1 = some found) {α : Type}
    (f : Node m → α × Node m) :
    Route (path.address n) ⟨k, n⟩ ⟨k, (path.edit f n).2⟩ ⟨m, found⟩ ⟨m, (f found).2⟩ := by
  induction path with
  | here =>
    cases hfound
    exact .here
  | via hop rest ih =>
    rw [edit] at hfound ⊢
    rw [address]
    cases hchild : hop.find? (hop.enter n) with
    | none =>
      rw [hchild] at hfound
      cases hfound
    | some child =>
      rw [hchild] at hfound
      exact (hop.route hchild _).append (ih hfound f)

end SqlTree
