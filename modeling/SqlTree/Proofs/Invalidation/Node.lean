import SqlTree.Proofs.Invalidation.Building

/-!
# SqlTree.Proofs.Invalidation.Node

What a change drops.  Whoever goes down a path and calls a method on the node
there leaves nothing kept on the way, nothing kept in the node unless it reads
as before, and everything else as it was (`Path.invalidates_exactly`).
-/

namespace SqlTree

open AnyNode

variable {k m : Kind}

/-! ## Calls -/

namespace Call

/-- The call is a method that changes a node, if anything: a change in place,
be it refused or not, or a builder that is not refused. -/
def Mutates : Call k → Node k → Prop
  | .look, _ | .change _, _ => True
  | .build b, n => ∃ n', b.build n = .ok n'
  | _, _ => False

/-- The address of the part of a node that a call works on. -/
def address : Call k → List Position
  | .build b => b.address
  | .change c => c.address
  | _ => []

/-- The positions whose nodes a call removes or replaces. -/
def Replaces : Call k → Node k → Position → Prop
  | .build b, n => b.Replaces n
  | .change c, _ => c.Replaces
  | _, _ => fun _ => False

end Call

theorem Call.altered {call : Call m} {n : Node m} (h : call.Mutates n) :
    Altered call.address (call.Replaces n) ⟨m, n⟩ ⟨m, call.act n⟩ := by
  cases call with
  | look => exact .refl _ _
  | build b =>
    obtain ⟨n', hbuild⟩ := h
    have hact : (Call.build b).act n = n' := by simp only [act, hbuild]
    rw [hact]
    exact Builder.altered hbuild
  | change c => exact c.altered n
  | replace other | compile d hd | compileInto d hd c | inlined d hd => exact h.elim

/-- Whatever is kept anywhere in a tree: calling a method on the node that a
path leads to leaves nothing kept on the way down, nothing kept in the node
unless it reads as before, and every other node that is not taken away as it
was, with what is kept in it and below. -/
theorem Path.invalidates_exactly (path : Path k m) {call : Call m} {n : Node k} {found : Node m}
    (hfound : (path.edit (fun inner => (inner, inner)) n).1 = some found)
    (hcall : call.Mutates found) :
    at? (path.address n) ⟨k, (path.edit (fun inner => ((), call.act inner)) n).2⟩ =
        some ⟨m, call.act found⟩ ∧
      Altered (path.address n ++ call.address) (call.Replaces found) ⟨k, n⟩
        ⟨k, (path.edit (fun inner => ((), call.act inner)) n).2⟩ :=
  have hroute := path.route hfound fun inner => ((), call.act inner)
  ⟨hroute.at?_eq, hroute.altered (Call.altered hcall)⟩

/-- Something is kept in the node at an address, if there is a node. -/
def Select.keepsAt? (s : Select) (a : List Position) : Option Bool :=
  (at? a ⟨.select, s⟩).map fun u => ((Node.cache? u.1 u.2).getD none).isSome

/-- A condition for the second of two groups.  The first one keeps its text. -/
theorem Path.invalidates_exactly_of_sibling :
    let test (sql : String) (h : isBlankText sql = false) : Predicate := .literal ⟨sql, h⟩
    let pair (p q : Predicate) : Group := ((Group.empty .and).push p).push q
    let ab : Group := pair (test "a = 1" rfl) (test "b = 1" rfl)
    let cd : Group := pair (test "c = 1" rfl) (test "d = 1" rfl)
    let groups : Group := ((Group.empty .and).pushGroup ab).pushGroup cd
    let s : Select := left (Select.compile Dialect.ansi
      { Select.empty with
        origin? := some (.table ⟨"t", rfl⟩ none), filter := ⟨.filter, some groups⟩ })
    let path : Path .select .group := .via .selectFilter (.via (.term 1) (.via .asGroup .here))
    let call : Call .group := .change (.add (.raw "e = 1"))
    let s' : Select := (path.edit (fun inner => ((), call.act inner)) s).2
    let second : List Position := [.filter, .group, .term 1, .part 0]
    let first : List Position := [.filter, .group, .term 0, .part 0]
    ∃ found, (path.edit (fun inner => (inner, inner)) s).1 = some found ∧ call.Mutates found ∧
      at? second ⟨.select, s'⟩ = some ⟨.group, call.act found⟩ ∧
      Altered second (fun _ => False) ⟨.select, s⟩ ⟨.select, s'⟩ ∧
      [[], [.filter, .group], second, first].map s.keepsAt? =
        [some true, some true, some true, some true] ∧
      [[], [.filter, .group], second, first].map s'.keepsAt? =
        [some false, some false, some false, some true] := by
  intro test pair ab cd groups s path call s' second first
  have hfound : ∃ found, (path.edit (fun inner => (inner, inner)) s).1 = some found := ⟨_, rfl⟩
  obtain ⟨found, hfound⟩ := hfound
  have hcall : call.Mutates found := trivial
  obtain ⟨hat, haltered⟩ := path.invalidates_exactly hfound hcall
  exact ⟨found, hfound, hcall, hat, haltered, by decide +kernel, by decide +kernel⟩

end SqlTree
