import SqlTree.Proofs.Caching.Building

/-!
# SqlTree.Proofs.Caching.Path

Going into a tree keeps it coherent.  Each step of a path drops what the node
it leaves keeps, so whatever is put back below it leaves nothing to be wrong
about.
-/

namespace SqlTree

namespace Hop

theorem coherent_enter {k l : Kind} (hop : Hop k l) {n : Node k} (h : Node.Coherent k n) :
    Node.Coherent k (hop.enter n) := by
  cases hop with
  | selectFilter =>
    have h' := Select.inside h
    exact Select.coherent_of_unkept rfl rfl { h' with filter := Clause.coherent_opened h'.filter }
  | having =>
    have h' := Select.inside h
    exact Select.coherent_of_unkept rfl rfl { h' with having := Clause.coherent_opened h'.having }
  | updateFilter =>
    obtain ⟨-, hassignments, hfilter⟩ : Update.Coherent n := h
    exact ⟨Cache.sound_none, hassignments, Clause.coherent_opened hfilter⟩
  | deleteFilter =>
    obtain ⟨-, hfilter⟩ : Delete.Coherent n := h
    exact ⟨Cache.sound_none, Clause.coherent_opened hfilter⟩
  | join index => exact Select.coherent_touched h
  | origin => exact Select.coherent_touched h
  | source => exact Insert.coherent_uncached h
  | condition =>
    have h' := (Join.coherent_iff n).1 h
    exact Join.coherent_of_unkept rfl h'.2.1 (Clause.coherent_opened h'.2.2)
  | joined =>
    have h' := (Join.coherent_iff n).1 h
    exact Join.coherent_of_unkept rfl h'.2.1 h'.2.2
  | predicates => exact Clause.coherent_opened h
  | term index => exact Group.coherent_uncached h
  | nest connective => exact Group.coherent_nest h connective
  | asGroup => exact h
  | subquery => exact h

theorem coherent_find? {k l : Kind} (hop : Hop k l) {n : Node k} {m : Node l}
    (h : Node.Coherent k n) (hm : hop.find? n = some m) : Node.Coherent l m := by
  cases hop with
  | selectFilter => exact (Clause.coherent_iff _).1 (Select.inside h).filter m hm
  | having => exact (Clause.coherent_iff _).1 (Select.inside h).having m hm
  | updateFilter => exact (Clause.coherent_iff _).1 (Update.Coherent.filter h) m hm
  | deleteFilter => exact (Clause.coherent_iff _).1 (Delete.Coherent.filter h) m hm
  | join index => exact (joinsCoherent_iff _).1 (Select.inside h).joins m (List.mem_of_getElem? hm)
  | origin => exact Select.coherent_of_originSelect? h hm
  | source => exact Insert.Coherent.source h m hm
  | condition => exact (Clause.coherent_iff _).1 ((Join.coherent_iff n).1 h).2.2 m hm
  | joined => exact Join.coherent_of_select? h hm
  | predicates => exact (Clause.coherent_iff _).1 h m hm
  | term index => exact Group.coherent_predicateAt? h hm
  | nest connective =>
    obtain ⟨p, hp, hgroup⟩ := Option.bind_eq_some_iff.1 hm
    exact Predicate.coherent_of_group? (Group.coherent_predicateAt? h hp) hgroup
  | asGroup => exact Predicate.coherent_of_group? h hm
  | subquery => exact Predicate.coherent_of_select? h hm

/-- Whoever goes below a node drops what it keeps, so a changed node can be
put back. -/
theorem coherent_put {k l : Kind} (hop : Hop k l) {n : Node k} {m : Node l} (h : Node.Coherent k n)
    (hm : Node.Coherent l m) : Node.Coherent k (hop.put m (hop.enter n)) := by
  have henter := hop.coherent_enter h
  cases hop with
  | selectFilter =>
    exact Select.coherent_of_unkept rfl rfl
      { Select.inside henter with filter := Clause.coherent_putGroup hm }
  | having =>
    exact Select.coherent_of_unkept rfl rfl
      { Select.inside henter with having := Clause.coherent_putGroup hm }
  | updateFilter =>
    obtain ⟨-, hassignments, -⟩ : Update.Coherent _ := henter
    exact ⟨Cache.sound_none, hassignments, Clause.coherent_putGroup hm⟩
  | deleteFilter => exact ⟨Cache.sound_none, Clause.coherent_putGroup hm⟩
  | join index =>
    refine Select.coherent_of_unkept rfl rfl
      { Select.inside henter with joins := (joinsCoherent_iff _).2 fun j hj => ?_ }
    rcases List.mem_or_eq_of_mem_set hj with hj | rfl
    · exact (joinsCoherent_iff _).1 (Select.inside henter).joins j hj
    · exact hm
  | origin => exact Select.coherent_putOriginSelect henter rfl rfl hm
  | source =>
    obtain ⟨-, hrows, -⟩ : Insert.Coherent _ := henter
    exact ⟨Cache.sound_none, hrows, fun _ hs => Option.some.inj hs ▸ hm⟩
  | condition =>
    have h' := (Join.coherent_iff _).1 henter
    exact Join.coherent_of_unkept rfl h'.2.1 (Clause.coherent_putGroup hm)
  | joined => exact Join.coherent_putSelect rfl henter hm
  | predicates => exact Clause.coherent_putGroup (c := Clause.opened n) hm
  | term index => exact Group.coherent_putPredicateAt henter rfl index hm
  | nest connective =>
    exact Group.coherent_putPredicateAt henter rfl _ (Predicate.coherent_group hm)
  | asGroup => exact Predicate.coherent_putGroup henter hm
  | subquery => exact Predicate.coherent_putSelect henter hm

end Hop

/-- What is coherent at the end of a path makes everything along it
coherent. -/
theorem Path.coherent_edit {α : Type} {k m : Kind} (path : Path k m) {f : Node m → α × Node m}
    (hf : ∀ n, Node.Coherent m n → Node.Coherent m (f n).2) {n : Node k} (h : Node.Coherent k n) :
    Node.Coherent k (path.edit f n).2 := by
  induction path with
  | here => exact hf n h
  | via hop rest ih =>
    rw [edit]
    split
    · exact hop.coherent_enter h
    · next child hchild =>
      exact hop.coherent_put h (ih hf (hop.coherent_find? (hop.coherent_enter h) hchild))

/-- What is found at the end of a path is coherent. -/
theorem Path.coherent_found {k m : Kind} (path : Path k m) {n : Node k} {found : Node m}
    (h : Node.Coherent k n) (hfound : (path.edit (fun n => (n, n)) n).1 = some found) :
    Node.Coherent m found := by
  induction path with
  | here =>
    cases hfound
    exact h
  | via hop rest ih =>
    rw [edit] at hfound
    split at hfound
    · cases hfound
    · next child hchild => exact ih (hop.coherent_find? (hop.coherent_enter h) hchild) hfound

end SqlTree
