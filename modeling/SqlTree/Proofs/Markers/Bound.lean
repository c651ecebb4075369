import SqlTree.Proofs.Markers.Node

/-!
# SqlTree.Proofs.Markers.Bound

What a node says about the values that its text binds.  `Node.bound` is what
compiling a copy of it binds.  A statement, a group and a join keep exactly
that when they are compiled, so they tell truly whether there are values to
bind; a clause, a predicate and an expression keep nothing and always deny
it (`Reachable.bindsValues_compile`), whatever their text binds
(`Reachable.denies_bound_values`).
-/

namespace SqlTree

/-- The collector of a node that is compiled with nothing kept in it or
below. -/
def Node.bound (d : Dialect) (k : Kind) (n : Node k) : Collector :=
  (left (Node.compileInto d k (Node.fresh k n) (.empty d.style))).2

/-- By position, bindings get the positions after those that are taken. -/
theorem Collector.keys_bindAll_of_positional {c : Collector} (hc : c.style = .positional)
    (bs : List Binding) : (c.bindAll bs).entries.map Entry.key =
      c.entries.map Entry.key ++ (List.range' (c.size + 1) bs.length).map Key.position := by
  induction bs generalizing c with
  | nil => simp [bindAll]
  | cons b bs ih =>
    have hentries : (c.bind b).entries = c.entries ++ [⟨.position (c.size + 1), b.value, b.type⟩] := by
      rw [bind, record, hc]
    have hsize : (c.bind b).size = c.size + 1 := by
      rw [size, hentries, List.length_append, size]
      rfl
    change ((c.bind b).bindAll bs).entries.map Entry.key = _
    rw [ih (by rw [style_bind, hc]), hentries, hsize, List.length_cons, List.range'_succ]
    simp

namespace Node

variable {d : Dialect} {k : Kind} {n : Node k}

/-- What a compiled node binds is what its draft binds. -/
theorem bound_of_compile (hd : d.Shipped) (h : Coherent k n) {sql : String}
    (hsql : answer (compile d k n) = .ok sql) : ∃ p, draft d.constructs k n = .ok p ∧
      p.text d (.empty d.style) = sql ∧ bound d k n = p.after (.empty d.style) ∧
      answer (compileInto d k (fresh k n) (.empty d.style)) = .ok sql ∧
      collector? k (left (compile d k n)) = if keepsText k then some (bound d k n) else none := by
  obtain ⟨p, hp, htext, hcollector⟩ := draft_of_compile hd h hsql
  obtain ⟨hanswer, hafter⟩ := collector_compileInto hd (coherent_fresh h) (.empty d.style)
  rw [draft_fresh, hp] at hanswer hafter
  have hbound : bound d k n = p.after (.empty d.style) := hafter
  refine ⟨p, hp, htext, hbound, ?_, hbound ▸ hcollector⟩
  rw [hanswer, ← htext]
  rfl

end Node

/-- After a node has been compiled as a whole, whatever was done to it before,
the values that it keeps are those that its text binds, in the order of their
markers, and it tells truly whether there are any, if it is a statement, a
group or a join.  A node of another kind keeps none and says that there are
none. -/
theorem Reachable.bindsValues_compile {k : Kind} {n : Node k} (h : Reachable k n) {d : Dialect}
    (hd : d.Shipped) {sql : String} (hsql : answer (Node.compile d k n) = .ok sql) :
    let compiled := left (Node.compile d k n)
    let bound := Node.bound d k n
    answer (Node.compileInto d k (Node.fresh k n) (.empty d.style)) = .ok sql ∧
    (d.style = .positional →
      bound.entries.map Entry.key = (List.range' 1 bound.size).map Key.position) ∧
    (d.style = .named → (bound.entries.map Entry.key).Nodup ∧ (d.HasUsualQuotes →
      (∀ raw ∈ Node.raws k n, ':' ∉ raw.text.toList) →
      (∀ template, .template template ∈ Node.raws k n →
        placeholdersEnd (pieces template) = true) →
      bound.entries.map Entry.key = (markersIn sql).map Key.named)) ∧
    (Node.keepsText k = true → Node.collector? k compiled = some bound ∧
      (Node.bindsValues k compiled = true ↔ bound.entries ≠ [])) ∧
    (Node.keepsText k = false → Node.collector? k compiled = none ∧
      Node.bindsValues k compiled = false) := by
  intro compiled bound
  obtain ⟨p, hp, rfl, hbound, hanswer, hcollector⟩ := Node.bound_of_compile hd h.coherent hsql
  have hentries : bound = (Collector.empty d.style).bindAll p.bindings := hbound
  refine ⟨hanswer, fun hstyle => ?_, fun hstyle => ⟨?_, fun hquotes hcolon hend => ?_⟩,
    fun hk => ?_, fun hk => ?_⟩
  · have hkeys := Collector.keys_bindAll_of_positional (c := .empty d.style) hstyle p.bindings
    rw [← hentries] at hkeys
    have hsize : bound.size = p.bindings.length := by
      simpa [Collector.size, Collector.empty] using congrArg List.length hkeys
    rw [hkeys, hsize]
    rfl
  · rw [hentries]
    exact Collector.nodup_keys_bindAll (c := .empty d.style) hstyle List.nodup_nil _
  · rw [show bound = _ from hbound]
    exact (Node.markersIn_draft hcolon hend hd hstyle hquotes hp).1.symm
  · rw [if_pos hk] at hcollector
    refine ⟨hcollector, ?_⟩
    rw [Node.bindsValues, show Node.collector? k compiled = _ from hcollector]
    simp [Collector.size, bound]
  · rw [hk, if_neg Bool.false_ne_true] at hcollector
    refine ⟨hcollector, ?_⟩
    rw [Node.bindsValues, show Node.collector? k compiled = _ from hcollector]

/-- A join with a condition keeps its value. -/
theorem Reachable.bindsValues_compile_of_join :
    let p : Predicate := .comparison (.identifier ⟨"n", rfl⟩) .eq (.value (.int 1))
    let j : Join := (Call.build (.on (.predicate p))).act
      (Join.ofTarget .inner (.table ⟨"b", rfl⟩))
    Reachable .join j ∧ Dialect.ansi.Shipped ∧
      answer (Node.compile Dialect.ansi .join j) = .ok "INNER JOIN \"b\" ON \"n\" = :eq1" ∧
      Node.keepsText .join = true ∧
      (Node.bound Dialect.ansi .join j).entries = [⟨.named ":eq1", .int 1, .int⟩] ∧
      Node.bindsValues .join (left (Node.compile Dialect.ansi .join j)) = true := by
  intro p j
  have hd : Dialect.ansi.Shipped := .config .standard
  have hp : Reachable .predicate p :=
    .made (.comparison (.identifier ⟨"n", rfl⟩) .eq (.value (.int 1))) (fun _ h => nomatch h) rfl
  have hmade : Reachable .join (Join.ofTarget .inner (.table ⟨"b", rfl⟩)) :=
    .made (.table .inner "b") (fun _ h => nomatch h) rfl
  have hj : Reachable .join j :=
    .called .here (.build (.on (.predicate p))) hmade fun _ hu => by
      cases List.mem_singleton.1 hu
      exact hp
  have hsql : answer (Node.compile Dialect.ansi .join j) =
      .ok "INNER JOIN \"b\" ON \"n\" = :eq1" := rfl
  have hentries : (Node.bound Dialect.ansi .join j).entries =
      [⟨.named ":eq1", .int 1, .int⟩] := rfl
  obtain ⟨-, -, -, hkept, -⟩ := hj.bindsValues_compile hd hsql
  refine ⟨hj, hd, hsql, rfl, hentries, (hkept rfl).2.2 ?_⟩
  rw [hentries]
  exact List.cons_ne_nil _ _

/-- A predicate, a clause and an expression that bind a value and deny it. -/
theorem Reachable.denies_bound_values :
    let d := Dialect.ansi
    let p : Predicate := .comparison (.identifier ⟨"n", rfl⟩) .eq (.value (.int 1))
    let c : Clause := left (Change.edit (.addTo (.predicate p)) (Clause.empty .filter))
    let e : Expression := ⟨"LOWER(\x7bx\x7d)", [⟨"x", .value (.text "A")⟩]⟩
    Reachable .predicate p ∧ answer (Node.compile d .predicate p) = .ok "\"n\" = :eq1" ∧
      (Node.bound d .predicate p).entries = [⟨.named ":eq1", .int 1, .int⟩] ∧
      Node.bindsValues .predicate (left (Node.compile d .predicate p)) = false ∧
    Reachable .clause c ∧ answer (Node.compile d .clause c) = .ok "WHERE \"n\" = :eq1" ∧
      (Node.bound d .clause c).entries = [⟨.named ":eq1", .int 1, .int⟩] ∧
      Node.bindsValues .clause (left (Node.compile d .clause c)) = false ∧
    Reachable .expression e ∧ answer (Node.compile d .expression e) = .ok "LOWER(:expr1)" ∧
      (Node.bound d .expression e).entries = [⟨.named ":expr1", .text "A", .string⟩] ∧
      Node.bindsValues .expression (left (Node.compile d .expression e)) = false := by
  intro d p c e
  have hp : Reachable .predicate p :=
    .made (.comparison (.identifier ⟨"n", rfl⟩) .eq (.value (.int 1))) (fun _ h => nomatch h) rfl
  have hc : Reachable .clause c :=
    .called .here (.change (.addTo (.predicate p)))
      (.made (.clause .filter) (fun _ h => nomatch h) rfl) fun _ hu => by
        cases List.mem_singleton.1 hu
        exact hp
  have he : Reachable .expression e := by
    refine .made (.expression e.template e.slots) (fun _ h => nomatch h) ?_
    have hcheck : templateFault e.template (e.slots.map Slot.name) = none := by decide +kernel
    rw [Maker.make, Expression.make, checkTemplate, hcheck]
    rfl
  refine ⟨hp, eq_ok_of_toOption ?_, ?_, rfl, hc, eq_ok_of_toOption ?_, ?_, rfl, he,
    eq_ok_of_toOption ?_, ?_, rfl⟩ <;>
  · simp only [d, p, c, e]
    decide +kernel

end SqlTree
