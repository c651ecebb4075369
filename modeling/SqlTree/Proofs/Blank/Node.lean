import SqlTree.Proofs.Blank.Tree
import SqlTree.Proofs.Caching.Transparency

/-!
# SqlTree.Proofs.Blank.Node

Values never reach the text.  Nodes that are the same without their values
compile to the same text, under the same markers: what a value is decides
what is bound and nothing else.
-/

namespace SqlTree

variable (k : Constructs)

/-! ## Statements -/

theorem rowDraft_matches (columns : List Identifier) (row : List Operand) :
    Matches (List.map Draft.blank) (rowDraft k columns row)
      (rowDraft k columns (row.map Operand.blank)) := by
  induction row generalizing columns with
  | nil => exact .ok rfl
  | cons value row ih =>
    rw [List.map_cons, rowDraft, rowDraft]
    exact (value.draft_matches k _).bind fun p q h => (ih _).bind fun ps qs h' =>
      .ok (congrArg₂ List.cons h h')

theorem rowDrafts_match (columns : List Identifier) (rows : List (List Operand)) :
    Matches Draft.blankRows (rowDrafts k columns rows)
      (rowDrafts k columns (rows.map fun row => row.map Operand.blank)) := by
  induction rows with
  | nil => exact .ok rfl
  | cons row rows ih =>
    rw [List.map_cons, rowDrafts, rowDrafts]
    exact (rowDraft_matches k columns row).bind fun ps qs h => ih.bind fun rows rows' h' =>
      .ok (congrArg₂ List.cons h h')

theorem insertRows_matches {table : Identifier} {columns : List Identifier}
    {rows rows' : List (List Draft)} (h : Draft.blankRows rows' = Draft.blankRows rows) :
    DraftsMatch (Draft.insertRows k table columns rows)
      (Draft.insertRows k table columns rows') := by
  intro p hp
  have hblank := Draft.insertRows_blankRows hp
  rw [← h] at hblank
  have hlength : (Draft.blankRows rows').length = rows'.length := List.length_map _
  -- whether there is a draft is settled by the number of rows
  cases hq : Draft.insertRows k table columns rows' with
  | ok q =>
    rw [Draft.insertRows_blankRows hq] at hblank
    exact ⟨q, rfl, Except.ok.inj hblank⟩
  | error e =>
    unfold Draft.insertRows at hq hblank
    rw [hlength] at hblank
    split at hq
    · cases hq
    · next hall =>
      rw [if_neg hall] at hblank
      split at hq
      · next hone =>
        rw [if_pos hone] at hblank
        cases hblank
      · cases hq

theorem Insert.draft_matches (i : Insert) : DraftsMatch (i.draft k) (i.blank.draft k) := by
  obtain ⟨_ | table, columns, rows, source?, cache⟩ := i
  · exact .error
  · cases source? with
    | some s => exact (s.draft_matches k).map fun p q h => by simp [Draft.insertSelect, h]
    | none =>
      simp only [draft, blank, Option.map_none, List.isEmpty_map]
      split
      · exact .error
      · exact (rowDrafts_match k columns rows).bind fun _ _ h => insertRows_matches k h

theorem assignmentDrafts_match (assignments : List Assignment) :
    Matches (List.map Draft.blank) (assignmentDrafts k assignments)
      (assignmentDrafts k (assignments.map fun a => ⟨a.column, a.value.blank⟩)) := by
  induction assignments with
  | nil => exact .ok rfl
  | cons a assignments ih =>
    rw [List.map_cons, assignmentDrafts, assignmentDrafts]
    refine Matches.bind (f := Draft.blank) ?_ fun p q h => ih.bind fun ps qs h' =>
      .ok (congrArg₂ List.cons h h')
    exact (a.value.draft_matches k _).map fun p q h => by simp [Draft.assignment, h]

theorem Update.draft_matches (u : Update) : DraftsMatch (u.draft k) (u.blank.draft k) := by
  obtain ⟨_ | table, assignments, filter, cache⟩ := u
  · exact .error
  · simp only [draft, blank, List.isEmpty_map, Clause.isEmpty_blank]
    split
    · exact .error
    · split
      · exact .error
      · refine (assignmentDrafts_match k assignments).bind fun ps qs h =>
          (filter.draft_matches k).bind fun p q h' => ?_
        rw [← Draft.isEmpty_blank (p := p), ← Draft.isEmpty_blank (p := q), h']
        split
        · exact .error
        · exact .ok (by simp [Draft.update, h, h'])

theorem Delete.draft_matches (del : Delete) : DraftsMatch (del.draft k) (del.blank.draft k) := by
  obtain ⟨_ | table, filter, cache⟩ := del
  · exact .error
  · refine (filter.draft_matches k).bind fun p q h => ?_
    rw [← Draft.isEmpty_blank (p := p), ← Draft.isEmpty_blank (p := q), h]
    split
    · exact .error
    · exact .ok (by simp [Draft.delete, h])

/-! ## Nodes of every kind -/

theorem Node.draft_matches (kind : Kind) (n : Node kind) :
    DraftsMatch (Node.draft k kind n) (Node.draft k kind (Node.blank kind n)) := by
  cases kind with
  | select => exact Select.draft_matches k n
  | insert => exact Insert.draft_matches k n
  | update => exact Update.draft_matches k n
  | delete => exact Delete.draft_matches k n
  | group => exact Group.draft_matches k n
  | clause => exact Clause.draft_matches k n
  | join => exact Join.draft_matches k n
  | predicate => exact Predicate.draft_matches k n
  | expression => exact Expression.draft_matches k n
  | reference => exact .ok rfl

/-- Nodes that are the same without their values have drafts that are. -/
theorem Node.draft_blank_eq {kind : Kind} {n n' : Node kind}
    (hblank : Node.blank kind n = Node.blank kind n') {p p' : Draft}
    (hp : Node.draft k kind n = .ok p) (hp' : Node.draft k kind n' = .ok p') :
    p.blank = p'.blank := by
  obtain ⟨q, hq, hpq⟩ := Node.draft_matches k kind n p hp
  obtain ⟨q', hq', hpq'⟩ := Node.draft_matches k kind n' p' hp'
  rw [hblank, hq'] at hq
  cases hq
  exact hpq.symm.trans hpq'

/-- Two nodes that are the same but for their values and counts compile to
the same text wherever both compile.  The values are bound under the same
markers, by themselves as well as in collectors that give the same
markers. -/
theorem Reachable.text_eq_of_blank_eq {kind : Kind} {n n' : Node kind} (h : Reachable kind n)
    (h' : Reachable kind n') (hblank : Node.blank kind n = Node.blank kind n') {d : Dialect}
    (hd : d.Shipped) :
    (∀ sql sql', answer (Node.compile d kind n) = .ok sql →
      answer (Node.compile d kind n') = .ok sql' →
      sql = sql' ∧ Option.Rel Collector.SameMarkers
        (Node.collector? kind (left (Node.compile d kind n)))
        (Node.collector? kind (left (Node.compile d kind n')))) ∧
    ∀ c c', c.SameMarkers c' → ∀ sql sql', answer (Node.compileInto d kind n c) = .ok sql →
      answer (Node.compileInto d kind n' c') = .ok sql' →
      sql = sql' ∧ (left (Node.compileInto d kind n c)).2.SameMarkers
        (left (Node.compileInto d kind n' c')).2 := by
  refine ⟨fun sql sql' hsql hsql' => ?_, fun c c' hc sql sql' hsql hsql' => ?_⟩
  · obtain ⟨p, hp, rfl, hcollector⟩ := Node.draft_of_compile hd h.coherent hsql
    obtain ⟨p', hp', rfl, hcollector'⟩ := Node.draft_of_compile hd h'.coherent hsql'
    obtain ⟨htext, hafter⟩ :=
      Draft.written_congr (d := d) (Node.draft_blank_eq _ hblank hp hp') (.refl (.empty d.style))
    rw [hcollector, hcollector']
    refine ⟨htext, ?_⟩
    split
    · exact .some hafter
    · exact .none
  · obtain ⟨p, hp, rfl, hafter⟩ := Node.draft_of_compileInto hd h.coherent hsql
    obtain ⟨p', hp', rfl, hafter'⟩ := Node.draft_of_compileInto hd h'.coherent hsql'
    rw [hafter, hafter']
    exact Draft.written_congr (Node.draft_blank_eq _ hblank hp hp') hc

/-- A comparison with a number and with a text. -/
theorem Reachable.text_eq_of_blank_eq_of_comparison :
    let left₀ : Reference := .identifier ⟨"a", rfl⟩
    let p : Predicate := .comparison left₀ .eq (.value (.int 1))
    let q : Predicate := .comparison left₀ .eq (.value (.text "'; --"))
    let c := Collector.empty .named
    Reachable .predicate p ∧ Reachable .predicate q ∧ p.blank = q.blank ∧ Dialect.ansi.Shipped ∧
      c.SameMarkers c ∧
      answer (Node.compileInto Dialect.ansi .predicate p c) = .ok "\"a\" = :eq1" ∧
      answer (Node.compileInto Dialect.ansi .predicate q c) = .ok "\"a\" = :eq1" ∧
      (left (Node.compileInto Dialect.ansi .predicate p c)).2.SameMarkers
        (left (Node.compileInto Dialect.ansi .predicate q c)).2 := by
  intro left₀ p q c
  have hp : Reachable .predicate p := .made (.comparison left₀ .eq (.value (.int 1)))
    (fun _ h => nomatch h) rfl
  have hq : Reachable .predicate q := .made (.comparison left₀ .eq (.value (.text "'; --")))
    (fun _ h => nomatch h) rfl
  have hblank : p.blank = q.blank := by simp only [p, q, Predicate.blank, Operand.blank]
  have hsql : answer (Node.compileInto Dialect.ansi .predicate p c) = .ok "\"a\" = :eq1" := by
    simp only [p, c, left₀]
    rfl
  have hsql' : answer (Node.compileInto Dialect.ansi .predicate q c) = .ok "\"a\" = :eq1" := by
    simp only [q, c, left₀]
    rfl
  refine ⟨hp, hq, hblank, .config .standard, .refl c, hsql, hsql', ?_⟩
  exact ((Reachable.text_eq_of_blank_eq hp hq hblank (.config .standard)).2 c c (.refl c) _ _ hsql
    hsql').2

end SqlTree
