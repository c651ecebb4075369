import SqlTree.Proofs.Filtered.Keyword
import SqlTree.Proofs.Filtered.Visible

/-!
# SqlTree.Proofs.Filtered.Node

Updates and deletes never go without a condition.  What stands before the
condition is the head of the statement (`Update.head`, `Delete.head`).  A
compilation is `Guarded` if all that it answers are the head and a condition
behind it, and that only with a test somewhere in the filter; without a test
it refuses, because of the missing condition unless the head is missing too.
Every compilation of a reachable update or delete is guarded
(`Reachable.compile_guarded`): a test can be seen, so it is never taken for
an empty condition, and an empty condition is refused even where groups hide
that it is empty.
-/

namespace SqlTree

/-! ## Heads -/

/-- What an update starts with: its table and its assignments, whose values
go to the collector. -/
def Update.head (d : Dialect) (u : Update) (c : Collector) : Except Error String :=
  match u.table? with
  | none => .error (.missingTable .update)
  | some table =>
    if u.assignments.isEmpty then .error (.missingValues .update)
    else (answer (assignmentRuns d u.assignments c)).map fun texts =>
      d.quotePrefixes [table.text] ("UPDATE " ++ table.quoted d ++ " SET " ++ joined ", " texts)

/-- What a delete starts with: its table. -/
def Delete.head (d : Dialect) (del : Delete) : Except Error String :=
  match del.table? with
  | none => .error (.missingTable .delete)
  | some table => .ok (d.quotePrefixes [table.text] ("DELETE FROM " ++ table.quoted d))

theorem answer_assignmentRuns {d : Dialect} (hd : d.Shipped) {assignments : List Assignment}
    (h : AssignmentsCoherent assignments) (c : Collector) :
    answer (assignmentRuns d assignments c) =
      (assignmentDrafts d.constructs assignments).map fun ps => Draft.texts d ps c := by
  rw [(assignmentRuns_follow hd assignments h).answer_eq]
  cases assignmentDrafts d.constructs assignments <;> rfl

/-! ## Guards -/

/-- The result of compiling a statement of the kind.  An answer is the head
with a condition behind it, and there is a test in the filter then; without
one there is an error, which is about the condition if there is a head. -/
structure Guarded (kind : StatementKind) (filter : Clause) (head result : Except Error String) :
    Prop where
  filtered : ∀ sql, result = .ok sql → filter.hasTest = true ∧ ∃ start condition,
    head = .ok start ∧ isBlankText condition = false ∧ sql = start ++ " WHERE " ++ condition
  refused : filter.hasTest = false → ∃ e, result = .error e ∧
    ∀ start, head = .ok start → e = .missingFilter kind

namespace Guarded

variable {kind : StatementKind} {filter : Clause} {head : Except Error String} {e : Error}

/-- Without a head there is no statement. -/
theorem of_head_error : Guarded kind filter (.error e) (.error e) where
  filtered _ h := by cases h
  refused _ := ⟨e, rfl, fun _ h => by cases h⟩

/-- An error because of the missing condition is always in place. -/
theorem of_missing : Guarded kind filter head (.error (.missingFilter kind)) where
  filtered _ h := by cases h
  refused _ := ⟨_, rfl, fun _ _ => rfl⟩

/-- A condition is written behind the head, unless it comes to nothing. -/
theorem of_draft {d : Dialect} {k : Constructs} (hcoherent : filter.Coherent)
    (hfilter : filter.kind = .filter) (table : Identifier) (before : String) {c c' : Collector}
    {statement : Draft → Draft}
    (htext : ∀ q, (statement q).text d c = before ++ " " ++ q.text d c') :
    Guarded kind filter (.ok (d.quotePrefixes [table.text] before))
      (Except.map (fun p => Draft.text d p c) do
        let q ← filter.draft k
        if q.isEmpty then .error (.missingFilter kind)
        else .ok (.requoted [table.text] (statement q))) := by
  by_cases htest : filter.hasTest = true
  · refine ⟨fun sql hsql => ⟨htest, ?_⟩, fun hnone => absurd htest (by rw [hnone]; decide)⟩
    obtain ⟨r, hr, rfl⟩ := exists_of_map_eq_ok hsql
    obtain ⟨q, hq, hr⟩ := exists_of_bind_eq_ok hr
    obtain ⟨p, hp, rfl⟩ := filter.draft_visible k hcoherent htest q hq
    have hvisible := Draft.Visible.append_right (.code (filter.kind.keyword ++ " ")) hp
    rw [hvisible.isEmpty_eq_false, if_neg Bool.false_ne_true] at hr
    cases hr
    have hblanks : ∀ name ∈ [table.text], ' ' ∉ name.toList :=
      List.forall_mem_singleton.2 (not_mem_of_isName (by simpa using table.isName_text) (by decide))
    have hword : '.' ∉ "WHERE".toList := by decide
    obtain ⟨condition, hcondition, heq⟩ :=
      Dialect.quotePrefixes_keyword (d := d) hblanks before hword (hp d c')
    have hwritten : (statement (.code (filter.kind.keyword ++ " ") ++ p)).text d c =
        before ++ " " ++ "WHERE" ++ " " ++ p.text d c' := by
      rw [htext, hfilter, Draft.text_append, Draft.text_code, Draft.after_code]
      simp only [ClauseKind.keyword, String.append_assoc]
    refine ⟨_, condition, rfl, hcondition, ?_⟩
    rw [Draft.text_requoted, hwritten, heq]
    simp only [String.append_assoc]
    rfl
  · obtain ⟨q, hq, hempty⟩ := filter.draft_of_not_hasTest k (Bool.eq_false_iff.2 htest)
    rw [hq]
    change Guarded kind filter _ (Except.map _ (if q.isEmpty then _ else _))
    rw [if_pos hempty]
    exact of_missing

end Guarded

theorem Update.guarded_draft {d : Dialect} (hd : d.Shipped) {u : Update} (hcoherent : u.Coherent)
    (hfilter : u.filter.kind = .filter) (c : Collector) :
    Guarded .update u.filter (u.head d c) ((u.draft d.constructs).map fun p => p.text d c) := by
  rw [Update.head, Update.draft]
  cases u.table? with
  | none => exact .of_head_error
  | some table =>
    dsimp only
    by_cases hassignments : u.assignments.isEmpty = true
    · rw [if_pos hassignments, if_pos hassignments]
      exact .of_head_error
    · rw [if_neg hassignments, if_neg hassignments]
      by_cases hempty : u.filter.isEmpty = true
      · rw [if_pos hempty]
        exact .of_missing
      · rw [if_neg hempty, answer_assignmentRuns hd hcoherent.assignments]
        cases assignmentDrafts d.constructs u.assignments with
        | error e => exact .of_head_error
        | ok ps => exact .of_draft hcoherent.filter hfilter table _ fun _ => Draft.text_update table ps

theorem Delete.guarded_draft {d : Dialect} {del : Delete} (hcoherent : del.Coherent)
    (hfilter : del.filter.kind = .filter) (c : Collector) :
    Guarded .delete del.filter (del.head d)
      ((del.draft d.constructs).map fun p => p.text d c) := by
  rw [Delete.head, Delete.draft]
  cases del.table? with
  | none => exact .of_head_error
  | some table => exact .of_draft hcoherent.filter hfilter table _ fun _ => Draft.text_delete table

/-! ## Every history -/

/-- Whatever has been done to an update or a delete and compiled from it
before, all that compiling it answers, as a whole or into any collector, are
its head, the word `WHERE` and a condition that is not blank, and that only
with a test in its filter.  Without one it is refused, because of the missing
condition unless it has no head. -/
theorem Reachable.compile_guarded {d : Dialect} (hd : d.Shipped) :
    (∀ u : Update, Reachable .update u →
      Guarded .update u.filter (u.head d (.empty d.style)) (answer (u.compile d)) ∧
        ∀ c, Guarded .update u.filter (u.head d c) (answer (u.compileInto d c))) ∧
    ∀ del : Delete, Reachable .delete del →
      Guarded .delete del.filter (del.head d) (answer (del.compile d)) ∧
        ∀ c, Guarded .delete del.filter (del.head d) (answer (del.compileInto d c)) := by
  refine ⟨fun u hu => ?_, fun del hdel => ?_⟩
  · have hguarded := Update.guarded_draft hd hu.coherent (hu.filtersRows _ rfl)
    exact ⟨Node.answer_compile hd hu.coherent ▸ hguarded _,
      fun c => Node.answer_compileInto hd hu.coherent c ▸ hguarded c⟩
  · have hguarded := Delete.guarded_draft (d := d) hdel.coherent (hdel.filtersRows _ rfl)
    exact ⟨Node.answer_compile hd hdel.coherent ▸ hguarded _,
      fun c => Node.answer_compileInto hd hdel.coherent c ▸ hguarded c⟩

/-- An update that is compiled and then loses its condition, and a delete with
an empty group for a condition, which is then given another. -/
theorem Reachable.compile_guarded_of_cleared :
    let d := Dialect.ansi
    let called (b : Builder .update) (u : Update) : Update := (Call.build b).act u
    let u : Update := called (.updateWhere (.raw "b = 2"))
      (called (.set "a" (.value (.int 1))) (called (.updateTable "t") Update.empty))
    let compiled : Update := left (u.compile d)
    let cleared : Update := ((Path.via .updateFilter .here).edit
      (fun g => ((), left (Change.clear.edit g))) compiled).2
    let called' (b : Builder .delete) (del : Delete) : Delete := (Call.build b).act del
    let del : Delete := called' (.deleteWhere (.group (Group.empty .and)))
      (called' (.deleteFrom "t") Delete.empty)
    let filtered : Delete := called' (.deleteWhere (.raw "b = 2")) del
    d.Shipped ∧ Reachable .update u ∧ Reachable .update cleared ∧ Reachable .delete del ∧
      Reachable .delete filtered ∧
      answer (u.compile d) = .ok "UPDATE \"t\" SET \"a\" = :a1 WHERE b = 2" ∧
      u.filter.hasTest = true ∧
      answer (cleared.compile d) = .error (.missingFilter .update) ∧
      answer (del.compile d) = .error (.missingFilter .delete) ∧
      answer (filtered.compile d) = .ok "DELETE FROM \"t\" WHERE b = 2" ∧
      filtered.filter.hasTest = true := by
  intro d called u compiled cleared called' del filtered
  have hd : d.Shipped := .config .standard
  have htable : Reachable .update (called (.updateTable "t") Update.empty) :=
    .called .here (.build (.updateTable "t")) (.made .update (fun _ h => nomatch h) rfl)
      fun _ h => nomatch h
  have hset : Reachable .update
      (called (.set "a" (.value (.int 1))) (called (.updateTable "t") Update.empty)) :=
    .called .here (.build (.set "a" (.value (.int 1)))) htable fun _ h => nomatch h
  have hu : Reachable .update u :=
    .called .here (.build (.updateWhere (.raw "b = 2"))) hset fun _ h => nomatch h
  have hcompiled : Reachable .update compiled :=
    .called .here (.compile d hd) hu fun _ h => nomatch h
  have hcleared : Reachable .update cleared :=
    .called (.via .updateFilter .here) (.change .clear) hcompiled fun _ h => nomatch h
  have hfrom : Reachable .delete (called' (.deleteFrom "t") Delete.empty) :=
    .called .here (.build (.deleteFrom "t")) (.made .delete (fun _ h => nomatch h) rfl)
      fun _ h => nomatch h
  have hdel : Reachable .delete del :=
    .called .here (.build (.deleteWhere (.group (Group.empty .and)))) hfrom fun v hv => by
      cases List.mem_singleton.1 hv
      exact .made (.group .and) (fun _ h => nomatch h) rfl
  have hsql : answer (u.compile d) = .ok "UPDATE \"t\" SET \"a\" = :a1 WHERE b = 2" := by
    refine eq_ok_of_toOption ?_
    simp only [u, called, d]
    decide +kernel
  have hfiltered : Reachable .delete filtered :=
    .called .here (.build (.deleteWhere (.raw "b = 2"))) hdel fun _ h => nomatch h
  have hsql' : answer (filtered.compile d) = .ok "DELETE FROM \"t\" WHERE b = 2" := by
    refine eq_ok_of_toOption ?_
    simp only [filtered, del, called', d]
    decide +kernel
  have hguarded := compile_guarded hd
  have htest' := ((hguarded.2 filtered hfiltered).1.filtered _ hsql').1
  have htest := ((hguarded.1 u hu).1.filtered _ hsql).1
  obtain ⟨e, he, hmissing⟩ := (hguarded.1 cleared hcleared).1.refused (by decide +kernel)
  obtain ⟨e', he', hmissing'⟩ := (hguarded.2 del hdel).1.refused (by decide +kernel)
  have hhead : cleared.head d (.empty d.style) = .ok "UPDATE \"t\" SET \"a\" = :a1" := by
    refine eq_ok_of_toOption ?_
    simp only [cleared, compiled, u, called, d]
    decide +kernel
  have hhead' : del.head d = .ok "DELETE FROM \"t\"" := by
    refine eq_ok_of_toOption ?_
    simp only [del, called', d]
    decide +kernel
  exact ⟨hd, hu, hcleared, hdel, hfiltered, hsql, htest, hmissing _ hhead ▸ he,
    hmissing' _ hhead' ▸ he', hsql', htest'⟩

end SqlTree
