import SqlTree.Proofs.Filtered.Visible
import SqlTree.Proofs.Filtered.Keyword
import SqlTree.Proofs.Joins.Everywhere

/-!
# SqlTree.Proofs.Joins.Cross

Cross joins and conditions.  A cross join refuses a condition, but nothing
stops those who go to its condition and add to it there.  What it compiles to
is `Crosses`: the words, what is joined and its alias, and nothing else
unless there is a test in the condition.  Where nobody goes to the condition
of a cross join there is none in any join anywhere
(`ReachableBy.spares`), so no text has one either (`Reachable.cross_join`).
Otherwise it may well have one (`Reachable.cross_join_on`).
-/

namespace SqlTree

/-! ## The condition of a join -/

namespace Join

/-- The condition starts with its own word. -/
def SaysOn (j : Join) : Prop := j.on.kind = .on

/-- A cross join has no place for a condition. -/
def Spares (j : Join) : Prop := j.kind = .cross → j.on.group? = none

theorem saysOn_fresh (j : Join) : j.fresh.SaysOn ↔ j.SaysOn := by
  cases j
  rw [Join.fresh, SaysOn, Clause.kind_fresh, SaysOn]

theorem spares_fresh (j : Join) : j.fresh.Spares ↔ j.Spares := by
  obtain ⟨kind, target, alias?, ⟨word, _ | g⟩, cache⟩ := j <;> simp [Join.fresh, Clause.fresh, Spares]

/-- A cross join refuses every condition. -/
theorem onItem_of_cross {j : Join} (h : j.kind = .cross) (item : Item) :
    j.onItem item = .error .crossJoinCondition := by
  rw [onItem, if_pos h]

end Join

namespace Builder

variable {b : Builder .join} {j j' : Join}

theorem saysOn_build (h : j.SaysOn) (hbuild : b.build j = .ok j') : j'.SaysOn := by
  cases b with
  | label name =>
    obtain ⟨a, -, hbuild⟩ := exists_of_bind_eq_ok hbuild
    cases hbuild
    exact h
  | on item =>
    simp only [build, Join.onItem] at hbuild
    split at hbuild
    · cases hbuild
    · obtain ⟨on, hon, hbuild⟩ := exists_of_bind_eq_ok hbuild
      cases hbuild
      exact (Clause.kind_onGroup hon).trans h

theorem spares_build (h : j.Spares) (hbuild : b.build j = .ok j') : j'.Spares := by
  cases b with
  | label name =>
    obtain ⟨a, -, hbuild⟩ := exists_of_bind_eq_ok hbuild
    cases hbuild
    exact h
  | on item =>
    intro hkind
    simp only [build, Join.onItem] at hbuild
    split at hbuild
    · cases hbuild
    · next hnot =>
      obtain ⟨on, -, hbuild⟩ := exists_of_bind_eq_ok hbuild
      cases hbuild
      exact absurd hkind hnot

end Builder

/-! ## Along a history -/

/-- Every hop may be taken, except to the condition of a cross join. -/
def Access.sparing : Access := fun k l hop n =>
  match k, l, hop, n with
  | _, _, .condition, (j : Join) => j.kind ≠ .cross
  | _, _, _, _ => True

/-- The condition of every join in a tree starts with its own word. -/
theorem Reachable.saysOn {k : Kind} {n : Node k} (h : Reachable k n) :
    Node.OnJoins Join.SaysOn k n :=
  (invariant_onJoins Join.saysOn_fresh (fun _ _ => rfl) Builder.saysOn_build
    (fun _ _ hj => hj) (fun _ hj => hj)).holds h.free

/-- Where nobody goes to the condition of a cross join, no cross join in a
tree has one. -/
theorem ReachableBy.spares {k : Kind} {n : Node k} (h : ReachableBy .sparing k n) :
    Node.OnJoins Join.Spares k n :=
  (invariant_onJoins Join.spares_fresh (fun _ _ _ => rfl) Builder.spares_build
    (fun _ haccess _ hkind => absurd hkind haccess) (fun _ hj => hj)).holds h

/-! ## The text -/

/-- The result of compiling a cross join, where the target is compiled to
this.  Without a test in the condition it is the words, the target and its
alias; with one there is more behind them. -/
structure Crosses (d : Dialect) (j : Join) (target result : Except Error String) : Prop where
  bare : j.on.hasTest = false →
    result = target.map fun text => "CROSS JOIN " ++ text ++ aliasText d j.alias?
  conditioned : j.on.hasTest = true → ∀ sql, result = .ok sql → ∃ text condition,
    target = .ok text ∧ isBlankText condition = false ∧
      sql = "CROSS JOIN " ++ text ++ aliasText d j.alias? ++ " ON " ++ condition

theorem Crosses.of_draft {d : Dialect} (hd : d.Shipped) {j : Join} (hcoherent : j.Coherent)
    (hkind : j.kind = .cross) (hword : j.SaysOn) (c : Collector) :
    Crosses d j (answer (j.target.run d c))
      ((j.draft d.constructs).map fun p => p.text d c) := by
  obtain ⟨-, htarget, hon⟩ := (Join.coherent_iff j).1 hcoherent
  have hrun : answer (j.target.run d c) =
      (j.target.draft d.constructs).map fun p => p.text d c := by
    rw [(j.target.run_follows hd htarget).answer_eq]
    cases j.target.draft d.constructs <;> rfl
  have hdraft : j.draft d.constructs = (do
      let target ← j.target.draft d.constructs
      let on ← j.on.draft d.constructs
      return Draft.join .cross target j.alias? on) := by
    cases j
    cases hkind
    rw [Join.draft]
  rw [hrun, hdraft]
  constructor
  · intro htest
    obtain ⟨q, hq, hempty⟩ := j.on.draft_of_not_hasTest d.constructs htest
    rw [hq]
    cases j.target.draft d.constructs with
    | error e => rfl
    | ok p =>
      refine congrArg Except.ok ?_
      change (Draft.join .cross p j.alias? q).text d c = _
      rw [Draft.text_join, Draft.text_eq_empty_iff.2 hempty, joinText, spaced, if_pos rfl,
        String.append_empty]
      rfl
  · intro htest sql hsql
    obtain ⟨r, hr, rfl⟩ := exists_of_map_eq_ok hsql
    obtain ⟨p, hp, hr⟩ := exists_of_bind_eq_ok hr
    obtain ⟨q, hq, hr⟩ := exists_of_bind_eq_ok hr
    cases hr
    obtain ⟨condition, hvisible, rfl⟩ := j.on.draft_visible d.constructs hon htest q hq
    rw [hp]
    refine ⟨_, condition.text d (p.after c), rfl, hvisible d _, ?_⟩
    have hne : (Draft.code (j.on.kind.keyword ++ " ") ++ condition).text d (p.after c) ≠ "" :=
      fun hnone => by
        have hsome := (Draft.Visible.append_right (.code (j.on.kind.keyword ++ " ")) hvisible).isEmpty_eq_false
        rw [Draft.text_eq_empty_iff.1 hnone] at hsome
        cases hsome
    rw [Draft.text_join, joinText, spaced, if_neg hne, Draft.text_append, Draft.text_code,
      Draft.after_code, show j.on.kind = .on from hword]
    simp only [ClauseKind.keyword, JoinKind.keyword, String.append_assoc]
    rfl

/-- Along every history a cross join refuses a condition.  Where nobody goes
to the condition of a cross join it has none, and without one each text that
it compiles to, as a whole or into any collector, is that of what is joined
between the words and the alias; there is a condition in the text if and only
if somebody has put a test there. -/
theorem Reachable.cross_join {j : Join} (h : Reachable .join j) (hkind : j.kind = .cross) :
    (∀ item, j.onItem item = .error .crossJoinCondition) ∧
    (ReachableBy .sparing .join j → j.on.hasTest = false) ∧
    ∀ d : Dialect, d.Shipped →
      Crosses d j (answer (j.target.run d (.empty d.style))) (answer (j.compile d)) ∧
        ∀ c, Crosses d j (answer (j.target.run d c)) (answer (j.compileInto d c)) := by
  refine ⟨Join.onItem_of_cross hkind, fun hspared => ?_, fun d hd => ?_⟩
  · rw [Clause.hasTest, (hspared.spares.1 hkind : j.on.group? = none)]
  · have hcrosses := Crosses.of_draft hd h.coherent hkind h.saysOn.1
    exact ⟨Node.answer_compile hd h.coherent ▸ hcrosses _,
      fun c => Node.answer_compileInto hd h.coherent c ▸ hcrosses c⟩

/-- A cross join under an alias, and what a condition does to it. -/
theorem Reachable.cross_join_labelled :
    ∃ j : Join, Join.table .cross "b" >>= Join.withAlias "x" = .ok j ∧
      ReachableBy .sparing .join j ∧ j.kind = .cross ∧ Dialect.ansi.Shipped ∧
      j.onItem (.raw "x.n = 1") = .error .crossJoinCondition ∧
      answer (j.compile Dialect.ansi) = .ok "CROSS JOIN \"b\" \"x\"" := by
  have hd : Dialect.ansi.Shipped := .config .standard
  have hmade : ReachableBy .sparing .join (Join.ofTarget .cross (.table ⟨"b", by decide +kernel⟩)) :=
    .made (.table .cross "b") (fun _ h => nomatch h) rfl
  have hlabelled : ReachableBy .sparing .join _ :=
    .called .here (.build (.label "x")) hmade (fun _ h => nomatch h) trivial
  obtain ⟨hrefuses, htest, hcrosses⟩ := cross_join hlabelled.reachable rfl
  refine ⟨_, rfl, hlabelled, rfl, hd, hrefuses _, ?_⟩
  exact ((hcrosses Dialect.ansi hd).1.bare (htest hlabelled)).trans rfl

/-- A cross join to whose condition somebody has gone, alone and in a
select: the condition is written. -/
theorem Reachable.cross_join_on :
    let add (g : Group) : Unit × Group := ((), left (Change.edit (.add (.raw "x = 1")) g))
    ∃ (j : Join) (s : Select), Join.table .cross "b" = .ok j ∧
      Select.fromTable "a" Select.empty = .ok s ∧
      let conditioned : Join := ((Path.via .condition .here).edit add j).2
      let joined : Select :=
        ((Path.via (.join 0) (.via .condition .here)).edit add (s.addJoin j)).2
      Reachable .join conditioned ∧ conditioned.kind = .cross ∧ Reachable .select joined ∧
        answer (conditioned.compile Dialect.ansi) = .ok "CROSS JOIN \"b\" ON x = 1" ∧
        answer (joined.compile Dialect.ansi) =
          .ok "SELECT * FROM \"a\" CROSS JOIN \"b\" ON x = 1" := by
  intro add
  let j := Join.ofTarget .cross (.table ⟨"b", by decide +kernel⟩)
  have hj : Reachable .join j := .made (.table .cross "b") (fun _ h => nomatch h) rfl
  have hs : Reachable .select _ :=
    .called .here (.build (.fromTable "a")) (.made .select (fun _ h => nomatch h) rfl)
      (fun _ h => nomatch h)
  have hadded : Reachable .select _ :=
    .called .here (.build (.join j)) hs fun _ hu => by
      cases List.mem_singleton.1 hu
      exact hj
  refine ⟨j, _, rfl, rfl, .called (.via .condition .here) (.change (.add (.raw "x = 1"))) hj
    (fun _ h => nomatch h), rfl, .called (.via (.join 0) (.via .condition .here))
      (.change (.add (.raw "x = 1"))) hadded (fun _ h => nomatch h), ?_, ?_⟩ <;>
  · refine eq_ok_of_toOption ?_
    decide +kernel

end SqlTree
