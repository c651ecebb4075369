import SqlTree.Proofs.Caching.Statement
import SqlTree.Proofs.Rollback.Node

/-!
# SqlTree.Proofs.Caching.Node

Compiling coherent nodes of every kind.  Whatever a coherent node keeps, it
compiles to what its draft writes: with a collector of its own
(`Node.compile_follows`) and into another one (`Node.compileInto_follows`).
So coherent nodes with the same draft compile alike
(`Node.compile_of_draft_eq`, `Node.compileInto_of_draft_eq`), and a fresh
copy is such a node.
-/

namespace SqlTree

/-! ## Fresh copies are coherent -/

mutual

theorem Operand.coherent_fresh : (o : Operand) → o.Coherent → o.fresh.Coherent
  | .value _, _ => by simp only [Operand.fresh, Operand.Coherent]
  | .identifier _, _ => by simp only [Operand.fresh, Operand.Coherent]
  | .literal _, _ => by simp only [Operand.fresh, Operand.Coherent]
  | .expression e, h => by
    rw [Operand.Coherent] at h
    simpa only [Operand.fresh, Operand.Coherent] using e.coherent_fresh h
  | .subquery s, h => by
    rw [Operand.Coherent] at h
    simpa only [Operand.fresh, Operand.Coherent] using s.coherent_fresh h

theorem Filling.coherent_fresh : (f : Filling) → f.Coherent → f.fresh.Coherent
  | .value _, _ => by simp only [Filling.fresh, Filling.Coherent]
  | .identifier _, _ => by simp only [Filling.fresh, Filling.Coherent]
  | .alias _, _ => by simp only [Filling.fresh, Filling.Coherent]
  | .literal _, _ => by simp only [Filling.fresh, Filling.Coherent]
  | .subquery s, h => by
    rw [Filling.Coherent] at h
    simpa only [Filling.fresh, Filling.Coherent] using s.coherent_fresh h

theorem slotsCoherent_fresh :
    (slots : List Slot) → SlotsCoherent slots → SlotsCoherent (freshSlots slots)
  | [], _ => by simp only [freshSlots, SlotsCoherent]
  | ⟨_, filling⟩ :: slots, h => by
    rw [SlotsCoherent] at h
    simp only [freshSlots, Slot.fresh, SlotsCoherent]
    exact ⟨filling.coherent_fresh h.1, slotsCoherent_fresh slots h.2⟩

theorem Expression.coherent_fresh : (e : Expression) → e.Coherent → e.fresh.Coherent
  | ⟨_, slots⟩, h => by
    rw [Expression.Coherent] at h
    simp only [Expression.fresh, Expression.Coherent]
    exact ⟨by rw [names_freshSlots]; exact h.1, slotsCoherent_fresh slots h.2⟩

theorem Predicate.coherent_fresh : (p : Predicate) → p.Coherent → p.fresh.Coherent
  | .comparison _ _ right, h => by
    rw [Predicate.Coherent] at h
    simpa only [Predicate.fresh, Predicate.Coherent] using right.coherent_fresh h
  | .between _ _ low high, h => by
    rw [Predicate.Coherent] at h
    simp only [Predicate.fresh, Predicate.Coherent]
    exact ⟨low.coherent_fresh h.1, high.coherent_fresh h.2⟩
  | .inValues _ _ _ _, _ => by simp only [Predicate.fresh, Predicate.Coherent]
  | .inSelect _ _ s, h => by
    rw [Predicate.Coherent] at h
    simpa only [Predicate.fresh, Predicate.Coherent] using s.coherent_fresh h
  | .like _ _ pattern _, h => by
    rw [Predicate.Coherent] at h
    simpa only [Predicate.fresh, Predicate.Coherent] using pattern.coherent_fresh h
  | .truth _ _ _, _ => by simp only [Predicate.fresh, Predicate.Coherent]
  | .existence _ s, h => by
    rw [Predicate.Coherent] at h
    simpa only [Predicate.fresh, Predicate.Coherent] using s.coherent_fresh h
  | .quantified _ _ _ s, h => by
    rw [Predicate.Coherent] at h
    simpa only [Predicate.fresh, Predicate.Coherent] using s.coherent_fresh h
  | .literal _, _ => by simp only [Predicate.fresh, Predicate.Coherent]
  | .expression e, h => by
    rw [Predicate.Coherent] at h
    simpa only [Predicate.fresh, Predicate.Coherent] using e.coherent_fresh h
  | .group g, h => by
    rw [Predicate.Coherent] at h
    simpa only [Predicate.fresh, Predicate.Coherent] using g.coherent_fresh h

theorem termsCoherent_fresh :
    (terms : List Term) → TermsCoherent terms → TermsCoherent (freshTerms terms)
  | [], _ => by simp only [freshTerms, TermsCoherent]
  | ⟨_, p⟩ :: terms, h => by
    rw [TermsCoherent] at h
    simp only [freshTerms, Term.fresh, TermsCoherent]
    exact ⟨p.coherent_fresh h.1, termsCoherent_fresh terms h.2⟩

theorem Group.coherent_fresh : (g : Group) → g.Coherent → g.fresh.Coherent
  | ⟨terms, _, _, _, _⟩, h => by
    rw [Group.Coherent] at h
    simp only [Group.fresh, Group.Coherent]
    exact ⟨Cache.sound_none, termsCoherent_fresh terms h.2⟩

theorem Clause.coherent_fresh : (c : Clause) → c.Coherent → c.fresh.Coherent
  | ⟨_, none⟩, _ => by simp only [Clause.fresh, Clause.Coherent]
  | ⟨_, some g⟩, h => by
    rw [Clause.Coherent] at h
    simpa only [Clause.fresh, Clause.Coherent] using g.coherent_fresh h

theorem JoinTarget.coherent_fresh : (t : JoinTarget) → t.Coherent → t.fresh.Coherent
  | .table _, _ => by simp only [JoinTarget.fresh, JoinTarget.Coherent]
  | .subquery s, h => by
    rw [JoinTarget.Coherent] at h
    simpa only [JoinTarget.fresh, JoinTarget.Coherent] using s.coherent_fresh h

theorem Join.coherent_fresh : (j : Join) → j.Coherent → j.fresh.Coherent
  | ⟨_, target, _, on, _⟩, h => by
    rw [Join.Coherent] at h
    simp only [Join.fresh, Join.Coherent]
    exact ⟨Cache.sound_none, target.coherent_fresh h.2.1, on.coherent_fresh h.2.2⟩

theorem joinsCoherent_fresh :
    (joins : List Join) → JoinsCoherent joins → JoinsCoherent (freshJoins joins)
  | [], _ => by simp only [freshJoins, JoinsCoherent]
  | j :: joins, h => by
    rw [JoinsCoherent] at h
    simp only [freshJoins, JoinsCoherent]
    exact ⟨j.coherent_fresh h.1, joinsCoherent_fresh joins h.2⟩

theorem ColumnSource.coherent_fresh : (s : ColumnSource) → s.Coherent → s.fresh.Coherent
  | .reference _, _ => by simp only [ColumnSource.fresh, ColumnSource.Coherent]
  | .expression e, h => by
    rw [ColumnSource.Coherent] at h
    simpa only [ColumnSource.fresh, ColumnSource.Coherent] using e.coherent_fresh h
  | .subquery s, h => by
    rw [ColumnSource.Coherent] at h
    simpa only [ColumnSource.fresh, ColumnSource.Coherent] using s.coherent_fresh h

theorem columnsCoherent_fresh :
    (columns : List Column) → ColumnsCoherent columns → ColumnsCoherent (freshColumns columns)
  | [], _ => by simp only [freshColumns, ColumnsCoherent]
  | ⟨source, _⟩ :: columns, h => by
    rw [ColumnsCoherent] at h
    simp only [freshColumns, Column.fresh, ColumnsCoherent]
    exact ⟨source.coherent_fresh h.1, columnsCoherent_fresh columns h.2⟩

theorem originCoherent_fresh :
    (origin? : Option Origin) → OriginCoherent origin? → OriginCoherent (freshOrigin origin?)
  | none, _ => by simp only [freshOrigin, OriginCoherent]
  | some (.table _ _), _ => by simp only [freshOrigin, Origin.fresh, OriginCoherent]
  | some (.subquery s _), h => by
    rw [OriginCoherent] at h
    simpa only [freshOrigin, Origin.fresh, OriginCoherent] using s.coherent_fresh h

theorem combinedCoherent_fresh :
    (combined? : Option (SetOperation × Select)) → CombinedCoherent combined? →
    CombinedCoherent (freshCombined combined?)
  | none, _ => by simp only [freshCombined, CombinedCoherent]
  | some (_, s), h => by
    rw [CombinedCoherent] at h
    simpa only [freshCombined, CombinedCoherent] using s.coherent_fresh h

theorem Select.coherent_fresh : (s : Select) → s.Coherent → s.fresh.Coherent
  | ⟨distinct, columns, into?, origin?, joins, filter, groupBy, having, combined?, orderBy, limit,
      offset, nesting, pretty, columnTexts, cache⟩, h => by
    obtain ⟨-, -, hcolumns, horigin, hjoins, hfilter, hhaving, hcombined⟩ :=
      (Select.coherent_iff _).1 h
    simp only [Select.fresh, Select.Coherent]
    exact ⟨Cache.sound_none, ColumnTexts.sound_none, columnsCoherent_fresh columns hcolumns,
      originCoherent_fresh origin? horigin, joinsCoherent_fresh joins hjoins,
        filter.coherent_fresh hfilter,
      having.coherent_fresh hhaving, combinedCoherent_fresh combined? hcombined⟩

end

/-! ## Nodes of every kind -/

namespace Node

variable {d : Dialect}

/-- Every text kept on a node or below it is right. -/
def Coherent : (k : Kind) → Node k → Prop
  | .select, s => Select.Coherent s
  | .insert, i => Insert.Coherent i
  | .update, u => Update.Coherent u
  | .delete, del => Delete.Coherent del
  | .group, g => Group.Coherent g
  | .clause, c => Clause.Coherent c
  | .join, j => Join.Coherent j
  | .predicate, p => Predicate.Coherent p
  | .expression, e => Expression.Coherent e
  | .reference, _ => True

/-- A copy of a node with perhaps other texts kept, all of which are right. -/
abbrev Renewal (k : Kind) (n : Node k) : Node k → Prop := Renewed (Coherent k) (fresh k) n

theorem coherent_fresh {k : Kind} {n : Node k} (h : Coherent k n) : Coherent k (fresh k n) := by
  cases k with
  | select => exact Select.coherent_fresh n h
  | group => exact Group.coherent_fresh n h
  | clause => exact Clause.coherent_fresh n h
  | join => exact Join.coherent_fresh n h
  | predicate => exact Predicate.coherent_fresh n h
  | expression => exact Expression.coherent_fresh n h
  | reference => trivial
  | insert =>
    obtain ⟨-, hrows, hsource⟩ : Insert.Coherent n := h
    refine ⟨Cache.sound_none, ?_, ?_⟩
    · intro row hrow o ho
      obtain ⟨row₀, hrow₀, rfl⟩ := List.mem_map.1 hrow
      obtain ⟨o₀, ho₀, rfl⟩ := List.mem_map.1 ho
      exact o₀.coherent_fresh (hrows row₀ hrow₀ o₀ ho₀)
    · intro s hs
      obtain ⟨s₀, hs₀, rfl⟩ := Option.map_eq_some_iff.1 hs
      exact s₀.coherent_fresh (hsource s₀ hs₀)
  | update =>
    obtain ⟨-, hassignments, hfilter⟩ : Update.Coherent n := h
    refine ⟨Cache.sound_none, ?_, Clause.coherent_fresh _ hfilter⟩
    intro a ha
    obtain ⟨a₀, ha₀, rfl⟩ := List.mem_map.1 ha
    exact a₀.value.coherent_fresh (hassignments a₀ ha₀)
  | delete =>
    obtain ⟨-, hfilter⟩ : Delete.Coherent n := h
    exact ⟨Cache.sound_none, Clause.coherent_fresh _ hfilter⟩

/-! ### Into a collector -/

theorem compileInto_follows (hd : d.Shipped) {k : Kind} {n : Node k} (h : Coherent k n) :
    (compileInto d k n).Follows ((Draft.scribe d).effect (draft d.constructs k n))
    (Renewal k n) := by
  cases k with
  | select => exact Drafted.part_follows hd h (Select.body_follows hd n h)
  | insert => exact Drafted.part_follows hd h (Insert.body_follows hd h)
  | update => exact Drafted.part_follows hd h (Update.body_follows hd h)
  | delete => exact Drafted.part_follows hd h (Delete.body_follows hd h)
  | group => exact Drafted.part_follows hd h (Group.body_follows hd n h)
  | clause => exact Clause.run_follows hd n h
  | join => exact Drafted.part_follows hd h (Join.body_follows hd n h)
  | predicate => exact (Predicate.steps_follow hd n h).orRestore
  | expression => exact Expression.run_follows hd n h
  | reference =>
    exact .pure (fun _ => Draft.text_ofReference n) (Draft.bindings_ofReference n) (.refl h)

/-- The collector after a node is compiled into it: the one that the effect
gives, or the same if there is an error. -/
theorem collector_compileInto (hd : d.Shipped) {k : Kind} {n : Node k} (h : Coherent k n)
    (c : Collector) :
    answer (compileInto d k n c) =
      ((Draft.scribe d).effect (draft d.constructs k n) c).map Prod.fst ∧
      (left (compileInto d k n c)).2 =
        (((Draft.scribe d).effect (draft d.constructs k n) c).toOption.map Prod.snd).getD c := by
  cases hrun : compileInto d k n c with
  | ok sql s =>
    obtain ⟨heffect, -⟩ := (compileInto_follows hd h).of_ok hrun
    rw [heffect]
    exact ⟨rfl, rfl⟩
  | error e s =>
    obtain ⟨heffect, -⟩ := (compileInto_follows hd h).of_error hrun
    rw [heffect]
    exact ⟨rfl, (compileInto_error hrun).1⟩

/-! ### With a collector of their own -/

/-- The nodes of this kind keep texts. -/
def keepsText : Kind → Bool
  | .select | .insert | .update | .delete | .group | .join => true
  | .clause | .predicate | .expression | .reference => false

theorem unkept_follows {μ : Type} {run : Run μ String} {effect : Effect String} {P : μ → Prop}
    (h : run.Follows effect P) : P (left (unkept d run)) ∧
      answer (unkept d run) = (effect (Collector.empty d.style)).map Prod.fst := by
  cases hrun : run (Collector.empty d.style) with
  | ok sql s =>
    obtain ⟨heffect, hn⟩ := h.of_ok hrun
    simp only [unkept, hrun, left, answer, heffect]
    exact ⟨hn, rfl⟩
  | error e s =>
    obtain ⟨heffect, hn⟩ := h.of_error hrun
    simp only [unkept, hrun, left, answer, heffect]
    exact ⟨hn, rfl⟩

theorem clause_compile_follows (hd : d.Shipped) (c : Clause) (h : c.Coherent) :
    Renewed Clause.Coherent Clause.fresh c (left (c.compile d)) ∧
      answer (c.compile d) =
        ((Draft.scribe d).effect (c.draft d.constructs) (Collector.empty d.style)).map
          Prod.fst := by
  obtain ⟨kind, _ | g⟩ := c
  · exact ⟨.refl h, by simp only [Clause.compile, Clause.draft, answer]; rfl⟩
  · rw [Clause.Coherent] at h
    obtain ⟨hn, hanswer, -⟩ := Drafted.whole_follows hd h (g.body_follows hd h)
    have hcompile :
        answer (Clause.compile d ⟨kind, some g⟩) = (answer (g.compile d)).map (clauseText kind) ∧
        left (Clause.compile d ⟨kind, some g⟩) = ⟨kind, some (left (g.compile d))⟩ := by
      simp only [Clause.compile]
      cases g.compile d <;> exact ⟨rfl, rfl⟩
    rw [hcompile.1, hcompile.2]
    refine ⟨.within (f := fun g => Clause.mk kind (some g)) (fun _ h => by rwa [Clause.Coherent])
      (fun _ => by rw [Clause.fresh]; rfl) hn, ?_⟩
    have hgroup : answer (g.compile d) =
        ((Draft.scribe d).effect (g.draft d.constructs) (Collector.empty d.style)).map Prod.fst :=
      hanswer
    rw [hgroup, Clause.draft]
    cases g.draft d.constructs with
    | error e => rfl
    | ok p => exact congrArg Except.ok (Draft.text_clause kind).symm

/-- Compiling a node with a collector of its own writes its draft, and
the collector is kept. -/
theorem compile_follows (hd : d.Shipped) {k : Kind} {n : Node k} (h : Coherent k n) :
    Renewal k n (left (compile d k n)) ∧
      answer (compile d k n) =
        ((Draft.scribe d).effect (draft d.constructs k n) (Collector.empty d.style)).map Prod.fst ∧
      collector? k (left (compile d k n)) =
        if keepsText k then
          ((Draft.scribe d).effect (draft d.constructs k n) (Collector.empty d.style)).toOption.map
            Prod.snd
        else none := by
  cases k with
  | select => exact Drafted.whole_follows hd h (Select.body_follows hd n h)
  | insert => exact Drafted.whole_follows hd h (Insert.body_follows hd h)
  | update => exact Drafted.whole_follows hd h (Update.body_follows hd h)
  | delete => exact Drafted.whole_follows hd h (Delete.body_follows hd h)
  | group => exact Drafted.whole_follows hd h (Group.body_follows hd n h)
  | join => exact Drafted.whole_follows hd h (Join.body_follows hd n h)
  | clause =>
    obtain ⟨hn, hanswer⟩ := clause_compile_follows hd n h
    exact ⟨hn, hanswer, rfl⟩
  | predicate =>
    obtain ⟨hn, hanswer⟩ := unkept_follows (Predicate.steps_follow hd n h)
    exact ⟨hn, hanswer, rfl⟩
  | expression =>
    obtain ⟨hn, hanswer⟩ := unkept_follows (Expression.run_follows hd n h)
    exact ⟨hn, hanswer, rfl⟩
  | reference => exact ⟨.refl h, congrArg Except.ok (Draft.text_ofReference n).symm, rfl⟩

/-! ### Written out -/

/-- A coherent node answers its draft, written out. -/
theorem answer_compile (hd : d.Shipped) {k : Kind} {n : Node k} (h : Coherent k n) :
    answer (compile d k n) =
      (draft d.constructs k n).map fun p => p.text d (.empty d.style) := by
  rw [(compile_follows hd h).2.1]
  cases draft d.constructs k n <;> rfl

theorem answer_compileInto (hd : d.Shipped) {k : Kind} {n : Node k} (h : Coherent k n)
    (c : Collector) :
    answer (compileInto d k n c) = (draft d.constructs k n).map fun p => p.text d c := by
  rw [(compileInto_follows hd h).answer_eq]
  cases draft d.constructs k n <;> rfl

/-- What a coherent node compiles to is its draft, written out. -/
theorem draft_of_compile (hd : d.Shipped) {k : Kind} {n : Node k} (h : Coherent k n) {sql : String}
    (hsql : answer (compile d k n) = .ok sql) : ∃ p, draft d.constructs k n = .ok p ∧
      p.text d (.empty d.style) = sql ∧
      collector? k (left (compile d k n)) =
        if keepsText k then some (p.after (.empty d.style)) else none := by
  obtain ⟨-, hanswer, hcollector⟩ := compile_follows hd h
  rw [hanswer] at hsql
  cases hdraft : draft d.constructs k n with
  | error e => rw [hdraft] at hsql; cases hsql
  | ok p =>
    rw [hdraft] at hsql hcollector
    cases hsql
    exact ⟨p, rfl, rfl, hcollector⟩

/-- So it is in a collector, which then holds the values of the draft too. -/
theorem draft_of_compileInto (hd : d.Shipped) {k : Kind} {n : Node k} (h : Coherent k n)
    {c : Collector} {sql : String} (hsql : answer (compileInto d k n c) = .ok sql) :
    ∃ p, draft d.constructs k n = .ok p ∧
      p.text d c = sql ∧ (left (compileInto d k n c)).2 = p.after c := by
  obtain ⟨hanswer, hcollector⟩ := collector_compileInto hd h c
  rw [hanswer] at hsql
  cases hdraft : draft d.constructs k n with
  | error e => rw [hdraft] at hsql; cases hsql
  | ok p =>
    rw [hdraft] at hsql hcollector
    cases hsql
    exact ⟨p, rfl, rfl, hcollector⟩

/-! ### Compared with another node -/

variable {k : Kind} {n n' : Node k}

/-- By themselves coherent nodes with the same draft compile alike. -/
theorem compile_of_draft_eq (hd : d.Shipped) (h : Coherent k n) (h' : Coherent k n')
    (hdraft : draft d.constructs k n' = draft d.constructs k n) :
    answer (compile d k n) = answer (compile d k n') ∧
      collector? k (left (compile d k n)) = collector? k (left (compile d k n')) := by
  obtain ⟨-, hanswer, hcollector⟩ := compile_follows hd h
  obtain ⟨-, hanswer', hcollector'⟩ := compile_follows hd h'
  rw [hanswer, hanswer', hcollector, hcollector', hdraft]
  exact ⟨rfl, rfl⟩

/-- Into a collector they do so too, whatever the collector holds. -/
theorem compileInto_of_draft_eq (hd : d.Shipped) (h : Coherent k n) (h' : Coherent k n')
    (hdraft : draft d.constructs k n' = draft d.constructs k n) (c : Collector) :
    answer (compileInto d k n c) = answer (compileInto d k n' c) ∧
      (left (compileInto d k n c)).2 = (left (compileInto d k n' c)).2 := by
  obtain ⟨hanswer, hcollector⟩ := collector_compileInto hd h c
  obtain ⟨hanswer', hcollector'⟩ := collector_compileInto hd h' c
  rw [hanswer, hanswer', hcollector, hcollector', hdraft]
  exact ⟨rfl, rfl⟩

end Node

end SqlTree
