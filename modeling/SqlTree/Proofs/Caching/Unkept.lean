import SqlTree.Proofs.Caching.Tree
import SqlTree.Proofs.Grouping.Marks

/-!
# SqlTree.Proofs.Caching.Unkept

Trees that keep nothing.  A fresh copy has no text to serve, so it compiles to
what its draft writes in every dialect there is, also in one that is told
from others by its fingerprint only in part.  What the node keeps afterwards
does not matter here (`Run.Effects`), so the induction over the tree needs
nothing but the rules for runs.
-/

namespace SqlTree

variable {d : Dialect}

/-! ## Nodes, given their bodies -/

/-- The run has the effect; the node that it gives back may be any. -/
abbrev Run.Effects {ν α : Type} (run : Run ν α) (effect : Effect α) : Prop :=
  run.Follows effect fun _ => True

/-- A node with nothing kept is compiled by its body. -/
theorem asPart_effects {ν : Type} [Keeps ν] {node : ν} {body : Pass ν String}
    {effect : Effect String} (hcache : Keeps.cache node = none)
    (hbody : body.Follows effect fun _ => True) : (asPart d node body).Effects effect := by
  intro c
  have hmiss : (Keeps.cache node).partText? d = none := by rw [hcache]; rfl
  cases hrun : body.run (Keeps.keep none node) c with
  | error e s =>
    simp only [asPart, hmiss, hrun, keepPart]
    exact (hbody _ trivial).of_error hrun
  | ok sql s =>
    simp only [asPart, hmiss, hrun, keepPart]
    exact (hbody _ trivial).of_ok hrun

/-- As a whole it is compiled from the empty collector, and the collector after
that is kept with the text. -/
theorem asWhole_effects {ν : Type} [Keeps ν] {node : ν} {body : Pass ν String}
    {effect : Effect String} {sql : String} {c : Collector} (hcache : Keeps.cache node = none)
    (hbody : body.Follows effect fun _ => True)
    (heffect : effect (Collector.empty d.style) = .ok (sql, c)) :
    answer (asWhole d node body) = .ok sql ∧
      (Keeps.cache (left (asWhole d node body))).collector? = some c := by
  have hmiss : (Keeps.cache node).wholeText? d = none := by rw [hcache]; rfl
  exact (asWhole_answers_iff hmiss).2 ((hbody (Keeps.keep none node) trivial).run_eq heffect)

/-- The columns of a select are visited one after the other. -/
theorem visitColumns_effects {s : Select} (hs : s.columnTexts = none)
    {run : Run (List Column) (List String)}
    (hrun : run.Effects ((Draft.listScribe d).effect
      (columnDrafts d.constructs (Draft.star (s.origin?.bind Origin.alias?)) s.columns))) :
    (visitColumns d s (starText d s.aliasName?) run).Follows
      ((Draft.listScribe d).effect (s.columnPlan d.constructs)) fun _ => True := by
  rw [← s.effect_columns, visitColumns, hs]
  refine .bind (.visit hrun fun _ _ _ _ => trivial) fun texts _ => ?_
  dsimp only
  split
  · exact .after_adjust (fun _ _ => trivial) (.pure _)
  · exact .pure _

theorem Group.part_effects {g : Group}
    (hbody : (g.fresh.body d).Follows (Drafted.effect d g.fresh) fun _ => True) :
    (asPart d g.fresh (g.fresh.body d)).Effects
      ((Draft.scribe d).effect (g.fresh.draft d.constructs)) :=
  asPart_effects g.cache_fresh hbody

theorem Join.part_effects {j : Join}
    (hbody : (j.fresh.body d).Follows (Drafted.effect d j.fresh) fun _ => True) :
    (asPart d j.fresh (j.fresh.body d)).Effects
      ((Draft.scribe d).effect (j.fresh.draft d.constructs)) :=
  asPart_effects j.cache_fresh hbody

theorem Select.part_effects {s : Select}
    (hbody : (s.fresh.body d).Follows (Drafted.effect d s.fresh) fun _ => True) :
    (asPart d s.fresh (s.fresh.body d)).Effects
      ((Draft.scribe d).effect (s.fresh.draft d.constructs)) :=
  asPart_effects s.cache_fresh hbody

/-! ## The tree -/

mutual

theorem Operand.run_effects (d : Dialect) (hint : String) : (o : Operand) →
    (o.fresh.run d hint).Effects ((Draft.scribe d).effect (o.fresh.draft d.constructs hint))
  | .value v => by
    rw [Operand.fresh, Operand.run, Operand.draft]
    exact .collect (Draft.effect_bindValue v hint) trivial
  | .identifier i => by
    rw [Operand.fresh, Operand.run, Operand.draft]
    exact .pure (fun _ => rfl) rfl trivial
  | .literal l => by
    rw [Operand.fresh, Operand.run, Operand.draft]
    exact .pure (fun _ => rfl) rfl trivial
  | .expression e => by
    rw [Operand.fresh, Operand.run, Operand.draft]
    exact .rename (e.run_effects d) fun _ _ => trivial
  | .subquery s => by
    rw [Operand.fresh, Operand.run, Operand.draft]
    exact .reshape (Select.part_effects (s.body_effects d))
      (fun _ _ => Draft.text_enclosed) (fun _ => Draft.bindings_enclosed) fun _ _ => trivial

theorem Filling.run_effects (d : Dialect) : (f : Filling) →
    (f.fresh.run d).Effects ((Draft.scribe d).effect (f.fresh.draft d.constructs))
  | .value v => by
    rw [Filling.fresh, Filling.run, Filling.draft]
    exact .collect (Draft.effect_bindValue v "expr") trivial
  | .identifier i => by
    rw [Filling.fresh, Filling.run, Filling.draft]
    exact .pure (fun _ => rfl) rfl trivial
  | .alias a => by
    rw [Filling.fresh, Filling.run, Filling.draft]
    exact .pure (fun _ => rfl) rfl trivial
  | .literal l => by
    rw [Filling.fresh, Filling.run, Filling.draft]
    exact .pure (fun _ => rfl) rfl trivial
  | .subquery s => by
    rw [Filling.fresh, Filling.run, Filling.draft]
    exact .reshape (Select.part_effects (s.body_effects d))
      (fun _ _ => Draft.text_enclosed) (fun _ => Draft.bindings_enclosed) fun _ _ => trivial

theorem slots_effects (d : Dialect) : (slots : List Slot) → ∀ slot ∈ freshSlots slots,
    (slot.filling.run d).Effects ((Draft.scribe d).effect (slot.filling.draft d.constructs))
  | [] => by simp [freshSlots]
  | ⟨_, filling⟩ :: slots => by
    rw [freshSlots, Slot.fresh]
    have hfirst := filling.run_effects d
    have hrest := slots_effects d slots
    exact List.forall_mem_cons.2 ⟨hfirst, hrest⟩

theorem Expression.run_effects (d : Dialect) : (e : Expression) →
    (e.fresh.run d).Effects ((Draft.scribe d).effect (e.fresh.draft d.constructs))
  | ⟨template, slots⟩ => by
    have hpieces := piecesText_follows_of (P := fun _ => True) (slots_effects d slots)
      (fun _ _ _ _ _ _ => trivial) (pieces template)
    rw [Expression.fresh, Expression.run, Expression.draft]
    exact .orRestore (.rename (hpieces (freshSlots slots) trivial) fun _ _ => trivial)

theorem Predicate.steps_effects (d : Dialect) : (p : Predicate) →
    (p.fresh.steps d).Effects ((Draft.scribe d).effect (p.fresh.draft d.constructs))
  | .comparison left op right => by
    rw [Predicate.fresh, Predicate.steps, Predicate.draft]
    exact .reshape (right.run_effects d op.hint) (fun _ _ => Draft.text_comparison left op)
      (fun _ => Draft.bindings_comparison left op) fun _ _ => trivial
  | .between left negated low high => by
    have hboth := Run.Follows.both (y := high.fresh) (low.run_effects d "between")
      (high.run_effects d "between") trivial
    have hmap := hboth.map (f := fun t => betweenText (left.quoted d) negated t.1 t.2)
      (g := fun o => Predicate.between left negated o.1 o.2) (Q := fun _ => True)
      fun _ _ => trivial
    rw [Predicate.fresh, Predicate.steps, Predicate.draft,
      ← Draft.effect_pair (f := fun a b => betweenText (left.quoted d) negated a b)
        (fun _ _ _ => Draft.text_between left negated)
        (fun _ _ => Draft.bindings_between left negated)]
    simpa only [map_eq_pure_bind, bind_assoc, pure_bind] using hmap
  | .inValues left negated values orNull => by
    rw [Predicate.fresh, Predicate.steps, Predicate.draft]
    exact .collect (effect_inList left negated values orNull) trivial
  | .inSelect left negated s => by
    rw [Predicate.fresh, Predicate.steps, Predicate.draft]
    exact .reshape (Select.part_effects (s.body_effects d))
      (fun _ _ => Draft.text_inParentheses left negated)
      (fun _ => Draft.bindings_inParentheses left negated) fun _ _ => trivial
  | .like left negated pattern escape => by
    rw [Predicate.fresh, Predicate.steps, Predicate.draft]
    exact .reshape (pattern.run_effects d "like") (fun _ _ => Draft.text_like left negated escape)
      (fun _ => Draft.bindings_like left negated escape) fun _ _ => trivial
  | .truth left negated word => by
    rw [Predicate.fresh, Predicate.steps, Predicate.draft]
    exact .pure (fun _ => Draft.text_truth left negated word)
      (Draft.bindings_truth left negated word) trivial
  | .existence negated s => by
    rw [Predicate.fresh, Predicate.steps, Predicate.draft]
    exact .reshape (Select.part_effects (s.body_effects d))
      (fun _ _ => Draft.text_existence negated)
      (fun _ => Draft.bindings_existence negated) fun _ _ => trivial
  | .quantified left op quantifier s => by
    rw [Predicate.fresh, Predicate.steps, Predicate.draft]
    exact .reshape (Select.part_effects (s.body_effects d))
      (fun _ _ => Draft.text_quantified left op quantifier)
      (fun _ => Draft.bindings_quantified left op quantifier) fun _ _ => trivial
  | .literal l => by
    rw [Predicate.fresh, Predicate.steps, Predicate.draft]
    exact .pure (fun _ => rfl) rfl trivial
  | .expression e => by
    rw [Predicate.fresh, Predicate.steps, Predicate.draft]
    exact .rename (e.run_effects d) fun _ _ => trivial
  | .group g => by
    rw [Predicate.fresh, Predicate.steps, Predicate.draft]
    exact .rename (Group.part_effects (g.body_effects d)) fun _ _ => trivial

theorem termRuns_effects (d : Dialect) : (terms : List Term) →
    (termRuns d (freshTerms terms)).Effects
      ((Draft.termScribe d).effect (termDrafts d.constructs (freshTerms terms)))
  | [] => by
    rw [freshTerms, termRuns, termDrafts]
    exact fun _ => ⟨rfl, trivial⟩
  | ⟨connective, p⟩ :: terms => by
    have hfirst := ((p.steps_effects d).orRestore).map (f := fun text => (connective, text))
      (g := Term.mk connective) (Q := fun _ => True) fun _ _ => trivial
    have hcons := hfirst.cons (l := freshTerms terms) (R := fun _ => True)
      (termRuns_effects d terms) trivial fun _ _ _ _ => trivial
    rw [freshTerms, Term.fresh, termRuns, termDrafts, ← Draft.effect_term_cons]
    simpa only [map_eq_pure_bind, bind_assoc, pure_bind] using hcons

theorem Group.body_effects (d : Dialect) : (g : Group) →
    (g.fresh.body d).Follows (Drafted.effect d g.fresh) fun _ => True
  | ⟨terms, default, pending, nested, cache⟩ => by
    rw [Group.fresh]
    exact Group.body_follows_of (termRuns_effects d terms) fun _ _ _ _ => trivial

theorem Clause.run_effects (d : Dialect) : (c : Clause) →
    (c.fresh.run d).Effects ((Draft.scribe d).effect (c.fresh.draft d.constructs))
  | ⟨kind, none⟩ => by
    rw [Clause.fresh, Clause.run, Clause.draft]
    exact .pure (fun _ => rfl) rfl trivial
  | ⟨kind, some g⟩ => by
    rw [Clause.fresh, Clause.run, Clause.draft]
    exact .reshape (Group.part_effects (g.body_effects d)) (fun _ _ => Draft.text_clause kind)
      (fun _ => Draft.bindings_clause kind) fun _ _ => trivial

theorem JoinTarget.run_effects (d : Dialect) : (t : JoinTarget) →
    (t.fresh.run d).Effects ((Draft.scribe d).effect (t.fresh.draft d.constructs))
  | .table name => by
    rw [JoinTarget.fresh, JoinTarget.run, JoinTarget.draft]
    exact .pure (fun _ => rfl) rfl trivial
  | .subquery s => by
    rw [JoinTarget.fresh, JoinTarget.run, JoinTarget.draft]
    exact .reshape (Select.part_effects (s.body_effects d))
      (fun _ _ => Draft.text_enclosed) (fun _ => Draft.bindings_enclosed) fun _ _ => trivial

theorem Join.body_effects (d : Dialect) : (j : Join) →
    (j.fresh.body d).Follows (Drafted.effect d j.fresh) fun _ => True
  | ⟨kind, target, alias?, on, cache⟩ => by
    rw [Join.fresh]
    exact Join.body_follows_of (target.run_effects d) (on.run_effects d)
      (fun _ _ _ _ => trivial) fun _ _ _ _ => trivial

theorem joinRuns_effects (d : Dialect) : (joins : List Join) →
    (joinRuns d (freshJoins joins)).Effects
      ((Draft.listScribe d).effect (joinDrafts d.constructs (freshJoins joins)))
  | [] => by
    rw [freshJoins, joinRuns, joinDrafts]
    exact fun _ => ⟨rfl, trivial⟩
  | j :: joins => by
    rw [freshJoins, joinRuns, joinDrafts, ← Draft.effect_cons]
    exact .cons (Join.part_effects (j.body_effects d)) (joinRuns_effects d joins)
      trivial fun _ _ _ _ => trivial

theorem ColumnSource.run_effects (d : Dialect) {star : Draft} {text : String}
    (htext : ∀ c, star.text d c = text) (hbindings : star.bindings = []) :
    (s : ColumnSource) →
    (s.fresh.run d text).Effects ((Draft.scribe d).effect (s.fresh.draft d.constructs star))
  | .reference r => by
    rw [ColumnSource.fresh, ColumnSource.run, ColumnSource.draft]
    exact .pure (fun c => by rw [Draft.text_referenceColumn, htext])
      (Draft.bindings_referenceColumn hbindings r) trivial
  | .expression e => by
    rw [ColumnSource.fresh, ColumnSource.run, ColumnSource.draft]
    exact .rename (e.run_effects d) fun _ _ => trivial
  | .subquery s => by
    rw [ColumnSource.fresh, ColumnSource.run, ColumnSource.draft]
    exact .reshape (Select.part_effects (s.body_effects d))
      (fun _ _ => Draft.text_enclosed) (fun _ => Draft.bindings_enclosed) fun _ _ => trivial

theorem columnRuns_effects (d : Dialect) {star : Draft} {text : String}
    (htext : ∀ c, star.text d c = text) (hbindings : star.bindings = []) :
    (columns : List Column) →
    (columnRuns d text (freshColumns columns)).Effects
      ((Draft.listScribe d).effect (columnDrafts d.constructs star (freshColumns columns)))
  | [] => by
    rw [freshColumns, columnRuns, columnDrafts]
    exact fun _ => ⟨rfl, trivial⟩
  | ⟨source, alias?⟩ :: columns => by
    have hfirst := (source.run_effects d htext hbindings).reshape (f := columnText d alias?)
      (g := fun source => (⟨source, alias?⟩ : Column)) (Q := fun _ => True)
      (fun _ _ => Draft.text_column alias?) (fun _ => Draft.bindings_column alias?)
      fun _ _ => trivial
    rw [freshColumns, Column.fresh, columnRuns, columnDrafts, ← Draft.effect_cons]
    exact hfirst.cons (columnRuns_effects d htext hbindings columns) trivial
      fun _ _ _ _ => trivial

theorem originRun_effects (d : Dialect) (pretty : Bool) (nesting : Nat) :
    (origin? : Option Origin) →
    (originRun d pretty nesting (freshOrigin origin?)).Effects
      ((Draft.scribe d).effect (originDraft d.constructs pretty nesting (freshOrigin origin?)))
  | none => by
    rw [freshOrigin, originRun, originDraft]
    exact .pure (fun _ => rfl) rfl trivial
  | some (.table name alias?) => by
    rw [freshOrigin, Origin.fresh, originRun, originDraft]
    exact .pure (fun _ => Draft.text_tableOrigin name alias?)
      (Draft.bindings_tableOrigin name alias?) trivial
  | some (.subquery s a) => by
    rw [freshOrigin, Origin.fresh, originRun, originDraft]
    exact .reshape (Select.part_effects (s.body_effects d))
      (fun _ _ => Draft.text_subqueryOrigin pretty nesting s.fresh.nesting a)
      (fun _ => Draft.bindings_subqueryOrigin pretty nesting s.fresh.nesting a) fun _ _ => trivial

theorem combinedRun_effects (d : Dialect) : (combined? : Option (SetOperation × Select)) →
    (combinedRun d (freshCombined combined?)).Effects
      ((Draft.scribe d).effect (combinedDraft d.constructs (freshCombined combined?)))
  | none => by
    rw [freshCombined, combinedRun, combinedDraft]
    exact .pure (fun _ => rfl) rfl trivial
  | some (operation, s) => by
    rw [freshCombined, combinedRun, combinedDraft]
    exact .reshape (Select.part_effects (s.body_effects d)) (fun _ _ => rfl) (fun _ => rfl)
      fun _ _ => trivial

theorem Select.body_effects (d : Dialect) : (s : Select) →
    (s.fresh.body d).Follows (Drafted.effect d s.fresh) fun _ => True
  | ⟨distinct, columns, into?, origin?, joins, filter, groupBy, having, combined?, orderBy, limit,
      offset, nesting, pretty, columnTexts, cache⟩ => by
    rw [Select.fresh]
    exact Select.body_follows_of
      (visitColumns_effects rfl (columnRuns_effects d (fun c => Select.star_eq _ c)
        (Draft.bindings_star _) columns))
      (originRun_effects d pretty nesting origin?) (joinRuns_effects d joins)
      (filter.run_effects d) (having.run_effects d)
      (combinedRun_effects d combined?) (fun _ _ _ _ => trivial)
      (fun _ _ _ _ => trivial) (fun _ _ _ _ => trivial) (fun _ _ _ _ => trivial)
      fun _ _ _ _ => trivial

end

/-! ## Groups -/

/-- A group that keeps nothing compiles to its draft as a whole, in every
dialect, with the values of the draft. -/
theorem Group.compile_of_fresh {g : Group} (hg : g.fresh = g) {p : Draft}
    (h : g.draft d.constructs = .ok p) :
    answer (Node.compile d .group g) = .ok (p.text d (.empty d.style)) ∧
      Node.collector? .group (left (Node.compile d .group g)) = some (p.after (.empty d.style)) := by
  have hbody := g.body_effects d
  rw [hg] at hbody
  have heffect : Drafted.effect d g (Collector.empty d.style) =
      .ok (p.text d (.empty d.style), p.after (.empty d.style)) := by
    change (Draft.scribe d).effect (g.draft d.constructs) (Collector.empty d.style) = _
    rw [h]
    rfl
  have hcache : Keeps.cache g = none := by
    have hkept := g.cache_fresh
    rwa [hg] at hkept
  have hwhole := asWhole_effects hcache hbody heffect
  exact hwhole

/-! ## Conditions -/

/-- The fresh copy of a condition has the effect of writing its draft. -/
theorem Node.compileInto_effects {k : Kind} (hk : k.isCondition = true) (n : Node k) :
    (Node.compileInto d k (Node.fresh k n)).Effects
      ((Draft.scribe d).effect (Node.draft d.constructs k n)) := by
  rw [← Node.draft_fresh]
  cases k with
  | predicate => exact (Predicate.steps_effects d n).orRestore
  | group => exact Group.part_effects (Group.body_effects d n)
  | clause => exact Clause.run_effects d n
  | _ => cases hk

/-- It compiles just if it has a draft, to the draft written out, and the
collector then holds the values of the draft too. -/
theorem Node.compileInto_fresh_iff {k : Kind} (hk : k.isCondition = true) {n : Node k}
    {c c' : Collector} {sql : String} :
    answer (Node.compileInto d k (Node.fresh k n) c) = .ok sql ∧
      (left (Node.compileInto d k (Node.fresh k n) c)).2 = c' ↔
    ∃ p, Node.draft d.constructs k n = .ok p ∧ p.text d c = sql ∧ p.after c = c' := by
  have heffects := Node.compileInto_effects (d := d) hk n
  cases hrun : Node.compileInto d k (Node.fresh k n) c with
  | error e s =>
    obtain ⟨heffect, -⟩ := heffects.of_error hrun
    constructor
    · rintro ⟨hsql, -⟩
      cases hsql
    · rintro ⟨p, hp, -⟩
      rw [hp] at heffect
      cases heffect
  | ok text s =>
    obtain ⟨heffect, -⟩ := heffects.of_ok hrun
    constructor
    · rintro ⟨hsql, rfl⟩
      cases hsql
      cases hdraft : Node.draft d.constructs k n with
      | error e => rw [hdraft] at heffect; cases heffect
      | ok p =>
        rw [hdraft] at heffect
        obtain ⟨htext, hafter⟩ := Prod.mk.inj (Except.ok.inj heffect)
        exact ⟨p, rfl, htext, hafter⟩
    · rintro ⟨p, hp, rfl, rfl⟩
      rw [hp] at heffect
      obtain ⟨htext, hafter⟩ := Prod.mk.inj (Except.ok.inj heffect)
      exact ⟨congrArg Except.ok htext.symm, hafter.symm⟩

end SqlTree
