import SqlTree.Proofs.Caching.Bodies

/-!
# SqlTree.Proofs.Caching.Tree

Compiling a coherent tree follows its draft.  For each kind of node, its
run answers what the draft writes and gives the node back renewed, whatever
is kept on it or below, and whatever the collector holds.  The proof is one
induction over the tree, along the recursion of the compilation.
-/

namespace SqlTree

variable {d : Dialect}

/-- The markers of a list of values. -/
theorem effect_mapM_bindValue (hint : String) (values : List Value) :
    (values.mapM fun v => Collecting.bindValue v hint).effect =
      (Draft.listScribe d).effect
        (.ok (values.map fun v => Draft.value ⟨v, v.bindType, hint⟩)) := by
  induction values with
  | nil => rfl
  | cons v values ih =>
    simp only [List.mapM_cons, Collecting.effect_bind, Collecting.effect_pure, ih,
      Draft.effect_bindValue (d := d)]
    exact Draft.effect_cons _ _

/-- A test against a list of values. -/
theorem effect_inList (left : Reference) (negated : Bool) (values : List Value) (orNull : Bool) :
    Collecting.effect (do
        let markers ← values.mapM fun v => Collecting.bindValue v "in"
        pure (inListText (left.quoted d) negated markers orNull)) =
      (Draft.scribe d).effect (.ok (Draft.inList left negated
        (values.map fun v => Draft.value ⟨v, v.bindType, "in"⟩) orNull)) := by
  rw [Collecting.effect_bind, effect_mapM_bindValue (d := d)]
  simp only [Collecting.effect_pure, bind_pure_comp]
  exact Scribe.effect_map (w := Draft.listScribe d) (g := fun ps =>
    Draft.inList left negated ps orNull)
    (fun ps c => Draft.text_inList left negated ps orNull)
    (fun ps c => by simp only [Draft.scribe, Draft.listScribe, Draft.after, Draft.afterAll,
      Draft.bindings_inList])
    (.ok _)

mutual

theorem Operand.run_follows (hd : d.Shipped) (hint : String) : (o : Operand) → o.Coherent →
    (o.run d hint).Follows ((Draft.scribe d).effect (o.draft d.constructs hint))
      (Renewed Operand.Coherent Operand.fresh o)
  | .value v, h => by
    rw [Operand.run, Operand.draft]
    exact .collect (Draft.effect_bindValue v hint) (.refl h)
  | .identifier i, h => by
    rw [Operand.run, Operand.draft]
    exact .pure (fun _ => rfl) rfl (.refl h)
  | .literal l, h => by
    rw [Operand.run, Operand.draft]
    exact .pure (fun _ => rfl) rfl (.refl h)
  | .expression e, h => by
    rw [Operand.Coherent] at h
    rw [Operand.run, Operand.draft]
    exact .rename (e.run_follows hd h) fun _ =>
      .within (fun _ h => by rwa [Operand.Coherent]) fun _ => by rw [Operand.fresh]
  | .subquery s, h => by
    rw [Operand.Coherent] at h
    rw [Operand.run, Operand.draft]
    exact .reshape (Select.part_follows_of_body hd h (s.body_follows hd h))
      (fun _ _ => Draft.text_enclosed) (fun _ => Draft.bindings_enclosed)
      fun _ => .within (fun _ h => by rwa [Operand.Coherent]) fun _ => by rw [Operand.fresh]

theorem Filling.run_follows (hd : d.Shipped) : (f : Filling) → f.Coherent →
    (f.run d).Follows ((Draft.scribe d).effect (f.draft d.constructs))
    (Renewed Filling.Coherent Filling.fresh f)
  | .value v, h => by
    rw [Filling.run, Filling.draft]
    exact .collect (Draft.effect_bindValue v "expr") (.refl h)
  | .identifier i, h => by
    rw [Filling.run, Filling.draft]
    exact .pure (fun _ => rfl) rfl (.refl h)
  | .alias a, h => by
    rw [Filling.run, Filling.draft]
    exact .pure (fun _ => rfl) rfl (.refl h)
  | .literal l, h => by
    rw [Filling.run, Filling.draft]
    exact .pure (fun _ => rfl) rfl (.refl h)
  | .subquery s, h => by
    rw [Filling.Coherent] at h
    rw [Filling.run, Filling.draft]
    exact .reshape (Select.part_follows_of_body hd h (s.body_follows hd h))
      (fun _ _ => Draft.text_enclosed) (fun _ => Draft.bindings_enclosed)
      fun _ => .within (fun _ h => by rwa [Filling.Coherent]) fun _ => by rw [Filling.fresh]

theorem slots_follow (hd : d.Shipped) : (slots : List Slot) → SlotsCoherent slots → ∀ slot ∈ slots,
    (slot.filling.run d).Follows ((Draft.scribe d).effect (slot.filling.draft d.constructs))
      (Renewed Filling.Coherent Filling.fresh slot.filling)
  | [], _ => by simp
  | ⟨name, filling⟩ :: slots, h => by
    rw [SlotsCoherent] at h
    have hfirst := filling.run_follows hd h.1
    have hrest := slots_follow hd slots h.2
    intro slot hslot
    rcases List.mem_cons.1 hslot with rfl | hslot
    · exact hfirst
    · exact hrest slot hslot

theorem Expression.run_follows (hd : d.Shipped) : (e : Expression) → e.Coherent →
    (e.run d).Follows ((Draft.scribe d).effect (e.draft d.constructs))
    (Renewed Expression.Coherent Expression.fresh e)
  | ⟨template, slots⟩, h => by
    rw [Expression.Coherent] at h
    have hslots := slots_follow hd slots h.2
    rw [Expression.run, Expression.draft]
    have hnodup := nodup_of_templateFault h.1
    have hpieces := piecesText_follows hnodup hslots (pieces template) slots (.refl h.2)
    refine .orRestore (.rename hpieces fun n hn => ⟨?_, ?_⟩)
    · rw [Expression.Coherent]
      refine ⟨?_, hn.coherent⟩
      have hnames : n.map Slot.name = slots.map Slot.name := by
        rw [← names_freshSlots, hn.fresh, names_freshSlots]
      rw [hnames]
      exact h.1
    · rw [Expression.fresh, Expression.fresh, hn.fresh]

/-- A predicate as far as it gets. -/
theorem Predicate.steps_follow (hd : d.Shipped) : (p : Predicate) → p.Coherent →
    (p.steps d).Follows ((Draft.scribe d).effect (p.draft d.constructs))
    (Renewed Predicate.Coherent Predicate.fresh p)
  | .comparison left op right, h => by
    rw [Predicate.Coherent] at h
    rw [Predicate.steps, Predicate.draft]
    exact .reshape (right.run_follows hd op.hint h) (fun _ _ => Draft.text_comparison left op)
      (fun _ => Draft.bindings_comparison left op)
      fun _ => .within (fun _ h => by rwa [Predicate.Coherent]) fun _ => by rw [Predicate.fresh]
  | .between left negated low high, h => by
    rw [Predicate.Coherent] at h
    rw [Predicate.steps, Predicate.draft]
    have hboth := Run.Follows.both (low.run_follows hd "between" h.1)
      (high.run_follows hd "between" h.2) (.refl h.2)
    rw [← Draft.effect_pair (f := fun a b => betweenText (left.quoted d) negated a b)
      (fun _ _ _ => Draft.text_between left negated)
        (fun _ _ => Draft.bindings_between left negated)]
    have hmap := hboth.map (f := fun t => betweenText (left.quoted d) negated t.1 t.2)
      (g := fun o => Predicate.between left negated o.1 o.2)
      (Q := Renewed Predicate.Coherent Predicate.fresh (.between left negated low high))
      fun n hn => ⟨?_, ?_⟩
    · simpa only [map_eq_pure_bind, bind_assoc, pure_bind] using hmap
    · rw [Predicate.Coherent]
      exact ⟨hn.1.coherent, hn.2.coherent⟩
    · rw [Predicate.fresh, Predicate.fresh, hn.1.fresh, hn.2.fresh]
  | .inValues left negated values orNull, h => by
    rw [Predicate.steps, Predicate.draft]
    exact .collect (effect_inList left negated values orNull) (.refl h)
  | .inSelect left negated s, h => by
    rw [Predicate.Coherent] at h
    rw [Predicate.steps, Predicate.draft]
    exact .reshape (Select.part_follows_of_body hd h (s.body_follows hd h))
      (fun _ _ => Draft.text_inParentheses left negated)
      (fun _ => Draft.bindings_inParentheses left negated)
      fun _ => .within (fun _ h => by rwa [Predicate.Coherent]) fun _ => by rw [Predicate.fresh]
  | .like left negated pattern escape, h => by
    rw [Predicate.Coherent] at h
    rw [Predicate.steps, Predicate.draft]
    exact .reshape (pattern.run_follows hd "like" h)
      (fun _ _ => Draft.text_like left negated escape)
      (fun _ => Draft.bindings_like left negated escape)
      fun _ => .within (f := fun o => Predicate.like left negated o escape)
        (fun _ h => by rwa [Predicate.Coherent]) fun _ => by rw [Predicate.fresh]
  | .truth left negated word, h => by
    rw [Predicate.steps, Predicate.draft]
    exact .pure (fun _ => Draft.text_truth left negated word)
      (Draft.bindings_truth left negated word) (.refl h)
  | .existence negated s, h => by
    rw [Predicate.Coherent] at h
    rw [Predicate.steps, Predicate.draft]
    exact .reshape (Select.part_follows_of_body hd h (s.body_follows hd h))
      (fun _ _ => Draft.text_existence negated)
      (fun _ => Draft.bindings_existence negated)
      fun _ => .within (fun _ h => by rwa [Predicate.Coherent]) fun _ => by rw [Predicate.fresh]
  | .quantified left op quantifier s, h => by
    rw [Predicate.Coherent] at h
    rw [Predicate.steps, Predicate.draft]
    exact .reshape (Select.part_follows_of_body hd h (s.body_follows hd h))
      (fun _ _ => Draft.text_quantified left op quantifier)
      (fun _ => Draft.bindings_quantified left op quantifier)
      fun _ => .within (fun _ h => by rwa [Predicate.Coherent]) fun _ => by rw [Predicate.fresh]
  | .literal l, h => by
    rw [Predicate.steps, Predicate.draft]
    exact .pure (fun _ => rfl) rfl (.refl h)
  | .expression e, h => by
    rw [Predicate.Coherent] at h
    rw [Predicate.steps, Predicate.draft]
    exact .rename (e.run_follows hd h) fun _ =>
      .within (fun _ h => by rwa [Predicate.Coherent]) fun _ => by rw [Predicate.fresh]
  | .group g, h => by
    rw [Predicate.Coherent] at h
    rw [Predicate.steps, Predicate.draft]
    exact .rename (Group.part_follows_of_body hd h (g.body_follows hd h)) fun _ =>
      .within (fun _ h => by rwa [Predicate.Coherent]) fun _ => by rw [Predicate.fresh]

theorem termRuns_follow (hd : d.Shipped) : (terms : List Term) → TermsCoherent terms →
    (termRuns d terms).Follows ((Draft.termScribe d).effect (termDrafts d.constructs terms))
      (Renewed TermsCoherent freshTerms terms)
  | [], h => by
    rw [termRuns, termDrafts]
    exact fun _ => ⟨rfl, .refl h⟩
  | ⟨connective, p⟩ :: terms, h => by
    rw [TermsCoherent] at h
    have hfirst := ((p.steps_follow hd h.1).orRestore).map (f := fun text => (connective, text))
      (g := Term.mk connective) (Q := fun t => ∃ n, Renewed Predicate.Coherent Predicate.fresh p n ∧
        t = ⟨connective, n⟩) fun n hn => ⟨n, hn, rfl⟩
    have hcons := hfirst.cons (l := terms)
      (R := Renewed TermsCoherent freshTerms (⟨connective, p⟩ :: terms))
      (termRuns_follow hd terms h.2) (.refl h.2) ?_
    · rw [termRuns, termDrafts, ← Draft.effect_term_cons]
      simpa only [map_eq_pure_bind, bind_assoc, pure_bind] using hcons
    · rintro _ xs ⟨n, hn, rfl⟩ hxs
      refine ⟨?_, ?_⟩
      · rw [TermsCoherent]
        exact ⟨hn.coherent, hxs.coherent⟩
      · simp only [freshTerms, Term.fresh, hn.fresh, hxs.fresh]

theorem Group.body_follows (hd : d.Shipped) : (g : Group) → g.Coherent →
    (g.body d).Follows (Drafted.effect d g) g.Passing
  | ⟨terms, default, pending, nested, cache⟩, h => by
    rw [Group.Coherent] at h
    exact Group.body_follows_of_terms (termRuns_follow hd terms h.2)

theorem Clause.run_follows (hd : d.Shipped) : (c : Clause) → c.Coherent →
    (c.run d).Follows ((Draft.scribe d).effect (c.draft d.constructs))
    (Renewed Clause.Coherent Clause.fresh c)
  | ⟨kind, none⟩, h => by
    rw [Clause.run, Clause.draft]
    exact .pure (fun _ => rfl) rfl (.refl h)
  | ⟨kind, some g⟩, h => by
    rw [Clause.Coherent] at h
    rw [Clause.run, Clause.draft]
    exact .reshape (Group.part_follows_of_body hd h (g.body_follows hd h))
      (fun _ _ => Draft.text_clause kind)
      (fun _ => Draft.bindings_clause kind)
      fun _ => .within (f := fun g => Clause.mk kind (some g)) (fun _ h => by rwa [Clause.Coherent])
        fun _ => by rw [Clause.fresh]

theorem JoinTarget.run_follows (hd : d.Shipped) : (t : JoinTarget) → t.Coherent →
    (t.run d).Follows ((Draft.scribe d).effect (t.draft d.constructs))
    (Renewed JoinTarget.Coherent JoinTarget.fresh t)
  | .table name, h => by
    rw [JoinTarget.run, JoinTarget.draft]
    exact .pure (fun _ => rfl) rfl (.refl h)
  | .subquery s, h => by
    rw [JoinTarget.Coherent] at h
    rw [JoinTarget.run, JoinTarget.draft]
    exact .reshape (Select.part_follows_of_body hd h (s.body_follows hd h))
      (fun _ _ => Draft.text_enclosed)
      (fun _ => Draft.bindings_enclosed)
      fun _ => .within (fun _ h => by rwa [JoinTarget.Coherent]) fun _ => by rw [JoinTarget.fresh]

theorem Join.body_follows (hd : d.Shipped) :
    (j : Join) → j.Coherent → (j.body d).Follows (Drafted.effect d j) j.Passing
  | ⟨kind, target, alias?, on, cache⟩, h => by
    rw [Join.Coherent] at h
    exact Join.body_follows_of_parts (target.run_follows hd h.2.1) (on.run_follows hd h.2.2)

theorem joinRuns_follow (hd : d.Shipped) : (joins : List Join) → JoinsCoherent joins →
    (joinRuns d joins).Follows ((Draft.listScribe d).effect (joinDrafts d.constructs joins))
      (Renewed JoinsCoherent freshJoins joins)
  | [], h => by
    rw [joinRuns, joinDrafts]
    exact fun _ => ⟨rfl, .refl h⟩
  | j :: joins, h => by
    rw [JoinsCoherent] at h
    rw [joinRuns, joinDrafts, ← Draft.effect_cons]
    refine .cons (Join.part_follows_of_body hd h.1 (j.body_follows hd h.1))
      (joinRuns_follow hd joins h.2) (.refl h.2)
      fun x xs hx hxs => ⟨?_, ?_⟩
    · rw [JoinsCoherent]
      exact ⟨hx.coherent, hxs.coherent⟩
    · rw [freshJoins, freshJoins, hx.fresh, hxs.fresh]

theorem ColumnSource.run_follows (hd : d.Shipped) {star : Draft} {text : String}
    (htext : ∀ c, star.text d c = text) (hbindings : star.bindings = []) :
    (s : ColumnSource) → s.Coherent →
    (s.run d text).Follows ((Draft.scribe d).effect (s.draft d.constructs star))
      (Renewed ColumnSource.Coherent ColumnSource.fresh s)
  | .reference r, h => by
    rw [ColumnSource.run, ColumnSource.draft]
    exact .pure (fun c => by rw [Draft.text_referenceColumn, htext])
      (Draft.bindings_referenceColumn hbindings r)
      (.refl h)
  | .expression e, h => by
    rw [ColumnSource.Coherent] at h
    rw [ColumnSource.run, ColumnSource.draft]
    exact .rename (e.run_follows hd h) fun _ =>
      .within (fun _ h => by rwa [ColumnSource.Coherent]) fun _ => by rw [ColumnSource.fresh]
  | .subquery s, h => by
    rw [ColumnSource.Coherent] at h
    rw [ColumnSource.run, ColumnSource.draft]
    exact .reshape (Select.part_follows_of_body hd h (s.body_follows hd h))
      (fun _ _ => Draft.text_enclosed)
      (fun _ => Draft.bindings_enclosed)
      fun _ => .within (fun _ h => by rwa [ColumnSource.Coherent]) fun _ =>
        by rw [ColumnSource.fresh]

theorem columnRuns_follow (hd : d.Shipped) {star : Draft} {text : String}
    (htext : ∀ c, star.text d c = text) (hbindings : star.bindings = []) :
    (columns : List Column) → ColumnsCoherent columns →
    (columnRuns d text columns).Follows
    ((Draft.listScribe d).effect (columnDrafts d.constructs star columns))
      (Renewed ColumnsCoherent freshColumns columns)
  | [], h => by
    rw [columnRuns, columnDrafts]
    exact fun _ => ⟨rfl, .refl h⟩
  | ⟨source, alias?⟩ :: columns, h => by
    rw [ColumnsCoherent] at h
    rw [columnRuns, columnDrafts, ← Draft.effect_cons]
    have hfirst := (source.run_follows hd htext hbindings h.1).reshape (f := columnText d alias?)
      (g := fun source => (⟨source, alias?⟩ : Column))
      (Q := fun column => ∃ n, Renewed ColumnSource.Coherent ColumnSource.fresh source n ∧
        column = ⟨n, alias?⟩)
      (fun _ _ => Draft.text_column alias?) (fun _ => Draft.bindings_column alias?)
      fun n hn => ⟨n, hn, rfl⟩
    refine hfirst.cons (columnRuns_follow hd htext hbindings columns h.2) (.refl h.2) ?_
    rintro _ xs ⟨n, hn, rfl⟩ hxs
    refine ⟨?_, ?_⟩
    · rw [ColumnsCoherent]
      exact ⟨hn.coherent, hxs.coherent⟩
    · rw [freshColumns, freshColumns, Column.fresh, Column.fresh, hn.fresh, hxs.fresh]

theorem originRun_follows (hd : d.Shipped) (pretty : Bool) (nesting : Nat) :
    (origin? : Option Origin) →
    OriginCoherent origin? →
    (originRun d pretty nesting origin?).Follows
      ((Draft.scribe d).effect (originDraft d.constructs pretty nesting origin?))
      (Renewed OriginCoherent freshOrigin origin?)
  | none, h => by
    rw [originRun, originDraft]
    exact .pure (fun _ => rfl) rfl (.refl h)
  | some (.table name alias?), h => by
    rw [originRun, originDraft]
    exact .pure (fun _ => Draft.text_tableOrigin name alias?)
      (Draft.bindings_tableOrigin name alias?) (.refl h)
  | some (.subquery s a), h => by
    rw [OriginCoherent] at h
    rw [originRun, originDraft]
    exact .reshape (Select.part_follows_of_body hd h (s.body_follows hd h))
      (fun _ _ => Draft.text_subqueryOrigin pretty nesting s.nesting a)
      (fun _ => Draft.bindings_subqueryOrigin pretty nesting s.nesting a)
      fun _ => .within (f := fun s => some (Origin.subquery s a))
        (fun _ h => by rwa [OriginCoherent])
        fun _ => by rw [freshOrigin, Origin.fresh]

theorem combinedRun_follows (hd : d.Shipped) : (combined? : Option (SetOperation × Select)) →
    CombinedCoherent combined? →
    (combinedRun d combined?).Follows
    ((Draft.scribe d).effect (combinedDraft d.constructs combined?))
      (Renewed CombinedCoherent freshCombined combined?)
  | none, h => by
    rw [combinedRun, combinedDraft]
    exact .pure (fun _ => rfl) rfl (.refl h)
  | some (operation, s), h => by
    rw [CombinedCoherent] at h
    rw [combinedRun, combinedDraft]
    exact .reshape (Select.part_follows_of_body hd h (s.body_follows hd h)) (fun _ _ => rfl)
      (fun _ => rfl)
      fun _ => .within (f := fun s => some (operation, s)) (fun _ h => by rwa [CombinedCoherent])
        fun _ => by rw [freshCombined]

theorem Select.body_follows (hd : d.Shipped) : (s : Select) → s.Coherent →
    (s.body d).Follows (Drafted.effect d s) s.Passing
  | ⟨distinct, columns, into?, origin?, joins, filter, groupBy, having, combined?, orderBy, limit,
      offset, nesting, pretty, columnTexts, cache⟩, h => by
    have hparts := (Select.coherent_iff _).1 h
    exact Select.body_follows_of_parts hd h
      (columnRuns_follow hd (fun c => Select.star_eq _ c) (Draft.bindings_star _) columns
        hparts.columns)
      (originRun_follows hd pretty nesting origin? hparts.origin)
        (joinRuns_follow hd joins hparts.joins)
      (filter.run_follows hd hparts.filter) (having.run_follows hd hparts.having)
      (combinedRun_follows hd combined? hparts.combined)

end

end SqlTree
