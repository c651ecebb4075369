import SqlTree.Proofs.Caching.Path
import SqlTree.Proofs.History

/-!
# SqlTree.Proofs.Caching.Transparency

What is kept is never seen.  Every call keeps coherence, so every reachable
node is coherent (`Reachable.coherent`), and a coherent node compiles like a
copy that keeps nothing.
-/

namespace SqlTree

/-- The node keeps only right texts. -/
abbrev AnyNode.Coherent (u : AnyNode) : Prop := Node.Coherent u.1 u.2

/-! ## What calls use -/

theorem Operand.coherent_of_uses {o : Operand} (h : ∀ u ∈ o.uses, u.Coherent) : o.Coherent := by
  cases o with
  | expression e =>
    rw [Operand.Coherent]
    exact h ⟨.expression, e⟩ (List.mem_singleton.2 rfl)
  | subquery s =>
    rw [Operand.Coherent]
    exact h ⟨.select, s⟩ (List.mem_singleton.2 rfl)
  | _ => simp only [Operand.Coherent]

theorem Filling.coherent_of_uses {f : Filling} (h : ∀ u ∈ f.uses, u.Coherent) : f.Coherent := by
  cases f with
  | subquery s =>
    rw [Filling.Coherent]
    exact h ⟨.select, s⟩ (List.mem_singleton.2 rfl)
  | _ => simp only [Filling.Coherent]

theorem ColumnSource.coherent_of_uses {source : ColumnSource} (h : ∀ u ∈ source.uses, u.Coherent) :
    source.Coherent := by
  cases source with
  | reference => simp only [ColumnSource.Coherent]
  | expression e =>
    rw [ColumnSource.Coherent]
    exact h ⟨.expression, e⟩ (List.mem_singleton.2 rfl)
  | subquery s =>
    rw [ColumnSource.Coherent]
    exact h ⟨.select, s⟩ (List.mem_singleton.2 rfl)

theorem Item.coherent_of_uses {item : Item} (h : ∀ u ∈ item.uses, u.Coherent) : item.Coherent := by
  cases item with
  | predicate p => exact h ⟨.predicate, p⟩ (List.mem_singleton.2 rfl)
  | group g => exact h ⟨.group, g⟩ (List.mem_singleton.2 rfl)
  | clause c => exact h ⟨.clause, c⟩ (List.mem_singleton.2 rfl)
  | raw | spec => trivial

theorem rowCoherent_of_uses {row : List Operand} (h : ∀ u ∈ row.flatMap Operand.uses, u.Coherent) :
    RowCoherent row :=
  fun o ho => o.coherent_of_uses fun u hu => h u (List.mem_flatMap.2 ⟨o, ho, hu⟩)

/-! ## Calls -/

theorem Maker.coherent_make {k : Kind} {maker : Maker k} {n : Node k}
    (huses : ∀ u ∈ maker.uses, u.Coherent) (h : maker.make = .ok n) : Node.Coherent k n := by
  cases maker with
  | select => cases h; exact Select.coherent_empty
  | insert => cases h; exact Insert.coherent_empty
  | update => cases h; exact Update.coherent_empty
  | delete => cases h; exact Delete.coherent_empty
  | group default => cases h; exact Group.coherent_empty default
  | specification spec => exact Group.coherent_specify (Group.coherent_empty .and) h
  | clause kind => cases h; exact Clause.coherent_empty kind
  | table kind name => exact Join.coherent_table h
  | subquery kind s =>
    cases h
    exact Join.coherent_subquery (huses ⟨.select, s⟩ (List.mem_singleton.2 rfl))
  | comparison left op right => exact Predicate.coherent_compare (Operand.coherent_of_uses huses) h
  | between left negated low high =>
    exact Predicate.coherent_inRange (Operand.coherent_of_uses fun u hu =>
      huses u (List.mem_append_left _ hu))
      (Operand.coherent_of_uses fun u hu => huses u (List.mem_append_right _ hu)) h
  | inValues left negated values => exact Predicate.coherent_inList h
  | inSelect left negated s =>
    cases h
    simp only [Node.Coherent, Predicate.Coherent]
    exact huses ⟨.select, s⟩ (List.mem_singleton.2 rfl)
  | like left negated pattern escape =>
    exact Predicate.coherent_matching (Operand.coherent_of_uses huses) h
  | truth left negated word => cases h; simp only [Node.Coherent, Predicate.Coherent]
  | existence negated s =>
    cases h
    simp only [Node.Coherent, Predicate.Coherent]
    exact huses ⟨.select, s⟩ (List.mem_singleton.2 rfl)
  | quantified left op quantifier s =>
    cases h
    simp only [Node.Coherent, Predicate.Coherent]
    exact huses ⟨.select, s⟩ (List.mem_singleton.2 rfl)
  | literal l => cases h; simp only [Node.Coherent, Predicate.Coherent]
  | tested e =>
    cases h
    simp only [Node.Coherent, Predicate.Coherent]
    exact huses ⟨.expression, e⟩ (List.mem_singleton.2 rfl)
  | expression template slots =>
    exact Expression.coherent_make
      (fun slot hslot => slot.filling.coherent_of_uses fun u hu =>
        huses u (List.mem_flatMap.2 ⟨slot, hslot, hu⟩)) h
  | reference r => trivial

theorem Builder.coherent_build {k : Kind} {b : Builder k} {n n' : Node k}
    (huses : ∀ u ∈ b.uses, u.Coherent) (hn : Node.Coherent k n) (h : b.build n = .ok n') :
    Node.Coherent k n' := by
  cases b with
  | distinct => cases h; exact Select.coherent_of_unkept rfl rfl { Select.inside hn with }
  | column source alias? =>
    exact Select.coherent_addColumn hn (ColumnSource.coherent_of_uses huses) h
  | into name => exact Select.coherent_intoTable hn h
  | fromTable name => exact Select.coherent_fromTable hn h
  | fromTableAs name known => exact Select.coherent_fromTableAs hn h
  | fromSubquery inner known =>
    exact Select.coherent_fromSubquery hn (huses ⟨.select, inner⟩ (List.mem_singleton.2 rfl)) h
  | join j =>
    cases h; exact Select.coherent_addJoin hn (huses ⟨.join, j⟩ (List.mem_singleton.2 rfl))
  | selectWhere item => exact Select.coherent_whereItem (Item.coherent_of_uses huses) hn h
  | selectOrWhere item => exact Select.coherent_orWhereItem (Item.coherent_of_uses huses) hn h
  | having item => exact Select.coherent_havingItem (Item.coherent_of_uses huses) hn h
  | groupBy r => cases h; exact Select.coherent_of_unkept rfl rfl { Select.inside hn with }
  | combine operation other =>
    exact Select.coherent_combine hn (huses ⟨.select, other⟩ (List.mem_singleton.2 rfl)) h
  | orderBy r direction =>
    cases h; exact Select.coherent_of_unkept rfl rfl { Select.inside hn with }
  | order terms => exact Select.coherent_order hn h
  | limit count => cases h; exact Select.coherent_of_unkept rfl rfl { Select.inside hn with }
  | offset count => cases h; exact Select.coherent_of_unkept rfl rfl { Select.inside hn with }
  | pretty spread => cases h; exact Select.coherent_of_unkept rfl rfl { Select.inside hn with }
  | insertInto name => exact Insert.coherent_intoTable hn h
  | columns names => exact Insert.coherent_setColumns hn h
  | row values => exact Insert.coherent_addRow (rowCoherent_of_uses huses) hn h
  | namedRow pairs => exact Insert.coherent_addNamedRow (rowCoherent_of_uses huses) hn h
  | source s =>
    exact Insert.coherent_fromSelect (huses ⟨.select, s⟩ (List.mem_singleton.2 rfl)) hn h
  | updateTable name => exact Update.coherent_setTable hn h
  | set name value => exact Update.coherent_set (Operand.coherent_of_uses huses) hn h
  | setAll pairs => exact Update.coherent_setAll (rowCoherent_of_uses huses) hn h
  | updateWhere item => exact Update.coherent_whereItem (Item.coherent_of_uses huses) hn h
  | updateOrWhere item => exact Update.coherent_orWhereItem (Item.coherent_of_uses huses) hn h
  | deleteFrom name => exact Delete.coherent_fromTable hn h
  | deleteWhere item => exact Delete.coherent_whereItem (Item.coherent_of_uses huses) hn h
  | deleteOrWhere item => exact Delete.coherent_orWhereItem (Item.coherent_of_uses huses) hn h
  | label name => exact Join.coherent_withAlias hn h
  | on item => exact Join.coherent_onItem (Item.coherent_of_uses huses) hn h

theorem Change.keeps_edit {k : Kind} {change : Change k} (huses : ∀ u ∈ change.uses, u.Coherent) :
    change.edit.Keeps (Node.Coherent k) := by
  cases change with
  | add item => exact Group.keeps_add (Item.coherent_of_uses huses)
  | addJoined connective item =>
    exact Group.keeps_addJoined (Item.coherent_of_uses huses) connective
  | joinNext connective => exact fun g hg => Group.coherent_joinNext hg connective
  | setDefault connective => exact fun g hg => Group.coherent_setDefault hg connective
  | clear => exact fun g _ => Group.coherent_clear g
  | addTo item => exact Clause.keeps_add (Item.coherent_of_uses huses)

theorem Node.left_inlined (d : Dialect) (k : Kind) (n : Node k) :
    left (inlined d k n) = left (compile d k n) := by
  simp only [inlined]
  cases compile d k n with
  | error e n => rfl
  | ok sql n =>
    dsimp only
    split
    · rfl
    · split <;> rfl

/-- No call makes a coherent node incoherent. -/
theorem Call.coherent_act {k : Kind} {call : Call k} {n : Node k}
    (huses : ∀ u ∈ call.uses, u.Coherent) (hn : Node.Coherent k n) :
    Node.Coherent k (call.act n) := by
  cases call with
  | look => exact hn
  | replace other => exact huses ⟨k, other⟩ (List.mem_singleton.2 rfl)
  | build b =>
    simp only [act]
    cases hbuild : b.build n with
    | ok n' => exact Builder.coherent_build huses hn hbuild
    | error e => exact Node.coherent_fresh hn
  | change c => exact Change.keeps_edit huses n hn
  | compile d hd => exact (Node.compile_follows hd hn).1.coherent
  | compileInto d hd c => exact ((Node.compileInto_follows hd hn).node c).coherent
  | inlined d hd =>
    rw [act, Node.left_inlined]
    exact (Node.compile_follows hd hn).1.coherent

/-! ## Histories -/

/-- Along every history, whatever is kept is right. -/
theorem Reachable.coherent {k : Kind} {n : Node k} (h : Reachable k n) : Node.Coherent k n := by
  induction h with
  | made maker _ hmake ih => exact maker.coherent_make ih hmake
  | called path call _ _ ih ihuses =>
    exact path.coherent_edit (fun _ hinner => call.coherent_act ihuses hinner) ih
  | inner path _ hfound ih => exact path.coherent_found ih hfound
  | copied _ ih => exact Node.coherent_fresh ih

/-- Whatever has been done to a node and compiled from it before, in whatever
dialects, it compiles like a copy that keeps nothing: by itself with the same
answer and the same values, and into any collector with the same answer and
the same collector after it. -/
theorem Reachable.compiles_like_fresh {k : Kind} {n : Node k} (h : Reachable k n) {d : Dialect}
    (hd : d.Shipped) : answer (Node.compile d k n) = answer (Node.compile d k (Node.fresh k n)) ∧
      Node.collector? k (left (Node.compile d k n)) = Node.collector? k
        (left (Node.compile d k (Node.fresh k n))) ∧
      ∀ c, answer (Node.compileInto d k n c) = answer (Node.compileInto d k (Node.fresh k n) c) ∧
        (left (Node.compileInto d k n c)).2 =
          (left (Node.compileInto d k (Node.fresh k n) c)).2 := by
  have hfresh := Node.coherent_fresh h.coherent
  have hdraft := Node.draft_fresh d.constructs n
  obtain ⟨hanswer, hcollector⟩ := Node.compile_of_draft_eq hd h.coherent hfresh hdraft
  exact ⟨hanswer, hcollector, Node.compileInto_of_draft_eq hd h.coherent hfresh hdraft⟩

/-- A group that has been compiled and is then compiled in another dialect. -/
theorem Reachable.compiles_like_fresh_of_compiled :
    let g : Group := left
      (Group.compile Dialect.ansi (left (Group.add (.raw "a = 1") (Group.empty .or))))
    Reachable .group g ∧ Dialect.mysql.Shipped ∧
      answer (g.compile Dialect.mysql) = answer (g.fresh.compile Dialect.mysql) :=
  have hmade : Reachable .group (Group.empty .or) := .made (.group .or) (fun _ h => nomatch h) rfl
  have hchanged := Reachable.called .here (.change (.add (.raw "a = 1"))) hmade
    (fun _ h => nomatch h)
  have hcompiled := Reachable.called .here (.compile Dialect.ansi (.config .standard)) hchanged
    (fun _ h => nomatch h)
  ⟨hcompiled, .mysql, (Reachable.compiles_like_fresh hcompiled .mysql).1⟩

end SqlTree
