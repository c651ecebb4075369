import SqlTree.Proofs.Caching.Tree

/-!
# SqlTree.Proofs.Caching.Statement

Inserts, updates and deletes follow their drafts as well, and with them
every kind of node.  `Node.compileInto_follows` is what compiling any
coherent node into a collector comes to, `Node.compile_follows` what
compiling it by itself does.
-/

namespace SqlTree

variable {d : Dialect}

/-! ## Rows -/

/-- Every text kept below is right. -/
abbrev RowCoherent (row : List Operand) : Prop := ∀ o ∈ row, o.Coherent

/-- Every text kept below is right. -/
abbrev RowsCoherent (rows : List (List Operand)) : Prop := ∀ row ∈ rows, RowCoherent row

theorem rowRun_follows (hd : d.Shipped) (columns : List Identifier) (row : List Operand)
    (h : RowCoherent row) :
    (rowRun d columns row).Follows ((Draft.listScribe d).effect (rowDraft d.constructs columns row))
      (Renewed RowCoherent (List.map Operand.fresh) row) := by
  induction row generalizing columns with
  | nil => exact fun _ => ⟨rfl, .refl h⟩
  | cons o row ih =>
    obtain ⟨ho, hrow⟩ := List.forall_mem_cons.1 h
    rw [rowRun, rowDraft, ← Draft.effect_cons]
    refine .cons (o.run_follows hd _ ho) (ih _ hrow) (.refl hrow) fun x xs hx hxs => ⟨?_, ?_⟩
    · exact List.forall_mem_cons.2 ⟨hx.coherent, hxs.coherent⟩
    · rw [List.map_cons, List.map_cons, hx.fresh, hxs.fresh]

theorem rowRuns_follow (hd : d.Shipped) (columns : List Identifier) (rows : List (List Operand))
    (h : RowsCoherent rows) :
    (rowRuns d columns rows).Follows
    ((Draft.rowScribe d).effect (rowDrafts d.constructs columns rows))
      (Renewed RowsCoherent (List.map (List.map Operand.fresh)) rows) := by
  induction rows with
  | nil => exact fun _ => ⟨rfl, .refl h⟩
  | cons row rows ih =>
    obtain ⟨hrow, hrows⟩ := List.forall_mem_cons.1 h
    rw [rowRuns, rowDrafts, ← Draft.effect_row_cons]
    refine .cons (rowRun_follows hd columns row hrow) (ih hrows) (.refl hrows)
      fun x xs hx hxs => ⟨?_, ?_⟩
    · exact List.forall_mem_cons.2 ⟨hx.coherent, hxs.coherent⟩
    · rw [List.map_cons, List.map_cons, hx.fresh, hxs.fresh]

/-! ## Inserts -/

/-- The kept text is right, and so is every one below. -/
structure Insert.Coherent (i : Insert) : Prop where
  cache : i.cache.Sound fun k => i.draft k
  rows : RowsCoherent i.rows
  source : ∀ s, i.source? = some s → s.Coherent

theorem Insert.draft_congr {i i' : Insert} (h : i'.fresh = i.fresh) (k : Constructs) :
    i'.draft k = i.draft k := by
  rw [← Insert.draft_fresh, h, Insert.draft_fresh]

instance : Drafted Insert where
  draft := Insert.draft
  fresh := Insert.fresh
  Coherent := Insert.Coherent
  draft_congr := Insert.draft_congr
  fresh_keep _ _ := rfl
  cache_keep _ _ := rfl
  sound h := h.cache
  coherent_keep h hcache := ⟨hcache, h.rows, h.source⟩

/-- An insert on the way through its body: renewed, with nothing kept. -/
abbrev Insert.Passing (i n : Insert) : Prop := Drafted.Renewal i n ∧ n.cache = none

theorem Insert.passing_rows {i n : Insert} {rows : List (List Operand)} (h : i.Passing n)
    (hrows : Renewed RowsCoherent (List.map (List.map Operand.fresh)) i.rows rows) :
    i.Passing { n with rows } := by
  obtain ⟨⟨hcoherent, hfresh⟩, hnone⟩ := h
  refine ⟨⟨⟨hnone ▸ Cache.sound_none, hrows.coherent, hcoherent.source⟩, ?_⟩, hnone⟩
  have hpart : n.rows.map (List.map Operand.fresh) = i.rows.map (List.map Operand.fresh) :=
    congrArg Insert.rows hfresh
  rw [← hfresh]
  exact congrArg (fun rows => { n.fresh with rows }) (hrows.fresh.trans hpart.symm)

theorem Insert.passing_source {i n : Insert} {s s' : Select} (h : i.Passing n)
    (hi : i.source? = some s) (hs : Renewed Select.Coherent Select.fresh s s') :
    i.Passing { n with source? := some s' } := by
  obtain ⟨⟨hcoherent, hfresh⟩, hnone⟩ := h
  refine ⟨⟨⟨hnone ▸ Cache.sound_none, hcoherent.rows, fun _ hs' =>
    Option.some.inj hs' ▸ hs.coherent⟩, ?_⟩, hnone⟩
  have hpart : n.source?.map Select.fresh = i.source?.map Select.fresh :=
    congrArg Insert.source? hfresh
  rw [← hfresh]
  refine congrArg (fun source? => { n.fresh with source? }) ?_
  rw [hpart, hi]
  exact congrArg some hs.fresh

theorem Insert.body_follows (hd : d.Shipped) {i : Insert} (h : i.Coherent) :
    (i.body d).Follows (Drafted.effect d i) i.Passing := by
  rw [Drafted.effect]
  have hdraft : Drafted.draft d.constructs i = i.draft d.constructs := rfl
  rw [hdraft, Insert.body, Insert.draft]
  cases i.table? with
  | none =>
    dsimp only
    exact .fail _
  | some table =>
    dsimp only
    cases hsource : i.source? with
    | some s =>
      dsimp only
      have hs := h.source s hsource
      have hplan : ((Draft.scribe d).effect (s.draft d.constructs) >>= fun sql =>
          pure (insertSelectText (table.quoted d) (i.columns.map (·.quoted d)) sql)) =
          (Draft.scribe d).effect (Draft.insertSelect table i.columns <$>
            s.draft d.constructs) := by
        rw [bind_pure_comp]
        exact Draft.effect_map (fun _ _ => Draft.text_insertSelect table i.columns)
          (fun _ => Draft.bindings_insertSelect table i.columns) _
      rw [← hplan]
      exact .bind (.visit (Select.part_follows_of_body hd hs (s.body_follows hd hs))
        fun n x hn hx => Insert.passing_source hn hsource hx) fun _ _ => .pure _
    | none =>
      by_cases hrows : i.rows.isEmpty = true
      · simp only [hrows, if_true]
        exact .fail _
      · simp only [hrows]
        have hplan :
            ((Draft.rowScribe d).effect (rowDrafts d.constructs i.columns i.rows) >>= fun rows =>
              Effect.ofExcept (d.insertRows (table.quoted d) (i.columns.map (·.quoted d)) rows)) =
            (Draft.scribe d).effect (do
              let rows ← rowDrafts d.constructs i.columns i.rows
              Draft.insertRows d.constructs table i.columns rows) := by
          funext c
          refine Scribe.effect_bind fun rows _ => ?_
          have htext := Draft.text_insertRows (d := d) (c := c) table i.columns rows
          simp only [Draft.rowScribe, htext]
          cases hp : Draft.insertRows d.constructs table i.columns rows with
          | error e => rfl
          | ok p =>
            refine congrArg Except.ok (Prod.ext rfl ?_)
            simp only [Draft.scribe, Draft.after, Draft.afterAll, Draft.bindings_insertRows hp]
        refine Eq.subst (motive := fun e => Pass.Follows _ e _) hplan (.bind
          (.visit (rowRuns_follow hd i.columns i.rows h.rows) fun _ _ => Insert.passing_rows)
            fun rows _ => ?_)
        cases d.insertRows (table.quoted d) (i.columns.map (·.quoted d)) rows with
        | ok sql => exact .pure _
        | error e => exact .fail e

/-! ## Updates -/

/-- An assignment with nothing kept below. -/
def Assignment.fresh (a : Assignment) : Assignment := ⟨a.column, a.value.fresh⟩

/-- Every text kept below is right. -/
abbrev AssignmentsCoherent (assignments : List Assignment) : Prop :=
  ∀ a ∈ assignments, a.value.Coherent

theorem assignmentRuns_follow (hd : d.Shipped) (assignments : List Assignment)
    (h : AssignmentsCoherent assignments) : (assignmentRuns d assignments).Follows
      ((Draft.listScribe d).effect (assignmentDrafts d.constructs assignments))
      (Renewed AssignmentsCoherent (List.map Assignment.fresh) assignments) := by
  induction assignments with
  | nil => exact fun _ => ⟨rfl, .refl h⟩
  | cons a rest ih =>
    obtain ⟨ha, hrest⟩ := List.forall_mem_cons.1 h
    rw [assignmentRuns, assignmentDrafts, ← Draft.effect_cons]
    have hfirst := (a.value.run_follows hd a.column.text ha).reshape
      (f := fun text => a.column.quoted d ++ " = " ++ text) (r := Draft.assignment a.column)
      (g := Assignment.mk a.column)
      (Q := fun b => ∃ n, Renewed Operand.Coherent Operand.fresh a.value n ∧ b = ⟨a.column, n⟩)
      (fun _ _ => Draft.text_assignment a.column) (fun _ => Draft.bindings_assignment a.column)
      fun n hn => ⟨n, hn, rfl⟩
    refine hfirst.cons (ih hrest) (.refl hrest) ?_
    rintro _ xs ⟨n, hn, rfl⟩ hxs
    refine ⟨List.forall_mem_cons.2 ⟨hn.coherent, hxs.coherent⟩, ?_⟩
    rw [List.map_cons, List.map_cons, hxs.fresh, Assignment.fresh, Assignment.fresh, hn.fresh]

/-- The kept text is right, and so is every one below. -/
structure Update.Coherent (u : Update) : Prop where
  cache : u.cache.Sound fun k => u.draft k
  assignments : AssignmentsCoherent u.assignments
  filter : u.filter.Coherent

instance : Drafted Update where
  draft := Update.draft
  fresh := Update.fresh
  Coherent := Update.Coherent
  draft_congr h k := by rw [← Update.draft_fresh, h, Update.draft_fresh]
  fresh_keep _ _ := rfl
  cache_keep _ _ := rfl
  sound h := h.cache
  coherent_keep h hcache := ⟨hcache, h.assignments, h.filter⟩

/-- An update on the way through its body: renewed, with nothing kept. -/
abbrev Update.Passing (u n : Update) : Prop := Drafted.Renewal u n ∧ n.cache = none

theorem Update.passing_assignments {u n : Update} {assignments : List Assignment} (h : u.Passing n)
    (hassignments :
      Renewed AssignmentsCoherent (List.map Assignment.fresh) u.assignments assignments) :
    u.Passing { n with assignments } := by
  obtain ⟨⟨hcoherent, hfresh⟩, hnone⟩ := h
  refine ⟨⟨⟨hnone ▸ Cache.sound_none, hassignments.coherent, hcoherent.filter⟩, ?_⟩, hnone⟩
  have hpart : n.assignments.map Assignment.fresh = u.assignments.map Assignment.fresh :=
    congrArg Update.assignments hfresh
  rw [← hfresh]
  exact congrArg (fun assignments => { n.fresh with assignments })
    (hassignments.fresh.trans hpart.symm)

theorem Update.passing_filter {u n : Update} {filter : Clause} (h : u.Passing n)
    (hfilter : Renewed Clause.Coherent Clause.fresh u.filter filter) :
    u.Passing { n with filter } := by
  obtain ⟨⟨hcoherent, hfresh⟩, hnone⟩ := h
  refine ⟨⟨⟨hnone ▸ Cache.sound_none, hcoherent.assignments, hfilter.coherent⟩, ?_⟩, hnone⟩
  have hpart : n.filter.fresh = u.filter.fresh := congrArg Update.filter hfresh
  rw [← hfresh]
  exact congrArg (fun filter => { n.fresh with filter }) (hfilter.fresh.trans hpart.symm)

/-- What is left to do once the condition is compiled: an empty one is
refused. -/
theorem effect_requiringFilter (kind : StatementKind) (names : List String) (text : String → String)
    (draft : Draft → Draft) (filter : Draft) (c c' : Collector)
    (htext : (draft filter).text d c' = text (filter.text d c))
    (hafter : (draft filter).after c' = filter.after c) :
    (if filter.text d c = "" then Effect.fail (.missingFilter kind)
      else (pure (d.quotePrefixes names (text (filter.text d c))) : Effect String))
        (filter.after c) =
      (Draft.scribe d).effect (if filter.isEmpty then .error (.missingFilter kind)
        else .ok (.requoted names (draft filter))) c' := by
  by_cases h : filter.isEmpty = true
  · rw [if_pos h, if_pos (Draft.text_eq_empty_iff.2 h)]
    rfl
  · rw [if_neg h, if_neg (mt Draft.text_eq_empty_iff.1 h)]
    refine congrArg Except.ok (Prod.ext ?_ ?_)
    · simp only [Draft.scribe, Draft.text_requoted, htext]
    · simp only [Draft.scribe, Draft.after_requoted, hafter]

theorem Update.body_follows (hd : d.Shipped) {u : Update} (h : u.Coherent) :
    (u.body d).Follows (Drafted.effect d u) u.Passing := by
  rw [Drafted.effect]
  have hdraft : Drafted.draft d.constructs u = u.draft d.constructs := rfl
  rw [hdraft, Update.body, Update.draft]
  cases u.table? with
  | none =>
    dsimp only
    exact .fail _
  | some table =>
    dsimp only
    by_cases hassignments : u.assignments.isEmpty = true
    · simp only [hassignments, if_true]
      exact .fail _
    · by_cases hfilter : u.filter.isEmpty = true
      · simp only [hassignments, hfilter, if_true]
        exact .fail _
      · simp only [hassignments, hfilter]
        have hplan : (do
            let assignments ← (Draft.listScribe d).effect
              (assignmentDrafts d.constructs u.assignments)
            let filter ← (Draft.scribe d).effect (u.filter.draft d.constructs)
            if filter = "" then Effect.fail (.missingFilter .update)
            else pure (d.quotePrefixes [table.text]
              (updateText (table.quoted d) assignments filter))) =
            (Draft.scribe d).effect (do
              let assignments ← assignmentDrafts d.constructs u.assignments
              let filter ← u.filter.draft d.constructs
              if filter.isEmpty then .error (.missingFilter .update)
              else .ok (.requoted [table.text] (Draft.update table assignments filter))) := by
          funext c
          refine Scribe.effect_bind fun assignments _ => ?_
          refine Scribe.effect_bind fun filter _ => ?_
          refine effect_requiringFilter .update _ _ (Draft.update table assignments) filter _ c
            (Draft.text_update table assignments) ?_
          simp only [Draft.after, Draft.bindings_update, Collector.bindAll_append, Draft.listScribe,
            Draft.afterAll]
        refine Eq.subst (motive := fun e => Pass.Follows _ e _) hplan (.bind
          (.visit (assignmentRuns_follow hd u.assignments h.assignments) fun _ _ =>
            Update.passing_assignments)
          fun assignments _ => .bind (.visit (u.filter.run_follows hd h.filter) fun _ _ =>
            Update.passing_filter)
            fun filter _ => ?_)
        by_cases hempty : filter = ""
        · rw [if_pos hempty, if_pos hempty]
          exact .fail _
        · rw [if_neg hempty, if_neg hempty]
          exact .pure _

/-! ## Deletes -/

/-- The kept text is right, and so is every one below. -/
structure Delete.Coherent (del : Delete) : Prop where
  cache : del.cache.Sound fun k => del.draft k
  filter : del.filter.Coherent

instance : Drafted Delete where
  draft := Delete.draft
  fresh := Delete.fresh
  Coherent := Delete.Coherent
  draft_congr h k := by rw [← Delete.draft_fresh, h, Delete.draft_fresh]
  fresh_keep _ _ := rfl
  cache_keep _ _ := rfl
  sound h := h.cache
  coherent_keep h hcache := ⟨hcache, h.filter⟩

/-- A delete on the way through its body: renewed, with nothing kept. -/
abbrev Delete.Passing (del n : Delete) : Prop := Drafted.Renewal del n ∧ n.cache = none

theorem Delete.passing_filter {del n : Delete} {filter : Clause} (h : del.Passing n)
    (hfilter : Renewed Clause.Coherent Clause.fresh del.filter filter) :
    del.Passing { n with filter } := by
  obtain ⟨⟨hcoherent, hfresh⟩, hnone⟩ := h
  refine ⟨⟨⟨hnone ▸ Cache.sound_none, hfilter.coherent⟩, ?_⟩, hnone⟩
  have hpart : n.filter.fresh = del.filter.fresh := congrArg Delete.filter hfresh
  rw [← hfresh]
  exact congrArg (fun filter => { n.fresh with filter }) (hfilter.fresh.trans hpart.symm)

theorem Delete.body_follows (hd : d.Shipped) {del : Delete} (h : del.Coherent) :
    (del.body d).Follows (Drafted.effect d del) del.Passing := by
  rw [Drafted.effect]
  have hdraft : Drafted.draft d.constructs del = del.draft d.constructs := rfl
  rw [hdraft, Delete.body, Delete.draft]
  cases del.table? with
  | none =>
    dsimp only
    exact .fail _
  | some table =>
    dsimp only
    have hplan : (do
        let filter ← (Draft.scribe d).effect (del.filter.draft d.constructs)
        if filter = "" then Effect.fail (.missingFilter .delete)
        else pure (d.quotePrefixes [table.text] (deleteText (table.quoted d) filter))) =
        (Draft.scribe d).effect (do
          let filter ← del.filter.draft d.constructs
          if filter.isEmpty then .error (.missingFilter .delete)
          else .ok (.requoted [table.text] (Draft.delete table filter))) := by
      funext c
      refine Scribe.effect_bind fun filter _ => ?_
      refine effect_requiringFilter .delete _ _ (Draft.delete table) filter _ c
        (Draft.text_delete table) ?_
      simp only [Draft.after, Draft.bindings_delete]
    refine Eq.subst (motive := fun e => Pass.Follows _ e _) hplan (.bind
      (.visit (del.filter.run_follows hd h.filter)
        fun _ _ => Delete.passing_filter) fun filter _ => ?_)
    by_cases hempty : filter = ""
    · rw [if_pos hempty, if_pos hempty]
      exact .fail _
    · rw [if_neg hempty, if_neg hempty]
      exact .pure _

end SqlTree
