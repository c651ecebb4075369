import SqlTree.Proofs.Caching.Transparency
import SqlTree.Proofs.Raw
import SqlTree.Proofs.Verbatim.Part
import SqlTree.Proofs.Written.Tree

/-!
# SqlTree.Proofs.Verbatim.Within

Nodes within nodes.  `AnyNode.uses` are the nodes right below a node, and
`AnyNode.Within` are those anywhere below it.  If a node keeps right texts
only, so do all within it (`Within.coherent`), and their drafts are parts of
its draft (`Within.draftedIn`).
-/

namespace SqlTree

/-! ## Nodes within nodes -/

/-- The nodes in a predicate. -/
def Predicate.uses : Predicate → List AnyNode
  | .comparison _ _ right => right.uses
  | .between _ _ low high => low.uses ++ high.uses
  | .inSelect _ _ s | .existence _ s | .quantified _ _ _ s => [⟨.select, s⟩]
  | .like _ _ pattern _ => pattern.uses
  | .expression e => [⟨.expression, e⟩]
  | .group g => [⟨.group, g⟩]
  | .inValues .. | .truth .. | .literal _ => []

/-- The nodes in what is joined. -/
def JoinTarget.uses : JoinTarget → List AnyNode
  | .table _ => []
  | .subquery s => [⟨.select, s⟩]

/-- The nodes in where rows come from. -/
def Origin.uses : Origin → List AnyNode
  | .table _ _ => []
  | .subquery s _ => [⟨.select, s⟩]

/-- The nodes in a select. -/
def Select.uses (s : Select) : List AnyNode :=
  (s.columns.flatMap fun column => column.source.uses) ++
    (s.origin?.toList.flatMap Origin.uses ++ (s.joins.map (fun j => ⟨.join, j⟩) ++
      ([⟨.clause, s.filter⟩, ⟨.clause, s.having⟩] ++
        s.combined?.toList.map fun combined => ⟨.select, combined.2⟩)))

/-- The nodes in an insert.  With a source it has no rows. -/
def Insert.uses (i : Insert) : List AnyNode :=
  match i.source? with
  | some s => [⟨.select, s⟩]
  | none => i.rows.flatten.flatMap Operand.uses

/-- The nodes right below a node.  The template of an expression is raw SQL,
so what stands in it is not looked at. -/
def AnyNode.uses : AnyNode → List AnyNode
  | ⟨.select, s⟩ => Select.uses s
  | ⟨.insert, i⟩ => Insert.uses i
  | ⟨.update, u⟩ =>
    ((Update.assignments u).flatMap fun a => a.value.uses) ++ [⟨.clause, Update.filter u⟩]
  | ⟨.delete, del⟩ => [⟨.clause, Delete.filter del⟩]
  | ⟨.group, g⟩ => (Group.terms g).map fun term => ⟨.predicate, term.predicate⟩
  | ⟨.clause, c⟩ => (Clause.group? c).toList.map fun g => ⟨.group, g⟩
  | ⟨.join, j⟩ => (Join.target j).uses ++ [⟨.clause, Join.on j⟩]
  | ⟨.predicate, p⟩ => Predicate.uses p
  | ⟨.expression, _⟩ | ⟨.reference, _⟩ => []

/-- One node is found somewhere below the other, or is the other. -/
inductive AnyNode.Within : AnyNode → AnyNode → Prop where
  | refl (u : AnyNode) : Within u u
  | step {u v w : AnyNode} (hv : v ∈ w.uses) (h : Within u v) : Within u w

/-! ## Kept texts below -/

theorem AnyNode.coherent_singleton {v : AnyNode} (h : v.Coherent) : ∀ u ∈ [v], u.Coherent := by
  intro u hu
  rw [List.mem_singleton.1 hu]
  exact h

theorem Operand.coherent_uses {o : Operand} (h : o.Coherent) : ∀ u ∈ o.uses, u.Coherent := by
  cases o with
  | expression e =>
    rw [Operand.Coherent] at h
    exact AnyNode.coherent_singleton (v := ⟨.expression, e⟩) h
  | subquery s =>
    rw [Operand.Coherent] at h
    exact AnyNode.coherent_singleton (v := ⟨.select, s⟩) h
  | value | identifier | literal => exact fun _ hu => nomatch hu

theorem ColumnSource.coherent_uses {source : ColumnSource} (h : source.Coherent) :
    ∀ u ∈ source.uses, u.Coherent := by
  cases source with
  | reference => exact fun _ hu => nomatch hu
  | expression e =>
    rw [ColumnSource.Coherent] at h
    exact AnyNode.coherent_singleton (v := ⟨.expression, e⟩) h
  | subquery s =>
    rw [ColumnSource.Coherent] at h
    exact AnyNode.coherent_singleton (v := ⟨.select, s⟩) h

theorem JoinTarget.coherent_uses {target : JoinTarget} (h : target.Coherent) :
    ∀ u ∈ target.uses, u.Coherent := by
  cases target with
  | table => exact fun _ hu => nomatch hu
  | subquery s =>
    rw [JoinTarget.Coherent] at h
    exact AnyNode.coherent_singleton (v := ⟨.select, s⟩) h

theorem Predicate.coherent_uses {p : Predicate} (h : p.Coherent) :
    ∀ u ∈ p.uses, u.Coherent := by
  cases p with
  | comparison left op right =>
    rw [Predicate.Coherent] at h
    exact Operand.coherent_uses h
  | between left negated low high =>
    rw [Predicate.Coherent] at h
    exact List.forall_mem_append.2 ⟨Operand.coherent_uses h.1, Operand.coherent_uses h.2⟩
  | like left negated pattern escape =>
    rw [Predicate.Coherent] at h
    exact Operand.coherent_uses h
  | inSelect left negated s | existence negated s | quantified left op quantifier s =>
    rw [Predicate.Coherent] at h
    exact AnyNode.coherent_singleton (v := ⟨.select, s⟩) h
  | expression e =>
    rw [Predicate.Coherent] at h
    exact AnyNode.coherent_singleton (v := ⟨.expression, e⟩) h
  | group g =>
    rw [Predicate.Coherent] at h
    exact AnyNode.coherent_singleton (v := ⟨.group, g⟩) h
  | inValues | truth | literal => exact fun _ hu => nomatch hu

theorem Origin.coherent_uses {origin? : Option Origin} (h : OriginCoherent origin?) :
    ∀ u ∈ origin?.toList.flatMap Origin.uses, u.Coherent := by
  rcases origin? with _ | ⟨name, alias?⟩ | ⟨s, a⟩
  · exact fun _ hu => nomatch hu
  · exact fun _ hu => nomatch hu
  · rw [OriginCoherent] at h
    exact AnyNode.coherent_singleton (v := ⟨.select, s⟩) h

theorem Select.coherent_uses {s : Select} (h : s.Coherent) : ∀ u ∈ s.uses, u.Coherent := by
  have hs := (Select.coherent_iff s).1 h
  simp only [Select.uses, List.forall_mem_append]
  refine ⟨fun u hu => ?_, Origin.coherent_uses hs.origin, fun u hu => ?_, fun u hu => ?_,
    fun u hu => ?_⟩
  · obtain ⟨column, hcolumn, hu⟩ := List.mem_flatMap.1 hu
    exact ColumnSource.coherent_uses ((columnsCoherent_iff _).1 hs.columns column hcolumn) u hu
  · obtain ⟨j, hj, rfl⟩ := List.mem_map.1 hu
    exact (joinsCoherent_iff _).1 hs.joins j hj
  · rcases List.mem_pair.1 hu with rfl | rfl
    · exact hs.filter
    · exact hs.having
  · obtain ⟨⟨operation, other⟩, hother, rfl⟩ := List.mem_map.1 hu
    have hcombined := hs.combined
    rw [Option.mem_toList.1 hother, CombinedCoherent] at hcombined
    exact hcombined

theorem Insert.coherent_uses {i : Insert} (h : i.Coherent) : ∀ u ∈ i.uses, u.Coherent := by
  unfold Insert.uses
  split
  · next s hs => exact AnyNode.coherent_singleton (v := ⟨.select, s⟩) (h.source s hs)
  · intro u hu
    obtain ⟨o, ho, hu⟩ := List.mem_flatMap.1 hu
    obtain ⟨row, hrow, ho⟩ := List.mem_flatten.1 ho
    exact Operand.coherent_uses (h.rows row hrow o ho) u hu

/-- What a coherent node has below it is coherent. -/
theorem AnyNode.coherent_uses : (w : AnyNode) → w.Coherent → ∀ u ∈ w.uses, u.Coherent
  | ⟨.select, _⟩, h => Select.coherent_uses h
  | ⟨.insert, _⟩, h => Insert.coherent_uses h
  | ⟨.update, u⟩, h => by
    refine List.forall_mem_append.2 ⟨fun v hv => ?_, AnyNode.coherent_singleton h.filter⟩
    obtain ⟨a, ha, hv⟩ := List.mem_flatMap.1 hv
    exact Operand.coherent_uses (h.assignments a ha) v hv
  | ⟨.delete, _⟩, h => AnyNode.coherent_singleton h.filter
  | ⟨.group, g⟩, h => by
    intro v hv
    obtain ⟨term, hterm, rfl⟩ := List.mem_map.1 hv
    exact ((Group.coherent_iff g).1 h).2 term hterm
  | ⟨.clause, c⟩, h => by
    intro v hv
    obtain ⟨g, hg, rfl⟩ := List.mem_map.1 hv
    exact (Clause.coherent_iff c).1 h g (Option.mem_toList.1 hg)
  | ⟨.join, j⟩, h => by
    obtain ⟨-, htarget, hon⟩ := (Join.coherent_iff j).1 h
    exact List.forall_mem_append.2
      ⟨JoinTarget.coherent_uses htarget, AnyNode.coherent_singleton (v := ⟨.clause, j.on⟩) hon⟩
  | ⟨.predicate, _⟩, h => Predicate.coherent_uses h
  | ⟨.expression, _⟩, _ | ⟨.reference, _⟩, _ => fun _ hu => nomatch hu

theorem AnyNode.Within.coherent {u w : AnyNode} (h : u.Within w) (hw : w.Coherent) :
    u.Coherent := by
  induction h with
  | refl => exact hw
  | step hv _ ih => exact ih (coherent_uses _ hw _ hv)

/-! ## Drafts within drafts -/

/-- The node has a draft, and that is a part of the other one. -/
def AnyNode.DraftedIn (k : Constructs) (u : AnyNode) (p : Draft) : Prop :=
  ∃ q, Node.draft k u.1 u.2 = .ok q ∧ q.Part p

section

variable {k : Constructs} {p q : Draft}

theorem AnyNode.DraftedIn.part {u : AnyNode} (h : u.DraftedIn k p) (hp : p.Part q) :
    u.DraftedIn k q := by
  obtain ⟨r, hr, hpart⟩ := h
  exact ⟨r, hr, hpart.trans hp⟩

theorem Node.draft_yields (u : AnyNode) : Yields (u.DraftedIn k) (Node.draft k u.1 u.2) :=
  fun p hp => ⟨p, hp, .refl p⟩

/-- What is drafted in the first of some plans is drafted in one of them. -/
theorem Yields.exists_head {α β : Type} {Q : β → Prop} {f : α → β} {plan : Except Error α}
    {plans : Except Error (List β)} (h : Yields (fun a => Q (f a)) plan) :
    Yields (fun bs => ∃ b ∈ bs, Q b) (plan >>= fun a => plans >>= fun bs => .ok (f a :: bs)) :=
  h.bind fun a ha => .bind_any fun _ => .ok ⟨f a, List.mem_cons_self, ha⟩

/-- And so is what is drafted in the others. -/
theorem Yields.exists_tail {α β : Type} {Q : β → Prop} {f : α → β} {plan : Except Error α}
    {plans : Except Error (List β)} (h : Yields (fun bs => ∃ b ∈ bs, Q b) plans) :
    Yields (fun bs => ∃ b ∈ bs, Q b) (plan >>= fun a => plans >>= fun bs => .ok (f a :: bs)) := by
  refine .bind_any fun a => h.bind fun bs hbs => ?_
  obtain ⟨b, hb, hQ⟩ := hbs
  exact .ok ⟨b, List.mem_cons_of_mem _ hb, hQ⟩

theorem Operand.draft_uses (hint : String) {o : Operand} {u : AnyNode} (hu : u ∈ o.uses) :
    Yields (u.DraftedIn k) (o.draft k hint) := by
  cases o with
  | expression e =>
    rw [List.mem_singleton.1 hu, Operand.draft]
    exact Node.draft_yields ⟨.expression, e⟩
  | subquery s =>
    rw [List.mem_singleton.1 hu, Operand.draft]
    exact (Node.draft_yields ⟨.select, s⟩).map fun _ h => h.part .enclosed
  | value | identifier | literal => exact nomatch hu

theorem ColumnSource.draft_uses (star : Draft) {source : ColumnSource} {u : AnyNode}
    (hu : u ∈ source.uses) : Yields (u.DraftedIn k) (source.draft k star) := by
  cases source with
  | reference => exact nomatch hu
  | expression e =>
    rw [List.mem_singleton.1 hu, ColumnSource.draft]
    exact Node.draft_yields ⟨.expression, e⟩
  | subquery s =>
    rw [List.mem_singleton.1 hu, ColumnSource.draft]
    exact (Node.draft_yields ⟨.select, s⟩).map fun _ h => h.part .enclosed

theorem JoinTarget.draft_uses {target : JoinTarget} {u : AnyNode} (hu : u ∈ target.uses) :
    Yields (u.DraftedIn k) (target.draft k) := by
  cases target with
  | table => exact nomatch hu
  | subquery s =>
    rw [List.mem_singleton.1 hu, JoinTarget.draft]
    exact (Node.draft_yields ⟨.select, s⟩).map fun _ h => h.part .enclosed

theorem Predicate.draft_uses {p : Predicate} {u : AnyNode} (hu : u ∈ p.uses) :
    Yields (u.DraftedIn k) (p.draft k) := by
  cases p with
  | comparison left op right =>
    rw [Predicate.draft]
    exact (Operand.draft_uses _ hu).map fun _ h => h.part (.comparison left op)
  | between left negated low high =>
    rw [Predicate.draft]
    rcases List.mem_append.1 hu with hu | hu
    · exact (Operand.draft_uses _ hu).bind fun _ h => .bind_any fun _ =>
        .ok (h.part (.between_low left negated))
    · exact .bind_any fun _ => (Operand.draft_uses _ hu).bind fun _ h =>
        .ok (h.part (.between_high left negated))
  | like left negated pattern escape =>
    rw [Predicate.draft]
    exact (Operand.draft_uses _ hu).map fun _ h => h.part (.like left negated escape)
  | inSelect left negated s =>
    rw [List.mem_singleton.1 hu, Predicate.draft]
    exact (Node.draft_yields ⟨.select, s⟩).map fun _ h => h.part (.inParentheses left negated)
  | existence negated s =>
    rw [List.mem_singleton.1 hu, Predicate.draft]
    exact (Node.draft_yields ⟨.select, s⟩).map fun _ h => h.part (.existence negated)
  | quantified left op quantifier s =>
    rw [List.mem_singleton.1 hu, Predicate.draft]
    exact (Node.draft_yields ⟨.select, s⟩).map fun _ h => h.part (.quantified left op quantifier)
  | expression e =>
    rw [List.mem_singleton.1 hu, Predicate.draft]
    exact Node.draft_yields ⟨.expression, e⟩
  | group g =>
    rw [List.mem_singleton.1 hu, Predicate.draft]
    exact Node.draft_yields ⟨.group, g⟩
  | inValues | truth | literal => exact nomatch hu

theorem termDrafts_uses {terms : List Term} {term : Term} (h : term ∈ terms) :
    Yields (fun ts => ∃ t ∈ ts, AnyNode.DraftedIn k ⟨.predicate, term.predicate⟩ t.2)
      (termDrafts k terms) := by
  induction terms with
  | nil => cases h
  | cons term' terms ih =>
    obtain ⟨connective, p⟩ := term'
    rw [termDrafts]
    rcases List.mem_cons.1 h with rfl | h
    · exact .exists_head (Node.draft_yields ⟨.predicate, p⟩)
    · exact .exists_tail (ih h)

theorem Group.draft_uses {g : Group} {term : Term} (h : term ∈ g.terms) :
    Yields (AnyNode.DraftedIn k ⟨.predicate, term.predicate⟩) (g.draft k) := by
  cases g
  rw [Group.draft]
  refine (termDrafts_uses h).map fun ts hts => ?_
  obtain ⟨t, ht, hp⟩ := hts
  exact hp.part (.group _ ht)

theorem Join.draft_uses {j : Join} {u : AnyNode} (hu : u ∈ AnyNode.uses ⟨.join, j⟩) :
    Yields (u.DraftedIn k) (j.draft k) := by
  obtain ⟨kind, target, alias?, on, cache⟩ := j
  rw [Join.draft]
  rcases List.mem_append.1 hu with hu | hu
  · exact (JoinTarget.draft_uses hu).bind fun _ h => .bind_any fun _ =>
      .ok (h.part (.join_target kind alias?))
  · rw [List.mem_singleton.1 hu]
    exact .bind_any fun _ => (Node.draft_yields ⟨.clause, on⟩).bind fun _ h =>
      .ok (h.part (.join_on kind alias?))

/-! ### Selects -/

theorem columnDrafts_uses (star : Draft) {columns : List Column} {u : AnyNode}
    (hu : u ∈ columns.flatMap fun column => column.source.uses) :
    Yields (fun ps => ∃ p ∈ ps, u.DraftedIn k p) (columnDrafts k star columns) := by
  induction columns with
  | nil => cases hu
  | cons column columns ih =>
    obtain ⟨source, alias?⟩ := column
    rw [columnDrafts]
    rcases List.mem_append.1 (List.flatMap_cons ▸ hu) with hu | hu
    · exact .exists_head ((ColumnSource.draft_uses star hu).map fun _ h => h.part (.column alias?))
    · exact .exists_tail (ih hu)

theorem joinDrafts_uses {joins : List Join} {j : Join} (hj : j ∈ joins) :
    Yields (fun ps => ∃ p ∈ ps, AnyNode.DraftedIn k ⟨.join, j⟩ p) (joinDrafts k joins) := by
  induction joins with
  | nil => cases hj
  | cons j' joins ih =>
    rw [joinDrafts]
    rcases List.mem_cons.1 hj with rfl | hj
    · exact .exists_head (Node.draft_yields ⟨.join, j⟩)
    · exact .exists_tail (ih hj)

theorem originDraft_uses (pretty : Bool) (nesting : Nat) {origin? : Option Origin} {u : AnyNode}
    (hu : u ∈ origin?.toList.flatMap Origin.uses) :
    Yields (u.DraftedIn k) (originDraft k pretty nesting origin?) := by
  rcases origin? with _ | ⟨name, alias?⟩ | ⟨s, a⟩
  · exact nomatch hu
  · exact nomatch hu
  · rw [List.mem_singleton.1 hu, originDraft]
    exact (Node.draft_yields ⟨.select, s⟩).map fun _ h =>
      h.part (.subqueryOrigin pretty nesting _ a)

theorem combinedDraft_uses {combined? : Option (SetOperation × Select)}
    {combined : SetOperation × Select} (h : combined ∈ combined?.toList) :
    Yields (AnyNode.DraftedIn k ⟨.select, combined.2⟩) (combinedDraft k combined?) := by
  obtain ⟨operation, s⟩ := combined
  rw [Option.mem_toList.1 h, combinedDraft]
  exact (Node.draft_yields ⟨.select, s⟩).map fun p h => h.part (.right (.refl p))

theorem Draft.mem_columnsOr {star : Draft} {ps : List Draft} (h : p ∈ ps) :
    p ∈ Draft.columnsOr star ps := by
  cases ps with
  | nil => cases h
  | cons => exact h

theorem Select.draft_uses {s : Select} {u : AnyNode} (hu : u ∈ s.uses) :
    Yields (u.DraftedIn k) (s.draft k) := by
  obtain ⟨distinct, columns, into?, origin?, joins, filter, groupBy, having, combined?, orderBy,
    limit, offset, nesting, pretty, columnTexts, cache⟩ := s
  have haround {names : List String} {parts : Draft.SelectParts} (page : Page)
      (h : u.DraftedIn k (Draft.select parts)) :
      Yields (u.DraftedIn k) (Draft.aroundSelect k (.requoted names (Draft.select parts)) page) :=
    fun p hp => h.part ((Draft.Part.requoted (.refl _)).trans (Draft.aroundSelect_part k page p hp))
  simp only [Select.uses, List.mem_append] at hu
  rw [Select.draft]
  refine .bind_any fun head => ?_
  rcases hu with hu | hu | hu | hu | hu
  · refine (columnDrafts_uses _ hu).bind fun ps hps => ?_
    obtain ⟨p, hp, h⟩ := hps
    refine .bind_any fun _ => .bind_any fun _ => .bind_any fun _ => .bind_any fun _ =>
      .bind_any fun _ => .bind_any fun _ => haround _ (h.part (.select_column _ ?_))
    exact Draft.mem_columnsOr hp
  · refine .bind_any fun _ => (originDraft_uses pretty nesting hu).bind fun _ h => ?_
    exact .bind_any fun _ => .bind_any fun _ => .bind_any fun _ => .bind_any fun _ =>
      .bind_any fun _ => haround _ (h.part (.select_origin _ rfl))
  · obtain ⟨j, hj, rfl⟩ := List.mem_map.1 hu
    refine .bind_any fun _ => .bind_any fun _ => (joinDrafts_uses hj).bind fun ps hps => ?_
    obtain ⟨p, hp, h⟩ := hps
    exact .bind_any fun _ => .bind_any fun _ => .bind_any fun _ => .bind_any fun _ =>
      haround _ (h.part (.select_join _ hp))
  · refine .bind_any fun _ => .bind_any fun _ => .bind_any fun _ => ?_
    rcases List.mem_pair.1 hu with rfl | rfl
    · exact (Node.draft_yields ⟨.clause, filter⟩).bind fun _ h => .bind_any fun _ =>
        .bind_any fun _ => .bind_any fun _ => haround _ (h.part (.select_filter _ rfl))
    · exact .bind_any fun _ => (Node.draft_yields ⟨.clause, having⟩).bind fun _ h =>
        .bind_any fun _ => .bind_any fun _ => haround _ (h.part (.select_having _ rfl))
  · obtain ⟨combined, hcombined, rfl⟩ := List.mem_map.1 hu
    exact .bind_any fun _ => .bind_any fun _ => .bind_any fun _ => .bind_any fun _ =>
      .bind_any fun _ => (combinedDraft_uses hcombined).bind fun _ h => .bind_any fun _ =>
      haround _ (h.part (.select_combined _ rfl))

/-! ### Statements -/

theorem rowDraft_uses (columns : List Identifier) {row : List Operand} {o : Operand} (ho : o ∈ row)
    {u : AnyNode} (hu : u ∈ o.uses) :
    Yields (fun ps => ∃ p ∈ ps, u.DraftedIn k p) (rowDraft k columns row) := by
  induction row generalizing columns with
  | nil => cases ho
  | cons o' row ih =>
    rw [rowDraft]
    rcases List.mem_cons.1 ho with rfl | ho
    · exact .exists_head (Operand.draft_uses _ hu)
    · exact .exists_tail (ih columns.tail ho)

theorem rowDrafts_uses (columns : List Identifier) {rows : List (List Operand)}
    {row : List Operand} (hrow : row ∈ rows) {o : Operand} (ho : o ∈ row) {u : AnyNode}
    (hu : u ∈ o.uses) :
    Yields (fun rows => ∃ row ∈ rows, ∃ p ∈ row, u.DraftedIn k p) (rowDrafts k columns rows) := by
  induction rows with
  | nil => cases hrow
  | cons row' rows ih =>
    rw [rowDrafts]
    rcases List.mem_cons.1 hrow with rfl | hrow
    · exact .exists_head (rowDraft_uses columns ho hu)
    · exact .exists_tail (ih hrow)

theorem Insert.draft_uses {i : Insert} {u : AnyNode} (hu : u ∈ i.uses) :
    Yields (u.DraftedIn k) (i.draft k) := by
  obtain ⟨_ | table, columns, rows, _ | s, cache⟩ := i
  · exact .error
  · exact .error
  · simp only [Insert.draft]
    obtain ⟨o, ho, hu⟩ := List.mem_flatMap.1 hu
    obtain ⟨row, hrow, ho⟩ := List.mem_flatten.1 ho
    split
    · exact .error
    · refine (rowDrafts_uses columns hrow ho hu).bind fun rows hrows q hq => ?_
      obtain ⟨ps, hps, p, hp, h⟩ := hrows
      exact h.part (Draft.Part.insertRows table columns hps hp q hq)
  · rw [List.mem_singleton.1 hu]
    exact (Node.draft_yields ⟨.select, s⟩).map fun _ h => h.part (.insertSelect table columns)

theorem assignmentDrafts_uses {assignments : List Assignment} {a : Assignment}
    (ha : a ∈ assignments) {u : AnyNode} (hu : u ∈ a.value.uses) :
    Yields (fun ps => ∃ p ∈ ps, u.DraftedIn k p) (assignmentDrafts k assignments) := by
  induction assignments with
  | nil => cases ha
  | cons a' assignments ih =>
    rw [assignmentDrafts]
    rcases List.mem_cons.1 ha with rfl | ha
    · exact .exists_head
        ((Operand.draft_uses a.column.text hu).map fun _ h => h.part (.assignment a.column))
    · exact .exists_tail (ih ha)

theorem Update.draft_uses {up : Update} {u : AnyNode} (hu : u ∈ AnyNode.uses ⟨.update, up⟩) :
    Yields (u.DraftedIn k) (up.draft k) := by
  obtain ⟨_ | table, assignments, filter, cache⟩ := up
  · exact .error
  have hupdate {p : Draft} (h : u.DraftedIn k p) :
      Yields (u.DraftedIn k) (.ok (.requoted [table.text] p)) :=
    .ok (h.part (.requoted (.refl p)))
  simp only [Update.draft]
  split
  · exact .error
  · split
    · exact .error
    · rcases List.mem_append.1 hu with hu | hu
      · obtain ⟨a, ha, hu⟩ := List.mem_flatMap.1 hu
        refine (assignmentDrafts_uses ha hu).bind fun ps hps => .bind_any fun q => ?_
        obtain ⟨p, hp, h⟩ := hps
        split
        · exact .error
        · exact hupdate (h.part (.update_assignment table hp))
      · rw [List.mem_singleton.1 hu] at hupdate ⊢
        refine .bind_any fun ps => (Node.draft_yields ⟨.clause, filter⟩).bind fun p h => ?_
        split
        · exact .error
        · exact hupdate (h.part (.update_filter table ps))

theorem Delete.draft_uses {del : Delete} :
    Yields (AnyNode.DraftedIn k ⟨.clause, del.filter⟩) (del.draft k) := by
  obtain ⟨_ | table, filter, cache⟩ := del
  · exact .error
  · refine (Node.draft_yields ⟨.clause, filter⟩).bind fun p h => ?_
    split
    · exact .error
    · exact .ok (h.part (.requoted (.delete table)))

/-- What a node has right below it is drafted in its draft. -/
theorem AnyNode.draft_uses : (w : AnyNode) → ∀ u ∈ w.uses,
    Yields (u.DraftedIn k) (Node.draft k w.1 w.2)
  | ⟨.select, _⟩, _, hu => Select.draft_uses hu
  | ⟨.insert, _⟩, _, hu => Insert.draft_uses hu
  | ⟨.update, _⟩, _, hu => Update.draft_uses hu
  | ⟨.delete, _⟩, u, hu => by
    rw [List.mem_singleton.1 hu]
    exact Delete.draft_uses
  | ⟨.group, g⟩, u, hu => by
    obtain ⟨term, hterm, rfl⟩ := List.mem_map.1 hu
    exact Group.draft_uses hterm
  | ⟨.clause, c⟩, u, hu => by
    obtain ⟨g, hg, rfl⟩ := List.mem_map.1 hu
    obtain ⟨kind, group?⟩ := c
    cases Option.mem_toList.1 hg
    exact (Node.draft_yields ⟨.group, g⟩).map fun _ h => h.part (.clause kind)
  | ⟨.join, _⟩, _, hu => Join.draft_uses hu
  | ⟨.predicate, _⟩, _, hu => Predicate.draft_uses hu
  | ⟨.expression, _⟩, _, hu | ⟨.reference, _⟩, _, hu => nomatch hu

/-- And so is all that is further below. -/
theorem AnyNode.Within.draftedIn {u w : AnyNode} (h : u.Within w)
    (hp : Node.draft k w.1 w.2 = .ok p) : u.DraftedIn k p := by
  induction h generalizing p with
  | refl => exact ⟨p, hp, .refl p⟩
  | @step v w hv _ ih =>
    obtain ⟨q, hq, hpart⟩ := w.draft_uses v hv p hp
    exact (ih hq).part hpart

end

end SqlTree
