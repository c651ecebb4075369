import SqlTree.Proofs.Caching.Transparency
import SqlTree.Proofs.Capability.Hinges

/-!
# SqlTree.Proofs.Capability.Tree

One tree in two dialects that write some pages alike, of which the first one
refuses all other pages (`Constructs.Hinge`).  The two drafts of the tree
hinge on whether every select in it has a page of the first kind: if so, they
are one draft, and otherwise the first dialect refuses the tree, with no
other error than the one for the page unless the second one finds something
wrong as well.  The induction follows the drafts; the page of a select is
asked for where everything in the select has its draft already.
-/

namespace SqlTree

/-- Two dialects write the allowed pages alike, and the first one refuses the
others with the error. -/
structure Constructs.Hinge (allowed : Page → Prop) (e : Error) (k k' : Constructs) : Prop where
  head : ∀ page, allowed page → ∀ quantifier,
    Draft.columnHead k quantifier (k.innerPage page) =
      Draft.columnHead k' quantifier (k'.innerPage page)
  clause : ∀ page, allowed page → ∀ ordered,
    Draft.innerPageClause k page ordered = Draft.innerPageClause k' page ordered
  around : ∀ page, allowed page → ∀ p, Draft.aroundSelect k p page = Draft.aroundSelect k' p page
  goesOn : ∀ page, ¬allowed page → ∀ quantifier,
    ∃ p, Draft.columnHead k quantifier (k.innerPage page) = .ok p
  refuses : ∀ page, ¬allowed page → ∀ ordered,
    Draft.innerPageClause k page ordered = .error e

/-! ## Templates -/

theorem mem_of_checkNames {slots seen names : List String}
    (h : checkNames slots seen names = none) : ∀ name ∈ names, name ∈ slots := by
  induction names generalizing seen with
  | nil => exact fun _ h => nomatch h
  | cons name names ih =>
    rw [checkNames] at h
    split at h
    · cases h
    · next hused =>
      split at h
      · cases h
      · exact List.forall_mem_cons.2 ⟨not_not.1 hused, ih h⟩

/-- Every name is used by a template that is accepted. -/
theorem mem_slotNames_of_templateFault {template : String} {names : List String}
    (h : templateFault template names = none) : ∀ name ∈ names, name ∈ slotNames template := by
  unfold templateFault at h
  split at h
  · cases h
  · split at h
    · cases h
    · next hnames => exact mem_of_checkNames hnames

/-- The names of the placeholders among the parts. -/
def namesIn (parts : List Piece) : List String :=
  parts.filterMap fun
    | .text _ => none
    | .slot name => some (String.ofList name)

variable {allowed : Page → Prop} {e : Error} {k k' : Constructs}

/-- The drafts of a placeholder belong to one and the same slot, if there is
one. -/
theorem lookup_slotDrafts (k k' : Constructs) (name : String) (slots : List Slot) :
    ((∀ slot ∈ slots, slot.name ≠ name) ∧
      (slotDrafts k slots).lookup name = none ∧ (slotDrafts k' slots).lookup name = none) ∨
      ∃ slot ∈ slots, slot.name = name ∧
        (slotDrafts k slots).lookup name = some (slot.filling.draft k) ∧
        (slotDrafts k' slots).lookup name = some (slot.filling.draft k') := by
  induction slots with
  | nil => exact .inl ⟨nofun, rfl, rfl⟩
  | cons slot slots ih =>
    obtain ⟨slotName, filling⟩ := slot
    by_cases h : name = slotName
    · refine .inr ⟨⟨slotName, filling⟩, List.mem_cons_self, h.symm, ?_, ?_⟩ <;>
        simp only [slotDrafts, h, List.lookup_cons_self]
    · have hne : (name == slotName) = false := by simpa using h
      simp only [slotDrafts, List.lookup_cons, hne]
      rcases ih with ⟨hnone, hlookup⟩ | ⟨slot, hslot, hsome⟩
      · exact .inl ⟨List.forall_mem_cons.2 ⟨fun heq => h heq.symm, hnone⟩, hlookup⟩
      · exact .inr ⟨slot, List.mem_cons_of_mem _ hslot, hsome⟩

/-- The parts of a template hinge on the slots that are used in them. -/
theorem hinges_pieces {P : Slot → Prop} {slots : List Slot}
    (hnames : (slots.map Slot.name).Nodup)
    (hslots : ∀ slot ∈ slots, Hinges (P slot) e (slot.filling.draft k) (slot.filling.draft k'))
    (parts : List Piece) :
    Hinges (∀ slot ∈ slots, slot.name ∈ namesIn parts → P slot) e
      (piecesDraft (slotDrafts k slots) parts) (piecesDraft (slotDrafts k' slots) parts) := by
  induction parts with
  | nil => exact .refl (fun _ _ h => nomatch h) _
  | cons part parts ih =>
    cases part with
    | text cs =>
      rw [piecesDraft, piecesDraft]
      exact ih.map _
    | slot name =>
      rw [piecesDraft, piecesDraft]
      have hcons (slot : Slot) : slot.name ∈ namesIn (.slot name :: parts) ↔
          slot.name = String.ofList name ∨ slot.name ∈ namesIn parts := List.mem_cons
      rcases lookup_slotDrafts k k' (String.ofList name) slots with
        ⟨hnone, hdraft, hdraft'⟩ | ⟨slot, hslot, hname, hdraft, hdraft'⟩
      · rw [hdraft, hdraft']
        refine (Hinges.after _ fun p => ih.map (p ++ ·)).congr (forall₂_congr fun slot hslot => ?_)
        rw [hcons, or_iff_right (hnone slot hslot)]
      · rw [hdraft, hdraft']
        refine ((hslots slot hslot).bind fun p => ih.map (p ++ ·)).congr ⟨fun h => ?_, fun h => ?_⟩
        · exact ⟨h slot hslot ((hcons slot).2 (.inl hname)),
            fun other hother hin => h other hother ((hcons other).2 (.inr hin))⟩
        · intro other hother hin
          rcases (hcons other).1 hin with heq | hin
          · have hsame : other = slot :=
              List.inj_on_of_nodup_map hnames hother hslot (heq.trans hname.symm)
            exact hsame ▸ h.1
          · exact h.2 other hother hin

/-! ## Trees -/

theorem forall_mem_slotSelects {P : Select → Prop} (slots : List Slot) :
    (∀ s ∈ slotSelects slots, P s) ↔ ∀ slot ∈ slots, ∀ s ∈ slot.filling.selects, P s := by
  induction slots with
  | nil => simp [slotSelects]
  | cons slot slots ih =>
    obtain ⟨name, filling⟩ := slot
    rw [slotSelects, List.forall_mem_append, List.forall_mem_cons, ih]

mutual

theorem Operand.hinges (hk : k.Hinge allowed e k') (hint : String) : (o : Operand) → o.Coherent →
    Hinges (∀ s ∈ o.selects, allowed s.page) e (o.draft k hint) (o.draft k' hint)
  | .value _, _ | .identifier _, _ | .literal _, _ => by
    rw [Operand.draft, Operand.draft, Operand.selects]
    exact .refl (fun _ h => nomatch h) _
  | .expression x, h => by
    rw [Operand.Coherent] at h
    rw [Operand.draft, Operand.draft, Operand.selects]
    exact x.hinges hk h
  | .subquery s, h => by
    rw [Operand.Coherent] at h
    rw [Operand.draft, Operand.draft, Operand.selects]
    exact (s.hinges hk h).map _

theorem Filling.hinges (hk : k.Hinge allowed e k') : (f : Filling) → f.Coherent →
    Hinges (∀ s ∈ f.selects, allowed s.page) e (f.draft k) (f.draft k')
  | .value _, _ | .identifier _, _ | .alias _, _ | .literal _, _ => by
    rw [Filling.draft, Filling.draft, Filling.selects]
    exact .refl (fun _ h => nomatch h) _
  | .subquery s, h => by
    rw [Filling.Coherent] at h
    rw [Filling.draft, Filling.draft, Filling.selects]
    exact (s.hinges hk h).map _

theorem hinges_slots (hk : k.Hinge allowed e k') : (slots : List Slot) → SlotsCoherent slots →
    ∀ slot ∈ slots, Hinges (∀ s ∈ slot.filling.selects, allowed s.page) e
      (slot.filling.draft k) (slot.filling.draft k')
  | [], _ => fun _ h => nomatch h
  | ⟨_, filling⟩ :: slots, h => by
    rw [SlotsCoherent] at h
    exact List.forall_mem_cons.2 ⟨filling.hinges hk h.1, hinges_slots hk slots h.2⟩

theorem Expression.hinges (hk : k.Hinge allowed e k') : (x : Expression) → x.Coherent →
    Hinges (∀ s ∈ x.selects, allowed s.page) e (x.draft k) (x.draft k')
  | ⟨template, slots⟩, h => by
    rw [Expression.Coherent] at h
    rw [Expression.draft, Expression.draft, Expression.selects]
    have hused := mem_slotNames_of_templateFault h.1
    refine (hinges_pieces (nodup_of_templateFault h.1) (hinges_slots hk slots h.2)
      (pieces template)).congr ?_
    rw [forall_mem_slotSelects]
    exact ⟨fun hall slot hslot _ => hall slot hslot,
      fun hall slot hslot => hall slot hslot (hused _ (List.mem_map_of_mem hslot))⟩

theorem Predicate.hinges (hk : k.Hinge allowed e k') : (p : Predicate) → p.Coherent →
    Hinges (∀ s ∈ p.selects, allowed s.page) e (p.draft k) (p.draft k')
  | .comparison left op right, h => by
    rw [Predicate.Coherent] at h
    rw [Predicate.draft, Predicate.draft, Predicate.selects]
    exact (right.hinges hk op.hint h).map _
  | .between left negated low high, h => by
    rw [Predicate.Coherent] at h
    rw [Predicate.draft, Predicate.draft, Predicate.selects, List.forall_mem_append]
    exact (low.hinges hk "between" h.1).bind fun _ => (high.hinges hk "between" h.2).map _
  | .inValues .., _ | .truth .., _ | .literal _, _ => by
    rw [Predicate.draft, Predicate.draft, Predicate.selects]
    exact .refl (fun _ h => nomatch h) _
  | .inSelect left negated s, h | .existence negated s, h
  | .quantified left op quantifier s, h => by
    rw [Predicate.Coherent] at h
    rw [Predicate.draft, Predicate.draft, Predicate.selects]
    exact (s.hinges hk h).map _
  | .like left negated pattern escape, h => by
    rw [Predicate.Coherent] at h
    rw [Predicate.draft, Predicate.draft, Predicate.selects]
    exact (pattern.hinges hk "like" h).map _
  | .expression x, h => by
    rw [Predicate.Coherent] at h
    rw [Predicate.draft, Predicate.draft, Predicate.selects]
    exact x.hinges hk h
  | .group g, h => by
    rw [Predicate.Coherent] at h
    rw [Predicate.draft, Predicate.draft, Predicate.selects]
    exact g.hinges hk h

theorem hinges_terms (hk : k.Hinge allowed e k') : (terms : List Term) → TermsCoherent terms →
    Hinges (∀ s ∈ termSelects terms, allowed s.page) e (termDrafts k terms) (termDrafts k' terms)
  | [], _ => by
    rw [termDrafts, termDrafts, termSelects]
    exact .refl (fun _ h => nomatch h) _
  | ⟨_, p⟩ :: terms, h => by
    rw [TermsCoherent] at h
    rw [termDrafts, termDrafts, termSelects, List.forall_mem_append]
    exact (p.hinges hk h.1).bind fun _ => (hinges_terms hk terms h.2).map _

theorem Group.hinges (hk : k.Hinge allowed e k') : (g : Group) → g.Coherent →
    Hinges (∀ s ∈ g.selects, allowed s.page) e (g.draft k) (g.draft k')
  | ⟨terms, _, _, _, _⟩, h => by
    rw [Group.Coherent] at h
    rw [Group.draft, Group.draft, Group.selects]
    exact (hinges_terms hk terms h.2).map _

theorem Clause.hinges (hk : k.Hinge allowed e k') : (c : Clause) → c.Coherent →
    Hinges (∀ s ∈ c.selects, allowed s.page) e (c.draft k) (c.draft k')
  | ⟨_, none⟩, _ => by
    rw [Clause.draft, Clause.draft, Clause.selects]
    exact .refl (fun _ h => nomatch h) _
  | ⟨_, some g⟩, h => by
    rw [Clause.Coherent] at h
    rw [Clause.draft, Clause.draft, Clause.selects]
    exact (g.hinges hk h).map _

theorem JoinTarget.hinges (hk : k.Hinge allowed e k') : (t : JoinTarget) → t.Coherent →
    Hinges (∀ s ∈ t.selects, allowed s.page) e (t.draft k) (t.draft k')
  | .table _, _ => by
    rw [JoinTarget.draft, JoinTarget.draft, JoinTarget.selects]
    exact .refl (fun _ h => nomatch h) _
  | .subquery s, h => by
    rw [JoinTarget.Coherent] at h
    rw [JoinTarget.draft, JoinTarget.draft, JoinTarget.selects]
    exact (s.hinges hk h).map _

theorem Join.hinges (hk : k.Hinge allowed e k') : (j : Join) → j.Coherent →
    Hinges (∀ s ∈ j.selects, allowed s.page) e (j.draft k) (j.draft k')
  | ⟨_, target, _, on, _⟩, h => by
    rw [Join.Coherent] at h
    rw [Join.draft, Join.draft, Join.selects, List.forall_mem_append]
    exact (target.hinges hk h.2.1).bind fun _ => (on.hinges hk h.2.2).map _

theorem hinges_joins (hk : k.Hinge allowed e k') : (joins : List Join) → JoinsCoherent joins →
    Hinges (∀ s ∈ joinSelects joins, allowed s.page) e (joinDrafts k joins) (joinDrafts k' joins)
  | [], _ => by
    rw [joinDrafts, joinDrafts, joinSelects]
    exact .refl (fun _ h => nomatch h) _
  | j :: joins, h => by
    rw [JoinsCoherent] at h
    rw [joinDrafts, joinDrafts, joinSelects, List.forall_mem_append]
    exact (j.hinges hk h.1).bind fun _ => (hinges_joins hk joins h.2).map _

theorem ColumnSource.hinges (hk : k.Hinge allowed e k') (star : Draft) :
    (source : ColumnSource) → source.Coherent →
    Hinges (∀ s ∈ source.selects, allowed s.page) e (source.draft k star) (source.draft k' star)
  | .reference _, _ => by
    rw [ColumnSource.draft, ColumnSource.draft, ColumnSource.selects]
    exact .refl (fun _ h => nomatch h) _
  | .expression x, h => by
    rw [ColumnSource.Coherent] at h
    rw [ColumnSource.draft, ColumnSource.draft, ColumnSource.selects]
    exact x.hinges hk h
  | .subquery s, h => by
    rw [ColumnSource.Coherent] at h
    rw [ColumnSource.draft, ColumnSource.draft, ColumnSource.selects]
    exact (s.hinges hk h).map _

theorem hinges_columns (hk : k.Hinge allowed e k') (star : Draft) :
    (columns : List Column) → ColumnsCoherent columns →
    Hinges (∀ s ∈ columnSelects columns, allowed s.page) e
      (columnDrafts k star columns) (columnDrafts k' star columns)
  | [], _ => by
    rw [columnDrafts, columnDrafts, columnSelects]
    exact .refl (fun _ h => nomatch h) _
  | ⟨source, _⟩ :: columns, h => by
    rw [ColumnsCoherent] at h
    rw [columnDrafts, columnDrafts, columnSelects, List.forall_mem_append]
    exact ((source.hinges hk star h.1).map _).bind fun _ =>
      (hinges_columns hk star columns h.2).map _

theorem hinges_origin (hk : k.Hinge allowed e k') (pretty : Bool) (nesting : Nat) :
    (origin? : Option Origin) → OriginCoherent origin? →
    Hinges (∀ s ∈ originSelects origin?, allowed s.page) e
      (originDraft k pretty nesting origin?) (originDraft k' pretty nesting origin?)
  | none, _ | some (.table _ _), _ => by
    rw [originDraft, originDraft, originSelects]
    exact .refl (fun _ h => nomatch h) _
  | some (.subquery s _), h => by
    rw [OriginCoherent] at h
    rw [originDraft, originDraft, originSelects]
    exact (s.hinges hk h).map _

theorem hinges_combined (hk : k.Hinge allowed e k') :
    (combined? : Option (SetOperation × Select)) → CombinedCoherent combined? →
    Hinges (∀ s ∈ combinedSelects combined?, allowed s.page) e
      (combinedDraft k combined?) (combinedDraft k' combined?)
  | none, _ => by
    rw [combinedDraft, combinedDraft, combinedSelects]
    exact .refl (fun _ h => nomatch h) _
  | some (_, s), h => by
    rw [CombinedCoherent] at h
    rw [combinedDraft, combinedDraft, combinedSelects]
    exact (s.hinges hk h).map _

theorem Select.hinges (hk : k.Hinge allowed e k') : (s : Select) → s.Coherent →
    Hinges (∀ s' ∈ s.selects, allowed s'.page) e (s.draft k) (s.draft k')
  | ⟨distinct, columns, into?, origin?, joins, filter, groupBy, having, combined?, orderBy, limit,
      offset, nesting, pretty, _, _⟩, h => by
    rw [Select.Coherent] at h
    obtain ⟨-, -, hcolumns, horigin, hjoins, hfilter, hhaving, hcombined⟩ := h
    have hcolumns := hinges_columns hk (Draft.star (origin?.bind Origin.alias?)) columns hcolumns
    have horigin := hinges_origin hk pretty nesting origin? horigin
    have hjoins := hinges_joins hk joins hjoins
    have hfilter := filter.hinges hk hfilter
    have hhaving := having.hinges hk hhaving
    have hcombined := hinges_combined hk combined? hcombined
    rw [Select.draft, Select.draft, Select.selects]
    simp only [List.forall_mem_cons, List.forall_mem_append]
    by_cases hpage : allowed ⟨limit, offset⟩
    · simp only [hk.head _ hpage, hk.clause _ hpage, hk.around _ hpage]
      refine Hinges.congr (.after _ fun _ => hcolumns.bind fun _ => horigin.bind fun _ =>
        hjoins.bind fun _ => hfilter.bind fun _ => hhaving.bind fun _ => hcombined.bind fun _ =>
          .refl trivial _) ?_
      simp only [and_true]
      exact and_iff_right hpage
    · refine ⟨fun hall => absurd hall.1 hpage, fun _ => ?_⟩
      obtain ⟨head, hhead⟩ := hk.goesOn _ hpage (if distinct then some "DISTINCT" else none)
      rw [hhead]
      refine .after_ok head _ fun _ => hcolumns.stops_after fun _ _ =>
        horigin.stops_after fun _ _ => hjoins.stops_after fun _ _ =>
          hfilter.stops_after fun _ _ => hhaving.stops_after fun _ _ =>
            hcombined.stops_after fun _ _ => ?_
      rw [hk.refuses _ hpage]
      exact (Stops.of_error _).bind _ _

end

end SqlTree
