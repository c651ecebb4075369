import SqlTree.Proofs.Combined.Scope
import SqlTree.Proofs.Layout.Draft
import SqlTree.Proofs.Paging.Parts

/-!
# SqlTree.Proofs.Layout.Tree

Trees on one line.  `flat` takes the wish for layout out of every select of a
tree, and drops what is kept.  A tree and the flat one have drafts that are
laid out alike, or fail with the same error (`Select.draft_alike`): only a
subquery that rows come from is spread over lines, and it begins with its
keyword whatever page of it is asked for (`Select.draft_opens`).
-/

namespace SqlTree

/-! ## Flat trees -/

mutual

/-- An operand on one line. -/
def Operand.flat : Operand → Operand
  | .value v => .value v
  | .identifier i => .identifier i
  | .literal l => .literal l
  | .expression e => .expression e.flat
  | .subquery s => .subquery s.flat

/-- A filling on one line. -/
def Filling.flat : Filling → Filling
  | .value v => .value v
  | .identifier i => .identifier i
  | .alias a => .alias a
  | .literal l => .literal l
  | .subquery s => .subquery s.flat

/-- Slots on one line. -/
def flatSlots : List Slot → List Slot
  | [] => []
  | ⟨name, filling⟩ :: slots => ⟨name, filling.flat⟩ :: flatSlots slots

/-- An expression on one line. -/
def Expression.flat : Expression → Expression
  | ⟨template, slots⟩ => ⟨template, flatSlots slots⟩

/-- A predicate on one line. -/
def Predicate.flat : Predicate → Predicate
  | .comparison left op right => .comparison left op right.flat
  | .between left negated low high => .between left negated low.flat high.flat
  | .inValues left negated values orNull => .inValues left negated values orNull
  | .inSelect left negated s => .inSelect left negated s.flat
  | .like left negated pattern escape => .like left negated pattern.flat escape
  | .truth left negated word => .truth left negated word
  | .existence negated s => .existence negated s.flat
  | .quantified left op quantifier s => .quantified left op quantifier s.flat
  | .literal l => .literal l
  | .expression e => .expression e.flat
  | .group g => .group g.flat

/-- Terms on one line. -/
def flatTerms : List Term → List Term
  | [] => []
  | ⟨connective, p⟩ :: terms => ⟨connective, p.flat⟩ :: flatTerms terms

/-- A group on one line. -/
def Group.flat : Group → Group
  | ⟨terms, default, pending, nested, _⟩ => ⟨flatTerms terms, default, pending, nested, none⟩

/-- A clause on one line. -/
def Clause.flat : Clause → Clause
  | ⟨kind, none⟩ => ⟨kind, none⟩
  | ⟨kind, some g⟩ => ⟨kind, some g.flat⟩

/-- A join target on one line. -/
def JoinTarget.flat : JoinTarget → JoinTarget
  | .table name => .table name
  | .subquery s => .subquery s.flat

/-- A join on one line. -/
def Join.flat : Join → Join
  | ⟨kind, target, alias?, on, _⟩ => ⟨kind, target.flat, alias?, on.flat, none⟩

/-- Joins on one line. -/
def flatJoins : List Join → List Join
  | [] => []
  | j :: joins => j.flat :: flatJoins joins

/-- A column source on one line. -/
def ColumnSource.flat : ColumnSource → ColumnSource
  | .reference r => .reference r
  | .expression e => .expression e.flat
  | .subquery s => .subquery s.flat

/-- Columns on one line. -/
def flatColumns : List Column → List Column
  | [] => []
  | ⟨source, alias?⟩ :: columns => ⟨source.flat, alias?⟩ :: flatColumns columns

/-- An origin on one line. -/
def flatOrigin : Option Origin → Option Origin
  | none => none
  | some (.table name alias?) => some (.table name alias?)
  | some (.subquery s a) => some (.subquery s.flat a)

/-- A combined select on one line. -/
def flatCombined : Option (SetOperation × Select) → Option (SetOperation × Select)
  | none => none
  | some (operation, s) => some (operation, s.flat)

/-- A select on one line: it and all selects in it are not to look pretty,
and nothing is kept. -/
def Select.flat : Select → Select
  | ⟨distinct, columns, into?, origin?, joins, filter, groupBy, having, combined?, orderBy, limit,
      offset, nesting, _, _, _⟩ =>
    ⟨distinct, flatColumns columns, into?, flatOrigin origin?, flatJoins joins, filter.flat,
      groupBy, having.flat, flatCombined combined?, orderBy, limit, offset, nesting, false, none,
      none⟩

end

/-! ## Names -/

theorem alias?_flat (origin? : Option Origin) :
    (flatOrigin origin?).bind Origin.alias? = origin?.bind Origin.alias? := by
  rcases origin? with _ | ⟨name, alias?⟩ | ⟨s, a⟩ <;>
    simp only [flatOrigin, Option.bind_some, Origin.alias?]

theorem Join.names_flat (j : Join) : j.flat.names = j.names := by
  obtain ⟨kind, target, alias?, on, cache⟩ := j
  cases target <;> simp only [Join.flat, JoinTarget.flat, names, tableName?, aliasName?]

theorem knownNames_flat (origin? : Option Origin) (joins : List Join) :
    knownNames (flatOrigin origin?) (flatJoins joins) = knownNames origin? joins := by
  have hjoins : (flatJoins joins).flatMap Join.names = joins.flatMap Join.names := by
    induction joins with
    | nil => simp only [flatJoins]
    | cons j joins ih => simp only [flatJoins, List.flatMap_cons, Join.names_flat, ih]
  rcases origin? with _ | ⟨name, alias?⟩ | ⟨s, a⟩ <;>
    simp only [knownNames, flatOrigin, hjoins, Option.bind_some, Origin.tableName?,
      Origin.aliasName?]

/-! ## Drafts -/

/-- However its page is cut, a select begins with its keyword. -/
theorem Select.draft_opens (d : Dialect) (k : Constructs) (s : Select) :
    Yields (Draft.OpensSelect d) (s.draft k) := by
  intro p hp
  obtain ⟨parts, hmade, haround⟩ := exists_madeOf hp
  by_cases h : (k.rowNumbers && s.page.isPartial) = true
  · obtain ⟨hrow, hpage⟩ := Bool.and_eq_true_iff.1 h
    rw [Draft.aroundSelect, if_pos hrow] at haround
    exact fun c => Draft.numberRows_begins hpage p haround d c
  · rw [Draft.aroundSelect_eq_ok h] at haround
    rw [← Except.ok.inj haround]
    intro c
    let rest := (parts.head ++ Draft.body parts).text d c
    have hdot : '.' ∉ "SELECT".toList := by decide
    obtain ⟨rest', hrest⟩ := d.exists_quotePrefixes_start s.blank_not_mem_names hdot rest
    exact ⟨rest', hrest⟩

/-- Drafts laid out alike, or the same error. -/
abbrev DraftsAlike (d : Dialect) : Except Error Draft → Except Error Draft → Prop :=
  Alike (Draft.LaidOut d)

/-- Lists of such drafts. -/
abbrev ListsAlike (d : Dialect) : Except Error (List Draft) → Except Error (List Draft) → Prop :=
  Alike (List.Forall₂ (Draft.LaidOut d))

/-- Slots of one template with such drafts. -/
abbrev SlotsAlike (d : Dialect) : List (String × Except Error Draft) →
    List (String × Except Error Draft) → Prop :=
  List.Forall₂ fun slot slot' => slot.1 = slot'.1 ∧ DraftsAlike d slot.2 slot'.2

variable {d : Dialect}

/-- A placeholder is replaced alike, or stays. -/
theorem SlotsAlike.lookup {slots slots' : List (String × Except Error Draft)}
    (h : SlotsAlike d slots slots') (name : String) :
    Option.Rel (DraftsAlike d) (slots.lookup name) (slots'.lookup name) := by
  induction h with
  | nil => exact .none
  | @cons slot slot' _ _ hslot _ ih =>
    obtain ⟨name₁, plan⟩ := slot
    obtain ⟨name₂, plan'⟩ := slot'
    obtain ⟨rfl, hdraft⟩ : name₁ = name₂ ∧ DraftsAlike d plan plan' := hslot
    rw [List.lookup_cons, List.lookup_cons]
    split
    · exact .some hdraft
    · exact ih

theorem piecesDraft_alike {slots slots' : List (String × Except Error Draft)}
    (h : SlotsAlike d slots slots') (parts : List Piece) :
    DraftsAlike d (piecesDraft slots parts) (piecesDraft slots' parts) := by
  induction parts with
  | nil => exact .ok (.refl _)
  | cons part parts ih =>
    cases part with
    | text cs => exact ih.bind fun p q hpq => .ok (hpq.behind _)
    | slot name =>
      have hrest {p q : Draft} (hpq : p.LaidOut d q) :
          DraftsAlike d (piecesDraft slots parts >>= fun after => .ok (p ++ after))
            (piecesDraft slots' parts >>= fun after => .ok (q ++ after)) :=
        ih.bind fun p' q' hpq' => .ok (hpq.append hpq')
      have hslot := h.lookup (String.ofList name)
      rw [piecesDraft, piecesDraft]
      generalize slots.lookup (String.ofList name) = found at hslot ⊢
      generalize slots'.lookup (String.ofList name) = found' at hslot ⊢
      cases hslot with
      | none => exact hrest (.refl _)
      | some hdraft => exact hdraft.bind fun p q hpq => hrest hpq

section

variable (k : Constructs) (hd : d.QuotesInLine)
include hd

-- only selects use `hd` themselves, the others hand it down to them
set_option linter.unusedSectionVars false in
mutual

theorem Operand.draft_alike (hint : String) :
    (o : Operand) → DraftsAlike d (o.draft k hint) (o.flat.draft k hint)
  | .value _ | .identifier _ | .literal _ => by
    simp only [Operand.flat, Operand.draft]
    exact .ok (.refl _)
  | .expression e => by simpa only [Operand.flat, Operand.draft] using e.draft_alike
  | .subquery s => by
    simp only [Operand.flat, Operand.draft]
    exact s.draft_alike.map fun p q h => h.enclosed

theorem Filling.draft_alike : (f : Filling) → DraftsAlike d (f.draft k) (f.flat.draft k)
  | .value _ | .identifier _ | .alias _ | .literal _ => by
    simp only [Filling.flat, Filling.draft]
    exact .ok (.refl _)
  | .subquery s => by
    simp only [Filling.flat, Filling.draft]
    exact s.draft_alike.map fun p q h => h.enclosed

theorem slotDrafts_alike :
    (slots : List Slot) → SlotsAlike d (slotDrafts k slots) (slotDrafts k (flatSlots slots))
  | [] => by
    simp only [flatSlots, slotDrafts]
    exact List.Forall₂.nil
  | ⟨name, filling⟩ :: slots => by
    simp only [flatSlots, slotDrafts]
    exact List.Forall₂.cons ⟨rfl, filling.draft_alike⟩ (slotDrafts_alike slots)

theorem Expression.draft_alike : (e : Expression) → DraftsAlike d (e.draft k) (e.flat.draft k)
  | ⟨template, slots⟩ => by
    simp only [Expression.flat, Expression.draft]
    exact piecesDraft_alike (slotDrafts_alike slots) (pieces template)

theorem Predicate.draft_alike : (p : Predicate) → DraftsAlike d (p.draft k) (p.flat.draft k)
  | .comparison left op right => by
    simp only [Predicate.flat, Predicate.draft]
    exact (right.draft_alike op.hint).map fun p q h => .behind _ (.behind _ h)
  | .between left negated low high => by
    simp only [Predicate.flat, Predicate.draft]
    exact (low.draft_alike _).bind fun p q h => (high.draft_alike _).bind fun p' q' h' =>
      .ok (.behind _ (.behind _ (h.append (.behind _ h'))))
  | .inValues .. | .truth .. | .literal _ => by
    simp only [Predicate.flat]
    exact .refl .refl _
  | .inSelect left negated s => by
    simp only [Predicate.flat, Predicate.draft]
    exact s.draft_alike.map fun p q h => .behind _ (.behind _ h.enclosed)
  | .like left negated pattern escape => by
    simp only [Predicate.flat, Predicate.draft]
    exact (pattern.draft_alike _).map fun p q h => .behind _ (.behind _ (h.before _))
  | .existence negated s => by
    simp only [Predicate.flat, Predicate.draft]
    exact s.draft_alike.map fun p q h => .behind _ h.enclosed
  | .quantified left op quantifier s => by
    simp only [Predicate.flat, Predicate.draft]
    exact s.draft_alike.map fun p q h => .behind _ (.behind _ h.enclosed)
  | .expression e => by simpa only [Predicate.flat, Predicate.draft] using e.draft_alike
  | .group g => by simpa only [Predicate.flat, Predicate.draft] using g.draft_alike

theorem termDrafts_alike : (terms : List Term) →
    Alike (Draft.LaidOut.Terms d) (termDrafts k terms) (termDrafts k (flatTerms terms))
  | [] => by
    simp only [flatTerms, termDrafts]
    exact .ok .nil
  | ⟨connective, p⟩ :: terms => by
    simp only [flatTerms, termDrafts]
    exact p.draft_alike.bind fun p q h => (termDrafts_alike terms).bind fun ts ts' h' =>
      .ok (.cons ⟨rfl, h⟩ h')

theorem Group.draft_alike : (g : Group) → DraftsAlike d (g.draft k) (g.flat.draft k)
  | ⟨terms, _, _, nested, _⟩ => by
    simp only [Group.flat, Group.draft]
    exact (termDrafts_alike terms).map fun ts ts' h => .group nested h

theorem Clause.draft_alike : (c : Clause) → DraftsAlike d (c.draft k) (c.flat.draft k)
  | ⟨_, none⟩ => by
    simp only [Clause.flat, Clause.draft]
    exact .ok (.refl _)
  | ⟨kind, some g⟩ => by
    simp only [Clause.flat, Clause.draft]
    exact g.draft_alike.map fun p q h => h.clause kind

theorem JoinTarget.draft_alike : (t : JoinTarget) → DraftsAlike d (t.draft k) (t.flat.draft k)
  | .table _ => by
    simp only [JoinTarget.flat, JoinTarget.draft]
    exact .ok (.refl _)
  | .subquery s => by
    simp only [JoinTarget.flat, JoinTarget.draft]
    exact s.draft_alike.map fun p q h => h.enclosed

theorem Join.draft_alike : (j : Join) → DraftsAlike d (j.draft k) (j.flat.draft k)
  | ⟨kind, target, alias?, on, _⟩ => by
    simp only [Join.flat, Join.draft]
    exact target.draft_alike.bind fun p q h => on.draft_alike.bind fun p' q' h' =>
      .ok (.behind _ (h.append (.behind _ h'.spaced)))

theorem joinDrafts_alike :
    (joins : List Join) → ListsAlike d (joinDrafts k joins) (joinDrafts k (flatJoins joins))
  | [] => by
    simp only [flatJoins, joinDrafts]
    exact .ok .nil
  | j :: joins => by
    simp only [flatJoins, joinDrafts]
    exact j.draft_alike.bind fun p q h => (joinDrafts_alike joins).bind fun ps qs h' =>
      .ok (.cons h h')

theorem ColumnSource.draft_alike (star : Draft) : (source : ColumnSource) →
    DraftsAlike d (source.draft k star) (source.flat.draft k star)
  | .reference _ => by
    simp only [ColumnSource.flat, ColumnSource.draft]
    exact .ok (.refl _)
  | .expression e => by simpa only [ColumnSource.flat, ColumnSource.draft] using e.draft_alike
  | .subquery s => by
    simp only [ColumnSource.flat, ColumnSource.draft]
    exact s.draft_alike.map fun p q h => h.enclosed

theorem columnDrafts_alike (star : Draft) : (columns : List Column) →
    ListsAlike d (columnDrafts k star columns) (columnDrafts k star (flatColumns columns))
  | [] => by
    simp only [flatColumns, columnDrafts]
    exact .ok .nil
  | ⟨source, alias?⟩ :: columns => by
    simp only [flatColumns, columnDrafts]
    have hsource : DraftsAlike d (Draft.column alias? <$> source.draft k star)
        (Draft.column alias? <$> source.flat.draft k star) :=
      (source.draft_alike star).map fun p q h => h.column alias?
    exact hsource.bind fun p q h => (columnDrafts_alike star columns).bind fun ps qs h' =>
      .ok (.cons h h')

theorem originDraft_alike (pretty : Bool) (nesting : Nat) : (origin? : Option Origin) →
    DraftsAlike d (originDraft k pretty nesting origin?)
      (originDraft k false nesting (flatOrigin origin?))
  | none => by
    simp only [flatOrigin, originDraft]
    exact .ok (.refl _)
  | some (.table _ _) => by
    simp only [flatOrigin, originDraft]
    exact .ok (.refl _)
  | some (.subquery s a) => by
    simp only [flatOrigin, originDraft]
    have hopens := s.draft_alike.and_yields (s.draft_opens d k) (s.flat.draft_opens d k)
    exact hopens.map fun p q h => h.1.subqueryOrigin h.2.1 h.2.2 pretty _ _ _ _ a

theorem combinedDraft_alike : (combined? : Option (SetOperation × Select)) →
    DraftsAlike d (combinedDraft k combined?) (combinedDraft k (flatCombined combined?))
  | none => by
    simp only [flatCombined, combinedDraft]
    exact .ok (.refl _)
  | some (_, s) => by
    simp only [flatCombined, combinedDraft]
    exact s.draft_alike.map fun p q h => .behind _ h

theorem Select.draft_alike : (s : Select) → DraftsAlike d (s.draft k) (s.flat.draft k)
  | ⟨distinct, columns, into?, origin?, joins, filter, groupBy, having, combined?, orderBy, limit,
      offset, nesting, pretty, _, _⟩ => by
    have hnames := isName_knownNames origin? joins
    simp only [Select.flat, Select.draft, alias?_flat, knownNames_flat]
    refine .bind_same fun head => ?_
    refine (columnDrafts_alike _ columns).bind fun cols cols' hcols => ?_
    refine (originDraft_alike pretty nesting origin?).bind fun origin origin' horigin => ?_
    refine (joinDrafts_alike joins).bind fun joined joined' hjoined => ?_
    refine filter.draft_alike.bind fun filter filter' hfilter => ?_
    refine having.draft_alike.bind fun having having' hhaving => ?_
    refine (combinedDraft_alike combined?).bind fun combined combined' hcombined => ?_
    refine .bind_same fun last => ?_
    refine Draft.LaidOut.aroundSelect k (.requoted hd hnames ?_) _
    exact .select (Draft.LaidOut.columnsOr _ hcols) horigin hjoined hfilter hhaving hcombined

end

end

end SqlTree
