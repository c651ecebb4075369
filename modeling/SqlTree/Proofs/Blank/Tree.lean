import Mathlib.Data.List.Forall2
import SqlTree.Proofs.Blank.Draft

/-!
# SqlTree.Proofs.Blank.Tree

Trees without their values.  `blank` puts null in the place of every value
and zero in the place of every count, and drops what is kept.  Nodes with
one blank differ in nothing else, so their drafts, where both have one, have
one blank as well (`Node.draft_of_blank_eq`).
-/

namespace SqlTree

/-! ## Trees without values -/

/-- Zero in the place of a count, if there is one. -/
def blankCount (count? : Option UInt64) : Option UInt64 := count?.map fun _ => 0

mutual

/-- An operand without values. -/
def Operand.blank : Operand → Operand
  | .value _ => .value .null
  | .identifier i => .identifier i
  | .literal l => .literal l
  | .expression e => .expression e.blank
  | .subquery s => .subquery s.blank

/-- A filling without values. -/
def Filling.blank : Filling → Filling
  | .value _ => .value .null
  | .identifier i => .identifier i
  | .alias a => .alias a
  | .literal l => .literal l
  | .subquery s => .subquery s.blank

/-- Slots without values. -/
def blankSlots : List Slot → List Slot
  | [] => []
  | ⟨name, filling⟩ :: slots => ⟨name, filling.blank⟩ :: blankSlots slots

/-- An expression without values. -/
def Expression.blank : Expression → Expression
  | ⟨template, slots⟩ => ⟨template, blankSlots slots⟩

/-- A predicate without values.  A list stays as long as it is, and keeps
its mark for null. -/
def Predicate.blank : Predicate → Predicate
  | .comparison left op right => .comparison left op right.blank
  | .between left negated low high => .between left negated low.blank high.blank
  | .inValues left negated values orNull =>
      .inValues left negated (values.map fun _ => .null) orNull
  | .inSelect left negated s => .inSelect left negated s.blank
  | .like left negated pattern escape => .like left negated pattern.blank escape
  | .truth left negated word => .truth left negated word
  | .existence negated s => .existence negated s.blank
  | .quantified left op quantifier s => .quantified left op quantifier s.blank
  | .literal l => .literal l
  | .expression e => .expression e.blank
  | .group g => .group g.blank

/-- Terms without values. -/
def blankTerms : List Term → List Term
  | [] => []
  | ⟨connective, p⟩ :: terms => ⟨connective, p.blank⟩ :: blankTerms terms

/-- A group without values. -/
def Group.blank : Group → Group
  | ⟨terms, default, pending, nested, _⟩ => ⟨blankTerms terms, default, pending, nested, none⟩

/-- A clause without values. -/
def Clause.blank : Clause → Clause
  | ⟨kind, none⟩ => ⟨kind, none⟩
  | ⟨kind, some g⟩ => ⟨kind, some g.blank⟩

/-- A join target without values. -/
def JoinTarget.blank : JoinTarget → JoinTarget
  | .table name => .table name
  | .subquery s => .subquery s.blank

/-- A join without values. -/
def Join.blank : Join → Join
  | ⟨kind, target, alias?, on, _⟩ => ⟨kind, target.blank, alias?, on.blank, none⟩

/-- Joins without values. -/
def blankJoins : List Join → List Join
  | [] => []
  | j :: joins => j.blank :: blankJoins joins

/-- A column source without values. -/
def ColumnSource.blank : ColumnSource → ColumnSource
  | .reference r => .reference r
  | .expression e => .expression e.blank
  | .subquery s => .subquery s.blank

/-- Columns without values. -/
def blankColumns : List Column → List Column
  | [] => []
  | ⟨source, alias?⟩ :: columns => ⟨source.blank, alias?⟩ :: blankColumns columns

/-- An origin without values. -/
def blankOrigin : Option Origin → Option Origin
  | none => none
  | some (.table name alias?) => some (.table name alias?)
  | some (.subquery s a) => some (.subquery s.blank a)

/-- A combined select without values. -/
def blankCombined : Option (SetOperation × Select) → Option (SetOperation × Select)
  | none => none
  | some (operation, s) => some (operation, s.blank)

/-- A select without values. -/
def Select.blank : Select → Select
  | ⟨distinct, columns, into?, origin?, joins, filter, groupBy, having, combined?, orderBy, limit,
      offset, nesting, pretty, _, _⟩ =>
    ⟨distinct, blankColumns columns, into?, blankOrigin origin?, blankJoins joins, filter.blank,
      groupBy, having.blank, blankCombined combined?, orderBy, blankCount limit, blankCount offset,
      nesting, pretty, none, none⟩

end

/-- An insert without values. -/
def Insert.blank (i : Insert) : Insert :=
  { i with
    rows := i.rows.map fun row => row.map Operand.blank
    source? := i.source?.map Select.blank
    cache := none }

/-- An update without values. -/
def Update.blank (u : Update) : Update :=
  { u with
    assignments := u.assignments.map fun a => ⟨a.column, a.value.blank⟩
    filter := u.filter.blank
    cache := none }

/-- A delete without values. -/
def Delete.blank (del : Delete) : Delete := { del with filter := del.filter.blank, cache := none }

/-- A node without values. -/
def Node.blank : (k : Kind) → Node k → Node k
  | .select, s => Select.blank s
  | .insert, i => Insert.blank i
  | .update, u => Update.blank u
  | .delete, del => Delete.blank del
  | .group, g => Group.blank g
  | .clause, c => Clause.blank c
  | .join, j => Join.blank j
  | .predicate, p => Predicate.blank p
  | .expression, e => Expression.blank e
  | .reference, r => r

/-! ## Plans that match -/

/-- Where the first plan is there, so is the second, and they agree in what
`f` shows of them. -/
def Matches {α β : Type} (f : α → β) (x y : Except Error α) : Prop :=
  ∀ a, x = .ok a → ∃ b, y = .ok b ∧ f b = f a

namespace Matches

variable {α β γ δ : Type} {f : α → β} {g : γ → δ} {x y : Except Error α}

theorem ok {a b : α} (h : f b = f a) : Matches f (.ok a) (.ok b) := by
  intro _ ha
  cases ha
  exact ⟨b, rfl, h⟩

theorem error {e : Error} : Matches f (.error e) y := fun _ h => nomatch h

theorem bind {F G : α → Except Error γ} (h : Matches f x y)
    (hnext : ∀ a b, f b = f a → Matches g (F a) (G b)) : Matches g (x >>= F) (y >>= G) := by
  intro c hc
  obtain ⟨a, ha, hF⟩ := exists_of_bind_eq_ok hc
  obtain ⟨b, hb, hab⟩ := h a ha
  obtain ⟨c', hc', hcc'⟩ := hnext a b hab c hF
  exact ⟨c', by rw [hb]; exact hc', hcc'⟩

theorem map {F : α → γ} (h : Matches f x y) (hF : ∀ a b, f b = f a → g (F b) = g (F a)) :
    Matches g (F <$> x) (F <$> y) := by
  simp only [map_eq_pure_bind]
  exact h.bind fun a b hab => .ok (hF a b hab)

end Matches

/-- Plans of drafts that agree but for values. -/
abbrev DraftsMatch : Except Error Draft → Except Error Draft → Prop := Matches Draft.blank

/-! ## Pages -/

/-- Zero for the counts that a page has. -/
def Page.blank (page : Page) : Page := ⟨blankCount page.limit, blankCount page.offset⟩

theorem Page.isPartial_blank (page : Page) : page.blank.isPartial = page.isPartial := by
  rcases page with ⟨_ | n, _ | m⟩ <;> rfl

theorem Constructs.innerPage_blank (k : Constructs) (page : Page) :
    k.innerPage page.blank = (k.innerPage page).blank := by
  unfold innerPage
  split <;> rfl

namespace Draft

theorem rowCount_matches (n : UInt64) {m : UInt64} (hm : (m.toNat : Int) ≤ Int64.maxValue.toInt)
    (hint : String) : DraftsMatch (rowCount n hint) (rowCount m hint) := by
  unfold rowCount
  rw [if_pos hm]
  split
  · exact .ok rfl
  · exact .error

theorem rowCount_zero_matches (n : UInt64) (hint : String) :
    DraftsMatch (rowCount n hint) (rowCount 0 hint) :=
  rowCount_matches n (by decide) hint

theorem standardPart_matches (keyword hint : String) (count? : Option UInt64) :
    Matches (List.map blank) (standardPart keyword hint count?)
      (standardPart keyword hint (blankCount count?)) := by
  cases count? with
  | none => exact .ok rfl
  | some n => exact (rowCount_zero_matches n hint).bind fun p q h => .ok (by simp [h])

theorem standardPage_matches (page : Page) :
    DraftsMatch (standardPage page) (standardPage page.blank) :=
  (standardPart_matches _ _ _).bind fun ps qs h => (standardPart_matches _ _ _).bind
    fun ps' qs' h' =>
    .ok (by simp [h, h'])

theorem limitOffsetPage_matches (unbounded : String) (page : Page) :
    DraftsMatch (limitOffsetPage unbounded page) (limitOffsetPage unbounded page.blank) := by
  rcases page with ⟨_ | n, _ | m⟩
  case none.none => exact .ok rfl
  case none.some => exact (rowCount_zero_matches m _).bind fun p q h => .ok (by simp [h])
  case some.none => exact (rowCount_zero_matches n _).bind fun p q h => .ok (by simp [h])
  case some.some =>
    exact (rowCount_zero_matches n _).bind fun p q h => (rowCount_zero_matches m _).bind
      fun p' q' h' =>
      .ok (by simp [h, h'])

theorem offsetFetchPage_matches (page : Page) (ordered : Bool) :
    DraftsMatch (offsetFetchPage page ordered) (offsetFetchPage page.blank ordered) := by
  rcases page with ⟨_ | n, _ | m⟩
  case none.none => exact .ok rfl
  case some.none => exact .ok rfl
  case none.some => exact (rowCount_zero_matches m _).bind fun p q h => .ok (by simp [h])
  case some.some =>
    exact (rowCount_zero_matches m _).bind fun p q h => (rowCount_zero_matches n _).bind
      fun p' q' h' =>
      .ok (by simp [h, h'])

theorem pageClause_matches (k : Constructs) (page : Page) (ordered : Bool) :
    DraftsMatch (pageClause k page ordered) (pageClause k page.blank ordered) := by
  unfold pageClause
  split
  · next syntaxOf _ =>
    cases syntaxOf with
    | limitOffset unbounded => exact limitOffsetPage_matches unbounded page
    | offsetFetch => exact offsetFetchPage_matches page ordered
  · split
    · exact standardPage_matches page
    · exact .error

theorem innerPageClause_matches (k : Constructs) (page : Page) (ordered : Bool) :
    DraftsMatch (innerPageClause k page ordered) (innerPageClause k page.blank ordered) := by
  unfold innerPageClause
  rw [k.innerPage_blank, Page.isPartial_blank]
  split
  · exact pageClause_matches k _ ordered
  · exact .ok rfl

theorem columnHead_matches (k : Constructs) (quantifier : Option String) (page : Page) :
    DraftsMatch (columnHead k quantifier page) (columnHead k quantifier page.blank) := by
  unfold columnHead
  split
  · rcases page with ⟨_ | n, _ | m⟩
    case some.none => exact (rowCount_zero_matches n _).bind fun p q h => .ok (by simp [h])
    all_goals exact .ok rfl
  · exact .ok rfl

/-- Numbering the rows of drafts with one blank. -/
theorem aroundSelect_matches (k : Constructs) {p q : Draft} (h : q.blank = p.blank) (page : Page) :
    DraftsMatch (aroundSelect k p page) (aroundSelect k q page.blank) := by
  unfold aroundSelect
  split
  · rcases page with ⟨_ | n, _ | m⟩
    case none.none => exact .ok h
    case none.some =>
      exact (rowCount_zero_matches m _).bind fun p' q' h' => .ok (by simp [numbered, h, h'])
    case some.none => exact (rowCount_zero_matches n _).bind fun p' q' h' => .ok (by simp [h, h'])
    case some.some =>
      have hlast := rowCount_matches (Page.lastRow n m) (m := Page.lastRow 0 0) (by decide)
      exact (hlast _).bind fun p₁ q₁ h₁ => (rowCount_zero_matches m _).bind fun p₂ q₂ h₂ =>
        .ok (by simp [numbered, h, h₁, h₂])
  · exact .ok h

end Draft

/-! ## Names -/

theorem alias?_blank (origin? : Option Origin) :
    (blankOrigin origin?).bind Origin.alias? = origin?.bind Origin.alias? := by
  rcases origin? with _ | ⟨name, alias?⟩ | ⟨s, a⟩ <;>
    simp only [blankOrigin, Option.bind_some, Origin.alias?]

theorem Join.names_blank (j : Join) : j.blank.names = j.names := by
  obtain ⟨kind, target, alias?, on, cache⟩ := j
  cases target <;> simp only [Join.blank, JoinTarget.blank, names, tableName?, aliasName?]

theorem knownNames_blank (origin? : Option Origin) (joins : List Join) :
    knownNames (blankOrigin origin?) (blankJoins joins) = knownNames origin? joins := by
  have hjoins : (blankJoins joins).flatMap Join.names = joins.flatMap Join.names := by
    induction joins with
    | nil => simp only [blankJoins]
    | cons j joins ih => simp only [blankJoins, List.flatMap_cons, Join.names_blank, ih]
  rcases origin? with _ | ⟨name, alias?⟩ | ⟨s, a⟩ <;>
    simp only [knownNames, blankOrigin, hjoins, Option.bind_some, Origin.tableName?,
      Origin.aliasName?]

theorem Select.nesting_blank (s : Select) : s.blank.nesting = s.nesting := by
  cases s
  simp only [Select.blank]

theorem Clause.isEmpty_blank (c : Clause) : c.blank.isEmpty = c.isEmpty := by
  obtain ⟨kind, _ | ⟨terms, default, pending, nested, cache⟩⟩ := c
  · simp only [Clause.blank]
  · rcases terms with _ | ⟨⟨connective, p⟩, terms⟩ <;>
      simp only [Clause.blank, Group.blank, blankTerms, isEmpty, groupOrEmpty, Option.getD_some,
        Group.isEmpty, List.isEmpty_nil, List.isEmpty_cons]

/-! ## Drafts of trees -/

/-- Slots of one template that agree but for values. -/
abbrev SlotsMatch : List (String × Except Error Draft) →
    List (String × Except Error Draft) → Prop :=
  List.Forall₂ fun slot slot' => slot.1 = slot'.1 ∧ DraftsMatch slot.2 slot'.2

/-- A placeholder is replaced alike, or stays. -/
theorem SlotsMatch.lookup {slots slots' : List (String × Except Error Draft)}
    (h : SlotsMatch slots slots') (name : String) :
    Option.Rel DraftsMatch (slots.lookup name) (slots'.lookup name) := by
  induction h with
  | nil => exact .none
  | @cons slot slot' _ _ hslot _ ih =>
    obtain ⟨name₁, plan⟩ := slot
    obtain ⟨name₂, plan'⟩ := slot'
    obtain ⟨rfl, hdraft⟩ : name₁ = name₂ ∧ DraftsMatch plan plan' := hslot
    rw [List.lookup_cons, List.lookup_cons]
    split
    · exact .some hdraft
    · exact ih

theorem piecesDraft_matches {slots slots' : List (String × Except Error Draft)}
    (h : SlotsMatch slots slots') (parts : List Piece) :
    DraftsMatch (piecesDraft slots parts) (piecesDraft slots' parts) := by
  induction parts with
  | nil => exact .ok rfl
  | cons part parts ih =>
    cases part with
    | text cs =>
      rw [piecesDraft, piecesDraft]
      exact ih.bind fun p q hpq => .ok (by simp [hpq])
    | slot name =>
      rw [piecesDraft, piecesDraft]
      have hrest {p q : Draft} (hpq : q.blank = p.blank) :
          DraftsMatch (piecesDraft slots parts >>= fun after => .ok (p ++ after))
            (piecesDraft slots' parts >>= fun after => .ok (q ++ after)) :=
        ih.bind fun p' q' hpq' => .ok (by simp [hpq, hpq'])
      have hslot := h.lookup (String.ofList name)
      generalize slots.lookup (String.ofList name) = found at hslot ⊢
      generalize slots'.lookup (String.ofList name) = found' at hslot ⊢
      cases hslot with
      | none => exact hrest rfl
      | some hdraft => exact hdraft.bind fun p q hpq => hrest hpq

section

variable (k : Constructs)

mutual

theorem Operand.draft_matches (hint : String) :
    (o : Operand) → DraftsMatch (o.draft k hint) (o.blank.draft k hint)
  | .value v => by
    simp only [Operand.blank, Operand.draft]
    exact .ok rfl
  | .identifier _ | .literal _ => by
    simp only [Operand.blank, Operand.draft]
    exact .ok rfl
  | .expression e => by simpa only [Operand.blank, Operand.draft] using e.draft_matches
  | .subquery s => by
    simp only [Operand.blank, Operand.draft]
    exact s.draft_matches.map fun p q h => by simp [h]

theorem Filling.draft_matches : (f : Filling) → DraftsMatch (f.draft k) (f.blank.draft k)
  | .value v => by
    simp only [Filling.blank, Filling.draft]
    exact .ok rfl
  | .identifier _ | .alias _ | .literal _ => by
    simp only [Filling.blank, Filling.draft]
    exact .ok rfl
  | .subquery s => by
    simp only [Filling.blank, Filling.draft]
    exact s.draft_matches.map fun p q h => by simp [h]

theorem slotDrafts_match : (slots : List Slot) → SlotsMatch (slotDrafts k slots)
    (slotDrafts k (blankSlots slots))
  | [] => by
    simp only [blankSlots, slotDrafts]
    exact List.Forall₂.nil
  | ⟨name, filling⟩ :: slots => by
    simp only [blankSlots, slotDrafts]
    exact List.Forall₂.cons ⟨rfl, filling.draft_matches⟩ (slotDrafts_match slots)

theorem Expression.draft_matches : (e : Expression) → DraftsMatch (e.draft k) (e.blank.draft k)
  | ⟨template, slots⟩ => by
    simp only [Expression.blank, Expression.draft]
    exact piecesDraft_matches (slotDrafts_match slots) (pieces template)

theorem Predicate.draft_matches : (p : Predicate) → DraftsMatch (p.draft k) (p.blank.draft k)
  | .comparison left op right => by
    simp only [Predicate.blank, Predicate.draft]
    exact (right.draft_matches op.hint).map fun p q h => by simp [Draft.comparison, h]
  | .between left negated low high => by
    simp only [Predicate.blank, Predicate.draft]
    exact (low.draft_matches _).bind fun p q h => (high.draft_matches _).bind fun p' q' h' =>
      .ok (by simp [Draft.between, h, h'])
  | .inValues left negated values orNull => by
    simp only [Predicate.blank, Predicate.draft]
    exact .ok (by simp [Function.comp_def, Binding.blank])
  | .truth .. | .literal _ => by
    simp only [Predicate.blank, Predicate.draft]
    exact .ok rfl
  | .inSelect left negated s => by
    simp only [Predicate.blank, Predicate.draft]
    exact s.draft_matches.map fun p q h => by simp [Draft.inParentheses, h]
  | .like left negated pattern escape => by
    simp only [Predicate.blank, Predicate.draft]
    exact (pattern.draft_matches _).map fun p q h => by simp [h]
  | .existence negated s => by
    simp only [Predicate.blank, Predicate.draft]
    exact s.draft_matches.map fun p q h => by simp [Draft.existence, h]
  | .quantified left op quantifier s => by
    simp only [Predicate.blank, Predicate.draft]
    exact s.draft_matches.map fun p q h => by simp [Draft.quantified, h]
  | .expression e => by simpa only [Predicate.blank, Predicate.draft] using e.draft_matches
  | .group g => by simpa only [Predicate.blank, Predicate.draft] using g.draft_matches

theorem termDrafts_match :
    (terms : List Term) → Matches Draft.blankTerms (termDrafts k terms)
    (termDrafts k (blankTerms terms))
  | [] => by
    simp only [blankTerms, termDrafts]
    exact .ok rfl
  | ⟨connective, p⟩ :: terms => by
    simp only [blankTerms, termDrafts]
    exact p.draft_matches.bind fun p q h => (termDrafts_match terms).bind fun ts ts' h' =>
      .ok (congrArg₂ (fun p ts => (connective, p) :: ts) h h')

theorem Group.draft_matches : (g : Group) → DraftsMatch (g.draft k) (g.blank.draft k)
  | ⟨terms, _, _, nested, _⟩ => by
    simp only [Group.blank, Group.draft]
    exact (termDrafts_match terms).map fun ts ts' h => by simp [h]

theorem Clause.draft_matches : (c : Clause) → DraftsMatch (c.draft k) (c.blank.draft k)
  | ⟨_, none⟩ => by
    simp only [Clause.blank, Clause.draft]
    exact .ok rfl
  | ⟨_, some g⟩ => by
    simp only [Clause.blank, Clause.draft]
    exact g.draft_matches.map fun p q h => by simp [h]

theorem JoinTarget.draft_matches : (t : JoinTarget) → DraftsMatch (t.draft k) (t.blank.draft k)
  | .table _ => by
    simp only [JoinTarget.blank, JoinTarget.draft]
    exact .ok rfl
  | .subquery s => by
    simp only [JoinTarget.blank, JoinTarget.draft]
    exact s.draft_matches.map fun p q h => by simp [h]

theorem Join.draft_matches : (j : Join) → DraftsMatch (j.draft k) (j.blank.draft k)
  | ⟨kind, target, alias?, on, _⟩ => by
    simp only [Join.blank, Join.draft]
    exact target.draft_matches.bind fun p q h => on.draft_matches.bind fun p' q' h' =>
      .ok (by simp [Draft.join, h, h'])

theorem joinDrafts_match :
    (joins : List Join) → Matches (List.map Draft.blank) (joinDrafts k joins)
    (joinDrafts k (blankJoins joins))
  | [] => by
    simp only [blankJoins, joinDrafts]
    exact .ok rfl
  | j :: joins => by
    simp only [blankJoins, joinDrafts]
    exact j.draft_matches.bind fun p q h => (joinDrafts_match joins).bind fun ps qs h' =>
      .ok (congrArg₂ List.cons h h')

theorem ColumnSource.draft_matches (star : Draft) :
    (source : ColumnSource) → DraftsMatch (source.draft k star) (source.blank.draft k star)
  | .reference r => by
    simp only [ColumnSource.blank, ColumnSource.draft]
    exact .ok rfl
  | .expression e => by simpa only [ColumnSource.blank, ColumnSource.draft] using e.draft_matches
  | .subquery s => by
    simp only [ColumnSource.blank, ColumnSource.draft]
    exact s.draft_matches.map fun p q h => by simp [h]

theorem columnDrafts_match (star : Draft) : (columns : List Column) →
    Matches (List.map Draft.blank) (columnDrafts k star columns)
      (columnDrafts k star (blankColumns columns))
  | [] => by
    simp only [blankColumns, columnDrafts]
    exact .ok rfl
  | ⟨source, alias?⟩ :: columns => by
    simp only [blankColumns, columnDrafts]
    refine Matches.bind (f := Draft.blank) ?_ fun p q h => (columnDrafts_match _ columns).bind
      fun ps qs h' =>
      .ok (congrArg₂ List.cons h h')
    exact (source.draft_matches star).map fun p q h => by simp [h]

theorem originDraft_matches (pretty : Bool) (nesting : Nat) : (origin? : Option Origin) →
    DraftsMatch (originDraft k pretty nesting origin?)
      (originDraft k pretty nesting (blankOrigin origin?))
  | none => by
    simp only [blankOrigin, originDraft]
    exact .ok rfl
  | some (.table _ _) => by
    simp only [blankOrigin, originDraft]
    exact .ok rfl
  | some (.subquery s _) => by
    simp only [blankOrigin, originDraft, s.nesting_blank]
    exact s.draft_matches.map fun p q h => by simp [h]

theorem combinedDraft_matches : (combined? : Option (SetOperation × Select)) →
    DraftsMatch (combinedDraft k combined?) (combinedDraft k (blankCombined combined?))
  | none => by
    simp only [blankCombined, combinedDraft]
    exact .ok rfl
  | some (_, s) => by
    simp only [blankCombined, combinedDraft]
    exact s.draft_matches.map fun p q h => by simp [h]

theorem Select.draft_matches : (s : Select) → DraftsMatch (s.draft k) (s.blank.draft k)
  | ⟨distinct, columns, into?, origin?, joins, filter, groupBy, having, combined?, orderBy, limit,
      offset, nesting, pretty, _, _⟩ => by
    have hstar := Draft.blank_star (origin?.bind Origin.alias?)
    have hpage : (⟨blankCount limit, blankCount offset⟩ : Page) = Page.blank ⟨limit, offset⟩ := rfl
    simp only [Select.blank, Select.draft, alias?_blank, knownNames_blank, hpage, k.innerPage_blank]
    refine (Draft.columnHead_matches k _ _).bind fun head head' hhead => ?_
    refine (columnDrafts_match _ columns).bind fun cols cols' hcols => ?_
    refine (originDraft_matches pretty nesting origin?).bind fun origin origin' horigin => ?_
    refine (joinDrafts_match joins).bind fun joined joined' hjoined => ?_
    refine filter.draft_matches.bind fun filter filter' hfilter => ?_
    refine having.draft_matches.bind fun having having' hhaving => ?_
    refine (combinedDraft_matches combined?).bind fun combined combined' hcombined => ?_
    refine (Draft.innerPageClause_matches k _ _).bind fun last last' hlast => ?_
    refine Draft.aroundSelect_matches k ?_ _
    simp only [Draft.blank_requoted, Draft.blank_select, Draft.SelectParts.blank,
      Draft.map_blank_columnsOr hstar, hhead, hcols, horigin, hjoined, hfilter, hhaving, hcombined,
      hlast]

end

end

end SqlTree
