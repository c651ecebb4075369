import SqlTree.Proofs.Combined.Shape

/-!
# SqlTree.Proofs.Combined.Core

What a select is made of up to `HAVING` is quiet, and all of it is closed
(`Select.parts_settled`), as long as its raw SQL keeps to itself
(`RawSql.KeepsToItself`).  A template may leave parentheses open between its
placeholders, if they are closed in what comes of it.
-/

namespace SqlTree

variable {d : Dialect}

/-! ## Raw SQL -/

/-- The text may stand in place of the part of a template. -/
def Piece.Fills (d : Dialect) : Piece → List Char → Prop
  | .text cs, out => out = cs
  | .slot name, out => QuietText d out ∨ out = (Piece.slot name).source

/-- The raw SQL closes its parentheses and quotes and says nothing about
several selects outside of them, a template with anything of that kind in its
placeholders. -/
def RawSql.KeepsToItself (d : Dialect) : RawSql → Prop
  | .literal l => QuietText d l.text.toList
  | .template text =>
    ∀ outs, List.Forall₂ (Piece.Fills d) (pieces text) outs → QuietText d outs.flatten

/-- A function that is called on a placeholder keeps to itself. -/
theorem RawSql.KeepsToItself.call (hd : d.QuotesStandOut) {template : String}
    {name slot : List Char}
    (hpieces : pieces template = [.text (name ++ ['(']), .slot slot, .text [')']])
    (hname : name.all isWordChar = true) (hslot : Balanced d (Piece.slot slot).source) :
    (RawSql.template template).KeepsToItself d := by
  intro outs houts
  rw [hpieces] at houts
  obtain _ | ⟨hbefore, _ | ⟨harg, _ | ⟨hafter, _ | _⟩⟩⟩ := houts
  obtain rfl := hbefore
  obtain rfl := hafter
  have hword : ∀ c ∈ name, isSyntax c = true ∧ c ≠ '(' ∧ c ≠ ')' ∧ isBlank c = false :=
    fun c hc => isSyntax_of_isWordChar (List.all_eq_true.1 hname c hc)
  have hbalanced : Balanced d name :=
    .of_isSyntax hd fun c hc => ⟨(hword c hc).1, (hword c hc).2.1, (hword c hc).2.2.1⟩
  rename_i arg
  have harg : Balanced d arg := by
    obtain hquiet | rfl := harg
    · exact hquiet.balanced
    · exact hslot
  have htext : [name ++ ['('], arg, [')']].flatten = name ++ '(' :: (arg ++ [')']) := by simp
  rw [htext]
  exact .of_unbroken (hbalanced.append harg.parenthesised)
    ((Unbroken.of_isSyntax hd hword).append (.enclosed hd harg)) ⟨'(', by simp, by decide⟩

/-! ## Trees -/

theorem Reference.draft_quiet (hd : d.QuotesStandOut) {r : Reference}
    (h : ∀ raw ∈ r.raws, raw.KeepsToItself d) : (Draft.ofReference r).Quiet d := by
  cases r with
  | identifier i => exact .identifier hd i
  | «alias» a => exact .label hd a
  | literal l => exact fun _ => h (.literal l) (List.mem_singleton_self _)

/-- Each part of a template becomes a text that may stand in its place. -/
theorem piecesDraft_fills {slots : List (String × Except Error Draft)}
    (hslots : ∀ slot ∈ slots, Yields (Draft.Quiet d) slot.2) (parts : List Piece) :
    Yields (fun p => ∀ c, ∃ outs, List.Forall₂ (Piece.Fills d) parts outs ∧
      (p.text d c).toList = outs.flatten) (piecesDraft slots parts) := by
  induction parts with
  | nil => exact .ok fun _ => ⟨[], .nil, rfl⟩
  | cons part parts ih =>
    cases part with
    | text cs =>
      rw [piecesDraft]
      refine ih.bind fun p hp => .ok fun c => ?_
      obtain ⟨outs, houts, htext⟩ := hp c
      refine ⟨cs :: outs, .cons rfl houts, ?_⟩
      rw [List.flatten_cons, ← htext]
      simp
    | slot name =>
      have hafter {p : Draft} (hp : ∀ c, Piece.Fills d (.slot name) (p.text d c).toList) :
          Yields (fun q => ∀ c, ∃ outs, List.Forall₂ (Piece.Fills d) (.slot name :: parts) outs ∧
            (q.text d c).toList = outs.flatten)
            (piecesDraft slots parts >>= fun after => .ok (p ++ after)) := by
        refine ih.bind fun q hq => .ok fun c => ?_
        obtain ⟨outs, houts, htext⟩ := hq (p.after c)
        refine ⟨(p.text d c).toList :: outs, .cons (hp c) houts, ?_⟩
        rw [Draft.text_append, String.toList_append, htext, List.flatten_cons]
      rw [piecesDraft]
      split
      · next plan hplan =>
        obtain ⟨before, after, hslot, -⟩ := List.lookup_eq_some_iff.1 hplan
        exact Yields.bind (hslots (_, plan)
          (hslot ▸ List.mem_append_right before List.mem_cons_self))
          fun p hp => hafter fun c => .inl (hp c)
      · exact hafter fun c => .inr String.toList_ofList

section

variable (hd : d.QuotesStandOut) {k : Constructs} (hk : k.Plain)
include hd

omit hd in
theorem Select.isName_names (s : Select) : ∀ name ∈ s.names, isName name = true :=
  isName_knownNames s.origin? s.joins

/-- A select is closed if its parts are settled. -/
theorem Select.draft_closed_of {s : Select}
    (h : ∀ parts, s.MadeOf k parts → parts.Settled d) : Yields (Draft.Closed d) (s.draft k) := by
  intro p hp
  obtain ⟨parts, hmade, haround⟩ := exists_madeOf hp
  have hclosed := ((h parts hmade).closed hd).requoted hd s.isName_names
  exact Draft.aroundSelect_closed hd k hclosed _ p haround

include hk

-- only selects use it themselves, the others hand it down to them
set_option linter.unusedSectionVars false in
mutual

theorem Operand.draft_quiet (hint : String) : (o : Operand) →
    (∀ raw ∈ o.raws, raw.KeepsToItself d) → Yields (Draft.Quiet d) (o.draft k hint)
  | .value v, _ => by
    rw [Operand.draft]
    exact .ok (.value hd _)
  | .identifier i, _ => by
    rw [Operand.draft]
    exact .ok (.identifier hd i)
  | .literal l, h => by
    rw [Operand.raws] at h
    rw [Operand.draft]
    exact .ok fun _ => h (.literal l) (List.mem_singleton_self _)
  | .expression e, h => by
    rw [Operand.raws] at h
    rw [Operand.draft]
    exact e.draft_quiet h
  | .subquery s, h => by
    rw [Operand.raws] at h
    rw [Operand.draft]
    exact (Select.draft_closed_of hd (s.parts_settled h)).map fun _ hp => .enclosed hd hp

theorem Filling.draft_quiet : (f : Filling) →
    (∀ raw ∈ f.raws, raw.KeepsToItself d) → Yields (Draft.Quiet d) (f.draft k)
  | .value v, _ => by
    rw [Filling.draft]
    exact .ok (.value hd _)
  | .identifier i, _ => by
    rw [Filling.draft]
    exact .ok (.identifier hd i)
  | .alias a, _ => by
    rw [Filling.draft]
    exact .ok (.label hd a)
  | .literal l, h => by
    rw [Filling.raws] at h
    rw [Filling.draft]
    exact .ok fun _ => h (.literal l) (List.mem_singleton_self _)
  | .subquery s, h => by
    rw [Filling.raws] at h
    rw [Filling.draft]
    exact (Select.draft_closed_of hd (s.parts_settled h)).map fun _ hp => .enclosed hd hp

theorem slotDrafts_quiet : (slots : List Slot) →
    (∀ raw ∈ slotRaws slots, raw.KeepsToItself d) →
    ∀ slot ∈ slotDrafts k slots, Yields (Draft.Quiet d) slot.2
  | [], _ => by
    rw [slotDrafts]
    exact fun _ hslot => nomatch hslot
  | ⟨name, filling⟩ :: slots, h => by
    rw [slotRaws, List.forall_mem_append] at h
    rw [slotDrafts, List.forall_mem_cons]
    exact ⟨filling.draft_quiet h.1, slotDrafts_quiet slots h.2⟩

theorem Expression.draft_quiet : (e : Expression) →
    (∀ raw ∈ e.raws, raw.KeepsToItself d) → Yields (Draft.Quiet d) (e.draft k)
  | ⟨template, slots⟩, h => by
    rw [Expression.raws, List.forall_mem_cons] at h
    obtain ⟨htemplate, hslots⟩ := h
    rw [Expression.draft]
    intro p hp c
    obtain ⟨outs, houts, htext⟩ := piecesDraft_fills (slotDrafts_quiet slots hslots) _ p hp c
    rw [htext]
    exact htemplate outs houts

theorem Predicate.draft_quiet :
    (p : Predicate) → (∀ raw ∈ p.raws, raw.KeepsToItself d) → Yields (Draft.Quiet d) (p.draft k)
  | .comparison left op right, h => by
    rw [Predicate.raws, List.forall_mem_append] at h
    rw [Predicate.draft]
    exact (right.draft_quiet op.hint h.2).map fun _ hp =>
      .comparison hd (left.draft_quiet hd h.1) op hp
  | .between left negated low high, h => by
    rw [Predicate.raws, List.forall_mem_append, List.forall_mem_append] at h
    obtain ⟨hleft, hlow, hhigh⟩ := h
    rw [Predicate.draft]
    exact (low.draft_quiet _ hlow).bind fun _ hp => (high.draft_quiet _ hhigh).bind fun _ hq =>
      .ok (.between hd (left.draft_quiet hd hleft) negated hp hq)
  | .inValues left negated values orNull, h => by
    rw [Predicate.raws] at h
    rw [Predicate.draft]
    exact .ok (.inList hd (left.draft_quiet hd h) negated
      (List.forall_mem_map.2 fun _ _ => .value hd _) orNull)
  | .inSelect left negated s, h => by
    rw [Predicate.raws, List.forall_mem_append] at h
    rw [Predicate.draft]
    exact (Select.draft_closed_of hd (s.parts_settled h.2)).map fun _ hp =>
      .inParentheses hd (left.draft_quiet hd h.1) negated hp
  | .like left negated pattern escape, h => by
    rw [Predicate.raws, List.forall_mem_append] at h
    rw [Predicate.draft]
    exact (pattern.draft_quiet _ h.2).map fun _ hp =>
      .like hd (left.draft_quiet hd h.1) negated hp escape
  | .truth left negated word, h => by
    rw [Predicate.raws] at h
    rw [Predicate.draft]
    exact .ok (.truth hd (left.draft_quiet hd h) negated word)
  | .existence negated s, h => by
    rw [Predicate.raws] at h
    rw [Predicate.draft]
    exact (Select.draft_closed_of hd (s.parts_settled h)).map fun _ hp =>
      .existence hd negated hp
  | .quantified left op quantifier s, h => by
    rw [Predicate.raws, List.forall_mem_append] at h
    rw [Predicate.draft]
    exact (Select.draft_closed_of hd (s.parts_settled h.2)).map fun _ hp =>
      .quantified hd (left.draft_quiet hd h.1) op quantifier hp
  | .literal l, h => by
    rw [Predicate.raws] at h
    rw [Predicate.draft]
    exact .ok fun _ => h (.literal l) (List.mem_singleton_self _)
  | .expression e, h => by
    rw [Predicate.raws] at h
    rw [Predicate.draft]
    exact e.draft_quiet h
  | .group g, h => by
    rw [Predicate.raws] at h
    rw [Predicate.draft]
    exact g.draft_quiet h

theorem termDrafts_quiet :
    (terms : List Term) → (∀ raw ∈ termRaws terms, raw.KeepsToItself d) →
    Yields (fun ts => ∀ t ∈ ts, t.2.Quiet d) (termDrafts k terms)
  | [], _ => by
    rw [termDrafts]
    exact .ok (by simp)
  | ⟨connective, p⟩ :: terms, h => by
    rw [termRaws, List.forall_mem_append] at h
    rw [termDrafts]
    exact (p.draft_quiet h.1).bind fun _ hp => (termDrafts_quiet terms h.2).bind fun _ hts =>
      .ok (List.forall_mem_cons.2 ⟨hp, hts⟩)

theorem Group.draft_quiet :
    (g : Group) → (∀ raw ∈ g.raws, raw.KeepsToItself d) → Yields (Draft.Quiet d) (g.draft k)
  | ⟨terms, _, _, nested, _⟩, h => by
    rw [Group.raws] at h
    rw [Group.draft]
    exact (termDrafts_quiet terms h).map fun _ hts => .group hd nested hts

theorem Clause.draft_quiet :
    (c : Clause) → (∀ raw ∈ c.raws, raw.KeepsToItself d) → Yields (Draft.Quiet d) (c.draft k)
  | ⟨_, none⟩, _ => by
    rw [Clause.draft]
    exact .ok (.code hd (by decide))
  | ⟨kind, some g⟩, h => by
    rw [Clause.raws] at h
    rw [Clause.draft]
    exact (g.draft_quiet h).map fun _ hp => .clause hd kind hp

theorem JoinTarget.draft_quiet : (t : JoinTarget) →
    (∀ raw ∈ t.raws, raw.KeepsToItself d) → Yields (Draft.Quiet d) (t.draft k)
  | .table name, _ => by
    rw [JoinTarget.draft]
    exact .ok (.identifier hd name)
  | .subquery s, h => by
    rw [JoinTarget.raws] at h
    rw [JoinTarget.draft]
    exact (Select.draft_closed_of hd (s.parts_settled h)).map fun _ hp => .enclosed hd hp

theorem Join.draft_quiet :
    (j : Join) → (∀ raw ∈ j.raws, raw.KeepsToItself d) → Yields (Draft.Quiet d) (j.draft k)
  | ⟨kind, target, alias?, on, _⟩, h => by
    rw [Join.raws, List.forall_mem_append] at h
    rw [Join.draft]
    exact (target.draft_quiet h.1).bind fun _ hp => (on.draft_quiet h.2).bind fun _ hq =>
      .ok (.join hd kind hp alias? hq)

theorem joinDrafts_quiet : (joins : List Join) →
    (∀ raw ∈ joinRaws joins, raw.KeepsToItself d) →
    Yields (fun ps => ∀ p ∈ ps, p.Quiet d) (joinDrafts k joins)
  | [], _ => by
    rw [joinDrafts]
    exact .ok (by simp)
  | j :: joins, h => by
    rw [joinRaws, List.forall_mem_append] at h
    rw [joinDrafts]
    exact (j.draft_quiet h.1).bind fun _ hp => (joinDrafts_quiet joins h.2).bind fun _ hps =>
      .ok (List.forall_mem_cons.2 ⟨hp, hps⟩)

theorem ColumnSource.draft_quiet {star : Draft} (hstar : star.Quiet d) :
    (source : ColumnSource) → (∀ raw ∈ source.raws, raw.KeepsToItself d) →
    Yields (Draft.Quiet d) (source.draft k star)
  | .reference r, h => by
    rw [ColumnSource.raws] at h
    rw [ColumnSource.draft]
    exact .ok (.referenceColumn hstar (r.draft_quiet hd h))
  | .expression e, h => by
    rw [ColumnSource.raws] at h
    rw [ColumnSource.draft]
    exact e.draft_quiet h
  | .subquery s, h => by
    rw [ColumnSource.raws] at h
    rw [ColumnSource.draft]
    exact (Select.draft_closed_of hd (s.parts_settled h)).map fun _ hp => .enclosed hd hp

theorem columnDrafts_quiet {star : Draft} (hstar : star.Quiet d) : (columns : List Column) →
    (∀ raw ∈ columnRaws columns, raw.KeepsToItself d) →
    Yields (fun ps => ∀ p ∈ ps, p.Quiet d) (columnDrafts k star columns)
  | [], _ => by
    rw [columnDrafts]
    exact .ok (by simp)
  | ⟨source, alias?⟩ :: columns, h => by
    rw [columnRaws, List.forall_mem_append] at h
    rw [columnDrafts]
    have hcolumn := (source.draft_quiet hstar h.1).map fun _ hp => Draft.Quiet.column hd alias? hp
    exact hcolumn.bind fun _ hp => (columnDrafts_quiet hstar columns h.2).bind fun _ hps =>
      .ok (List.forall_mem_cons.2 ⟨hp, hps⟩)

theorem originDraft_trailing (pretty : Bool) (nesting : Nat) : (origin? : Option Origin) →
    (∀ raw ∈ originRaws origin?, raw.KeepsToItself d) →
    Yields (Draft.Trailing d) (originDraft k pretty nesting origin?)
  | none, _ => by
    rw [originDraft]
    exact .ok .nil
  | some (.table name alias?), _ => by
    rw [originDraft]
    exact .ok (.tableOrigin hd name alias?)
  | some (.subquery s a), h => by
    rw [originRaws] at h
    rw [originDraft]
    exact (Select.draft_closed_of hd (s.parts_settled h)).map fun _ hp =>
      .subqueryOrigin hd pretty nesting _ a hp

theorem combinedDraft_closed : (combined? : Option (SetOperation × Select)) →
    (∀ raw ∈ combinedRaws combined?, raw.KeepsToItself d) →
    Yields (Draft.Closed d) (combinedDraft k combined?)
  | none, _ => by
    rw [combinedDraft]
    exact .ok (.code hd (by decide))
  | some (op, s), h => by
    rw [combinedRaws] at h
    rw [combinedDraft]
    exact (Select.draft_closed_of hd (s.parts_settled h)).map fun _ hp =>
      (Draft.Closed.code hd (by cases op <;> decide)).append hp

/-- The parts of a select are quiet up to `HAVING`, and closed. -/
theorem Select.parts_settled : (s : Select) → (∀ raw ∈ s.raws, raw.KeepsToItself d) →
    ∀ parts, s.MadeOf k parts → parts.Settled d
  | ⟨distinct, columns, into?, origin?, joins, filter, groupBy, having, combined?, orderBy, limit,
      offset, nesting, pretty, columnTexts, cache⟩, h, parts, hmade => by
    simp only [Select.raws, List.forall_mem_append] at h
    obtain ⟨hcolumns, horigin, hjoins, hfilter, hgroupBy, hhaving, hcombined, horderBy⟩ := h
    have hstar : (Draft.star (origin?.bind Origin.alias?)).Quiet d := .star hd _
    obtain ⟨ps, hps, hcols⟩ := hmade.columns
    have hquiet := columnDrafts_quiet hstar columns hcolumns ps hps
    exact {
      head := Draft.columnHead_leading hd k distinct _ _ hmade.head
      columns := by
        rw [hcols, Draft.columnsOr]
        split
        · exact List.forall_mem_singleton.2 hstar
        · exact hquiet
      origin := originDraft_trailing pretty nesting origin? horigin _ hmade.origin
      joins := joinDrafts_quiet joins hjoins _ hmade.joins
      filter := filter.draft_quiet hfilter _ hmade.filter
      groupBy := by
        rw [hmade.groupBy]
        exact fun r hr => r.draft_quiet hd fun raw hraw =>
          hgroupBy raw (List.mem_flatMap.2 ⟨r, hr, hraw⟩)
      having := having.draft_quiet hhaving _ hmade.having
      combined := combinedDraft_closed combined? hcombined _ hmade.combined
      orderBy := by
        rw [hmade.orderBy]
        exact fun t ht => t.1.draft_quiet hd fun raw hraw =>
          horderBy raw (List.mem_flatMap.2 ⟨t, ht, hraw⟩)
      page := fun c =>
        (Draft.innerPageClause_composed (P := fun _ => False) hk _ _ _ hmade.page).balanced hd c }

end

end

end SqlTree
