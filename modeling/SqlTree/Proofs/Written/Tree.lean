import SqlTree.Proofs.Written.Basic

/-!
# SqlTree.Proofs.Written.Tree

Every draft of a tree is written without dots of its own, if the raw SQL in
the tree is as it is meant to be (`Node.draft_written`).  Rows are numbered
only where the dialect does so.
-/

namespace SqlTree

/-! ## Pages -/

/-- What stands for no limit has no dot. -/
def Constructs.Undotted (k : Constructs) : Prop :=
  ∀ unbounded, k.pageSyntax = some (.limitOffset unbounded) → isUndotted unbounded = true

theorem Dialect.Shipped.undotted {d : Dialect} (h : d.Shipped) : d.constructs.Undotted := by
  intro unbounded hkind
  rcases h.unbounded_eq hkind with rfl | rfl <;> decide

namespace Draft

variable {R : Prop} {P : String → Prop}

theorem rowCount_written (n : UInt64) (hint : String) : Yields (Written R P) (rowCount n hint) := by
  unfold rowCount
  split
  · exact .ok (.value _)
  · exact .error

theorem standardPart_written {keyword : String} (hkeyword : isUndotted keyword = true)
    (hint : String) (count? : Option UInt64) :
    Yields (fun ps => ∀ p ∈ ps, Written R P p) (standardPart keyword hint count?) := by
  cases count? with
  | none => exact .ok (by simp)
  | some n =>
    exact (rowCount_written n hint).bind fun p hp =>
      .ok (List.forall_mem_singleton.2 (.after_code hkeyword hp))

theorem standardPage_written (page : Page) : Yields (Written R P) (standardPage page) :=
  (standardPart_written (by decide) _ _).bind fun ps hps =>
    (standardPart_written (by decide) _ _).bind fun qs hqs =>
    .ok (.joined (by decide) (List.forall_mem_append.2 ⟨hps, hqs⟩))

theorem limitOffsetPage_written {unbounded : String} (h : isUndotted unbounded = true)
    (page : Page) : Yields (Written R P) (limitOffsetPage unbounded page) := by
  rcases page with ⟨_ | n, _ | m⟩
  case none.none => exact .ok (.code rfl)
  case none.some =>
    refine (rowCount_written m _).bind fun p hp => .ok (.after_code ?_ hp)
    rw [isUndotted_append, isUndotted_append, h]
    decide
  case some.none => exact (rowCount_written n _).bind fun p hp => .ok (.after_code (by decide) hp)
  case some.some =>
    exact (rowCount_written n _).bind fun p hp => (rowCount_written m _).bind fun q hq =>
      .ok (.after_code (by decide) (.around_code (by decide) hp hq))

theorem emptyOrder_written (ordered : Bool) : Written R P (emptyOrder ordered) := by
  cases ordered with
  | true => exact .code rfl
  | false =>
    exact .after_code (by decide) (.before_code (by decide) (.enclosed (.code (by decide))))

theorem offsetFetchPage_written (page : Page) (ordered : Bool) :
    Yields (Written R P) (offsetFetchPage page ordered) := by
  rcases page with ⟨_ | n, _ | m⟩
  case none.none => exact .ok (.code rfl)
  case some.none => exact .ok (.code rfl)
  case none.some =>
    exact (rowCount_written m _).bind fun p hp => .ok <| .append (emptyOrder_written ordered) <|
      .after_code (by decide) (.before_code (by decide) hp)
  case some.some =>
    exact (rowCount_written m _).bind fun p hp => (rowCount_written n _).bind fun q hq =>
      .ok <| .append (emptyOrder_written ordered) <| .after_code (by decide) <|
        .around_code (by decide) hp (.before_code (by decide) hq)

theorem pageClause_written {k : Constructs} (hk : k.Undotted) (page : Page) (ordered : Bool) :
    Yields (Written R P) (pageClause k page ordered) := by
  unfold pageClause
  split
  · next syntaxOf hsyntax =>
    cases syntaxOf with
    | limitOffset unbounded => exact limitOffsetPage_written (hk unbounded hsyntax) page
    | offsetFetch => exact offsetFetchPage_written page ordered
  · split
    · exact standardPage_written page
    · exact .error

theorem innerPageClause_written {k : Constructs} (hk : k.Undotted) (page : Page)
    (ordered : Bool) : Yields (Written R P) (innerPageClause k page ordered) := by
  unfold innerPageClause
  split
  · exact pageClause_written hk _ ordered
  · exact .ok (.code rfl)

theorem columnHead_written (k : Constructs) {quantifier : Option String}
    (h : isUndotted (quantifierHead quantifier) = true) (page : Page) :
    Yields (Written R P) (columnHead k quantifier page) := by
  unfold columnHead
  split
  · rcases page with ⟨_ | n, _ | m⟩
    case some.none =>
      refine (rowCount_written (R := R) (P := P) n _).bind fun p hp => .ok (.after_code ?_ ?_)
      · rw [isUndotted_append, h]
        decide
      · exact .before_code (by decide) hp.enclosed
    all_goals exact .ok (.code h)
  · exact .ok (.code h)

/-- Rows are numbered around a select only where the dialect numbers them. -/
theorem aroundSelect_written (k : Constructs) {p : Draft} (hp : Written (k.rowNumbers = true) P p)
    (page : Page) : Yields (Written (k.rowNumbers = true) P) (aroundSelect k p page) := by
  have hwrapped {q r : Draft} {s : String} (hq : Written (k.rowNumbers = true) P q)
      (hs : isUndotted s = true) (hr : Written (k.rowNumbers = true) P r) :
      Written (k.rowNumbers = true) P
        (code "SELECT * FROM " ++ (enclosed q ++ (code s ++ r))) :=
    .after_code (by decide) (.around_code hs hq.enclosed hr)
  unfold aroundSelect
  split
  · next hrows =>
    rcases page with ⟨_ | n, _ | m⟩
    case none.none => exact .ok hp
    case none.some =>
      exact (rowCount_written m _).bind fun lower hlower =>
        .ok (hwrapped (.numbered hrows hp (.code rfl)) (by decide) hlower)
    case some.none =>
      exact (rowCount_written n _).bind fun upper hupper => .ok (hwrapped hp (by decide) hupper)
    case some.some =>
      exact (rowCount_written _ _).bind fun upper hupper =>
        (rowCount_written m _).bind fun lower hlower =>
        .ok (hwrapped (.numbered hrows hp (.after_code (by decide) hupper)) (by decide) hlower)
  · exact .ok hp

end Draft

/-! ## Trees -/

section

variable {P : String → Prop}

theorem Reference.draft_written {R : Prop} {r : Reference} (h : ∀ raw ∈ r.raws, raw.Meets P) :
    (Draft.ofReference r).Written R P := by
  cases r with
  | identifier i => exact .identifier i
  | «alias» a => exact .label a
  | literal l => exact .raw (h (.literal l) (List.mem_singleton.2 rfl))

theorem piecesDraft_written {R : Prop} {slots : List (String × Except Error Draft)}
    (hslots : ∀ slot ∈ slots, Yields (Draft.Written R P) slot.2) {parts : List Piece}
    (hparts : ∀ part ∈ parts, P (String.ofList part.source)) :
    Yields (Draft.Written R P) (piecesDraft slots parts) := by
  induction parts with
  | nil => exact .ok (.code rfl)
  | cons part parts ih =>
    obtain ⟨hpart, hrest⟩ := List.forall_mem_cons.1 hparts
    cases part with
    | text cs =>
      rw [piecesDraft]
      exact (ih hrest).bind fun p hp => .ok (.append (.raw hpart) hp)
    | slot name =>
      have hafter {p : Draft} (hp : p.Written R P) : Yields (Draft.Written R P)
          (piecesDraft slots parts >>= fun after => .ok (p ++ after)) :=
        (ih hrest).bind fun q hq => .ok (.append hp hq)
      rw [piecesDraft]
      split
      · next plan hplan =>
        obtain ⟨before, after, hslot, -⟩ := List.lookup_eq_some_iff.1 hplan
        exact Yields.bind (hslots (_, plan)
          (hslot ▸ List.mem_append_right before List.mem_cons_self)) fun p hp => hafter hp
      · exact hafter (.raw hpart)

variable {k : Constructs} (hk : k.Undotted)

include hk

-- only selects use it themselves, the others hand it down to them
set_option linter.unusedSectionVars false in
mutual

theorem Operand.draft_written (hint : String) : (o : Operand) → (∀ raw ∈ o.raws, raw.Meets P) →
    Yields (Draft.Written (k.rowNumbers = true) P) (o.draft k hint)
  | .value v, _ => by
    rw [Operand.draft]
    exact .ok (.value _)
  | .identifier i, _ => by
    rw [Operand.draft]
    exact .ok (.identifier i)
  | .literal l, h => by
    rw [Operand.raws] at h
    rw [Operand.draft]
    exact .ok (.raw (h (.literal l) (List.mem_singleton.2 rfl)))
  | .expression e, h => by
    rw [Operand.raws] at h
    rw [Operand.draft]
    exact e.draft_written h
  | .subquery s, h => by
    rw [Operand.raws] at h
    rw [Operand.draft]
    exact (s.draft_written h).map fun _ hp => hp.enclosed

theorem Filling.draft_written : (f : Filling) → (∀ raw ∈ f.raws, raw.Meets P) →
    Yields (Draft.Written (k.rowNumbers = true) P) (f.draft k)
  | .value v, _ => by
    rw [Filling.draft]
    exact .ok (.value _)
  | .identifier i, _ => by
    rw [Filling.draft]
    exact .ok (.identifier i)
  | .alias a, _ => by
    rw [Filling.draft]
    exact .ok (.label a)
  | .literal l, h => by
    rw [Filling.raws] at h
    rw [Filling.draft]
    exact .ok (.raw (h (.literal l) (List.mem_singleton.2 rfl)))
  | .subquery s, h => by
    rw [Filling.raws] at h
    rw [Filling.draft]
    exact (s.draft_written h).map fun _ hp => hp.enclosed

theorem slotDrafts_written : (slots : List Slot) → (∀ raw ∈ slotRaws slots, raw.Meets P) →
    ∀ slot ∈ slotDrafts k slots, Yields (Draft.Written (k.rowNumbers = true) P) slot.2
  | [], _ => by
    rw [slotDrafts]
    exact fun _ hslot => nomatch hslot
  | ⟨name, filling⟩ :: slots, h => by
    rw [slotRaws, List.forall_mem_append] at h
    rw [slotDrafts, List.forall_mem_cons]
    exact ⟨filling.draft_written h.1, slotDrafts_written slots h.2⟩

theorem Expression.draft_written : (e : Expression) → (∀ raw ∈ e.raws, raw.Meets P) →
    Yields (Draft.Written (k.rowNumbers = true) P) (e.draft k)
  | ⟨template, slots⟩, h => by
    rw [Expression.raws, List.forall_mem_cons] at h
    rw [Expression.draft]
    exact piecesDraft_written (slotDrafts_written slots h.2) h.1

theorem Predicate.draft_written : (p : Predicate) → (∀ raw ∈ p.raws, raw.Meets P) →
    Yields (Draft.Written (k.rowNumbers = true) P) (p.draft k)
  | .comparison left op right, h => by
    rw [Predicate.raws, List.forall_mem_append] at h
    rw [Predicate.draft]
    exact (right.draft_written op.hint h.2).map fun _ hp =>
      .comparison (left.draft_written h.1) op hp
  | .between left negated low high, h => by
    rw [Predicate.raws, List.forall_mem_append, List.forall_mem_append] at h
    obtain ⟨hleft, hlow, hhigh⟩ := h
    rw [Predicate.draft]
    exact (low.draft_written _ hlow).bind fun _ hp => (high.draft_written _ hhigh).bind fun _ hq =>
      .ok (.between (left.draft_written hleft) negated hp hq)
  | .inValues left negated values orNull, h => by
    rw [Predicate.raws] at h
    rw [Predicate.draft]
    exact .ok
      (.inList (left.draft_written h) negated (List.forall_mem_map.2 fun _ _ => .value _) orNull)
  | .inSelect left negated s, h => by
    rw [Predicate.raws, List.forall_mem_append] at h
    rw [Predicate.draft]
    exact (s.draft_written h.2).map fun _ hp => .inParentheses (left.draft_written h.1) negated hp
  | .like left negated pattern escape, h => by
    rw [Predicate.raws, List.forall_mem_append] at h
    rw [Predicate.draft]
    exact (pattern.draft_written _ h.2).map fun _ hp =>
      .like (left.draft_written h.1) negated hp escape
  | .truth left negated word, h => by
    rw [Predicate.raws] at h
    rw [Predicate.draft]
    exact .ok (.truth (left.draft_written h) negated word)
  | .existence negated s, h => by
    rw [Predicate.raws] at h
    rw [Predicate.draft]
    exact (s.draft_written h).map fun _ hp => .existence negated hp
  | .quantified left op quantifier s, h => by
    rw [Predicate.raws, List.forall_mem_append] at h
    rw [Predicate.draft]
    exact (s.draft_written h.2).map fun _ hp =>
      .quantified (left.draft_written h.1) op quantifier hp
  | .literal l, h => by
    rw [Predicate.raws] at h
    rw [Predicate.draft]
    exact .ok (.raw (h (.literal l) (List.mem_singleton.2 rfl)))
  | .expression e, h => by
    rw [Predicate.raws] at h
    rw [Predicate.draft]
    exact e.draft_written h
  | .group g, h => by
    rw [Predicate.raws] at h
    rw [Predicate.draft]
    exact g.draft_written h

theorem termDrafts_written : (terms : List Term) → (∀ raw ∈ termRaws terms, raw.Meets P) →
    Yields (fun ts => ∀ t ∈ ts, t.2.Written (k.rowNumbers = true) P) (termDrafts k terms)
  | [], _ => by
    rw [termDrafts]
    exact .ok (by simp)
  | ⟨connective, p⟩ :: terms, h => by
    rw [termRaws, List.forall_mem_append] at h
    rw [termDrafts]
    exact (p.draft_written h.1).bind fun _ hp => (termDrafts_written terms h.2).bind fun _ hts =>
      .ok (List.forall_mem_cons.2 ⟨hp, hts⟩)

theorem Group.draft_written : (g : Group) → (∀ raw ∈ g.raws, raw.Meets P) →
    Yields (Draft.Written (k.rowNumbers = true) P) (g.draft k)
  | ⟨terms, _, _, nested, _⟩, h => by
    rw [Group.raws] at h
    rw [Group.draft]
    exact (termDrafts_written terms h).map fun _ hts => .group nested hts

theorem Clause.draft_written : (c : Clause) → (∀ raw ∈ c.raws, raw.Meets P) →
    Yields (Draft.Written (k.rowNumbers = true) P) (c.draft k)
  | ⟨_, none⟩, _ => by
    rw [Clause.draft]
    exact .ok (.code rfl)
  | ⟨kind, some g⟩, h => by
    rw [Clause.raws] at h
    rw [Clause.draft]
    exact (g.draft_written h).map fun _ hp => .clause kind hp

theorem JoinTarget.draft_written : (t : JoinTarget) → (∀ raw ∈ t.raws, raw.Meets P) →
    Yields (Draft.Written (k.rowNumbers = true) P) (t.draft k)
  | .table name, _ => by
    rw [JoinTarget.draft]
    exact .ok (.identifier name)
  | .subquery s, h => by
    rw [JoinTarget.raws] at h
    rw [JoinTarget.draft]
    exact (s.draft_written h).map fun _ hp => hp.enclosed

theorem Join.draft_written : (j : Join) → (∀ raw ∈ j.raws, raw.Meets P) →
    Yields (Draft.Written (k.rowNumbers = true) P) (j.draft k)
  | ⟨kind, target, alias?, on, _⟩, h => by
    rw [Join.raws, List.forall_mem_append] at h
    rw [Join.draft]
    exact (target.draft_written h.1).bind fun _ hp => (on.draft_written h.2).bind fun _ hq =>
      .ok (.join kind hp alias? hq)

theorem joinDrafts_written : (joins : List Join) → (∀ raw ∈ joinRaws joins, raw.Meets P) →
    Yields (fun ps => ∀ p ∈ ps, p.Written (k.rowNumbers = true) P) (joinDrafts k joins)
  | [], _ => by
    rw [joinDrafts]
    exact .ok (by simp)
  | j :: joins, h => by
    rw [joinRaws, List.forall_mem_append] at h
    rw [joinDrafts]
    exact (j.draft_written h.1).bind fun _ hp => (joinDrafts_written joins h.2).bind fun _ hps =>
      .ok (List.forall_mem_cons.2 ⟨hp, hps⟩)

theorem ColumnSource.draft_written {star : Draft} (hstar : star.Written (k.rowNumbers = true) P) :
    (source : ColumnSource) → (∀ raw ∈ source.raws, raw.Meets P) →
    Yields (Draft.Written (k.rowNumbers = true) P) (source.draft k star)
  | .reference r, h => by
    rw [ColumnSource.raws] at h
    rw [ColumnSource.draft]
    exact .ok (.referenceColumn hstar (r.draft_written h))
  | .expression e, h => by
    rw [ColumnSource.raws] at h
    rw [ColumnSource.draft]
    exact e.draft_written h
  | .subquery s, h => by
    rw [ColumnSource.raws] at h
    rw [ColumnSource.draft]
    exact (s.draft_written h).map fun _ hp => hp.enclosed

theorem columnDrafts_written {star : Draft} (hstar : star.Written (k.rowNumbers = true) P) :
    (columns : List Column) → (∀ raw ∈ columnRaws columns, raw.Meets P) →
    Yields (fun ps => ∀ p ∈ ps, p.Written (k.rowNumbers = true) P) (columnDrafts k star columns)
  | [], _ => by
    rw [columnDrafts]
    exact .ok (by simp)
  | ⟨source, alias?⟩ :: columns, h => by
    rw [columnRaws, List.forall_mem_append] at h
    rw [columnDrafts]
    have hcolumn := (source.draft_written hstar h.1).map fun _ hp => Draft.Written.column alias? hp
    exact hcolumn.bind fun _ hp => (columnDrafts_written hstar columns h.2).bind fun _ hps =>
      .ok (List.forall_mem_cons.2 ⟨hp, hps⟩)

theorem originDraft_written (pretty : Bool) (nesting : Nat) : (origin? : Option Origin) →
    (∀ raw ∈ originRaws origin?, raw.Meets P) →
    Yields (Draft.Written (k.rowNumbers = true) P) (originDraft k pretty nesting origin?)
  | none, _ => by
    rw [originDraft]
    exact .ok (.code rfl)
  | some (.table name alias?), _ => by
    rw [originDraft]
    exact .ok (.tableOrigin name alias?)
  | some (.subquery s a), h => by
    rw [originRaws] at h
    rw [originDraft]
    exact (s.draft_written h).map fun _ hp => .subqueryOrigin pretty nesting _ a hp

theorem combinedDraft_written : (combined? : Option (SetOperation × Select)) →
    (∀ raw ∈ combinedRaws combined?, raw.Meets P) →
    Yields (Draft.Written (k.rowNumbers = true) P) (combinedDraft k combined?)
  | none, _ => by
    rw [combinedDraft]
    exact .ok (.code rfl)
  | some (operation, s), h => by
    rw [combinedRaws] at h
    rw [combinedDraft]
    exact (s.draft_written h).map fun _ hp => .after_code (by cases operation <;> decide) hp

theorem Select.draft_written : (s : Select) → (∀ raw ∈ s.raws, raw.Meets P) →
    Yields (Draft.Written (k.rowNumbers = true) P) (s.draft k)
  | ⟨distinct, columns, into?, origin?, joins, filter, groupBy, having, combined?, orderBy, limit,
      offset, nesting, pretty, _, _⟩, h => by
    simp only [Select.raws, List.forall_mem_append] at h
    obtain ⟨hcolumns, horigin, hjoins, hfilter, hgroupBy, hhaving, hcombined, horderBy⟩ := h
    have hstar : (Draft.star (origin?.bind Origin.alias?)).Written (k.rowNumbers = true) P :=
      .star _
    rw [Select.draft]
    have hheads := Draft.columnHead_written (R := k.rowNumbers = true) (P := P) k
      (show isUndotted (quantifierHead (if distinct then some "DISTINCT" else none)) = true by
        cases distinct <;> decide)
    refine (hheads _).bind fun head hhead => ?_
    refine (columnDrafts_written hstar columns hcolumns).bind fun cols hcols => ?_
    refine (originDraft_written pretty nesting origin? horigin).bind fun origin horigin => ?_
    refine (joinDrafts_written joins hjoins).bind fun joined hjoined => ?_
    refine (filter.draft_written hfilter).bind fun filter hfilter => ?_
    refine (having.draft_written hhaving).bind fun having hhaving => ?_
    refine (combinedDraft_written combined? hcombined).bind fun combined hcombined => ?_
    refine (Draft.innerPageClause_written (R := k.rowNumbers = true) (P := P) hk _ _).bind
      fun last hlast => ?_
    refine Draft.aroundSelect_written k
      (.requoted (isName_knownNames origin? joins) (.select ?_)) _
    exact {
      head := hhead, columns := .columnsOr hstar hcols, origin := horigin, joins := hjoined
      filter := hfilter, having := hhaving, combined := hcombined, page := hlast
      groupBy := fun r hr => r.draft_written fun raw hraw =>
        hgroupBy raw (List.mem_flatMap.2 ⟨r, hr, hraw⟩)
      orderBy := fun t ht => t.1.draft_written fun raw hraw =>
        horderBy raw (List.mem_flatMap.2 ⟨t, ht, hraw⟩) }

end

/-! ## Statements -/

theorem rowDraft_written (columns : List Identifier) {row : List Operand}
    (h : ∀ raw ∈ row.flatMap Operand.raws, raw.Meets P) :
    Yields (fun ps => ∀ p ∈ ps, p.Written (k.rowNumbers = true) P) (rowDraft k columns row) := by
  induction row generalizing columns with
  | nil => exact .ok (by simp)
  | cons value row ih =>
    rw [List.flatMap_cons, List.forall_mem_append] at h
    rw [rowDraft]
    exact (value.draft_written hk _ h.1).bind fun _ hp => (ih _ h.2).bind fun _ hps =>
      .ok (List.forall_mem_cons.2 ⟨hp, hps⟩)

theorem rowDrafts_written (columns : List Identifier) {rows : List (List Operand)}
    (h : ∀ raw ∈ rows.flatten.flatMap Operand.raws, raw.Meets P) :
    Yields (fun rows => ∀ row ∈ rows, ∀ p ∈ row, p.Written (k.rowNumbers = true) P)
      (rowDrafts k columns rows) := by
  induction rows with
  | nil => exact .ok (by simp)
  | cons row rows ih =>
    rw [List.flatten_cons, List.flatMap_append, List.forall_mem_append] at h
    rw [rowDrafts]
    exact (rowDraft_written hk columns h.1).bind fun _ hps => (ih h.2).bind fun _ hrows =>
      .ok (List.forall_mem_cons.2 ⟨hps, hrows⟩)

theorem Insert.draft_written {i : Insert} (h : ∀ raw ∈ Node.raws .insert i, raw.Meets P) :
    Yields (Draft.Written (k.rowNumbers = true) P) (i.draft k) := by
  obtain ⟨hrows, hsource⟩ := List.forall_mem_append.1 h
  obtain ⟨_ | table, columns, rows, source?, cache⟩ := i
  · exact .error
  · cases source? with
    | some s =>
      have hs := s.draft_written hk fun raw hraw =>
        hsource raw (List.mem_flatMap.2 ⟨s, List.mem_singleton.2 rfl, hraw⟩)
      exact hs.map fun _ hp => .insertSelect table columns hp
    | none =>
      simp only [draft]
      split
      · exact .error
      · exact (rowDrafts_written hk columns hrows).bind fun _ hrows _ hp => .insertRows hrows hp

theorem assignmentDrafts_written {assignments : List Assignment}
    (h : ∀ raw ∈ assignments.flatMap fun a => a.value.raws, raw.Meets P) :
    Yields (fun ps => ∀ p ∈ ps, p.Written (k.rowNumbers = true) P)
      (assignmentDrafts k assignments) := by
  induction assignments with
  | nil => exact .ok (by simp)
  | cons a assignments ih =>
    rw [List.flatMap_cons, List.forall_mem_append] at h
    rw [assignmentDrafts]
    have ha := (a.value.draft_written hk a.column.text h.1).map fun _ hp =>
      Draft.Written.assignment a.column hp
    exact ha.bind fun _ hp => (ih h.2).bind fun _ hps => .ok (List.forall_mem_cons.2 ⟨hp, hps⟩)

theorem Update.draft_written {u : Update} (h : ∀ raw ∈ Node.raws .update u, raw.Meets P) :
    Yields (Draft.Written (k.rowNumbers = true) P) (u.draft k) := by
  obtain ⟨hassignments, hfilter⟩ := List.forall_mem_append.1 h
  obtain ⟨_ | table, assignments, filter, cache⟩ := u
  · exact .error
  · simp only [draft]
    split
    · exact .error
    · split
      · exact .error
      · refine (assignmentDrafts_written hk hassignments).bind fun ps hps =>
          (filter.draft_written hk hfilter).bind fun p hp => ?_
        split
        · exact .error
        · exact .ok (.requoted table.isName_singleton (.update table hps hp))

theorem Delete.draft_written {del : Delete} (h : ∀ raw ∈ Node.raws .delete del, raw.Meets P) :
    Yields (Draft.Written (k.rowNumbers = true) P) (del.draft k) := by
  obtain ⟨_ | table, filter, cache⟩ := del
  · exact .error
  · refine (filter.draft_written hk h).bind fun p hp => ?_
    split
    · exact .error
    · exact .ok (.requoted table.isName_singleton (.delete table hp))

/-- The draft of a node is written so, with the raw SQL in the node. -/
theorem Node.draft_written {kind : Kind} {n : Node kind}
    (h : ∀ raw ∈ Node.raws kind n, raw.Meets P) :
    Yields (Draft.Written (k.rowNumbers = true) P) (Node.draft k kind n) := by
  cases kind with
  | select => exact Select.draft_written hk n h
  | insert => exact Insert.draft_written hk h
  | update => exact Update.draft_written hk h
  | delete => exact Delete.draft_written hk h
  | group => exact Group.draft_written hk n h
  | clause => exact Clause.draft_written hk n h
  | join => exact Join.draft_written hk n h
  | predicate => exact Predicate.draft_written hk n h
  | expression => exact Expression.draft_written hk n h
  | reference => exact .ok (Reference.draft_written h)

end

end SqlTree
