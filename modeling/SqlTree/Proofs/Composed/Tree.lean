import SqlTree.Proofs.Composed.Shape
import SqlTree.Proofs.Raw
import SqlTree.Proofs.Shipped

/-!
# SqlTree.Proofs.Composed.Tree

Every draft of a tree is composed, if the raw SQL in the tree allows it
(`Node.draft_composed`).
-/

namespace SqlTree

/-! ## Plans -/

/-- Whatever the plan is, if there is one, it satisfies `Q`. -/
def Yields {α : Type} (Q : α → Prop) (plan : Except Error α) : Prop := ∀ a, plan = .ok a → Q a

namespace Yields

variable {α β : Type} {Q : α → Prop} {R : β → Prop} {plan : Except Error α}

theorem ok {a : α} (h : Q a) : Yields Q (.ok a) := by
  intro _ ha
  cases ha
  exact h

theorem error {e : Error} : Yields Q (.error e) := fun _ h => nomatch h

theorem bind {F : α → Except Error β} (h : Yields Q plan) (hnext : ∀ a, Q a → Yields R (F a)) :
    Yields R (plan >>= F) := by
  intro b hb
  obtain ⟨a, ha, hF⟩ := exists_of_bind_eq_ok hb
  exact hnext a (h a ha) b hF

/-- Whatever the plan gives. -/
theorem bind_any {F : α → Except Error β} (hnext : ∀ a, Yields R (F a)) : Yields R (plan >>= F) :=
  bind (Q := fun _ => True) (fun _ _ => trivial) fun a _ => hnext a

theorem map {f : α → β} (h : Yields Q plan) (hf : ∀ a, Q a → R (f a)) : Yields R (f <$> plan) := by
  rw [map_eq_pure_bind]
  exact h.bind fun a ha => .ok (hf a ha)

theorem map_any {f : α → β} (hf : ∀ a, R (f a)) : Yields R (f <$> plan) :=
  map (Q := fun _ => True) (fun _ _ => trivial) fun a _ => hf a

end Yields

/-! ## Names -/

theorem isCode_of_isWord {cs : List Char} (h : isWord cs = true) : cs.all isCodeChar = true := by
  rw [List.all_eq_true]
  intro c hc
  rw [isCodeChar, List.all_eq_true.1 (all_isWordChar_of_isWord h) c hc, Bool.true_or]

theorem all_isNameChar_of_isWord {cs : List Char} (h : isWord cs = true) :
    cs.all isNameChar = true := by
  rw [List.all_eq_true]
  intro c hc
  rw [isNameChar, List.all_eq_true.1 (all_isWordChar_of_isWord h) c hc, Bool.true_or]

theorem all_isNameChar_of_isPath {pieces : List (List Char)} (h : isPath pieces = true) :
    (joinWith '.' pieces).all isNameChar = true := by
  fun_induction isPath pieces with
  | case1 => cases h
  | case2 piece => exact all_isNameChar_of_isWord h
  | case3 piece last =>
    obtain ⟨hpiece, hlast⟩ := Bool.and_eq_true_iff.1 h
    rw [joinWith_cons (by simp), joinWith, List.all_append, all_isNameChar_of_isWord hpiece,
      List.all_cons, Bool.true_and]
    rcases Bool.or_eq_true_iff.1 hlast with hword | hstar
    · rw [all_isNameChar_of_isWord hword]
      decide
    · rw [eq_of_beq hstar]
      decide
  | case4 piece pieces hne _ ih =>
    obtain ⟨hpiece, hpieces⟩ := Bool.and_eq_true_iff.1 h
    rw [joinWith_cons (by rintro rfl; cases hpieces), List.all_append,
      all_isNameChar_of_isWord hpiece, List.all_cons, ih hpieces]
    decide

theorem startsWord_of_isWord {s : String} (h : isWord s.toList = true) : startsWord s = true := by
  unfold startsWord
  cases hs : s.toList with
  | nil => rw [hs] at h; cases h
  | cons c cs =>
    have hall := all_isWordChar_of_isWord h
    rw [hs, List.all_cons, Bool.and_eq_true] at hall
    exact hall.1

/-- A path starts with its first word. -/
theorem startsWord_of_isPath {pieces : List (List Char)} (h : isPath pieces = true) :
    startsWord (String.ofList (joinWith '.' pieces)) = true := by
  have hword {piece rest : List Char} (hpiece : isWord piece = true) :
      startsWord (String.ofList (piece ++ rest)) = true := by
    cases piece with
    | nil => cases hpiece
    | cons c cs =>
      have hall := all_isWordChar_of_isWord hpiece
      rw [List.all_cons, Bool.and_eq_true] at hall
      simpa [startsWord] using hall.1
  fun_induction isPath pieces with
  | case1 => cases h
  | case2 piece =>
    rw [← List.append_nil piece]
    exact hword h
  | case3 piece last => exact hword (Bool.and_eq_true_iff.1 h).1
  | case4 piece pieces =>
    obtain ⟨hpiece, hpieces⟩ := Bool.and_eq_true_iff.1 h
    rw [joinWith_cons (by rintro rfl; cases hpieces)]
    exact hword hpiece

theorem Identifier.isName_text (i : Identifier) : isName i.text = true := by
  have hvalid := i.valid
  rw [isIdentifierText, Bool.or_eq_true] at hvalid
  rcases hvalid with hstar | hpath
  · have htext : i.text = "*" := String.toList_inj.1 (eq_of_beq hstar)
    rw [htext]
    decide
  · have hchars := all_isNameChar_of_isPath hpath
    have hstarts := startsWord_of_isPath hpath
    rw [joinWith_splitAt] at hchars hstarts
    rw [String.ofList_toList] at hstarts
    rw [isName, hchars, hstarts]
    rfl

theorem Identifier.isCode_text (i : Identifier) : isCode i.text = true :=
  isCode_of_isName i.isName_text

theorem Identifier.isName_singleton (table : Identifier) :
    ∀ name ∈ [table.text], isName name = true :=
  List.forall_mem_singleton.2 table.isName_text

theorem Alias.isName_text (a : Alias) : isName a.text = true := by
  rw [isName, all_isNameChar_of_isWord a.valid, startsWord_of_isWord a.valid]
  rfl

theorem Alias.isCode_text (a : Alias) : isCode a.text = true := isCode_of_isName a.isName_text

theorem Origin.isName_names (o : Origin) :
    ∀ name ∈ o.tableName?.toList ++ o.aliasName?.toList, isName name = true := by
  intro name hname
  cases o with
  | table table alias? =>
    rcases List.mem_append.1 hname with h | h
    · rw [List.mem_singleton.1 h]
      exact table.isName_text
    · obtain ⟨a, -, rfl⟩ := Option.map_eq_some_iff.1 (Option.mem_toList.1 h)
      exact a.isName_text
  | subquery s a =>
    rw [List.mem_singleton.1 hname]
    exact a.isName_text

theorem Join.isName_names (j : Join) : ∀ name ∈ j.names, isName name = true := by
  intro name hname
  obtain ⟨kind, target, alias?, on, cache⟩ := j
  rcases List.mem_append.1 hname with h | h
  · cases target with
    | table table =>
      rw [List.mem_singleton.1 h]
      exact table.isName_text
    | subquery s => cases h
  · obtain ⟨a, -, rfl⟩ := Option.map_eq_some_iff.1 (Option.mem_toList.1 h)
    exact a.isName_text

theorem isName_knownNames (origin? : Option Origin) (joins : List Join) :
    ∀ name ∈ knownNames origin? joins, isName name = true := by
  intro name hname
  rcases List.mem_append.1 hname with h | h
  · cases origin? with
    | none => cases h
    | some o => exact o.isName_names name h
  · obtain ⟨j, -, hj⟩ := List.mem_flatMap.1 h
    exact j.isName_names name hj

/-! ## Pages -/

/-- What stands for no limit is plain code. -/
def Constructs.Plain (k : Constructs) : Prop :=
  ∀ unbounded, k.pageSyntax = some (.limitOffset unbounded) → isCode unbounded = true

theorem Dialect.Shipped.plain {d : Dialect} (h : d.Shipped) : d.constructs.Plain := by
  intro unbounded hkind
  rcases h.unbounded_eq hkind with rfl | rfl <;> decide

namespace Draft

variable {P : String → Prop}

theorem rowCount_composed (n : UInt64) (hint : String) : Yields (Composed P) (rowCount n hint) := by
  unfold rowCount
  split
  · exact .ok (.value _)
  · exact .error

theorem standardPart_composed {keyword : String} (hkeyword : isCode keyword = true) (hint : String)
    (count? : Option UInt64) :
    Yields (fun ps => ∀ p ∈ ps, Composed P p) (standardPart keyword hint count?) := by
  cases count? with
  | none => exact .ok (by simp)
  | some n =>
    exact (rowCount_composed n hint).bind fun p hp =>
        .ok (List.forall_mem_singleton.2 (.after_code hkeyword hp))

theorem standardPage_composed (page : Page) : Yields (Composed P) (standardPage page) :=
  (standardPart_composed (by decide) _ _).bind fun ps hps =>
    (standardPart_composed (by decide) _ _).bind fun qs hqs =>
    .ok (.joined (by decide) (by decide) (by decide) (List.forall_mem_append.2 ⟨hps, hqs⟩))

theorem limitOffsetPage_composed {unbounded : String} (h : isCode unbounded = true) (page : Page) :
    Yields (Composed P) (limitOffsetPage unbounded page) := by
  rcases page with ⟨_ | n, _ | m⟩
  case none.none => exact .ok (.code rfl)
  case none.some =>
    refine (rowCount_composed m _).bind fun p hp => .ok (.after_code ?_ hp)
    rw [isCode_append, isCode_append, h]
    decide
  case some.none => exact (rowCount_composed n _).bind fun p hp => .ok (.after_code (by decide) hp)
  case some.some =>
    exact (rowCount_composed n _).bind fun p hp => (rowCount_composed m _).bind fun q hq =>
      .ok (.after_code (by decide) (.around_code (by decide) (by decide) (by decide) hp hq))

theorem emptyOrder_append_composed (ordered : Bool) {p : Draft} (hp : Composed P p) :
    Composed P (emptyOrder ordered ++ p) := by
  cases ordered with
  | true => exact .after_code rfl hp
  | false =>
    have horder : Composed P (enclosed (code "SELECT NULL") ++ code " ") :=
      .before_code (by decide) (by decide) (.enclosed (.code (by decide)))
    exact .append (.after_code (by decide) horder) hp (.inl rfl)

theorem offsetFetchPage_composed (page : Page) (ordered : Bool) :
    Yields (Composed P) (offsetFetchPage page ordered) := by
  rcases page with ⟨_ | n, _ | m⟩
  case none.none => exact .ok (.code rfl)
  case some.none => exact .ok (.code rfl)
  case none.some =>
    exact (rowCount_composed m _).bind fun p hp => .ok <| emptyOrder_append_composed ordered <|
      .after_code (by decide) (.before_code (by decide) (by decide) hp)
  case some.some =>
    exact (rowCount_composed m _).bind fun p hp => (rowCount_composed n _).bind fun q hq =>
      .ok <| emptyOrder_append_composed ordered <| .after_code (by decide) <|
        .around_code (by decide) (by decide) (by decide) hp
          (.before_code (by decide) (by decide) hq)

theorem pageClause_composed {k : Constructs} (hk : k.Plain) (page : Page) (ordered : Bool) :
    Yields (Composed P) (pageClause k page ordered) := by
  unfold pageClause
  split
  · next syntaxOf hsyntax =>
    cases syntaxOf with
    | limitOffset unbounded => exact limitOffsetPage_composed (hk unbounded hsyntax) page
    | offsetFetch => exact offsetFetchPage_composed page ordered
  · split
    · exact standardPage_composed page
    · exact .error

theorem innerPageClause_composed {k : Constructs} (hk : k.Plain) (page : Page) (ordered : Bool) :
    Yields (Composed P) (innerPageClause k page ordered) := by
  unfold innerPageClause
  split
  · exact pageClause_composed hk _ ordered
  · exact .ok (.code rfl)

theorem columnHead_composed (k : Constructs) {quantifier : Option String}
    (h : isCode (quantifierHead quantifier) = true) (page : Page) :
    Yields (fun p => Composed P p ∧ p.dangles = false) (columnHead k quantifier page) := by
  unfold columnHead
  split
  · rcases page with ⟨_ | n, _ | m⟩
    case some.none =>
      refine (rowCount_composed (P := P) n _).bind fun p hp => .ok ⟨.after_code ?_ ?_, rfl⟩
      · rw [isCode_append, h]
        decide
      · exact .before_code (by decide) (by decide) (.enclosed hp)
    all_goals exact .ok ⟨.code h, rfl⟩
  · exact .ok ⟨.code h, rfl⟩

theorem numbered_composed {p rest : Draft} (hp : Composed P p) (hrest : Composed P rest) :
    Composed P (numbered p rest) :=
  .after_code (by decide) (.append (.enclosed hp) (.after_code (by decide) hrest)
    (.inl dangles_enclosed))

theorem aroundSelect_composed (k : Constructs) {p : Draft} (hp : Composed P p) (page : Page) :
    Yields (Composed P) (aroundSelect k p page) := by
  -- the wrapped select stands between parentheses, the bounds behind them
  have hwrapped {q r : Draft} {s : String} (hq : Composed P q) (hs : isCode s = true)
    (hr : Composed P r) :
      Composed P (code "SELECT * FROM " ++ (enclosed q ++ (code s ++ r))) :=
    .after_code (by decide) (.append (.enclosed hq) (.after_code hs hr) (.inl dangles_enclosed))
  unfold aroundSelect
  split
  · rcases page with ⟨_ | n, _ | m⟩
    case none.none => exact .ok hp
    case none.some =>
      exact (rowCount_composed m _).bind fun lower hlower =>
        .ok (hwrapped (numbered_composed hp (.code rfl)) (by decide) hlower)
    case some.none =>
      exact (rowCount_composed n _).bind fun upper hupper => .ok (hwrapped hp (by decide) hupper)
    case some.some =>
      exact (rowCount_composed _ _).bind fun upper hupper =>
        (rowCount_composed m _).bind fun lower hlower =>
        .ok (hwrapped (numbered_composed hp (.after_code (by decide) hupper)) (by decide) hlower)
  · exact .ok hp

end Draft

/-! ## Trees -/

section

variable {P : String → Prop}

theorem Reference.draft_composed {r : Reference} (h : ∀ raw ∈ r.raws, raw.Allows P) :
    (Draft.ofReference r).Composed P := by
  cases r with
  | identifier i => exact .identifier i
  | «alias» a => exact .label a
  | literal l => exact .raw (h (.literal l) (List.mem_singleton.2 rfl))

/-- The parts of a template are composed, and start with a word only where
the template does. -/
theorem piecesDraft_composed {slots : List (String × Except Error Draft)}
    (hslots : ∀ slot ∈ slots, Yields (Draft.Composed P) slot.2) {parts : List Piece}
    (hend : placeholdersEnd parts = true) (hparts : ∀ part ∈ parts, P (String.ofList part.source)) :
    Yields (fun p => p.Composed P ∧
      (endsPlaceholder (parts.flatMap Piece.source).head? = true → p.opens = false))
      (piecesDraft slots parts) := by
  induction parts with
  | nil => exact .ok ⟨.code rfl, fun _ => rfl⟩
  | cons part parts ih =>
    obtain ⟨hpart, hrest⟩ := List.forall_mem_cons.1 hparts
    cases part with
    | text cs =>
      rw [piecesDraft]
      refine (ih hend hrest).bind fun p ⟨hp, hopens⟩ =>
        .ok ⟨.append (.raw hpart) hp (.inl rfl), fun hnext => ?_⟩
      change (startsWord (String.ofList cs) || (String.ofList cs == "" && p.opens)) = false
      cases cs with
      | nil =>
        rw [hopens (by simpa [Piece.source] using hnext)]
        rfl
      | cons c cs =>
        have hc : isWordChar c = false := by
          simp [Piece.source, endsPlaceholder] at hnext
          exact hnext.1
        simp [startsWord, hc]
    | slot name =>
      obtain ⟨hnext, hend⟩ := Bool.and_eq_true_iff.1 hend
      have hafter {p : Draft} (hp : p.Composed P) : Yields (fun q => q.Composed P ∧ (endsPlaceholder
          ((Piece.slot name :: parts).flatMap Piece.source).head? = true → q.opens = false))
          (piecesDraft slots parts >>= fun after => .ok (p ++ after)) := by
        refine (ih hend hrest).bind fun q ⟨hq, hopens⟩ =>
          .ok ⟨.append hp hq (.inr (hopens hnext)), fun hbrace => ?_⟩
        simp [Piece.source, endsPlaceholder] at hbrace
      rw [piecesDraft]
      split
      · next plan hplan =>
        obtain ⟨before, after, hslot, -⟩ := List.lookup_eq_some_iff.1 hplan
        exact Yields.bind (hslots (_, plan)
          (hslot ▸ List.mem_append_right before List.mem_cons_self)) fun p hp => hafter hp
      · exact hafter (.raw hpart)

variable {k : Constructs} (hk : k.Plain)

include hk

-- only selects use it themselves, the others hand it down to them
set_option linter.unusedSectionVars false in
mutual

theorem Operand.draft_composed (hint : String) : (o : Operand) → (∀ raw ∈ o.raws, raw.Allows P) →
    Yields (Draft.Composed P) (o.draft k hint)
  | .value v, _ => by
    rw [Operand.draft]
    exact .ok (.value _)
  | .identifier i, _ => by
    rw [Operand.draft]
    exact .ok (.identifier i)
  | .literal l, h => by
    rw [Operand.raws] at h
    rw [Operand.draft]
    exact .ok (.raw (h (.literal l) (List.mem_singleton.2 rfl)))
  | .expression e, h => by
    rw [Operand.raws] at h
    rw [Operand.draft]
    exact e.draft_composed h
  | .subquery s, h => by
    rw [Operand.raws] at h
    rw [Operand.draft]
    exact (s.draft_composed h).map fun _ hp => .enclosed hp

theorem Filling.draft_composed : (f : Filling) → (∀ raw ∈ f.raws, raw.Allows P) →
    Yields (Draft.Composed P) (f.draft k)
  | .value v, _ => by
    rw [Filling.draft]
    exact .ok (.value _)
  | .identifier i, _ => by
    rw [Filling.draft]
    exact .ok (.identifier i)
  | .alias a, _ => by
    rw [Filling.draft]
    exact .ok (.label a)
  | .literal l, h => by
    rw [Filling.raws] at h
    rw [Filling.draft]
    exact .ok (.raw (h (.literal l) (List.mem_singleton.2 rfl)))
  | .subquery s, h => by
    rw [Filling.raws] at h
    rw [Filling.draft]
    exact (s.draft_composed h).map fun _ hp => .enclosed hp

theorem slotDrafts_composed : (slots : List Slot) → (∀ raw ∈ slotRaws slots, raw.Allows P) →
    ∀ slot ∈ slotDrafts k slots, Yields (Draft.Composed P) slot.2
  | [], _ => by
    rw [slotDrafts]
    exact fun _ hslot => nomatch hslot
  | ⟨name, filling⟩ :: slots, h => by
    rw [slotRaws, List.forall_mem_append] at h
    rw [slotDrafts, List.forall_mem_cons]
    exact ⟨filling.draft_composed h.1, slotDrafts_composed slots h.2⟩

theorem Expression.draft_composed : (e : Expression) → (∀ raw ∈ e.raws, raw.Allows P) →
    Yields (Draft.Composed P) (e.draft k)
  | ⟨template, slots⟩, h => by
    rw [Expression.raws, List.forall_mem_cons] at h
    obtain ⟨⟨hend, hparts⟩, hslots⟩ := h
    rw [Expression.draft]
    exact fun p hp => (piecesDraft_composed (slotDrafts_composed slots hslots) hend hparts p hp).1

theorem Predicate.draft_composed : (p : Predicate) → (∀ raw ∈ p.raws, raw.Allows P) →
    Yields (Draft.Composed P) (p.draft k)
  | .comparison left op right, h => by
    rw [Predicate.raws, List.forall_mem_append] at h
    rw [Predicate.draft]
    exact (right.draft_composed op.hint h.2).map fun _ hp =>
      .comparison (left.draft_composed h.1) op hp
  | .between left negated low high, h => by
    rw [Predicate.raws, List.forall_mem_append, List.forall_mem_append] at h
    obtain ⟨hleft, hlow, hhigh⟩ := h
    rw [Predicate.draft]
    exact (low.draft_composed _ hlow).bind fun _ hp =>
      (high.draft_composed _ hhigh).bind fun _ hq =>
      .ok (.between (left.draft_composed hleft) negated hp hq)
  | .inValues left negated values orNull, h => by
    rw [Predicate.raws] at h
    rw [Predicate.draft]
    exact .ok
      (.inList (left.draft_composed h) negated (List.forall_mem_map.2 fun _ _ => .value _) orNull)
  | .inSelect left negated s, h => by
    rw [Predicate.raws, List.forall_mem_append] at h
    rw [Predicate.draft]
    exact (s.draft_composed h.2).map fun _ hp => .inParentheses (left.draft_composed h.1) negated hp
  | .like left negated pattern escape, h => by
    rw [Predicate.raws, List.forall_mem_append] at h
    rw [Predicate.draft]
    exact (pattern.draft_composed _ h.2).map fun _ hp =>
      .like (left.draft_composed h.1) negated hp escape
  | .truth left negated word, h => by
    rw [Predicate.raws] at h
    rw [Predicate.draft]
    exact .ok (.truth (left.draft_composed h) negated word)
  | .existence negated s, h => by
    rw [Predicate.raws] at h
    rw [Predicate.draft]
    exact (s.draft_composed h).map fun _ hp => .existence negated hp
  | .quantified left op quantifier s, h => by
    rw [Predicate.raws, List.forall_mem_append] at h
    rw [Predicate.draft]
    exact (s.draft_composed h.2).map fun _ hp =>
      .quantified (left.draft_composed h.1) op quantifier hp
  | .literal l, h => by
    rw [Predicate.raws] at h
    rw [Predicate.draft]
    exact .ok (.raw (h (.literal l) (List.mem_singleton.2 rfl)))
  | .expression e, h => by
    rw [Predicate.raws] at h
    rw [Predicate.draft]
    exact e.draft_composed h
  | .group g, h => by
    rw [Predicate.raws] at h
    rw [Predicate.draft]
    exact g.draft_composed h

theorem termDrafts_composed : (terms : List Term) → (∀ raw ∈ termRaws terms, raw.Allows P) →
    Yields (fun ts => ∀ t ∈ ts, t.2.Composed P) (termDrafts k terms)
  | [], _ => by
    rw [termDrafts]
    exact .ok (by simp)
  | ⟨connective, p⟩ :: terms, h => by
    rw [termRaws, List.forall_mem_append] at h
    rw [termDrafts]
    exact (p.draft_composed h.1).bind fun _ hp => (termDrafts_composed terms h.2).bind fun _ hts =>
      .ok (List.forall_mem_cons.2 ⟨hp, hts⟩)

theorem Group.draft_composed :
    (g : Group) → (∀ raw ∈ g.raws, raw.Allows P) → Yields (Draft.Composed P) (g.draft k)
  | ⟨terms, _, _, nested, _⟩, h => by
    rw [Group.raws] at h
    rw [Group.draft]
    exact (termDrafts_composed terms h).map fun _ hts => .group nested hts

theorem Clause.draft_composed :
    (c : Clause) → (∀ raw ∈ c.raws, raw.Allows P) → Yields (Draft.Composed P) (c.draft k)
  | ⟨_, none⟩, _ => by
    rw [Clause.draft]
    exact .ok (.code rfl)
  | ⟨kind, some g⟩, h => by
    rw [Clause.raws] at h
    rw [Clause.draft]
    exact (g.draft_composed h).map fun _ hp => .clause kind hp

theorem JoinTarget.draft_composed : (t : JoinTarget) → (∀ raw ∈ t.raws, raw.Allows P) →
    Yields (Draft.Composed P) (t.draft k)
  | .table name, _ => by
    rw [JoinTarget.draft]
    exact .ok (.identifier name)
  | .subquery s, h => by
    rw [JoinTarget.raws] at h
    rw [JoinTarget.draft]
    exact (s.draft_composed h).map fun _ hp => .enclosed hp

theorem Join.draft_composed :
    (j : Join) → (∀ raw ∈ j.raws, raw.Allows P) → Yields (Draft.Composed P) (j.draft k)
  | ⟨kind, target, alias?, on, _⟩, h => by
    rw [Join.raws, List.forall_mem_append] at h
    rw [Join.draft]
    exact (target.draft_composed h.1).bind fun _ hp => (on.draft_composed h.2).bind fun _ hq =>
      .ok (.join kind hp alias? hq)

theorem joinDrafts_composed : (joins : List Join) → (∀ raw ∈ joinRaws joins, raw.Allows P) →
    Yields (fun ps => ∀ p ∈ ps, p.Composed P) (joinDrafts k joins)
  | [], _ => by
    rw [joinDrafts]
    exact .ok (by simp)
  | j :: joins, h => by
    rw [joinRaws, List.forall_mem_append] at h
    rw [joinDrafts]
    exact (j.draft_composed h.1).bind fun _ hp => (joinDrafts_composed joins h.2).bind fun _ hps =>
      .ok (List.forall_mem_cons.2 ⟨hp, hps⟩)

theorem ColumnSource.draft_composed {star : Draft} (hstar : star.Composed P) :
    (source : ColumnSource) →
    (∀ raw ∈ source.raws, raw.Allows P) → Yields (Draft.Composed P) (source.draft k star)
  | .reference r, h => by
    rw [ColumnSource.raws] at h
    rw [ColumnSource.draft]
    exact .ok (.referenceColumn hstar (r.draft_composed h))
  | .expression e, h => by
    rw [ColumnSource.raws] at h
    rw [ColumnSource.draft]
    exact e.draft_composed h
  | .subquery s, h => by
    rw [ColumnSource.raws] at h
    rw [ColumnSource.draft]
    exact (s.draft_composed h).map fun _ hp => .enclosed hp

theorem columnDrafts_composed {star : Draft} (hstar : star.Composed P) : (columns : List Column) →
    (∀ raw ∈ columnRaws columns, raw.Allows P) →
    Yields (fun ps => ∀ p ∈ ps, p.Composed P) (columnDrafts k star columns)
  | [], _ => by
    rw [columnDrafts]
    exact .ok (by simp)
  | ⟨source, alias?⟩ :: columns, h => by
    rw [columnRaws, List.forall_mem_append] at h
    rw [columnDrafts]
    have hcolumn := (source.draft_composed hstar h.1).map fun _ hp =>
      Draft.Composed.column alias? hp
    exact hcolumn.bind fun _ hp => (columnDrafts_composed hstar columns h.2).bind fun _ hps =>
      .ok (List.forall_mem_cons.2 ⟨hp, hps⟩)

theorem originDraft_composed (pretty : Bool) (nesting : Nat) : (origin? : Option Origin) →
    (∀ raw ∈ originRaws origin?, raw.Allows P) →
    Yields (fun p => p.Composed P ∧ p.opens = false) (originDraft k pretty nesting origin?)
  | none, _ => by
    rw [originDraft]
    exact .ok ⟨.code rfl, rfl⟩
  | some (.table name alias?), _ => by
    rw [originDraft]
    exact .ok ⟨.tableOrigin name alias?, rfl⟩
  | some (.subquery s a), h => by
    rw [originRaws] at h
    rw [originDraft]
    exact (s.draft_composed h).map fun _ hp => ⟨.subqueryOrigin pretty nesting _ a hp, rfl⟩

theorem combinedDraft_composed : (combined? : Option (SetOperation × Select)) →
    (∀ raw ∈ combinedRaws combined?, raw.Allows P) →
    Yields (fun p => p.Composed P ∧ p.opens = false) (combinedDraft k combined?)
  | none, _ => by
    rw [combinedDraft]
    exact .ok ⟨.code rfl, rfl⟩
  | some (operation, s), h => by
    rw [combinedRaws] at h
    rw [combinedDraft]
    exact (s.draft_composed h).map fun _ hp =>
      ⟨.after_code (by cases operation <;> decide) hp, by cases operation <;> rfl⟩

theorem Select.draft_composed :
    (s : Select) → (∀ raw ∈ s.raws, raw.Allows P) → Yields (Draft.Composed P) (s.draft k)
  | ⟨distinct, columns, into?, origin?, joins, filter, groupBy, having, combined?, orderBy, limit,
      offset, nesting, pretty, _, _⟩, h => by
    simp only [Select.raws, List.forall_mem_append] at h
    obtain ⟨hcolumns, horigin, hjoins, hfilter, hgroupBy, hhaving, hcombined, horderBy⟩ := h
    have hstar : (Draft.star (origin?.bind Origin.alias?)).Composed P := .star _
    rw [Select.draft]
    refine (Draft.columnHead_composed (P := P) k (by cases distinct <;> decide) _).bind
      fun head ⟨hhead, hdangles⟩ => ?_
    refine (columnDrafts_composed hstar columns hcolumns).bind fun cols hcols => ?_
    refine (originDraft_composed pretty nesting origin? horigin).bind
      fun origin ⟨horigin, hopens⟩ => ?_
    refine (joinDrafts_composed joins hjoins).bind fun joined hjoined => ?_
    refine (filter.draft_composed hfilter).bind fun filter hfilter => ?_
    refine (having.draft_composed hhaving).bind fun having hhaving => ?_
    refine (combinedDraft_composed combined? hcombined).bind
      fun combined ⟨hcombined, hcombinedOpens⟩ => ?_
    refine (Draft.innerPageClause_composed (P := P) hk _ _).bind fun last hlast => ?_
    refine Draft.aroundSelect_composed k
      (.requoted (isName_knownNames origin? joins) (.select ?_)) _
    exact {
      head := hhead, head_dangles := hdangles, columns := .columnsOr hstar hcols, origin := horigin,
      origin_opens := hopens, joins := hjoined, filter := hfilter,
      having := hhaving, combined := hcombined,
      combined_opens := hcombinedOpens, page := hlast
      groupBy := fun r hr => r.draft_composed fun raw hraw =>
        hgroupBy raw (List.mem_flatMap.2 ⟨r, hr, hraw⟩)
      orderBy := fun t ht => t.1.draft_composed fun raw hraw =>
        horderBy raw (List.mem_flatMap.2 ⟨t, ht, hraw⟩) }

end

/-! ## Statements -/

theorem rowDraft_composed (columns : List Identifier) {row : List Operand}
    (h : ∀ raw ∈ row.flatMap Operand.raws, raw.Allows P) :
    Yields (fun ps => ∀ p ∈ ps, p.Composed P) (rowDraft k columns row) := by
  induction row generalizing columns with
  | nil => exact .ok (by simp)
  | cons value row ih =>
    rw [List.flatMap_cons, List.forall_mem_append] at h
    rw [rowDraft]
    exact (value.draft_composed hk _ h.1).bind fun _ hp => (ih _ h.2).bind fun _ hps =>
      .ok (List.forall_mem_cons.2 ⟨hp, hps⟩)

theorem rowDrafts_composed (columns : List Identifier) {rows : List (List Operand)}
    (h : ∀ raw ∈ rows.flatten.flatMap Operand.raws, raw.Allows P) :
    Yields (fun rows => ∀ row ∈ rows, ∀ p ∈ row, p.Composed P) (rowDrafts k columns rows) := by
  induction rows with
  | nil => exact .ok (by simp)
  | cons row rows ih =>
    rw [List.flatten_cons, List.flatMap_append, List.forall_mem_append] at h
    rw [rowDrafts]
    exact (rowDraft_composed hk columns h.1).bind fun _ hps => (ih h.2).bind fun _ hrows =>
      .ok (List.forall_mem_cons.2 ⟨hps, hrows⟩)

theorem Insert.draft_composed {i : Insert} (h : ∀ raw ∈ Node.raws .insert i, raw.Allows P) :
    Yields (Draft.Composed P) (i.draft k) := by
  obtain ⟨hrows, hsource⟩ := List.forall_mem_append.1 h
  obtain ⟨_ | table, columns, rows, source?, cache⟩ := i
  · exact .error
  · cases source? with
    | some s =>
      have hs := s.draft_composed hk fun raw hraw =>
        hsource raw (List.mem_flatMap.2 ⟨s, List.mem_singleton.2 rfl, hraw⟩)
      exact hs.map fun _ hp => .insertSelect table columns hp
    | none =>
      simp only [draft]
      split
      · exact .error
      · exact (rowDrafts_composed hk columns hrows).bind fun _ hrows _ hp => .insertRows hrows hp

theorem assignmentDrafts_composed {assignments : List Assignment}
    (h : ∀ raw ∈ assignments.flatMap fun a => a.value.raws, raw.Allows P) :
    Yields (fun ps => ∀ p ∈ ps, p.Composed P) (assignmentDrafts k assignments) := by
  induction assignments with
  | nil => exact .ok (by simp)
  | cons a assignments ih =>
    rw [List.flatMap_cons, List.forall_mem_append] at h
    rw [assignmentDrafts]
    have ha := (a.value.draft_composed hk a.column.text h.1).map fun _ hp =>
      Draft.Composed.assignment a.column hp
    exact ha.bind fun _ hp => (ih h.2).bind fun _ hps => .ok (List.forall_mem_cons.2 ⟨hp, hps⟩)

theorem Update.draft_composed {u : Update} (h : ∀ raw ∈ Node.raws .update u, raw.Allows P) :
    Yields (Draft.Composed P) (u.draft k) := by
  obtain ⟨hassignments, hfilter⟩ := List.forall_mem_append.1 h
  obtain ⟨_ | table, assignments, filter, cache⟩ := u
  · exact .error
  · simp only [draft]
    split
    · exact .error
    · split
      · exact .error
      · refine (assignmentDrafts_composed hk hassignments).bind fun ps hps =>
          (filter.draft_composed hk hfilter).bind fun p hp => ?_
        split
        · exact .error
        · exact .ok (.requoted table.isName_singleton (.update table hps hp))

theorem Delete.draft_composed {del : Delete} (h : ∀ raw ∈ Node.raws .delete del, raw.Allows P) :
    Yields (Draft.Composed P) (del.draft k) := by
  obtain ⟨_ | table, filter, cache⟩ := del
  · exact .error
  · refine (filter.draft_composed hk h).bind fun p hp => ?_
    split
    · exact .error
    · exact .ok (.requoted table.isName_singleton (.delete table hp))

/-- The draft of a node is composed if the raw SQL in the node allows it. -/
theorem Node.draft_composed {kind : Kind} {n : Node kind}
    (h : ∀ raw ∈ Node.raws kind n, raw.Allows P) :
    Yields (Draft.Composed P) (Node.draft k kind n) := by
  cases kind with
  | select => exact Select.draft_composed hk n h
  | insert => exact Insert.draft_composed hk h
  | update => exact Update.draft_composed hk h
  | delete => exact Delete.draft_composed hk h
  | group => exact Group.draft_composed hk n h
  | clause => exact Clause.draft_composed hk n h
  | join => exact Join.draft_composed hk n h
  | predicate => exact Predicate.draft_composed hk n h
  | expression => exact Expression.draft_composed hk n h
  | reference => exact .ok (Reference.draft_composed h)

end

end SqlTree
