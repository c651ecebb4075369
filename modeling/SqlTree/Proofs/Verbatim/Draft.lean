import SqlTree.Proofs.Markers.Collector
import SqlTree.Proofs.Verbatim.Dots

/-!
# SqlTree.Proofs.Verbatim.Draft

The levels of a draft.  A level is a statement in the draft, with the
names that it quotes in the text of everything below it (`Draft.levels`).
Without raw SQL no level changes its text (`Draft.Written.guarded`),
provided that none that knows the name `b` has numbered rows below it.
-/

namespace SqlTree

namespace Draft

/-! ## Levels -/

/-- The statements in a draft, as the names that each of them quotes and the
draft that it quotes them in. -/
def levels : Draft → List (List String × Draft)
  | append p q => p.levels ++ q.levels
  | requoted names p => (names, p) :: p.levels
  | _ => []

/-- Rows are numbered somewhere in the draft. -/
def numbersRows : Draft → Bool
  | code s => s == "SELECT b.*, ROWNUM b_rownum FROM "
  | append p q => p.numbersRows || q.numbersRows
  | requoted _ p => p.numbersRows
  | _ => false

variable {p q r rest : Draft}

@[simp] theorem levels_code (s : String) : (code s).levels = [] := rfl

@[simp] theorem levels_append : (p ++ q).levels = p.levels ++ q.levels := rfl

@[simp] theorem levels_numbered : (numbered p rest).levels = p.levels ++ rest.levels := by
  simp [numbered, Draft.enclosed]

@[simp] theorem numbersRows_append :
    (p ++ q).numbersRows = (p.numbersRows || q.numbersRows) := rfl

theorem numbersRows_numbered : (numbered p rest).numbersRows = true := rfl

/-- The statements that know the name of numbered rows number none. -/
def RowsUnknown (p : Draft) : Prop := ∀ l ∈ p.levels, "b" ∈ l.1 → l.2.numbersRows = false

variable {d : Dialect} {R : Prop} {c : Collector}

/-- Where no rows are numbered, no statement has to know of them. -/
theorem Written.rowsUnknown {P : String → Prop} (h : Written R P p) (hR : ¬R) : p.RowsUnknown := by
  suffices hnone : p.numbersRows = false ∧ ∀ l ∈ p.levels, l.2.numbersRows = false from
    fun l hl _ => hnone.2 l hl
  induction h with
  | @code s hs =>
    refine ⟨?_, List.forall_mem_nil _⟩
    rw [numbersRows, beq_eq_false_iff_ne]
    rintro rfl
    exact absurd hs (by decide +kernel)
  | append _ _ ihp ihq =>
    exact ⟨by rw [numbersRows_append, ihp.1, ihq.1, Bool.or_self],
      List.forall_mem_append.2 ⟨ihp.2, ihq.2⟩⟩
  | numbered hrows => exact absurd hrows hR
  | requoted _ _ ih => exact ⟨ih.1, List.forall_mem_cons.2 ⟨ih.1, ih.2⟩⟩
  | raw | identifier | label | quotedChar | value => exact ⟨rfl, List.forall_mem_nil _⟩
  | qualifiedStar => exact ⟨show (".*" == _) = false by decide +kernel, List.forall_mem_nil _⟩

/-- A marker has no dot in it. -/
theorem dot_not_mem_record (c : Collector) (b : Binding) :
    '.' ∉ (c.record b.value b.type b.hint).1.toList := by
  rcases c.record_eq_mark_or_word b with heq | ⟨w, hw, heq⟩
  · rw [heq]
    decide
  · rw [heq]
    intro hdot
    rcases List.mem_cons.1 hdot with hcolon | hdot
    · exact absurd hcolon (by decide)
    · exact absurd (List.all_eq_true.1 (all_isWordChar_of_isWord hw) '.' hdot) (by decide)

theorem guarded_numbered_head {B : Prop} (hB : B) :
    DotGuarded B "SELECT b.*, ROWNUM b_rownum FROM ".toList := by
  have hsplit : "SELECT b.*, ROWNUM b_rownum FROM ".toList =
      "SELECT b".toList ++ '.' :: "*, ROWNUM b_rownum FROM ".toList := by decide +kernel
  rw [hsplit]
  exact .dotted (.of_not_mem (by decide)) (.inr ⟨hB, "SELECT".toList, by decide +kernel⟩)
    (.of_not_mem (by decide))

/-- Without raw SQL a text has its dots behind closing quotes, apart from
that of numbered rows, and no level changes the text of its statement. -/
theorem Written.guarded (h : Written R (fun _ => False) p) (hd : d.QuotesNoName)
    (hrows : p.RowsUnknown) :
    (∀ c, DotGuarded (p.numbersRows = true) (p.text d c).toList) ∧
      ∀ l ∈ p.levels, ∀ c, d.quotePrefixes l.1 (l.2.text d c) = l.2.text d c := by
  have hcode {s : String} (hs : isUndotted s = true) {B : Prop} (c : Collector) :
      DotGuarded B ((Draft.code s).text d c).toList := .of_not_mem (dot_not_mem_of_isUndotted hs)
  induction h with
  | code hs => exact ⟨hcode hs, List.forall_mem_nil _⟩
  | raw hs => exact hs.elim
  | identifier i => exact ⟨fun _ => hd.guarded_quoteIdentifier i, List.forall_mem_nil _⟩
  | label a =>
    refine ⟨fun _ => .of_not_mem ?_, List.forall_mem_nil _⟩
    rw [text_label, Alias.quoted, hd.quoteAlias_eq a.valid]
    exact (hd.quoteSegment_word a.valid).1
  | quotedChar ch => exact ⟨fun _ => hd.guarded_charLiteral ch, List.forall_mem_nil _⟩
  | value b => exact ⟨fun c => .of_not_mem (dot_not_mem_record c b), List.forall_mem_nil _⟩
  | @append p q _ _ ihp ihq =>
    obtain ⟨hp, hq⟩ := List.forall_mem_append.1 hrows
    obtain ⟨hptext, hplevels⟩ := ihp hp
    obtain ⟨hqtext, hqlevels⟩ := ihq hq
    refine ⟨fun c => ?_, List.forall_mem_append.2 ⟨hplevels, hqlevels⟩⟩
    rw [text_append, String.toList_append]
    exact ((hptext c).mono fun h => by simp [h]).append ((hqtext _).mono fun h => by simp [h])
  | qualifiedStar a =>
    refine ⟨fun c => ?_, List.forall_mem_nil _⟩
    obtain ⟨hdot, front, hfront⟩ := hd.quoteSegment_word a.valid
    have hstar : ((Draft.code ".*").text d c).toList = '.' :: ['*'] := by
      rw [text_code]
      decide
    rw [text_append, String.toList_append, text_label, Alias.quoted, hd.quoteAlias_eq a.valid,
      after_label, hstar]
    exact .dotted (.of_not_mem hdot) (.inl ⟨front, _, hfront, hd.right⟩) (.of_not_mem (by decide))
  | @numbered p rest _ _ _ ihp ihrest =>
    rw [RowsUnknown, levels_numbered, List.forall_mem_append] at hrows
    obtain ⟨hptext, hplevels⟩ := ihp hrows.1
    obtain ⟨hresttext, hrestlevels⟩ := ihrest hrows.2
    rw [levels_numbered]
    refine ⟨fun c => ?_, List.forall_mem_append.2 ⟨hplevels, hrestlevels⟩⟩
    have henclosed : DotGuarded True ((Draft.enclosed p).text d c).toList := by
      simp only [Draft.enclosed, text_append, String.toList_append]
      exact (hcode (by decide) c).append (((hptext _).mono fun _ => trivial).append
        (hcode (by decide) _))
    have hrest : DotGuarded True ((Draft.code " b" ++ rest).text d (p.after c)).toList := by
      rw [text_append, String.toList_append]
      exact (hcode (by decide) c).append ((hresttext _).mono fun _ => trivial)
    have hall : DotGuarded True ((Draft.numbered p rest).text d c).toList := by
      simp only [Draft.numbered, text_append, String.toList_append, after_enclosed] at hrest ⊢
      exact (guarded_numbered_head trivial).append (henclosed.append hrest)
    exact hall.mono fun _ => numbersRows_numbered
  | @requoted names p hnames _ ih =>
    obtain ⟨hown, hbelow⟩ := List.forall_mem_cons.1 hrows
    obtain ⟨htext, hlevels⟩ := ih hbelow
    have hb : p.numbersRows = true → "b" ∉ names := by
      intro hnumbers hmem
      rw [hown hmem] at hnumbers
      cases hnumbers
    have hkeeps (c : Collector) : d.quotePrefixes names (p.text d c) = p.text d c :=
      (htext c).quotePrefixes_eq hnames hb d
    refine ⟨fun c => ?_, List.forall_mem_cons.2 ⟨hkeeps, hlevels⟩⟩
    rw [text_requoted, hkeeps]
    exact htext c

end Draft

end SqlTree
