import SqlTree.Proofs.Combined.Chain
import SqlTree.Proofs.Combined.Words
import SqlTree.Proofs.Grouping.Test

/-!
# SqlTree.Proofs.Combined.Quiet

Texts in which no set operator and no end of a query is to be seen from the
outside.  A draft is `Quiet` if its text is balanced and none of its words
outside of quotes and parentheses does anything between selects.  The parts
of a select up to `HAVING` are quiet, as what holds a select of its own
stands between parentheses.
-/

namespace SqlTree

variable {d : Dialect}

/-! ## Words without a signal -/

/-- Keywords are made of letters. -/
theorem Signal.ofWord?_eq_none {word : List Char} {c : Char} (hc : c ∈ word)
    (hsign : isWordChar c = false) : ofWord? word = none := by
  have hupper : isWordChar c.toUpper = false := by
    unfold Char.toUpper
    split
    · next h =>
      have hlower : c.isLower = true :=
        Bool.and_eq_true_iff.2 ⟨decide_eq_true h.1, decide_eq_true h.2⟩
      have halpha : c.isAlpha = true := Bool.or_eq_true_iff.2 (.inr hlower)
      have hletter : isWordChar c = true := by simp [isWordChar, Char.isAlphanum, halpha]
      rw [hsign] at hletter
      cases hletter
    · exact hsign
  have hnot {letters : List Char} (hletters : letters.all isWordChar = true) :
      word.map Char.toUpper ≠ letters := by
    intro heq
    have hmem : c.toUpper ∈ letters := heq ▸ List.mem_map_of_mem hc
    rw [List.all_eq_true.1 hletters _ hmem] at hupper
    cases hupper
  simp only [ofWord?]
  rw [if_neg (hnot (by decide)), if_neg (hnot (by decide)), if_neg (hnot (by decide)),
    if_neg (hnot (by decide)), if_neg (hnot (by decide)), if_neg (hnot (by decide))]

theorem Quoting.exists_sign {cs : List Char} (hd : d.QuotesStandOut) (h : Quoting d cs) :
    ∃ c ∈ cs, isWordChar c = false := by
  induction h with
  | @sign c hc =>
    refine ⟨c, List.mem_singleton_self c, ?_⟩
    simp only [isSign, List.mem_cons, List.not_mem_nil, or_false, decide_eq_true_eq] at hc
    rcases hc with rfl | rfl | rfl | rfl | rfl | rfl | rfl | rfl | rfl <;> decide
  | @region c close cs hclose hcs =>
    refine ⟨c, List.mem_cons_self, Bool.eq_false_iff.2 fun hword => ?_⟩
    rw [hd.closer?_of_isSyntax (by simp [isSyntax, isCodeChar, hword])] at hclose
    cases hclose
  | append _ _ ih _ =>
    obtain ⟨c, hc, hsign⟩ := ih
    exact ⟨c, List.mem_append_left _ hc, hsign⟩

/-! ## Quiet texts -/

/-- The parentheses and quotes of the text are closed, and outside of them
nothing is said about several selects. -/
structure QuietText (d : Dialect) (cs : List Char) : Prop where
  balanced : Balanced d cs
  quiet : AreQuiet (outerWords d cs)

/-- Words of code that are quiet. -/
def isPhrase (s : String) : Bool :=
  isCode s && (words s.toList).all fun w => Signal.ofWord? w = none

namespace QuietText

variable {xs ys cs : List Char}

theorem between (hd : d.QuotesStandOut) (hx : QuietText d xs) (hy : QuietText d ys) :
    QuietText d (xs ++ ' ' :: ys) := by
  have hblank : Balanced d [' '] := .of_isSyntax hd (List.forall_mem_singleton.2 (by decide))
  refine ⟨hx.balanced.append (hblank.append hy.balanced), ?_⟩
  rw [AreQuiet, outerWords_append_blank hd hx.balanced]
  exact List.forall_mem_append.2 ⟨hx.quiet, hy.quiet⟩

/-- A comma goes on the last word, which is no keyword then. -/
theorem comma (hd : d.QuotesStandOut) (hx : QuietText d xs) : QuietText d (xs ++ [',']) := by
  have hstep : Nesting.step d ⟨0, none⟩ ',' = some ⟨0, none⟩ := by
    rw [Nesting.step, hd.closer?_of_isSyntax (by decide)]
    rfl
  have hgoes : ¬Nesting.separates d ⟨0, none⟩ ',' = true := by simp [Nesting.separates, isBlank]
  have hwords {s : Nesting} {cs : List Char} (word : List Char)
      (h : cs.foldlM (Nesting.step d) s = some ⟨0, none⟩) :
      ∀ w ∈ outerWordsFrom d s word (cs ++ [',']), w ∈ outerWordsFrom d s word cs ∨ ',' ∈ w := by
    induction cs generalizing s word with
    | nil =>
      cases h
      intro w hw
      rw [List.nil_append, outerWordsFrom, if_neg hgoes, hstep, Option.getD_some, outerWordsFrom,
        endedWord, if_neg (by simp), List.mem_singleton] at hw
      exact .inr (by simp [hw])
    | cons c cs ih =>
      rw [List.foldlM_cons] at h
      obtain ⟨next, hnext, h⟩ := Option.bind_eq_some_iff.1 h
      rw [List.cons_append, outerWordsFrom, outerWordsFrom]
      by_cases hblank : s.separates d c = true
      · rw [Nesting.step_of_separates hblank] at hnext
        cases hnext
        rw [if_pos hblank, if_pos hblank]
        intro w hw
        rw [List.mem_append] at hw ⊢
        rcases hw with hw | hw
        · exact .inl (.inl hw)
        · exact (ih [] h w hw).imp .inr id
      · rw [if_neg hblank, if_neg hblank, hnext, Option.getD_some]
        exact ih _ h
  have hcomma : Balanced d [','] := .of_isSyntax hd (List.forall_mem_singleton.2 (by decide))
  refine ⟨hx.balanced.append hcomma, fun w hw => ?_⟩
  rcases hwords [] (hx.balanced 0) w hw with hw | hw
  · exact hx.quiet w hw
  · exact Signal.ofWord?_eq_none hw (by decide)

theorem of_unbroken (hbalanced : Balanced d cs) (h : Unbroken d cs)
    (hsign : ∃ c ∈ cs, isWordChar c = false) : QuietText d cs := by
  obtain ⟨c, hc, hsign⟩ := hsign
  refine ⟨hbalanced, ?_⟩
  rw [AreQuiet, h.outerWords_eq (List.ne_nil_of_mem hc)]
  exact List.forall_mem_singleton.2 (Signal.ofWord?_eq_none hc hsign)

theorem quoting (hd : d.QuotesStandOut) (h : Quoting d cs) : QuietText d cs :=
  of_unbroken (h.balanced hd) (.quoting hd h) (h.exists_sign hd)

theorem enclosed (hd : d.QuotesStandOut) (h : Balanced d cs) : QuietText d ('(' :: (cs ++ [')'])) :=
  of_unbroken h.parenthesised (.enclosed hd h) ⟨'(', List.mem_cons_self, by decide⟩

theorem marker (hd : d.QuotesStandOut) (c : Collector) (b : Binding) :
    QuietText d (c.record b.value b.type b.hint).1.toList := by
  rcases c.record_eq_mark_or_word b with h | ⟨w, hw, h⟩
  · rw [h]
    exact quoting hd (.sign (by decide))
  · refine of_unbroken (.marker hd c b) ?_ ?_ <;> rw [h]
    · refine .of_isSyntax hd (List.forall_mem_cons.2 ⟨by decide, fun x hx => ?_⟩)
      exact isSyntax_of_isWordChar (List.all_eq_true.1 (all_isWordChar_of_isWord hw) x hx)
    · exact ⟨':', List.mem_cons_self, by decide⟩

theorem phrase (hd : d.QuotesStandOut) {s : String} (h : isPhrase s = true) :
    QuietText d s.toList := by
  obtain ⟨hcode, hwords⟩ := Bool.and_eq_true_iff.1 h
  refine ⟨.of_isCode hd hcode, ?_⟩
  rw [outerWords_of_isCode hd hcode]
  exact fun w hw => of_decide_eq_true (List.all_eq_true.1 hwords w hw)

end QuietText

/-! ## Quiet drafts -/

namespace Draft

variable {p q : Draft}

/-- The text of the draft is quiet. -/
def Quiet (d : Dialect) (p : Draft) : Prop := ∀ c, QuietText d (p.text d c).toList

/-- The text of the draft is nothing, or a blank and what is quiet. -/
def Trailing (d : Dialect) (p : Draft) : Prop :=
  ∀ c, p.text d c = "" ∨ ∃ s : String, p.text d c = " " ++ s ∧ QuietText d s.toList

/-- The text of the draft is balanced. -/
def Closed (d : Dialect) (p : Draft) : Prop := ∀ c, Balanced d (p.text d c).toList

/-- The text of the draft is nothing, or what is quiet and a blank. -/
def Leading (d : Dialect) (p : Draft) : Prop :=
  ∀ c, p.text d c = "" ∨ ∃ s : String, p.text d c = s ++ " " ∧ QuietText d s.toList

theorem Quiet.closed (h : Quiet d p) : Closed d p := fun c => (h c).balanced

theorem Closed.append (hp : Closed d p) (hq : Closed d q) : Closed d (p ++ q) := by
  intro c
  rw [text_append, String.toList_append]
  exact (hp c).append (hq _)

section

variable (hd : d.QuotesStandOut)
include hd

namespace Quiet

theorem code {s : String} (h : isPhrase s = true) : Quiet d (.code s) := fun _ => .phrase hd h

theorem identifier (i : Identifier) : Quiet d (.identifier i) := fun _ =>
  .quoting hd (.quoteIdentifier hd i.isCode_text)

theorem label (a : Alias) : Quiet d (.label a) := fun _ =>
  .quoting hd (.quoteAlias hd a.isCode_text)

theorem value (b : Binding) : Quiet d (.value b) := fun c => .marker hd c b

theorem enclosed (h : Closed d p) : Quiet d (enclosed p) := by
  intro c
  have htext := QuietText.enclosed hd (h c)
  simpa [SqlTree.enclosed] using htext

/-- What trails goes behind. -/
theorem append (hp : Quiet d p) (hq : Trailing d q) : Quiet d (p ++ q) := by
  intro c
  rw [text_append, String.toList_append]
  obtain hempty | ⟨s, hs, hquiet⟩ := hq (p.after c)
  · rw [hempty, show "".toList = [] from rfl, List.append_nil]
    exact hp c
  · rw [hs, String.toList_append]
    exact .between hd (hp c) hquiet

/-- What leads goes in front. -/
theorem after_leading (hp : Leading d p) (hq : Quiet d q) : Quiet d (p ++ q) := by
  intro c
  rw [text_append, String.toList_append]
  obtain hempty | ⟨s, hs, hquiet⟩ := hp c
  · rw [hempty, show "".toList = [] from rfl, List.nil_append]
    exact hq _
  · rw [hs, String.toList_append, List.append_assoc]
    exact .between hd hquiet (hq _)

/-- Words of code in front. -/
theorem after_phrase {s t : String} (hs : s = t ++ " ") (ht : isPhrase t = true) (hp : Quiet d p) :
    Quiet d (.code s ++ p) := by
  intro c
  have htext : (Draft.code s ++ p).text d c = t ++ " " ++ p.text d c := by rw [text_append, hs]; rfl
  rw [htext, String.toList_append, String.toList_append, List.append_assoc]
  exact .between hd (.phrase hd ht) (hp c)

/-- With commas between. -/
theorem commas {ps : List Draft} (h : ∀ p ∈ ps, Quiet d p) : Quiet d (Draft.joined ", " ps) := by
  fun_induction Draft.joined ", " ps with
  | case1 => exact code hd (by decide)
  | case2 p => exact h p List.mem_cons_self
  | case3 p ps hps ih =>
    obtain ⟨hp, hall⟩ := List.forall_mem_cons.1 h
    intro c
    have htext : (p ++ (Draft.code ", " ++ Draft.joined ", " ps)).text d c =
        p.text d c ++ "," ++ " " ++ (Draft.joined ", " ps).text d (p.after c) := by
      have hsep : ", " = "," ++ " " := rfl
      rw [text_append, text_append, text_code, after_code, hsep]
      simp only [String.append_assoc]
    rw [htext, String.toList_append, String.toList_append, List.append_assoc, String.toList_append]
    exact .between hd (.comma hd (hp c)) (ih hall _)

end Quiet

namespace Closed

theorem code {s : String} (h : isCode s = true) : Closed d (.code s) := fun _ => .of_isCode hd h

theorem spaced (h : Closed d p) : Closed d (spaced p) := by
  unfold Draft.spaced
  split
  · exact code hd (by decide)
  · exact (code hd (by decide)).append h

theorem requoted {names : List String} (hnames : ∀ name ∈ names, isName name = true)
    (h : Closed d p) : Closed d (.requoted names p) := by
  intro c
  rw [text_requoted]
  exact (h c).quotePrefixes hd hnames

end Closed

theorem Leading.phrase {s t : String} (hs : s = t ++ " ") (ht : isPhrase t = true) :
    Leading d (.code s) :=
  fun _ => .inr ⟨t, hs, .phrase hd ht⟩

namespace Trailing

omit hd in
theorem nil : Trailing d (.code "") := fun _ => .inl rfl

theorem phrase {s t : String} (hs : s = " " ++ t) (ht : isPhrase t = true) : Trailing d (.code s) :=
  fun _ => .inr ⟨t, hs, .phrase hd ht⟩

omit hd in
theorem blank (hp : Quiet d p) : Trailing d (.code " " ++ p) := fun c =>
  .inr ⟨p.text d c, rfl, hp c⟩

theorem after_phrase {s t : String} (hs : s = " " ++ t ++ " ") (ht : isPhrase t = true)
    (hp : Quiet d p) : Trailing d (.code s ++ p) := by
  intro c
  refine .inr ⟨t ++ " " ++ p.text d c, ?_, ?_⟩
  · rw [text_append, text_code, after_code, hs, String.append_assoc, String.append_assoc,
      String.append_assoc]
  · rw [String.toList_append, String.toList_append, List.append_assoc]
    exact .between hd (.phrase hd ht) (hp c)

theorem append (hp : Trailing d p) (hq : Trailing d q) : Trailing d (p ++ q) := by
  intro c
  rw [text_append]
  obtain hempty | ⟨s, hs, hquiet⟩ := hp c
  · rw [hempty, String.empty_append]
    exact hq _
  · obtain hempty | ⟨t, ht, hquiet'⟩ := hq (p.after c)
    · rw [hempty, String.append_empty]
      exact .inr ⟨s, hs, hquiet⟩
    · refine .inr ⟨s ++ " " ++ t, ?_, ?_⟩
      · rw [hs, ht, String.append_assoc, String.append_assoc]
      · rw [String.toList_append, String.toList_append, List.append_assoc]
        exact .between hd hquiet hquiet'

omit hd in
theorem spaced (hp : Quiet d p) : Trailing d (spaced p) := by
  unfold Draft.spaced
  split
  · exact nil
  · exact blank hp

end Trailing

end

end Draft

end SqlTree
