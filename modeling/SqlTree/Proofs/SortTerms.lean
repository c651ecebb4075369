import Mathlib.Data.List.Forall2
import SqlTree.Proofs.Composed.Tree
import SqlTree.Proofs.Grammar.Operator
import SqlTree.Select

/-!
# SqlTree.Proofs.SortTerms

Sort terms from text.  `IsSortList` is the grammar: terms with commas
between them, each a name and perhaps `ASC` or `DESC` in any case, with
white space around the words and between them.  `Select.order` accepts the
texts of the grammar and no others, and what it adds for a text are the
terms that the grammar has for it (`Select.order_reads_terms`).
-/

namespace SqlTree

/-! ## Words and what is between them -/

/-- White space and nothing else. -/
def AllBlank (cs : List Char) : Prop := ∀ c ∈ cs, isBlank c = true

/-- The word before this text goes no further. -/
def EndsAtBlank (cs : List Char) : Prop := ∀ c ∈ cs.head?, isBlank c = true

theorem AllBlank.endsAtBlank {cs : List Char} (h : AllBlank cs) : EndsAtBlank cs :=
  fun c hc => h c (List.mem_of_mem_head? hc)

/-- White space in front of a text is not seen. -/
theorem words_blank_append {before : List Char} (h : AllBlank before) (cs : List Char) :
    words (before ++ cs) = words cs := by
  induction before with
  | nil => rfl
  | cons c before ih =>
    obtain ⟨hc, hbefore⟩ := List.forall_mem_cons.1 h
    rw [← ih hbefore, List.cons_append, words, wordsFrom, if_pos hc, words]

theorem words_of_allBlank {cs : List Char} (h : AllBlank cs) : words cs = [] := by
  rw [← List.append_nil cs, words_blank_append h]
  rfl

/-- A word ends at a blank or with the text. -/
theorem words_append {w : List Char} (hne : w ≠ []) (hw : ∀ c ∈ w, isBlank c = false)
    {rest : List Char} (hrest : EndsAtBlank rest) : words (w ++ rest) = w :: words rest := by
  rw [words, wordsFrom_append hw, List.append_nil]
  have hreversed : w.reverse ≠ [] := by simpa using hne
  obtain ⟨c, word, hword⟩ := List.exists_cons_of_ne_nil hreversed
  have hback : (c :: word).reverse = w := by rw [← hword, List.reverse_reverse]
  rw [hword]
  cases rest with
  | nil => rw [wordsFrom, hback]; rfl
  | cons b rest =>
    have hb : isBlank b = true := hrest b rfl
    rw [wordsFrom, if_pos hb, hback, words, wordsFrom, if_pos hb]

/-- What comes before the first blank. -/
theorem exists_word (cs : List Char) :
    ∃ w rest, cs = w ++ rest ∧ (∀ c ∈ w, isBlank c = false) ∧ EndsAtBlank rest := by
  induction cs with
  | nil => exact ⟨[], [], rfl, nofun, nofun⟩
  | cons c cs ih =>
    by_cases hc : isBlank c = true
    · exact ⟨[], c :: cs, rfl, nofun, by simpa [EndsAtBlank] using hc⟩
    · obtain ⟨w, rest, rfl, hw, hrest⟩ := ih
      exact ⟨c :: w, rest, rfl, List.forall_mem_cons.2 ⟨by simpa using hc, hw⟩, hrest⟩

/-- A text is blank, or it has a first word. -/
theorem words_cases (cs : List Char) :
    AllBlank cs ∨ ∃ before w rest, cs = before ++ (w ++ rest) ∧ AllBlank before ∧
      EndsAtBlank rest ∧ words cs = w :: words rest := by
  induction cs with
  | nil => exact .inl nofun
  | cons c cs ih =>
    by_cases hc : isBlank c = true
    · have hfirst : AllBlank [c] := by simpa [AllBlank] using hc
      rcases ih with hblank | ⟨before, w, rest, rfl, hbefore, hrest, hwords⟩
      · exact .inl (List.forall_mem_cons.2 ⟨hc, hblank⟩)
      · refine .inr ⟨c :: before, w, rest, rfl, List.forall_mem_cons.2 ⟨hc, hbefore⟩, hrest, ?_⟩
        rw [← hwords]
        exact words_blank_append hfirst _
    · obtain ⟨w, rest, rfl, hw, hrest⟩ := exists_word cs
      have hletters : ∀ x ∈ c :: w, isBlank x = false :=
        List.forall_mem_cons.2 ⟨by simpa using hc, hw⟩
      exact .inr ⟨[], c :: w, rest, rfl, nofun, hrest,
        words_append (List.cons_ne_nil c w) hletters hrest⟩

/-- What is left of a text behind its last word. -/
theorem allBlank_of_words {cs : List Char} (h : words cs = []) : AllBlank cs := by
  rcases words_cases cs with hblank | ⟨_, _, _, _, _, _, hwords⟩
  · exact hblank
  · rw [h] at hwords
    cases hwords

/-! ## The grammar -/

/-- A keyword with each letter as it is or in lower case. -/
def Spells (word keyword : List Char) : Prop :=
  List.Forall₂ (fun c k => c = k ∨ c = k.toLower) word keyword

/-- A name with white space around it, and between the two perhaps a direction. -/
inductive IsSortTerm : List Char → Identifier × Direction → Prop
  | plain {before after : List Char} (hbefore : AllBlank before) (name : Identifier)
      (hafter : AllBlank after) :
      IsSortTerm (before ++ (name.text.toList ++ after)) (name, .ascending)
  | directed {before between word after : List Char} (hbefore : AllBlank before)
      (name : Identifier) (hbetween : AllBlank between) (hapart : between ≠ [])
      {direction : Direction} (hword : Spells word direction.keyword.toList)
      (hafter : AllBlank after) :
      IsSortTerm (before ++ (name.text.toList ++ (between ++ (word ++ after)))) (name, direction)

/-- One or more terms with commas between them. -/
inductive IsSortList : List Char → List (Identifier × Direction) → Prop
  | last {cs : List Char} {term : Identifier × Direction} (hterm : IsSortTerm cs term) :
      IsSortList cs [term]
  | more {cs rest : List Char} {term : Identifier × Direction}
      {terms : List (Identifier × Direction)} (hterm : IsSortTerm cs term)
      (hrest : IsSortList rest terms) : IsSortList (cs ++ ',' :: rest) (term :: terms)

/-- A term as it is usually written. -/
def sortTermText (term : Identifier × Direction) : String :=
  term.1.text ++ " " ++ term.2.keyword

/-- Terms as they are usually written. -/
def sortText (terms : List (Identifier × Direction)) : String := joined ", " (terms.map sortTermText)

/-! ## Directions -/

/-- The letters a to z move, all else stays. -/
theorem toNat_toUpper (c : Char) :
    c.toUpper.toNat = if 97 ≤ c.toNat ∧ c.toNat ≤ 122 then c.toNat - 32 else c.toNat := by
  have hrange : (c.val ≥ 'a'.val ∧ c.val ≤ 'z'.val) ↔ 97 ≤ c.toNat ∧ c.toNat ≤ 122 :=
    and_congr UInt32.le_iff_toNat_le UInt32.le_iff_toNat_le
  unfold Char.toUpper
  by_cases h : 97 ≤ c.toNat ∧ c.toNat ≤ 122
  · rw [dif_pos (hrange.2 h), if_pos h]
    -- the code adds the difference of the two capitals, which wraps around
    have hsum : (c.val + ('A'.val - 'a'.val)).toNat = (c.toNat + (2 ^ 32 - 32)) % 2 ^ 32 :=
      UInt32.toNat_add _ _
    refine hsum.trans ?_
    omega
  · rw [dif_neg (mt hrange.1 h), if_neg h]

/-- The two letters that become a capital. -/
theorem toUpper_eq_iff {c k : Char} (hk : 65 ≤ k.toNat ∧ k.toNat ≤ 90) :
    c.toUpper = k ↔ c = k ∨ c = k.toLower := by
  rw [← Char.toNat_inj, ← Char.toNat_inj, ← Char.toNat_inj, toNat_toUpper, toNat_toLower,
    if_pos hk]
  grind

theorem map_toUpper_eq_iff {word keyword : List Char}
    (hkeyword : ∀ k ∈ keyword, 65 ≤ k.toNat ∧ k.toNat ≤ 90) :
    word.map Char.toUpper = keyword ↔ Spells word keyword := by
  induction keyword generalizing word with
  | nil => cases word <;> simp [Spells]
  | cons k keyword ih =>
    obtain ⟨hk, hrest⟩ := List.forall_mem_cons.1 hkeyword
    cases word with
    | nil => simp [Spells]
    | cons c word =>
      rw [List.map_cons, List.cons.injEq, toUpper_eq_iff hk, ih hrest, Spells, Spells,
        List.forall₂_cons]

/-- A direction is spelled by what becomes its keyword. -/
theorem spells_keyword_iff {word : List Char} {direction : Direction} :
    Spells word direction.keyword.toList ↔ raised (String.ofList word) = direction.keyword := by
  have hcapitals : ∀ k ∈ direction.keyword.toList, 65 ≤ k.toNat ∧ k.toNat ≤ 90 := by
    have hall : (direction.keyword.toList.all fun k => 65 ≤ k.toNat ∧ k.toNat ≤ 90) = true := by
      cases direction <;> decide
    exact fun k hk => of_decide_eq_true (List.all_eq_true.1 hall k hk)
  rw [← map_toUpper_eq_iff hcapitals, ← String.toList_inj, raised, String.toList_ofList,
    String.toList_ofList]

theorem Spells.refl (keyword : List Char) : Spells keyword keyword :=
  List.forall₂_same.2 fun _ _ => .inl rfl

namespace Select

/-- A word denotes the direction whose keyword it spells. -/
theorem directionOf_eq_ok_iff {word : List Char} {direction : Direction} :
    directionOf (String.ofList word) = .ok direction ↔ Spells word direction.keyword.toList := by
  rw [spells_keyword_iff, directionOf]
  generalize raised (String.ofList word) = t
  by_cases hasc : t = "ASC"
  · cases direction <;> simp [hasc, Direction.keyword]
  by_cases hdesc : t = "DESC"
  · cases direction <;> simp [hdesc, Direction.keyword]
  · cases direction <;> simp [hasc, hdesc, Direction.keyword]

theorem directionOf_eq_error {word : String} {e : Error} (h : directionOf word = .error e) :
    e = .unknownOperator (raised word) := by
  simp only [directionOf] at h
  split at h
  · cases h
  split at h
  · cases h
  · exact (Except.error.inj h).symm

/-- No word at all denotes the ascending direction, and two words none. -/
theorem directionOfWords_eq_ok_iff {ws : List (List Char)} {direction : Direction} :
    directionOfWords ws = .ok direction ↔
      (ws = [] ∧ direction = .ascending) ∨
        ∃ word, ws = [word] ∧ Spells word direction.keyword.toList := by
  match ws with
  | [] => cases direction <;> simp [directionOfWords]
  | [word] => simp [directionOfWords, directionOf_eq_ok_iff]
  | word :: extra :: others =>
    rw [directionOfWords]
    cases directionOf (String.ofList word) <;> simp

theorem directionOfWords_eq_error {ws : List (List Char)} {e : Error}
    (h : directionOfWords ws = .error e) : ∃ text, e = .unknownOperator text := by
  match ws with
  | [] => cases h
  | [word] => exact ⟨_, directionOf_eq_error h⟩
  | word :: extra :: others =>
    rw [directionOfWords] at h
    cases hword : directionOf (String.ofList word) with
    | ok direction =>
      rw [hword] at h
      exact ⟨_, (Except.error.inj h).symm⟩
    | error e' =>
      rw [hword] at h
      exact ⟨_, Except.error.inj h ▸ directionOf_eq_error hword⟩

end Select

/-! ## Names -/

theorem Reference.parse_ofList_eq_ok_iff {word : List Char} {r : Reference} :
    Reference.parse (String.ofList word) = .ok r ↔
      ∃ name : Identifier, name.text.toList = word ∧ r = .identifier name := by
  rw [Reference.parse, Identifier.parse]
  constructor
  · intro h
    split at h
    · next hvalid => exact ⟨⟨_, hvalid⟩, String.toList_ofList, (Except.ok.inj h).symm⟩
    · cases h
  · rintro ⟨name, rfl, rfl⟩
    rw [String.ofList_toList, dif_pos name.valid]
    rfl

theorem Reference.parse_eq_error {text : String} {e : Error} (h : Reference.parse text = .error e) :
    e = .invalidIdentifier text := by
  rw [Reference.parse, Identifier.parse] at h
  split at h
  · cases h
  · exact (Except.error.inj h).symm

/-! ## The words of terms -/

/-- A word that neither white space nor a comma cuts. -/
def IsTermWord (word : List Char) : Prop :=
  word ≠ [] ∧ ∀ c ∈ word, isBlank c = false ∧ c ≠ ','

theorem IsTermWord.words_append {word : List Char} (h : IsTermWord word) {rest : List Char}
    (hrest : EndsAtBlank rest) : words (word ++ rest) = word :: words rest :=
  SqlTree.words_append h.1 (fun c hc => (h.2 c hc).1) hrest

theorem IsTermWord.comma_not_mem {word : List Char} (h : IsTermWord word) : ',' ∉ word :=
  fun hc => (h.2 ',' hc).2 rfl

theorem AllBlank.comma_not_mem {cs : List Char} (h : AllBlank cs) : ',' ∉ cs := by
  intro hc
  have hblank := h ',' hc
  revert hblank
  decide

/-- A keyword's spelling is one word. -/
theorem Spells.isTermWord {word : List Char} {direction : Direction}
    (h : Spells word direction.keyword.toList) : IsTermWord word := by
  have hne : direction.keyword.toList ≠ [] := by cases direction <;> decide
  have hkeyword : ∀ k ∈ direction.keyword.toList,
      (isBlank k = false ∧ k ≠ ',') ∧ isBlank k.toLower = false ∧ k.toLower ≠ ',' := by
    have hall : (direction.keyword.toList.all fun k =>
        (isBlank k = false ∧ k ≠ ',') ∧ isBlank k.toLower = false ∧ k.toLower ≠ ',') = true := by
      cases direction <;> decide
    exact fun k hk => of_decide_eq_true (List.all_eq_true.1 hall k hk)
  constructor
  · rintro rfl
    exact hne (List.forall₂_nil_left_iff.1 h)
  · intro c hc
    obtain ⟨i, hi, rfl⟩ := List.mem_iff_getElem.1 hc
    have hlength : i < direction.keyword.toList.length := h.length_eq ▸ hi
    have hk := hkeyword _ (List.getElem_mem hlength)
    have hletter : word[i] = direction.keyword.toList[i] ∨
        word[i] = direction.keyword.toList[i].toLower := List.Forall₂.get h hi hlength
    rcases hletter with hsame | hlower
    · rw [hsame]
      exact hk.1
    · rw [hlower]
      exact hk.2

theorem isBlank_of_isNameChar {c : Char} (h : isNameChar c = true) : isBlank c = false := by
  rcases Bool.or_eq_true_iff.1 h with hword | hother
  · exact isBlank_of_isWordChar hword
  · have hnot : ∀ x ∈ ['.', '*'], isBlank x = false :=
      List.forall_mem_cons.2 ⟨by decide, List.forall_mem_singleton.2 (by decide)⟩
    exact hnot c (of_decide_eq_true hother)

/-- A name is one word. -/
theorem Identifier.isTermWord (i : Identifier) : IsTermWord i.text.toList := by
  have hname : isName (String.ofList i.text.toList) = true := by
    rw [String.ofList_toList]
    exact i.isName_text
  constructor
  · intro hnil
    rw [hnil] at hname
    revert hname
    decide
  · intro c hc
    have hchars := (Bool.and_eq_true_iff.1 i.isName_text).1
    refine ⟨isBlank_of_isNameChar (List.all_eq_true.1 hchars c hc), ?_⟩
    rintro rfl
    exact not_mem_of_isName hname (by decide) hc

/-! ## Terms -/

/-- A term has no comma. -/
theorem IsSortTerm.comma_not_mem {cs : List Char} {term : Identifier × Direction}
    (h : IsSortTerm cs term) : ',' ∉ cs := by
  cases h with
  | plain hbefore name hafter =>
    simp only [List.mem_append, not_or]
    exact ⟨hbefore.comma_not_mem, name.isTermWord.comma_not_mem, hafter.comma_not_mem⟩
  | directed hbefore name hbetween hapart hword hafter =>
    simp only [List.mem_append, not_or]
    exact ⟨hbefore.comma_not_mem, name.isTermWord.comma_not_mem, hbetween.comma_not_mem,
      hword.isTermWord.comma_not_mem, hafter.comma_not_mem⟩

theorem endsAtBlank_append {between : List Char} (h : AllBlank between) (hne : between ≠ [])
    (cs : List Char) : EndsAtBlank (between ++ cs) := by
  obtain ⟨c, between, rfl⟩ := List.exists_cons_of_ne_nil hne
  exact fun x hx => (Option.some.inj hx) ▸ h c List.mem_cons_self

namespace Select

/-- What is written for a term, as sorting has it. -/
def sortTerm (term : Identifier × Direction) : Reference × Direction := (.identifier term.1, term.2)

/-- The words of a term are its name and the word of its direction. -/
theorem orderTerm_of_isSortTerm {cs : List Char} {term : Identifier × Direction}
    (h : IsSortTerm cs term) : orderTerm cs = .ok (sortTerm term) := by
  have hread {name : Identifier} {direction : Direction} (rest : List (List Char))
      (hwords : words cs = name.text.toList :: rest)
      (hrest : directionOfWords rest = .ok direction) :
      orderTerm cs = .ok (.identifier name, direction) := by
    rw [orderTerm, hwords]
    simp only [hrest, Reference.parse_ofList_eq_ok_iff.2 ⟨name, rfl, rfl⟩]
    rfl
  cases h with
  | plain hbefore name hafter =>
    refine hread [] ?_ rfl
    rw [words_blank_append hbefore, name.isTermWord.words_append hafter.endsAtBlank,
      words_of_allBlank hafter]
  | @directed before between word after hbefore name hbetween hapart direction hword hafter =>
    refine hread [word] ?_ (directionOfWords_eq_ok_iff.2 (.inr ⟨word, rfl, hword⟩))
    rw [words_blank_append hbefore,
      name.isTermWord.words_append (endsAtBlank_append hbetween hapart _),
      words_blank_append hbetween, hword.isTermWord.words_append hafter.endsAtBlank,
      words_of_allBlank hafter]

/-- A text that is read as a term is one. -/
theorem isSortTerm_of_orderTerm {cs : List Char} {read : Reference × Direction}
    (h : orderTerm cs = .ok read) : ∃ term, IsSortTerm cs term ∧ read = sortTerm term := by
  rw [orderTerm] at h
  rcases words_cases cs with hblank | ⟨before, w, rest, rfl, hbefore, hrest, hwords⟩
  · rw [words_of_allBlank hblank] at h
    cases h
  rw [hwords] at h
  obtain ⟨direction, hdirection, h⟩ := exists_of_bind_eq_ok h
  obtain ⟨r, hr, h⟩ := exists_of_bind_eq_ok h
  cases h
  obtain ⟨name, rfl, rfl⟩ := Reference.parse_ofList_eq_ok_iff.1 hr
  rcases directionOfWords_eq_ok_iff.1 hdirection with ⟨hnone, rfl⟩ | ⟨word, hone, hword⟩
  · exact ⟨(name, .ascending), .plain hbefore name (allBlank_of_words hnone), rfl⟩
  rcases words_cases rest with hblank | ⟨between, w, after, rfl, hbetween, hafter, hwords'⟩
  · rw [words_of_allBlank hblank] at hone
    cases hone
  rw [hone] at hwords'
  obtain ⟨rfl, hlast⟩ := List.cons.inj hwords'
  refine ⟨(name, direction), .directed hbefore name hbetween ?_ hword
    (allBlank_of_words hlast.symm), rfl⟩
  -- the two words would be one without white space between them
  rintro rfl
  obtain ⟨c, letters, hletters⟩ := List.exists_cons_of_ne_nil hword.isTermWord.1
  have hblank : isBlank c = true := hrest c (by simp [hletters])
  have hvisible := (hword.isTermWord.2 c (by simp [hletters])).1
  rw [hblank] at hvisible
  cases hvisible

theorem orderTerm_eq_error {cs : List Char} {e : Error} (h : orderTerm cs = .error e) :
    (∃ name, e = .invalidIdentifier name) ∨ ∃ word, e = .unknownOperator word := by
  rw [orderTerm] at h
  split at h
  · cases h
    exact .inl ⟨_, rfl⟩
  · next name rest _ =>
    cases hdirection : directionOfWords rest with
    | error e' =>
      rw [hdirection] at h
      cases h
      exact .inr (directionOfWords_eq_error hdirection)
    | ok direction =>
      rw [hdirection] at h
      cases hname : Reference.parse (String.ofList name) with
      | error e' =>
        simp only [hname] at h
        cases h
        exact .inl ⟨_, Reference.parse_eq_error hname⟩
      | ok r =>
        simp only [hname] at h
        cases h

/-! ## Lists of terms -/

theorem isSortList_of_mapM {pieces : List (List Char)} {read : List (Reference × Direction)}
    (hne : pieces ≠ []) (h : pieces.mapM orderTerm = .ok read) :
    ∃ terms, IsSortList (joinWith ',' pieces) terms ∧ read = terms.map sortTerm := by
  induction pieces generalizing read with
  | nil => exact absurd rfl hne
  | cons piece pieces ih =>
    rw [List.mapM_cons] at h
    obtain ⟨first, hfirst, h⟩ := exists_of_bind_eq_ok h
    obtain ⟨others, hothers, h⟩ := exists_of_bind_eq_ok h
    cases h
    obtain ⟨term, hterm, rfl⟩ := isSortTerm_of_orderTerm hfirst
    by_cases hlast : pieces = []
    · subst hlast
      cases hothers
      exact ⟨[term], .last hterm, rfl⟩
    · obtain ⟨terms, hterms, rfl⟩ := ih hlast hothers
      rw [joinWith_cons hlast]
      exact ⟨term :: terms, .more hterm hterms, rfl⟩

theorem mapM_of_isSortList {cs : List Char} {terms : List (Identifier × Direction)}
    (h : IsSortList cs terms) : (splitAt ',' cs).mapM orderTerm = .ok (terms.map sortTerm) := by
  induction h with
  | last hterm =>
    rw [splitAt_of_not_mem hterm.comma_not_mem, List.mapM_cons, orderTerm_of_isSortTerm hterm]
    rfl
  | more hterm _ ih =>
    rw [splitAt_append hterm.comma_not_mem, List.mapM_cons, orderTerm_of_isSortTerm hterm, ih]
    rfl

theorem mapM_orderTerm_eq_error {pieces : List (List Char)} {e : Error}
    (h : pieces.mapM orderTerm = .error e) :
    (∃ name, e = .invalidIdentifier name) ∨ ∃ word, e = .unknownOperator word := by
  induction pieces with
  | nil => cases h
  | cons piece pieces ih =>
    rw [List.mapM_cons] at h
    cases hfirst : orderTerm piece with
    | error e' =>
      rw [hfirst] at h
      cases h
      exact orderTerm_eq_error hfirst
    | ok term =>
      rw [hfirst] at h
      cases hothers : pieces.mapM orderTerm with
      | error e' =>
        rw [hothers] at h
        cases h
        exact ih hothers
      | ok terms =>
        rw [hothers] at h
        cases h

/-- Terms that are added one call after the other. -/
def orderedBy (terms : List (Identifier × Direction)) (s : Select) : Select :=
  terms.foldl (fun s term => s.orderByTerm (.identifier term.1) term.2) s

theorem orderedBy_cons (term : Identifier × Direction) (terms : List (Identifier × Direction))
    (s : Select) :
    s.orderedBy (term :: terms) =
      { s.touched with orderBy := s.orderBy ++ (term :: terms).map sortTerm } := by
  induction terms generalizing term s with
  | nil => rfl
  | cons next terms ih =>
    have hstep : s.orderedBy (term :: next :: terms) =
        (s.orderByTerm (.identifier term.1) term.2).orderedBy (next :: terms) := rfl
    rw [hstep, ih]
    simp [orderByTerm, touched, sortTerm]

theorem orderedBy_of_isSortList {cs : List Char} {terms : List (Identifier × Direction)}
    (h : IsSortList cs terms) (s : Select) :
    s.orderedBy terms = { s.touched with orderBy := s.orderBy ++ terms.map sortTerm } := by
  cases h <;> rw [orderedBy_cons]

theorem order_of_mapM {text : String} {read : List (Reference × Direction)} (s : Select)
    (h : (splitAt ',' text.toList).mapM orderTerm = .ok read) :
    s.order text = .ok { s.touched with orderBy := s.orderBy ++ read } := by
  rw [order, h]
  rfl

/-- Reading the terms of a text is adding them one after the other. -/
theorem order_of_isSortList {text : String} {terms : List (Identifier × Direction)}
    (h : IsSortList text.toList terms) (s : Select) : s.order text = .ok (s.orderedBy terms) := by
  rw [order_of_mapM s (mapM_of_isSortList h), orderedBy_of_isSortList h]

theorem isSortList_of_order {text : String} {s s' : Select} (h : s.order text = .ok s') :
    ∃ terms, IsSortList text.toList terms := by
  obtain ⟨read, hread, -⟩ := exists_of_bind_eq_ok h
  obtain ⟨terms, hterms, -⟩ := isSortList_of_mapM (splitAt_ne_nil ',' text.toList) hread
  rw [joinWith_splitAt] at hterms
  exact ⟨terms, hterms⟩

/-- The usual writing of a term, and of one behind a comma. -/
theorem isSortTerm_sortTermText {before : List Char} (hbefore : AllBlank before)
    (term : Identifier × Direction) : IsSortTerm (before ++ (sortTermText term).toList) term := by
  have hwritten : (sortTermText term).toList =
      term.1.text.toList ++ ([' '] ++ (term.2.keyword.toList ++ [])) := by
    simp [sortTermText]
  rw [hwritten]
  exact .directed hbefore term.1 (by simp [AllBlank]; decide) (by simp) (.refl _) nofun

theorem isSortList_sortText {before : List Char} (hbefore : AllBlank before)
    (term : Identifier × Direction) (terms : List (Identifier × Direction)) :
    IsSortList (before ++ (sortText (term :: terms)).toList) (term :: terms) := by
  induction terms generalizing before term with
  | nil => exact .last (isSortTerm_sortTermText hbefore term)
  | cons next terms ih =>
    have hwritten : (sortText (term :: next :: terms)).toList =
        (sortTermText term).toList ++ ',' :: ([' '] ++ (sortText (next :: terms)).toList) := by
      simp [sortText, joined]
    rw [hwritten, ← List.append_assoc]
    exact .more (isSortTerm_sortTermText hbefore term) (ih (by simp [AllBlank]; decide) next)

/-- A text is accepted if the grammar has terms for it, which are then added
as if one by one; every other text is refused for a name or for a direction;
and any terms at all are read back from the text that they are written as. -/
theorem order_reads_terms (text : String) (s : Select) :
    (∀ s', s.order text = .ok s' ↔ ∃ terms, IsSortList text.toList terms ∧
      s' = s.orderedBy terms ∧ s'.orderBy = s.orderBy ++ terms.map sortTerm) ∧
    (∀ e, s.order text = .error e →
      (∃ name, e = .invalidIdentifier name) ∨ ∃ word, e = .unknownOperator word) ∧
    ∀ terms, terms ≠ [] → IsSortList (sortText terms).toList terms ∧
      s.order (sortText terms) = .ok (s.orderedBy terms) := by
  refine ⟨fun s' => ⟨fun h => ?_, ?_⟩, fun e h => ?_, fun terms hne => ?_⟩
  · obtain ⟨terms, hterms⟩ := isSortList_of_order h
    have hs' : s' = s.orderedBy terms :=
      Except.ok.inj (h.symm.trans (order_of_isSortList hterms s))
    refine ⟨terms, hterms, hs', ?_⟩
    rw [hs', orderedBy_of_isSortList hterms]
  · rintro ⟨terms, hterms, rfl, -⟩
    exact order_of_isSortList hterms s
  · cases hread : (splitAt ',' text.toList).mapM orderTerm with
    | ok read =>
      rw [order_of_mapM s hread] at h
      cases h
    | error e' =>
      rw [order, hread] at h
      cases h
      exact mapM_orderTerm_eq_error hread
  · obtain ⟨term, others, rfl⟩ := List.exists_cons_of_ne_nil hne
    have hterms : IsSortList (sortText (term :: others)).toList (term :: others) :=
      isSortList_sortText (List.forall_mem_nil _) term others
    exact ⟨hterms, order_of_isSortList hterms s⟩

end Select

end SqlTree
