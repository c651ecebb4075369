import SqlTree.Proofs.Grouping.Nesting
import SqlTree.Proofs.Requoting

/-!
# SqlTree.Proofs.Combined.Words

The words of a text as a reader sees them who does not look into quotes and
parentheses.  A blank out there ends a word; whatever stands in quotes or
between parentheses is a part of the word around it, blanks included
(`outerWords`).  Two texts with a blank between them have the words of the
one and then those of the other (`outerWords_append`), and quoting prefixes
changes no word without a dot (`plainWords_quotePrefixes`).
-/

namespace SqlTree

variable {d : Dialect}

/-! ## Words -/

/-- The word that ends here, if it has begun. -/
def endedWord (word : List Char) : List (List Char) := if word = [] then [] else [word]

/-- The character is a blank outside of quotes and parentheses. -/
def Nesting.separates (d : Dialect) (s : Nesting) (c : Char) : Bool :=
  s.depth == 0 && s.quote.isNone && (d.closer? c).isNone && isBlank c

/-- The words of a text from a position on, with a word begun before it. -/
def outerWordsFrom (d : Dialect) : Nesting → List Char → List Char → List (List Char)
  | _, word, [] => endedWord word
  | s, word, c :: cs =>
    if s.separates d c then endedWord word ++ outerWordsFrom d s [] cs
    else outerWordsFrom d ((s.step d c).getD s) (word ++ [c]) cs

/-- The words of a text outside of quotes and parentheses. -/
def outerWords (d : Dialect) (cs : List Char) : List (List Char) := outerWordsFrom d ⟨0, none⟩ [] cs

/-- A blank leaves the position as it is. -/
theorem Nesting.step_of_separates {s : Nesting} {c : Char} (h : s.separates d c = true) :
    s.step d c = some s := by
  obtain ⟨depth, quote⟩ := s
  simp only [separates, Bool.and_eq_true, beq_iff_eq, Option.isNone_iff_eq_none] at h
  obtain ⟨⟨⟨rfl, rfl⟩, hclose⟩, hblank⟩ := h
  have hopening : c ≠ '(' := by rintro rfl; exact absurd hblank (by decide)
  have hclosing : c ≠ ')' := by rintro rfl; exact absurd hblank (by decide)
  simp only [step, if_neg hopening, if_neg hclosing, hclose]

/-- Where the first text ends outside, a blank behind it ends its last word. -/
theorem outerWordsFrom_append_blank (hd : d.QuotesStandOut) {s : Nesting} {xs : List Char}
    (h : xs.foldlM (Nesting.step d) s = some ⟨0, none⟩) (word ys : List Char) :
    outerWordsFrom d s word (xs ++ ' ' :: ys) = outerWordsFrom d s word xs ++ outerWords d ys := by
  induction xs generalizing s word with
  | nil =>
    cases h
    have hblank : Nesting.separates d ⟨0, none⟩ ' ' = true := by
      simp [Nesting.separates, hd.closer?_of_isSyntax (c := ' ') (by decide), isBlank]
    rw [List.nil_append, outerWordsFrom, outerWordsFrom, if_pos hblank, outerWords]
  | cons c xs ih =>
    rw [List.foldlM_cons] at h
    obtain ⟨next, hnext, h⟩ := Option.bind_eq_some_iff.1 h
    rw [List.cons_append, outerWordsFrom, outerWordsFrom]
    by_cases hblank : s.separates d c = true
    · rw [Nesting.step_of_separates hblank] at hnext
      cases hnext
      rw [if_pos hblank, if_pos hblank, ih h, List.append_assoc]
    · rw [if_neg hblank, if_neg hblank, hnext, Option.getD_some, ih h]

theorem outerWords_append_blank (hd : d.QuotesStandOut) {xs : List Char} (h : Balanced d xs)
    (ys : List Char) : outerWords d (xs ++ ' ' :: ys) = outerWords d xs ++ outerWords d ys :=
  outerWordsFrom_append_blank hd (h 0) [] ys

theorem outerWords_blank (hd : d.QuotesStandOut) (cs : List Char) :
    outerWords d (' ' :: cs) = outerWords d cs :=
  outerWords_append_blank hd (show Balanced d [] from fun _ => rfl) cs

/-- The text is nothing, or something behind a blank. -/
def StandsApart (cs : List Char) : Prop := cs = [] ∨ ∃ rest, cs = ' ' :: rest

theorem StandsApart.append {xs ys : List Char} (hx : StandsApart xs) (hy : StandsApart ys) :
    StandsApart (xs ++ ys) := by
  obtain rfl | ⟨rest, rfl⟩ := hx
  · exact hy
  · exact .inr ⟨rest ++ ys, rfl⟩

/-- The words of what stands apart are words of their own. -/
theorem outerWords_append (hd : d.QuotesStandOut) {xs ys : List Char} (hx : Balanced d xs)
    (hy : StandsApart ys) : outerWords d (xs ++ ys) = outerWords d xs ++ outerWords d ys := by
  obtain rfl | ⟨rest, rfl⟩ := hy
  · rw [List.append_nil, outerWords, outerWords, outerWordsFrom, endedWord, if_pos rfl,
      List.append_nil]
  · rw [outerWords_append_blank hd hx, outerWords_blank hd]

/-! ## Pieces of one word -/

/-- Names are made of neither parentheses nor blanks. -/
theorem isSyntax_of_isNameChar {c : Char} (h : isNameChar c = true) :
    isSyntax c = true ∧ c ≠ '(' ∧ c ≠ ')' ∧ isBlank c = false := by
  have hnot {x : Char} (hx : isNameChar x = false) : c ≠ x := by
    rintro rfl
    rw [h] at hx
    cases hx
  refine ⟨isSyntax_of_isCodeChar (isCodeChar_of_isNameChar h), hnot (by decide), hnot (by decide),
    ?_⟩
  simp only [isNameChar, Bool.or_eq_true, List.mem_cons, List.not_mem_nil, or_false,
    decide_eq_true_eq] at h
  obtain h | rfl | rfl := h
  · exact isBlank_of_isWordChar h
  · decide
  · decide

theorem isSyntax_of_isWordChar {c : Char} (h : isWordChar c = true) :
    isSyntax c = true ∧ c ≠ '(' ∧ c ≠ ')' ∧ isBlank c = false :=
  isSyntax_of_isNameChar (by rw [isNameChar, h, Bool.true_or])

/-- Wherever it stands, the text goes on the word that has begun, and does
not end it. -/
def Unbroken (d : Dialect) (cs : List Char) : Prop :=
  ∀ n word ys,
    outerWordsFrom d ⟨n, none⟩ word (cs ++ ys) = outerWordsFrom d ⟨n, none⟩ (word ++ cs) ys

namespace Unbroken

variable {cs cs' : List Char}

theorem append (h : Unbroken d cs) (h' : Unbroken d cs') : Unbroken d (cs ++ cs') := by
  intro n word ys
  rw [List.append_assoc, h, h', List.append_assoc]

/-- It is one word if it stands alone. -/
theorem outerWords_eq (h : Unbroken d cs) (hne : cs ≠ []) : outerWords d cs = [cs] := by
  have heq := h 0 [] []
  rw [List.append_nil, List.nil_append, outerWordsFrom, endedWord, if_neg hne] at heq
  exact heq

/-- What SQL is made of, without parentheses and blanks. -/
theorem of_isSyntax (hd : d.QuotesStandOut)
    (h : ∀ c ∈ cs, isSyntax c = true ∧ c ≠ '(' ∧ c ≠ ')' ∧ isBlank c = false) : Unbroken d cs := by
  intro n word ys
  induction cs generalizing word with
  | nil => rw [List.nil_append, List.append_nil]
  | cons c cs ih =>
    obtain ⟨⟨hc, hopen, hclose, hblank⟩, hcs⟩ := List.forall_mem_cons.1 h
    have hstep : Nesting.step d ⟨n, none⟩ c = some ⟨n, none⟩ := by
      simp only [Nesting.step, if_neg hopen, if_neg hclose, hd.closer?_of_isSyntax hc]
    have hgoes : ¬Nesting.separates d ⟨n, none⟩ c = true := by simp [Nesting.separates, hblank]
    rw [List.cons_append, outerWordsFrom, if_neg hgoes, hstep, Option.getD_some, ih hcs,
      List.append_assoc, List.singleton_append]

end Unbroken

/-- Up to its closing character a region is a part of the word. -/
theorem outerWordsFrom_region {n : Nat} {close : Char} {cs : List Char} (h : close ∉ cs)
    (word ys : List Char) :
    outerWordsFrom d ⟨n, some close⟩ word (cs ++ ys) =
      outerWordsFrom d ⟨n, some close⟩ (word ++ cs) ys := by
  induction cs generalizing word with
  | nil => rw [List.nil_append, List.append_nil]
  | cons c cs ih =>
    rw [List.mem_cons, not_or] at h
    have hgoes : ¬Nesting.separates d ⟨n, some close⟩ c = true := by simp [Nesting.separates]
    have hstep : Nesting.step d ⟨n, some close⟩ c = some ⟨n, some close⟩ := by
      simp only [Nesting.step, if_neg (Ne.symm h.1)]
    rw [List.cons_append, outerWordsFrom, if_neg hgoes, hstep, Option.getD_some, ih h.2,
      List.append_assoc, List.singleton_append]

/-- Inside parentheses everything is a part of the word. -/
theorem outerWordsFrom_inside {s s' : Nesting} {cs : List Char}
    (h : cs.foldlM (Nesting.step d) s = some s') (word ys : List Char) :
    outerWordsFrom d ⟨s.depth + 1, s.quote⟩ word (cs ++ ys) =
      outerWordsFrom d ⟨s'.depth + 1, s'.quote⟩ (word ++ cs) ys := by
  induction cs generalizing s word with
  | nil =>
    cases h
    rw [List.nil_append, List.append_nil]
  | cons c cs ih =>
    rw [List.foldlM_cons] at h
    obtain ⟨next, hnext, h⟩ := Option.bind_eq_some_iff.1 h
    have hgoes : ¬Nesting.separates d ⟨s.depth + 1, s.quote⟩ c = true := by simp [Nesting.separates]
    have hstep : Nesting.step d ⟨s.depth + 1, s.quote⟩ c = some ⟨next.depth + 1, next.quote⟩ := by
      obtain ⟨depth, quote⟩ := s
      unfold Nesting.step at hnext ⊢
      grind
    rw [List.cons_append, outerWordsFrom, if_neg hgoes, hstep, Option.getD_some, ih h,
      List.append_assoc, List.singleton_append]

namespace Unbroken

variable {cs : List Char}

theorem enclosed (hd : d.QuotesStandOut) (h : Balanced d cs) :
    Unbroken d ('(' :: (cs ++ [')'])) := by
  intro n word ys
  have hclose : d.closer? '(' = none ∧ d.closer? ')' = none :=
    ⟨hd.closer?_of_isSyntax (by decide), hd.closer?_of_isSyntax (by decide)⟩
  have hopening : ¬Nesting.separates d ⟨n, none⟩ '(' = true := by simp [Nesting.separates, isBlank]
  have hclosing : ¬Nesting.separates d ⟨n + 1, none⟩ ')' = true := by simp [Nesting.separates]
  have hopen : Nesting.step d ⟨n, none⟩ '(' = some ⟨n + 1, none⟩ := rfl
  have hshut : Nesting.step d ⟨n + 1, none⟩ ')' = some ⟨n, none⟩ := rfl
  rw [List.cons_append, outerWordsFrom, if_neg hopening, hopen, Option.getD_some, List.append_assoc,
    outerWordsFrom_inside (h n), List.singleton_append, outerWordsFrom, if_neg hclosing, hshut,
    Option.getD_some]
  simp

theorem quoting (hd : d.QuotesStandOut) (h : Quoting d cs) : Unbroken d cs := by
  induction h with
  | @sign c hc =>
    refine of_isSyntax hd fun x hx => ?_
    rw [List.mem_singleton.1 hx]
    simp only [isSign, List.mem_cons, List.not_mem_nil, or_false, decide_eq_true_eq] at hc
    rcases hc with rfl | rfl | rfl | rfl | rfl | rfl | rfl | rfl | rfl <;> decide
  | @region c close cs hclose hcs =>
    intro n word ys
    have hopening : ¬Nesting.separates d ⟨n, none⟩ c = true := by simp [Nesting.separates, hclose]
    have hclosing : ¬Nesting.separates d ⟨n, some close⟩ close = true := by simp [Nesting.separates]
    have hshut : Nesting.step d ⟨n, some close⟩ close = some ⟨n, none⟩ := by
      simp only [Nesting.step, if_true]
    rw [List.cons_append, outerWordsFrom, if_neg hopening, hd.step_quote hclose, Option.getD_some,
      List.append_assoc, outerWordsFrom_region hcs, List.singleton_append, outerWordsFrom,
      if_neg hclosing, hshut, Option.getD_some]
    simp
  | append _ _ ih ih' => exact ih.append ih'

end Unbroken

/-! ## Words of code -/

/-- Plain code has the words between its blanks. -/
theorem outerWords_of_isCode (hd : d.QuotesStandOut) {cs : List Char}
    (h : cs.all isCodeChar = true) : outerWords d cs = words cs := by
  have hfrom (word : List Char) :
      outerWordsFrom d ⟨0, none⟩ word cs = wordsFrom word.reverse cs := by
    induction cs generalizing word with
    | nil =>
      rcases word.eq_nil_or_concat' with rfl | ⟨word, c, rfl⟩ <;>
        simp [outerWordsFrom, endedWord, wordsFrom]
    | cons c cs ih =>
      rw [List.all_cons, Bool.and_eq_true] at h
      have hopening : c ≠ '(' := by rintro rfl; exact absurd h.1 (by decide)
      have hclosing : c ≠ ')' := by rintro rfl; exact absurd h.1 (by decide)
      have hclose : d.closer? c = none := hd.closer?_of_isSyntax (isSyntax_of_isCodeChar h.1)
      have hstep : Nesting.step d ⟨0, none⟩ c = some ⟨0, none⟩ := by
        simp only [Nesting.step, if_neg hopening, if_neg hclosing, hclose]
      have hsplit : Nesting.separates d ⟨0, none⟩ c = isBlank c := by
        simp [Nesting.separates, hclose]
      rw [outerWordsFrom, hsplit, hstep, Option.getD_some, ih h.2, ih h.2]
      rcases word.eq_nil_or_concat' with rfl | ⟨word, x, rfl⟩ <;> simp [endedWord, wordsFrom]
  exact hfrom []

/-! ## Words with prefixes -/

/-- What is left of a word when the names before its dots are not told
apart. -/
def unprefixed (word : List Char) : List Char := if '.' ∈ word then ['.'] else word

theorem unprefixed_eq_iff {w v : List Char} :
    unprefixed w = unprefixed v ↔ w = v ∨ '.' ∈ w ∧ '.' ∈ v := by
  unfold unprefixed
  grind

theorem map_unprefixed_endedWord {w v : List Char} (h : unprefixed w = unprefixed v) :
    (endedWord w).map unprefixed = (endedWord v).map unprefixed := by
  have hnil : w = [] ↔ v = [] := by
    rcases unprefixed_eq_iff.1 h with rfl | ⟨hw, hv⟩
    · rfl
    · constructor <;> rintro rfl <;> contradiction
  unfold endedWord
  by_cases hw : w = []
  · rw [if_pos hw, if_pos (hnil.1 hw)]
  · rw [if_neg hw, if_neg (mt hnil.2 hw), List.map_singleton, List.map_singleton, h]

theorem unprefixed_append_congr {w v : List Char} (h : unprefixed w = unprefixed v)
    (cs : List Char) : unprefixed (w ++ cs) = unprefixed (v ++ cs) := by
  rw [unprefixed_eq_iff] at h ⊢
  grind

/-- Quoting prefixes moves no word and changes none without a dot. -/
theorem Requoted.outerWordsFrom {names : List (List Char)} {s : Scan} {cs out : List Char}
    (h : Requoted d names s cs out) (hd : d.QuotesStandOut)
    (hnames : ∀ name ∈ names, isName (String.ofList name) = true) (n : Nat) {w v : List Char}
    (hword : unprefixed w = unprefixed v) :
    (outerWordsFrom d ⟨n, s.quote⟩ v out).map unprefixed =
      (outerWordsFrom d ⟨n, s.quote⟩ w cs).map unprefixed := by
  -- both sides read the same character at the same position
  have hcopied {t : Nesting} {c : Char} {cs out : List Char}
      (ih : ∀ {w v : List Char}, unprefixed w = unprefixed v →
        (SqlTree.outerWordsFrom d ((t.step d c).getD t) v out).map unprefixed =
          (SqlTree.outerWordsFrom d ((t.step d c).getD t) w cs).map unprefixed)
      {w v : List Char} (hword : unprefixed w = unprefixed v) :
      (SqlTree.outerWordsFrom d t v (c :: out)).map unprefixed =
        (SqlTree.outerWordsFrom d t w (c :: cs)).map unprefixed := by
    rw [SqlTree.outerWordsFrom, SqlTree.outerWordsFrom]
    by_cases hblank : t.separates d c = true
    · have hstep := Nesting.step_of_separates hblank
      rw [hstep, Option.getD_some] at ih
      rw [if_pos hblank, if_pos hblank, List.map_append, List.map_append,
        map_unprefixed_endedWord hword, ih (w := []) (v := []) rfl]
    · rw [if_neg hblank, if_neg hblank]
      exact ih (unprefixed_append_congr hword [c])
  induction h generalizing n w v with
  | nil =>
    rw [SqlTree.outerWordsFrom, SqlTree.outerWordsFrom]
    exact (map_unprefixed_endedWord hword).symm
  | @inside close c cs out h ih =>
    have hquote : (Scan.advanceInside close c).quote = if c = close then none else some close := by
      unfold Scan.advanceInside
      split <;> rfl
    refine hcopied (fun hword => ?_) hword
    rw [Scan.quote, Nesting.step, Option.getD_some, ← hquote]
    exact ih n hword
  | @opened previous close c cs out hclose h ih =>
    refine hcopied (fun hword => ?_) hword
    rw [Scan.quote_outside, hd.step_quote hclose, Option.getD_some]
    exact ih n hword
  | @name previous name cs out hprevious hname h ih =>
    have hisName := hnames name hname
    have hcode := isCode_of_isName hisName
    have hdot : Unbroken d ['.'] := .quoting hd (.sign (by decide))
    have hplain : Unbroken d name := by
      refine .of_isSyntax hd fun c hc => isSyntax_of_isNameChar ?_
      refine List.all_eq_true.1 (Bool.and_eq_true_iff.1 hisName).1 c ?_
      rwa [String.toList_ofList]
    have hquoted := Unbroken.quoting hd (Quoting.quoteIdentifier hd hcode)
    have hleft := hplain.append hdot
    have hright := hquoted.append hdot
    rw [Scan.quote_outside, List.append_cons name, List.append_cons _ '.' out, hleft, hright]
    refine ih n (unprefixed_eq_iff.2 (.inr ⟨?_, ?_⟩)) <;> simp
  | @plain previous c cs out hclose h ih =>
    refine hcopied (fun hword => ?_) hword
    have hnext : ∃ m, (Nesting.step d ⟨n, none⟩ c).getD ⟨n, none⟩ = ⟨m, none⟩ := by
      unfold Nesting.step
      by_cases hopening : c = '('
      · exact ⟨n + 1, by rw [if_pos hopening]; rfl⟩
      · by_cases hclosing : c = ')'
        · cases n with
          | zero => exact ⟨0, by rw [if_neg hopening, if_pos hclosing]; rfl⟩
          | succ n => exact ⟨n, by rw [if_neg hopening, if_pos hclosing]; rfl⟩
        · exact ⟨n, by simp only [if_neg hopening, if_neg hclosing, hclose, Option.getD_some]⟩
    obtain ⟨m, hm⟩ := hnext
    rw [Scan.quote_outside, hm]
    exact ih m hword

/-- The words of a text outside of quotes and parentheses, with the names
before dots not told apart. -/
def plainWords (d : Dialect) (sql : String) : List (List Char) :=
  (outerWords d sql.toList).map unprefixed

theorem plainWords_append (hd : d.QuotesStandOut) {s t : String} (hs : Balanced d s.toList)
    (ht : StandsApart t.toList) : plainWords d (s ++ t) = plainWords d s ++ plainWords d t := by
  rw [plainWords, String.toList_append, outerWords_append hd hs ht, List.map_append]
  rfl

theorem plainWords_blank (hd : d.QuotesStandOut) (s : String) :
    plainWords d (" " ++ s) = plainWords d s := by
  have hcons : (" " ++ s).toList = ' ' :: s.toList := by simp
  rw [plainWords, hcons, outerWords_blank hd, plainWords]

/-- Code in front has the words between its blanks. -/
theorem plainWords_code (hd : d.QuotesStandOut) {word : String} (h : isCode word = true)
    (s : String) :
    plainWords d (word ++ " " ++ s) = (words word.toList).map unprefixed ++ plainWords d s := by
  have hapart : StandsApart (" " ++ s).toList := .inr ⟨s.toList, by simp⟩
  rw [String.append_assoc, plainWords_append hd (.of_isCode hd h) hapart, plainWords_blank hd,
    plainWords, outerWords_of_isCode hd h]

/-- Quoting prefixes does not change them. -/
theorem plainWords_quotePrefixes (hd : d.QuotesStandOut) {names : List String}
    (hnames : ∀ name ∈ names, isName name = true) (sql : String) :
    plainWords d (d.quotePrefixes names sql) = plainWords d sql := by
  have hall : ∀ name ∈ names.map String.toList, isName (String.ofList name) = true := by
    intro name hname
    obtain ⟨s, hs, rfl⟩ := List.mem_map.1 hname
    rw [String.ofList_toList]
    exact hnames s hs
  exact (d.requoted_quotePrefixes names sql).outerWordsFrom hd hall 0 rfl

end SqlTree
