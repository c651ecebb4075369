import SqlTree.Proofs.Grouping.Nesting

/-!
# SqlTree.Proofs.Grouping.Lexeme

How a reader takes in the pieces of a test.  `Lexeme d a s b` says that the
piece `s`, read after others, becomes a part of the test, where `a` and `b`
tell whether a `BETWEEN` waits for its `AND` before and after it.
`Begins d s b` says the same of a piece that a test begins with, and grows
piece by piece (`Begins.append`).
-/

namespace SqlTree

variable {d : Dialect}

namespace Reader

@[simp] theorem run_nil (r : Reader) : run d r [] = some r := rfl

@[simp] theorem run_cons (r : Reader) (c : Char) (cs : List Char) :
    run d r (c :: cs) = (step d r c).bind fun r => run d r cs := rfl

theorem run_append (r : Reader) (cs cs' : List Char) :
    run d r (cs ++ cs') = (run d r cs).bind fun r => run d r cs' := List.foldlM_append

/-- In a test, of which this text and these blanks have been read. -/
def inTest (outer : List Level) (level : Level) (text gap : List Char) (range : Bool) : Reader :=
  ⟨outer, level, none, ⟨text, gap, [], range⟩, .outside⟩

/-- Once the text has been read and its last word has ended, the reader `r`
has become `r'`. -/
def Reads (d : Dialect) (r : Reader) (s : String) (r' : Reader) : Prop :=
  ∃ r₁, run d r s.toList = some r₁ ∧ r₁.place = .outside ∧ r₁.endWord = some r'

namespace Reads

variable {r r' : Reader} {s : String}

/-- Whatever sign comes next, the word has ended before it. -/
theorem sign (hd : d.QuotesStandOut) (h : Reads d r s r') {c : Char} (hc : isSyntax c = true)
    (hword : isWordChar c = false) (hcolon : c ≠ ':') : run d r (s.toList ++ [c]) = r'.sign c := by
  obtain ⟨r₁, hrun, hplace, hend⟩ := h
  have hstep : step d r₁ c = r'.sign c := by
    simp only [step, hplace, hd.closer?_of_isSyntax hc, hword, hcolon, hend, Bool.false_eq_true,
      or_self, if_false, Option.bind_some]
  rw [run_append, hrun, Option.bind_some, run_cons, hstep]
  cases r'.sign c <;> rfl

theorem blank (hd : d.QuotesStandOut) (h : Reads d r s r') :
    run d r (s.toList ++ [' ']) = some (r'.blank ' ') :=
  h.sign hd (by decide) (by decide) (by decide)

theorem closed (hd : d.QuotesStandOut) (h : Reads d r s r') :
    run d r (s.toList ++ [')']) = r'.closed :=
  h.sign hd (by decide) (by decide) (by decide)

end Reads

/-! ## Words -/

/-- A character of a word or a marker. -/
def isLetter (c : Char) : Bool := isWordChar c || c = ':'

theorem isSyntax_of_isLetter {c : Char} (h : isLetter c = true) : isSyntax c = true := by
  rw [isLetter, Bool.or_eq_true, decide_eq_true_eq] at h
  rcases h with h | rfl
  · rw [isSyntax, isCodeChar, h, Bool.true_or, Bool.true_or]
  · decide

theorem run_letters (hd : d.QuotesStandOut) {o : List Level} {l : Level} {u : Option Formula}
    {text gap word cs : List Char} {b : Bool} (h : cs.all isLetter = true) :
    run d ⟨o, l, u, ⟨text, gap, word, b⟩, .outside⟩ cs = some ⟨o, l, u, ⟨text, gap, word ++ cs, b⟩,
      .outside⟩ := by
  induction cs generalizing word with
  | nil => rw [run_nil, List.append_nil]
  | cons c cs ih =>
    rw [List.all_cons, Bool.and_eq_true] at h
    have hletter : isWordChar c = true ∨ c = ':' := by simpa [isLetter] using h.1
    have hstep : step d ⟨o, l, u, ⟨text, gap, word, b⟩, .outside⟩ c =
        some ⟨o, l, u, ⟨text, gap, word ++ [c], b⟩, .outside⟩ := by
      simp only [step, hd.closer?_of_isSyntax (isSyntax_of_isLetter h.1), if_pos hletter]
    rw [run_cons, hstep, Option.bind_some, ih h.2, List.append_assoc, List.singleton_append]

/-- The words that a reader gives a meaning to. -/
def isKeyword (word : List Char) : Bool :=
  word.map Char.toUpper ∈ [['B', 'E', 'T', 'W', 'E', 'E', 'N'], ['A', 'N', 'D'], ['O', 'R']]

/-! ## Quoted text -/

/-- Up to its closing character a region is read as it is. -/
theorem run_region {o : List Level} {l : Level} {u : Option Formula} {text cs : List Char}
    {b : Bool} {close : Char} (h : close ∉ cs) :
    run d ⟨o, l, u, ⟨text, [], [], b⟩, .quoted close⟩ cs =
      some ⟨o, l, u, ⟨text ++ cs, [], [], b⟩, .quoted close⟩ := by
  induction cs generalizing text with
  | nil => rw [run_nil, List.append_nil]
  | cons c cs ih =>
    rw [List.mem_cons, not_or] at h
    have hstep : step d ⟨o, l, u, ⟨text, [], [], b⟩, .quoted close⟩ c =
        some ⟨o, l, u, ⟨text ++ [c], [], [], b⟩, .quoted close⟩ := by
      simp only [step, add, if_neg (Ne.symm h.1), List.append_nil]
    rw [run_cons, hstep, Option.bind_some, ih h.2, List.append_assoc, List.singleton_append]

theorem run_quoting (hd : d.QuotesStandOut) {o : List Level} {l : Level} {u : Option Formula}
    {text gap cs : List Char} {b : Bool} (h : Quoting d cs) :
    run d ⟨o, l, u, ⟨text, gap, [], b⟩, .outside⟩ cs =
      some ⟨o, l, u, ⟨text ++ gap ++ cs, [], [], b⟩, .outside⟩ := by
  induction h generalizing text gap with
  | @sign c hc =>
    have hplain : isWordChar c = false ∧ c ≠ ':' ∧ c ≠ ' ' ∧ c ≠ '\n' ∧ c ≠ '(' ∧ c ≠ ')' := by
      refine ⟨?_, ?_, ?_, ?_, ?_, ?_⟩
      · rw [Bool.eq_false_iff]
        intro hword
        simp only [isSign, List.mem_cons, List.not_mem_nil, or_false, decide_eq_true_eq] at hc
        rcases hc with rfl | rfl | rfl | rfl | rfl | rfl | rfl | rfl | rfl <;>
          exact absurd hword (by decide)
      all_goals rintro rfl; exact absurd hc (by decide)
    obtain ⟨hword, hcolon, hblank, hline, hopen, hclose⟩ := hplain
    have hstep : step d ⟨o, l, u, ⟨text, gap, [], b⟩, .outside⟩ c =
        some ⟨o, l, u, ⟨text ++ gap ++ [c], [], [], b⟩, .outside⟩ := by
      simp [step, hd.closer?_of_isSyntax (isSyntax_of_isSign hc), hword, hcolon, endWord, sign,
        hblank, hline, hopen, hclose, add]
    rw [run_cons, hstep]
    rfl
  | @region c close cs hclose hcs =>
    have hopen : step d ⟨o, l, u, ⟨text, gap, [], b⟩, .outside⟩ c =
        some ⟨o, l, u, ⟨text ++ gap ++ [c], [], [], b⟩, .quoted close⟩ := by
      simp [step, hclose, endWord, add]
    rw [run_cons, hopen, Option.bind_some, run_append, run_region hcs]
    simp [step, add]
  | append _ _ ih ih' =>
    rw [run_append, ih, Option.bind_some, ih', List.append_nil, ← List.append_assoc]

/-! ## Parentheses of tests -/

/-- Inside the parentheses of a test everything belongs to the test. -/
theorem run_enclosed {o : List Level} {l : Level} {u : Option Formula} {text cs : List Char}
    {b : Bool} {s s' : Nesting} (h : cs.foldlM (Nesting.step d) s = some s') :
    run d ⟨o, l, u, ⟨text, [], [], b⟩, .enclosed s⟩ cs = some ⟨o, l, u, ⟨text ++ cs, [], [], b⟩,
      .enclosed s'⟩ := by
  induction cs generalizing text s with
  | nil =>
    cases h
    rw [run_nil, List.append_nil]
  | cons c cs ih =>
    rw [List.foldlM_cons] at h
    obtain ⟨next, hnext, h⟩ := Option.bind_eq_some_iff.1 h
    have hstep : step d ⟨o, l, u, ⟨text, [], [], b⟩, .enclosed s⟩ c =
        some ⟨o, l, u, ⟨text ++ [c], [], [], b⟩, .enclosed next⟩ := by
      simp only [step, hnext, add, List.append_nil]
    rw [run_cons, hstep, Option.bind_some, ih h, List.append_assoc, List.singleton_append]

end Reader

/-! ## Lexemes -/

open Reader

/-- A piece that is read in a test after other pieces of it. -/
def Lexeme (d : Dialect) (a : Bool) (s : String) (b : Bool) : Prop :=
  ∀ o l text gap, text ≠ [] →
    Reads d (inTest o l text gap a) s (inTest o l (text ++ gap ++ s.toList) [] b)

/-- A piece that a test begins with. -/
def Begins (d : Dialect) (s : String) (b : Bool) : Prop :=
  s ≠ "" ∧ ∀ o l, Reads d (ready o l) s (inTest o l s.toList [] b)

/-- A text that reads the same wherever it stands in a test. -/
structure Steady (d : Dialect) (s : String) : Prop where
  ne : s ≠ ""
  reads : ∀ o l text gap b, Reads d (inTest o l text gap b) s
    (inTest o l (text ++ gap ++ s.toList) [] b)

namespace Steady

theorem lexeme {s : String} (h : Steady d s) (b : Bool) :
    Lexeme d b s b := fun o l text gap _ => h.reads o l text gap b

theorem begins {s : String} (h : Steady d s) :
    Begins d s false := ⟨h.ne, fun o l => h.reads o l [] [] false⟩

theorem quoting (hd : d.QuotesStandOut) {s : String} (hne : s ≠ "") (h : Quoting d s.toList) :
    Steady d s :=
  ⟨hne, fun _ _ _ _ _ => ⟨_, run_quoting hd h, rfl, rfl⟩⟩

theorem letters (hd : d.QuotesStandOut) {s : String} (hletters : s.toList.all isLetter = true)
    (hne : s.toList.map Char.toUpper ≠ []) (hkeyword : isKeyword s.toList = false) :
    Steady d s := by
  refine ⟨by rintro rfl; exact hne rfl, fun o l text gap b => ⟨_, run_letters hd hletters, rfl, ?_⟩⟩
  simp only [isKeyword, List.mem_cons, List.not_mem_nil, or_false, decide_eq_false_iff_not,
    not_or] at hkeyword
  obtain ⟨hbetween, hand, hor⟩ := hkeyword
  simp only [endWord, List.nil_append, if_neg hne, if_neg hbetween, if_neg hand, if_neg hor]
  simp [addWord, add, inTest]

end Steady

namespace Begins

theorem append {s s' : String} {a b : Bool} (hd : d.QuotesStandOut) (h : Begins d s a)
    (h' : Lexeme d a s' b) : Begins d (s ++ " " ++ s') b := by
  obtain ⟨hne, hreads⟩ := h
  refine ⟨by simp [String.append_eq_empty_iff, hne], fun o l => ?_⟩
  have htext : s.toList ≠ [] := mt String.toList_eq_nil_iff.1 hne
  have hblank : (inTest o l s.toList [] a).blank ' ' = inTest o l s.toList [' '] a := by
    simp [blank, inTest, htext]
  obtain ⟨r₁, hrun, hplace, hend⟩ := h' o l s.toList [' '] htext
  refine ⟨r₁, ?_, hplace, ?_⟩
  · rw [String.toList_append, String.toList_append, run_append, show " ".toList = [' '] from rfl,
      (hreads o l).blank hd, hblank]
    exact hrun
  · rw [hend, String.toList_append, String.toList_append]
    rfl

/-- A test may be turned around by a word before its last piece. -/
theorem append_negated {s s' : String} {a b : Bool} (hd : d.QuotesStandOut) (h : Begins d s a)
    (negated : Bool) (h' : Lexeme d a s' b) : Begins d (s ++ " " ++ notWord negated ++ s') b := by
  cases negated with
  | false =>
    rw [notWord, if_neg Bool.false_ne_true, String.append_empty]
    exact h.append hd h'
  | true =>
    have hnot : Steady d "NOT" := .letters hd (by decide) (by decide) (by decide)
    have hall := (h.append hd (hnot.lexeme a)).append hd h'
    rw [notWord, if_pos rfl, show "NOT " = "NOT" ++ " " from rfl, ← String.append_assoc]
    exact hall

end Begins

/-! ## The pieces of tests -/

namespace Steady

theorem marker (hd : d.QuotesStandOut) (c : Collector) (b : Binding) :
    Steady d (c.record b.value b.type b.hint).1 := by
  rcases c.record_eq_mark_or_word b with h | ⟨w, hw, h⟩
  · rw [h]
    exact .quoting hd (by decide) (.sign (by decide))
  · refine .letters hd ?_ ?_ ?_ <;> rw [h]
    · rw [List.all_cons, List.all_eq_true.2 fun c hc => ?_]
      · rfl
      · rw [isLetter, List.all_eq_true.1 (all_isWordChar_of_isWord hw) c hc, Bool.true_or]
    · exact List.cons_ne_nil _ _
    · simp [isKeyword]

theorem identifier (hd : d.QuotesStandOut) (i : Identifier) : Steady d (i.quoted d) :=
  .quoting hd (Draft.quoteIdentifier_ne_empty _) (.quoteIdentifier hd i.isCode_text)

theorem label (hd : d.QuotesStandOut) (a : Alias) : Steady d (a.quoted d) :=
  .quoting hd (Draft.quoteAlias_ne_empty _) (.quoteAlias hd a.isCode_text)

theorem charLiteral (hd : d.QuotesStandOut) (c : Char) : Steady d (charLiteral d.valueQuote c) :=
  .quoting hd (Draft.charLiteral_ne_empty _ _) (.charLiteral c)

theorem reference (hd : d.QuotesStandOut) {r : Reference} (h : r.raws = []) :
    Steady d (r.quoted d) := by
  cases r with
  | identifier i => exact identifier hd i
  | «alias» a => exact label hd a
  | literal l => cases h

theorem comparison (hd : d.QuotesStandOut) (op : Comparison) : Steady d op.symbol := by
  have hsign {c : Char} (h : isSign c = true) : Quoting d [c] := .sign h
  cases op with
  | eq => exact .quoting hd (by decide) (hsign (c := '=') (by decide))
  | ne =>
    exact .quoting hd (by decide)
        ((hsign (c := '!') (by decide)).append (hsign (c := '=') (by decide)))
  | lt => exact .quoting hd (by decide) (hsign (c := '<') (by decide))
  | le =>
    exact .quoting hd (by decide)
        ((hsign (c := '<') (by decide)).append (hsign (c := '=') (by decide)))
  | gt => exact .quoting hd (by decide) (hsign (c := '>') (by decide))
  | ge =>
    exact .quoting hd (by decide)
        ((hsign (c := '>') (by decide)).append (hsign (c := '=') (by decide)))

theorem truth (hd : d.QuotesStandOut) (word : Truth) : Steady d word.keyword := by
  cases word <;> exact .letters hd (by decide) (by decide) (by decide)

theorem quantifier (hd : d.QuotesStandOut) (q : Quantifier) : Steady d q.keyword := by
  cases q <;> exact .letters hd (by decide) (by decide) (by decide)

end Steady

namespace Lexeme

/-- Letters that make up a keyword, read as a word of the test. -/
theorem keyword (hd : d.QuotesStandOut) {s : String} {a b : Bool}
    (hletters : s.toList.all isLetter = true)
    (hend : ∀ o l text gap, endWord ⟨o, l, none, ⟨text, gap, s.toList, a⟩, .outside⟩ =
      some (inTest o l (text ++ gap ++ s.toList) [] b)) : Lexeme d a s b :=
  fun o l text gap _ => ⟨_, run_letters hd hletters, rfl, hend o l text gap⟩

theorem between (hd : d.QuotesStandOut) : Lexeme d false "BETWEEN" true :=
  keyword hd (by decide) fun _ _ _ _ => rfl

/-- The first `AND` after a `BETWEEN` belongs to it. -/
theorem and (hd : d.QuotesStandOut) : Lexeme d true "AND" false :=
  keyword hd (by decide) fun _ _ _ _ => rfl

/-- In a test, parentheses hide what they hold. -/
theorem enclosed (hd : d.QuotesStandOut) {s : String} (h : Balanced d s.toList) (b : Bool) :
    Lexeme d b (enclosed s) b := by
  intro o l text gap htext
  have hopen : step d (inTest o l text gap b) '(' =
      some ⟨o, l, none, ⟨text ++ gap ++ ['('], [], [], b⟩, .enclosed ⟨0, none⟩⟩ := by
    simp [step, inTest, hd.closer?_of_isSyntax (c := '(') (by decide), isWordChar, endWord, sign,
      htext, add]
  have hclose (text : List Char) : step d ⟨o, l, none, ⟨text, [], [], b⟩, .enclosed ⟨0, none⟩⟩ ')' =
      some (inTest o l (text ++ [')']) [] b) := by
    simp [step, Nesting.step, add, inTest]
  have hchars : (SqlTree.enclosed s).toList = '(' :: (s.toList ++ [')']) := by
    simp [SqlTree.enclosed]
  refine ⟨inTest o l (text ++ gap ++ (SqlTree.enclosed s).toList) [] b, ?_, rfl, rfl⟩
  rw [hchars, run_cons, hopen, Option.bind_some, run_append, run_enclosed (h 0), Option.bind_some,
    run_cons, hclose]
  simp

end Lexeme

end SqlTree
