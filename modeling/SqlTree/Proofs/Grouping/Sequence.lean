import Mathlib.Data.List.Forall2
import SqlTree.Proofs.Grouping.Lexeme

/-!
# SqlTree.Proofs.Grouping.Sequence

Conditions one after the other.  A text conveys a formula if a reader,
wherever it begins, has read that formula as one condition at its end
(`Conveys`).  Texts that convey formulas, joined by connectives, are read as
the formula of the sequence (`readCondition_termsText`), and between
parentheses they convey it as one condition (`Conveys.enclosed`).
-/

namespace SqlTree

open Reader

variable {d : Dialect}

/-! ## One condition -/

/-- The condition that has been read at the end of a text. -/
structure Reader.Complete (r : Reader) (o : List Level) (l : Level) (f : Formula) : Prop where
  outer : r.outer = o
  level : r.level = l
  place : r.place = .outside
  word : r.scanned.word = []
  range : r.scanned.range = false
  condition : r.condition? = some f

/-- The text is read as this formula, as one condition. -/
def Conveys (d : Dialect) (s : String) (f : Formula) : Prop :=
  ∀ o l, ∃ r, Reads d (ready o l) s r ∧ r.Complete o l f

namespace Conveys

variable {s : String} {f : Formula}

theorem test (h : Begins d s false) : Conveys d s (.test s) := by
  obtain ⟨hne, hreads⟩ := h
  intro o l
  refine ⟨_, hreads o l, rfl, rfl, rfl, rfl, rfl, ?_⟩
  cases htext : s.toList with
  | nil => exact absurd (String.toList_eq_nil_iff.1 htext) hne
  | cons c cs =>
    have hs : String.ofList (c :: cs) = s := by rw [← htext, String.ofList_toList]
    simp [condition?, inTest, hs]

theorem ne_empty (h : Conveys d s f) : s ≠ "" := by
  rintro rfl
  obtain ⟨r, ⟨r₁, hrun, -, hend⟩, hr⟩ := h [] .empty
  cases hrun
  cases hend
  cases hr.condition

/-- A connective and its blanks end the condition. -/
theorem run_joined (hd : d.QuotesStandOut) (h : Conveys d s f) (o : List Level) (l : Level)
    (op : Connective) :
    run d (ready o l) (s ++ " " ++ op.keyword ++ " ").toList = some (ready o (l.joined f op)) := by
  obtain ⟨⟨o', l', u, ⟨text, gap, word, range⟩, place⟩, hreads, rfl, rfl, rfl, rfl, rfl,
    hcondition⟩ := h o l
  have hblank : ∃ gap', blank ' ' ⟨o', l', u, ⟨text, gap, [], false⟩, .outside⟩ =
      ⟨o', l', u, ⟨text, gap', [], false⟩, .outside⟩ := by
    unfold blank
    split
    · exact ⟨gap, rfl⟩
    · exact ⟨gap ++ [' '], rfl⟩
  obtain ⟨gap', hblank⟩ := hblank
  have hcondition' : ∀ word, condition? ⟨o', l', u, ⟨text, gap', word, false⟩, .outside⟩ = some f :=
    fun _ => hcondition
  have hletters : op.keyword.toList.all isLetter = true := by cases op <;> decide
  have hend : step d ⟨o', l', u, ⟨text, gap', op.keyword.toList, false⟩, .outside⟩ ' ' =
      some (ready o' (l'.joined f op)) := by
    cases op with
    | and =>
      have hword :
          endWord ⟨o', l', u, ⟨text, gap', Connective.and.keyword.toList, false⟩, .outside⟩ =
          some (ready o' (l'.joined f .and)) := congrArg (Option.map _) (hcondition' _)
      simp [step, hd.closer?_of_isSyntax (c := ' ') (by decide), isWordChar, hword, sign, blank,
        ready, Scanned.empty]
    | or =>
      have hword :
          endWord ⟨o', l', u, ⟨text, gap', Connective.or.keyword.toList, false⟩, .outside⟩ =
          some (ready o' (l'.joined f .or)) := congrArg (Option.map _) (hcondition' _)
      simp [step, hd.closer?_of_isSyntax (c := ' ') (by decide), isWordChar, hword, sign, blank,
        ready, Scanned.empty]
  rw [String.toList_append, String.toList_append, String.toList_append, run_append, run_append,
    show " ".toList = [' '] from rfl, hreads.blank hd, Option.bind_some, hblank,
    run_letters hd hletters, Option.bind_some, run_cons, List.nil_append, hend]
  rfl

end Conveys

/-! ## Sequences -/

/-- Texts with connectives that convey formulas with the same
connectives. -/
abbrev ConveyAll (d : Dialect) : List (Connective × String) → List (Connective × Formula) → Prop :=
  List.Forall₂ fun t f => t.1 = f.1 ∧ Conveys d t.2 f.2

/-- What has been read comes before what is read next. -/
theorem Reader.Reads.prepend {r r' r'' : Reader} {s s' : String} (hrun : run d r s.toList = some r')
    (h : Reads d r' s' r'') : Reads d r (s ++ s') r'' := by
  obtain ⟨r₁, hrun', hplace, hend⟩ := h
  refine ⟨r₁, ?_, hplace, hend⟩
  rw [String.toList_append, run_append, hrun, Option.bind_some, hrun']

/-- A sequence is read condition by condition; at its end the last one is
complete. -/
theorem ConveyAll.reads (hd : d.QuotesStandOut) (op : Connective) {s : String} {f : Formula}
    {ts : List (Connective × String)} {fs : List (Connective × Formula)} (hs : Conveys d s f)
    (h : ConveyAll d ts fs) (o : List Level) (l : Level) :
    ∃ r l' f', Reads d (ready o l) (termsText ((op, s) :: ts)) r ∧ r.Complete o l' f' ∧
      l'.closed f' = .ofSequence (l.conditions ++ (l.next, f) :: fs) := by
  induction h generalizing op s f l with
  | nil =>
    obtain ⟨r, hreads, hr⟩ := hs o l
    refine ⟨r, l, f, ?_, hr, rfl⟩
    rwa [termsText, followingText, String.append_empty]
  | @cons t g ts fs htg _ ih =>
    obtain ⟨op', s'⟩ := t
    obtain ⟨op'', f'⟩ := g
    obtain ⟨rfl, hs'⟩ := htg
    obtain ⟨r, l', last, hreads, hr, hclosed⟩ := ih op' hs' (l.joined f op')
    refine ⟨r, l', last, ?_, hr, ?_⟩
    · have htext : termsText ((op, s) :: (op', s') :: ts) =
          s ++ " " ++ op'.keyword ++ " " ++ termsText ((op', s') :: ts) := by
        simp [termsText, followingText, String.append_assoc]
      rw [htext]
      exact .prepend (hs.run_joined hd o l op') hreads
    · rw [hclosed, Level.joined, List.append_assoc, List.singleton_append]

/-- Between parentheses a sequence is one condition. -/
theorem Conveys.enclosed (hd : d.QuotesStandOut) {ts : List (Connective × String)}
    {fs : List (Connective × Formula)} (h : ConveyAll d ts fs) (hne : ts ≠ []) :
    Conveys d (enclosed (termsText ts)) (.ofSequence fs) := by
  cases h with
  | nil => exact absurd rfl hne
  | @cons t f ts fs htf hrest =>
    obtain ⟨op, s⟩ := t
    obtain ⟨op', f⟩ := f
    obtain ⟨rfl, hs⟩ := htf
    intro o l
    obtain ⟨r, l', last, hreads, hr, hclosed⟩ := ConveyAll.reads hd op hs hrest (l :: o) .empty
    have hopen : step d (ready o l) '(' = some (ready (l :: o) .empty) := by
      simp [step, ready, hd.closer?_of_isSyntax (c := '(') (by decide), isWordChar, endWord, sign,
        Scanned.empty, opened]
    have hclose : r.closed = some { ready o l with unit := some (l'.closed last) } := by
      simp only [closed, hr.condition, hr.outer, hr.level]
    refine ⟨{ ready o l with unit := some (l'.closed last) }, ?_, rfl, rfl, rfl, rfl, rfl, ?_⟩
    · refine ⟨{ ready o l with unit := some (l'.closed last) }, ?_, rfl, rfl⟩
      have hchars : (SqlTree.enclosed (termsText ((op, s) :: ts))).toList =
          '(' :: ((termsText ((op, s) :: ts)).toList ++ [')']) := by simp [SqlTree.enclosed]
      rw [hchars, run_cons, hopen, Option.bind_some, hreads.closed hd, hclose]
    · rw [hclosed]
      exact congrArg some (Formula.ofSequence_cons_congr _ _ f fs)

/-- One condition needs no parentheses for that. -/
theorem Conveys.unit (hd : d.QuotesStandOut) {ts : List (Connective × String)}
    {fs : List (Connective × Formula)} (h : ConveyAll d ts fs) (hne : ts ≠ []) :
    Conveys d (if 1 < ts.length then SqlTree.enclosed (termsText ts) else termsText ts)
      (.ofSequence fs) := by
  split
  · exact .enclosed hd h hne
  · next hlength =>
    cases h with
    | nil => exact absurd rfl hne
    | @cons t f ts fs htf hrest =>
      cases hrest with
      | nil =>
        rw [termsText, followingText, String.append_empty, Formula.ofSequence_singleton]
        exact htf.2
      | cons => simp at hlength

/-- A sequence is read as the formula of the sequence. -/
theorem readCondition_termsText (hd : d.QuotesStandOut) {ts : List (Connective × String)}
    {fs : List (Connective × Formula)} (h : ConveyAll d ts fs) :
    readCondition d (termsText ts) = some (.ofSequence fs) := by
  cases h with
  | nil => rfl
  | @cons t f ts fs htf hrest =>
    obtain ⟨op, s⟩ := t
    obtain ⟨op', f⟩ := f
    obtain ⟨rfl, hs⟩ := htf
    obtain ⟨r, l, last, ⟨r₁, hrun, hplace, hend⟩, hr, hclosed⟩ :=
      ConveyAll.reads hd op hs hrest [] .empty
    have hfinish : r.finish = some (l.closed last) := by
      have hsome : ¬(r.unit.isNone = true ∧ r.scanned.text = [] ∧ r.level.conditions = []) := by
        rintro ⟨hunit, htext, -⟩
        have hcondition := hr.condition
        rw [condition?, Option.isNone_iff_eq_none.1 hunit, htext] at hcondition
        cases hcondition
      simp only [finish, hr.outer]
      rw [if_neg hsome, hr.condition, hr.level, Option.map_some]
    rw [readCondition, hrun, Option.bind_some, result, hplace]
    dsimp only
    rw [hend, Option.bind_some, hfinish, hclosed]
    exact congrArg some (Formula.ofSequence_cons_congr _ _ f fs)

/-- One condition is read as its formula. -/
theorem Conveys.readCondition_eq (hd : d.QuotesStandOut) {s : String} {f : Formula}
    (h : Conveys d s f) : readCondition d s = some f := by
  have hall : ConveyAll d [(.and, s)] [(.and, f)] := .cons ⟨rfl, h⟩ .nil
  have hread := readCondition_termsText hd hall
  rwa [termsText, followingText, String.append_empty, Formula.ofSequence_singleton] at hread

end SqlTree
