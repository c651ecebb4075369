import SqlTree.Proofs.Composed.Basic

/-!
# SqlTree.Proofs.Layout.Text

Layout in a text.  `onOneLine` takes every newline out of a text, with the
blanks behind it.  `Laid` relates a text to one that has layout in it:
newlines with blanks behind them, each in front of a word that a blank
follows.  What such texts come to on one line is the same.
-/

namespace SqlTree

/-! ## One line -/

/-- The text without its newlines and the blanks behind them.  A blank is
dropped if nothing but blanks stands between it and a newline, which is
what `starts` says of the text so far. -/
def onOneLineFrom (starts : Bool) : List Char → List Char
  | [] => []
  | c :: cs =>
    if c = '\n' then onOneLineFrom true cs
    else if starts ∧ c = ' ' then onOneLineFrom true cs
    else c :: onOneLineFrom false cs

/-- The text without its newlines and the blanks behind them. -/
def onOneLine (sql : String) : String := String.ofList (onOneLineFrom false sql.toList)

theorem onOneLineFrom_plain {c : Char} (hline : c ≠ '\n') (hblank : c ≠ ' ') (starts : Bool)
    (cs : List Char) : onOneLineFrom starts (c :: cs) = c :: onOneLineFrom false cs := by
  rw [onOneLineFrom, if_neg hline, if_neg fun h => hblank h.2]

theorem onOneLineFrom_blanks (n : Nat) (cs : List Char) :
    onOneLineFrom true (List.replicate n ' ' ++ cs) = onOneLineFrom true cs := by
  induction n with
  | zero => rfl
  | succ n ih =>
    rw [List.replicate_succ, List.cons_append, onOneLineFrom, if_neg (by decide),
      if_pos ⟨rfl, rfl⟩, ih]

/-- A text on one line stays as it is. -/
theorem onOneLine_of_not_mem {sql : String} (h : '\n' ∉ sql.toList) : onOneLine sql = sql := by
  have hstays {cs : List Char} (hcs : '\n' ∉ cs) : onOneLineFrom false cs = cs := by
    induction cs with
    | nil => rfl
    | cons c cs ih =>
      obtain ⟨hc, hrest⟩ := not_or.1 (mt List.mem_cons.2 hcs)
      rw [onOneLineFrom, if_neg (Ne.symm hc), if_neg fun h => Bool.false_ne_true h.1, ih hrest]
  rw [onOneLine, hstays h, String.ofList_toList]

/-! ## Layout -/

/-- A word that layout may stand in front of: no dot, no apostrophe, no
blank and no newline is in it. -/
structure IsLineWord (w : List Char) : Prop where
  ne_nil : w ≠ []
  dot : '.' ∉ w
  apostrophe : '\'' ∉ w
  blank : ' ' ∉ w
  newline : '\n' ∉ w

/-- A text, and the same text without the layout in it.  The blanks behind a
newline come in fours. -/
inductive Laid : List Char → List Char → Prop where
  | nil : Laid [] []
  | char {t t' : List Char} (c : Char) (h : Laid t t') : Laid (c :: t) (c :: t')
  | line {t t' w : List Char} (levels : Nat) (hw : IsLineWord w) (h : Laid t t') :
      Laid ('\n' :: (List.replicate (4 * levels) ' ' ++ (w ++ ' ' :: t))) (w ++ ' ' :: t')

namespace Laid

variable {s s' t t' : List Char}

theorem refl (t : List Char) : Laid t t := by
  induction t with
  | nil => exact .nil
  | cons c t ih => exact .char c ih

theorem append (hs : Laid s s') (ht : Laid t t') : Laid (s ++ t) (s' ++ t') := by
  induction hs with
  | nil => exact ht
  | char c _ ih => exact .char c ih
  | line levels hw _ ih =>
    simp only [List.cons_append, List.append_assoc]
    exact .line levels hw ih

theorem append_left (s : List Char) (ht : Laid t t') : Laid (s ++ t) (s ++ t') := (refl s).append ht

theorem eq_nil_iff (h : Laid t t') : t = [] ↔ t' = [] := by
  cases h <;> simp

/-- A character that is no newline is in both texts. -/
theorem exists_of_cons {c : Char} (h : Laid (c :: t) s') (hc : c ≠ '\n') :
    ∃ t', s' = c :: t' ∧ Laid t t' := by
  generalize hs : c :: t = s at h
  cases h with
  | nil => cases hs
  | char x h =>
    cases hs
    exact ⟨_, rfl, h⟩
  | line => exact absurd (List.cons.inj hs).1 hc

/-- So is text without newlines. -/
theorem exists_of_append {w : List Char} (h : Laid (w ++ t) s') (hw : '\n' ∉ w) :
    ∃ t', s' = w ++ t' ∧ Laid t t' := by
  induction w generalizing s' with
  | nil => exact ⟨s', rfl, h⟩
  | cons c w ih =>
    obtain ⟨hc, hw⟩ := not_or.1 (mt List.mem_cons.2 hw)
    obtain ⟨rest, rfl, hrest⟩ := h.exists_of_cons (Ne.symm hc)
    obtain ⟨t', rfl, ht⟩ := ih hrest hw
    exact ⟨t', rfl, ht⟩

/-- A newline and blanks may be put in front of a word that both start
with. -/
theorem line_start {w : List Char} (levels : Nat) (hw : IsLineWord w)
    (h : Laid (w ++ ' ' :: t) (w ++ ' ' :: t')) :
    Laid ('\n' :: (List.replicate (4 * levels) ' ' ++ (w ++ ' ' :: t))) (w ++ ' ' :: t') := by
  obtain ⟨rest, heq, hrest⟩ := h.exists_of_append hw.newline
  obtain ⟨tail, rfl, htail⟩ := hrest.exists_of_cons (by decide)
  obtain ⟨-, rfl⟩ := List.cons.inj (List.append_cancel_left heq)
  exact .line levels hw htail

/-- On one line the layout is gone. -/
theorem onOneLineFrom_eq (h : Laid t t') (starts : Bool) :
    onOneLineFrom starts t = onOneLineFrom starts t' := by
  induction h generalizing starts with
  | nil => rfl
  | char c _ ih => rw [onOneLineFrom, onOneLineFrom, ih, ih]
  | @line t t' w levels hw _ ih =>
    have hbehind (s : List Char) (starts : Bool) :
        onOneLineFrom starts (s ++ t) = onOneLineFrom starts (s ++ t') := by
      induction s generalizing starts with
      | nil => exact ih starts
      | cons c s hs => rw [List.cons_append, List.cons_append, onOneLineFrom, onOneLineFrom, hs, hs]
    obtain ⟨c, w, rfl⟩ := List.exists_cons_of_ne_nil hw.ne_nil
    have hnewline : c ≠ '\n' := fun h => hw.newline (h ▸ List.mem_cons_self)
    have hblank : c ≠ ' ' := fun h => hw.blank (h ▸ List.mem_cons_self)
    rw [onOneLineFrom, if_pos rfl, onOneLineFrom_blanks, List.cons_append, List.cons_append,
      onOneLineFrom_plain hnewline hblank, onOneLineFrom_plain hnewline hblank]
    have hrest := hbehind (w ++ [' ']) false
    simp only [List.append_assoc, List.singleton_append] at hrest
    rw [hrest]

/-- Texts that differ in layout come to one text on one line. -/
theorem onOneLine_eq {sql sql' : String} (h : Laid sql.toList sql'.toList) :
    onOneLine sql = onOneLine sql' := by
  rw [onOneLine, onOneLine, h.onOneLineFrom_eq]

end Laid

end SqlTree
