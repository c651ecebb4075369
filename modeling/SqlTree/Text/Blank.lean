/-!
# SqlTree.Text.Blank

White space as Unicode defines it: the 25 characters with the property
White_Space.  `isBlankText` says that a text has no other character, and
`words` cuts a text at its white space.  The words of a text are never
empty.
-/

namespace SqlTree

/-- Unicode's White_Space characters. -/
def isBlank (c : Char) : Bool :=
  let n := c.toNat
  (9 ≤ n && n ≤ 13) || n == 0x20 || n == 0x85 || n == 0xA0 || n == 0x1680 ||
    (0x2000 ≤ n && n ≤ 0x200A) || n == 0x2028 || n == 0x2029 || n == 0x202F || n == 0x205F || n == 0x3000

/-- Nothing but white space. -/
def isBlankText (s : String) : Bool := s.toList.all isBlank

/-- The word under construction, reversed, is put in front of the words of
the rest once a blank or the end closes it. -/
def wordsFrom : List Char → List Char → List (List Char)
  | [], [] => []
  | word@(_ :: _), [] => [word.reverse]
  | [], c :: cs => if isBlank c then wordsFrom [] cs else wordsFrom [c] cs
  | word@(_ :: _), c :: cs => if isBlank c then word.reverse :: wordsFrom [] cs else wordsFrom (c :: word) cs

/-- The maximal runs of characters that are not blank. -/
def words (cs : List Char) : List (List Char) := wordsFrom [] cs

/-! ## Laws -/

theorem isBlankText_append (s t : String) :
    isBlankText (s ++ t) = (isBlankText s && isBlankText t) := by
  rw [isBlankText, String.toList_append, List.all_append]
  rfl

/-- A text with a character that is not blank. -/
theorem isBlankText_eq_false_iff {s : String} :
    isBlankText s = false ↔ ∃ c ∈ s.toList, isBlank c = false := by
  simp [isBlankText]

theorem ne_nil_of_mem_wordsFrom {word cs w : List Char} (h : w ∈ wordsFrom word cs) : w ≠ [] := by
  fun_induction wordsFrom word cs <;> simp_all
  rcases h with rfl | h <;> simp_all

theorem ne_nil_of_mem_words {cs w : List Char} (h : w ∈ words cs) : w ≠ [] :=
  ne_nil_of_mem_wordsFrom h

end SqlTree
