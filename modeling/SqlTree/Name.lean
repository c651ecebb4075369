import SqlTree.Error
import SqlTree.Text.Blank

/-!
# SqlTree.Name

Names that are checked when they are made.  An `Identifier` is `*`, or
words with dots between them and possibly `.*` at the end; an `Alias` is
one word; a `Literal` is trusted SQL that is not blank.  Each carries the
proof that its text has the form, so nothing later needs to check again:
what is quoted as a name holds no quote and no blank.
-/

namespace SqlTree

/-! ## Words -/

/-- A letter or an underscore. -/
def isWordStart (c : Char) : Bool := c.isAlpha || c = '_'

/-- A letter, a digit or an underscore. -/
def isWordChar (c : Char) : Bool := c.isAlphanum || c = '_'

/-- A word of letters, digits and underscores that starts with no digit. -/
def isWord : List Char → Bool
  | [] => false
  | c :: cs => isWordStart c && cs.all isWordChar

/-- Words, with a star in the last place allowed after the first word. -/
def isPath : List (List Char) → Bool
  | [] => false
  | [piece] => isWord piece
  | [piece, last] => isWord piece && (isWord last || last == ['*'])
  | piece :: pieces => isWord piece && isPath pieces

/-- The form of an identifier. -/
def isIdentifierText (s : String) : Bool :=
  s.toList == ['*'] || isPath (splitAt '.' s.toList)

/-! ## Identifiers -/

/-- A name such as `id`, `u.id` or `u.*`. -/
structure Identifier where
  text : String
  valid : isIdentifierText text = true
deriving DecidableEq

namespace Identifier

/-- The identifier of a text that has the form. -/
def parse (s : String) : Except Error Identifier :=
  if h : isIdentifierText s = true then .ok ⟨s, h⟩ else .error (.invalidIdentifier s)

/-- The star alone. -/
def isWildcard (i : Identifier) : Bool := i.text == "*"

/-- More than one piece. -/
def isQualified (i : Identifier) : Bool := i.text.toList.contains '.'

end Identifier

/-! ## Aliases -/

/-- A name of one word for a table or a column. -/
structure Alias where
  text : String
  valid : isWord text.toList = true
deriving DecidableEq

/-- The alias of a text that has the form. -/
def Alias.parse (s : String) : Except Error Alias :=
  if h : isWord s.toList = true then .ok ⟨s, h⟩ else .error (.invalidAlias s)

/-! ## Literals -/

/-- SQL that is written as it is.  It must come from a trusted place. -/
structure Literal where
  text : String
  valid : isBlankText text = false
deriving DecidableEq

/-- The literal of a text that is not blank. -/
def Literal.parse (s : String) : Except Error Literal :=
  if h : isBlankText s = false then .ok ⟨s, h⟩ else .error .blankLiteral

/-! ## References -/

/-- What predicates, columns and sort terms refer to. -/
inductive Reference where
  | identifier (i : Identifier)
  | alias (a : Alias)
  | literal (l : Literal)
deriving DecidableEq

/-- A plain text refers to a column. -/
def Reference.parse (s : String) : Except Error Reference :=
  (Identifier.parse s).map .identifier

/-! ## Laws -/

theorem Identifier.parse_text (i : Identifier) : Identifier.parse i.text = .ok i := by
  simp [Identifier.parse, i.valid]

theorem Alias.parse_text (a : Alias) : Alias.parse a.text = .ok a := by
  simp [Alias.parse, a.valid]

theorem Literal.parse_text (l : Literal) : Literal.parse l.text = .ok l := by
  simp [Literal.parse, l.valid]

theorem all_isWordChar_of_isWord {cs : List Char} (h : isWord cs = true) : cs.all isWordChar = true := by
  cases cs with
  | nil => simp [isWord] at h
  | cons c cs =>
    simp only [isWord, Bool.and_eq_true] at h
    simp only [List.all_cons, Bool.and_eq_true]
    refine ⟨?_, h.2⟩
    have hc := h.1
    simp only [isWordStart, Bool.or_eq_true] at hc
    simp only [isWordChar, Char.isAlphanum, Bool.or_eq_true]
    rcases hc with hc | hc <;> simp [hc]

/-- Letters, digits and the underscore can be seen. -/
theorem isBlank_of_isWordChar {c : Char} (h : isWordChar c = true) : isBlank c = false := by
  have hbetween {x y : Char} (hx : x.val ≤ c.val) (hy : c.val ≤ y.val) :
      x.toNat ≤ c.toNat ∧ c.toNat ≤ y.toNat :=
    ⟨UInt32.le_iff_toNat_le.1 hx, UInt32.le_iff_toNat_le.1 hy⟩
  have hranges : (65 ≤ c.toNat ∧ c.toNat ≤ 90) ∨ (97 ≤ c.toNat ∧ c.toNat ≤ 122) ∨
      (48 ≤ c.toNat ∧ c.toNat ≤ 57) ∨ c.toNat = 95 := by
    rcases Bool.or_eq_true_iff.1 h with hc | hunderscore
    · rcases Bool.or_eq_true_iff.1 hc with hletter | hdigit
      · rcases Bool.or_eq_true_iff.1 hletter with hupper | hlower
        · have hc := of_decide_eq_true hupper
          exact .inl (hbetween (x := 'A') (y := 'Z') hc.1 hc.2)
        · obtain ⟨hlow, hhigh⟩ := Bool.and_eq_true_iff.1 hlower
          exact .inr (.inl (hbetween (x := 'a') (y := 'z') (of_decide_eq_true hlow)
            (of_decide_eq_true hhigh)))
      · obtain ⟨hlow, hhigh⟩ := Bool.and_eq_true_iff.1 hdigit
        exact .inr (.inr (.inl (hbetween (x := '0') (y := '9') (of_decide_eq_true hlow)
          (of_decide_eq_true hhigh))))
    · exact .inr (.inr (.inr (congrArg Char.toNat (of_decide_eq_true hunderscore))))
  simp only [isBlank, Bool.or_eq_false_iff, Bool.and_eq_false_iff, decide_eq_false_iff_not,
    beq_eq_false_iff_ne, ne_eq]
  omega

/-! ## Examples -/

example : isIdentifierText "public.user.id" = true := by decide +kernel
example : isIdentifierText "u.*" = true := by decide +kernel
example : isIdentifierText "*.a" = false := by decide +kernel
example : isIdentifierText "a..b" = false := by decide +kernel
example : isIdentifierText "a.*.b" = false := by decide +kernel

end SqlTree
