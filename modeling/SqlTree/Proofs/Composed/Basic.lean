import SqlTree.Proofs.Draft.Tree

/-!
# SqlTree.Proofs.Composed.Basic

How drafts are composed.  `Composed P` are the drafts made of plain code,
names, values and raw SQL that satisfies `P`, put together so that every
parenthesis has its partner and no marker runs into a word after it.  What
is true of each of these constructions is true of all drafts of trees.
-/

namespace SqlTree

/-! ## Plain code -/

/-- A character that the code around names and values is made of; neither
quotes nor parentheses nor colons are. -/
def isCodeChar (c : Char) : Bool :=
  isWordChar c || c ∈ [' ', '\n', ',', '.', '*', '=', '<', '>', '!', '-']

/-- Made of such characters alone. -/
def isCode (s : String) : Bool := s.toList.all isCodeChar

theorem isCode_append (s t : String) : isCode (s ++ t) = (isCode s && isCode t) := by
  rw [isCode, String.toList_append, List.all_append]
  rfl

/-- A text that starts with a word character. -/
def startsWord (s : String) : Bool := s.toList.head?.any isWordChar

/-- A character of a name. -/
def isNameChar (c : Char) : Bool := isWordChar c || c ∈ ['.', '*']

/-- Made of such characters, with a word first, or the star: what tables,
columns and aliases are called. -/
def isName (s : String) : Bool := s.toList.all isNameChar && (startsWord s || s == "*")

theorem isCodeChar_of_isNameChar {c : Char} (h : isNameChar c = true) : isCodeChar c = true := by
  simp only [isNameChar, isCodeChar, Bool.or_eq_true, decide_eq_true_eq] at h ⊢
  rcases h with h | h
  · exact .inl h
  · refine .inr ?_
    rcases List.mem_cons.1 h with rfl | h
    · decide
    · rw [List.mem_singleton.1 h]
      decide

theorem isCode_of_isName {s : String} (h : isName s = true) : isCode s = true := by
  rw [isCode, List.all_eq_true]
  intro c hc
  exact isCodeChar_of_isNameChar (List.all_eq_true.1 (Bool.and_eq_true_iff.1 h).1 c hc)

theorem not_mem_of_isName {name : List Char} (h : isName (String.ofList name) = true) {c : Char}
    (hc : isNameChar c = false) : c ∉ name := by
  intro hmem
  have hchars := (Bool.and_eq_true_iff.1 h).1
  rw [String.toList_ofList] at hchars
  rw [List.all_eq_true.1 hchars c hmem] at hc
  cases hc

/-- A name starts with a word, or is the star. -/
theorem isName_cases {name : List Char} (h : isName (String.ofList name) = true) :
    name = ['*'] ∨ ∃ c cs, name = c :: cs ∧ isWordChar c = true := by
  rw [isName, Bool.and_eq_true, Bool.or_eq_true] at h
  rcases h.2 with hstarts | hstar
  · cases name with
    | nil => simp [startsWord] at hstarts
    | cons c cs => exact .inr ⟨c, cs, rfl, by simpa [startsWord] using hstarts⟩
  · have hlist := congrArg String.toList (eq_of_beq hstar)
    rw [String.toList_ofList] at hlist
    exact .inl hlist

/-! ## Seams -/

namespace Draft

/-- The text may start with a word character. -/
def opens : Draft → Bool
  | code s | raw s => startsWord s
  | append p q => p.opens || (p.isEmpty && q.opens)
  | requoted _ p => p.opens
  | _ => false

/-- The text may end with a marker, which a word character would continue. -/
def dangles : Draft → Bool
  | value _ => true
  | append p q => q.dangles || (q.isEmpty && p.dangles)
  | requoted _ p => p.dangles
  | _ => false

variable {p q : Draft}

@[simp] theorem opens_code (s : String) : (code s).opens = startsWord s := rfl

@[simp] theorem opens_append : (p ++ q).opens = (p.opens || (p.isEmpty && q.opens)) := rfl

@[simp] theorem dangles_code (s : String) : (code s).dangles = false := rfl

@[simp] theorem dangles_append : (p ++ q).dangles = (q.dangles || (q.isEmpty && p.dangles)) := rfl

@[simp] theorem isEmpty_code (s : String) : (code s).isEmpty = (s == "") := rfl

@[simp] theorem isEmpty_append : (p ++ q).isEmpty = (p.isEmpty && q.isEmpty) := rfl

@[simp] theorem dangles_ofReference (r : Reference) : (ofReference r).dangles = false := by
  cases r <;> rfl

@[simp] theorem dangles_enclosed : (enclosed p).dangles = false := by
  simp [enclosed]

/-! ## Composed drafts -/

/-- Drafts composed of plain code, names, values and raw SQL with `P`. -/
inductive Composed (P : String → Prop) : Draft → Prop where
  | code {s : String} (h : isCode s = true) : Composed P (code s)
  | raw {s : String} (h : P s) : Composed P (raw s)
  | identifier (i : Identifier) : Composed P (identifier i)
  | label (a : Alias) : Composed P (label a)
  | quotedChar (ch : Char) : Composed P (quotedChar ch)
  | value (b : Binding) : Composed P (value b)
  | append {p q : Draft} (hp : Composed P p) (hq : Composed P q) (seam : p.dangles = false ∨
      q.opens = false) :
      Composed P (p ++ q)
  | enclosed {p : Draft} (h : Composed P p) : Composed P (enclosed p)
  | requoted {names : List String} {p : Draft} (hnames : ∀ name ∈ names, isName name = true)
      (h : Composed P p) : Composed P (requoted names p)

namespace Composed

variable {P : String → Prop}

/-- Code in front of anything. -/
theorem after_code {s : String} (hs : isCode s = true) (hp : Composed P p) :
    Composed P (.code s ++ p) :=
  .append (.code hs) hp (.inl rfl)

/-- Code behind anything, unless it continues a word. -/
theorem before_code {s : String} (hs : isCode s = true) (hstart : startsWord s = false)
    (hp : Composed P p) : Composed P (p ++ .code s) :=
  .append hp (.code hs) (.inr hstart)

/-- Code between two drafts, where it starts with no word. -/
theorem around_code {s : String} (hs : isCode s = true) (hstart : startsWord s = false)
    (hne : s ≠ "") (hp : Composed P p) (hq : Composed P q) : Composed P (p ++ (.code s ++ q)) :=
  .append hp (.after_code hs hq) (.inr (by simp [hstart, hne]))

end Composed

end Draft

end SqlTree
