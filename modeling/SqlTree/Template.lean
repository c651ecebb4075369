import SqlTree.Name

/-!
# SqlTree.Template

Templates such as `COUNT({col}) > {min}`.  A placeholder is a word between
braces; any other brace is text.  `pieces` cuts a template into text and
placeholders and loses nothing (`flatMap_source_pieces`);
`checkTemplate` accepts the names of substitutions that are exactly the
placeholders, each given once.
-/

namespace SqlTree

/-- A part of a template. -/
inductive Piece where
  | text (cs : List Char)
  | slot (name : List Char)
deriving DecidableEq

/-- The part as the template has it. -/
def Piece.source : Piece → List Char
  | .text cs => cs
  | .slot name => '\x7b' :: name ++ ['\x7d']

/-- The word up to a closing brace. -/
def slotName? (cs : List Char) : Option (List Char) :=
  let name := cs.takeWhile isWordChar
  if isWord name && (cs.drop name.length).head? == some '\x7d' then some name else none

/-- Cuts from a position on: `skip` characters belong to the placeholder
before, and `acc` is the text so far, last character first. -/
def piecesFrom : Nat → List Char → List Char → List Piece
  | _, acc, [] => if acc = [] then [] else [.text acc.reverse]
  | skip + 1, acc, _ :: cs => piecesFrom skip acc cs
  | 0, acc, c :: cs =>
    match if c = '\x7b' then slotName? cs else none with
    | some name =>
      (if acc = [] then [] else [.text acc.reverse]) ++ .slot name :: piecesFrom (name.length + 1) [] cs
    | none => piecesFrom 0 (c :: acc) cs

/-- The parts of a template. -/
def pieces (template : String) : List Piece := piecesFrom 0 [] template.toList

/-- The names of the placeholders, in order and with repetitions. -/
def slotNames (template : String) : List String :=
  (pieces template).filterMap fun
    | .text _ => none
    | .slot name => some (String.ofList name)

/-- The names must be used and differ; `seen` are those before. -/
def checkNames (slots seen : List String) : List String → Option TemplateFault
  | [] => none
  | name :: names =>
    if name ∉ slots then some (.unused name)
    else if name ∈ seen then some (.repeated name)
    else checkNames slots (name :: seen) names

/-- What is wrong with a template for which these names are given. -/
def templateFault (template : String) (names : List String) : Option TemplateFault :=
  if isBlankText template then some .blank
  else
    match checkNames (slotNames template) [] names with
    | some fault => some fault
    | none => ((slotNames template).find? fun slot => slot ∉ names).map .unfilled

/-- Accepts a template together with the names of its substitutions. -/
def checkTemplate (template : String) (names : List String) : Except Error Unit :=
  match templateFault template names with
  | some fault => .error (.template template fault)
  | none => .ok ()

/-! ## Laws -/

theorem slotName?_eq_some {cs name : List Char} (h : slotName? cs = some name) :
    ∃ rest, cs = name ++ '\x7d' :: rest ∧ isWord name = true := by
  simp only [slotName?] at h
  split at h
  · rename_i hc
    simp only [Bool.and_eq_true, beq_iff_eq] at hc
    cases h
    obtain ⟨hw, hd⟩ := hc
    obtain ⟨rest, hr⟩ : ∃ rest, cs.drop (cs.takeWhile isWordChar).length = '\x7d' :: rest := by
      cases hx : cs.drop (cs.takeWhile isWordChar).length with
      | nil => simp [hx] at hd
      | cons x xs => simp only [hx, List.head?_cons, Option.some.injEq] at hd; exact ⟨xs, by rw [hd]⟩
    refine ⟨rest, ?_, hw⟩
    have ht : cs.take (cs.takeWhile isWordChar).length = cs.takeWhile isWordChar :=
      List.prefix_iff_eq_take.1 (List.takeWhile_prefix _) |>.symm
    conv => lhs; rw [← List.take_append_drop (cs.takeWhile isWordChar).length cs, ht, hr]
  · cases h

theorem flatMap_source_piecesFrom (skip : Nat) (acc cs : List Char) :
    (piecesFrom skip acc cs).flatMap Piece.source = acc.reverse ++ cs.drop skip := by
  induction cs generalizing skip acc with
  | nil =>
    cases skip <;> by_cases h : acc = [] <;> simp [piecesFrom, h, Piece.source]
  | cons c cs ih =>
    cases skip with
    | succ skip => simp [piecesFrom, ih]
    | zero =>
      rw [piecesFrom]
      split
      · rename_i name hn
        split at hn
        · rename_i hc
          obtain ⟨rest, hr, _⟩ := slotName?_eq_some hn
          subst hc
          have hd : cs.drop (name.length + 1) = rest := by simp [hr]
          have hi := ih (name.length + 1) []
          rw [hd] at hi
          by_cases h : acc = [] <;> simp [h, Piece.source, hi] <;> simp [hr]
        · cases hn
      · simp [ih]

/-- Cutting loses nothing. -/
theorem flatMap_source_pieces (template : String) : (pieces template).flatMap Piece.source = template.toList := by
  simp [pieces, flatMap_source_piecesFrom]

theorem nodup_of_checkNames {slots seen names : List String}
    (h : checkNames slots seen names = none) : names.Nodup ∧ ∀ name ∈ names, name ∉ seen := by
  induction names generalizing seen with
  | nil => simp
  | cons name names ih =>
    rw [checkNames] at h
    split at h
    · cases h
    · split at h
      · cases h
      · next hseen =>
        obtain ⟨hnodup, hrest⟩ := ih h
        refine ⟨List.nodup_cons.2 ⟨fun hmem => hrest name hmem List.mem_cons_self, hnodup⟩, ?_⟩
        exact List.forall_mem_cons.2 ⟨hseen, fun n hn hmem =>
          hrest n hn (List.mem_cons_of_mem _ hmem)⟩

/-- The template that is accepted is not blank. -/
theorem isBlankText_of_templateFault {template : String} {names : List String}
    (h : templateFault template names = none) : isBlankText template = false := by
  unfold templateFault at h
  split at h
  · cases h
  · next hblank => exact Bool.eq_false_iff.2 hblank

/-- No name is given twice for a template that is accepted. -/
theorem nodup_of_templateFault {template : String} {names : List String}
    (h : templateFault template names = none) : names.Nodup := by
  unfold templateFault at h
  split at h
  · cases h
  · split at h
    · cases h
    · next hnames => exact (nodup_of_checkNames hnames).1

end SqlTree
