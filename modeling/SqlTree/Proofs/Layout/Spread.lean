import SqlTree.Proofs.Combined.Parts
import SqlTree.Proofs.Layout.Tree
import SqlTree.Proofs.Verbatim.Within

/-!
# SqlTree.Proofs.Layout.Spread

Subqueries on lines of their own.  A text is spread at a level if a subquery
that rows come from has its first line indented one level more, and its
closing parenthesis that much (`Dialect.SpreadAt`).  The selects around it
quote the prefixes that they know in it and leave its layout alone, so what
the draft of one select spreads, that of every select around it does
(`Draft.Spreads.of_part`).
-/

namespace SqlTree

namespace Dialect

/-- A text, and what it becomes where the selects around it quote prefixes in
it.  A reader may come to it from anywhere but the middle of a name. -/
inductive Requotes (d : Dialect) (own : List Char) : List Char → Prop where
  | refl : Requotes d own own
  | again {names : List String} {s : Scan} {t : List Char}
      (hnames : ∀ name ∈ names, isName name = true) (hs : s.isSettled = true)
      (h : Requotes d own t) : Requotes d own (d.quotePrefixesFrom (names.map String.toList) s t)

/-- In the text rows come from the subquery that compiled to `own` by itself.
It begins on a line of its own, indented by one level more than the given
ones, and its closing parenthesis stands on another one, indented by these. -/
def SpreadAt (d : Dialect) (level : Nat) (own text : String) : Prop :=
  ∃ before inside after, text = before ++ " FROM (\n" ++ indent (level + 1) ++
      ("SELECT " ++ inside) ++ "\n" ++ indent level ++ ") " ++ after ∧
    d.Requotes own.toList ("SELECT " ++ inside).toList

/-- The characters of a text that is spread around a subquery: those before
it, its first line up to the last blank of the indentation, the subquery, the
last line and those behind it. -/
def spread (level : Nat) (before own after : List Char) : List Char :=
  before ++ ' ' :: (("FROM (\n".toList ++ List.replicate (4 * level + 3) ' ') ++ ' ' :: (own ++
    '\n' :: ((List.replicate (4 * level) ' ' ++ [')']) ++ ' ' :: after)))

theorem toList_spread (level : Nat) (before own after : String) :
    (before ++ " FROM (\n" ++ indent (level + 1) ++ own ++ "\n" ++ indent level ++ ") " ++
      after).toList = spread level before.toList own.toList after.toList := by
  have hindent : (indent (level + 1)).toList = List.replicate (4 * level + 3) ' ' ++ [' '] := by
    rw [indent, String.toList_ofList, ← List.replicate_succ']
    rfl
  have hlast : (indent level).toList = List.replicate (4 * level) ' ' := String.toList_ofList
  have hfirst : " FROM (\n".toList = ' ' :: "FROM (\n".toList := by decide
  have hline : "\n".toList = ['\n'] := by decide
  have hclosed : ") ".toList = [')', ' '] := by decide
  simp only [spread, String.toList_append, hindent, hlast, hfirst, hline, hclosed,
    List.append_assoc, List.cons_append, List.nil_append]

section

variable {d : Dialect} {names : List (List Char)} {s : Scan}

/-- Prefixes are quoted before the subquery, in it and behind it, and nothing
happens to its layout. -/
theorem exists_quotePrefixesFrom_spread (hblank : ∀ name ∈ names, ' ' ∉ name)
    (hline : ∀ name ∈ names, '\n' ∉ name) (level : Nat) (before own after : List Char)
    (hs : s.isSettled = true) : ∃ s₁ s₂ : Scan, s₁.isSettled = true ∧
      d.quotePrefixesFrom names s (spread level before own after) =
        spread level (d.quotePrefixesFrom names s before) (d.quotePrefixesFrom names s₁ own)
          (d.quotePrefixesFrom names s₂ after) := by
  let opening := "FROM (\n".toList ++ List.replicate (4 * level + 3) ' '
  let closing := List.replicate (4 * level) ' ' ++ [')']
  have hopening : '.' ∉ opening := by simp [opening]
  have hclosing : '.' ∉ closing := by simp [closing]
  let last := closing ++ ' ' :: after
  obtain ⟨s₀, hs₀, hbefore⟩ := quotePrefixesFrom_fence (d := d) hblank (by decide) before
    (opening ++ ' ' :: (own ++ '\n' :: last)) hs
  have hfirst := quotePrefixesFrom_stretch (d := d) hblank (by decide) hopening hs₀
    (own ++ '\n' :: last)
  have hs₁ := Scan.isSettled_passAll (d := d) hs₀ (opening ++ [' '])
  obtain ⟨s', hs', hown⟩ := quotePrefixesFrom_fence (d := d) hline (by decide) own last hs₁
  have hlast := quotePrefixesFrom_stretch (d := d) hblank (by decide) hclosing hs' after
  exact ⟨_, _, hs₁, by rw [spread, hbefore, hfirst, hown, hlast, spread]⟩

end

namespace SpreadAt

variable {d : Dialect} {level : Nat} {own text : String}

theorem append_left (h : d.SpreadAt level own text) (s : String) :
    d.SpreadAt level own (s ++ text) := by
  obtain ⟨before, inside, after, rfl, hown⟩ := h
  exact ⟨s ++ before, inside, after, by simp [← String.toList_inj], hown⟩

theorem append_right (h : d.SpreadAt level own text) (s : String) :
    d.SpreadAt level own (text ++ s) := by
  obtain ⟨before, inside, after, rfl, hown⟩ := h
  exact ⟨before, inside, after ++ s, by simp [← String.toList_inj], hown⟩

theorem ne_empty (h : d.SpreadAt level own text) : text ≠ "" := by
  obtain ⟨before, inside, after, rfl, -⟩ := h
  rw [ne_eq, ← String.toList_eq_nil_iff, toList_spread]
  exact List.append_ne_nil_of_right_ne_nil _ (List.cons_ne_nil _ _)

theorem quotePrefixes {names : List String} (hnames : ∀ name ∈ names, isName name = true)
    (h : d.SpreadAt level own text) : d.SpreadAt level own (d.quotePrefixes names text) := by
  have hfree {z : Char} (hz : isNameChar z = false) :
      ∀ name ∈ names.map String.toList, z ∉ name :=
    List.forall_mem_map.2 fun name hname => not_mem_of_isName
      (by rw [String.ofList_toList]; exact hnames name hname) hz
  have hblank := hfree (z := ' ') (by decide)
  have hdot : '.' ∉ "SELECT".toList := by decide
  obtain ⟨before, inside, after, rfl, hown⟩ := h
  obtain ⟨s₁, s₂, hs₁, hspread⟩ := exists_quotePrefixesFrom_spread (d := d) hblank
    (hfree (by decide)) level before.toList ("SELECT " ++ inside).toList after.toList
    (s := .start) rfl
  -- the subquery goes on beginning with its keyword
  have hselect := quotePrefixesFrom_stretch (d := d) hblank (by decide) hdot hs₁ inside.toList
  let s' := s₁.passAll d ("SELECT".toList ++ [' '])
  let quoted (s : Scan) (t : String) : String :=
    String.ofList (d.quotePrefixesFrom (names.map String.toList) s t.toList)
  have hinside : ("SELECT " ++ quoted s' inside).toList =
      d.quotePrefixesFrom (names.map String.toList) s₁ ("SELECT " ++ inside).toList := by
    simpa [quoted, s'] using hselect.symm
  refine ⟨quoted .start before, quoted s' inside, quoted s₂ after, ?_, ?_⟩
  · rw [← String.toList_inj, toList_spread, hinside, Dialect.quotePrefixes, String.toList_ofList,
      toList_spread, hspread]
    simp only [quoted, String.toList_ofList]
  · rw [hinside]
    exact .again hnames hs₁ hown

end SpreadAt

end Dialect

namespace Draft

variable {d : Dialect} {p q own : Draft} {level : Nat}

/-- However it is written, a draft spreads the subquery of another one. -/
def Spreads (d : Dialect) (level : Nat) (own p : Draft) : Prop :=
  ∀ c, ∃ c', d.SpreadAt level (own.text d c') (p.text d c)

/-- The names that statements quote are names. -/
theorem Written.isName_levels {R : Prop} {P : String → Prop} (h : Written R P p) :
    ∀ l ∈ p.levels, ∀ name ∈ l.1, isName name = true := by
  induction h with
  | append _ _ ihp ihq => exact List.forall_mem_append.2 ⟨ihp, ihq⟩
  | numbered _ _ _ ihp ihrest =>
    rw [levels_numbered]
    exact List.forall_mem_append.2 ⟨ihp, ihrest⟩
  | requoted hnames _ ih => exact List.forall_mem_cons.2 ⟨hnames, ih⟩
  | _ => exact List.forall_mem_nil _

/-- What a part spreads the whole spreads. -/
theorem Spreads.of_part (h : Part q p) (hq : Spreads d level own q)
    (hnames : ∀ l ∈ p.levels, ∀ name ∈ l.1, isName name = true) : Spreads d level own p := by
  induction h with
  | refl => exact hq
  | empty hempty =>
    obtain ⟨c', hspread⟩ := hq (.empty .named)
    exact absurd (text_eq_empty_iff.2 hempty) hspread.ne_empty
  | left _ ih =>
    intro c
    obtain ⟨c', hspread⟩ := ih hq (List.forall_mem_append.1 hnames).1 c
    exact ⟨c', text_append ▸ hspread.append_right _⟩
  | @right _ p _ _ ih =>
    intro c
    obtain ⟨c', hspread⟩ := ih hq (List.forall_mem_append.1 hnames).2 (p.after c)
    exact ⟨c', text_append ▸ hspread.append_left _⟩
  | requoted _ ih =>
    intro c
    obtain ⟨hown, hbelow⟩ := List.forall_mem_cons.1 hnames
    obtain ⟨c', hspread⟩ := ih hq hbelow c
    refine ⟨c', ?_⟩
    rw [text_requoted]
    exact hspread.quotePrefixes hown

theorem spreads_subqueryOrigin (hopens : OpensSelect d p) (level : Nat) (a : Alias) :
    Spreads d level p (subqueryOrigin true level (level + 1) a p) := by
  intro c
  obtain ⟨rest, hrest⟩ := hopens c
  refine ⟨c, "", rest, a.quoted d, ?_, ?_⟩
  · rw [text_subqueryOrigin, subqueryOriginText, if_pos rfl, hrest]
    simp only [String.append_assoc, String.empty_append]
  · rw [hrest]
    exact .refl

end Draft

end SqlTree
