import Mathlib.Data.List.Basic
import SqlTree.Prefixes

/-!
# SqlTree.Proofs.Requoting

What quoting the prefixes of a text does to it.  `Requoted` is the pass as a
relation between a text and what is made of it: the text is copied, except
that a known name in front of a dot is quoted.  What is left of the positions
within a name is where they end, so proofs about the pass go by these five
steps and never by counting characters.  Where no name is found, `Scan.pass`
says where the reader goes.
-/

namespace SqlTree

/-- The name found at the start of a text is one of those looked for. -/
theorem leadingName_eq_some {names : List (List Char)} {cs name : List Char}
    (h : leadingName names cs = some name) : name ∈ names ∧ (name ++ ['.']) <+: cs := by
  let Found (best : Option (List Char)) : Prop :=
    ∀ name, best = some name → name ∈ names ∧ (name ++ ['.']) <+: cs
  have hall : Found (leadingName names cs) := by
    refine List.foldlRecOn (motive := Found) names _ (fun _ h => nomatch h) ?_
    intro best hbest x hx name hname
    split at hname
    · next hfits =>
      have hfound : x ∈ names ∧ (x ++ ['.']) <+: cs := ⟨hx, List.isPrefixOf_iff_prefix.1 hfits.2⟩
      split at hname
      · split at hname
        · cases hname
          exact hfound
        · exact hbest name hname
      · cases hname
        exact hfound
    · exact hbest name hname
  exact hall name h

section

variable {names : List (List Char)} {t t' : List Char}

/-- The name found depends on which of the names with a dot start the
text. -/
theorem leadingName_congr
    (h : ∀ name ∈ names, (name ++ ['.']) <+: t ↔ (name ++ ['.']) <+: t') :
    leadingName names t = leadingName names t' := by
  unfold leadingName
  refine List.foldl_ext _ _ none fun best name hname => ?_
  have hfits : (name ++ ['.']).isPrefixOf t = (name ++ ['.']).isPrefixOf t' := by
    rw [Bool.eq_iff_iff, List.isPrefixOf_iff_prefix, List.isPrefixOf_iff_prefix]
    exact h name hname
  rw [hfits]

/-- No name is found where none starts. -/
theorem leadingName_eq_none (h : ∀ name ∈ names, ¬(name ++ ['.']) <+: t) :
    leadingName names t = none := by
  cases hname : leadingName names t with
  | none => rfl
  | some name =>
    obtain ⟨hmem, hfits⟩ := leadingName_eq_some hname
    exact absurd hfits (h name hmem)

/-- A name that starts here with this character has it itself. -/
theorem leadingName_cons_eq_none {c : Char} (hnames : ∀ name ∈ names, c ∉ name) (hdot : c ≠ '.') :
    leadingName names (c :: t) = none := by
  refine leadingName_eq_none fun name hname hfits => ?_
  cases name with
  | nil => exact hdot (List.cons_prefix_cons.1 hfits).1.symm
  | cons x name =>
    have hx : x = c := (List.cons_prefix_cons.1 hfits).1
    exact hnames _ hname (hx ▸ List.mem_cons_self)

end

/-! ## One step -/

namespace Dialect

variable (d : Dialect) (names : List (List Char))

/-- After a token the pass goes on outside, behind its last character. -/
theorem quotePrefixesFrom_skip (n : Nat) (last : Char) (cs : List Char) :
    d.quotePrefixesFrom names (Scan.skip n last) cs =
      d.quotePrefixesFrom names (.outside (some last)) (cs.drop n) := by
  induction cs generalizing n with
  | nil => simp only [quotePrefixesFrom, List.drop_nil]
  | cons c cs ih =>
    cases n with
    | zero => rfl
    | succ n =>
      rw [Scan.skip, quotePrefixesFrom, List.drop_succ_cons, ← ih n]
      cases n <;> rfl

variable {d names}

theorem quotePrefixesFrom_opened {previous : Option Char} {close c : Char} {cs : List Char}
    (hclose : d.closer? c = some close) :
    d.quotePrefixesFrom names (.outside previous) (c :: cs) =
      c :: d.quotePrefixesFrom names (.inside close) cs := by
  rw [quotePrefixesFrom, hclose]

theorem quotePrefixesFrom_plain {previous : Option Char} {c : Char} {cs : List Char}
    (hclose : d.closer? c = none)
    (hname : isNameBoundary previous = true → leadingName names (c :: cs) = none) :
    d.quotePrefixesFrom names (.outside previous) (c :: cs) =
      c :: d.quotePrefixesFrom names (.outside (some c)) cs := by
  rw [quotePrefixesFrom, hclose]
  by_cases hprevious : isNameBoundary previous = true
  · simp only [if_pos hprevious, hname hprevious]
  · simp only [if_neg hprevious]

theorem quotePrefixesFrom_name {previous : Option Char} {c : Char} {cs name tail : List Char}
    (hclose : d.closer? c = none) (hprevious : isNameBoundary previous = true)
    (hname : leadingName names (c :: cs) = some name) (htext : c :: cs = name ++ '.' :: tail) :
    d.quotePrefixesFrom names (.outside previous) (c :: cs) =
      (d.quoteIdentifier (String.ofList name)).toList ++
        '.' :: d.quotePrefixesFrom names (.outside (some '.')) tail := by
  have hdrop : cs.drop name.length = tail := by
    have hlength : (name ++ ['.']).length = name.length + 1 := List.length_append
    have hsplit : name ++ '.' :: tail = (name ++ ['.']) ++ tail := by simp
    rw [← List.drop_succ_cons (a := c), htext, hsplit, ← hlength, List.drop_left]
  rw [quotePrefixesFrom, hclose]
  simp only [if_pos hprevious, hname, quotePrefixesFrom_skip, hdrop]

/-- Outside of quotes, the pass opens a region, quotes a name, or copies a
character. -/
theorem outside_cases (d : Dialect) (names : List (List Char)) (previous : Option Char) (c : Char)
    (cs : List Char) :
    (∃ close, d.closer? c = some close) ∨
    (d.closer? c = none ∧ isNameBoundary previous = true ∧ ∃ name tail, name ∈ names ∧
      leadingName names (c :: cs) = some name ∧ c :: cs = name ++ '.' :: tail) ∨
    (d.closer? c = none ∧
      (isNameBoundary previous = true → leadingName names (c :: cs) = none)) := by
  cases hclose : d.closer? c with
  | some close => exact .inl ⟨close, rfl⟩
  | none =>
    by_cases hprevious : isNameBoundary previous = true
    · cases hname : leadingName names (c :: cs) with
      | none => exact .inr (.inr ⟨rfl, fun _ => rfl⟩)
      | some name =>
        obtain ⟨hmem, tail, htail⟩ := leadingName_eq_some hname
        have htext : c :: cs = name ++ '.' :: tail := by rw [← htail]; simp
        exact .inr (.inl ⟨rfl, hprevious, name, tail, hmem, rfl, htext⟩)
    · exact .inr (.inr ⟨rfl, fun h => absurd h hprevious⟩)

end Dialect

/-! ## The steps as a relation -/

/-- Text from a position on, and the same text with the prefixes in it
quoted. -/
inductive Requoted (d : Dialect) (names : List (List Char)) :
    Scan → List Char → List Char → Prop where
  | nil (s : Scan) : Requoted d names s [] []
  | inside {close c : Char} {cs out : List Char}
      (h : Requoted d names (Scan.advanceInside close c) cs out) :
      Requoted d names (.inside close) (c :: cs) (c :: out)
  | opened {previous : Option Char} {close c : Char} {cs out : List Char}
      (hclose : d.closer? c = some close)
      (h : Requoted d names (.inside close) cs out) :
      Requoted d names (.outside previous) (c :: cs) (c :: out)
  | name {previous : Option Char} {name cs out : List Char}
      (hprevious : isNameBoundary previous = true) (hname : name ∈ names)
      (h : Requoted d names (.outside (some '.')) cs out) :
      Requoted d names (.outside previous) (name ++ '.' :: cs)
        ((d.quoteIdentifier (String.ofList name)).toList ++ '.' :: out)
  | plain {previous : Option Char} {c : Char} {cs out : List Char} (hclose : d.closer? c = none)
      (h : Requoted d names (.outside (some c)) cs out) :
      Requoted d names (.outside previous) (c :: cs) (c :: out)

/-- The pass makes no text empty. -/
theorem Requoted.eq_nil_iff {d : Dialect} {names : List (List Char)} {s : Scan} {cs out : List Char}
    (h : Requoted d names s cs out) : out = [] ↔ cs = [] := by
  cases h <;> simp

namespace Dialect

variable (d : Dialect) (names : List (List Char))

/-- From inside a region or from outside, the pass takes these steps and no
others. -/
theorem requoted_from (cs : List Char) :
    (∀ close, Requoted d names (.inside close) cs (d.quotePrefixesFrom names (.inside close) cs)) ∧
      ∀ previous, Requoted d names (.outside previous) cs
        (d.quotePrefixesFrom names (.outside previous) cs) := by
  -- a name is several characters at once, so the induction is on the length
  induction hn : cs.length using Nat.strongRecOn generalizing cs with
  | ind n ih =>
    subst hn
    cases cs with
    | nil =>
      simp only [quotePrefixesFrom]
      exact ⟨fun _ => .nil _, fun _ => .nil _⟩
    | cons c cs =>
      obtain ⟨hinside, houtside⟩ := ih cs.length (Nat.lt_succ_self _) cs rfl
      refine ⟨fun close => ?_, fun previous => ?_⟩
      · rw [quotePrefixesFrom]
        refine .inside ?_
        by_cases hc : c = close
        · rw [Scan.advanceInside, if_pos hc]
          exact houtside (some close)
        · rw [Scan.advanceInside, if_neg hc]
          exact hinside close
      · rcases d.outside_cases names previous c cs with
          ⟨close, hclose⟩ | ⟨hclose, hprevious, name, tail, hmem, hname, htext⟩ | ⟨hclose, hname⟩
        · rw [quotePrefixesFrom_opened hclose]
          exact .opened hclose (hinside close)
        · have hlength : tail.length < (c :: cs).length := by
            rw [htext, List.length_append, List.length_cons]
            omega
          rw [quotePrefixesFrom_name hclose hprevious hname htext, htext]
          exact .name hprevious hmem ((ih _ hlength tail rfl).2 (some '.'))
        · rw [quotePrefixesFrom_plain hclose hname]
          exact .plain hclose (houtside (some c))

/-- Quoting the prefixes of a text takes these steps and no others. -/
theorem requoted_quotePrefixes (names : List String) (sql : String) :
    Requoted d (names.map String.toList) .start sql.toList (d.quotePrefixes names sql).toList := by
  rw [quotePrefixes, String.toList_ofList]
  exact (requoted_from d (names.map String.toList) sql.toList).2 none

end Dialect

/-! ## Through a blank -/

/-- The pass keeps what is not blank: a name has a dot behind it. -/
theorem Requoted.exists_not_blank {d : Dialect} {names : List (List Char)} {s : Scan}
    {cs out : List Char} (h : Requoted d names s cs out) (hcs : ∃ c ∈ cs, isBlank c = false) :
    ∃ c ∈ out, isBlank c = false := by
  have hcopied {c : Char} {cs out : List Char}
      (ih : (∃ x ∈ cs, isBlank x = false) → ∃ x ∈ out, isBlank x = false)
      (hcs : ∃ x ∈ c :: cs, isBlank x = false) : ∃ x ∈ c :: out, isBlank x = false := by
    obtain ⟨x, hx, hblank⟩ := hcs
    rcases List.mem_cons.1 hx with rfl | hx
    · exact ⟨x, List.mem_cons_self, hblank⟩
    · obtain ⟨y, hy, hblank⟩ := ih ⟨x, hx, hblank⟩
      exact ⟨y, List.mem_cons_of_mem _ hy, hblank⟩
  induction h with
  | nil => exact hcs
  | inside _ ih | opened _ _ ih | plain _ _ ih => exact hcopied ih hcs
  | name => exact ⟨'.', by simp, by decide⟩

theorem prefix_append_cons_iff {α : Type} {z : α} {p xs ys : List α} (hz : z ∉ p) :
    p <+: xs ++ z :: ys ↔ p <+: xs := by
  induction p generalizing xs with
  | nil => simp
  | cons x p ih =>
    obtain ⟨hx, hp⟩ := not_or.1 (mt List.mem_cons.2 hz)
    cases xs with
    | nil => simp [List.cons_prefix_cons, Ne.symm hx]
    | cons x' xs => rw [List.cons_append, List.cons_prefix_cons, List.cons_prefix_cons, ih hp]

/-! ## Positions -/

namespace Scan

/-- The reader stands between two characters, not within a name. -/
def isSettled : Scan → Bool
  | .within _ _ => false
  | .outside _ | .inside _ => true

theorem isSettled_advanceInside (close c : Char) :
    (advanceInside close c).isSettled = true := by
  unfold advanceInside
  split <;> rfl

/-- The position behind a character, if no name is found at it. -/
def pass (d : Dialect) : Scan → Char → Scan
  | .inside close, c => advanceInside close c
  | .within n last, _ => advanceWithin last n
  | .outside _, c =>
    match d.closer? c with
    | some close => .inside close
    | none => .outside (some c)

/-- The position behind a text in which no name is found. -/
def passAll (d : Dialect) (s : Scan) (cs : List Char) : Scan := cs.foldl (pass d) s

variable {d : Dialect} {s : Scan}

theorem isSettled_pass (hs : s.isSettled = true) (c : Char) : (s.pass d c).isSettled = true := by
  cases s with
  | within => cases hs
  | inside close => exact isSettled_advanceInside close c
  | outside previous =>
    rw [pass]
    split <;> rfl

theorem isSettled_passAll (hs : s.isSettled = true) (cs : List Char) :
    (s.passAll d cs).isSettled = true := by
  induction cs generalizing s with
  | nil => exact hs
  | cons c cs ih => exact ih (isSettled_pass hs c)

end Scan

namespace Dialect

variable {d : Dialect} {names : List (List Char)}

theorem requoted_of_isSettled {s : Scan} (hs : s.isSettled = true) (cs : List Char) :
    Requoted d names s cs (d.quotePrefixesFrom names s cs) := by
  cases s with
  | inside close => exact (requoted_from d names cs).1 close
  | outside previous => exact (requoted_from d names cs).2 previous
  | within => cases hs

/-- Where no name is found the pass copies a character. -/
theorem quotePrefixesFrom_copied {s : Scan} (hs : s.isSettled = true) {c : Char} {t : List Char}
    (hnone : leadingName names (c :: t) = none) :
    d.quotePrefixesFrom names s (c :: t) = c :: d.quotePrefixesFrom names (s.pass d c) t := by
  cases s with
  | within => cases hs
  | inside close => rw [quotePrefixesFrom, Scan.pass]
  | outside previous =>
    rw [Scan.pass]
    cases hclose : d.closer? c with
    | some close => exact quotePrefixesFrom_opened hclose
    | none => exact quotePrefixesFrom_plain hclose fun _ => hnone

/-- Without a dot there is no prefix. -/
theorem quotePrefixesFrom_of_not_mem {cs : List Char} (hdot : '.' ∉ cs) {s : Scan}
    (hs : s.isSettled = true) : d.quotePrefixesFrom names s cs = cs := by
  induction cs generalizing s with
  | nil => simp only [quotePrefixesFrom]
  | cons c cs ih =>
    have hnone : leadingName names (c :: cs) = none := leadingName_eq_none fun name _ hfits =>
      hdot (hfits.subset (List.mem_append_right name (List.mem_singleton_self '.')))
    rw [quotePrefixesFrom_copied hs hnone,
      ih (fun h => hdot (List.mem_cons_of_mem c h)) (Scan.isSettled_pass hs c)]

/-- Text without dots is copied in front of a character that is in no name. -/
theorem quotePrefixesFrom_stretch {z : Char} (hnames : ∀ name ∈ names, z ∉ name) (hz : z ≠ '.')
    {xs : List Char} (hdot : '.' ∉ xs) {s : Scan} (hs : s.isSettled = true) (t : List Char) :
    d.quotePrefixesFrom names s (xs ++ z :: t) =
      xs ++ z :: d.quotePrefixesFrom names (s.passAll d (xs ++ [z])) t := by
  induction xs generalizing s with
  | nil => exact quotePrefixesFrom_copied hs (leadingName_cons_eq_none hnames hz)
  | cons x xs ih =>
    have hnone : leadingName names (x :: (xs ++ z :: t)) = none := by
      refine leadingName_eq_none fun name hname hfits => hdot ?_
      rw [← List.cons_append, prefix_append_cons_iff (by simp [hnames name hname, hz])] at hfits
      exact hfits.subset (List.mem_append_right name (List.mem_singleton_self '.'))
    rw [List.cons_append, quotePrefixesFrom_copied hs hnone,
      ih (fun h => hdot (List.mem_cons_of_mem x h)) (Scan.isSettled_pass hs x)]
    rfl

/-- What stands before a character that is in no name is treated as if it stood
alone. -/
theorem quotePrefixesFrom_fence {z : Char} (hnames : ∀ name ∈ names, z ∉ name) (hz : z ≠ '.')
    (xs ys : List Char) {s : Scan} (hs : s.isSettled = true) :
    ∃ s', s'.isSettled = true ∧ d.quotePrefixesFrom names s (xs ++ z :: ys) =
      d.quotePrefixesFrom names s xs ++ z :: d.quotePrefixesFrom names s' ys := by
  have hleading (xs : List Char) : leadingName names (xs ++ z :: ys) = leadingName names xs :=
    leadingName_congr fun name hname => prefix_append_cons_iff (by simp [hnames name hname, hz])
  -- a name is several characters at once, so the induction is on the length
  induction hn : xs.length using Nat.strongRecOn generalizing xs s with
  | ind n ih =>
    subst hn
    cases xs with
    | nil =>
      cases s with
      | within => cases hs
      | inside close =>
        refine ⟨_, Scan.isSettled_advanceInside close z, ?_⟩
        simp only [List.nil_append, quotePrefixesFrom]
      | outside previous =>
        cases hclose : d.closer? z with
        | some close =>
          refine ⟨.inside close, rfl, ?_⟩
          simp only [List.nil_append, quotePrefixesFrom_opened hclose, quotePrefixesFrom]
        | none =>
          refine ⟨.outside (some z), rfl, ?_⟩
          rw [List.nil_append, quotePrefixesFrom_plain hclose fun _ => ?_]
          · simp only [quotePrefixesFrom, List.nil_append]
          · exact leadingName_cons_eq_none hnames hz
    | cons c xs =>
      have hgo {s : Scan} (hs : s.isSettled = true) := ih xs.length (Nat.lt_succ_self _) xs hs rfl
      cases s with
      | within => cases hs
      | inside close =>
        obtain ⟨s', hs', heq⟩ := hgo (Scan.isSettled_advanceInside close c)
        refine ⟨s', hs', ?_⟩
        rw [List.cons_append, quotePrefixesFrom, quotePrefixesFrom, heq, List.cons_append]
      | outside previous =>
        rcases d.outside_cases names previous c xs with
          ⟨close, hclose⟩ | ⟨hclose, hprevious, name, tail, -, hname, htext⟩ | ⟨hclose, hname⟩
        · obtain ⟨s', hs', heq⟩ := hgo (s := .inside close) rfl
          refine ⟨s', hs', ?_⟩
          rw [List.cons_append, quotePrefixesFrom_opened hclose, quotePrefixesFrom_opened hclose,
            heq, List.cons_append]
        · have hlength : tail.length < (c :: xs).length := by
            rw [htext, List.length_append, List.length_cons]
            omega
          obtain ⟨s', hs', heq⟩ := ih _ hlength tail (s := .outside (some '.')) rfl rfl
          have hname' : leadingName names (c :: (xs ++ z :: ys)) = some name :=
            (hleading (c :: xs)).trans hname
          have htext' : c :: (xs ++ z :: ys) = name ++ '.' :: (tail ++ z :: ys) := by
            rw [← List.cons_append, htext, List.append_assoc, List.cons_append]
          refine ⟨s', hs', ?_⟩
          rw [List.cons_append, quotePrefixesFrom_name hclose hprevious hname' htext',
            quotePrefixesFrom_name hclose hprevious hname htext, heq, List.append_assoc,
            List.cons_append]
        · obtain ⟨s', hs', heq⟩ := hgo (s := .outside (some c)) rfl
          have hname' : isNameBoundary previous = true →
              leadingName names (c :: (xs ++ z :: ys)) = none :=
            fun hprevious => (hleading (c :: xs)).trans (hname hprevious)
          refine ⟨s', hs', ?_⟩
          rw [List.cons_append, quotePrefixesFrom_plain hclose hname',
            quotePrefixesFrom_plain hclose hname, heq, List.cons_append]

/-- No name has a blank in it. -/
theorem quotePrefixesFrom_blank (hnames : ∀ name ∈ names, ' ' ∉ name) (xs ys : List Char)
    {s : Scan} (hs : s.isSettled = true) :
    ∃ s', s'.isSettled = true ∧ d.quotePrefixesFrom names s (xs ++ ' ' :: ys) =
      d.quotePrefixesFrom names s xs ++ ' ' :: d.quotePrefixesFrom names s' ys :=
  quotePrefixesFrom_fence hnames (by decide) xs ys hs

/-- A keyword between blanks stays where it is, and what follows it stays
something. -/
theorem quotePrefixes_keyword {names : List String} (hnames : ∀ name ∈ names, ' ' ∉ name.toList)
    (before : String) {word : String} (hword : '.' ∉ word.toList) {after : String}
    (hafter : isBlankText after = false) :
    ∃ rest, isBlankText rest = false ∧
      d.quotePrefixes names (before ++ " " ++ word ++ " " ++ after) =
        d.quotePrefixes names before ++ " " ++ word ++ " " ++ rest := by
  have hlists : ∀ name ∈ names.map String.toList, ' ' ∉ name := List.forall_mem_map.2 hnames
  obtain ⟨s, hs, hbefore⟩ := quotePrefixesFrom_blank (d := d) hlists before.toList
    (word.toList ++ ' ' :: after.toList) (s := .start) rfl
  obtain ⟨s', hs', hrest⟩ := quotePrefixesFrom_blank (d := d) hlists word.toList after.toList hs
  rw [quotePrefixesFrom_of_not_mem hword hs] at hrest
  have hrequoted : Requoted d (names.map String.toList) s' after.toList _ :=
    requoted_of_isSettled hs' after.toList
  have hvisible := hrequoted.exists_not_blank (isBlankText_eq_false_iff.1 hafter)
  refine ⟨String.ofList (d.quotePrefixesFrom (names.map String.toList) s' after.toList),
    isBlankText_eq_false_iff.2 (by rwa [String.toList_ofList]), ?_⟩
  rw [← String.toList_inj]
  simp only [quotePrefixes, String.toList_append, String.toList_ofList, List.append_assoc]
  rw [hrest] at hbefore
  exact hbefore

end Dialect

end SqlTree
