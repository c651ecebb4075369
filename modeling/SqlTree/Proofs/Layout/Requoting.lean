import SqlTree.Proofs.Layout.Text
import SqlTree.Proofs.Markers.Scan
import SqlTree.Proofs.Requoting

/-!
# SqlTree.Proofs.Layout.Requoting

Quoting the prefixes of a text and of the same text with layout in it gives
texts that differ in the same layout (`Laid.quotePrefixesFrom`).  No name
reaches into layout or into the word behind it, so what counts is where the
two readers stand behind that word (`Scan.passAll_line`).  If no quote is a
newline they stand at the same place.  A blank may be a quote, but then it
is the blank behind the word that decides, or the layout opens as many
regions as it closes.
-/

namespace SqlTree

variable {d : Dialect} {names : List (List Char)}

/-! ## Positions -/

/-- Values stand between apostrophes, and no quote is a newline. -/
structure Dialect.QuotesInLine (d : Dialect) : Prop where
  value : d.valueQuote = '\''
  left : d.leftQuote ≠ '\n'
  right : d.rightQuote ≠ '\n'

namespace Scan

/-- A position between two characters that a reader of the dialect can come
to. -/
inductive Between (d : Dialect) : Scan → Prop where
  | outside (previous : Option Char) : Between d (.outside previous)
  | inside {close : Char} (h : close = d.valueQuote ∨ close = d.rightQuote) :
      Between d (.inside close)

namespace Between

theorem isSettled {s : Scan} (h : Between d s) : s.isSettled = true := by
  cases h <;> rfl

theorem advanceInside {close : Char} (h : close = d.valueQuote ∨ close = d.rightQuote) (c : Char) :
    Between d (Scan.advanceInside close c) := by
  unfold Scan.advanceInside
  split
  · exact .outside _
  · exact .inside h

theorem pass {s : Scan} (h : Between d s) (c : Char) : Between d (s.pass d c) := by
  cases h with
  | inside h => exact advanceInside h c
  | outside previous =>
    rw [Scan.pass]
    split
    · next hclose => exact .inside (Dialect.closer?_eq_some hclose).2
    · exact .outside _

theorem passAll {s : Scan} (h : Between d s) (cs : List Char) : Between d (s.passAll d cs) := by
  induction cs generalizing s with
  | nil => exact h
  | cons c cs ih => exact ih (h.pass c)

end Between

/-! ## Behind layout -/

/-- Outside of quotes, or between those of names. -/
inductive AmongNames (d : Dialect) : Scan → Prop where
  | outside (previous : Option Char) : AmongNames d (.outside previous)
  | inside : AmongNames d (.inside d.rightQuote)

/-- Only an apostrophe leads anywhere else. -/
theorem AmongNames.passAll (hvalue : d.valueQuote = '\'') {s : Scan} (h : AmongNames d s)
    {cs : List Char} (hcs : '\'' ∉ cs) : AmongNames d (s.passAll d cs) := by
  induction cs generalizing s with
  | nil => exact h
  | cons c cs ih =>
    obtain ⟨hc, hcs⟩ := not_or.1 (mt List.mem_cons.2 hcs)
    refine ih ?_ hcs
    cases h with
    | inside =>
      rw [Scan.pass, Scan.advanceInside]
      split
      · exact .outside _
      · exact .inside
    | outside previous =>
      have hclose : d.closer? c = if c = d.leftQuote then some d.rightQuote else none := by
        rw [Dialect.closer?, hvalue, if_neg (Ne.symm hc)]
      rw [Scan.pass, hclose]
      by_cases hleft : c = d.leftQuote
      · rw [if_pos hleft]
        exact .inside
      · rw [if_neg hleft]
        exact .outside _

/-- Where the blank is one of the two quotes of names, it is known where a
reader stands behind it. -/
theorem AmongNames.pass_blank (hvalue : d.valueQuote = '\'')
    (hone : ¬(d.leftQuote = ' ' ↔ d.rightQuote = ' ')) {s s' : Scan} (h : AmongNames d s)
    (h' : AmongNames d s') : s.pass d ' ' = s'.pass d ' ' := by
  have hclose : d.closer? ' ' = if ' ' = d.leftQuote then some d.rightQuote else none := by
    rw [Dialect.closer?, hvalue, if_neg (by decide)]
  have hsame {s : Scan} (h : AmongNames d s) :
      s.pass d ' ' = if ' ' = d.leftQuote then .inside d.rightQuote else .outside (some ' ') := by
    by_cases hleft : ' ' = d.leftQuote
    · have hright : ' ' ≠ d.rightQuote := fun h => hone ⟨fun _ => h.symm, fun _ => hleft.symm⟩
      rw [if_pos hleft] at hclose ⊢
      cases h with
      | outside previous => rw [Scan.pass, hclose]
      | inside => rw [Scan.pass, Scan.advanceInside, if_neg hright]
    · have hright : ' ' = d.rightQuote := by
        refine Decidable.byContradiction fun h => hone ⟨fun h => absurd h.symm hleft, fun h' => ?_⟩
        exact absurd h'.symm h
      rw [if_neg hleft] at hclose ⊢
      cases h with
      | outside previous => rw [Scan.pass, hclose]
      | inside => rw [Scan.pass, Scan.advanceInside, if_pos hright, ← hright]
  rw [hsame h, hsame h']

/-- Behind one character it plays no part what stood in front of it outside
of quotes. -/
theorem passAll_outside {cs : List Char} (hcs : cs ≠ []) (previous previous' : Option Char) :
    (outside previous).passAll d cs = (outside previous').passAll d cs := by
  obtain ⟨c, cs, rfl⟩ := List.exists_cons_of_ne_nil hcs
  rfl

section

variable (hd : d.QuotesInLine)
include hd

/-- A newline leads nowhere. -/
theorem Between.passAll_newline {s : Scan} (h : Between d s) {cs : List Char} (hcs : cs ≠ []) :
    s.passAll d ('\n' :: cs) = s.passAll d cs := by
  cases h with
  | outside previous =>
    have hclose : d.closer? '\n' = none := by
      rw [Dialect.closer?, hd.value, if_neg (by decide), if_neg hd.left.symm]
    have hstep : (Scan.outside previous).pass d '\n' = .outside (some '\n') := by
      rw [Scan.pass, hclose]
    rw [Scan.passAll, List.foldl_cons, hstep]
    exact passAll_outside hcs _ _
  | @inside close h =>
    have hne : '\n' ≠ close := by
      rcases h with rfl | rfl
      · rw [hd.value]
        decide
      · exact hd.right.symm
    rw [Scan.passAll, List.foldl_cons, Scan.pass, Scan.advanceInside, if_neg hne]
    rfl

/-- Two blanks lead nowhere, once a word and a blank have followed them. -/
theorem Between.passAll_blanks {s : Scan} (h : Between d s) {w : List Char} (hw : '\'' ∉ w) :
    s.passAll d (' ' :: ' ' :: (w ++ [' '])) = s.passAll d (w ++ [' ']) := by
  have hne : w ++ [' '] ≠ [] := by simp
  -- if the blank is one quote of names, the last one decides
  have hdecides {s s' : Scan} (hone : ¬(d.leftQuote = ' ' ↔ d.rightQuote = ' '))
      (hs : AmongNames d s) (hs' : AmongNames d s') :
      s.passAll d (w ++ [' ']) = s'.passAll d (w ++ [' ']) := by
    rw [Scan.passAll, Scan.passAll, List.foldl_append, List.foldl_append]
    exact (hs.passAll hd.value hw).pass_blank hd.value hone (hs'.passAll hd.value hw)
  have hclose : d.closer? ' ' = if ' ' = d.leftQuote then some d.rightQuote else none := by
    rw [Dialect.closer?, hd.value, if_neg (by decide)]
  change ((s.pass d ' ').pass d ' ').passAll d (w ++ [' ']) = _
  cases h with
  | outside previous =>
    rw [Scan.pass, hclose]
    by_cases hleft : ' ' = d.leftQuote
    · simp only [if_pos hleft, Scan.pass, Scan.advanceInside]
      by_cases hright : ' ' = d.rightQuote
      · rw [if_pos hright]
        exact passAll_outside hne _ _
      · rw [if_neg hright]
        exact hdecides (fun h => hright (h.1 hleft.symm).symm) .inside (.outside _)
    · simp only [if_neg hleft, Scan.pass, hclose]
      exact passAll_outside hne _ _
  | @inside close h =>
    rw [Scan.pass, Scan.advanceInside]
    by_cases hblank : ' ' = close
    · have hright : close = d.rightQuote := h.resolve_left fun h => by
        rw [h, hd.value] at hblank
        exact absurd hblank (by decide)
      subst hright
      rw [if_pos hblank, Scan.pass, hclose]
      by_cases hleft : ' ' = d.leftQuote
      · rw [if_pos hleft]
      · rw [if_neg hleft]
        exact hdecides (fun h => hleft (h.2 hblank.symm).symm) (.outside _) .inside
    · rw [if_neg hblank, Scan.pass, Scan.advanceInside, if_neg hblank]

/-- Nor do any number of them, if it is even. -/
theorem Between.passAll_pairs {s : Scan} (h : Between d s) (pairs : Nat) {w : List Char}
    (hw : '\'' ∉ w) :
    s.passAll d (List.replicate (2 * pairs) ' ' ++ (w ++ [' '])) = s.passAll d (w ++ [' ']) := by
  induction pairs generalizing s with
  | zero => rfl
  | succ pairs ih =>
    rw [Nat.mul_succ, List.replicate_succ, List.replicate_succ]
    exact (ih ((h.pass ' ').pass ' ')).trans (h.passAll_blanks hd hw)

/-- A line that starts with a word leads where the word itself does, with a
blank behind it. -/
theorem Between.passAll_line {s : Scan} (h : Between d s) (levels : Nat) {w : List Char}
    (hw : '\'' ∉ w) :
    s.passAll d ('\n' :: (List.replicate (4 * levels) ' ' ++ (w ++ [' ']))) =
      s.passAll d (w ++ [' ']) := by
  have hpairs : 4 * levels = 2 * (2 * levels) := by omega
  rw [h.passAll_newline hd (by simp), hpairs, h.passAll_pairs hd _ hw]

end

end Scan

/-! ## Names in front of layout -/

namespace Laid

variable {t t' : List Char}

/-- A name in front of a dot has no layout in it. -/
theorem exists_behind_name (h : Laid t t') {name tail' : List Char} (hblank : ' ' ∉ name)
    (ht : t' = name ++ '.' :: tail') : ∃ tail, t = name ++ '.' :: tail ∧ Laid tail tail' := by
  induction h generalizing name with
  | nil => simp at ht
  | char c h ih =>
    cases name with
    | nil =>
      obtain ⟨rfl, rfl⟩ := List.cons.inj ht
      exact ⟨_, rfl, h⟩
    | cons x name =>
      obtain ⟨rfl, hrest⟩ := List.cons.inj ht
      obtain ⟨tail, rfl, htail⟩ := ih (fun h => hblank (List.mem_cons_of_mem _ h)) hrest
      exact ⟨tail, rfl, htail⟩
  | @line t t' w levels hw _ _ =>
    have hfits : (name ++ ['.']) <+: w ++ ' ' :: t' := ⟨tail', by rw [ht]; simp⟩
    rw [prefix_append_cons_iff (by simp [hblank])] at hfits
    exact absurd (hfits.subset (List.mem_append_right name (List.mem_singleton_self '.'))) hw.dot

/-- So names are found alike. -/
theorem dotted_prefix_iff (h : Laid t t') {name : List Char} (hblank : ' ' ∉ name)
    (hline : '\n' ∉ name) : (name ++ ['.']) <+: t ↔ (name ++ ['.']) <+: t' := by
  constructor
  · rintro ⟨tail, rfl⟩
    obtain ⟨tail', rfl, -⟩ := h.exists_of_append (by simp [hline])
    exact ⟨tail', rfl⟩
  · rintro ⟨tail, rfl⟩
    obtain ⟨tail, rfl, -⟩ := h.exists_behind_name hblank (List.append_assoc ..)
    exact ⟨tail, List.append_assoc ..⟩

/-- Layout in front of a word is copied, and behind it the pass goes on as
behind the word alone. -/
theorem quotePrefixesFrom_line (hd : d.QuotesInLine) (hnames : ∀ name ∈ names, ' ' ∉ name)
    {s : Scan} (hs : s.Between d) (levels : Nat) {w : List Char} (hw : IsLineWord w) :
    ∃ s' : Scan, s'.Between d ∧ ∀ t t',
      d.quotePrefixesFrom names s ('\n' :: (List.replicate (4 * levels) ' ' ++ (w ++ ' ' :: t))) =
        '\n' :: (List.replicate (4 * levels) ' ' ++ (w ++ ' ' :: d.quotePrefixesFrom names s' t)) ∧
      d.quotePrefixesFrom names s (w ++ ' ' :: t') = w ++ ' ' :: d.quotePrefixesFrom names s' t' := by
  refine ⟨s.passAll d (w ++ [' ']), hs.passAll _, fun t t' => ⟨?_, ?_⟩⟩
  · have hdot : '.' ∉ '\n' :: (List.replicate (4 * levels) ' ' ++ w) := by simp [hw.dot]
    have hline := Dialect.quotePrefixesFrom_stretch (d := d) hnames (by decide) hdot hs.isSettled t
    simp only [List.cons_append, List.append_assoc] at hline
    rw [hline, hs.passAll_line hd levels hw.apostrophe]
  · exact Dialect.quotePrefixesFrom_stretch hnames (by decide) hw.dot hs.isSettled t'

/-- Quoting prefixes leaves the layout where it is. -/
theorem quotePrefixesFrom (hd : d.QuotesInLine)
    (hnames : ∀ name ∈ names, isName (String.ofList name) = true) (h : Laid t t') {s : Scan}
    (hs : s.Between d) :
    Laid (d.quotePrefixesFrom names s t) (d.quotePrefixesFrom names s t') := by
  have hblanks : ∀ name ∈ names, ' ' ∉ name := fun name hname =>
    not_mem_of_isName (hnames name hname) (by decide)
  -- a name is several characters at once, so the induction is on the length
  induction hn : t'.length using Nat.strongRecOn generalizing t t' s with
  | ind n ih =>
    subst hn
    cases h with
    | nil => simpa only [Dialect.quotePrefixesFrom] using Laid.nil
    | @line t t' w levels hw h =>
      obtain ⟨s', hs', hcopied⟩ := quotePrefixesFrom_line hd hblanks hs levels hw
      rw [(hcopied t t').1, (hcopied t t').2]
      exact .line levels hw (ih _ (by simp; omega) h hs' rfl)
    | @char t t' c h =>
      have hrest {s : Scan} (hs : s.Between d) := ih t'.length (Nat.lt_succ_self _) h hs rfl
      cases hs with
      | @inside close hclose =>
        rw [Dialect.quotePrefixesFrom, Dialect.quotePrefixesFrom]
        exact .char c (hrest (.advanceInside hclose c))
      | outside previous =>
        have hname_eq : leadingName names (c :: t) = leadingName names (c :: t') :=
          leadingName_congr fun name hname => (Laid.char c h).dotted_prefix_iff (hblanks name hname)
            (not_mem_of_isName (hnames name hname) (by decide))
        rcases d.outside_cases names previous c t' with
          ⟨close, hclose⟩ | ⟨hclose, hprevious, name, tail', hmem, hname, htext⟩ | ⟨hclose, hname⟩
        · rw [Dialect.quotePrefixesFrom_opened hclose, Dialect.quotePrefixesFrom_opened hclose]
          exact .char c (hrest (.inside (Dialect.closer?_eq_some hclose).2))
        · obtain ⟨tail, htail, hlaid⟩ := (Laid.char c h).exists_behind_name (hblanks name hmem) htext
          have hlength : tail'.length < (c :: t').length := by
            rw [htext, List.length_append, List.length_cons]
            omega
          rw [Dialect.quotePrefixesFrom_name hclose hprevious hname htext,
            Dialect.quotePrefixesFrom_name hclose hprevious (hname_eq.trans hname) htail]
          exact append_left _ (.char '.' (ih _ hlength hlaid (.outside _) rfl))
        · rw [Dialect.quotePrefixesFrom_plain hclose hname,
            Dialect.quotePrefixesFrom_plain hclose fun hb => hname_eq.trans (hname hb)]
          exact .char c (hrest (.outside _))

/-- Quoting the prefixes of a whole text leaves the layout where it is. -/
theorem quotePrefixes (hd : d.QuotesInLine) {names : List String}
    (hnames : ∀ name ∈ names, isName name = true) {sql sql' : String}
    (h : Laid sql.toList sql'.toList) :
    Laid (d.quotePrefixes names sql).toList (d.quotePrefixes names sql').toList := by
  rw [Dialect.quotePrefixes, Dialect.quotePrefixes, String.toList_ofList, String.toList_ofList]
  refine h.quotePrefixesFrom hd (List.forall_mem_map.2 fun name hname => ?_) (.outside none)
  rw [String.ofList_toList]
  exact hnames name hname

end Laid

end SqlTree
