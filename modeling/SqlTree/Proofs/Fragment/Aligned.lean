import SqlTree.Proofs.Positional.Requoting

/-!
# SqlTree.Proofs.Fragment.Aligned

One text with two choices of markers.  A collector that holds something
already gives other numbers to the markers of a fragment than an empty one,
and nothing else: `Aligned` relates two texts that are the same up to the
numbers of their markers, so that both are woven from the same pieces
(`Aligned.exists_pieces`).

Quoting the prefixes of both keeps them so (`Aligned.requoted_from`).  No
name has a colon, and behind one none starts, so a marker is copied up to
its number; there the two passes stand in the same region, or both behind a
character that is no boundary.  As long as no quote is a digit, the number
does not change that.
-/

namespace SqlTree

/-! ## Pieces -/

/-- A text from the pieces around its markers. -/
def woven : List String → List String → String
  | [], _ => ""
  | piece :: _, [] => piece
  | piece :: pieces, marker :: markers => piece ++ (marker ++ woven pieces markers)

theorem woven_append (s piece : String) (pieces markers : List String) :
    woven ((s ++ piece) :: pieces) markers = s ++ woven (piece :: pieces) markers := by
  cases markers with
  | nil => rfl
  | cons marker markers => rw [woven, woven, String.append_assoc]

/-- Two texts that are the same but for the numbers of their markers, which
stand in the order of the lists. -/
inductive Aligned : List String → List String → List Char → List Char → Prop where
  | nil : Aligned [] [] [] []
  | char {ms ms' : List String} {t t' : List Char} (c : Char) (h : Aligned ms ms' t t') :
      Aligned ms ms' (c :: t) (c :: t')
  | marker {word : String} {n n' : Nat} {ms ms' : List String} {t t' : List Char}
      (hword : isWord word.toList = true) (h : Aligned ms ms' t t') :
      Aligned (Collector.markerOf word n :: ms) (Collector.markerOf word n' :: ms')
        (':' :: (word.toList ++ ((toString n).toList ++ t)))
        (':' :: (word.toList ++ ((toString n').toList ++ t')))

namespace Aligned

variable {ms ms' ns ns' : List String} {t t' u u' : List Char}

theorem refl (t : List Char) : Aligned [] [] t t := by
  induction t with
  | nil => exact .nil
  | cons c t ih => exact .char c ih

theorem append (h : Aligned ms ms' t t') (h' : Aligned ns ns' u u') :
    Aligned (ms ++ ns) (ms' ++ ns') (t ++ u) (t' ++ u') := by
  induction h with
  | nil => exact h'
  | char c _ ih => exact .char c ih
  | marker hword _ ih =>
    simp only [List.cons_append, List.append_assoc]
    exact .marker hword ih

/-- Between the markers stand the same pieces of text. -/
theorem exists_pieces (h : Aligned ms ms' t t') : ∃ pieces, pieces.length = ms.length + 1 ∧
    String.ofList t = woven pieces ms ∧ String.ofList t' = woven pieces ms' := by
  induction h with
  | nil => exact ⟨[""], rfl, rfl, rfl⟩
  | @char ms ms' t t' c _ ih =>
    obtain ⟨_ | ⟨piece, pieces⟩, hlength, ht, ht'⟩ := ih
    · cases hlength
    · refine ⟨(String.ofList [c] ++ piece) :: pieces, hlength, ?_, ?_⟩
      · rw [woven_append, ← ht, ← String.ofList_append]
        rfl
      · rw [woven_append, ← ht', ← String.ofList_append]
        rfl
  | @marker word n n' ms ms' t t' hword _ ih =>
    obtain ⟨pieces, hlength, ht, ht'⟩ := ih
    have hmarker (n : Nat) (t : List Char) :
        String.ofList (':' :: (word.toList ++ ((toString n).toList ++ t))) =
          "" ++ (Collector.markerOf word n ++ String.ofList t) := by
      rw [← String.toList_inj]
      simp [Collector.toList_markerOf]
    refine ⟨"" :: pieces, by rw [List.length_cons, hlength, List.length_cons], ?_, ?_⟩
    · rw [hmarker, ht, woven]
    · rw [hmarker, ht', woven]

theorem symm (h : Aligned ms ms' t t') : Aligned ms' ms t' t := by
  induction h with
  | nil => exact .nil
  | char c _ ih => exact .char c ih
  | marker hword _ ih => exact .marker hword ih

/-! ### Taken apart -/

/-- The first token of a text is a character or a marker. -/
theorem cons_cases {c : Char} (h : Aligned ms ms' (c :: t) u) :
    (∃ t', u = c :: t' ∧ Aligned ms ms' t t') ∨
    (c = ':' ∧ ∃ (word : String) (n n' : Nat) (ns ns' : List String) (t₁ t₁' : List Char),
      isWord word.toList = true ∧ t = word.toList ++ ((toString n).toList ++ t₁) ∧
      u = ':' :: (word.toList ++ ((toString n').toList ++ t₁')) ∧
      ms = Collector.markerOf word n :: ns ∧ ms' = Collector.markerOf word n' :: ns' ∧
      Aligned ns ns' t₁ t₁') := by
  generalize htext : c :: t = text at h
  cases h with
  | nil => cases htext
  | char _ h =>
    cases htext
    exact .inl ⟨_, rfl, h⟩
  | marker hword h =>
    obtain ⟨rfl, rfl⟩ := List.cons.inj htext
    exact .inr ⟨rfl, _, _, _, _, _, _, _, hword, rfl, rfl, rfl, rfl, h⟩

/-- What starts with text without colons does so with other numbers too. -/
theorem split {xs : List Char} (h : Aligned ms ms' (xs ++ u) u') (hxs : ':' ∉ xs) :
    ∃ v, u' = xs ++ v ∧ Aligned ms ms' u v := by
  induction xs generalizing u' with
  | nil => exact ⟨u', rfl, h⟩
  | cons x xs ih =>
    obtain ⟨hx, hxs⟩ := not_or.1 (mt List.mem_cons.2 hxs)
    rcases h.cons_cases with ⟨t', rfl, ht⟩ | ⟨hcolon, -⟩
    · obtain ⟨v, rfl, hv⟩ := ih ht hxs
      exact ⟨v, rfl, hv⟩
    · exact absurd hcolon.symm hx

theorem prefix_iff {xs : List Char} (h : Aligned ms ms' t t') (hxs : ':' ∉ xs) :
    xs <+: t ↔ xs <+: t' := by
  constructor
  · rintro ⟨u, rfl⟩
    obtain ⟨v, rfl, -⟩ := h.split hxs
    exact List.prefix_append _ _
  · rintro ⟨u, rfl⟩
    obtain ⟨v, rfl, -⟩ := h.symm.split hxs
    exact List.prefix_append _ _

theorem leadingName_eq {names : List (List Char)} (h : Aligned ms ms' t t')
    (hnames : ∀ name ∈ names, ':' ∉ name) : leadingName names t = leadingName names t' :=
  leadingName_congr fun name hname => h.prefix_iff (by simp [hnames name hname])

end Aligned

/-! ## Through a marker -/

/-- A position where no name may start and which no digit changes but for
the character that it stands behind. -/
def Scan.IsTight : Scan → Prop
  | .outside previous => isNameBoundary previous = false
  | .inside close => close.isDigit = false
  | .within _ _ => False

/-- The positions of two passes in front of texts that are aligned. -/
inductive Scan.Level : Scan → Scan → Prop where
  | inside {close : Char} (h : close.isDigit = false) : Level (.inside close) (.inside close)
  | outside {previous previous' : Option Char}
      (h : isNameBoundary previous = isNameBoundary previous') :
      Level (.outside previous) (.outside previous')

namespace Scan.Level

variable {s s' s'' : Scan}

theorem symm (h : s.Level s') : s'.Level s := by
  cases h with
  | inside h => exact .inside h
  | outside h => exact .outside h.symm

theorem trans (h : s.Level s') (h' : s'.Level s'') : s.Level s'' := by
  cases h with
  | inside h => exact h'
  | outside h =>
    cases h' with
    | outside h' => exact .outside (h.trans h')

end Scan.Level

namespace Dialect

variable {d : Dialect} (names : List (List Char))

/-- None of the quotes is a digit. -/
structure QuotesNoDigit (d : Dialect) : Prop where
  value : d.valueQuote.isDigit = false
  left : d.leftQuote.isDigit = false
  right : d.rightQuote.isDigit = false

theorem QuotesNoDigit.closing (hd : d.QuotesNoDigit) {c close : Char}
    (h : d.closer? c = some close) : close.isDigit = false := by
  rcases (closer?_eq_some h).2 with rfl | rfl
  · exact hd.value
  · exact hd.right

theorem QuotesNoDigit.closer?_eq_none (hd : d.QuotesNoDigit) {c : Char} (hc : c.isDigit = true) :
    d.closer? c = none := by
  refine Dialect.closer?_eq_none ?_ ?_
  · rintro rfl
    rw [hd.value] at hc
    cases hc
  · rintro rfl
    rw [hd.left] at hc
    cases hc

/-- A character that is no boundary is copied where no name may start, and
none may start behind it. -/
theorem quotePrefixesFrom_tight (hd : d.QuotesNoDigit) {s : Scan} (hs : s.IsTight) {c : Char}
    (hc : isNameBoundary (some c) = false) : ∃ s', s'.IsTight ∧ ∀ t,
      d.quotePrefixesFrom names s (c :: t) = c :: d.quotePrefixesFrom names s' t := by
  cases s with
  | within => cases hs
  | inside close =>
    refine ⟨Scan.advanceInside close c, ?_, fun t => by rw [quotePrefixesFrom]⟩
    unfold Scan.advanceInside
    split
    · next heq =>
      rw [← heq]
      exact hc
    · exact hs
  | outside previous =>
    cases hclose : d.closer? c with
    | some close =>
      exact ⟨.inside close, hd.closing hclose, fun t => quotePrefixesFrom_opened hclose⟩
    | none =>
      refine ⟨.outside (some c), hc, fun t => quotePrefixesFrom_plain hclose fun h => ?_⟩
      rw [show isNameBoundary previous = false from hs] at h
      cases h

/-- So is a text of such characters. -/
theorem quotePrefixesFrom_run (hd : d.QuotesNoDigit) {xs : List Char}
    (hxs : ∀ c ∈ xs, isNameBoundary (some c) = false) {s : Scan} (hs : s.IsTight) :
    ∃ s', s'.IsTight ∧ ∀ t,
      d.quotePrefixesFrom names s (xs ++ t) = xs ++ d.quotePrefixesFrom names s' t := by
  induction xs generalizing s with
  | nil => exact ⟨s, hs, fun _ => rfl⟩
  | cons c xs ih =>
    obtain ⟨hc, hxs⟩ := List.forall_mem_cons.1 hxs
    obtain ⟨s₁, hs₁, hstep⟩ := quotePrefixesFrom_tight names hd hs hc
    obtain ⟨s₂, hs₂, hrun⟩ := ih hxs hs₁
    exact ⟨s₂, hs₂, fun t => by rw [List.cons_append, hstep, hrun]; rfl⟩

/-- Digits are copied too, and the pass stays in its region or outside. -/
theorem quotePrefixesFrom_digits (hd : d.QuotesNoDigit) {ds : List Char}
    (hds : ∀ c ∈ ds, c.isDigit = true) {s : Scan} (hs : s.IsTight) : ∃ s', s'.Level s ∧ ∀ t,
      d.quotePrefixesFrom names s (ds ++ t) = ds ++ d.quotePrefixesFrom names s' t := by
  induction ds generalizing s with
  | nil =>
    refine ⟨s, ?_, fun _ => rfl⟩
    cases s with
    | within => cases hs
    | inside close => exact .inside hs
    | outside previous => exact .outside rfl
  | cons c ds ih =>
    obtain ⟨hc, hds⟩ := List.forall_mem_cons.1 hds
    cases s with
    | within => cases hs
    | inside close =>
      have hclose : close.isDigit = false := hs
      have hne : c ≠ close := by
        rintro rfl
        rw [hclose] at hc
        cases hc
      obtain ⟨s', hlevel, hrun⟩ := ih hds hs
      refine ⟨s', hlevel, fun t => ?_⟩
      rw [List.cons_append, quotePrefixesFrom, Scan.advanceInside, if_neg hne, hrun]
      rfl
    | outside previous =>
      have hprevious : isNameBoundary previous = false := hs
      have hword : isNameBoundary (some c) = false :=
        isNameBoundary_of_isWordChar (isWordChar_of_isDigit hc)
      obtain ⟨s', hlevel, hrun⟩ := ih hds (s := .outside (some c)) hword
      cases hlevel with
      | @outside last _ hlast =>
        refine ⟨.outside last, .outside (hlast.trans (hword.trans hprevious.symm)), fun t => ?_⟩
        rw [List.cons_append, quotePrefixesFrom_plain (hd.closer?_eq_none hc) fun h => ?_, hrun]
        · rfl
        · rw [hprevious] at h
          cases h

variable {names}

/-- Behind a colon two passes stand at one place, where no name may start. -/
theorem quotePrefixesFrom_colon (hd : d.QuotesNoDigit) (hnames : ∀ name ∈ names, ':' ∉ name)
    {s s' : Scan} (hs : s.Level s') : ∃ s₁, s₁.IsTight ∧ ∀ t,
      d.quotePrefixesFrom names s (':' :: t) = ':' :: d.quotePrefixesFrom names s₁ t ∧
      d.quotePrefixesFrom names s' (':' :: t) = ':' :: d.quotePrefixesFrom names s₁ t := by
  cases hs with
  | inside hclose =>
    obtain ⟨s₁, hs₁, hstep⟩ := quotePrefixesFrom_tight names hd (s := .inside _) hclose
      (c := ':') rfl
    exact ⟨s₁, hs₁, fun t => ⟨hstep t, hstep t⟩⟩
  | outside =>
    cases hclose : d.closer? ':' with
    | some close =>
      exact ⟨.inside close, hd.closing hclose, fun t =>
        ⟨quotePrefixesFrom_opened hclose, quotePrefixesFrom_opened hclose⟩⟩
    | none =>
      have hcopied (previous : Option Char) (t : List Char) :
          d.quotePrefixesFrom names (.outside previous) (':' :: t) =
            ':' :: d.quotePrefixesFrom names (.outside (some ':')) t :=
        quotePrefixesFrom_plain hclose fun _ => leadingName_cons_eq_none hnames (by decide)
      exact ⟨.outside (some ':'), rfl, fun t => ⟨hcopied _ t, hcopied _ t⟩⟩

/-- Two passes copy markers with the same word and go on alike behind
them. -/
theorem quotePrefixesFrom_markers (hd : d.QuotesNoDigit) (hnames : ∀ name ∈ names, ':' ∉ name)
    {s s' : Scan} (hs : s.Level s') {word : List Char} (hword : isWord word = true) (n n' : Nat) :
    ∃ s₁ s₁', s₁.Level s₁' ∧ ∀ t t',
      d.quotePrefixesFrom names s (':' :: (word ++ ((toString n).toList ++ t))) =
        ':' :: (word ++ ((toString n).toList ++ d.quotePrefixesFrom names s₁ t)) ∧
      d.quotePrefixesFrom names s' (':' :: (word ++ ((toString n').toList ++ t'))) =
        ':' :: (word ++ ((toString n').toList ++ d.quotePrefixesFrom names s₁' t')) := by
  have hchars : ∀ c ∈ word, isNameBoundary (some c) = false := fun c hc =>
    isNameBoundary_of_isWordChar (List.all_eq_true.1 (all_isWordChar_of_isWord hword) c hc)
  have hdigits (n : Nat) : ∀ c ∈ (toString n).toList, c.isDigit = true := by
    rw [Nat.toString_eq_ofList_toDigits, String.toList_ofList]
    exact fun c hc => Nat.isDigit_of_mem_toDigits (by decide) (by decide) hc
  obtain ⟨s₁, hs₁, hcolon⟩ := quotePrefixesFrom_colon hd hnames hs
  obtain ⟨s₂, hs₂, hrun⟩ := quotePrefixesFrom_run names hd hchars hs₁
  obtain ⟨s₃, hlevel, hnumber⟩ := quotePrefixesFrom_digits names hd (hdigits n) hs₂
  obtain ⟨s₃', hlevel', hnumber'⟩ := quotePrefixesFrom_digits names hd (hdigits n') hs₂
  refine ⟨s₃, s₃', hlevel.trans hlevel'.symm, fun t t' => ⟨?_, ?_⟩⟩
  · rw [(hcolon _).1, hrun, hnumber]
  · rw [(hcolon _).2, hrun, hnumber']

end Dialect

/-! ## Two passes -/

namespace Aligned

variable {d : Dialect} {names : List (List Char)} {ms ms' : List String} {t t' : List Char}

/-- Quoting the prefixes of both texts keeps them aligned. -/
theorem requoted_from (hd : d.QuotesNoDigit) (hnames : ∀ name ∈ names, ':' ∉ name)
    (h : Aligned ms ms' t t') {s s' : Scan} (hs : s.Level s') :
    Aligned ms ms' (d.quotePrefixesFrom names s t) (d.quotePrefixesFrom names s' t') := by
  -- a marker or a name is several characters at once, so the induction is on the length
  induction hn : t.length using Nat.strongRecOn generalizing ms ms' t t' s s' with
  | ind n ih =>
    subst hn
    cases t with
    | nil =>
      cases h
      simp only [Dialect.quotePrefixesFrom]
      exact .nil
    | cons c t =>
      rcases h.cons_cases with ⟨t', rfl, ht⟩ | ⟨rfl, word, m, m', ns, ns', u, u', hword, rfl, rfl,
        rfl, rfl, hu⟩
      · have hcopy {s s' : Scan} (hs : s.Level s') : Aligned ms ms'
            (c :: d.quotePrefixesFrom names s t) (c :: d.quotePrefixesFrom names s' t') :=
          .char c (ih _ (Nat.lt_succ_self _) ht hs rfl)
        cases hs with
        | @inside close hclose =>
          rw [Dialect.quotePrefixesFrom, Dialect.quotePrefixesFrom]
          refine hcopy ?_
          unfold Scan.advanceInside
          split
          · exact .outside rfl
          · exact .inside hclose
        | @outside previous previous' hboundary =>
          have hleading := h.leadingName_eq hnames
          rcases d.outside_cases names previous c t with
            ⟨close, hclose⟩ | ⟨hclose, hprevious, name, tail, hmem, hname, htext⟩ | ⟨hclose, hname⟩
          · rw [Dialect.quotePrefixesFrom_opened hclose, Dialect.quotePrefixesFrom_opened hclose]
            exact hcopy (.inside (hd.closing hclose))
          · have hall : Aligned ms ms' ((name ++ ['.']) ++ tail) (c :: t') := by
              rw [List.append_assoc, List.singleton_append, ← htext]
              exact h
            obtain ⟨tail', htext', htail⟩ := hall.split (by simp [hnames name hmem])
            rw [List.append_assoc, List.singleton_append] at htext'
            have hlength : tail.length < (c :: t).length := by
              rw [htext, List.length_append, List.length_cons]
              omega
            rw [Dialect.quotePrefixesFrom_name hclose hprevious hname htext,
              Dialect.quotePrefixesFrom_name hclose (hboundary ▸ hprevious) (hleading ▸ hname)
                htext']
            exact (refl _).append (.char '.' (ih _ hlength htail (.outside rfl) rfl))
          · rw [Dialect.quotePrefixesFrom_plain hclose hname,
              Dialect.quotePrefixesFrom_plain hclose fun h => hleading ▸ hname (hboundary.trans h)]
            exact hcopy (.outside rfl)
      · have hlength : u.length < (':' :: (word.toList ++ ((toString m).toList ++ u))).length := by
          simp only [List.length_cons, List.length_append]
          omega
        obtain ⟨s₁, s₁', hlevel, hmarkers⟩ :=
          Dialect.quotePrefixesFrom_markers hd hnames hs hword m m'
        rw [(hmarkers u u').1, (hmarkers u u').2]
        exact .marker hword (ih _ hlength hu hlevel rfl)

end Aligned

end SqlTree
