import SqlTree.Proofs.Positional.Scan

/-!
# SqlTree.Proofs.Positional.Requoting

Quoting the prefixes of a text and of the same text with its markers
replaced gives texts that are related in the same way
(`Unmarks.requoted_from`).  The two passes stand at the same place all the
time, except behind a marker: there one stands behind a word, where no name
may start, and the other behind a question mark, where one may.  But what
stands behind a marker starts no word, and the only name that is no word is
the star, which is not quoted.
-/

namespace SqlTree

variable {d : Dialect} {names : List (List Char)} {rest t t' : List Char}

/-! ## Names -/

theorem Unmarks.leadingName_eq (h : Unmarks rest t t')
    (hnames : ∀ name ∈ names, isName (String.ofList name) = true) :
    leadingName names t = leadingName names t' := by
  refine leadingName_congr fun name hname => ?_
  have hcolon := not_mem_of_isName (hnames name hname) (c := ':') (by decide)
  have hmark := not_mem_of_isName (hnames name hname) (c := '?') (by decide)
  exact h.prefix_iff (by simp [hcolon]) (by simp [hmark])

/-! ## Quotes -/

/-- None of the quotes can be taken for a part of a marker, for a question
mark or for a dot. -/
structure Dialect.QuotesClear (d : Dialect) : Prop extends d.QuotesApart where
  valueMark : d.valueQuote ≠ '?'
  leftMark : d.leftQuote ≠ '?'
  rightMark : d.rightQuote ≠ '?'
  valueDot : d.valueQuote ≠ '.'
  leftDot : d.leftQuote ≠ '.'

namespace Dialect

theorem closer?_eq_none {c : Char} (hvalue : d.valueQuote ≠ c) (hleft : d.leftQuote ≠ c) :
    d.closer? c = none := by
  rw [closer?, if_neg hvalue.symm, if_neg hleft.symm]

/-- A closing quote is no part of a marker and no question mark. -/
theorem QuotesClear.closing (hd : d.QuotesClear) {close : Char}
    (h : close = d.valueQuote ∨ close = d.rightQuote) :
    isWordChar close = false ∧ close ≠ ':' ∧ close ≠ '?' := by
  rcases h with rfl | rfl
  · exact ⟨hd.valueWord, hd.valueColon, hd.valueMark⟩
  · exact ⟨hd.rightWord, hd.rightColon, hd.rightMark⟩

theorem QuotesApart.closer?_eq_none (hd : d.QuotesApart) {c : Char} (hc : isWordChar c = true) :
    d.closer? c = none := by
  refine Dialect.closer?_eq_none ?_ ?_
  · rintro rfl
    rw [hd.valueWord] at hc
    cases hc
  · rintro rfl
    rw [hd.leftWord] at hc
    cases hc

/-! ## Stretches of text -/

/-- Inside a region everything up to its end is copied. -/
theorem quotePrefixesFrom_inside {close : Char} (xs : List Char) (h : close ∉ xs) :
    d.quotePrefixesFrom names (.inside close) (xs ++ t) =
      xs ++ d.quotePrefixesFrom names (.inside close) t := by
  induction xs with
  | nil => rfl
  | cons x xs ih =>
    obtain ⟨hx, hxs⟩ := not_or.1 (mt List.mem_cons.2 h)
    rw [List.cons_append, quotePrefixesFrom, Scan.advanceInside, if_neg (Ne.symm hx), ih hxs]
    rfl

/-- A word is copied where no name may start. -/
theorem quotePrefixesFrom_word (hd : d.QuotesApart) {w : List Char} (hw : w.all isWordChar = true)
    (hne : w ≠ []) (previous : Char) (hprevious : isNameBoundary (some previous) = false) :
    ∃ last, isWordChar last = true ∧ d.quotePrefixesFrom names (.outside (some previous)) (w ++ t) =
      w ++ d.quotePrefixesFrom names (.outside (some last)) t := by
  induction w generalizing previous with
  | nil => exact absurd rfl hne
  | cons c w ih =>
    obtain ⟨hc, hw⟩ := Bool.and_eq_true_iff.1 hw
    have hstep : d.quotePrefixesFrom names (.outside (some previous)) (c :: (w ++ t)) =
        c :: d.quotePrefixesFrom names (.outside (some c)) (w ++ t) :=
      quotePrefixesFrom_plain (hd.closer?_eq_none hc) fun h => by rw [hprevious] at h; cases h
    rw [List.cons_append, hstep]
    by_cases hnil : w = []
    · subst hnil
      exact ⟨c, hc, rfl⟩
    · obtain ⟨last, hlast, heq⟩ := ih hw hnil c (isNameBoundary_of_isWordChar hc)
      exact ⟨last, hlast, by rw [heq]; rfl⟩

/-- A marker is copied wherever it stands outside of quotes. -/
theorem quotePrefixesFrom_marker (hd : d.QuotesApart)
    (hnames : ∀ name ∈ names, isName (String.ofList name) = true) {w : List Char}
    (hw : isWord w = true) (previous : Option Char) :
    ∃ last, isWordChar last = true ∧
      d.quotePrefixesFrom names (.outside previous) (':' :: (w ++ t)) =
        ':' :: (w ++ d.quotePrefixesFrom names (.outside (some last)) t) := by
  have hcolons : ∀ name ∈ names, ':' ∉ name := fun name hname =>
    not_mem_of_isName (hnames name hname) (by decide)
  have hstep : d.quotePrefixesFrom names (.outside previous) (':' :: (w ++ t)) =
      ':' :: d.quotePrefixesFrom names (.outside (some ':')) (w ++ t) :=
    quotePrefixesFrom_plain (closer?_eq_none hd.valueColon hd.leftColon)
      fun _ => leadingName_cons_eq_none hcolons (by decide)
  have hne : w ≠ [] := by
    rintro rfl
    cases hw
  rw [hstep]
  obtain ⟨last, hlast, heq⟩ :=
    quotePrefixesFrom_word hd (all_isWordChar_of_isWord hw) hne ':' (by decide)
  exact ⟨last, hlast, congrArg (':' :: ·) heq⟩

/-- So is a question mark. -/
theorem quotePrefixesFrom_mark (hd : d.QuotesClear)
    (hnames : ∀ name ∈ names, isName (String.ofList name) = true) (previous : Option Char) :
    d.quotePrefixesFrom names (.outside previous) ('?' :: t) =
      '?' :: d.quotePrefixesFrom names (.outside (some '?')) t := by
  have hmarks : ∀ name ∈ names, '?' ∉ name := fun name hname =>
    not_mem_of_isName (hnames name hname) (by decide)
  exact quotePrefixesFrom_plain (closer?_eq_none hd.valueMark hd.leftMark)
    fun _ => leadingName_cons_eq_none hmarks (by decide)

end Dialect

/-! ## Starts of texts -/

/-- The pass starts no word. -/
theorem Requoted.head?_any {s : Scan} {out : List Char} (h : Requoted d names s t out)
    (hd : d.QuotesApart) {q : Char → Bool} (hq : ∀ c, q c = true → isWordChar c = true)
    (ht : (t ++ rest).head?.any q = false) : (out ++ rest).head?.any q = false := by
  cases h with
  | nil => exact ht
  | inside | opened | plain => exact ht
  | @name _ name cs out =>
    have hends := d.endsWord_quoteIdentifier hd (String.ofList name)
    cases hquoted : (d.quoteIdentifier (String.ofList name)).toList with
    | nil =>
      exact Bool.eq_false_iff.2 fun hdot => absurd (hq '.' hdot) (by decide)
    | cons c cs =>
      rw [hquoted] at hends
      exact Bool.eq_false_iff.2 fun hc => by
        have hword : isWordChar c = true := hq c hc
        rw [show isWordChar c = false from hends] at hword
        cases hword

/-! ## Two passes -/

/-- The positions of the two passes in front of a text: the same one, or
behind a word and behind a question mark where no word starts. -/
inductive Scan.Alike (d : Dialect) (t : List Char) : Scan → Scan → Prop where
  | inside {close : Char} (h : close = d.valueQuote ∨ close = d.rightQuote) :
      Alike d t (.inside close) (.inside close)
  | outside (previous : Option Char) : Alike d t (.outside previous) (.outside previous)
  | behind {last : Char} (hlast : isWordChar last = true) (ht : EndsWord t) :
      Alike d t (.outside (some last)) (.outside (some '?'))

theorem Scan.Alike.requoted {s s' : Scan} (h : Scan.Alike d t s s') (names : List (List Char)) :
    Requoted d names s t (d.quotePrefixesFrom names s t) := by
  cases h with
  | inside => exact (d.requoted_from names t).1 _
  | outside | behind => exact (d.requoted_from names t).2 _

theorem EndsWord.of_append {xs ys : List Char} (h : EndsWord (xs ++ ys)) : EndsWord xs := by
  cases xs with
  | nil => rfl
  | cons c xs => exact h

/-- The star stays as it is. -/
theorem Dialect.quoteIdentifier_star (h : d.leftQuote ≠ '*') :
    (d.quoteIdentifier (String.ofList ['*'])).toList = ['*'] := by
  have hsegments : segments d.leftQuote d.rightQuote ['*'] = [['*']] := by
    simp [segments, segmentsFrom, h.symm]
  simp [quoteIdentifier, hsegments, joinWith]

/-- No name starts with a dot. -/
theorem leadingName_dot (hnames : ∀ name ∈ names, isName (String.ofList name) = true) :
    leadingName names ('.' :: t) = none := by
  refine leadingName_eq_none fun name hname hfits => ?_
  rcases isName_cases (hnames name hname) with rfl | ⟨c, cs, rfl, hc⟩
  · exact absurd (List.cons_prefix_cons.1 hfits).1 (by decide)
  · have hdot : c = '.' := (List.cons_prefix_cons.1 hfits).1
    rw [hdot] at hc
    exact absurd hc (by decide)

namespace Unmarks

/-- Behind a marker one pass stands behind a word and the other behind a
question mark.  A character that starts no word is treated alike there,
unless it is a star that the other pass takes for a name; and a star is
written as it is. -/
theorem requoted_behind (hd : d.QuotesClear)
    (hnames : ∀ name ∈ names, isName (String.ofList name) = true) {last c : Char}
    (hlast : isWordChar last = true) (hc : isWordChar c = false) (h : Unmarks rest t t')
    (hcopy : ∀ {s s'}, Scan.Alike d t s s' → Unmarks rest
      (c :: d.quotePrefixesFrom names s t) (c :: d.quotePrefixesFrom names s' t'))
    (hgo : ∀ {u u'}, u.length < t.length → Unmarks rest u u' → Unmarks rest
      (d.quotePrefixesFrom names (.outside (some '.')) u)
      (d.quotePrefixesFrom names (.outside (some '.')) u')) :
    Unmarks rest (d.quotePrefixesFrom names (.outside (some last)) (c :: t))
      (d.quotePrefixesFrom names (.outside (some '?')) (c :: t')) := by
  have hinWord {P : Prop} (h : isNameBoundary (some last) = true) : P := by
    rw [Dialect.isNameBoundary_of_isWordChar hlast] at h
    cases h
  cases hclose : d.closer? c with
  | some close =>
    rw [Dialect.quotePrefixesFrom_opened hclose, Dialect.quotePrefixesFrom_opened hclose]
    exact hcopy (.inside (Dialect.closer?_eq_some hclose).2)
  | none =>
    rw [Dialect.quotePrefixesFrom_plain hclose hinWord]
    rcases d.outside_cases names (some '?') c t' with
      ⟨close, hclose'⟩ | ⟨-, hprevious, name, tail', hmem, hname, htext⟩ | ⟨-, hname⟩
    · rw [hclose] at hclose'
      cases hclose'
    · rw [Dialect.quotePrefixesFrom_name hclose hprevious hname htext]
      rcases isName_cases (hnames name hmem) with rfl | ⟨x, xs, rfl, hx⟩
      · obtain ⟨rfl, rfl⟩ := List.cons.inj htext
        have hleft : d.leftQuote ≠ '*' := by
          intro hleft
          simp [Dialect.closer?, hleft] at hclose
          split at hclose <;> cases hclose
        obtain ⟨tail, rfl, htail⟩ := h.split_right (t := ['.']) (by decide)
        have hdot : d.quotePrefixesFrom names (.outside (some '*')) ('.' :: tail) =
            '.' :: d.quotePrefixesFrom names (.outside (some '.')) tail :=
          Dialect.quotePrefixesFrom_plain (Dialect.closer?_eq_none hd.valueDot hd.leftDot)
            fun _ => leadingName_dot hnames
        rw [Dialect.quoteIdentifier_star hleft, List.singleton_append, hdot]
        exact .other (by decide) (.other (by decide) (hgo (Nat.lt_succ_self _) htail))
      · have hx' : x = c := (List.cons.inj htext).1.symm
        rw [hx', hc] at hx
        cases hx
    · rw [Dialect.quotePrefixesFrom_plain hclose hname]
      exact hcopy (.outside (some c))

/-- Inside a region a character is copied. -/
theorem requoted_inside {close c : Char} (hclose : close = d.valueQuote ∨ close = d.rightQuote)
    (hcopy : ∀ {s s'}, Scan.Alike d t s s' → Unmarks rest
      (c :: d.quotePrefixesFrom names s t) (c :: d.quotePrefixesFrom names s' t')) :
    Unmarks rest (d.quotePrefixesFrom names (.inside close) (c :: t))
      (d.quotePrefixesFrom names (.inside close) (c :: t')) := by
  rw [Dialect.quotePrefixesFrom, Dialect.quotePrefixesFrom]
  refine hcopy ?_
  by_cases hend : c = close
  · rw [Scan.advanceInside, if_pos hend]
    exact .outside _
  · rw [Scan.advanceInside, if_neg hend]
    exact .inside hclose

/-- Outside of regions the two passes open a region, quote a name or copy a
character together. -/
theorem requoted_outside (hd : d.QuotesClear)
    (hnames : ∀ name ∈ names, isName (String.ofList name) = true) {c : Char}
    (previous : Option Char) (h : Unmarks rest (c :: t) (c :: t'))
    (hcopy : ∀ {s s'}, Scan.Alike d t s s' → Unmarks rest
      (c :: d.quotePrefixesFrom names s t) (c :: d.quotePrefixesFrom names s' t'))
    (hgo : ∀ {u u'}, u.length < (c :: t).length → Unmarks rest u u' → Unmarks rest
      (d.quotePrefixesFrom names (.outside (some '.')) u)
      (d.quotePrefixesFrom names (.outside (some '.')) u')) :
    Unmarks rest (d.quotePrefixesFrom names (.outside previous) (c :: t))
      (d.quotePrefixesFrom names (.outside previous) (c :: t')) := by
  rcases d.outside_cases names previous c t with
    ⟨close, hclose⟩ | ⟨hclose, hprevious, name, tail, hmem, hname, htext⟩ | ⟨hclose, hname⟩
  · rw [Dialect.quotePrefixesFrom_opened hclose, Dialect.quotePrefixesFrom_opened hclose]
    exact hcopy (.inside (Dialect.closer?_eq_some hclose).2)
  · have hcolon := not_mem_of_isName (hnames name hmem) (c := ':') (by decide)
    have hall : Unmarks rest (name ++ ['.'] ++ tail) (c :: t') := by
      rw [List.append_assoc, List.singleton_append, ← htext]
      exact h
    obtain ⟨tail', htext', htail⟩ := hall.split (by simp [hcolon])
    rw [List.append_assoc, List.singleton_append] at htext'
    have hname' : leadingName names (c :: t') = some name := by
      rw [← h.leadingName_eq hnames, hname]
    have hquoted : ':' ∉ (d.quoteIdentifier (String.ofList name)).toList :=
      Draft.colon_not_mem_quoteIdentifier hd.toQuotesApart (isCode_of_isName (hnames name hmem))
    have hlength : tail.length < (c :: t).length := by
      rw [htext, List.length_append, List.length_cons]
      omega
    rw [Dialect.quotePrefixesFrom_name hclose hprevious hname htext,
      Dialect.quotePrefixesFrom_name hclose hprevious hname' htext']
    exact (of_not_mem hquoted).append (.other (by decide) (hgo hlength htail))
  · rw [Dialect.quotePrefixesFrom_plain hclose hname,
      Dialect.quotePrefixesFrom_plain hclose (by rwa [← h.leadingName_eq hnames])]
    exact hcopy (.outside (some c))

/-- A marker and its question mark are copied, inside of a region and outside. -/
theorem requoted_marker (hd : d.QuotesClear)
    (hnames : ∀ name ∈ names, isName (String.ofList name) = true) {w : List Char}
    (hw : isWord w = true) (hend : EndsWord t) {s s' : Scan}
    (hs : Scan.Alike d (':' :: (w ++ t)) s s')
    (hcopy : ∀ {s s'}, Scan.Alike d t s s' → Unmarks rest
      (':' :: (w ++ d.quotePrefixesFrom names s t)) ('?' :: d.quotePrefixesFrom names s' t')) :
    Unmarks rest (d.quotePrefixesFrom names s (':' :: (w ++ t)))
      (d.quotePrefixesFrom names s' ('?' :: t')) := by
  have houtside (previous previous' : Option Char) : Unmarks rest
      (d.quotePrefixesFrom names (.outside previous) (':' :: (w ++ t)))
      (d.quotePrefixesFrom names (.outside previous') ('?' :: t')) := by
    obtain ⟨last, hlast, heq⟩ :=
      Dialect.quotePrefixesFrom_marker (t := t) hd.toQuotesApart hnames hw previous
    rw [heq, Dialect.quotePrefixesFrom_mark hd hnames]
    exact hcopy (.behind hlast hend)
  cases hs with
  | @inside close hclose =>
    obtain ⟨hword, hcolon, hmark⟩ := hd.closing hclose
    have hnot : close ∉ ':' :: w := by
      rw [List.mem_cons, not_or]
      refine ⟨hcolon, fun hmem => ?_⟩
      have hall := List.all_eq_true.1 (all_isWordChar_of_isWord hw) close hmem
      rw [hword] at hall
      cases hall
    have hcopied : d.quotePrefixesFrom names (.inside close) (':' :: (w ++ t)) =
        ':' :: (w ++ d.quotePrefixesFrom names (.inside close) t) :=
      Dialect.quotePrefixesFrom_inside (':' :: w) hnot
    have hcopied' : d.quotePrefixesFrom names (.inside close) ('?' :: t') =
        '?' :: d.quotePrefixesFrom names (.inside close) t' :=
      Dialect.quotePrefixesFrom_inside ['?'] (by simpa using hmark)
    rw [hcopied, hcopied']
    exact hcopy (.inside hclose)
  | outside previous => exact houtside previous previous
  | behind => exact houtside _ _

/-- Quoting the prefixes of both texts keeps them related. -/
theorem requoted_from (hd : d.QuotesClear)
    (hnames : ∀ name ∈ names, isName (String.ofList name) = true) (h : Unmarks rest t t')
    {s s' : Scan} (hs : Scan.Alike d t s s') :
    Unmarks rest (d.quotePrefixesFrom names s t) (d.quotePrefixesFrom names s' t') := by
  -- a marker or a name is several characters at once, so the induction is on the length
  induction hn : t.length using Nat.strongRecOn generalizing t t' s s' with
  | ind n ih =>
    subst hn
    have hgo {u u' : List Char} {s s' : Scan} (hlt : u.length < t.length) (h : Unmarks rest u u')
        (hs : Scan.Alike d u s s') := ih u.length hlt h hs rfl
    cases t with
    | nil =>
      cases h
      simp only [Dialect.quotePrefixesFrom]
      exact .nil
    | cons c t =>
      rcases h.cons_cases with ⟨t', rfl, hc, h'⟩ | ⟨rfl, w, t₁, t₁', rfl, rfl, hw, hend, h'⟩
      · have hcopy {s s' : Scan} (hs : Scan.Alike d t s s') : Unmarks rest
            (c :: d.quotePrefixesFrom names s t) (c :: d.quotePrefixesFrom names s' t') :=
          .char (fun hcolon => (hs.requoted names).head?_any hd.toQuotesApart
            (fun _ => isWordChar_of_isWordStart) (hc hcolon))
            (hgo (Nat.lt_succ_self _) h' hs)
        cases hs with
        | inside hclose => exact requoted_inside hclose hcopy
        | outside previous =>
          exact requoted_outside hd hnames previous h hcopy fun hlt h => hgo hlt h (.outside _)
        | behind hlast ht =>
          exact requoted_behind hd hnames hlast ht h' hcopy fun hlt h =>
            hgo (Nat.lt_succ_of_lt hlt) h (.outside _)
      · have hlength : t₁.length < (':' :: (w ++ t₁)).length := by
          rw [List.length_cons, List.length_append]
          omega
        exact requoted_marker hd hnames hw hend.of_append hs fun hs =>
          .marker hw ((hs.requoted names).head?_any hd.toQuotesApart (fun _ h => h) hend)
            (hgo hlength h' hs)

end Unmarks

end SqlTree
