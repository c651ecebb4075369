import SqlTree.Proofs.Requoting

/-!
# SqlTree.Proofs.Markers.Scan

Reading markers out of a text.  `markersIn` finds every colon with a word
behind it, from left to right and with no regard for quotes.  Text without
colons adds no marker (`markersFrom_append_of_not_mem`), and quoting the
prefixes of a text moves none (`Requoted.markersFrom_eq`).
-/

namespace SqlTree

/-- The markers in a text. -/
def markersFrom : List Char → List String
  | [] => []
  | c :: cs =>
    if c = ':' ∧ cs.head?.any isWordStart then
      String.ofList (':' :: cs.takeWhile isWordChar) :: markersFrom cs
    else markersFrom cs

/-- The markers in a statement. -/
def markersIn (sql : String) : List String := markersFrom sql.toList

/-! ## Words -/

theorem isWordChar_of_isWordStart {c : Char} (h : isWordStart c = true) : isWordChar c = true := by
  simp only [isWordStart, isWordChar, Char.isAlphanum, Bool.or_eq_true] at h ⊢
  rcases h with h | h <;> simp [h]

/-- Whether a word starts here is seen from the word characters here. -/
theorem any_isWordStart_takeWhile (cs : List Char) :
    (cs.takeWhile isWordChar).head?.any isWordStart = cs.head?.any isWordStart := by
  cases cs with
  | nil => rfl
  | cons c cs =>
    by_cases hc : isWordChar c = true
    · rw [List.takeWhile_cons_of_pos hc]
      rfl
    · rw [List.takeWhile_cons_of_neg hc]
      have hstart : isWordStart c = false := by
        simpa using mt isWordChar_of_isWordStart hc
      simp [hstart]

theorem takeWhile_append_of_head {w cs : List Char} (hw : w.all isWordChar = true)
    (hcs : cs.head?.any isWordChar = false) : (w ++ cs).takeWhile isWordChar = w := by
  induction w with
  | nil =>
    cases cs with
    | nil => rfl
    | cons c cs => exact List.takeWhile_cons_of_neg (by simpa using hcs)
  | cons c w ih =>
    obtain ⟨hc, hw⟩ := Bool.and_eq_true_iff.1 hw
    rw [List.cons_append, List.takeWhile_cons_of_pos hc, ih hw]

/-! ## Laws -/

theorem markersFrom_cons_of_ne {c : Char} (h : c ≠ ':') (cs : List Char) :
    markersFrom (c :: cs) = markersFrom cs := by
  rw [markersFrom, if_neg (fun hc => h hc.1)]

/-- Text without colons adds no marker. -/
theorem markersFrom_append_of_not_mem {xs : List Char} (h : ':' ∉ xs) (ys : List Char) :
    markersFrom (xs ++ ys) = markersFrom ys := by
  induction xs with
  | nil => rfl
  | cons c xs ih =>
    obtain ⟨hc, hxs⟩ := not_or.1 (mt List.mem_cons.2 h)
    rw [List.cons_append, markersFrom_cons_of_ne (Ne.symm hc), ih hxs]

/-- A colon reads alike before texts that start with the same word and hold
the same markers. -/
theorem markersFrom_cons_congr (c : Char) {xs ys : List Char}
    (hword : xs.takeWhile isWordChar = ys.takeWhile isWordChar)
    (h : markersFrom xs = markersFrom ys) : markersFrom (c :: xs) = markersFrom (c :: ys) := by
  have hstart : xs.head?.any isWordStart = ys.head?.any isWordStart := by
    rw [← any_isWordStart_takeWhile, hword, any_isWordStart_takeWhile]
  rw [markersFrom, markersFrom, hstart, hword, h]

/-- A marker that ends where its word does. -/
theorem markersFrom_marker {w : List Char} (hw : isWord w = true) {cs : List Char}
    (hcs : cs.head?.any isWordChar = false) :
    markersFrom (':' :: (w ++ cs)) = String.ofList (':' :: w) :: markersFrom cs := by
  have hstart : (w ++ cs).head?.any isWordStart = true := by
    cases w with
    | nil => cases hw
    | cons c w => exact (Bool.and_eq_true_iff.1 hw).1
  have hcolon : ':' ∉ w := by
    intro hmem
    exact absurd (List.all_eq_true.1 (all_isWordChar_of_isWord hw) ':' hmem) (by decide)
  rw [markersFrom, if_pos ⟨rfl, hstart⟩, takeWhile_append_of_head (all_isWordChar_of_isWord hw) hcs,
    markersFrom_append_of_not_mem hcolon]

/-! ## Quoted names -/

/-- Cutting a name at its dots adds nothing to it. -/
theorem mem_of_mem_segmentsFrom {left right c : Char} {acc cs s : List Char} {quoted : Bool}
    (hs : s ∈ segmentsFrom left right acc quoted cs) (hc : c ∈ s) : c ∈ acc ∨ c ∈ cs := by
  fun_induction segmentsFrom left right acc quoted cs with
  | case1 acc quoted =>
    rw [List.mem_singleton.1 hs, List.mem_reverse] at hc
    exact .inl hc
  | case2 acc x cs ih =>
    rcases ih hs with h | h
    · rcases List.mem_cons.1 h with rfl | h
      · exact .inr List.mem_cons_self
      · exact .inl h
    · exact .inr (List.mem_cons_of_mem _ h)
  | case3 acc quoted x cs _ _ ih =>
    rcases ih hs with h | h
    · rw [List.mem_singleton.1 h]
      exact .inr List.mem_cons_self
    · exact .inr (List.mem_cons_of_mem _ h)
  | case4 acc quoted cs _ _ ih =>
    rcases List.mem_cons.1 hs with rfl | hs
    · exact .inl (List.mem_reverse.1 hc)
    · rcases ih hs with h | h
      · cases h
      · exact .inr (List.mem_cons_of_mem _ h)
  | case5 acc quoted x cs _ _ _ ih =>
    rcases ih hs with h | h
    · rcases List.mem_cons.1 h with rfl | h
      · exact .inr List.mem_cons_self
      · exact .inl h
    · exact .inr (List.mem_cons_of_mem _ h)

theorem mem_joinWith {sep c : Char} {pieces : List (List Char)} (h : c ∈ joinWith sep pieces) :
    c = sep ∨ ∃ piece ∈ pieces, c ∈ piece := by
  fun_induction joinWith sep pieces with
  | case1 => cases h
  | case2 piece => exact .inr ⟨piece, List.mem_singleton.2 rfl, h⟩
  | case3 piece pieces _ ih =>
    rcases List.mem_append.1 h with h | h
    · exact .inr ⟨piece, List.mem_cons_self, h⟩
    · rcases List.mem_cons.1 h with h | h
      · exact .inl h
      · rcases ih h with h | ⟨piece', hpiece, hc⟩
        · exact .inl h
        · exact .inr ⟨piece', List.mem_cons_of_mem _ hpiece, hc⟩

namespace Dialect

variable {d : Dialect}

/-- A quoted name is made of the name, the quotes and dots. -/
theorem mem_quoteIdentifier {name : String} {c : Char} (h : c ∈ (d.quoteIdentifier name).toList) :
    c = '.' ∨ c = d.leftQuote ∨ c = d.rightQuote ∨ c ∈ name.toList := by
  rw [toList_quoteIdentifier] at h
  rcases mem_joinWith h with h | ⟨piece, hpiece, hc⟩
  · exact .inl h
  · obtain ⟨s, hs, rfl⟩ := List.mem_map.1 hpiece
    have hsegment {c : Char} (hc : c ∈ s) : c ∈ name.toList :=
      (mem_of_mem_segmentsFrom hs hc).resolve_left List.not_mem_nil
    by_cases hstar : s = ['*']
    · rw [hstar, writtenSegment_star] at hc
      exact .inr (.inr (.inr (hsegment (hstar ▸ hc))))
    · rw [writtenSegment_of_ne_star hstar] at hc
      exact .inr ((mem_withQuotes hc).imp_right (Or.imp_right hsegment))

end Dialect

/-! ## Quoting prefixes -/

/-- None of the quotes can be taken for a part of a marker. -/
structure Dialect.QuotesApart (d : Dialect) : Prop where
  valueWord : isWordChar d.valueQuote = false
  leftWord : isWordChar d.leftQuote = false
  rightWord : isWordChar d.rightQuote = false
  valueColon : d.valueQuote ≠ ':'
  leftColon : d.leftQuote ≠ ':'
  rightColon : d.rightQuote ≠ ':'

namespace Dialect

variable {d : Dialect}

/-- A region is opened by a quote and closed by one. -/
theorem closer?_eq_some {c close : Char} (h : d.closer? c = some close) :
    (c = d.valueQuote ∨ c = d.leftQuote) ∧ (close = d.valueQuote ∨ close = d.rightQuote) := by
  unfold closer? at h
  split at h
  · next hc => cases h; exact ⟨.inl hc, .inl rfl⟩
  · split at h
    · next hc => cases h; exact ⟨.inr hc, .inr rfl⟩
    · cases h

/-- The word at this position stays as it is: a marker has begun, or the
position is inside quotes. -/
def keepsWord : Scan → Prop
  | .outside (some previous) => isNameBoundary (some previous) = false
  | .inside close => isWordChar close = false
  | _ => False

theorem isNameBoundary_of_isWordChar {c : Char} (h : isWordChar c = true) :
    isNameBoundary (some c) = false := by
  simp only [isWordChar, Bool.or_eq_true, decide_eq_true_eq] at h
  simp only [isNameBoundary, Bool.not_eq_false', Bool.or_eq_true, decide_eq_true_eq]
  exact .inl (.inl (.inl (.inl h)))

end Dialect

namespace Requoted

variable {d : Dialect} {names : List (List Char)} {s : Scan} {cs out : List Char}

/-- The word that a marker goes on with stays as it is. -/
theorem takeWhile_eq (h : Requoted d names s cs out) (hd : d.QuotesApart)
    (hscan : Dialect.keepsWord s) (rest : List Char) :
    (out ++ rest).takeWhile isWordChar = (cs ++ rest).takeWhile isWordChar := by
  have hcons {c : Char} {cs out : List Char}
      (h : isWordChar c = true →
        (out ++ rest).takeWhile isWordChar = (cs ++ rest).takeWhile isWordChar) :
      (c :: out ++ rest).takeWhile isWordChar = (c :: cs ++ rest).takeWhile isWordChar := by
    rw [List.cons_append, List.cons_append]
    by_cases hc : isWordChar c = true
    · rw [List.takeWhile_cons_of_pos hc, List.takeWhile_cons_of_pos hc, h hc]
    · rw [List.takeWhile_cons_of_neg hc, List.takeWhile_cons_of_neg hc]
  induction h with
  | nil => rfl
  | @inside close c cs out h ih =>
    refine hcons fun hc => ih ?_
    have hne : c ≠ close := by
      rintro rfl
      rw [show isWordChar c = false from hscan] at hc
      contradiction
    rw [Scan.advanceInside, if_neg hne]
    exact hscan
  | opened hclose h ih =>
    refine hcons fun hc => absurd hc ?_
    rcases (Dialect.closer?_eq_some hclose).1 with rfl | rfl
    · rw [hd.valueWord]
      exact Bool.false_ne_true
    · rw [hd.leftWord]
      exact Bool.false_ne_true
  | @name previous name cs out hprevious hname h ih =>
    cases previous with
    | none => cases hscan
    | some previous =>
      rw [show isNameBoundary (some previous) = false from hscan] at hprevious
      contradiction
  | plain hclose h ih => exact hcons fun hc => ih (Dialect.isNameBoundary_of_isWordChar hc)

/-- Quoting the prefixes of a text leaves its markers where they are. -/
theorem markersFrom_eq (h : Requoted d names s cs out) (hd : d.QuotesApart)
    (hnames : ∀ name ∈ names, ':' ∉ name)
    (hscan : ∀ close, s = .inside close → isWordChar close = false ∧ close ≠ ':')
    (rest : List Char) : markersFrom (out ++ rest) = markersFrom (cs ++ rest) := by
  induction h with
  | nil => rfl
  | @inside close c cs out h ih =>
    obtain ⟨hword, hcolon⟩ := hscan close rfl
    have hnext : ∀ close', Scan.advanceInside close c = .inside close' → isWordChar close' = false ∧
      close' ≠ ':' := by
      intro close' hclose'
      unfold Scan.advanceInside at hclose'
      split at hclose' <;> cases hclose'
      exact ⟨hword, hcolon⟩
    rw [List.cons_append, List.cons_append]
    by_cases hc : c = ':'
    · subst hc
      have hkeeps : Dialect.keepsWord (Scan.advanceInside close ':') := by
        rw [Scan.advanceInside, if_neg (Ne.symm hcolon)]
        exact hword
      exact markersFrom_cons_congr ':' (h.takeWhile_eq hd hkeeps rest) (ih hnext)
    · rw [markersFrom_cons_of_ne hc, markersFrom_cons_of_ne hc, ih hnext]
  | @opened previous close c cs out hclose h ih =>
    obtain ⟨hopen, hclosed⟩ := Dialect.closer?_eq_some hclose
    have hc : c ≠ ':' := by
      rcases hopen with rfl | rfl
      · exact hd.valueColon
      · exact hd.leftColon
    have hnext : ∀ close', Scan.inside close = .inside close' → isWordChar close' = false ∧
      close' ≠ ':' := by
      intro close' hclose'
      cases hclose'
      rcases hclosed with rfl | rfl
      · exact ⟨hd.valueWord, hd.valueColon⟩
      · exact ⟨hd.rightWord, hd.rightColon⟩
    rw [List.cons_append, List.cons_append, markersFrom_cons_of_ne hc, markersFrom_cons_of_ne hc,
      ih hnext]
  | @name previous name cs out hprevious hname h ih =>
    have hquoted : ':' ∉ (d.quoteIdentifier (String.ofList name)).toList := by
      intro hmem
      rcases Dialect.mem_quoteIdentifier hmem with hc | hc | hc | hc
      · cases hc
      · exact hd.leftColon hc.symm
      · exact hd.rightColon hc.symm
      · rw [String.toList_ofList] at hc
        exact hnames name hname hc
    have hdot : '.' ≠ ':' := by decide
    rw [List.append_assoc, List.append_assoc, markersFrom_append_of_not_mem hquoted,
      markersFrom_append_of_not_mem (hnames name hname), List.cons_append, List.cons_append,
      markersFrom_cons_of_ne hdot, markersFrom_cons_of_ne hdot]
    exact ih fun _ hclose => by cases hclose
  | @plain previous c cs out hclose h ih =>
    have hnext : ∀ close, Scan.outside (some c) = .inside close →
        isWordChar close = false ∧ close ≠ ':' :=
      fun _ hclose => by cases hclose
    rw [List.cons_append, List.cons_append]
    by_cases hc : c = ':'
    · subst hc
      have hkeeps : Dialect.keepsWord (.outside (some ':')) :=
        show isNameBoundary (some ':') = false by decide
      exact markersFrom_cons_congr ':' (h.takeWhile_eq hd hkeeps rest) (ih hnext)
    · rw [markersFrom_cons_of_ne hc, markersFrom_cons_of_ne hc, ih hnext]

end Requoted

end SqlTree
