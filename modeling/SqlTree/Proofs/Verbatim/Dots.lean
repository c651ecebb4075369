import SqlTree.Proofs.Written.Tree

/-!
# SqlTree.Proofs.Verbatim.Dots

Text in which no name is quoted.  A name is quoted in front of a dot, so
what stands in front of the dots decides: behind a character that is part of
no name, no name ends (`DotGuarded`).  In text without raw SQL every dot stands
behind a closing quote, with one exception: the star of numbered rows is
qualified by a bare `b`.  So quoting prefixes changes nothing
(`Draft.Written.guarded`), unless the names have that `b` among them and
rows are numbered in the text.
-/

namespace SqlTree

/-! ## In front of dots -/

/-- No name ends here, unless it is the one of numbered rows, if `B`. -/
def GuardsDot (B : Prop) (before : List Char) : Prop :=
  (∃ front c, before = front ++ [c] ∧ isNameChar c = false) ∨
    (B ∧ ∃ front, before = front ++ [' ', 'b'])

/-- No name ends in front of a dot, unless it is the one of numbered rows,
if `B`. -/
def DotGuarded (B : Prop) (t : List Char) : Prop :=
  ∀ before after, t = before ++ '.' :: after → GuardsDot B before

theorem GuardsDot.prepend {B : Prop} {t : List Char} (h : GuardsDot B t) (s : List Char) :
    GuardsDot B (s ++ t) := by
  rcases h with ⟨front, c, rfl, hc⟩ | ⟨hB, front, rfl⟩
  · exact .inl ⟨s ++ front, c, by rw [List.append_assoc], hc⟩
  · exact .inr ⟨hB, s ++ front, by rw [List.append_assoc]⟩

namespace DotGuarded

variable {B B' : Prop} {s t : List Char}

theorem of_not_mem (h : '.' ∉ t) : DotGuarded B t := by
  rintro before after rfl
  exact absurd (List.mem_append_right before List.mem_cons_self) h

theorem mono (h : DotGuarded B t) (hB : B → B') : DotGuarded B' t := fun before after ht =>
  (h before after ht).imp_right fun hb => ⟨hB hb.1, hb.2⟩

/-- A dot behind text that it may stand behind, in front of more text. -/
theorem dotted (hs : DotGuarded B s) (hguards : GuardsDot B s) (ht : DotGuarded B t) :
    DotGuarded B (s ++ '.' :: t) := by
  intro before after heq
  rcases List.append_eq_append_iff.1 heq with ⟨rest, rfl, hrest⟩ | ⟨rest, rfl, hrest⟩
  · cases rest with
    | nil => rwa [List.append_nil]
    | cons c rest =>
      obtain ⟨rfl, rfl⟩ := List.cons.inj hrest
      exact ((ht rest after rfl).prepend ['.']).prepend s
  · cases rest with
    | nil => rwa [List.append_nil] at hguards
    | cons c rest =>
      obtain ⟨rfl, rfl⟩ := List.cons.inj hrest
      exact hs before rest rfl

/-- DotGuarded text starts with no dot, so it may stand behind any other. -/
theorem append (hs : DotGuarded B s) (ht : DotGuarded B t) : DotGuarded B (s ++ t) := by
  intro before after heq
  rcases List.append_eq_append_iff.1 heq with ⟨rest, rfl, hrest⟩ | ⟨rest, rfl, hrest⟩
  · exact (ht rest after hrest).prepend s
  · cases rest with
    | nil =>
      have hstarts := (ht [] after hrest.symm).prepend before
      rwa [List.append_nil] at hstarts
    | cons c rest =>
      obtain ⟨rfl, -⟩ := List.cons.inj hrest
      exact hs before rest rfl

end DotGuarded

/-- A name ends in one of its characters, so none ends in front of a guarded
dot. -/
theorem DotGuarded.leadingName_eq_none {B : Prop} {s t : List Char} {names : List (List Char)}
    (h : DotGuarded B (s ++ t)) (hnames : ∀ name ∈ names, isName (String.ofList name) = true)
    (hb : B → ['b'] ∉ names) : leadingName names t = none := by
  refine SqlTree.leadingName_eq_none fun name hname hfits => ?_
  obtain ⟨after, rfl⟩ := hfits
  have hchars {c : Char} (hc : c ∈ name) : isNameChar c = true := by
    refine Bool.of_not_eq_false fun hno => ?_
    exact not_mem_of_isName (hnames name hname) hno hc
  have hne : name ≠ [] := by
    rcases isName_cases (hnames name hname) with rfl | ⟨c, cs, rfl, -⟩ <;> simp
  have hguards : GuardsDot B (s ++ name) := h (s ++ name) after (by simp)
  rcases List.eq_nil_or_concat name with hnil | ⟨front, last, rfl⟩
  · exact hne hnil
  · rw [List.concat_eq_append] at *
    rcases hguards with ⟨before, c, heq, hc⟩ | ⟨hB, before, heq⟩
    · rw [← List.append_assoc] at heq
      obtain ⟨-, rfl⟩ := List.append_singleton_inj.1 heq
      rw [hchars (List.mem_append_right front List.mem_cons_self)] at hc
      cases hc
    · have hends : s ++ front ++ [last] = before ++ [' '] ++ ['b'] := by simpa using heq
      obtain ⟨hfront, rfl⟩ := List.append_singleton_inj.1 hends
      rcases List.eq_nil_or_concat front with rfl | ⟨start, blank, rfl⟩
      · exact hb hB hname
      · rw [List.concat_eq_append, ← List.append_assoc] at hfront
        obtain ⟨-, rfl⟩ := List.append_singleton_inj.1 hfront
        have hblank := hchars (c := ' ') (by simp)
        exact absurd hblank (by decide)

namespace Dialect

variable {d : Dialect} {names : List (List Char)}

/-- Where no name is found, the pass changes nothing. -/
theorem quotePrefixesFrom_of_leadingName_eq_none {t : List Char}
    (h : ∀ before after, t = before ++ after → leadingName names after = none) {s : Scan}
    (hs : s.isSettled = true) : d.quotePrefixesFrom names s t = t := by
  induction t generalizing s with
  | nil => simp only [quotePrefixesFrom]
  | cons c t ih =>
    have hrest {s : Scan} (hs : s.isSettled = true) : d.quotePrefixesFrom names s t = t :=
      ih (fun before after heq => h (c :: before) after (by rw [heq]; rfl)) hs
    cases s with
    | within => cases hs
    | inside close => rw [quotePrefixesFrom, hrest (Scan.isSettled_advanceInside close c)]
    | outside previous =>
      cases hclose : d.closer? c with
      | some close => rw [quotePrefixesFrom_opened hclose, hrest rfl]
      | none => rw [quotePrefixesFrom_plain hclose fun _ => h [] (c :: t) rfl, hrest rfl]

end Dialect

/-- DotGuarded text stays as it is. -/
theorem DotGuarded.quotePrefixes_eq {B : Prop} {sql : String} (h : DotGuarded B sql.toList)
    {names : List String} (hnames : ∀ name ∈ names, isName name = true) (hb : B → "b" ∉ names)
    (d : Dialect) : d.quotePrefixes names sql = sql := by
  have hlists : ∀ name ∈ names.map String.toList, isName (String.ofList name) = true := by
    intro name hname
    obtain ⟨s, hs, rfl⟩ := List.mem_map.1 hname
    rw [String.ofList_toList]
    exact hnames s hs
  have hlist : B → ['b'] ∉ names.map String.toList := by
    intro hB hmem
    obtain ⟨s, hs, heq⟩ := List.mem_map.1 hmem
    have hs' : s = "b" := String.toList_inj.1 (by rw [heq]; rfl)
    exact hb hB (hs' ▸ hs)
  rw [Dialect.quotePrefixes, Dialect.quotePrefixesFrom_of_leadingName_eq_none ?_ rfl,
    String.ofList_toList]
  intro before after heq
  rw [heq] at h
  exact h.leadingName_eq_none hlists hlist

/-! ## Names between quotes -/

/-- Without an opening quote a name is cut at all of its dots. -/
theorem segmentsFrom_of_not_mem {left right : Char} {cs : List Char} (h : left ∉ cs)
    (acc : List Char) : ∃ piece pieces, splitAt '.' cs = piece :: pieces ∧
      segmentsFrom left right acc false cs = (acc.reverse ++ piece) :: pieces := by
  induction cs generalizing acc with
  | nil => exact ⟨[], [], rfl, by simp [segmentsFrom]⟩
  | cons c cs ih =>
    obtain ⟨hc, hcs⟩ := not_or.1 (mt List.mem_cons.2 h)
    have hopens : ¬(c = left ∧ acc = []) := fun hopens => hc hopens.1.symm
    by_cases hdot : c = '.'
    · obtain ⟨piece, pieces, hsplit, hsegments⟩ := ih hcs []
      refine ⟨[], piece :: pieces, by rw [splitAt, if_pos hdot, hsplit], ?_⟩
      rw [segmentsFrom, if_neg Bool.false_ne_true, if_neg hopens, if_pos hdot, hsegments]
      simp
    · obtain ⟨piece, pieces, hsplit, hsegments⟩ := ih hcs (c :: acc)
      refine ⟨c :: piece, pieces, by rw [splitAt, if_neg hdot, hsplit], ?_⟩
      rw [segmentsFrom, if_neg Bool.false_ne_true, if_neg hopens, if_neg hdot, hsegments]
      simp

theorem segments_of_not_mem {left right : Char} {cs : List Char} (h : left ∉ cs) :
    segments left right cs = splitAt '.' cs := by
  obtain ⟨piece, pieces, hsplit, hsegments⟩ := segmentsFrom_of_not_mem h []
  rw [segments, hsegments, hsplit]
  rfl

namespace Dialect

/-- None of the quotes is a character of a name. -/
structure QuotesNoName (d : Dialect) : Prop where
  value : isNameChar d.valueQuote = false
  left : isNameChar d.leftQuote = false
  right : isNameChar d.rightQuote = false

namespace QuotesNoName

variable {d : Dialect} (hd : d.QuotesNoName) {B : Prop}

include hd

/-- The quotes are around a segment, so it has no dots and ends in one of
them. -/
theorem quoteSegment_word {word : List Char} (h : isWord word = true) :
    '.' ∉ quoteSegment d.leftQuote d.rightQuote word ∧
      ∃ front, quoteSegment d.leftQuote d.rightQuote word = front ++ [d.rightQuote] := by
  refine ⟨fun hdot => ?_, _, rfl⟩
  have hdotName : isNameChar '.' = true := by decide
  rcases mem_quoteSegment_iff.1 hdot with heq | hword | heq
  · rw [heq, hd.left] at hdotName
    cases hdotName
  · exact absurd (List.all_eq_true.1 (all_isWordChar_of_isWord h) '.' hword) (by decide)
  · rw [heq, hd.right] at hdotName
    cases hdotName

theorem left_not_mem {cs : List Char} (h : cs.all isNameChar = true) : d.leftQuote ∉ cs := by
  intro hmem
  have hname := List.all_eq_true.1 h d.leftQuote hmem
  rw [hd.left] at hname
  cases hname

theorem quoteAlias_eq {name : String} (h : isWord name.toList = true) :
    (d.quoteAlias name).toList = quoteSegment d.leftQuote d.rightQuote name.toList := by
  have hleft := hd.left_not_mem (all_isNameChar_of_isWord h)
  rw [toList_quoteAlias, withQuotes_eq (isQuoted_of_not_mem hleft)]

theorem writtenSegment_word {word : List Char} (h : isWord word = true) :
    d.writtenSegment word = quoteSegment d.leftQuote d.rightQuote word := by
  have hstar : word ≠ ['*'] := by
    rintro rfl
    exact absurd h (by decide)
  have hleft := hd.left_not_mem (all_isNameChar_of_isWord h)
  rw [writtenSegment_of_ne_star hstar, withQuotes_eq (isQuoted_of_not_mem hleft)]

/-- Between the segments of a path stand dots behind closing quotes. -/
theorem guarded_joinWith {pieces : List (List Char)} (h : isPath pieces = true) :
    DotGuarded B (joinWith '.' (pieces.map d.writtenSegment)) := by
  have hplain {piece : List Char} (hpiece : isWord piece = true) :
      DotGuarded B (d.writtenSegment piece) := by
    rw [hd.writtenSegment_word hpiece]
    exact .of_not_mem (hd.quoteSegment_word hpiece).1
  have hdotted {piece rest : List Char} (hpiece : isWord piece = true) (hrest : DotGuarded B rest) :
      DotGuarded B (d.writtenSegment piece ++ '.' :: rest) := by
    refine (hplain hpiece).dotted ?_ hrest
    obtain ⟨front, hfront⟩ := (hd.quoteSegment_word hpiece).2
    rw [hd.writtenSegment_word hpiece, hfront]
    exact .inl ⟨front, _, rfl, hd.right⟩
  fun_induction isPath pieces with
  | case1 => cases h
  | case2 piece => exact hplain h
  | case3 piece last =>
    obtain ⟨hpiece, hlast⟩ := Bool.and_eq_true_iff.1 h
    refine hdotted hpiece ?_
    rcases Bool.or_eq_true_iff.1 hlast with hlast | hstar
    · exact hplain hlast
    · rw [eq_of_beq hstar]
      exact .of_not_mem (by simp [writtenSegment_star, joinWith])
  | case4 piece pieces _ _ ih =>
    obtain ⟨hpiece, hpieces⟩ := Bool.and_eq_true_iff.1 h
    have hne : pieces.map d.writtenSegment ≠ [] := by
      intro hnil
      rw [List.map_eq_nil_iff.1 hnil] at hpieces
      cases hpieces
    rw [List.map_cons, joinWith_cons hne]
    exact hdotted hpiece (ih hpieces)

theorem guarded_quoteIdentifier (i : Identifier) :
    DotGuarded B (d.quoteIdentifier i.text).toList := by
  have hleft := hd.left_not_mem (Bool.and_eq_true_iff.1 i.isName_text).1
  rw [toList_quoteIdentifier, writtenSegments, segments_of_not_mem hleft]
  have hvalid := i.valid
  rw [isIdentifierText, Bool.or_eq_true] at hvalid
  rcases hvalid with hstar | hpath
  · rw [eq_of_beq hstar]
    exact .of_not_mem (by simp [splitAt, writtenSegment_star, joinWith])
  · exact hd.guarded_joinWith hpath

theorem guarded_charLiteral (ch : Char) : DotGuarded B (charLiteral d.valueQuote ch).toList := by
  have hquote : d.valueQuote ≠ '.' := by
    intro heq
    have hvalue := hd.value
    rw [heq] at hvalue
    exact absurd hvalue (by decide)
  have hopen : DotGuarded B [d.valueQuote] := .of_not_mem (by simpa using hquote.symm)
  rw [charLiteral, String.toList_ofList]
  by_cases hch : ch = d.valueQuote
  · rw [if_pos hch, hch]
    exact .of_not_mem (by simpa using hquote.symm)
  · rw [if_neg hch]
    by_cases hdot : ch = '.'
    · rw [hdot]
      exact hopen.dotted (.inl ⟨[], _, rfl, hd.value⟩) hopen
    · exact .of_not_mem (by simpa using ⟨hquote.symm, Ne.symm hdot, hquote.symm⟩)

end QuotesNoName

end Dialect

end SqlTree
