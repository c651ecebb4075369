import SqlTree.Proofs.Grouping.Nesting
import SqlTree.Proofs.Markers.Node
import SqlTree.Proofs.Positional.Scan
import SqlTree.Proofs.Verbatim.Draft

/-!
# SqlTree.Proofs.Neutral.Reader

Text without what dialects put into it.  `Dialect.neutral` reads a statement
that was written in a dialect from left to right and tells names between
quotes and string literals from the code around them.  The quotes around
names become double quotes, a marker outside of quotes becomes a question
mark, and everything else stays.

A draft without raw SQL reads the same from every dialect and every
collector: what is left of its text is `Draft.plain` (`Draft.neutral_text`).
-/

namespace SqlTree

/-! ## The reader -/

/-- Where a reader is: in code, perhaps in the word of a marker, in a name
between quotes, or in a string literal. -/
inductive Zone where
  | code (within : Bool)
  | name
  | literal

namespace Dialect

/-- The rest of a text, from a zone on. -/
def neutralFrom (d : Dialect) : Zone → List Char → List Char
  | _, [] => []
  | .code within, c :: cs =>
    if within ∧ isWordChar c then d.neutralFrom (.code true) cs
    else if c = d.leftQuote then '"' :: d.neutralFrom .name cs
    else if c = d.valueQuote then c :: d.neutralFrom .literal cs
    else if c = ':' ∧ cs.head?.any isWordStart then '?' :: d.neutralFrom (.code true) cs
    else c :: d.neutralFrom (.code false) cs
  | .name, c :: cs =>
    if c = d.rightQuote then '"' :: d.neutralFrom (.code false) cs else c :: d.neutralFrom .name cs
  | .literal, c :: cs =>
    if c = d.valueQuote then c :: d.neutralFrom (.code false) cs
    else c :: d.neutralFrom .literal cs

/-- A statement with double quotes around its names and a question mark for
each marker. -/
def neutral (d : Dialect) (sql : String) : String :=
  String.ofList (d.neutralFrom (.code false) sql.toList)

end Dialect

/-! ## Tokens -/

/-- A segment of a name between quotes; the star stays bare. -/
def wrapped (left right : Char) (s : List Char) : List Char :=
  if s = ['*'] then s else left :: (s ++ [right])

/-- A path with its segments between quotes. -/
def wrappedPath (left right : Char) (name : String) : List Char :=
  joinWith '.' ((splitAt '.' name.toList).map (wrapped left right))

/-- The segments of a name have characters of names only. -/
theorem all_isNameChar_of_mem_splitAt {name : List Char} (h : name.all isNameChar = true) :
    ∀ piece ∈ splitAt '.' name, piece.all isNameChar = true := by
  have hquote : '"' ∉ name := fun hmem =>
    absurd (List.all_eq_true.1 h '"' hmem) (by decide)
  intro piece hpiece
  have hsegments : segments '"' '"' name = splitAt '.' name := segments_of_not_mem hquote
  rw [← hsegments] at hpiece
  refine List.all_eq_true.2 fun c hc => List.all_eq_true.1 h c ?_
  exact (mem_of_mem_segmentsFrom hpiece hc).resolve_left List.not_mem_nil

namespace Dialect

/-- The quotes can be told from code, and those of names from those of
values. -/
structure QuotesTold (d : Dialect) : Prop extends d.QuotesStandOut, d.QuotesApart where
  noName : isNameChar d.rightQuote = false
  differ : d.leftQuote ≠ d.valueQuote

namespace QuotesTold

variable {d : Dialect} (hd : d.QuotesTold) {rest : List Char}
include hd

theorem neutralFrom_code (cs : List Char) (h : cs.all isSyntax = true) (hcolon : ':' ∉ cs) :
    d.neutralFrom (.code false) (cs ++ rest) = cs ++ d.neutralFrom (.code false) rest := by
  induction cs with
  | nil => rfl
  | cons c cs ih =>
    obtain ⟨hc, hcs⟩ := Bool.and_eq_true_iff.1 h
    obtain ⟨hne, hcolon⟩ := not_or.1 (mt List.mem_cons.2 hcolon)
    have hleft : c ≠ d.leftQuote := by rintro rfl; rw [hd.left] at hc; cases hc
    have hvalue : c ≠ d.valueQuote := by rintro rfl; rw [hd.value] at hc; cases hc
    rw [List.cons_append, neutralFrom, if_neg (by simp), if_neg hleft, if_neg hvalue,
      if_neg (fun hboth => hne hboth.1.symm), ih hcs hcolon, List.cons_append]

omit hd in
/-- A name between quotes. -/
theorem neutralFrom_name {cs : List Char} (h : d.rightQuote ∉ cs) (rest : List Char) :
    d.neutralFrom (.code false) (d.leftQuote :: (cs ++ d.rightQuote :: rest)) =
      '"' :: (cs ++ '"' :: d.neutralFrom (.code false) rest) := by
  have hname : d.neutralFrom .name (cs ++ d.rightQuote :: rest) =
      cs ++ '"' :: d.neutralFrom (.code false) rest := by
    induction cs with
    | nil => rw [List.nil_append, neutralFrom, if_pos rfl, List.nil_append]
    | cons c cs ih =>
      obtain ⟨hc, hcs⟩ := not_or.1 (mt List.mem_cons.2 h)
      rw [List.cons_append, neutralFrom, if_neg (Ne.symm hc), ih hcs, List.cons_append]
  rw [neutralFrom, if_neg (by simp), if_pos rfl, hname]

/-- A character between value quotes. -/
theorem neutralFrom_charLiteral (ch : Char) (rest : List Char) :
    d.neutralFrom (.code false) ((charLiteral d.valueQuote ch).toList ++ rest) =
      (charLiteral d.valueQuote ch).toList ++ d.neutralFrom (.code false) rest := by
  have hopen (cs : List Char) : d.neutralFrom (.code false) (d.valueQuote :: cs) =
      d.valueQuote :: d.neutralFrom .literal cs := by
    rw [neutralFrom, if_neg (by simp), if_neg (Ne.symm hd.differ), if_pos rfl]
  have hclose (cs : List Char) : d.neutralFrom .literal (d.valueQuote :: cs) =
      d.valueQuote :: d.neutralFrom (.code false) cs := by
    rw [neutralFrom, if_pos rfl]
  rw [charLiteral, String.toList_ofList]
  split
  · next hch =>
    subst hch
    simp only [List.cons_append, List.nil_append, hopen, hclose]
  · next hch =>
    have hinside (cs : List Char) : d.neutralFrom .literal (ch :: cs) =
        ch :: d.neutralFrom .literal cs := by
      rw [neutralFrom, if_neg hch]
    simp only [List.cons_append, List.nil_append, hopen, hinside, hclose]

/-- A marker that is not continued. -/
theorem neutralFrom_marker (hrest : EndsWord rest) (c : Collector) (b : Binding) :
    d.neutralFrom (.code false) ((c.record b.value b.type b.hint).1.toList ++ rest) =
      '?' :: d.neutralFrom (.code false) rest := by
  rcases c.record_eq_mark_or_word b with hmark | ⟨w, hw, hmarker⟩
  · rw [hmark]
    exact hd.neutralFrom_code ['?'] (by decide) (by decide)
  · have hstart : (w ++ rest).head?.any isWordStart = true := by
      cases w with
      | nil => cases hw
      | cons c w => exact (Bool.and_eq_true_iff.1 hw).1
    have hword (w : List Char) (hw : w.all isWordChar = true) :
        d.neutralFrom (.code true) (w ++ rest) = d.neutralFrom (.code true) rest := by
      induction w with
      | nil => rfl
      | cons c w ih =>
        obtain ⟨hc, hw⟩ := Bool.and_eq_true_iff.1 hw
        rw [List.cons_append, neutralFrom, if_pos ⟨rfl, hc⟩, ih hw]
    have hend : d.neutralFrom (.code true) rest = d.neutralFrom (.code false) rest := by
      cases rest with
      | nil => simp only [neutralFrom]
      | cons c rest =>
        have hc : isWordChar c = false := hrest
        simp [neutralFrom, hc]
    rw [hmarker, List.cons_append, neutralFrom, if_neg (by simp), if_neg hd.leftColon.symm,
      if_neg hd.valueColon.symm, if_pos ⟨rfl, hstart⟩,
      hword w (all_isWordChar_of_isWord hw), hend]

/-- The segments of a path, each between quotes. -/
theorem neutralFrom_joinWith {pieces : List (List Char)}
    (h : ∀ piece ∈ pieces, piece.all isNameChar = true) :
    d.neutralFrom (.code false)
        (joinWith '.' (pieces.map (wrapped d.leftQuote d.rightQuote)) ++ rest) =
      joinWith '.' (pieces.map (wrapped '"' '"')) ++ d.neutralFrom (.code false) rest := by
  have hpiece {piece : List Char} (hpiece : piece.all isNameChar = true) (rest : List Char) :
      d.neutralFrom (.code false) (wrapped d.leftQuote d.rightQuote piece ++ rest) =
        wrapped '"' '"' piece ++ d.neutralFrom (.code false) rest := by
    unfold wrapped
    split
    · next hstar =>
      rw [hstar]
      exact hd.neutralFrom_code _ (by decide) (by decide)
    · have hright : d.rightQuote ∉ piece := fun hmem => by
        have hname : isNameChar d.rightQuote = true := List.all_eq_true.1 hpiece _ hmem
        rw [hd.noName] at hname
        cases hname
      simpa using neutralFrom_name hright rest
  induction pieces with
  | nil => rfl
  | cons piece pieces ih =>
    obtain ⟨hfirst, hpieces⟩ := List.forall_mem_cons.1 h
    cases pieces with
    | nil => exact hpiece hfirst rest
    | cons next pieces =>
      have hdot (cs : List Char) : d.neutralFrom (.code false) ('.' :: cs) =
          '.' :: d.neutralFrom (.code false) cs :=
        hd.neutralFrom_code ['.'] (by decide) (by decide)
      have hcons (f : List Char → List Char) : joinWith '.' ((piece :: next :: pieces).map f) =
          f piece ++ '.' :: joinWith '.' ((next :: pieces).map f) := joinWith_cons (by simp) _
      rw [hcons, hcons, List.append_assoc, hpiece hfirst, List.cons_append, hdot, ih hpieces,
        List.append_assoc, List.cons_append]

end QuotesTold

/-! ## Names -/

theorem QuotesTold.quotesNoName {d : Dialect} (hd : d.QuotesTold) : d.QuotesNoName := by
  have hname {c : Char} (hc : isSyntax c = false) : isNameChar c = false := by
    refine Bool.eq_false_iff.2 fun hname => ?_
    rw [isSyntax_of_isCodeChar (isCodeChar_of_isNameChar hname)] at hc
    cases hc
  exact ⟨hname hd.value, hname hd.left, hd.noName⟩

namespace QuotesNoName

variable {d : Dialect} (hd : d.QuotesNoName)
include hd

theorem quoteSegment_eq {cs : List Char} (h : cs.all isNameChar = true) :
    quoteSegment d.leftQuote d.rightQuote cs = d.leftQuote :: (cs ++ [d.rightQuote]) := by
  have hright : d.rightQuote ∉ cs := by
    intro hmem
    have hname := List.all_eq_true.1 h d.rightQuote hmem
    rw [hd.right] at hname
    cases hname
  rw [quoteSegment, double_of_not_mem hright, List.cons_append]

/-- The segments of a name are put between quotes. -/
theorem quoteIdentifier_eq {name : String} (h : name.toList.all isNameChar = true) :
    (d.quoteIdentifier name).toList = wrappedPath d.leftQuote d.rightQuote name := by
  rw [toList_quoteIdentifier, writtenSegments, wrappedPath,
    segments_of_not_mem (hd.left_not_mem h)]
  refine congrArg _ (List.map_congr_left fun s hs => ?_)
  have hchars := all_isNameChar_of_mem_splitAt h s hs
  rw [writtenSegment, isQuoted_of_not_mem (hd.left_not_mem hchars), wrapped]
  simp only [Bool.false_eq_true, or_false, hd.quoteSegment_eq hchars]

end QuotesNoName

end Dialect

/-! ## Drafts -/

namespace Draft

/-- What is left of a draft in every dialect. -/
def plain : Draft → List Char
  | code s | raw s => s.toList
  | identifier i => wrappedPath '"' '"' i.text
  | label a => '"' :: (a.text.toList ++ ['"'])
  | quotedChar ch => (charLiteral '\'' ch).toList
  | value _ => ['?']
  | append p q => p.plain ++ q.plain
  | requoted _ p => p.plain

variable {d : Dialect} {p : Draft} {c : Collector}

/-- A text is read to what is left of its draft, whatever the dialect and the
collector.  The statements in it must keep their texts, and what comes after
it must not continue a marker at its end. -/
theorem neutralFrom_text (hd : d.QuotesTold) (hvalue : d.valueQuote = '\'')
    (h : p.Composed fun _ => False)
    (hlevels : ∀ l ∈ p.levels, ∀ c, d.quotePrefixes l.1 (l.2.text d c) = l.2.text d c)
    {rest : List Char} (hrest : p.dangles = true → EndsWord rest) :
    d.neutralFrom (.code false) ((p.text d c).toList ++ rest) =
      p.plain ++ d.neutralFrom (.code false) rest := by
  have hname := hd.quotesNoName
  induction h generalizing c rest with
  | @code s hs =>
    exact hd.neutralFrom_code _ (List.all_eq_true.2 fun c hc =>
      isSyntax_of_isCodeChar (List.all_eq_true.1 hs c hc)) (colon_not_mem_of_isCode hs)
  | raw hs => exact hs.elim
  | identifier i =>
    have hchars := (Bool.and_eq_true_iff.1 i.isName_text).1
    rw [text_identifier, Identifier.quoted, hname.quoteIdentifier_eq hchars]
    exact hd.neutralFrom_joinWith (all_isNameChar_of_mem_splitAt hchars)
  | label a =>
    have hchars := all_isNameChar_of_isWord a.valid
    have hright : d.rightQuote ∉ a.text.toList := fun hmem => by
      have hright : isNameChar d.rightQuote = true := List.all_eq_true.1 hchars _ hmem
      rw [hd.noName] at hright
      cases hright
    rw [text_label, Alias.quoted, hname.quoteAlias_eq a.valid, hname.quoteSegment_eq hchars]
    simpa [plain] using Dialect.QuotesTold.neutralFrom_name hright rest
  | quotedChar ch =>
    have hliteral := hd.neutralFrom_charLiteral ch rest
    rw [text_quotedChar, hliteral, hvalue, plain]
  | value b => exact hd.neutralFrom_marker (hrest rfl) c b
  | @append p q _ _ seam ihp ihq =>
    obtain ⟨hp, hq⟩ := List.forall_mem_append.1 hlevels
    have hnext : p.dangles = true → EndsWord ((q.text d (p.after c)).toList ++ rest) :=
      endsWord_seam hd.toQuotesApart seam hrest _
    have hlast : q.dangles = true → EndsWord rest := by
      intro hq
      exact hrest (by rw [dangles_append, hq, Bool.true_or])
    have hplain : (p ++ q).plain = p.plain ++ q.plain := rfl
    rw [text_append, String.toList_append, List.append_assoc, ihp hp hnext, ihq hq hlast, hplain,
      List.append_assoc]
  | @enclosed p _ ih =>
    have hinner : ∀ l ∈ p.levels, ∀ c, d.quotePrefixes l.1 (l.2.text d c) = l.2.text d c := by
      simpa [enclosed] using hlevels
    have hparen : EndsWord (')' :: rest) := show isWordChar ')' = false by decide
    have hopen (cs : List Char) : d.neutralFrom (.code false) ('(' :: cs) =
        '(' :: d.neutralFrom (.code false) cs :=
      hd.neutralFrom_code ['('] (by decide) (by decide)
    have hclose (cs : List Char) : d.neutralFrom (.code false) (')' :: cs) =
        ')' :: d.neutralFrom (.code false) cs :=
      hd.neutralFrom_code [')'] (by decide) (by decide)
    have htext : ((enclosed p).text d c).toList = '(' :: ((p.text d c).toList ++ [')']) := by
      simp [SqlTree.enclosed]
    have hplain : (enclosed p).plain = '(' :: (p.plain ++ [')']) := rfl
    rw [htext, hplain, List.cons_append, List.append_assoc, List.singleton_append, hopen,
      ih hinner (fun _ => hparen), hclose, List.cons_append, List.append_assoc,
      List.singleton_append]
  | @requoted names p _ _ ih =>
    obtain ⟨hkeeps, hbelow⟩ := List.forall_mem_cons.1 hlevels
    rw [text_requoted, hkeeps]
    exact ih hbelow hrest

end Draft

end SqlTree
