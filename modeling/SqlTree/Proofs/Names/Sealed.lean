import Mathlib.Data.List.Perm.Subperm
import SqlTree.Proofs.Inlined.Node
import SqlTree.Proofs.Names.Segments

/-!
# SqlTree.Proofs.Names.Sealed

Quoted aliases under the passes over finished text.  Both passes leave text
in quotes alone (`InQuotes`) and take the next closing character for the end
of it.  Where the closing quote opens a region itself, a doubled one does no
harm; elsewhere the text behind it counts as standing outside of quotes
(`Dialect.Shipped.keeps_quoteAlias`).
-/

namespace SqlTree

variable {d : Dialect} {names : List (List Char)}

/-! ## Text in quotes -/

/-- From this position on all of the text stands in quotes. -/
inductive InQuotes (d : Dialect) : Scan → List Char → Prop where
  | done (position : Scan) : InQuotes d position []
  | opened {previous : Option Char} {c close : Char} {cs : List Char}
      (hclose : d.closer? c = some close) (h : InQuotes d (.inside close) cs) :
      InQuotes d (.outside previous) (c :: cs)
  | inside {c close : Char} {cs : List Char} (h : InQuotes d (Scan.advanceInside close c) cs) :
      InQuotes d (.inside close) (c :: cs)

/-- Neither quoting the prefixes of a text nor writing in its values changes
it, whatever the names and the values are. -/
def Dialect.Keeps (d : Dialect) (sql : String) : Prop :=
  ∀ names : List String, (∀ name ∈ names, isIdentifierText name = true) → ∀ c : Collector,
    d.quotePrefixes names sql = sql ∧ c.inline sql d = .ok sql

namespace InQuotes

variable {position : Scan} {cs : List Char}

theorem quotePrefixesFrom_eq (h : InQuotes d position cs) :
    d.quotePrefixesFrom names position cs = cs := by
  induction h with
  | done position => cases position <;> rfl
  | opened hclose _ ih => rw [Dialect.quotePrefixesFrom_opened hclose, ih]
  | inside _ ih => rw [Dialect.quotePrefixesFrom, ih]

theorem inlineFrom_eq (h : InQuotes d position cs) (hvalue : d.valueQuote = '\'') (c : Collector)
    (next : Nat) : c.inlineFrom d next position cs = .ok cs := by
  induction h with
  | done position => cases position <;> simp only [Collector.inlineFrom]
  | opened hclose _ ih =>
    rw [Collector.inlineFrom.eq_def]
    simp only [Collector.closer?_eq hvalue, hclose, ih]
    rfl
  | inside _ ih =>
    rw [Collector.inlineFrom, ih]
    rfl

theorem keeps {sql : String} (h : InQuotes d .start sql.toList) (hvalue : d.valueQuote = '\'') :
    d.Keeps sql := by
  intro names _ c
  constructor
  · rw [Dialect.quotePrefixes, h.quotePrefixesFrom_eq, String.ofList_toList]
  · rw [Collector.inline, h.inlineFrom_eq hvalue, Except.map, String.ofList_toList]

/-- A region goes on where its closing character does not occur. -/
theorem append {close : Char} {rest : List Char} (hclose : close ∉ cs)
    (h : InQuotes d (.inside close) rest) : InQuotes d (.inside close) (cs ++ rest) := by
  induction cs with
  | nil => exact h
  | cons c cs ih =>
    obtain ⟨hc, hcs⟩ := not_or.1 (mt List.mem_cons.2 hclose)
    refine .inside ?_
    rw [Scan.advanceInside, if_neg (Ne.symm hc)]
    exact ih hcs

/-- A character that opens a region which it also closes may be doubled. -/
theorem doubled {q : Char} (hq : d.closer? q = some q) (cs : List Char) :
    InQuotes d (.inside q) (double q cs ++ [q]) := by
  induction cs with
  | nil => exact .inside (.done _)
  | cons c cs ih =>
    by_cases hc : c = q
    · rw [hc, double_cons_self, List.cons_append, List.cons_append]
      refine .inside ?_
      rw [Scan.advanceInside, if_pos rfl]
      exact .opened hq ih
    · rw [double_cons_of_ne hc, List.cons_append]
      refine .inside ?_
      rw [Scan.advanceInside, if_neg hc]
      exact ih

end InQuotes

/-! ## Text behind a region -/

/-- A region is copied up to its end. -/
theorem Dialect.quotePrefixesFrom_region {previous : Option Char} {x close : Char}
    {inside t : List Char} (hclose : d.closer? x = some close) (hinside : close ∉ inside) :
    d.quotePrefixesFrom names (.outside previous) (x :: (inside ++ close :: t)) =
      x :: (inside ++ close :: d.quotePrefixesFrom names (.outside (some close)) t) := by
  rw [quotePrefixesFrom_opened hclose, quotePrefixesFrom_inside inside hinside, quotePrefixesFrom,
    Scan.advanceInside, if_pos rfl]

/-! ## Words behind a region -/

theorem leadingName_word_eq_none {c word : Char} (h : c ≠ word) (cs : List Char) :
    leadingName [[word]] (c :: cs) = none :=
  leadingName_eq_none fun name hname hfits => by
    rw [List.mem_singleton.1 hname] at hfits
    exact h (List.cons_prefix_cons.1 hfits).1.symm

/-- Two characters leave one of three. -/
theorem exists_mem_ne (cs : List Char) (hcs : cs.Nodup) (hlength : 2 < cs.length) (x y : Char) :
    ∃ c ∈ cs, c ≠ x ∧ c ≠ y := by
  by_contra hnone
  have hsubset : cs ⊆ [x, y] := fun c hc => by
    by_contra hother
    refine hnone ⟨c, hc, ?_⟩
    simpa using hother
  exact absurd (List.subperm_of_subset hcs hsubset).length_le (Nat.not_le_of_lt hlength)

namespace Dialect

/-- Outside of quotes some word is quoted behind some character. -/
theorem exists_requoted_word (hvalue : d.valueQuote = '\'') :
    ∃ gap word, isIdentifierText (String.ofList [word]) = true ∧
      gap ≠ d.rightQuote ∧ word ≠ d.rightQuote ∧
      ∀ previous cs, d.quotePrefixesFrom [[word]] (.outside previous) (gap :: word :: '.' :: cs) ≠
        gap :: word :: '.' :: cs := by
  obtain ⟨word, hword, hwordLeft, hwordRight⟩ :=
    exists_mem_ne ['a', 'b', 'c'] (by decide) (by decide) d.leftQuote d.rightQuote
  obtain ⟨gap, hgap, hgapLeft, hgapRight⟩ :=
    exists_mem_ne [' ', ',', ';'] (by decide) (by decide) d.leftQuote d.rightQuote
  have hwords : ∀ c ∈ ['a', 'b', 'c'], isIdentifierText (String.ofList [c]) = true ∧
      '*' ≠ c ∧ '\'' ≠ c := by
    intro c hc
    simp only [List.mem_cons, List.not_mem_nil, or_false] at hc
    rcases hc with rfl | rfl | rfl <;> decide +kernel
  have hgaps : ∀ c ∈ [' ', ',', ';'], isNameBoundary (some c) = true ∧ '\'' ≠ c ∧
      c ∉ ['a', 'b', 'c'] := by
    intro c hc
    simp only [List.mem_cons, List.not_mem_nil, or_false] at hc
    rcases hc with rfl | rfl | rfl <;> decide +kernel
  obtain ⟨hname, hstar, hwordValue⟩ := hwords word hword
  obtain ⟨hboundary, hgapValue, hgapWord⟩ := hgaps gap hgap
  refine ⟨gap, word, hname, hgapRight, hwordRight, fun previous cs hsame => ?_⟩
  have hcopied : d.quotePrefixesFrom [[word]] (.outside previous) (gap :: word :: '.' :: cs) =
      gap :: d.quotePrefixesFrom [[word]] (.outside (some gap)) (word :: '.' :: cs) :=
    quotePrefixesFrom_plain (closer?_eq_none (hvalue ▸ hgapValue) hgapLeft.symm) fun _ =>
      leadingName_word_eq_none (by rintro rfl; exact hgapWord hword) _
  have hfound : leadingName [[word]] (word :: '.' :: cs) = some [word] := by simp [leadingName]
  have htext (tail : List Char) : word :: '.' :: tail = [word] ++ '.' :: tail := rfl
  rw [hcopied, quotePrefixesFrom_name (closer?_eq_none (hvalue ▸ hwordValue) hwordLeft.symm)
    hboundary hfound (htext cs)] at hsame
  have hhead := congrArg List.head? (List.cons.inj hsame).2
  rw [List.head?_append] at hhead
  rcases d.head?_quoteIdentifier (String.ofList [word]) with hquote | hquote <;> rw [hquote] at hhead
  · exact hwordLeft (Option.some.inj hhead).symm
  · exact hstar (Option.some.inj hhead)

/-- The region of a quoted alias ends at a closing quote, or at an apostrophe
if it begins with one. -/
theorem closer?_leftQuote (hvalue : d.valueQuote = '\'') :
    d.closer? d.leftQuote = some (if d.leftQuote = '\'' then '\'' else d.rightQuote) := by
  rw [closer?, hvalue]
  split <;> simp

/-- Where the closing quote opens no region, a word behind the end of the
region is taken for bare. -/
theorem exists_not_keeps (hvalue : d.valueQuote = '\'') (hleft : d.rightQuote ≠ d.leftQuote)
    (hquote : d.rightQuote ≠ '\'') :
    ∃ s, isQuoted d.leftQuote d.rightQuote s.toList = false ∧ ¬d.Keeps (d.quoteAlias s) := by
  obtain ⟨gap, word, hname, hgapRight, hwordRight, hrequoted⟩ := exists_requoted_word hvalue
  let close := if d.leftQuote = '\'' then '\'' else d.rightQuote
  let s := String.ofList [close, gap, word, '.', word]
  have hs : isQuoted d.leftQuote d.rightQuote s.toList = false := by
    simp [s, isQuoted, hwordRight]
  -- a doubled quote leaves one more in front of the gap
  obtain ⟨more, hmore, hne⟩ : ∃ more, double d.rightQuote [close] = close :: more ∧
      ∀ previous cs, d.quotePrefixesFrom [[word]] (.outside previous)
        (more ++ gap :: word :: '.' :: cs) ≠ more ++ gap :: word :: '.' :: cs := by
    by_cases hclose : close = d.rightQuote
    · refine ⟨[d.rightQuote], by rw [hclose, double_cons_self]; rfl, fun previous cs hsame => ?_⟩
      rw [List.singleton_append, quotePrefixesFrom_plain
        (closer?_eq_none (hvalue ▸ hquote.symm) hleft.symm)
        fun _ => leadingName_word_eq_none hwordRight.symm _] at hsame
      exact hrequoted _ cs (List.cons.inj hsame).2
    · exact ⟨[], double_cons_of_ne hclose [], hrequoted⟩
  obtain ⟨behind, hbehind⟩ : ∃ behind, double d.rightQuote ['.', word] = '.' :: behind :=
    List.head?_eq_some_iff.1 (head?_double d.rightQuote ['.', word])
  have hplain : d.rightQuote ∉ [gap, word] := by simp [hgapRight.symm, hwordRight.symm]
  have htext : (d.quoteAlias s).toList = d.leftQuote :: ([] ++ close ::
      (more ++ gap :: word :: '.' :: (behind ++ [d.rightQuote]))) := by
    rw [toList_quoteAlias, withQuotes_eq hs, String.toList_ofList, quoteSegment,
      show [close, gap, word, '.', word] = [close] ++ [gap, word] ++ ['.', word] from rfl,
      double_append, double_append, hmore, hbehind, double_of_not_mem hplain]
    simp
  refine ⟨s, hs, fun hkeeps => ?_⟩
  have hkept := congrArg String.toList
    (hkeeps [String.ofList [word]] (List.forall_mem_singleton.2 hname) (.empty d.style)).1
  rw [quotePrefixes, String.toList_ofList, List.map_singleton, String.toList_ofList, htext,
    Scan.start, quotePrefixesFrom_region (closer?_leftQuote hvalue) List.not_mem_nil] at hkept
  exact hne _ _ (List.cons.inj (List.cons.inj hkept).2).2

/-- A quoted alias in which the character that closes its region does not
occur is left alone. -/
theorem keeps_quoteAlias_of_not_mem (hvalue : d.valueQuote = '\'') {s : String}
    (hs : isQuoted d.leftQuote d.rightQuote s.toList = false) {close : Char}
    (hclose : d.closer? d.leftQuote = some close) (hmem : close ∉ s.toList) :
    d.Keeps (d.quoteAlias s) := by
  refine InQuotes.keeps ?_ hvalue
  rw [toList_quoteAlias, withQuotes_eq hs]
  exact .opened hclose (.append (mt mem_double_iff.1 hmem) (.inside (.done _)))

/-- The passes over finished text leave all quoted aliases alone just if the
closing quote is the opening one or an apostrophe, so that a doubled one opens
a region again.  In the other dialects they leave those alone in which the
character that closes the region does not occur, and what is behind that
character they take for text outside of quotes. -/
theorem Shipped.keeps_quoteAlias (hd : d.Shipped) :
    ((∀ s, isQuoted d.leftQuote d.rightQuote s.toList = false → d.Keeps (d.quoteAlias s)) ↔
      d.rightQuote = d.leftQuote ∨ d.rightQuote = '\'') ∧
    ∀ s, isQuoted d.leftQuote d.rightQuote s.toList = false →
      ∀ close, d.closer? d.leftQuote = some close →
        (close ∉ s.toList → d.Keeps (d.quoteAlias s)) ∧
        ∀ (names : List String) (c : Collector) (inside behind : List Char), close ∉ inside →
          (d.quoteAlias s).toList = d.leftQuote :: (inside ++ close :: behind) →
          d.quotePrefixes names (d.quoteAlias s) = String.ofList (d.leftQuote :: (inside ++ close ::
            d.quotePrefixesFrom (names.map String.toList) (.outside (some close)) behind)) ∧
          c.inline (d.quoteAlias s) d = (c.inlineFrom d 1 (.outside (some close)) behind).map
            fun text => String.ofList (d.leftQuote :: (inside ++ close :: text)) := by
  have hvalue := hd.valueQuote_eq
  refine ⟨⟨fun hkeeps => ?_, fun hquotes s hs => ?_⟩, fun s hs close hclose =>
    ⟨keeps_quoteAlias_of_not_mem hvalue hs hclose, ?_⟩⟩
  · by_contra hother
    obtain ⟨hleft, hquote⟩ := not_or.1 hother
    obtain ⟨s, hs, hchanged⟩ := exists_not_keeps hvalue hleft hquote
    exact hchanged (hkeeps s hs)
  · have hopens : d.closer? d.leftQuote = some d.rightQuote := by
      rw [closer?_leftQuote hvalue]
      split
      · next hquote => rcases hquotes with h | h <;> simp [h, hquote]
      · rfl
    have hagain : d.closer? d.rightQuote = some d.rightQuote := by
      rcases hquotes with h | h
      · rw [h] at hopens ⊢
        exact hopens
      · rw [h, closer?, hvalue, if_pos rfl]
    refine InQuotes.keeps ?_ hvalue
    rw [toList_quoteAlias, withQuotes_eq hs]
    exact .opened hopens (.doubled hagain _)
  · intro names c inside behind hinside htext
    constructor
    · rw [quotePrefixes, htext, Scan.start, quotePrefixesFrom_region hclose hinside]
    · rw [Collector.inline, htext, Scan.start, Collector.inlineFrom_region hvalue hclose hinside]
      cases c.inlineFrom d 1 (.outside (some close)) behind <;> rfl

/-- In double quotes a name keeps a doubled quote, a word in front of a dot and
a marker; in brackets it keeps them without the closing one. -/
theorem keeps_quoteAlias_of_two :
    Dialect.ansi.Shipped ∧ Dialect.sqlServer.Shipped ∧
      Dialect.ansi.Keeps (Dialect.ansi.quoteAlias "x\" b.c :eq1") ∧
      Dialect.sqlServer.Keeps (Dialect.sqlServer.quoteAlias "x[ b.c :eq1") ∧
      (∃ s, isQuoted '[' ']' s.toList = false ∧
        ¬Dialect.sqlServer.Keeps (Dialect.sqlServer.quoteAlias s)) ∧
      Dialect.sqlServer.quotePrefixes ["b"] (Dialect.sqlServer.quoteAlias "a]b.c") = "[a]][b].c]" := by
  have hansi : Dialect.ansi.Shipped := .config .standard
  have hserver : Dialect.sqlServer.Shipped := .sqlServer
  refine ⟨hansi, hserver, (hansi.keeps_quoteAlias.1.2 (.inl rfl)) _ (by decide +kernel), ?_, ?_, ?_⟩
  · exact (hserver.keeps_quoteAlias.2 _ (by decide +kernel) ']' rfl).1 (by decide +kernel)
  · by_contra hnone
    refine absurd (hserver.keeps_quoteAlias.1.1 fun s hs => ?_) (by decide)
    by_contra hchanged
    exact hnone ⟨s, hs, hchanged⟩
  · rw [((hserver.keeps_quoteAlias.2 "a]b.c" (by decide +kernel) ']' rfl).2 ["b"] (.empty .named)
      ['a'] "]b.c]".toList (by decide) (by decide +kernel)).1]
    decide +kernel

/-- In brackets the text behind a doubled quote is taken for bare. -/
theorem brackets_end_at_doubled_quote :
    let d := Dialect.sqlServer
    let c := ((Collector.empty .named).record (.int 1) .int "eq").2
    d.Shipped ∧ isQuoted d.leftQuote d.rightQuote "a]b.c".toList = false ∧
      isQuoted d.leftQuote d.rightQuote "a]:eq1".toList = false ∧ isIdentifierText "b" = true ∧
      d.quoteAlias "a]b.c" = "[a]]b.c]" ∧ d.quotePrefixes ["b"] "[a]]b.c]" = "[a]][b].c]" ∧
      d.quoteAlias "a]:eq1" = "[a]]:eq1]" ∧ c.inline "[a]]:eq1]" d = .ok "[a]]1]" := by
  intro d c
  refine ⟨.sqlServer, ?_, ?_, ?_, ?_, ?_, ?_, eq_ok_of_toOption ?_⟩ <;> decide +kernel

end Dialect

end SqlTree
