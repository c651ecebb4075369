import SqlTree.Proofs.Inlined.Node

/-!
# SqlTree.Proofs.ValueQuotes.Loosened

Value quotes that the reader of markers does not know.  Whatever the dialect
quotes values by, `Collector.inlineFrom` looks for apostrophes
(`Collector.inlineFrom_valueQuote`).  To it a region in other value quotes is
plain text, and a question mark in such a region is a marker where markers are
question marks: these are the `loosened` tokens of a text.  Over a text
without apostrophes the literals are written for the markers of the loosened
tokens (`Collector.Keyed.inline_loosened`).
-/

namespace SqlTree

/-! ## Loosened tokens -/

/-- What a character is outside of quotes, where nothing follows it that a
marker could consist of. -/
def looseToken (style : MarkerStyle) (x : Char) : Token :=
  if style = .positional ∧ x = '?' then .marker ['?'] else .plain x

/-- The tokens to a reader to whom value quotes are no quotes. -/
def loosened (d : Dialect) (style : MarkerStyle) : List Token → List Token
  | [] => []
  | .plain x :: ts => .plain x :: loosened d style ts
  | .marker m :: ts => .marker m :: loosened d style ts
  | .region x inside close :: ts =>
    if x = d.valueQuote then
      .plain x :: (inside.map (looseToken style) ++ .plain close :: loosened d style ts)
    else .region x inside close :: loosened d style ts

variable {d : Dialect} {style : MarkerStyle} {ts : List Token}

/-- No marker is lost. -/
theorem markersOf_sublist_loosened (d : Dialect) (style : MarkerStyle) (ts : List Token) :
    (markersOf ts).Sublist (markersOf (loosened d style ts)) := by
  induction ts with
  | nil => exact .slnil
  | cons t ts ih =>
    cases t with
    | plain x => exact ih
    | marker m => exact ih.cons_cons m
    | region x inside close =>
      rw [loosened, markersOf]
      split
      · rw [markersOf, markersOf_append]
        exact ih.trans (List.sublist_append_right _ _)
      · exact ih

/-- Where markers have names, none is added either. -/
theorem markersOf_loosened_named (d : Dialect) (ts : List Token) :
    markersOf (loosened d .named ts) = markersOf ts := by
  have hplain (inside : List Char) : markersOf (inside.map (looseToken .named)) = [] :=
    markersOf_map_plain inside
  induction ts with
  | nil => rfl
  | cons t ts ih =>
    cases t with
    | plain x => exact ih
    | marker m => exact congrArg (m :: ·) ih
    | region x inside close =>
      rw [loosened]
      split
      · rw [markersOf, markersOf_append, hplain]
        exact ih
      · exact ih

theorem filled_map_plain (inside : List Char) (ts : List Token) (literals : List String) :
    filled (inside.map .plain ++ ts) literals = inside ++ filled ts literals := by
  induction inside with
  | nil => rfl
  | cons x xs ih => exact congrArg (x :: ·) ih

/-- Filled in they are the same if there is no marker in value quotes. -/
theorem filled_loosened
    (h : style = .positional → ∀ inside ∈ valuesOf d ts, '?' ∉ inside) (literals : List String) :
    filled (loosened d style ts) literals = filled ts literals := by
  induction ts generalizing literals with
  | nil => rfl
  | cons t ts ih =>
    cases t with
    | plain x => exact congrArg (x :: ·) (ih h literals)
    | marker m =>
      cases literals with
      | nil => exact congrArg (m ++ ·) (ih h [])
      | cons l ls => exact congrArg (l.toList ++ ·) (ih h ls)
    | region x inside close =>
      rw [valuesOf] at h
      rw [loosened]
      by_cases hopen : x = d.valueQuote
      · rw [if_pos hopen] at h ⊢
        have hplain : inside.map (looseToken style) = inside.map .plain := by
          refine List.map_congr_left fun y hy => if_neg fun hmark => ?_
          exact h hmark.1 inside (.head _) (hmark.2 ▸ hy)
        have hrest := ih (fun hstyle _ hmem => h hstyle _ (.tail _ hmem)) literals
        rw [hplain, filled, filled_map_plain, filled, filled, hrest]
      · rw [if_neg hopen] at h ⊢
        rw [filled, filled, ih h literals]

/-! ## The dialect of the reader -/

/-- The dialect as the reader of markers takes it. -/
def Dialect.asRead (d : Dialect) : Dialect := { d with valueQuote := '\'' }

namespace Dialect

/-- A plain character is one to the reader, too, unless it is an apostrophe. -/
theorem IsPlain.asRead {x : Char} (h : d.IsPlain x) (hquote : x ≠ '\'') : d.asRead.IsPlain x := by
  have hleft : x ≠ d.leftQuote := by
    rintro rfl
    have hclose := h.closer
    rw [closer?] at hclose
    split at hclose <;> simp at hclose
  exact ⟨closer?_eq_none (d := d.asRead) (Ne.symm hquote) (Ne.symm hleft), h.colon, h.mark⟩

/-- The quotes of names are the same to it. -/
theorem closer?_asRead {x : Char} (hquote : x ≠ '\'') (hvalue : x ≠ d.valueQuote) :
    d.asRead.closer? x = d.closer? x := by
  rw [closer?, closer?, if_neg hvalue, if_neg (show x ≠ d.asRead.valueQuote from hquote)]
  rfl

theorem QuotesClear.asRead (hd : d.QuotesClear) : d.asRead.QuotesClear :=
  ⟨⟨show isWordChar '\'' = false by decide, hd.leftWord, hd.rightWord,
    show '\'' ≠ ':' by decide, hd.leftColon, hd.rightColon⟩, show '\'' ≠ '?' by decide,
    hd.leftMark, hd.rightMark, show '\'' ≠ '.' by decide, hd.leftDot⟩

end Dialect

namespace Collector

variable {c : Collector} {next : Nat} {previous : Option Char} {t : List Char}

/-- The reader does not ask what values are quoted by. -/
theorem inlineFrom_asRead (c : Collector) (d : Dialect) (next : Nat) (scan : Scan)
    (t : List Char) : c.inlineFrom d.asRead next scan t = c.inlineFrom d next scan t := by
  induction t generalizing next scan with
  | nil => rw [inlineFrom, inlineFrom]
  | cons x t ih =>
    rw [inlineFrom.eq_def, inlineFrom.eq_def c d]
    cases scan <;> simp only [ih]
    rfl

/-! ## Characters -/

theorem closer?_eq_none {x : Char} (hquote : x ≠ '\'') (hleft : x ≠ d.leftQuote) :
    closer? d x = none := by
  rw [closer?, if_neg hquote, if_neg hleft]

/-- No marker starts in front of a character that is in no word. -/
theorem markerTail?_eq_none {x : Char} (hx : isWordChar x = false) :
    markerTail? previous (x :: t) = none := by
  have hstart : ¬(x.isAlpha = true ∨ x = '_') := by
    simp only [isWordChar, Char.isAlphanum, Bool.or_eq_false_iff, decide_eq_false_iff_not] at hx
    simp [hx.1.1, hx.2]
  rw [markerTail?, if_neg fun h => hstart h.2]

/-- A value quote is copied. -/
theorem inlineFrom_valueQuote (hd : d.QuotesClear) (hapart : d.ValuesApart)
    (hquote : d.valueQuote ≠ '\'') : c.inlineFrom d next (.outside previous) (d.valueQuote :: t) =
      (c.inlineFrom d next (.outside (some d.valueQuote)) t).map (d.valueQuote :: ·) :=
  inlineFrom_copied (closer?_eq_none hquote hapart.left.symm) (fun _ => hd.valueMark)
    fun _ hcolon => absurd hcolon hd.valueColon

/-- A character in front of a value quote is read as its loose token. -/
theorem inlineFrom_loose (hd : d.QuotesClear) {x : Char} (hquote : x ≠ '\'')
    (hleft : x ≠ d.leftQuote) (hprevious : previous ≠ some ':') {ts : List Token} {es : List Entry}
    (hes : c.Answers next (markersOf (looseToken c.style x :: ts)) es)
    (hrest : ∀ next previous es, c.Answers next (markersOf ts) es →
      c.inlineFrom d next (.outside previous) (d.valueQuote :: t) =
        (es.mapM fun e => d.quoteValue e.value).map (filled ts)) :
    c.inlineFrom d next (.outside previous) (x :: d.valueQuote :: t) =
      (es.mapM fun e => d.quoteValue e.value).map (filled (looseToken c.style x :: ts)) := by
  by_cases hmark : c.style = .positional ∧ x = '?'
  · have htoken : looseToken c.style x = .marker ['?'] := if_pos hmark
    rw [htoken] at hes ⊢
    obtain ⟨hstyle, rfl⟩ := hmark
    have hm : c.style.Marks ['?'] := by rw [hstyle]; rfl
    obtain ⟨last, -, hmarker⟩ := inlineFrom_marker hd.asRead rfl hm
      (show EndsWord (d.valueQuote :: t) from hd.valueWord) hprevious next
    simp only [inlineFrom_asRead] at hmarker
    exact hes.inlineFrom_marker hmarker fun es hes => hrest _ _ es hes
  · have htoken : looseToken c.style x = .plain x := if_neg hmark
    rw [htoken] at hes ⊢
    rw [inlineFrom_copied (closer?_eq_none hquote hleft) (fun hstyle hx => hmark ⟨hstyle, hx⟩)
      (fun _ _ => markerTail?_eq_none hd.valueWord), hrest _ _ es hes]
    cases es.mapM fun e => d.quoteValue e.value <;> rfl

/-- The characters in front of a value quote are, too, if there is one at most. -/
theorem inlineFrom_inside (hd : d.QuotesClear) {inside : List Char} (hlength : inside.length ≤ 1)
    (hquote : '\'' ∉ inside) (hleft : d.leftQuote ∉ inside) (hprevious : previous ≠ some ':')
    {ts : List Token} {es : List Entry}
    (hes : c.Answers next (markersOf (inside.map (looseToken c.style) ++ ts)) es)
    (hrest : ∀ next previous es, c.Answers next (markersOf ts) es →
      c.inlineFrom d next (.outside previous) (d.valueQuote :: t) =
        (es.mapM fun e => d.quoteValue e.value).map (filled ts)) :
    c.inlineFrom d next (.outside previous) (inside ++ d.valueQuote :: t) =
      (es.mapM fun e => d.quoteValue e.value).map
        (filled (inside.map (looseToken c.style) ++ ts)) := by
  match inside, hlength with
  | [], _ => exact hrest _ _ es hes
  | [x], _ =>
    exact inlineFrom_loose hd (fun heq => hquote (heq ▸ .head _))
      (fun heq => hleft (heq ▸ .head _)) hprevious hes hrest

/-! ## All tokens -/

/-- Over a text without apostrophes the reader writes the literals of the
entries for the markers of the loosened tokens, as long as no region in value
quotes has the quotes of names or more than one character. -/
theorem inlineFrom_loosened (hd : d.QuotesClear) (hapart : d.ValuesApart)
    (h : Tokens d c.style [] ts t) (hquote : '\'' ∉ t)
    (hinside : ∀ inside ∈ valuesOf d ts, inside.length ≤ 1 ∧ d.leftQuote ∉ inside)
    {es : List Entry} (hes : c.Answers next (markersOf (loosened d c.style ts)) es)
    (hprevious : previous ≠ some ':') : c.inlineFrom d next (.outside previous) t =
      (es.mapM fun e => d.quoteValue e.value).map (filled (loosened d c.style ts)) := by
  induction h generalizing next previous es with
  | nil =>
    cases hes
    rw [inlineFrom]
    rfl
  | @plain x ts t hx h ih =>
    obtain ⟨hx', ht⟩ := not_or.1 (mt List.mem_cons.2 hquote)
    have hnext : some x ≠ some ':' := fun heq => hx.colon (Option.some.inj heq)
    rw [← inlineFrom_asRead, inlineFrom_plain rfl (hx.asRead (Ne.symm hx')), inlineFrom_asRead,
      ih ht hinside hes hnext]
    cases es.mapM fun e => d.quoteValue e.value <;> rfl
  | @marker m ts t hm hend h ih =>
    have ht : '\'' ∉ t := fun hmem => hquote (List.mem_append_right _ hmem)
    obtain ⟨last, hlast, hmarker⟩ := inlineFrom_marker hd.asRead rfl hm (by simpa using hend)
      hprevious next
    simp only [inlineFrom_asRead] at hmarker
    exact hes.inlineFrom_marker hmarker fun es hes =>
      ih ht hinside hes fun heq => hlast (Option.some.inj heq)
  | @region x close inside ts t hclose hclosed h ih =>
    obtain ⟨hx, htail⟩ := not_or.1 (mt List.mem_cons.2 hquote)
    obtain ⟨hin, hbehind⟩ := not_or.1 (mt List.mem_append.2 htail)
    obtain ⟨hclose', ht⟩ := not_or.1 (mt List.mem_cons.2 hbehind)
    have hnext : some close ≠ some ':' := fun heq =>
      (hd.closing (Dialect.closer?_eq_some hclose).2).2.1 (Option.some.inj heq)
    rw [loosened] at hes ⊢
    rw [valuesOf] at hinside
    by_cases hopen : x = d.valueQuote
    · subst hopen
      obtain rfl : d.valueQuote = close := Option.some.inj
        (Dialect.QuotesStandOut.closer?_value.symm.trans hclose)
      rw [if_pos rfl] at hes hinside ⊢
      obtain ⟨⟨hlength, hleft⟩, hinside⟩ := List.forall_mem_cons.1 hinside
      -- the closing quote and what comes behind it
      have hrest : ∀ next previous es, c.Answers next (markersOf (loosened d c.style ts)) es →
          c.inlineFrom d next (.outside previous) (d.valueQuote :: t) =
            (es.mapM fun e => d.quoteValue e.value).map
              (filled (.plain d.valueQuote :: loosened d c.style ts)) := by
        intro next previous es hes
        rw [inlineFrom_valueQuote hd hapart (Ne.symm hx), ih ht hinside hes hnext]
        cases es.mapM fun e => d.quoteValue e.value <;> rfl
      rw [inlineFrom_valueQuote hd hapart (Ne.symm hx),
        inlineFrom_inside hd hlength hin hleft hnext hes hrest]
      cases es.mapM fun e => d.quoteValue e.value <;> rfl
    · rw [if_neg hopen] at hes hinside ⊢
      have hopened : d.asRead.closer? x = some close := by
        rw [Dialect.closer?_asRead (Ne.symm hx) hopen, hclose]
      rw [← inlineFrom_asRead, inlineFrom_region rfl hopened hclosed, inlineFrom_asRead,
        ih ht hinside hes hnext]
      cases es.mapM fun e => d.quoteValue e.value <;> rfl

/-! ## From the start -/

/-- Positional markers take the entries in order, and those behind the last
entry none. -/
theorem answers_positional (hstyle : c.style = .positional) {ms : List (List Char)} {i : Nat}
    (hms : (c.entries.drop i).length ≤ ms.length) :
    c.Answers (i + 1) ms (c.entries.drop i) := by
  induction ms generalizing i with
  | nil =>
    rw [List.eq_nil_of_length_eq_zero (Nat.le_zero.1 hms)]
    exact .nil _
  | cons m ms ih =>
    have hnext : c.nextAfter (i + 1) = i + 1 + 1 := by rw [nextAfter, hstyle]
    have hentry : c.entryOf (i + 1) m = c.entries[i]? := by
      rw [entryOf, hstyle]
      exact if_pos hstyle
    have hrest : c.Answers (c.nextAfter (i + 1)) ms (c.entries.drop (i + 1)) := by
      rw [hnext]
      refine ih ?_
      rw [List.length_cons, List.length_drop] at hms
      rw [List.length_drop]
      omega
    rcases Nat.lt_or_ge i c.entries.length with hlt | hge
    · rw [List.drop_eq_getElem_cons hlt]
      exact .cons (hentry.trans (List.getElem?_eq_getElem hlt)) hrest
    · rw [List.drop_eq_nil_of_le hge]
      rw [List.drop_eq_nil_of_le (Nat.le_succ_of_le hge)] at hrest
      exact .missing (hentry.trans (List.getElem?_eq_none hge)) hrest

/-- The loosened markers of a text have its entries. -/
theorem Keyed.answers_loosened (h : c.Keyed)
    (hmarkers : markersOf ts = c.entries.map fun e => e.key.marker.toList) :
    c.Answers 1 (markersOf (loosened d c.style ts)) c.entries := by
  cases hstyle : c.style with
  | named =>
    have hsplit : c.entries = [] ++ c.entries := rfl
    rw [markersOf_loosened_named, hmarkers]
    exact h.answers hsplit fun _ => rfl
  | positional =>
    have hlength := (markersOf_sublist_loosened d .positional ts).length_le
    rw [hmarkers, List.length_map] at hlength
    exact answers_positional (i := 0) hstyle hlength

/-- Over a text without apostrophes the collector writes the literals of its
entries for the markers of the loosened tokens, as long as no region in value
quotes has the quotes of names or more than one character. -/
theorem Keyed.inline_loosened (h : c.Keyed) (hd : d.QuotesClear) (hapart : d.ValuesApart)
    {sql : String} {tokens : List Token} (htokens : Tokens d c.style [] tokens sql.toList)
    (hmarkers : markersOf tokens = c.entries.map fun e => e.key.marker.toList)
    (hquote : '\'' ∉ sql.toList)
    (hinside : ∀ inside ∈ valuesOf d tokens, inside.length ≤ 1 ∧ d.leftQuote ∉ inside) :
    c.inline sql d = (c.entries.mapM fun e => d.quoteValue e.value).map
      fun literals => String.ofList (filled (loosened d c.style tokens) literals) := by
  rw [inline, Scan.start, inlineFrom_loosened hd hapart htokens hquote hinside
    (h.answers_loosened hmarkers) (by simp)]
  cases c.entries.mapM fun e => d.quoteValue e.value <;> rfl

end Collector

end SqlTree
