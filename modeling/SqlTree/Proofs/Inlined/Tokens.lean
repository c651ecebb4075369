import SqlTree.Proofs.Grouping.Nesting
import SqlTree.Proofs.Positional.Requoting

/-!
# SqlTree.Proofs.Inlined.Tokens

Text with markers, token by token.  A token is a character outside of
quotes, a quoted region or a marker, and `Tokens` relates a text to its
tokens; a colon or a question mark is a marker or stands in a region.
`filled` writes literals for the markers and everything else as it is.

The text of a composed draft has the markers that its values were given
(`Draft.tokens_text`), as long as its raw SQL has no quotes, colons and
question marks: quoting prefixes changes plain characters only
(`Tokens.requoted_from`), so what stands in value quotes stays, too.
-/

namespace SqlTree

/-! ## Tokens -/

/-- A character outside of quotes, a quoted region, or a marker. -/
inductive Token where
  | plain (c : Char)
  | region (opening : Char) (inside : List Char) (closing : Char)
  | marker (m : List Char)

/-- The markers among tokens, in order. -/
def markersOf : List Token → List (List Char)
  | [] => []
  | .marker m :: ts => m :: markersOf ts
  | .plain _ :: ts | .region _ _ _ :: ts => markersOf ts

/-- What stands in value quotes among tokens, in order. -/
def valuesOf (d : Dialect) : List Token → List (List Char)
  | [] => []
  | .region c inside _ :: ts => if c = d.valueQuote then inside :: valuesOf d ts else valuesOf d ts
  | .plain _ :: ts | .marker _ :: ts => valuesOf d ts

/-- The text of tokens with these literals for the markers, in order. -/
def filled : List Token → List String → List Char
  | [], _ => []
  | .plain c :: ts, ls => c :: filled ts ls
  | .region c inside close :: ts, ls => c :: (inside ++ close :: filled ts ls)
  | .marker m :: ts, [] => m ++ filled ts []
  | .marker _ :: ts, l :: ls => l.toList ++ filled ts ls

/-- A marker as the style has it: a question mark, or a colon and a word. -/
def MarkerStyle.Marks : MarkerStyle → List Char → Prop
  | .positional, m => m = ['?']
  | .named, m => ∃ w, isWord w = true ∧ m = ':' :: w

/-- A character that neither opens a region nor starts a marker. -/
structure Dialect.IsPlain (d : Dialect) (c : Char) : Prop where
  closer : d.closer? c = none
  colon : c ≠ ':'
  mark : c ≠ '?'

/-- Names are not quoted as values are. -/
structure Dialect.ValuesApart (d : Dialect) : Prop where
  left : d.leftQuote ≠ d.valueQuote
  right : d.rightQuote ≠ d.valueQuote

/-- The tokens of a text in front of `rest`.  A region ends at the first
character that closes it, and no word goes on behind a marker. -/
inductive Tokens (d : Dialect) (style : MarkerStyle) (rest : List Char) :
    List Token → List Char → Prop where
  | nil : Tokens d style rest [] []
  | plain {c : Char} {ts : List Token} {t : List Char} (hc : d.IsPlain c)
      (h : Tokens d style rest ts t) : Tokens d style rest (.plain c :: ts) (c :: t)
  | region {c close : Char} {inside : List Char} {ts : List Token} {t : List Char}
      (hclose : d.closer? c = some close) (hinside : close ∉ inside)
      (h : Tokens d style rest ts t) :
      Tokens d style rest (.region c inside close :: ts) (c :: (inside ++ close :: t))
  | marker {m : List Char} {ts : List Token} {t : List Char} (hm : style.Marks m)
      (hend : EndsWord (t ++ rest)) (h : Tokens d style rest ts t) :
      Tokens d style rest (.marker m :: ts) (m ++ t)

/-! ## Laws -/

theorem markersOf_append (ts us : List Token) :
    markersOf (ts ++ us) = markersOf ts ++ markersOf us := by
  induction ts with
  | nil => rfl
  | cons t ts ih => cases t <;> simp [markersOf, ih]

@[simp] theorem markersOf_map_plain (cs : List Char) : markersOf (cs.map .plain) = [] := by
  induction cs with
  | nil => rfl
  | cons c cs ih => exact ih

@[simp] theorem valuesOf_map_plain (d : Dialect) (cs : List Char) :
    valuesOf d (cs.map .plain) = [] := by
  induction cs with
  | nil => rfl
  | cons c cs ih => exact ih

theorem valuesOf_append (d : Dialect) (ts us : List Token) :
    valuesOf d (ts ++ us) = valuesOf d ts ++ valuesOf d us := by
  induction ts with
  | nil => rfl
  | cons t ts ih =>
    cases t with
    | plain | marker => exact ih
    | region => simp only [List.cons_append, valuesOf, ih]; split <;> rfl

variable {d : Dialect} {style : MarkerStyle} {rest t u : List Char} {ts us : List Token}

namespace Dialect

theorem QuotesStandOut.isPlain (hd : d.QuotesStandOut) {c : Char} (h : isSyntax c = true)
    (hcolon : c ≠ ':') (hmark : c ≠ '?') : d.IsPlain c :=
  ⟨hd.closer?_of_isSyntax h, hcolon, hmark⟩

theorem QuotesStandOut.isPlain_of_isCodeChar (hd : d.QuotesStandOut) {c : Char}
    (h : isCodeChar c = true) : d.IsPlain c := by
  refine hd.isPlain (isSyntax_of_isCodeChar h) ?_ ?_ <;> rintro rfl <;> exact absurd h (by decide)

/-- Where quotes are no characters of code, and a closing one neither a colon
nor a question mark, nothing can be mistaken for them. -/
theorem QuotesStandOut.quotesClear (hd : d.QuotesStandOut)
    (hright : d.rightQuote ∉ [':', '?']) : d.QuotesClear := by
  have hsyntax {c x : Char} (hc : isSyntax c = false) (hx : isSyntax x = true) : c ≠ x := by
    rintro rfl
    rw [hc] at hx
    cases hx
  have hword {c : Char} (hc : isSyntax c = false) : isWordChar c = false :=
    Bool.eq_false_iff.2 fun h => by
      rw [isSyntax, isCodeChar, h] at hc
      cases hc
  have hrightWord : isWordChar d.rightQuote = false := Bool.eq_false_iff.2 fun h => by
    have hcode := hd.right
    rw [isCodeChar, h] at hcode
    cases hcode
  obtain ⟨hcolon, hmark⟩ : d.rightQuote ≠ ':' ∧ d.rightQuote ≠ '?' := by simpa using hright
  exact ⟨⟨hword hd.value, hword hd.left, hrightWord, hsyntax hd.value (by decide),
    hsyntax hd.left (by decide), hcolon⟩, hsyntax hd.value (by decide),
    hsyntax hd.left (by decide), hmark, hsyntax hd.value (by decide), hsyntax hd.left (by decide)⟩

end Dialect

namespace MarkerStyle.Marks

variable {m m' : List Char}

theorem ne_nil (hm : style.Marks m) : m ≠ [] := by
  cases style with
  | positional =>
    cases hm
    exact List.cons_ne_nil _ _
  | named =>
    obtain ⟨w, -, rfl⟩ := hm
    exact List.cons_ne_nil _ _

/-- No region is opened by the start of a marker. -/
theorem exists_cons (hm : style.Marks m) (hd : d.QuotesClear) :
    ∃ x xs, m = x :: xs ∧ d.closer? x = none := by
  cases style with
  | positional => exact ⟨_, _, hm, Dialect.closer?_eq_none hd.valueMark hd.leftMark⟩
  | named =>
    obtain ⟨w, -, rfl⟩ := hm
    exact ⟨_, _, rfl, Dialect.closer?_eq_none hd.valueColon hd.leftColon⟩

/-- Where a marker ends is told by what comes behind it. -/
theorem append_inj (hm : style.Marks m) (hm' : style.Marks m') (hend : EndsWord (t ++ rest))
    (hend' : EndsWord (u ++ rest)) (h : m ++ t = m' ++ u) : m = m' ∧ t = u := by
  cases style with
  | positional =>
    cases hm
    cases hm'
    exact ⟨rfl, List.append_cancel_left h⟩
  | named =>
    obtain ⟨w, hw, rfl⟩ := hm
    obtain ⟨w', hw', rfl⟩ := hm'
    have htext : w ++ t = w' ++ u := (List.cons.inj h).2
    have hsame : w ++ (t ++ rest) = w' ++ (u ++ rest) := by
      rw [← List.append_assoc, ← List.append_assoc, htext]
    obtain rfl : w = w' := by
      rw [← takeWhile_append_of_head (all_isWordChar_of_isWord hw) hend, hsame,
        takeWhile_append_of_head (all_isWordChar_of_isWord hw') hend']
    exact ⟨rfl, List.append_cancel_left h⟩

end MarkerStyle.Marks

namespace Tokens

theorem append (h : Tokens d style (u ++ rest) ts t) (h' : Tokens d style rest us u) :
    Tokens d style rest (ts ++ us) (t ++ u) := by
  induction h with
  | nil => exact h'
  | plain hc h ih => exact .plain hc ih
  | @region c close inside ts t hclose hinside h ih =>
    rw [List.cons_append, List.cons_append, List.append_assoc, List.cons_append]
    exact .region hclose hinside ih
  | @marker m ts t hm hend h ih =>
    rw [List.append_assoc]
    exact .marker hm (by rwa [List.append_assoc]) ih

/-- The characters of plain text are its tokens. -/
theorem of_plain (h : ∀ c ∈ t, d.IsPlain c) : Tokens d style rest (t.map .plain) t := by
  induction t with
  | nil => exact .nil
  | cons c t ih =>
    obtain ⟨hc, ht⟩ := List.forall_mem_cons.1 h
    exact .plain hc (ih ht)

/-- Quoted names have no markers. -/
theorem of_quoting (hd : d.QuotesStandOut) (h : Quoting d t) (hmark : '?' ∉ t) :
    ∃ ts, Tokens d style rest ts t ∧ markersOf ts = [] := by
  induction h generalizing rest with
  | @sign c hc =>
    have hplain : d.IsPlain c := by
      refine hd.isPlain (isSyntax_of_isSign hc) ?_ (Ne.symm (by simpa using hmark))
      rintro rfl
      exact absurd hc (by decide)
    exact ⟨_, .plain hplain .nil, rfl⟩
  | @region c close cs hclose hcs =>
    exact ⟨_, .region hclose hcs .nil, rfl⟩
  | append _ _ ih ih' =>
    obtain ⟨hfirst, hsecond⟩ := not_or.1 (mt List.mem_append.2 hmark)
    obtain ⟨ts, hts, hnone⟩ := ih hfirst
    obtain ⟨us, hus, hnone'⟩ := ih' hsecond
    exact ⟨ts ++ us, hts.append hus, by rw [markersOf_append, hnone, hnone', List.nil_append]⟩

/-- Nothing stands in value quotes where there are none. -/
theorem valuesOf_eq_nil (h : Tokens d style rest ts t) (hvalue : d.valueQuote ∉ t) :
    valuesOf d ts = [] := by
  induction h with
  | nil => rfl
  | plain _ _ ih => exact ih fun hmem => hvalue (.tail _ hmem)
  | marker _ _ _ ih => exact ih fun hmem => hvalue (List.mem_append_right _ hmem)
  | @region c close inside ts t _ _ _ ih =>
    obtain ⟨hopen, hrest⟩ := not_or.1 (mt List.mem_cons.2 hvalue)
    rw [valuesOf, if_neg (Ne.symm hopen)]
    exact ih fun hmem => hrest (List.mem_append_right _ (.tail _ hmem))

/-- A plain character at the start of a text is a token. -/
theorem cons_plain {c : Char} (h : Tokens d style rest ts (c :: t)) (hc : d.IsPlain c) :
    ∃ us, ts = .plain c :: us ∧ Tokens d style rest us t := by
  generalize htext : c :: t = text at h
  cases h with
  | nil => cases htext
  | plain _ h =>
    cases htext
    exact ⟨_, rfl, h⟩
  | region hclose =>
    cases htext
    rw [hc.closer] at hclose
    cases hclose
  | @marker m ts t' hm =>
    cases style with
    | positional =>
      cases hm
      exact absurd (List.cons.inj htext).1 hc.mark
    | named =>
      obtain ⟨w, -, rfl⟩ := hm
      exact absurd (List.cons.inj htext).1 hc.colon

/-- So is every character of plain text. -/
theorem split_plain (h : Tokens d style rest ts (t ++ u)) (ht : ∀ c ∈ t, d.IsPlain c) :
    ∃ us, Tokens d style rest us u ∧ markersOf us = markersOf ts ∧
      valuesOf d us = valuesOf d ts := by
  induction t generalizing ts with
  | nil => exact ⟨ts, h, rfl, rfl⟩
  | cons c t ih =>
    obtain ⟨hc, ht⟩ := List.forall_mem_cons.1 ht
    obtain ⟨us, rfl, hus⟩ := h.cons_plain hc
    obtain ⟨vs, hvs, hmarkers, hvalues⟩ := ih hus ht
    exact ⟨vs, hvs, hmarkers, hvalues⟩

/-- So is a region at the start of a text. -/
theorem cons_region (hd : d.QuotesClear) {c close : Char} {inside : List Char}
    (h : Tokens d style rest ts (c :: (inside ++ close :: t))) (hclose : d.closer? c = some close)
    (hinside : close ∉ inside) :
    ∃ us, ts = .region c inside close :: us ∧ Tokens d style rest us t := by
  generalize htext : c :: (inside ++ close :: t) = text at h
  cases h with
  | nil => cases htext
  | plain hc =>
    cases htext
    rw [hc.closer] at hclose
    cases hclose
  | @region _ _ _ _ _ hclose' hinside' h =>
    obtain ⟨rfl, hrest⟩ := List.cons.inj htext
    obtain rfl := Option.some.inj (hclose.symm.trans hclose')
    obtain ⟨rfl, rfl⟩ := append_cons_inj_of_not_mem hinside hinside' hrest
    exact ⟨_, rfl, h⟩
  | marker hm =>
    obtain ⟨x, xs, rfl, hnone⟩ := hm.exists_cons hd
    obtain ⟨rfl, -⟩ := List.cons.inj htext
    rw [hnone] at hclose
    cases hclose

/-- And so is a marker. -/
theorem append_marker (hd : d.QuotesClear) {m : List Char} (h : Tokens d style rest ts (m ++ t))
    (hm : style.Marks m) (hend : EndsWord (t ++ rest)) :
    ∃ us, ts = .marker m :: us ∧ Tokens d style rest us t := by
  generalize htext : m ++ t = text at h
  cases h with
  | nil => exact absurd (List.append_eq_nil_iff.1 htext).1 hm.ne_nil
  | plain hc h =>
    cases style with
    | positional =>
      cases hm
      exact absurd (List.cons.inj htext).1.symm hc.mark
    | named =>
      obtain ⟨w, -, rfl⟩ := hm
      exact absurd (List.cons.inj htext).1.symm hc.colon
  | region hclose =>
    obtain ⟨x, xs, rfl, hnone⟩ := hm.exists_cons hd
    obtain ⟨rfl, -⟩ := List.cons.inj htext
    rw [hnone] at hclose
    cases hclose
  | marker hm' hend' h =>
    obtain ⟨rfl, rfl⟩ := hm.append_inj hm' hend hend' htext
    exact ⟨_, rfl, h⟩

/-- A text has one reading only. -/
theorem unique (hd : d.QuotesClear) (h : Tokens d style rest ts t)
    (h' : Tokens d style rest us t) : us = ts := by
  induction h generalizing us with
  | nil =>
    generalize htext : [] = text at h'
    cases h' with
    | nil => rfl
    | plain => cases htext
    | region => cases htext
    | marker hm => exact absurd (List.append_eq_nil_iff.1 htext.symm).1 hm.ne_nil
  | plain hc h ih =>
    obtain ⟨vs, rfl, hvs⟩ := h'.cons_plain hc
    rw [ih hvs]
  | region hclose hinside h ih =>
    obtain ⟨vs, rfl, hvs⟩ := h'.cons_region hd hclose hinside
    rw [ih hvs]
  | marker hm hend h ih =>
    obtain ⟨vs, rfl, hvs⟩ := h'.append_marker hd hm hend
    rw [ih hvs]

/-- Filling in the markers changes the length of a text by theirs and that of
the literals. -/
theorem length_filled (h : Tokens d style rest ts t) {literals : List String}
    (hlength : literals.length = (markersOf ts).length) :
    (filled ts literals).length + (markersOf ts).flatten.length =
      t.length + (literals.map String.toList).flatten.length := by
  induction h generalizing literals with
  | nil =>
    obtain rfl := List.eq_nil_of_length_eq_zero hlength
    rfl
  | plain hc h ih =>
    have := ih hlength
    simp only [filled, markersOf, List.length_cons] at this ⊢
    omega
  | region hclose hinside h ih =>
    have := ih hlength
    simp only [filled, markersOf, List.length_cons, List.length_append] at this ⊢
    omega
  | marker hm hend h ih =>
    cases literals with
    | nil => cases hlength
    | cons l ls =>
      have := ih (Nat.succ.inj hlength)
      simp only [filled, markersOf, List.length_append, List.map_cons, List.flatten_cons]
        at this ⊢
      omega

end Tokens

/-! ## Quoting prefixes -/

namespace MarkerStyle.Marks

variable {m : List Char}

/-- The pass copies a marker wherever it stands outside of quotes. -/
theorem quotePrefixesFrom_eq (hm : style.Marks m) (hd : d.QuotesClear) {names : List (List Char)}
    (hnames : ∀ name ∈ names, isName (String.ofList name) = true) (previous : Option Char)
    (t : List Char) : ∃ last, d.quotePrefixesFrom names (.outside previous) (m ++ t) =
      m ++ d.quotePrefixesFrom names (.outside (some last)) t := by
  cases style with
  | positional =>
    cases hm
    exact ⟨'?', Dialect.quotePrefixesFrom_mark hd hnames previous⟩
  | named =>
    obtain ⟨w, hw, rfl⟩ := hm
    obtain ⟨last, -, heq⟩ :=
      Dialect.quotePrefixesFrom_marker (t := t) hd.toQuotesApart hnames hw previous
    exact ⟨last, heq⟩

end MarkerStyle.Marks

theorem mark_not_mem_quoteIdentifier (hd : d.QuotesClear) {name : String}
    (h : '?' ∉ name.toList) : '?' ∉ (d.quoteIdentifier name).toList := by
  intro hmem
  obtain hdot | hleft | hright | hname := Dialect.mem_quoteIdentifier hmem
  · cases hdot
  · exact hd.leftMark hleft.symm
  · exact hd.rightMark hright.symm
  · exact h hname

/-- A quoted name has no value quotes. -/
theorem Dialect.ValuesApart.not_mem_quoteIdentifier (h : d.ValuesApart) (hout : d.QuotesStandOut)
    {name : String} (hname : isCode name = true) :
    d.valueQuote ∉ (d.quoteIdentifier name).toList := by
  have hcode {c : Char} (hc : isCodeChar c = true) : d.valueQuote ≠ c := by
    rintro rfl
    have hvalue := hout.value
    rw [isSyntax_of_isCodeChar hc] at hvalue
    cases hvalue
  intro hmem
  obtain hdot | hleft | hright | hmem := Dialect.mem_quoteIdentifier hmem
  · exact hcode (by decide) hdot
  · exact h.left hleft.symm
  · exact h.right hright.symm
  · exact hcode (List.all_eq_true.1 hname _ hmem) rfl

namespace Tokens

/-- Quoted code has neither markers nor value quotes. -/
theorem of_quoteIdentifier (hd : d.QuotesClear) (hout : d.QuotesStandOut) {name : String}
    (h : isCode name = true) :
    ∃ ts, Tokens d style rest ts (d.quoteIdentifier name).toList ∧ markersOf ts = [] ∧
      (d.ValuesApart → valuesOf d ts = []) := by
  have hmark : '?' ∉ name.toList := fun hmem =>
    absurd (List.all_eq_true.1 h '?' hmem) (by decide)
  obtain ⟨ts, hts, hnone⟩ := of_quoting hout (.quoteIdentifier hout h)
    (mark_not_mem_quoteIdentifier hd hmark)
  exact ⟨ts, hts, hnone, fun hapart =>
    hts.valuesOf_eq_nil (hapart.not_mem_quoteIdentifier hout h)⟩

/-- Behind a name and its dot the tokens are the rest of them. -/
theorem behind_name (hout : d.QuotesStandOut) {name : List Char}
    (hname : isCode (String.ofList name) = true)
    (h : Tokens d style rest ts (name ++ '.' :: t)) :
    ∃ us, Tokens d style rest us t ∧ markersOf us = markersOf ts ∧
      valuesOf d us = valuesOf d ts := by
  rw [List.append_cons] at h
  refine h.split_plain (List.forall_mem_append.2 ⟨fun x hx => ?_, fun x hx => ?_⟩)
  · have hx' : x ∈ (String.ofList name).toList := by rwa [String.toList_ofList]
    exact hout.isPlain_of_isCodeChar (List.all_eq_true.1 hname x hx')
  · rw [List.mem_singleton.1 hx]
    exact hout.isPlain_of_isCodeChar (by decide)

/-- Quoting the prefixes of a text leaves its markers where they are, and so
it does what stands in value quotes. -/
theorem requoted_from (hd : d.QuotesClear) (hout : d.QuotesStandOut) {names : List (List Char)}
    (hnames : ∀ name ∈ names, isName (String.ofList name) = true) (previous : Option Char)
    (h : Tokens d style rest ts t) :
    ∃ us, Tokens d style rest us (d.quotePrefixesFrom names (.outside previous) t) ∧
      markersOf us = markersOf ts ∧ (d.ValuesApart → valuesOf d us = valuesOf d ts) := by
  -- a name is several characters at once, so the induction is on the length
  induction hn : t.length using Nat.strongRecOn generalizing ts t previous with
  | ind n ih =>
    subst hn
    cases h with
    | nil =>
      refine ⟨[], ?_, rfl, fun _ => rfl⟩
      rw [Dialect.quotePrefixesFrom]
      exact .nil
    | @plain c ts t hc h =>
      obtain ⟨close, hclose⟩ | ⟨hclose, hprevious, name, tail, hmem, hname, htext⟩ |
          ⟨hclose, hname⟩ :=
        d.outside_cases names previous c t
      · rw [hc.closer] at hclose
        cases hclose
      · have hcode := isCode_of_isName (hnames name hmem)
        have hall : Tokens d style rest (.plain c :: ts) (name ++ '.' :: tail) := by
          rw [← htext]
          exact .plain hc h
        obtain ⟨vs, hvs, hsame, hvalues⟩ := hall.behind_name hout hcode
        have hlength : tail.length < (c :: t).length := by
          rw [htext, List.length_append, List.length_cons]
          omega
        obtain ⟨us, hus, hmarkers, hvalues'⟩ := ih _ hlength (some '.') hvs rfl
        obtain ⟨qs, hqs, hnone, hapart⟩ := of_quoteIdentifier hd hout hcode
        have hdot : d.IsPlain '.' := hout.isPlain_of_isCodeChar (by decide)
        rw [Dialect.quotePrefixesFrom_name hclose hprevious hname htext]
        refine ⟨_, hqs.append (.plain hdot hus), ?_, fun hvalue => ?_⟩
        · rw [markersOf_append, hnone, List.nil_append, markersOf, hmarkers, hsame]
        · rw [valuesOf_append, hapart hvalue, List.nil_append, valuesOf, hvalues' hvalue, hvalues]
      · obtain ⟨us, hus, hmarkers, hvalues⟩ := ih _ (Nat.lt_succ_self t.length) (some c) h rfl
        rw [Dialect.quotePrefixesFrom_plain hclose hname]
        exact ⟨_, .plain hc hus, hmarkers, hvalues⟩
    | @region c close inside ts t hclose hinside h =>
      have hlength : t.length < (c :: (inside ++ close :: t)).length := by simp; omega
      obtain ⟨us, hus, hmarkers, hvalues⟩ := ih _ hlength (some close) h rfl
      have hcopied : d.quotePrefixesFrom names (.outside previous) (c :: (inside ++ close :: t)) =
          c :: (inside ++ close :: d.quotePrefixesFrom names (.outside (some close)) t) := by
        rw [Dialect.quotePrefixesFrom_opened hclose, Dialect.quotePrefixesFrom_inside _ hinside,
          Dialect.quotePrefixesFrom, Scan.advanceInside, if_pos rfl]
      rw [hcopied]
      refine ⟨_, .region hclose hinside hus, hmarkers, fun hapart => ?_⟩
      rw [valuesOf, valuesOf, hvalues hapart]
    | @marker m ts t hm hend h =>
      have hends (previous : Option Char) :
          EndsWord (d.quotePrefixesFrom names (.outside previous) t ++ rest) :=
        ((d.requoted_from names t).2 previous).head?_any hd.toQuotesApart (fun _ hc => hc) hend
      have hlength : t.length < (m ++ t).length := by
        have hpos := List.length_pos_of_ne_nil hm.ne_nil
        rw [List.length_append]
        omega
      obtain ⟨last, heq⟩ := hm.quotePrefixesFrom_eq hd hnames previous t
      obtain ⟨us, hus, hmarkers, hvalues⟩ := ih _ hlength (some last) h rfl
      rw [heq]
      exact ⟨_, .marker hm (hends (some last)) hus, congrArg (m :: ·) hmarkers, hvalues⟩

/-- So does quoting all of them. -/
theorem requoted (hd : d.QuotesClear) (hout : d.QuotesStandOut) {names : List String}
    (hnames : ∀ name ∈ names, isName name = true) {sql : String}
    (h : Tokens d style rest ts sql.toList) :
    ∃ us, Tokens d style rest us (d.quotePrefixes names sql).toList ∧
      markersOf us = markersOf ts ∧ (d.ValuesApart → valuesOf d us = valuesOf d ts) := by
  have hall : ∀ name ∈ names.map String.toList, isName (String.ofList name) = true := by
    intro name hname
    obtain ⟨s, hs, rfl⟩ := List.mem_map.1 hname
    rw [String.ofList_toList]
    exact hnames s hs
  simp only [Dialect.quotePrefixes, String.toList_ofList]
  exact h.requoted_from hd hout hall none

end Tokens

/-! ## Drafts -/

namespace Draft

variable {p : Draft}

/-- A marker has the form of its style. -/
theorem marks_record (c : Collector) (b : Binding) :
    c.style.Marks (c.record b.value b.type b.hint).1.toList := by
  cases hc : c.style with
  | named =>
    obtain ⟨w, hw, hmarker⟩ := Collector.exists_word_record hc b
    exact ⟨w, hw, hmarker⟩
  | positional =>
    have hmark : (c.record b.value b.type b.hint).1 = "?" := by rw [Collector.record, hc]
    rw [hmark]
    rfl

theorem tokens_quoteAlias (hout : d.QuotesStandOut) {name : String} (h : isCode name = true) :
    ∃ ts, Tokens d style rest ts (d.quoteAlias name).toList ∧ markersOf ts = [] ∧
      (d.ValuesApart → valuesOf d ts = []) := by
  rw [Dialect.toList_quoteAlias, withQuotes_eq (hout.isQuoted_eq_false h), quoteSegment,
    List.cons_append]
  have hinside : d.rightQuote ∉ double d.rightQuote name.toList :=
    fun hmem => hout.right_not_mem h (mem_double_iff.1 hmem)
  exact ⟨_, .region hout.closer?_left hinside .nil, rfl, fun hapart => if_neg hapart.left⟩

theorem tokens_charLiteral (ch : Char) :
    ∃ ts, Tokens d style rest ts (charLiteral d.valueQuote ch).toList ∧ markersOf ts = [] ∧
      ∀ inside ∈ valuesOf d ts, inside.length ≤ 1 := by
  have hopen := Dialect.QuotesStandOut.closer?_value (d := d)
  rw [charLiteral, String.toList_ofList]
  split
  · next hch =>
    subst hch
    have hnone : d.valueQuote ∉ [] := List.not_mem_nil
    exact ⟨_, .region hopen hnone (.region hopen hnone .nil), rfl, by simp [valuesOf]⟩
  · next hch =>
    have hsingle : d.valueQuote ∉ [ch] := by simpa using Ne.symm hch
    exact ⟨_, .region hopen hsingle .nil, rfl, by simp [valuesOf]⟩

/-- The text of a composed draft has the markers that its values get, if its
raw SQL is plain, and in value quotes it has single characters at most.  What
comes after the text must not continue a marker at its end. -/
theorem tokens_text (hd : d.QuotesClear) (hout : d.QuotesStandOut)
    (h : p.Composed fun s => ∀ ch ∈ s.toList, d.IsPlain ch) (c : Collector)
    (hrest : p.dangles = true → EndsWord rest) :
    ∃ ts, Tokens d c.style rest ts (p.text d c).toList ∧
      markersOf ts = (c.markersFor p.bindings).map String.toList ∧
      (d.ValuesApart → ∀ inside ∈ valuesOf d ts, inside.length ≤ 1) := by
  induction h generalizing c rest with
  | code hs =>
    have hplain := fun ch hch => hout.isPlain_of_isCodeChar (List.all_eq_true.1 hs ch hch)
    exact ⟨_, .of_plain hplain, markersOf_map_plain _, fun _ => by simp⟩
  | raw hs => exact ⟨_, .of_plain hs, markersOf_map_plain _, fun _ => by simp⟩
  | identifier i =>
    obtain ⟨ts, hts, hnone, hvalues⟩ := Tokens.of_quoteIdentifier hd hout i.isCode_text
    exact ⟨ts, hts, hnone, fun hapart => by simp [hvalues hapart]⟩
  | label a =>
    obtain ⟨ts, hts, hnone, hvalues⟩ := tokens_quoteAlias hout a.isCode_text
    exact ⟨ts, hts, hnone, fun hapart => by simp [hvalues hapart]⟩
  | quotedChar ch =>
    obtain ⟨ts, hts, hnone, hsingle⟩ := tokens_charLiteral ch
    exact ⟨ts, hts, hnone, fun _ => hsingle⟩
  | value b =>
    have hmarker : Tokens d c.style rest [.marker (c.record b.value b.type b.hint).1.toList]
        ((c.record b.value b.type b.hint).1.toList ++ []) :=
      .marker (marks_record c b) (hrest rfl) .nil
    rw [List.append_nil] at hmarker
    exact ⟨_, hmarker, rfl, fun _ => by simp [valuesOf]⟩
  | @append p q _ _ seam ihp ihq =>
    have hnext : p.dangles = true → EndsWord ((q.text d (p.after c)).toList ++ rest) :=
      endsWord_seam hd.toQuotesApart seam hrest _
    have hlast : q.dangles = true → EndsWord rest := by
      intro hq
      exact hrest (by rw [dangles_append, hq, Bool.true_or])
    obtain ⟨ts, hts, hmarkers, hsingle⟩ := ihp c hnext
    obtain ⟨us, hus, hmarkers', hsingle'⟩ := ihq (p.after c) hlast
    rw [style_after] at hus
    rw [text_append, String.toList_append, bindings_append, Collector.markersFor_append,
      List.map_append]
    refine ⟨ts ++ us, hts.append hus, by rw [markersOf_append, hmarkers, hmarkers']; rfl,
      fun hapart => ?_⟩
    rw [valuesOf_append]
    exact List.forall_mem_append.2 ⟨hsingle hapart, hsingle' hapart⟩
  | @enclosed p _ ih =>
    have htext : ((enclosed p).text d c).toList = '(' :: ((p.text d c).toList ++ [')']) := by
      simp [SqlTree.enclosed]
    have hplain {ch : Char} (h : isSyntax ch = true ∧ ch ≠ ':' ∧ ch ≠ '?') : d.IsPlain ch :=
      hout.isPlain h.1 h.2.1 h.2.2
    have hparen : EndsWord (')' :: rest) := show isWordChar ')' = false by decide
    obtain ⟨ts, hts, hmarkers, hsingle⟩ := ih c fun _ => hparen
    have hclose : Tokens d c.style rest [.plain ')'] [')'] := .plain (hplain (by decide)) .nil
    rw [htext, bindings_enclosed]
    refine ⟨.plain '(' :: (ts ++ [.plain ')']), .plain (hplain (by decide)) (hts.append hclose), ?_,
      fun hapart => ?_⟩
    · rw [markersOf, markersOf_append, hmarkers]
      exact List.append_nil _
    · simpa [valuesOf, valuesOf_append] using hsingle hapart
  | @requoted names p hnames _ ih =>
    obtain ⟨ts, hts, hmarkers, hsingle⟩ := ih c hrest
    obtain ⟨us, hus, hsame, hvalues⟩ := hts.requoted hd hout hnames
    rw [text_requoted]
    exact ⟨us, hus, hsame.trans hmarkers, fun hapart => hvalues hapart ▸ hsingle hapart⟩

end Draft

end SqlTree
