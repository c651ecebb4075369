import SqlTree.Proofs.Caching.Unkept
import SqlTree.Proofs.ValueQuotes.Loosened

/-!
# SqlTree.Proofs.ValueQuotes.Node

Conditions with their values written in, in a dialect that quotes values by any
character.  What a condition compiles to has single characters between value
quotes, the escapes of its patterns, and quoting prefixes keeps them.  Writing
the values in keeps them for all conditions just if the value quote is the
apostrophe (`Dialect.honours_valueQuote_iff`).
-/

namespace SqlTree

/-! ## What is written and what becomes of it -/

/-- With the values of the collector written into the text, each marker is
replaced by the literal of its entry, and all the rest, regions in quotes
included, is as it was. -/
def Collector.InlinesMarkers (c : Collector) (d : Dialect) (sql : String) : Prop :=
  ∃ tokens, Tokens d c.style [] tokens sql.toList ∧
    markersOf tokens = c.entries.map (fun e => e.key.marker.toList) ∧
    c.inline sql d = (c.entries.mapM fun e => d.quoteValue e.value).map
      fun literals => String.ofList (filled tokens literals)

/-- A condition without raw SQL, compiled afresh, gives this text, and the
values of the text go to this collector. -/
structure Dialect.WritesCondition (d : Dialect) {k : Kind} (n : Node k) (sql : String)
    (c : Collector) : Prop where
  condition : k.isCondition = true
  noRaws : Node.raws k n = []
  compiles : answer (Node.compileInto d k (Node.fresh k n) (.empty c.style)) = .ok sql ∧
    (left (Node.compileInto d k (Node.fresh k n) (.empty c.style))).2 = c

namespace Dialect

variable {d : Dialect} {k : Kind} {n : Node k} {sql : String} {c : Collector}

/-! ## Quotes -/

/-- The usual quotes are none of the other characters. -/
theorem HasUsualQuotes.ne (hquotes : d.HasUsualQuotes) {x : Char}
    (hx : x ∉ ['"', '\x60', '[', ']']) : d.leftQuote ≠ x ∧ d.rightQuote ≠ x := by
  simp only [HasUsualQuotes, List.mem_cons, Prod.mk.injEq, List.not_mem_nil, or_false] at hquotes
  rcases hquotes with ⟨hleft, hright⟩ | ⟨hleft, hright⟩ | ⟨hleft, hright⟩ <;>
    rw [hleft, hright] <;> constructor <;> rintro rfl <;> exact hx (by decide)

/-- The usual quotes can be told from all around them, and so can the quotes of
values if they are no characters that SQL is made of. -/
theorem HasUsualQuotes.quotesStandOut (hquotes : d.HasUsualQuotes) (hapart : d.ValuesApart)
    (hvalue : isSyntax d.valueQuote = false) : d.QuotesStandOut := by
  have hshared : d.leftQuote = d.valueQuote → d.rightQuote = d.valueQuote :=
    fun h => absurd h hapart.left
  simp only [HasUsualQuotes, List.mem_cons, Prod.mk.injEq, List.not_mem_nil, or_false] at hquotes
  rcases hquotes with ⟨hleft, hright⟩ | ⟨hleft, hright⟩ | ⟨hleft, hright⟩ <;>
    exact ⟨hvalue, by rw [hleft]; decide, by rw [hright]; decide, hshared⟩

theorem HasUsualQuotes.quotesClear (hquotes : d.HasUsualQuotes) (hout : d.QuotesStandOut) :
    d.QuotesClear := by
  have hcolon := (hquotes.ne (x := ':') (by decide)).2
  have hmark := (hquotes.ne (x := '?') (by decide)).2
  exact hout.quotesClear (by simpa using And.intro hcolon hmark)

/-! ## The tokens of a condition -/

/-- What is written is the draft of the condition. -/
theorem WritesCondition.exists_draft (h : d.WritesCondition n sql c) :
    ∃ p, Node.draft d.constructs k n = .ok p ∧ p.text d (.empty c.style) = sql ∧
      p.after (.empty c.style) = c :=
  (Node.compileInto_fresh_iff h.condition).1 h.compiles

/-- The text has the markers of the values, in order. -/
theorem WritesCondition.exists_tokens (h : d.WritesCondition n sql c) (hclear : d.QuotesClear)
    (hout : d.QuotesStandOut) (hplain : d.constructs.Plain) :
    c.Keyed ∧ ∃ tokens, Tokens d c.style [] tokens sql.toList ∧
      markersOf tokens = c.entries.map (fun e => e.key.marker.toList) ∧
      (d.ValuesApart → ∀ inside ∈ valuesOf d tokens, inside.length ≤ 1) := by
  obtain ⟨p, hp, htext, hafter⟩ := h.exists_draft
  have hraws : ∀ raw ∈ Node.raws k n, raw.Allows fun s => ∀ ch ∈ s.toList, d.IsPlain ch := by
    rw [h.noRaws]
    exact fun _ hraw => nomatch hraw
  have hcomposed := Node.draft_composed hplain hraws p hp
  have hkeyed := p.keyed_after c.style
  obtain ⟨tokens, htokens, hmarkers, hsingle⟩ := Draft.tokens_after hclear hout hcomposed c.style
  rw [hafter] at hkeyed hmarkers
  exact ⟨hkeyed, tokens, htext ▸ htokens, hmarkers, hsingle⟩

/-! ## Values in other quotes -/

/-- With apostrophes for value quotes the values are written as they should. -/
theorem WritesCondition.inlinesMarkers (h : d.WritesCondition n sql c) (hclear : d.QuotesClear)
    (hout : d.QuotesStandOut) (hplain : d.constructs.Plain) (hvalue : d.valueQuote = '\'') :
    c.InlinesMarkers d sql := by
  obtain ⟨hkeyed, tokens, htokens, hmarkers, -⟩ := h.exists_tokens hclear hout hplain
  exact ⟨tokens, htokens, hmarkers, hkeyed.inline_eq hclear hvalue htokens hmarkers⟩

end Dialect

/-! ## An apostrophe for an escape -/

theorem isIdentifierText_a : isIdentifierText "a" = true := rfl

theorem isIdentifierText_b : isIdentifierText "b" = true := rfl

theorem isIdentifierText_c : isIdentifierText "c" = true := rfl

/-- The columns of the conditions below. -/
def columnA : Identifier := ⟨"a", isIdentifierText_a⟩

def columnB : Identifier := ⟨"b", isIdentifierText_b⟩

def columnC : Identifier := ⟨"c", isIdentifierText_c⟩

namespace Collector

variable {d : Dialect} {c : Collector} {next : Nat} {previous : Option Char} {t : List Char}

/-- Text without markers is copied. -/
theorem inlineFrom_unmarked (hvalue : d.valueQuote = '\'') {style : MarkerStyle} {rest : List Char}
    {ts : List Token} (h : Tokens d style rest ts t) (hnone : markersOf ts = []) (next : Nat)
    (previous : Option Char) :
    ∃ last, c.inlineFrom d next (.outside previous) (t ++ rest) =
      (c.inlineFrom d next (.outside last) rest).map (t ++ ·) := by
  induction h generalizing previous with
  | nil =>
    refine ⟨previous, ?_⟩
    rw [List.nil_append]
    cases c.inlineFrom d next (.outside previous) rest <;> rfl
  | @plain x ts t hx h ih =>
    obtain ⟨last, hlast⟩ := ih hnone (some x)
    refine ⟨last, ?_⟩
    rw [List.cons_append, inlineFrom_plain hvalue hx, hlast]
    cases c.inlineFrom d next (.outside last) rest <;> rfl
  | @region x close inside ts t hclose hinside h ih =>
    obtain ⟨last, hlast⟩ := ih hnone (some close)
    refine ⟨last, ?_⟩
    rw [List.cons_append, List.append_assoc, List.cons_append,
      inlineFrom_region hvalue hclose hinside, hlast]
    cases c.inlineFrom d next (.outside last) rest <;> simp [Except.map]
  | marker => cases hnone

/-- A region that does not end is copied. -/
theorem inlineFrom_unclosed {close : Char} (h : close ∉ t) :
    c.inlineFrom d next (.inside close) t = .ok t := by
  induction t with
  | nil => rw [inlineFrom]
  | cons x t ih =>
    obtain ⟨hx, ht⟩ := not_or.1 (mt List.mem_cons.2 h)
    rw [inlineFrom, Scan.advanceInside, if_neg (Ne.symm hx), ih ht]
    rfl

/-- Nothing is replaced behind a single apostrophe. -/
theorem inlineFrom_apostrophe (h : '\'' ∉ t) :
    c.inlineFrom d next (.outside previous) ('\'' :: t) = .ok ('\'' :: t) := by
  rw [inlineFrom.eq_def]
  simp only [closer?, if_true, inlineFrom_unclosed h]
  rfl

end Collector

/-- `a LIKE c ESCAPE '` and `b = 10`. -/
def apostropheEscape : Group :=
  ((Group.empty .and).push
    (.like (.identifier columnA) false (.identifier columnC) (some '\''))).push
      (.comparison (.identifier columnB) .eq (.value (.int 10)))

namespace apostropheEscape

variable {d : Dialect}

/-- The text in front of the escape. -/
def before : Draft :=
  .identifier columnA ++ (.code " LIKE " ++ (.identifier columnC ++ .code " ESCAPE "))

/-- The text behind it. -/
def behind : Draft :=
  .code " AND " ++ (.identifier columnB ++
    (.code " = " ++ .value ⟨.int 10, (Value.int 10).bindType, "eq"⟩))

theorem exists_draft (d : Dialect) (style : MarkerStyle) :
    ∃ p, Node.draft d.constructs .group apostropheEscape = .ok p ∧
      p.bindings = behind.bindings ∧ p.text d (.empty style) = before.text d (.empty style) ++
        (charLiteral d.valueQuote '\'' ++ behind.text d (.empty style)) := by
  let escaped : Draft := .identifier columnA ++ (.code " LIKE " ++
    (.identifier columnC ++ (.code " ESCAPE " ++ .quotedChar '\'')))
  let compared : Draft := .identifier columnB ++
    (.code " = " ++ .value ⟨.int 10, (Value.int 10).bindType, "eq"⟩)
  refine ⟨escaped ++ (.code " AND " ++ (compared ++ .code "")), rfl, rfl, ?_⟩
  simp [escaped, compared, before, behind, String.append_assoc]

variable {style : MarkerStyle}

theorem tokens_before (hquotes : d.HasUsualQuotes) (style : MarkerStyle) (rest : List Char) :
    ∃ ts, Tokens d.asRead style rest ts (before.text d (.empty style)).toList ∧
      markersOf ts = [] := by
  have hread : d.asRead.HasUsualQuotes := hquotes
  have hapart : d.asRead.ValuesApart :=
    have hne := hquotes.ne (x := '\'') (by decide)
    ⟨hne.1, hne.2⟩
  have hout := hread.quotesStandOut hapart (show isSyntax '\'' = false by decide)
  have hcomposed : before.Composed fun s => ∀ ch ∈ s.toList, d.asRead.IsPlain ch :=
    .append (.identifier _) (.after_code (by decide)
      (.append (.identifier _) (.code (by decide)) (.inl rfl))) (.inl rfl)
  have hrest : before.dangles = true → EndsWord rest := fun hdangles => absurd hdangles (by decide)
  obtain ⟨ts, hts, hnone, -⟩ :=
    Draft.tokens_text (hread.quotesClear hout) hout hcomposed (.empty style) hrest
  exact ⟨ts, hts, hnone⟩

theorem not_mem_behind (hquotes : d.HasUsualQuotes) :
    '\'' ∉ (behind.text d (.empty style)).toList := by
  have hname : '\'' ∉ (d.quoteIdentifier "b").toList := by
    intro hmem
    have hne := hquotes.ne (x := '\'') (by decide)
    obtain hdot | hleft | hright | hmem := Dialect.mem_quoteIdentifier hmem
    · cases hdot
    · exact hne.1 hleft.symm
    · exact hne.2 hright.symm
    · exact absurd hmem (by decide)
  have hmarker : '\'' ∉ ((Collector.empty style).record (.int 10) (Value.int 10).bindType
      "eq").1.toList := by
    cases style <;> decide
  have htext : behind.text d (.empty style) = " AND " ++ (d.quoteIdentifier "b" ++ (" = " ++
      ((Collector.empty style).record (.int 10) (Value.int 10).bindType "eq").1)) := rfl
  have hjoin : '\'' ∉ " AND ".toList ∧ '\'' ∉ " = ".toList := by decide
  rw [htext]
  simp only [String.toList_append, List.mem_append, not_or]
  exact ⟨hjoin.1, hname, hjoin.2, hmarker⟩

/-- The reader goes on to the end in the quotes that the apostrophe opens. -/
theorem inline_eq (hquotes : d.HasUsualQuotes) (hapart : d.ValuesApart)
    (hvalue : d.valueQuote ≠ '\'') (hmark : style = .positional → d.valueQuote ≠ '?')
    {c : Collector} (hstyle : c.style = style) {sql : String}
    (hsql : sql = before.text d (.empty style) ++
      (charLiteral d.valueQuote '\'' ++ behind.text d (.empty style))) :
    c.inline sql d = .ok sql := by
  have hliteral : (charLiteral d.valueQuote '\'').toList =
      [d.valueQuote, '\'', d.valueQuote] := by
    rw [charLiteral, if_neg (Ne.symm hvalue), String.toList_ofList]
  have hbehind : '\'' ∉ d.valueQuote :: (behind.text d (.empty style)).toList :=
    List.not_mem_cons_of_ne_of_not_mem (Ne.symm hvalue) (not_mem_behind hquotes)
  have htext : sql.toList = (before.text d (.empty style)).toList ++
      d.valueQuote :: '\'' :: d.valueQuote :: (behind.text d (.empty style)).toList := by
    rw [hsql, String.toList_append, String.toList_append, hliteral]
    rfl
  obtain ⟨ts, hts, hnone⟩ := tokens_before hquotes style
    (d.valueQuote :: '\'' :: d.valueQuote :: (behind.text d (.empty style)).toList)
  obtain ⟨last, hlast⟩ := Collector.inlineFrom_unmarked (c := c) rfl hts hnone 1 none
  rw [Collector.inlineFrom_asRead, Collector.inlineFrom_asRead,
    Collector.inlineFrom_copied (Collector.closer?_eq_none hvalue hapart.left.symm)
      (fun h => hmark (hstyle ▸ h))
      (fun _ _ => Collector.markerTail?_eq_none (by decide)),
    Collector.inlineFrom_apostrophe hbehind] at hlast
  have hcopied : c.inlineFrom d 1 (.outside none) sql.toList = .ok sql.toList := by
    rw [htext, hlast]
    rfl
  rw [Collector.inline, Scan.start, hcopied]
  exact congrArg Except.ok String.ofList_toList

/-- It is written, and its one value is bound. -/
theorem writes (d : Dialect) (style : MarkerStyle) :
    d.WritesCondition (k := .group) apostropheEscape
      (before.text d (.empty style) ++
        (charLiteral d.valueQuote '\'' ++ behind.text d (.empty style)))
      (behind.after (.empty style)) := by
  obtain ⟨p, hp, hbindings, htext⟩ := exists_draft d style
  have hafter : p.after (.empty style) = behind.after (.empty style) := by
    rw [Draft.after, hbindings, Draft.after]
  have hstyle : (behind.after (.empty style)).style = style := Draft.style_after
  refine ⟨rfl, rfl, (Node.compileInto_fresh_iff rfl).2 ⟨p, hp, ?_⟩⟩
  rw [hstyle]
  exact ⟨htext, hafter⟩

/-- So what should be written for its marker is not. -/
theorem not_inlinesMarkers (hquotes : d.HasUsualQuotes) (hapart : d.ValuesApart)
    (hvalue : d.valueQuote ≠ '\'') (hmark : style = .positional → d.valueQuote ≠ '?') :
    ¬(behind.after (.empty style)).InlinesMarkers d (before.text d (.empty style) ++
      (charLiteral d.valueQuote '\'' ++ behind.text d (.empty style))) := by
  rintro ⟨tokens, htokens, hmarkers, hinline⟩
  rw [inline_eq hquotes hapart hvalue hmark Draft.style_after rfl] at hinline
  have hliterals : ((behind.after (.empty style)).entries.mapM fun e => d.quoteValue e.value) =
      .ok ["10"] := by
    cases style <;> rfl
  rw [hliterals] at hinline
  have hsame := congrArg String.toList (Except.ok.inj hinline)
  rw [String.toList_ofList] at hsame
  obtain ⟨m, hm, hlength⟩ : ∃ m, markersOf tokens = [m] ∧ m.length ≠ 2 := by
    rw [hmarkers]
    cases style
    · exact ⟨_, rfl, by decide⟩
    · exact ⟨_, rfl, by decide⟩
  have hone : ["10"].length = (markersOf tokens).length := by rw [hm]; rfl
  have hfilled := htokens.length_filled hone
  rw [← hsame, hm, List.flatten_singleton] at hfilled
  exact hlength (Nat.add_left_cancel hfilled)

end apostropheEscape

/-! ## Bars for value quotes -/

/-- A dialect that quotes values by bars. -/
def Dialect.barred : Dialect :=
  { Dialect.ansi with
    name := "pipe"
    valueQuote := '|'
    style := .positional
    connection := some ⟨Dialect.textLiteral⟩ }

namespace Dialect

theorem barred_hasUsualQuotes : barred.HasUsualQuotes := .head _

theorem barred_valuesApart : barred.ValuesApart := ⟨by decide, by decide⟩

theorem barred_plain : barred.constructs.Plain := fun _ h => nomatch h

theorem barred_quotesStandOut : barred.QuotesStandOut :=
  barred_hasUsualQuotes.quotesStandOut barred_valuesApart (by decide)

end Dialect

/-- `a LIKE 'x' ESCAPE '?'` and `b = 1`. -/
def markEscape : Group :=
  ((Group.empty .and).push
    (.like (.identifier columnA) false (.value (.text "x")) (some '?'))).push
      (.comparison (.identifier columnB) .eq (.value (.int 1)))

namespace markEscape

/-- What it binds. -/
def bound : Collector :=
  (left (Node.compileInto Dialect.barred .group markEscape (.empty .positional))).2

def text : String := "\"a\" LIKE ? ESCAPE |?| AND \"b\" = ?"

theorem writes : Dialect.barred.WritesCondition (k := .group) markEscape text bound :=
  ⟨rfl, rfl, rfl, rfl⟩

/-- The tokens of the text. -/
def tokens : List Token :=
  .region '"' ['a'] '"' :: (" LIKE ".toList.map .plain ++ .marker ['?'] ::
    (" ESCAPE ".toList.map .plain ++ .region '|' ['?'] '|' ::
      (" AND ".toList.map .plain ++ .region '"' ['b'] '"' ::
        (" = ".toList.map .plain ++ [.marker ['?']]))))

theorem tokens_text : Tokens Dialect.barred .positional [] tokens text.toList := by
  have hout := Dialect.barred_quotesStandOut
  have hcode {rest cs : List Char} (h : cs.all isCodeChar = true) :
      Tokens Dialect.barred .positional rest (cs.map .plain) cs :=
    .of_plain fun ch hch => hout.isPlain_of_isCodeChar (List.all_eq_true.1 h ch hch)
  exact .region rfl (by decide) (.append (hcode (by decide)) (.marker rfl (by decide)
    (.append (hcode (by decide)) (.region rfl (by decide)
      (.append (hcode (by decide)) (.region rfl (by decide)
        (.append (hcode (by decide)) (.marker rfl (by decide) .nil))))))))

/-- It has no others. -/
theorem eq_tokens {ts : List Token} (h : Tokens Dialect.barred .positional [] ts text.toList) :
    ts = tokens :=
  tokens_text.unique (Dialect.barred_hasUsualQuotes.quotesClear Dialect.barred_quotesStandOut) h

theorem literals : (bound.entries.mapM fun e => Dialect.barred.quoteValue e.value) =
    .ok ["'x'", "1"] := by
  refine eq_ok_of_toOption ?_
  decide +kernel

theorem inline_text : bound.inline text Dialect.barred =
    .ok "\"a\" LIKE 'x' ESCAPE |1| AND \"b\" = ?" := by
  refine eq_ok_of_toOption ?_
  decide +kernel

end markEscape

/-! ## Which value quotes are honoured -/

/-- Let names be quoted by double quotes, backticks or brackets, and values by
any other character.  In either style of markers, conditions without raw SQL
are written with their values as they should be just if that character is the
apostrophe.  (A question mark cannot quote values where it is a marker.)

If it is one that SQL is not made of, quoting prefixes keeps what stands in
value quotes, the escapes of patterns, but writing the values in takes it for
plain text, with the question marks in it for positional markers.  This can be
told as long as no escape is an apostrophe or a quote of names; and if none is
a question mark either, or markers have names, all is as it should be. -/
theorem Dialect.honours_valueQuote_iff {d : Dialect} (hquotes : d.HasUsualQuotes)
    (hapart : d.ValuesApart) (hplain : d.constructs.Plain) :
    (∀ style : MarkerStyle, (style = .positional → d.valueQuote ≠ '?') →
      ((∀ (k : Kind) (n : Node k) sql c, d.WritesCondition n sql c → c.style = style →
        c.InlinesMarkers d sql) ↔ d.valueQuote = '\'')) ∧
    (isSyntax d.valueQuote = false → ∀ (k : Kind) (n : Node k) sql c, d.WritesCondition n sql c →
      ∃ tokens, Tokens d c.style [] tokens sql.toList ∧
        markersOf tokens = c.entries.map (fun e => e.key.marker.toList) ∧
        (∀ inside ∈ valuesOf d tokens, inside.length ≤ 1) ∧
        (∀ names : List String, (∀ name ∈ names, isName name = true) →
          ∃ requoted, Tokens d c.style [] requoted (d.quotePrefixes names sql).toList ∧
            markersOf requoted = markersOf tokens ∧ valuesOf d requoted = valuesOf d tokens) ∧
        ('\'' ∉ sql.toList → (∀ inside ∈ valuesOf d tokens, d.leftQuote ∉ inside) →
          c.inline sql d = ((c.entries.mapM fun e => d.quoteValue e.value).map
            fun literals => String.ofList (filled (loosened d c.style tokens) literals)) ∧
          ((c.style = .positional → ∀ inside ∈ valuesOf d tokens, '?' ∉ inside) →
            c.InlinesMarkers d sql))) := by
  refine ⟨fun style hmark => ⟨fun hall => ?_, fun hvalue k n sql c h _ => ?_⟩,
    fun hsyntax k n sql c h => ?_⟩
  · by_contra hvalue
    exact apostropheEscape.not_inlinesMarkers hquotes hapart hvalue hmark
      (hall _ _ _ _ (apostropheEscape.writes d style) Draft.style_after)
  · have hout := hquotes.quotesStandOut hapart (by rw [hvalue]; decide)
    exact h.inlinesMarkers (hquotes.quotesClear hout) hout hplain hvalue
  · have hout := hquotes.quotesStandOut hapart hsyntax
    have hclear := hquotes.quotesClear hout
    obtain ⟨hkeyed, tokens, htokens, hmarkers, hsingle⟩ := h.exists_tokens hclear hout hplain
    refine ⟨tokens, htokens, hmarkers, hsingle hapart, fun names hnames => ?_,
      fun hquote hleft => ?_⟩
    · obtain ⟨us, hus, hsame, hvalues⟩ := htokens.requoted hclear hout hnames
      exact ⟨us, hus, hsame, hvalues hapart⟩
    · have hinline := hkeyed.inline_loosened hclear hapart htokens hmarkers hquote
        fun inside hmem => ⟨hsingle hapart inside hmem, hleft inside hmem⟩
      refine ⟨hinline, fun hmark => ⟨tokens, htokens, hmarkers, ?_⟩⟩
      simpa only [filled_loosened hmark] using hinline

/-- With bars not all conditions are written as they should be, and a question
mark for an escape is filled in like a marker. -/
theorem Dialect.honours_valueQuote_iff_of_bars :
    barred.HasUsualQuotes ∧ barred.ValuesApart ∧ barred.constructs.Plain ∧
      isSyntax barred.valueQuote = false ∧
      barred.WritesCondition (k := .group) markEscape markEscape.text markEscape.bound ∧
      (¬∀ (k : Kind) (n : Node k) sql c, barred.WritesCondition n sql c →
        c.style = .positional → c.InlinesMarkers barred sql) ∧
      ∃ tokens, Tokens barred .positional [] tokens markEscape.text.toList ∧
        markEscape.bound.inline markEscape.text barred =
          .ok (String.ofList (filled (loosened barred .positional tokens) ["'x'", "1"])) := by
  have hvalue : isSyntax barred.valueQuote = false := by decide
  have hiff := honours_valueQuote_iff barred_hasUsualQuotes barred_valuesApart barred_plain
  refine ⟨barred_hasUsualQuotes, barred_valuesApart, barred_plain, hvalue, markEscape.writes,
    fun hall => absurd ((hiff.1 .positional fun _ => by decide).1 hall) (by decide), ?_⟩
  obtain ⟨tokens, htokens, -, -, -, hinline⟩ :=
    hiff.2 hvalue .group markEscape _ _ markEscape.writes
  refine ⟨tokens, htokens, ?_⟩
  obtain rfl := markEscape.eq_tokens htokens
  obtain ⟨hloosened, -⟩ := hinline (by decide) (by decide)
  rw [hloosened, markEscape.literals]
  rfl

/-- With bars for value quotes, a question mark for an escape is taken for the
marker behind it. -/
theorem Dialect.misreads_escape_of_bars :
    barred.HasUsualQuotes ∧ barred.ValuesApart ∧ barred.constructs.Plain ∧
      barred.WritesCondition (k := .group) markEscape
        "\"a\" LIKE ? ESCAPE |?| AND \"b\" = ?" markEscape.bound ∧
      markEscape.bound.inline "\"a\" LIKE ? ESCAPE |?| AND \"b\" = ?" barred =
        .ok "\"a\" LIKE 'x' ESCAPE |1| AND \"b\" = ?" ∧
      ¬markEscape.bound.InlinesMarkers barred "\"a\" LIKE ? ESCAPE |?| AND \"b\" = ?" := by
  refine ⟨barred_hasUsualQuotes, barred_valuesApart, barred_plain, markEscape.writes,
    markEscape.inline_text, ?_⟩
  rintro ⟨ts, hts, -, hinline⟩
  obtain rfl := markEscape.eq_tokens hts
  have hsame := markEscape.inline_text.symm.trans hinline
  rw [markEscape.literals] at hsame
  exact absurd (Except.ok.inj hsame) (by decide +kernel)

end SqlTree
