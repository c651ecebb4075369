import SqlTree.Proofs.Grouping.Node
import SqlTree.Proofs.Inlined.Tokens
import SqlTree.Proofs.Positional.Node
import SqlTree.Proofs.Sections.Script

/-!
# SqlTree.Proofs.Inlined.Node

Statements with their values written in.  Read from the start of a token,
`Collector.inlineFrom` takes in exactly that token (`inlineFrom_plain`,
`inlineFrom_region`, `inlineFrom_marker`), so over the tokens of a text it
writes the literal of its entry for each marker and copies the rest
(`inlineFrom_tokens`).  The markers of a compiled statement have its entries
in order, so this is what becomes of the statement
(`Reachable.inlined_replaces`).
-/

namespace SqlTree

namespace Collector

variable {c : Collector} {d : Dialect} {next : Nat} {previous : Option Char} {t : List Char}

/-! ## One token -/

theorem closer?_eq (hvalue : d.valueQuote = '\'') (x : Char) : closer? d x = d.closer? x := by
  rw [closer?, Dialect.closer?, hvalue]

/-- After a token the reader goes on outside, behind its last character. -/
theorem inlineFrom_skip (n : Nat) (last : Char) (cs : List Char) :
    c.inlineFrom d next (Scan.skip n last) cs =
      c.inlineFrom d next (.outside (some last)) (cs.drop n) := by
  induction cs generalizing n with
  | nil => simp only [inlineFrom, List.drop_nil]
  | cons x cs ih =>
    cases n with
    | zero => rfl
    | succ n =>
      rw [Scan.skip, inlineFrom, List.drop_succ_cons, ← ih n]
      cases n <;> rfl

/-- A character is copied outside of quotes unless it opens a region or starts
a marker. -/
theorem inlineFrom_copied {x : Char} (hclose : closer? d x = none)
    (hmark : c.style = .positional → x ≠ '?')
    (hcolon : c.style = .named → x = ':' → markerTail? previous t = none) :
    c.inlineFrom d next (.outside previous) (x :: t) =
      (c.inlineFrom d next (.outside (some x)) t).map (x :: ·) := by
  rw [inlineFrom.eq_def]
  simp only [hclose]
  split
  · next hstyle => exact absurd rfl (hmark hstyle)
  · next hstyle => simp only [hcolon hstyle rfl]
  · rfl

/-- A plain character is copied. -/
theorem inlineFrom_plain (hvalue : d.valueQuote = '\'') {x : Char} (hx : d.IsPlain x) :
    c.inlineFrom d next (.outside previous) (x :: t) =
      (c.inlineFrom d next (.outside (some x)) t).map (x :: ·) :=
  inlineFrom_copied (by rw [closer?_eq hvalue, hx.closer]) (fun _ => hx.mark)
    fun _ hcolon => absurd hcolon hx.colon

/-- A region is copied up to its end. -/
theorem inlineFrom_region (hvalue : d.valueQuote = '\'') {x close : Char} {inside : List Char}
    (hclose : d.closer? x = some close) (hinside : close ∉ inside) :
    c.inlineFrom d next (.outside previous) (x :: (inside ++ close :: t)) =
      (c.inlineFrom d next (.outside (some close)) t).map fun r => x :: (inside ++ close :: r) := by
  have hopened : closer? d x = some close := by rw [closer?_eq hvalue, hclose]
  have hcopied : c.inlineFrom d next (.inside close) (inside ++ close :: t) =
      (c.inlineFrom d next (.outside (some close)) t).map fun r => inside ++ close :: r := by
    clear hopened hclose
    induction inside with
    | nil =>
      rw [List.nil_append, inlineFrom, Scan.advanceInside, if_pos rfl]
      rfl
    | cons y ys ih =>
      obtain ⟨hy, hys⟩ := not_or.1 (mt List.mem_cons.2 hinside)
      rw [List.cons_append, inlineFrom, Scan.advanceInside, if_neg (Ne.symm hy), ih hys]
      cases c.inlineFrom d next (.outside (some close)) t <;> rfl
  rw [inlineFrom.eq_def]
  simp only [hopened, hcopied]
  cases c.inlineFrom d next (.outside (some close)) t <;> rfl

/-- The number of the next positional marker behind a marker. -/
def nextAfter (c : Collector) (next : Nat) : Nat :=
  match c.style with
  | .positional => next + 1
  | .named => next

/-- The entry of a marker when this is the number of the next one. -/
def entryOf (c : Collector) (next : Nat) (m : List Char) : Option Entry :=
  match c.style with
  | .positional => c.findAt? next
  | .named => c.find? (String.ofList m)

/-- A marker is replaced by the literal of its entry, and the reader goes on
behind it. -/
theorem inlineFrom_marker (hd : d.QuotesClear) (hvalue : d.valueQuote = '\'') {m : List Char}
    (hm : c.style.Marks m) (hend : EndsWord t) (hprevious : previous ≠ some ':') (next : Nat) :
    ∃ last, last ≠ ':' ∧ c.inlineFrom d next (.outside previous) (m ++ t) =
      (do
        let text ← literalOr d (c.entryOf next m) m
        let rest ← c.inlineFrom d (c.nextAfter next) (.outside (some last)) t
        pure (text ++ rest)) := by
  cases hstyle : c.style with
  | positional =>
    rw [hstyle] at hm
    cases hm
    have hclose : closer? d '?' = none := by
      rw [closer?_eq hvalue]
      exact Dialect.closer?_eq_none hd.valueMark hd.leftMark
    refine ⟨'?', by decide, ?_⟩
    rw [List.singleton_append, inlineFrom.eq_def]
    simp only [hclose, hstyle, entryOf, nextAfter]
  | named =>
    rw [hstyle] at hm
    obtain ⟨w, hw, rfl⟩ := hm
    have hclose : closer? d ':' = none := by
      rw [closer?_eq hvalue]
      exact Dialect.closer?_eq_none hd.valueColon hd.leftColon
    have hall := all_isWordChar_of_isWord hw
    obtain ⟨x, xs, rfl⟩ : ∃ x xs, w = x :: xs := by
      cases w with
      | nil => cases hw
      | cons x xs => exact ⟨x, xs, rfl⟩
    have hstart : x.isAlpha = true ∨ x = '_' := by
      simpa [isWordStart] using (Bool.and_eq_true_iff.1 hw).1
    have htail : markerTail? previous (x :: xs ++ t) = some (x :: xs) := by
      have hword : (x :: xs ++ t).takeWhile isWordChar = x :: xs :=
        takeWhile_append_of_head hall hend
      rw [List.cons_append, markerTail?, if_pos ⟨hprevious, hstart⟩]
      exact congrArg some hword
    refine ⟨(x :: xs).getLastD ':', ?_, ?_⟩
    · have hlast : isWordChar ((x :: xs).getLastD ':') = true := by
        refine List.all_eq_true.1 hall _ ?_
        rw [List.getLastD_cons]
        exact List.getLastD_mem_cons
      intro hcolon
      rw [hcolon] at hlast
      exact absurd hlast (by decide)
    · rw [List.cons_append, inlineFrom.eq_def]
      simp only [hclose, hstyle, htail, entryOf, nextAfter, inlineFrom_skip, List.drop_left]

/-! ## All tokens -/

/-- These are the entries of markers, from the number of the next positional
one on.  Markers behind the last entry have none. -/
inductive Answers (c : Collector) : Nat → List (List Char) → List Entry → Prop where
  | nil (next : Nat) : Answers c next [] []
  | cons {next : Nat} {m : List Char} {ms : List (List Char)} {e : Entry} {es : List Entry}
      (h : c.entryOf next m = some e) (hrest : Answers c (c.nextAfter next) ms es) :
      Answers c next (m :: ms) (e :: es)
  | missing {next : Nat} {m : List Char} {ms : List (List Char)}
      (h : c.entryOf next m = none) (hrest : Answers c (c.nextAfter next) ms []) :
      Answers c next (m :: ms) []

/-- A marker with an answer is filled, if what comes behind it is. -/
theorem Answers.inlineFrom_marker {m t : List Char} {ms : List (List Char)} {es : List Entry}
    {ts : List Token} {last : Char} (h : c.Answers next (m :: ms) es)
    (hmarker : c.inlineFrom d next (.outside previous) (m ++ t) = (do
      let text ← literalOr d (c.entryOf next m) m
      let rest ← c.inlineFrom d (c.nextAfter next) (.outside (some last)) t
      pure (text ++ rest)))
    (hrest : ∀ es, c.Answers (c.nextAfter next) ms es →
      c.inlineFrom d (c.nextAfter next) (.outside (some last)) t =
        (es.mapM fun e => d.quoteValue e.value).map (filled ts)) :
    c.inlineFrom d next (.outside previous) (m ++ t) =
      (es.mapM fun e => d.quoteValue e.value).map (filled (.marker m :: ts)) := by
  cases h with
  | missing hentry hnone =>
    rw [hmarker, hentry, literalOr, hrest _ hnone]
    rfl
  | @cons _ _ _ e es hentry hes =>
    rw [hmarker, hentry, literalOr, hrest _ hes, List.mapM_cons]
    cases d.quoteValue e.value with
    | error => rfl
    | ok l => cases es.mapM fun e => d.quoteValue e.value <;> rfl

/-- Over the tokens of a text the reader writes the literals of the entries
for the markers and copies the rest. -/
theorem inlineFrom_tokens (hd : d.QuotesClear) (hvalue : d.valueQuote = '\'') {ts : List Token}
    (h : Tokens d c.style [] ts t) {es : List Entry} (hes : c.Answers next (markersOf ts) es)
    (hprevious : previous ≠ some ':') : c.inlineFrom d next (.outside previous) t =
      (es.mapM fun e => d.quoteValue e.value).map (filled ts) := by
  induction h generalizing next previous es with
  | nil =>
    cases hes
    rw [inlineFrom]
    rfl
  | @plain x ts t hx h ih =>
    have hnext : some x ≠ some ':' := fun heq => hx.colon (Option.some.inj heq)
    rw [inlineFrom_plain hvalue hx, ih hes hnext]
    cases es.mapM fun e => d.quoteValue e.value <;> rfl
  | @region x close inside ts t hclose hinside h ih =>
    have hnext : some close ≠ some ':' := fun heq =>
      (hd.closing (Dialect.closer?_eq_some hclose).2).2.1 (Option.some.inj heq)
    rw [inlineFrom_region hvalue hclose hinside, ih hes hnext]
    cases es.mapM fun e => d.quoteValue e.value <;> rfl
  | @marker m ts t hm hend h ih =>
    obtain ⟨last, hlast, hmarker⟩ := inlineFrom_marker hd hvalue hm (by simpa using hend)
      hprevious next
    exact hes.inlineFrom_marker hmarker fun es hes =>
      ih hes fun heq => hlast (Option.some.inj heq)

/-- The markers of the entries from some place on have these entries. -/
theorem Keyed.answers (h : c.Keyed) {before es : List Entry} (hsplit : c.entries = before ++ es)
    {next : Nat} (hnext : c.style = .positional → next = before.length + 1) :
    c.Answers next (es.map fun e => e.key.marker.toList) es := by
  induction es generalizing before next with
  | nil => exact .nil next
  | cons e es ih =>
    have hplace : c.entries[before.length]? = some e := by simp [hsplit]
    have hrest : c.entries = (before ++ [e]) ++ es := by simp [hsplit]
    refine .cons ?_ (ih hrest fun hstyle => ?_)
    · cases hstyle : c.style with
      | positional =>
        simp only [entryOf, hstyle, hnext hstyle]
        exact (h.findAt?_succ hstyle hplace).2
      | named =>
        have hmem : e ∈ c.entries := List.mem_of_getElem? hplace
        obtain ⟨w, -, hkey⟩ := (h.named hstyle).1 e.key (List.mem_map_of_mem hmem)
        simp only [entryOf, hstyle, hkey, Key.marker, String.ofList_toList]
        exact h.find?_eq_some.2 ⟨hmem, hkey⟩
    · simp [nextAfter, hstyle, hnext hstyle]

/-- Over a text with the markers of its entries, in order, the collector
writes their literals for them. -/
theorem Keyed.inline_eq (h : c.Keyed) (hd : d.QuotesClear) (hvalue : d.valueQuote = '\'')
    {sql : String} {tokens : List Token} (htokens : Tokens d c.style [] tokens sql.toList)
    (hmarkers : markersOf tokens = c.entries.map fun e => e.key.marker.toList) :
    c.inline sql d = (c.entries.mapM fun e => d.quoteValue e.value).map
      fun literals => String.ofList (filled tokens literals) := by
  have hsplit : c.entries = [] ++ c.entries := rfl
  have hanswers : c.Answers 1 (markersOf tokens) c.entries :=
    hmarkers ▸ h.answers hsplit fun _ => rfl
  rw [inline, Scan.start, inlineFrom_tokens hd hvalue htokens hanswers (by simp)]
  cases c.entries.mapM fun e => d.quoteValue e.value <;> rfl

end Collector

/-! ## Drafts -/

theorem Dialect.Shipped.isPlain {d : Dialect} (hd : d.Shipped) {ch : Char}
    (h : ch ∉ ['\'', d.leftQuote, ':', '?']) : d.IsPlain ch := by
  simp only [List.mem_cons, List.not_mem_nil, or_false, not_or] at h
  obtain ⟨hquote, hleft, hcolon, hmark⟩ := h
  exact ⟨closer?_eq_none (by rw [hd.valueQuote_eq]; exact Ne.symm hquote) (Ne.symm hleft),
    hcolon, hmark⟩

theorem Draft.keyed_after (p : Draft) (style : MarkerStyle) : (p.after (.empty style)).Keyed :=
  (Collector.Keyed.empty style).bindAll p.bindings

/-- The text of a draft has the markers of the entries it leaves, in order. -/
theorem Draft.tokens_after {d : Dialect} (hclear : d.QuotesClear) (hout : d.QuotesStandOut)
    {p : Draft} (h : p.Composed fun s => ∀ ch ∈ s.toList, d.IsPlain ch) (style : MarkerStyle) :
    ∃ tokens, Tokens d style [] tokens (p.text d (.empty style)).toList ∧
      markersOf tokens = (p.after (.empty style)).entries.map (fun e => e.key.marker.toList) ∧
      (d.ValuesApart → ∀ inside ∈ valuesOf d tokens, inside.length ≤ 1) := by
  obtain ⟨tokens, htokens, hmarkers, hsingle⟩ := Draft.tokens_text hclear hout h (.empty style)
    fun _ => show EndsWord [] from rfl
  refine ⟨tokens, htokens, ?_, hsingle⟩
  obtain ⟨added, hadded, -, hgiven⟩ := (Collector.empty style).entries_bindAll p.bindings
  have hentries : (p.after (.empty style)).entries = added := hadded
  rw [hmarkers, ← hgiven, hentries, List.map_map]
  rfl

/-- With the values written in, each marker is replaced by the literal of its
entry. -/
theorem Draft.inline_text {d : Dialect} (hd : d.Shipped) (hquotes : d.HasUsualQuotes) {p : Draft}
    (h : p.Composed fun s => ∀ ch ∈ s.toList, d.IsPlain ch) :
    let c := p.after (.empty d.style)
    let sql := p.text d (.empty d.style)
    ∃ tokens, Tokens d d.style [] tokens sql.toList ∧
      markersOf tokens = c.entries.map (fun e => e.key.marker.toList) ∧
      c.inline sql d = (c.entries.mapM fun e => d.quoteValue e.value).map
        fun literals => String.ofList (filled tokens literals) := by
  intro c sql
  have hclear := hd.quotesClear hquotes
  obtain ⟨tokens, htokens, hmarkers, -⟩ :=
    Draft.tokens_after hclear (hd.quotesStandOut hquotes) h d.style
  have hstyle : c.style = d.style := Draft.style_after
  have hread : Tokens d c.style [] tokens sql.toList := by rwa [hstyle]
  exact ⟨tokens, htokens, hmarkers,
    (p.keyed_after d.style).inline_eq hclear hd.valueQuote_eq hread hmarkers⟩

/-! ## Nodes -/

/-- Raw SQL of a tree made of certain characters, with placeholders that
end. -/
theorem RawSql.allows_of_forall {q : Char → Prop} {raws : List RawSql}
    (hq : ∀ raw ∈ raws, ∀ ch ∈ raw.text.toList, q ch)
    (hend : ∀ template, .template template ∈ raws → placeholdersEnd (pieces template) = true) :
    ∀ raw ∈ raws, raw.Allows fun s => ∀ ch ∈ s.toList, q ch := by
  intro raw hraw
  cases raw with
  | literal l => exact hq _ hraw
  | template text =>
    refine ⟨hend text hraw, fun part hpart ch hch => hq _ hraw ch ?_⟩
    rw [RawSql.text, ← flatMap_source_pieces]
    exact List.mem_flatMap.2 ⟨part, hpart, by simpa using hch⟩

/-- Everything has an answer when each part has one. -/
theorem exists_mapM_ok {α β : Type} {f : α → Except Error β} {as : List α} :
    (∃ bs, as.mapM f = .ok bs) ↔ ∀ a ∈ as, ∃ b, f a = .ok b := by
  induction as with
  | nil => exact ⟨fun _ => nofun, fun _ => ⟨[], rfl⟩⟩
  | cons a as ih =>
    rw [List.forall_mem_cons, ← ih, List.mapM_cons]
    cases f a with
    | error e => simp [Bind.bind, Except.bind]
    | ok b => cases as.mapM f <;> simp [Bind.bind, Except.bind, Pure.pure, Except.pure]

namespace Node

variable {d : Dialect} {k : Kind} {n : Node k}

/-- A node that does not compile is not written with its values either. -/
theorem answer_inlined_of_error {e : Error} (h : answer (compile d k n) = .error e) :
    answer (inlined d k n) = .error e := by
  rw [inlined]
  cases hrun : compile d k n with
  | error e' n' =>
    rw [hrun] at h
    exact h
  | ok sql n' => rw [hrun] at h; cases h

/-- A node that compiles is written with the values of its collector. -/
theorem answer_inlined {sql : String} {c : Collector} (h : answer (compile d k n) = .ok sql)
    (hc : collector? k (left (compile d k n)) = some c) :
    answer (inlined d k n) = c.inline sql d := by
  rw [inlined]
  cases hrun : compile d k n with
  | error e' n' => rw [hrun] at h; cases h
  | ok sql' n' =>
    rw [hrun] at h hc
    cases h
    have hc' : collector? k n' = some c := hc
    simp only [hc']
    cases c.inline sql d <;> rfl

end Node

/-- A statement is written with its values just if it compiles and each of
its values has a literal.  The text is then that of the statement, in which
the marker of each entry is replaced by the literal of its value and nothing
else changes: regions in quotes and other characters are copied.  The raw
SQL must have no quotes, colons and question marks, and nothing in its
templates may run into a placeholder from behind. -/
theorem Reachable.inlined_replaces {k : Kind} {n : Node k} (h : Reachable k n)
    (hk : Node.keepsText k = true) {d : Dialect} (hd : d.Shipped) (hquotes : d.HasUsualQuotes)
    (hraws : ∀ raw ∈ Node.raws k n, ∀ ch ∈ ['\'', d.leftQuote, ':', '?'], ch ∉ raw.text.toList)
    (hend : ∀ template, .template template ∈ Node.raws k n →
      placeholdersEnd (pieces template) = true) :
    ((∃ text, answer (Node.inlined d k n) = .ok text) ↔
      ∃ sql c, answer (Node.compile d k n) = .ok sql ∧
        Node.collector? k (left (Node.compile d k n)) = some c ∧
        ∀ e ∈ c.entries, ∃ literal, d.quoteValue e.value = .ok literal) ∧
    ∀ sql, answer (Node.compile d k n) = .ok sql →
      ∃ c tokens, Node.collector? k (left (Node.compile d k n)) = some c ∧
        Tokens d d.style [] tokens sql.toList ∧
        markersOf tokens = c.entries.map (fun e => e.key.marker.toList) ∧
        answer (Node.inlined d k n) = (c.entries.mapM fun e => d.quoteValue e.value).map
          fun literals => String.ofList (filled tokens literals) := by
  have hplain : ∀ raw ∈ Node.raws k n, ∀ ch ∈ raw.text.toList, d.IsPlain ch :=
    fun raw hraw ch hch => hd.isPlain fun hmem => hraws raw hraw ch hmem hch
  have hwritten : ∀ sql, answer (Node.compile d k n) = .ok sql →
      ∃ c tokens, Node.collector? k (left (Node.compile d k n)) = some c ∧
        Tokens d d.style [] tokens sql.toList ∧
        markersOf tokens = c.entries.map (fun e => e.key.marker.toList) ∧
        answer (Node.inlined d k n) = (c.entries.mapM fun e => d.quoteValue e.value).map
          fun literals => String.ofList (filled tokens literals) := by
    intro sql hsql
    obtain ⟨p, hp, rfl, hcollector⟩ := Node.draft_of_compile hd h.coherent hsql
    rw [if_pos hk] at hcollector
    have hcomposed := Node.draft_composed hd.plain (RawSql.allows_of_forall hplain hend) p hp
    obtain ⟨tokens, htokens, hmarkers, hinline⟩ := Draft.inline_text hd hquotes hcomposed
    exact ⟨_, tokens, hcollector, htokens, hmarkers,
      (Node.answer_inlined hsql hcollector).trans hinline⟩
  refine ⟨⟨fun ⟨text, htext⟩ => ?_, fun ⟨sql, c, hsql, hc, hall⟩ => ?_⟩, hwritten⟩
  · cases hsql : answer (Node.compile d k n) with
    | error e =>
      rw [Node.answer_inlined_of_error hsql] at htext
      cases htext
    | ok sql =>
      obtain ⟨c, tokens, hc, -, -, heq⟩ := hwritten sql hsql
      refine ⟨sql, c, rfl, hc, exists_mapM_ok.1 ?_⟩
      rw [heq] at htext
      cases hliterals : c.entries.mapM fun e => d.quoteValue e.value with
      | error e => rw [hliterals] at htext; cases htext
      | ok literals => exact ⟨literals, rfl⟩
  · obtain ⟨c', tokens, hc', -, -, heq⟩ := hwritten sql hsql
    rw [hc] at hc'
    obtain ⟨literals, hliterals⟩ := exists_mapM_ok.2 hall
    rw [heq, ← Option.some.inj hc', hliterals]
    exact ⟨_, rfl⟩

/-- A select with a pattern that looks like a marker, and with an escape that
does. -/
theorem Reachable.inlined_replaces_of_escape :
    let p : Predicate := .like (.identifier ⟨"a", rfl⟩) false (.value (.text "?")) (some '?')
    let called (b : Builder .select) (s : Select) : Select := (Call.build b).act s
    let s : Select := called (.selectWhere (.predicate p)) (called (.fromTable "t") Select.empty)
    let d := Dialect.sqlite .positional
    let sql := "SELECT * FROM \"t\" WHERE \"a\" LIKE ? ESCAPE '?'"
    Reachable .select s ∧ answer (Node.compile d .select s) = .ok sql ∧
      (∃ c tokens, Node.collector? .select (left (Node.compile d .select s)) = some c ∧
        Tokens d d.style [] tokens sql.toList ∧
        markersOf tokens = c.entries.map (fun e => e.key.marker.toList)) ∧
      answer (Node.inlined d .select s) =
        .ok "SELECT * FROM \"t\" WHERE \"a\" LIKE '?' ESCAPE '?'" := by
  intro p called s d sql
  have hp : Reachable .predicate p :=
    .made (.like (.identifier ⟨"a", rfl⟩) false (.value (.text "?")) (some '?'))
      (fun _ h => by cases h) rfl
  have hempty : Reachable .select Select.empty := .made .select (fun _ h => nomatch h) rfl
  have hfrom : Reachable .select (called (.fromTable "t") Select.empty) :=
    .called .here (.build (.fromTable "t")) hempty fun _ h => nomatch h
  have hs : Reachable .select s :=
    .called .here (.build (.selectWhere (.predicate p))) hfrom fun u hu => by
      cases List.mem_singleton.1 hu
      exact hp
  have hsql : answer (Node.compile d .select s) = .ok sql := by
    refine eq_ok_of_toOption ?_
    simp only [s, called, p, d, sql]
    decide +kernel
  have hraws : Node.raws .select s = [] := rfl
  have hreplaced := Reachable.inlined_replaces hs rfl (.sqlite .positional) (.head _)
    (by rw [hraws]; simp) (by rw [hraws]; simp)
  obtain ⟨c, tokens, hc, htokens, hmarkers, -⟩ := hreplaced.2 _ hsql
  have hinlined : answer (Node.inlined d .select s) =
      .ok "SELECT * FROM \"t\" WHERE \"a\" LIKE '?' ESCAPE '?'" := by
    refine eq_ok_of_toOption ?_
    simp only [s, called, p, d]
    decide +kernel
  exact ⟨hs, hsql, ⟨c, tokens, hc, htokens, hmarkers⟩, hinlined⟩

end SqlTree
