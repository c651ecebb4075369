import SqlTree.Proofs.Positional.Requoting

/-!
# SqlTree.Proofs.Positional.Node

The style of markers changes the markers and nothing else.  Written with
question marks, a composed draft is what it is with named markers, each of
them replaced (`Draft.text_unmarks`), and its values get positions for keys
in the same order (`Collector.Renumbers.bindAll`).  So a tree compiles in
either style or in none (`Reachable.compile_positional`).
-/

namespace SqlTree

/-! ## Collectors -/

namespace Collector

/-- The entries under their positions. -/
def numbered (entries : List Entry) : List Entry :=
  entries.mapIdx fun i e => { e with key := .position (i + 1) }

/-- A collector of positions with the same values as one of named markers. -/
structure Renumbers (c c' : Collector) : Prop where
  style : c.style = .named
  style' : c'.style = .positional
  entries : c'.entries = numbered c.entries

namespace Renumbers

variable {c c' : Collector}

theorem empty : Renumbers (.empty .named) (.empty .positional) := ⟨rfl, rfl, rfl⟩

/-- Recording a value in both keeps them so. -/
theorem bind (h : Renumbers c c') (b : Binding) : Renumbers (c.bind b) (c'.bind b) := by
  refine ⟨by rw [style_bind, h.style], by rw [style_bind, h.style'], ?_⟩
  have hsize : c'.size = c.entries.length := by
    rw [size, h.entries, numbered, List.length_mapIdx]
  have hpositional : (c'.bind b).entries =
      c'.entries ++ [⟨.position (c'.size + 1), b.value, b.type⟩] := by
    rw [Collector.bind, record, h.style']
  obtain ⟨key, hnamed, -⟩ := c.entries_record b.value b.type b.hint
  have hbind : (c.bind b).entries = c.entries ++ [⟨key, b.value, b.type⟩] := hnamed
  rw [hpositional, hbind, h.entries, hsize, numbered, numbered, List.mapIdx_concat]

theorem bindAll (h : Renumbers c c') (bs : List Binding) :
    Renumbers (c.bindAll bs) (c'.bindAll bs) := by
  induction bs generalizing c c' with
  | nil => exact h
  | cons b bs ih => exact ih (h.bind b)

end Renumbers

end Collector

/-! ## Drafts -/

namespace Draft

variable {d : Dialect} {p : Draft}

theorem unmarks_charLiteral (hd : d.QuotesApart) (ch : Char) (rest : List Char) :
    Unmarks rest (charLiteral d.valueQuote ch).toList (charLiteral d.valueQuote ch).toList := by
  have hquote {t t' : List Char} (h : Unmarks rest t t') :
      Unmarks rest (d.valueQuote :: t) (d.valueQuote :: t') := .other hd.valueColon h
  have hstart : isWordStart d.valueQuote = false := by
    simpa using mt isWordChar_of_isWordStart (Bool.eq_false_iff.1 hd.valueWord)
  rw [charLiteral, String.toList_ofList]
  split
  · next hch =>
    subst hch
    exact hquote (hquote (hquote (hquote .nil)))
  · exact hquote (.char (fun _ => hstart) (hquote .nil))

/-- With question marks a draft is written as it is with named markers, each
of them replaced.  What comes after the text must not continue a marker at
its end. -/
theorem text_unmarks (hd : d.QuotesClear) (h : p.Composed fun s => ':' ∉ s.toList)
    {c c' : Collector} (hc : c.style = .named) (hc' : c'.style = .positional) {rest : List Char}
    (hrest : p.dangles = true → EndsWord rest) :
    Unmarks rest (p.text d c).toList (p.text d c').toList := by
  induction h generalizing c c' rest with
  | code hs => exact .of_not_mem (colon_not_mem_of_isCode hs)
  | raw hs => exact .of_not_mem hs
  | identifier i => exact .of_not_mem (colon_not_mem_quoteIdentifier hd.toQuotesApart i.isCode_text)
  | label a => exact .of_not_mem (colon_not_mem_quoteAlias hd.toQuotesApart a.isCode_text)
  | quotedChar ch => exact unmarks_charLiteral hd.toQuotesApart ch rest
  | value b =>
    obtain ⟨w, hw, hmarker⟩ := Collector.exists_word_record hc b
    have hmark : (c'.record b.value b.type b.hint).1 = "?" := by
      rw [Collector.record, hc']
    have hunmarks : Unmarks rest (':' :: (w ++ [])) ['?'] := .marker hw (hrest rfl) .nil
    rw [List.append_nil] at hunmarks
    rw [text_value, text_value, hmarker, hmark]
    exact hunmarks
  | @append p q _ _ seam ihp ihq =>
    have hnext : p.dangles = true → EndsWord ((q.text d (p.after c)).toList ++ rest) :=
      endsWord_seam hd.toQuotesApart seam hrest _
    have hlast : q.dangles = true → EndsWord rest := by
      intro hq
      exact hrest (by rw [dangles_append, hq, Bool.true_or])
    rw [text_append, text_append, String.toList_append, String.toList_append]
    exact (ihp hc hc' hnext).append
      (ihq (by rw [style_after, hc]) (by rw [style_after, hc']) hlast)
  | @enclosed p _ ih =>
    have htext (c : Collector) :
        ((enclosed p).text d c).toList = '(' :: ((p.text d c).toList ++ [')']) := by
      simp [SqlTree.enclosed]
    have hparen : EndsWord (')' :: rest) := show isWordChar ')' = false by decide
    rw [htext, htext]
    exact .other (by decide) ((ih hc hc' fun _ => hparen).append (.other (by decide) .nil))
  | @requoted names p hnames _ ih =>
    have hall : ∀ name ∈ names.map String.toList, isName (String.ofList name) = true := by
      intro name hname
      obtain ⟨s, hs, rfl⟩ := List.mem_map.1 hname
      rw [String.ofList_toList]
      exact hnames s hs
    simp only [text_requoted, Dialect.quotePrefixes, String.toList_ofList]
    exact (ih hc hc' hrest).requoted_from hd hall (.outside none)

end Draft

/-! ## Nodes -/

theorem Dialect.Shipped.quotesClear {d : Dialect} (h : d.Shipped) (hquotes : d.HasUsualQuotes) :
    d.QuotesClear := by
  have hapart := h.quotesApart hquotes
  have hvalue := h.valueQuote_eq
  simp only [HasUsualQuotes, List.mem_cons, Prod.mk.injEq, List.not_mem_nil, or_false] at hquotes
  rcases hquotes with ⟨hleft, hright⟩ | ⟨hleft, hright⟩ | ⟨hleft, hright⟩ <;>
    exact ⟨hapart, by simp only [hvalue]; decide, by simp only [hleft]; decide,
      by simp only [hright]; decide, by simp only [hvalue]; decide, by simp only [hleft]; decide⟩

/-- Raw SQL of a tree that has no colons and placeholders that end. -/
theorem RawSql.allows_of_not_mem {raws : List RawSql}
    (hcolon : ∀ raw ∈ raws, ':' ∉ raw.text.toList)
    (hend : ∀ template, .template template ∈ raws → placeholdersEnd (pieces template) = true) :
    ∀ raw ∈ raws, raw.Allows fun s => ':' ∉ s.toList := by
  intro raw hraw
  cases raw with
  | literal l => exact hcolon _ hraw
  | template text =>
    refine ⟨hend text hraw, fun part hpart hmem => hcolon _ hraw ?_⟩
    rw [RawSql.text, ← flatMap_source_pieces]
    exact List.mem_flatMap.2 ⟨part, hpart, by simpa using hmem⟩

/-- Between two dialects that differ in the style of markers alone, a node
compiles in one as it does in the other: to the same error, or to the same
text with a question mark for each marker and to the same values in the same
order, which have their positions for keys.  Its raw SQL must have no colons,
and nothing in its templates may run into a placeholder from behind. -/
theorem Reachable.compile_positional {k : Kind} {n : Node k} (h : Reachable k n)
    (hcolon : ∀ raw ∈ Node.raws k n, ':' ∉ raw.text.toList)
    (hend : ∀ template, .template template ∈ Node.raws k n →
      placeholdersEnd (pieces template) = true)
    {d d' : Dialect} (hd : d.Shipped) (hd' : d'.Shipped) (hstyle : d.style = .named)
    (hsame : d' = { d with style := .positional }) (hquotes : d.HasUsualQuotes) :
    answer (Node.compile d' k n) = (answer (Node.compile d k n)).map unmarked ∧
      (Node.collector? k (left (Node.compile d' k n))).map Collector.entries =
        (Node.collector? k (left (Node.compile d k n))).map
          fun c => Collector.numbered c.entries := by
  have hstyle' : d'.style = .positional := by rw [hsame]
  have hconstructs : d'.constructs = d.constructs := by rw [hsame]; rfl
  have hrestyled (p : Draft) (c : Collector) : p.text d' c = p.text d c :=
    Draft.text_congr_quotes (by rw [hsame]) (by rw [hsame]) (by rw [hsame]) p c
  obtain ⟨-, hanswer, hcollector⟩ := Node.compile_follows hd h.coherent
  obtain ⟨-, hanswer', hcollector'⟩ := Node.compile_follows hd' h.coherent
  rw [hanswer, hanswer', hcollector, hcollector', hstyle, hstyle', hconstructs]
  cases hdraft : Node.draft d.constructs k n with
  | error e =>
    refine ⟨rfl, ?_⟩
    split <;> rfl
  | ok p =>
    have hcomposed := Node.draft_composed hd.plain (RawSql.allows_of_not_mem hcolon hend) p hdraft
    have hunmarks : Unmarks [] (p.text d (.empty .named)).toList
        (p.text d (.empty .positional)).toList :=
      Draft.text_unmarks (hd.quotesClear hquotes) hcomposed rfl rfl fun _ => rfl
    have htext : unmarked (p.text d (.empty .named)) = p.text d (.empty .positional) := by
      have heq := hunmarks.unmarkedFrom_eq
      rw [List.append_nil, unmarkedFrom, List.append_nil] at heq
      rw [unmarked, heq, String.ofList_toList]
    have hentries : (p.after (.empty .positional)).entries =
        Collector.numbered (p.after (.empty .named)).entries :=
      (Collector.Renumbers.empty.bindAll p.bindings).entries
    simp only [Draft.scribe, Scribe.effect, Except.map, hrestyled, htext, true_and]
    split
    · exact congrArg some hentries
    · rfl

/-- A select with a value in its condition, and behind it raw SQL that refers
to its table. -/
theorem Reachable.compile_positional_of_select :
    let p : Predicate := .comparison (.identifier ⟨"a", rfl⟩) .eq (.value (.int 1))
    let called (b : Builder .select) (s : Select) : Select := (Call.build b).act s
    let s : Select := called (.selectWhere (.raw "t.b = 2"))
      (called (.selectWhere (.predicate p)) (called (.fromTable "t") Select.empty))
    Reachable .select s ∧
      answer (s.compile (.sqlite .named)) =
        .ok "SELECT * FROM \"t\" WHERE \"a\" = :eq1 AND \"t\".b = 2" ∧
      answer (s.compile (.sqlite .positional)) =
        .ok "SELECT * FROM \"t\" WHERE \"a\" = ? AND \"t\".b = 2" := by
  intro p called s
  have hp : Reachable .predicate p :=
    .made (.comparison (.identifier ⟨"a", rfl⟩) .eq (.value (.int 1))) (fun _ h => by cases h) rfl
  have hempty : Reachable .select Select.empty := .made .select (fun _ h => nomatch h) rfl
  have hfrom : Reachable .select (called (.fromTable "t") Select.empty) :=
    .called .here (.build (.fromTable "t")) hempty fun _ h => nomatch h
  have htested : Reachable .select (called (.selectWhere (.predicate p))
      (called (.fromTable "t") Select.empty)) :=
    .called .here (.build (.selectWhere (.predicate p))) hfrom fun u hu => by
      cases List.mem_singleton.1 hu
      exact hp
  have hs : Reachable .select s :=
    .called .here (.build (.selectWhere (.raw "t.b = 2"))) htested fun _ h => nomatch h
  have hsql : answer (s.compile (.sqlite .named)) =
      .ok "SELECT * FROM \"t\" WHERE \"a\" = :eq1 AND \"t\".b = 2" := by
    refine eq_ok_of_toOption ?_
    simp only [s, called, p]
    decide +kernel
  have hraws : Node.raws .select s = [.literal ⟨"t.b = 2", rfl⟩] := rfl
  have hcolon : ∀ raw ∈ Node.raws .select s, ':' ∉ raw.text.toList := by
    rw [hraws]
    simp [RawSql.text]
  have hend : ∀ template, .template template ∈ Node.raws .select s →
      placeholdersEnd (pieces template) = true := by
    rw [hraws]
    simp
  have hpositional := (compile_positional hs hcolon hend (.sqlite .named) (.sqlite .positional) rfl
    rfl (.head _)).1
  refine ⟨hs, hsql, hpositional.trans ?_⟩
  have hnamed : answer (Node.compile (.sqlite .named) .select s) = _ := hsql
  rw [hnamed]
  refine congrArg Except.ok ?_
  decide +kernel

end SqlTree
