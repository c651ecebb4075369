import SqlTree.Proofs.Caching.Transparency
import SqlTree.Proofs.Composed.Tree
import SqlTree.Proofs.Markers.Collector

/-!
# SqlTree.Proofs.Markers.Node

Markers and entries agree.  In the text of a composed draft, as long as its
raw SQL has no colons, the markers are exactly those that its values were
given, in order (`Draft.markersFrom_text`).  So the markers that one reads
out of a compiled statement are the keys of its collector, each of them
once.
-/

namespace SqlTree

/-! ## Starts of texts -/

/-- A text does not go on with a word. -/
abbrev EndsWord (cs : List Char) : Prop := cs.head?.any isWordChar = false

theorem endsWord_append {xs ys : List Char} (hxs : xs ≠ [] → EndsWord xs)
    (hys : xs = [] → EndsWord ys) : EndsWord (xs ++ ys) := by
  cases xs with
  | nil => exact hys rfl
  | cons c xs => exact hxs (List.cons_ne_nil c xs)

namespace Dialect

variable {d : Dialect}

theorem endsWord_quoteIdentifier (hd : d.QuotesApart) (name : String) :
    EndsWord (d.quoteIdentifier name).toList := by
  rcases d.head?_quoteIdentifier name with hhead | hhead <;> rw [EndsWord, hhead]
  · exact hd.leftWord
  · exact show isWordChar '*' = false by decide

theorem endsWord_quoteAlias (hd : d.QuotesApart) (name : String) :
    EndsWord (d.quoteAlias name).toList := by
  rw [EndsWord, toList_quoteAlias, head?_withQuotes]
  exact hd.leftWord

end Dialect

theorem Requoted.endsWord {names : List (List Char)} {previous : Option Char} {cs out : List Char}
    (h : Requoted d names (.outside previous) cs out) (hd : d.QuotesApart) (hcs : EndsWord cs) :
    EndsWord out := by
  cases h with
  | nil => rfl
  | opened | plain => exact hcs
  | name =>
    refine endsWord_append (fun _ => d.endsWord_quoteIdentifier hd _) fun _ => ?_
    exact show isWordChar '.' = false by decide

namespace Draft

variable {d : Dialect} {p : Draft}

/-- What does not open with a word is not written with one. -/
theorem endsWord_text (hd : d.QuotesApart) (h : p.opens = false) (c : Collector) :
    EndsWord (p.text d c).toList := by
  induction p generalizing c with
  | code s => exact h
  | raw s => exact h
  | identifier i => exact Dialect.endsWord_quoteIdentifier hd i.text
  | label a => exact Dialect.endsWord_quoteAlias hd a.text
  | quotedChar ch =>
    have hchars : EndsWord (charLiteral d.valueQuote ch).toList := by
      rw [charLiteral, String.toList_ofList]
      split <;> exact hd.valueWord
    exact hchars
  | value b =>
    have hmarker : EndsWord (c.record b.value b.type b.hint).1.toList := by
      unfold Collector.record
      split
      · exact show EndsWord "?".toList by decide
      · dsimp only
        rw [Collector.toList_markerOf]
        exact show isWordChar ':' = false by decide
    exact hmarker
  | append p q ihp ihq =>
    obtain ⟨hp, hq⟩ := Bool.or_eq_false_iff.1 h
    change EndsWord (p.text d c ++ q.text d (p.after c)).toList
    rw [String.toList_append]
    refine endsWord_append (fun _ => ihp hp c) fun hnil => ihq ?_ _
    rw [text_eq_empty_iff.1 (String.toList_eq_nil_iff.1 hnil), Bool.true_and] at hq
    exact hq
  | requoted names p ih => exact (d.requoted_quotePrefixes names (p.text d c)).endsWord hd (ih h c)

/-- At the seam of two drafts no marker is continued. -/
theorem endsWord_seam {q : Draft} (hd : d.QuotesApart) (seam : p.dangles = false ∨ q.opens = false)
    {rest : List Char} (hrest : (p ++ q).dangles = true → EndsWord rest) (c : Collector)
    (hp : p.dangles = true) : EndsWord ((q.text d c).toList ++ rest) := by
  have hopens : q.opens = false := seam.resolve_left (by rw [hp]; exact Bool.noConfusion)
  refine endsWord_append (fun _ => endsWord_text hd hopens c) fun hnil => hrest ?_
  rw [dangles_append, text_eq_empty_iff.1 (String.toList_eq_nil_iff.1 hnil), hp, Bool.true_and,
    Bool.or_true]

/-! ## Markers of drafts -/

theorem colon_not_mem_of_isCode {s : String} (h : isCode s = true) : ':' ∉ s.toList := by
  intro hmem
  exact absurd (List.all_eq_true.1 h ':' hmem) (by decide)

theorem colon_not_mem_quoteIdentifier (hd : d.QuotesApart) {name : String}
    (h : isCode name = true) : ':' ∉ (d.quoteIdentifier name).toList := by
  intro hmem
  rcases Dialect.mem_quoteIdentifier hmem with hc | hc | hc | hc
  · cases hc
  · exact hd.leftColon hc.symm
  · exact hd.rightColon hc.symm
  · exact colon_not_mem_of_isCode h hc

theorem colon_not_mem_quoteAlias (hd : d.QuotesApart) {name : String} (h : isCode name = true) :
    ':' ∉ (d.quoteAlias name).toList := by
  intro hmem
  rw [Dialect.toList_quoteAlias] at hmem
  rcases mem_withQuotes hmem with hc | hc | hc
  · exact hd.leftColon hc.symm
  · exact hd.rightColon hc.symm
  · exact colon_not_mem_of_isCode h hc

/-- An escape character between its quotes starts no marker, even if it is a
colon. -/
theorem markersFrom_charLiteral (hd : d.QuotesApart) (ch : Char) (rest : List Char) :
    markersFrom ((charLiteral d.valueQuote ch).toList ++ rest) = markersFrom rest := by
  have hquote := markersFrom_cons_of_ne hd.valueColon
  rw [charLiteral, String.toList_ofList]
  split
  · next h =>
    subst h
    simp only [List.cons_append, List.nil_append, hquote]
  · simp only [List.cons_append, List.nil_append, hquote]
    have hstart : isWordStart d.valueQuote = false := by
      simpa using mt isWordChar_of_isWordStart (Bool.eq_false_iff.1 hd.valueWord)
    rw [markersFrom, if_neg (by simp [hstart]), hquote]

/-- The markers in the text of a draft are those that its values get.  What
comes after the text must not continue a marker at its end. -/
theorem markersFrom_text (hd : d.QuotesApart) (h : p.Composed fun s => ':' ∉ s.toList)
    {c : Collector} (hc : c.style = .named) {rest : List Char}
    (hrest : p.dangles = true → EndsWord rest) :
    markersFrom ((p.text d c).toList ++ rest) = c.markersFor p.bindings ++ markersFrom rest := by
  induction h generalizing c rest with
  | code hs => exact markersFrom_append_of_not_mem (colon_not_mem_of_isCode hs) rest
  | raw hs => exact markersFrom_append_of_not_mem hs rest
  | identifier i =>
    exact markersFrom_append_of_not_mem (colon_not_mem_quoteIdentifier hd i.isCode_text) rest
  | label a => exact markersFrom_append_of_not_mem (colon_not_mem_quoteAlias hd a.isCode_text) rest
  | quotedChar ch => exact markersFrom_charLiteral hd ch rest
  | value b =>
    obtain ⟨w, hw, hmarker⟩ := Collector.exists_word_record hc b
    have hofList : String.ofList (':' :: w) = (c.record b.value b.type b.hint).1 := by
      rw [← hmarker, String.ofList_toList]
    rw [text_value, hmarker, List.cons_append, markersFrom_marker hw (hrest rfl), hofList]
    rfl
  | @append p q _ _ seam ihp ihq =>
    have hnext : p.dangles = true → EndsWord ((q.text d (p.after c)).toList ++ rest) :=
      endsWord_seam hd seam hrest _
    have hlast : q.dangles = true → EndsWord rest := by
      intro hq
      exact hrest (by rw [dangles_append, hq, Bool.true_or])
    rw [text_append, String.toList_append, List.append_assoc, ihp hc hnext,
      ihq (by rw [style_after, hc]) hlast, bindings_append, Collector.markersFor_append,
      List.append_assoc]
    rfl
  | @enclosed p _ ih =>
    have hparen : EndsWord (')' :: rest) := show isWordChar ')' = false by decide
    have htext : ((enclosed p).text d c).toList ++
      rest = '(' :: ((p.text d c).toList ++ ')' :: rest) := by
      simp [SqlTree.enclosed]
    rw [htext, markersFrom_cons_of_ne (by decide), ih hc (fun _ => hparen), markersFrom_cons_of_ne
      (by decide), bindings_enclosed]
  | @requoted names p hnames _ ih =>
    have hcolons : ∀ name ∈ names.map String.toList, ':' ∉ name := by
      intro name hname
      obtain ⟨s, hs, rfl⟩ := List.mem_map.1 hname
      exact colon_not_mem_of_isCode (isCode_of_isName (hnames s hs))
    have hquoted := d.requoted_quotePrefixes names (p.text d c)
    rw [text_requoted, hquoted.markersFrom_eq hd hcolons (fun _ h => by cases h), ih hc hrest,
      bindings_requoted]

end Draft

/-! ## Statements -/

namespace Dialect

variable {d : Dialect}

theorem Shipped.quotesApart (h : d.Shipped) (hquotes : d.HasUsualQuotes) : d.QuotesApart := by
  have hvalue := h.valueQuote_eq
  simp only [HasUsualQuotes, List.mem_cons, Prod.mk.injEq, List.not_mem_nil, or_false] at hquotes
  rcases hquotes with ⟨hleft, hright⟩ | ⟨hleft, hright⟩ | ⟨hleft, hright⟩ <;>
    constructor <;> simp only [hvalue, hleft, hright] <;> decide

end Dialect

/-- In the text of the draft of a node with named markers, the markers that one
reads from left to right are the keys that its values get, each of them
once. -/
theorem Node.markersIn_draft {k : Kind} {n : Node k}
    (hcolon : ∀ raw ∈ Node.raws k n, ':' ∉ raw.text.toList)
    (hend : ∀ template, .template template ∈ Node.raws k n →
      placeholdersEnd (pieces template) = true)
    {d : Dialect} (hd : d.Shipped) (hstyle : d.style = .named) (hquotes : d.HasUsualQuotes)
    {p : Draft} (hp : Node.draft d.constructs k n = .ok p) :
    (markersIn (p.text d (.empty d.style))).map Key.named =
        (p.after (.empty d.style)).entries.map Entry.key ∧
      (markersIn (p.text d (.empty d.style))).Nodup := by
  have hallows : ∀ raw ∈ Node.raws k n, raw.Allows fun s => ':' ∉ s.toList := by
    intro raw hraw
    cases raw with
    | literal l => exact hcolon _ hraw
    | template text =>
      refine ⟨hend text hraw, fun part hpart hmem => hcolon _ hraw ?_⟩
      rw [RawSql.text, ← flatMap_source_pieces]
      exact List.mem_flatMap.2 ⟨part, hpart, by simpa using hmem⟩
  have hcomposed := Node.draft_composed hd.plain hallows p hp
  have hmarkers : markersIn (p.text d (.empty d.style)) = (Collector.empty d.style).markersFor
    p.bindings := by
    have htext :=
      Draft.markersFrom_text (hd.quotesApart hquotes) hcomposed (c := .empty d.style) hstyle
      fun _ => (rfl : EndsWord [])
    simpa [markersIn, markersFrom] using htext
  have hkeys : (markersIn (p.text d (.empty d.style))).map Key.named =
      (p.after (.empty d.style)).entries.map Entry.key := by
    rw [hmarkers, Draft.after, Collector.keys_bindAll (c := .empty d.style) hstyle]
    rfl
  refine ⟨hkeys, .of_map Key.named ?_⟩
  rw [hkeys]
  exact Collector.nodup_keys_bindAll (c := .empty d.style) hstyle List.nodup_nil _

/-- In a compiled statement, join or group with named markers, the markers
that one reads from left to right are the keys of its collector, in the same
order and each of them once.  Its raw SQL must have no colons, and nothing
in its templates may run into a placeholder from behind. -/
theorem Reachable.markersIn_eq_keys {k : Kind} {n : Node k} (h : Reachable k n)
    (hk : Node.keepsText k = true) (hcolon : ∀ raw ∈ Node.raws k n, ':' ∉ raw.text.toList)
    (hend : ∀ template, .template template ∈ Node.raws k n →
      placeholdersEnd (pieces template) = true)
    {d : Dialect} (hd : d.Shipped) (hstyle : d.style = .named) (hquotes : d.HasUsualQuotes)
    {sql : String} (hsql : answer (Node.compile d k n) = .ok sql) :
    ∃ c, Node.collector? k (left (Node.compile d k n)) = some c ∧
      (markersIn sql).map Key.named = c.entries.map Entry.key ∧ (markersIn sql).Nodup := by
  obtain ⟨p, hp, rfl, hcollector⟩ := Node.draft_of_compile hd h.coherent hsql
  rw [if_pos hk] at hcollector
  exact ⟨_, hcollector, Node.markersIn_draft hcolon hend hd hstyle hquotes hp⟩

/-- A group of a range and of raw SQL. -/
theorem Reachable.markersIn_eq_keys_of_range :
    let p : Predicate := .between (.identifier ⟨"a", rfl⟩) false (.value (.int 1)) (.value (.int 2))
    let g : Group := left
      (Group.add (.raw "b = c") (left (Group.add (.predicate p) (Group.empty .or))))
    Reachable .group g ∧
      answer (Node.compile Dialect.ansi .group g) =
        .ok "\"a\" BETWEEN :between1 AND :between2 OR b = c" ∧
      ∃ c, Node.collector? .group (left (Node.compile Dialect.ansi .group g)) = some c ∧
        [":between1", ":between2"].map Key.named = c.entries.map Entry.key := by
  intro p g
  have hp : Reachable .predicate p :=
    .made (.between (.identifier ⟨"a", rfl⟩) false (.value (.int 1)) (.value (.int 2)))
      (fun _ h => by cases h) rfl
  have hempty : Reachable .group (Group.empty .or) := .made (.group .or) (fun _ h => nomatch h) rfl
  have hadded := Reachable.called .here (.change (.add (.predicate p))) hempty fun u hu => by
    cases List.mem_singleton.1 hu
    exact hp
  have hg : Reachable .group g :=
    .called .here (.change (.add (.raw "b = c"))) hadded fun _ h => nomatch h
  have hraws : Node.raws .group g = [.literal ⟨"b = c", rfl⟩] := rfl
  have hsql : answer (Node.compile Dialect.ansi .group g) =
      .ok "\"a\" BETWEEN :between1 AND :between2 OR b = c" := rfl
  have hcolon : ∀ raw ∈ Node.raws .group g, ':' ∉ raw.text.toList := by
    rw [hraws]
    simp [RawSql.text]
  have hend : ∀ template, .template template ∈ Node.raws .group g → placeholdersEnd
    (pieces template) = true := by
    rw [hraws]
    simp
  obtain ⟨c, hc, hkeys, -⟩ :=
    Reachable.markersIn_eq_keys hg rfl hcolon hend (.config .standard) rfl (.head _) hsql
  refine ⟨hg, hsql, c, hc, ?_⟩
  rw [← hkeys]
  rfl

end SqlTree
