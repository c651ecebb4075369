import SqlTree.Proofs.Layout.Nesting
import SqlTree.Proofs.Layout.Spread

/-!
# SqlTree.Proofs.Layout.Node

Looking pretty is a matter of layout.  Selects that differ in their wishes for
it only (`Select.flat`) compile to the same values, and to texts that come to
the same on one line; where they fail, they fail alike
(`Select.compilesAlike_of_flat_eq`).  The layout itself follows the depth: the
subquery at depth `k + 1` begins `k + 1` levels in and closes `k` levels in,
however the selects were put together (`Reachable.pretty_changes_layout`).

A dialect that takes the newline for a quote of names is left out of the first
part, as it cannot tell layout from quotes (`Reachable.newline_quote_is_no_layout`).
-/

namespace SqlTree

theorem Dialect.Shipped.quotesInLine {d : Dialect} (hd : d.Shipped) (hleft : d.leftQuote ≠ '\n')
    (hright : d.rightQuote ≠ '\n') : d.QuotesInLine :=
  ⟨hd.valueQuote_eq, hleft, hright⟩

namespace Select

variable {d : Dialect} {s s' t inner : Select} {k : Nat}

/-! ## The same on one line -/

/-- Two selects bind the same values and fail with the same errors, and their
texts come to the same on one line: by themselves and in any collector. -/
structure CompilesAlike (d : Dialect) (s s' : Select) : Prop where
  text : (answer (Node.compile d .select s)).map onOneLine =
    (answer (Node.compile d .select s')).map onOneLine
  values : Node.collector? .select (left (Node.compile d .select s)) =
    Node.collector? .select (left (Node.compile d .select s'))
  textInto : ∀ c, (answer (Node.compileInto d .select s c)).map onOneLine =
    (answer (Node.compileInto d .select s' c)).map onOneLine
  valuesInto : ∀ c, (left (Node.compileInto d .select s c)).2 =
    (left (Node.compileInto d .select s' c)).2

/-- Selects that differ in layout only compile alike. -/
theorem compilesAlike_of_flat_eq (hd : d.Shipped) (hquotes : d.QuotesInLine) (hs : s.Coherent)
    (hs' : s'.Coherent) (hflat : s.flat = s'.flat) : s.CompilesAlike d s' := by
  have halike := (s.draft_alike d.constructs hquotes).join
    (hflat ▸ s'.draft_alike d.constructs hquotes)
  obtain ⟨-, hanswer, hkept⟩ := Node.compile_follows hd (k := .select) hs
  obtain ⟨-, hanswer', hkept'⟩ := Node.compile_follows hd (k := .select) hs'
  have hinto := Node.collector_compileInto hd (k := .select) hs
  have hinto' := Node.collector_compileInto hd (k := .select) hs'
  simp only [Node.draft] at hanswer hanswer' hkept hkept' hinto hinto'
  generalize s.draft d.constructs = drafted at halike hanswer hkept hinto
  generalize s'.draft d.constructs = drafted' at halike hanswer' hkept' hinto'
  cases halike with
  | error e =>
    exact ⟨by rw [hanswer, hanswer'], by rw [hkept, hkept'],
      fun c => by rw [(hinto c).1, (hinto' c).1], fun c => by rw [(hinto c).2, (hinto' c).2]⟩
  | @ok p p' h =>
    obtain ⟨q, hp, hp'⟩ := h
    have htext (c : Collector) : onOneLine (p.text d c) = onOneLine (p'.text d c) :=
      (hp.text c).onOneLine_eq.trans (hp'.text c).onOneLine_eq.symm
    have hafter (c : Collector) : p.after c = p'.after c :=
      (hp.after_eq c).trans (hp'.after_eq c).symm
    refine ⟨?_, ?_, fun c => ?_, fun c => ?_⟩
    · rw [hanswer, hanswer']
      exact congrArg Except.ok (htext _)
    · rw [hkept, hkept']
      exact congrArg some (hafter _)
    · rw [(hinto c).1, (hinto' c).1]
      exact congrArg Except.ok (htext c)
    · rw [(hinto c).2, (hinto' c).2]
      exact hafter c

/-! ## Subqueries on lines of their own -/

theorem exists_of_originSelect? (h : s.originSelect? = some inner) :
    ∃ a, s.origin? = some (.subquery inner a) := by
  unfold originSelect? at h
  split at h
  · next a horigin =>
    cases h
    exact ⟨a, horigin⟩
  · cases h

theorem originSelect_mem_uses (h : s.originSelect? = some inner) : ⟨.select, inner⟩ ∈ s.uses := by
  obtain ⟨a, horigin⟩ := exists_of_originSelect? h
  refine List.mem_append_right _ (List.mem_append_left _ ?_)
  rw [horigin]
  exact List.mem_singleton_self _

/-- The selects down the subqueries are within the one on top. -/
theorem within_of_originAt (h : s.originAt k = some t) :
    AnyNode.Within ⟨.select, t⟩ ⟨.select, s⟩ := by
  induction k generalizing s with
  | zero =>
    cases h
    exact .refl _
  | succ k ih =>
    obtain ⟨inner, horigin, h⟩ := Option.bind_eq_some_iff.1 h
    exact .step (originSelect_mem_uses horigin) (ih h)

/-- A select that is to look pretty spreads its subquery over lines of their
own, whatever select it is in. -/
theorem draft_spreads (hd : d.Shipped) (ht : AnyNode.Within ⟨.select, t⟩ ⟨.select, s⟩)
    (hinner : t.originSelect? = some inner) (hpretty : t.pretty = true)
    (hnesting : inner.nesting = t.nesting + 1) {p : Draft} (hp : s.draft d.constructs = .ok p) :
    ∃ own, inner.draft d.constructs = .ok own ∧ Draft.Spreads d t.nesting own p := by
  obtain ⟨q, hq, hpart⟩ := ht.draftedIn hp
  obtain ⟨parts, hmade, haround⟩ := exists_madeOf (s := t) hq
  obtain ⟨a, horigin⟩ := exists_of_originSelect? hinner
  have hplan := hmade.origin
  rw [horigin, hpretty, originDraft, hnesting] at hplan
  obtain ⟨own, hown, hsubquery⟩ := exists_of_map_eq_ok hplan
  have hspreads := Draft.spreads_subqueryOrigin (inner.draft_opens d d.constructs own hown)
    t.nesting a
  rw [hsubquery] at hspreads
  have hwhole : Draft.Part parts.origin p :=
    ((Draft.Part.select_origin parts rfl).trans (.requoted (.refl _))).trans
      ((Draft.aroundSelect_part d.constructs t.page q haround).trans hpart)
  have hraws : ∀ raw ∈ Node.raws .select s, raw.Meets fun _ => True := fun raw _ => by
    cases raw with
    | literal l => trivial
    | template text => exact fun _ _ => trivial
  have hwritten : p.Written (d.constructs.rowNumbers = true) fun _ => True :=
    Node.draft_written hd.undotted hraws p hp
  exact ⟨own, hown, hspreads.of_part hwhole hwritten.isName_levels⟩

/-- Below a root it is spread at its own depth. -/
theorem Rooted.exists_spreadAt (hroot : s.Rooted) (hd : d.Shipped) (ht : s.originAt k = some t)
    (hinner : t.originSelect? = some inner) (hpretty : t.pretty = true) {p : Draft}
    (hp : s.draft d.constructs = .ok p) (c : Collector) :
    ∃ c' own, answer (Node.compileInto d .select inner c') = .ok own ∧
      d.SpreadAt k own (p.text d c) := by
  have hbelow := originAt_succ ht hinner
  have hdepth : t.nesting = k := (hroot.nestedFrom k t ht).trans (Nat.zero_add k)
  have hnesting : inner.nesting = t.nesting + 1 := by
    rw [hroot.nestedFrom (k + 1) inner hbelow, hdepth, Nat.zero_add]
  have hcoherent := (within_of_originAt hbelow).coherent hroot.reachable.coherent
  obtain ⟨q, hq, hspreads⟩ := draft_spreads hd (within_of_originAt ht) hinner hpretty hnesting hp
  obtain ⟨c', hspread⟩ := hspreads c
  refine ⟨c', q.text d c', ?_, hdepth ▸ hspread⟩
  rw [Node.answer_compileInto hd hcoherent]
  exact congrArg _ hq

end Select

/-- Whatever has been done to two selects before, if they differ in what is to
look pretty only, then by themselves and in any collector they compile to the
same values, and to the same text once every newline is deleted with the
blanks behind it.  If one of them stands on one line anyway, this is its text.
Neither quote of names must be a newline.

Where the select is a root, the select `k` levels down counts `k` levels.  If
it is to look pretty, then in whatever the root compiles to its subquery begins
on a line of its own that is `k + 1` levels in, and the closing parenthesis
stands on another one, `k` levels in. -/
theorem Reachable.pretty_changes_layout {s : Select} (h : Reachable .select s) {d : Dialect}
    (hd : d.Shipped) :
    (d.leftQuote ≠ '\n' → d.rightQuote ≠ '\n' → ∀ s' : Select, Reachable .select s' →
      s.flat = s'.flat → s.CompilesAlike d s' ∧
        ∀ sql sql', answer (Node.compile d .select s) = .ok sql →
          answer (Node.compile d .select s') = .ok sql' → '\n' ∉ sql'.toList →
          onOneLine sql = sql') ∧
    (s.Rooted → ∀ k t, s.originAt k = some t → t.nesting = k ∧
      (t.pretty = true → ∀ inner, t.originSelect? = some inner → ∀ c sql,
        answer (Node.compile d .select s) = .ok sql ∨
          answer (Node.compileInto d .select s c) = .ok sql →
        ∃ c' own, answer (Node.compileInto d .select inner c') = .ok own ∧
          d.SpreadAt k own sql)) := by
  refine ⟨fun hleft hright s' h' hflat => ?_, fun hroot k t ht => ?_⟩
  · have halike := Select.compilesAlike_of_flat_eq hd (hd.quotesInLine hleft hright) h.coherent
      h'.coherent hflat
    refine ⟨halike, fun sql sql' hsql hsql' hline => ?_⟩
    have htext := halike.text
    rw [hsql, hsql'] at htext
    exact (Except.ok.inj htext).trans (onOneLine_of_not_mem hline)
  refine ⟨(hroot.nestedFrom k t ht).trans (Nat.zero_add k), fun hpretty inner hinner c sql hsql => ?_⟩
  rcases hsql with hsql | hsql
  · obtain ⟨p, hp, rfl, -⟩ := Node.draft_of_compile hd h.coherent hsql
    exact hroot.exists_spreadAt hd ht hinner hpretty hp _
  · obtain ⟨p, hp, rfl, -⟩ := Node.draft_of_compileInto hd h.coherent hsql
    exact hroot.exists_spreadAt hd ht hinner hpretty hp c

/-- The rows of a table, taken through two subqueries that are to look pretty,
or not. -/
def Select.chain (spread : Bool) : Select :=
  let called (b : Builder .select) (s : Select) : Select := (Call.build b).act s
  let inner := called (.pretty spread)
    (called (.fromSubquery (called (.fromTable "event") Select.empty) "e") Select.empty)
  called (.pretty spread) (called (.fromSubquery inner "x") Select.empty)

theorem Select.rooted_chain (spread : Bool) : (Select.chain spread).Rooted := by
  let called (b : Builder .select) (s : Select) : Select := (Call.build b).act s
  let event := called (.fromTable "event") Select.empty
  let inner := called (.pretty spread) (called (.fromSubquery event "e") Select.empty)
  have hfrom : Reachable .select (called (.fromSubquery event "e") Select.empty) :=
    .built_using .new (.fromTable "event") rfl
  have hinner : Reachable .select inner := .built hfrom rfl
  have hattached : (called (.fromSubquery inner "x") Select.empty).Rooted :=
    .called .here (.build (.fromSubquery inner "x")) .new
      (fun u hu => List.mem_singleton.1 hu ▸ hinner) trivial
  exact .called .here (.build (.pretty spread)) hattached (List.forall_mem_nil _) trivial

theorem Reachable.pretty_changes_layout_of_chain :
    let d := Config.standard.dialect
    let s := Select.chain true
    let s' := Select.chain false
    let sql := "SELECT \"x\".* FROM (\n    SELECT \"e\".* FROM (\n        " ++
      "SELECT * FROM \"event\"\n    ) \"e\"\n) \"x\""
    let sql' := "SELECT \"x\".* FROM (SELECT \"e\".* FROM (SELECT * FROM \"event\") \"e\") \"x\""
    Reachable .select s ∧ Reachable .select s' ∧ d.Shipped ∧ s.flat = s'.flat ∧ s.Rooted ∧
      answer (Node.compile d .select s) = .ok sql ∧ answer (Node.compile d .select s') = .ok sql' ∧
      onOneLine sql = sql' ∧
      ∃ t inner, s.originAt 1 = some t ∧ t.nesting = 1 ∧ t.originSelect? = some inner ∧
        ∃ c own, answer (Node.compileInto d .select inner c) = .ok own ∧ d.SpreadAt 1 own sql := by
  intro d s s' sql sql'
  have hsql : answer (Node.compile d .select s) = .ok sql := by
    refine eq_ok_of_toOption ?_
    decide +kernel
  have hsql' : answer (Node.compile d .select s') = .ok sql' := by
    refine eq_ok_of_toOption ?_
    decide +kernel
  have hflat : s.flat = s'.flat := rfl
  have hroot := Select.rooted_chain true
  have hs' := (Select.rooted_chain false).reachable
  obtain ⟨halike, hlayout⟩ := Reachable.pretty_changes_layout hroot.reachable (d := d)
    (.config .standard)
  obtain ⟨-, hline⟩ := halike (by decide) (by decide) s' hs' hflat
  obtain ⟨hnesting, hspread⟩ := hlayout hroot 1 _ rfl
  exact ⟨hroot.reachable, hs', .config .standard, hflat, hroot, hsql, hsql',
    hline sql sql' hsql hsql' (by decide), _, _, rfl, hnesting, rfl,
    hspread rfl _ rfl (.empty .named) sql (.inl hsql)⟩

/-- The rows of a subquery whose column has a prefix, joined with the table
that the prefix names.  The raw SQL in front of it opens a bracket. -/
def Select.prefixed (spread : Bool) : Select :=
  let called (b : Builder .select) (s : Select) : Select := (Call.build b).act s
  let raw (l : Literal) : Builder .select := .column (.reference (.literal l)) none
  let inner := called (.fromTable "u") (called (raw ⟨"v.id", by decide⟩) Select.empty)
  called (.pretty spread) (called (.join (Join.ofTarget .inner (.table ⟨"v", rfl⟩)))
    (called (.fromSubquery inner "s") (called (raw ⟨"[", by decide⟩) Select.empty)))

theorem Select.reachable_prefixed (spread : Bool) :
    Reachable .select (Select.prefixed spread) := by
  let called (b : Builder .select) (s : Select) : Select := (Call.build b).act s
  let raw (l : Literal) : Select := called (.column (.reference (.literal l)) none) Select.empty
  have hraw (l : Literal) : Reachable .select (raw l) := .built .new rfl
  let inner := called (.fromTable "u") (raw ⟨"v.id", by decide⟩)
  have hinner : Reachable .select inner := .built (hraw _) rfl
  let outer := called (.fromSubquery inner "s") (raw ⟨"[", by decide⟩)
  have houter : Reachable .select outer := .built_using (hraw _) hinner rfl
  let j := Join.ofTarget .inner (.table ⟨"v", rfl⟩)
  have hj : Reachable .join j := .made (.table .inner "v") (List.forall_mem_nil _) rfl
  have hjoined : Reachable .select (called (.join j) outer) := .built_using houter hj rfl
  exact .built (b := .pretty spread) hjoined rfl

/-- A dialect may take the newline for a quote of names.  If it opens a name,
what stands behind a newline of the layout is read as a name up to the next
closing quote, and a prefix in it goes without quotes.  If it closes a name, a
newline of the layout ends what a quote in raw SQL has opened, and a prefix
behind it is quoted that was not before. -/
theorem Reachable.newline_quote_is_no_layout :
    let s := Select.prefixed true
    let s' := Select.prefixed false
    let opening := Config.dialect { Config.standard with leftQuote := '\n', rightQuote := ']' }
    let closing := Config.dialect { Config.standard with leftQuote := '[', rightQuote := '\n' }
    let hidden := "SELECT [ FROM (\n    SELECT v.id FROM \nu]\n) \ns] INNER JOIN \nv]"
    let quoted := "SELECT [ FROM (SELECT \nv].id FROM \nu]) \ns] INNER JOIN \nv]"
    let shown := "SELECT [ FROM (\n    SELECT [v\n.id FROM [u\n\n) [s\n INNER JOIN [v\n"
    let unquoted := "SELECT [ FROM (SELECT v.id FROM [u\n) [s\n INNER JOIN [v\n"
    Reachable .select s ∧ Reachable .select s' ∧ s.flat = s'.flat ∧
      (Node.raws .select s).map RawSql.text = ["[", "v.id"] ∧
      (opening.Shipped ∧ answer (Node.compile opening .select s) = .ok hidden ∧
        answer (Node.compile opening .select s') = .ok quoted ∧
        onOneLine hidden ≠ onOneLine quoted) ∧
      closing.Shipped ∧ answer (Node.compile closing .select s) = .ok shown ∧
        answer (Node.compile closing .select s') = .ok unquoted ∧
        onOneLine shown ≠ onOneLine unquoted := by
  intro s s' opening closing hidden quoted shown unquoted
  refine ⟨Select.reachable_prefixed true, Select.reachable_prefixed false, rfl, by decide +kernel,
    ⟨.config _, eq_ok_of_toOption ?_, eq_ok_of_toOption ?_, by decide +kernel⟩, .config _, eq_ok_of_toOption ?_,
    eq_ok_of_toOption ?_, by decide +kernel⟩ <;> decide +kernel

end SqlTree
