import SqlTree.Proofs.Caching.Transparency
import SqlTree.Proofs.Fragment.Aligned
import SqlTree.Proofs.Written.Tree

/-!
# SqlTree.Proofs.Fragment.Node

A fragment does not depend on what the collector already holds.  Compiled
into any two collectors of one style it comes to the same error, or it adds
the same values in the same order to both, and its two texts are the same up
to the markers (`Reachable.compileInto_alike`): with question marks they are
equal, and with named markers they are woven from the same pieces.
-/

namespace SqlTree

/-- What an entry binds, whatever its key is. -/
def Entry.bound (e : Entry) : Value × BindType := (e.value, e.type)

namespace Draft

variable {d : Dialect} {p q : Draft}

/-! ## With question marks -/

/-- The text has the same question marks for every collector. -/
theorem text_eq_of_positional {c c' : Collector} (hc : c.style = .positional)
    (hc' : c'.style = .positional) : p.text d c = p.text d c' := by
  induction p generalizing c c' with
  | value b => rw [text_value, text_value, Collector.record, Collector.record, hc, hc']
  | append p q ihp ihq =>
    have hq : q.text d (p.after c) = q.text d (p.after c') :=
      ihq (by rw [style_after, hc]) (by rw [style_after, hc'])
    change p.text d c ++ q.text d (p.after c) = p.text d c' ++ q.text d (p.after c')
    rw [ihp hc hc', hq]
  | requoted names p ih => rw [text_requoted, text_requoted, ih hc hc']
  | _ => rfl

/-! ## With named markers -/

/-- The texts for any two collectors of named markers are aligned at the
markers that these give. -/
def Aligns (d : Dialect) (p : Draft) : Prop :=
  ∀ ⦃c c' : Collector⦄, c.style = .named → c'.style = .named →
    Aligned (c.markersFor p.bindings) (c'.markersFor p.bindings) (p.text d c).toList
      (p.text d c').toList

namespace Aligns

theorem of_bindings_eq_nil (h : p.bindings = []) : p.Aligns d := by
  intro c c' _ _
  rw [h, text_eq_of_bindings_eq_nil h c c']
  exact .refl _

theorem value (b : Binding) : (value b).Aligns d := by
  intro c c' hc hc'
  have htext {c : Collector} (hc : c.style = .named) : ((Draft.value b).text d c).toList =
      ':' :: ((hintWord b.hint).toList ++
        ((toString (c.nextNumber (hintWord b.hint))).toList ++ [])) := by
    rw [text_value, Collector.record, hc, List.append_nil]
    exact Collector.toList_markerOf _ _
  have hmarkers {c : Collector} (hc : c.style = .named) : c.markersFor (Draft.value b).bindings =
      [Collector.markerOf (hintWord b.hint) (c.nextNumber (hintWord b.hint))] := by
    rw [bindings_value, Collector.markersFor, Collector.record, hc]
    rfl
  rw [htext hc, htext hc', hmarkers hc, hmarkers hc']
  exact .marker (isWord_hintWord b.hint) .nil

theorem append (hp : p.Aligns d) (hq : q.Aligns d) : (p ++ q).Aligns d := by
  intro c c' hc hc'
  simp only [bindings_append, Collector.markersFor_append, text_append, String.toList_append]
  exact (hp hc hc').append (hq (by rw [← hc]; exact style_after) (by rw [← hc']; exact style_after))

theorem requoted (hd : d.QuotesNoDigit) {names : List String}
    (hnames : ∀ name ∈ names, isName name = true) (hp : p.Aligns d) :
    (requoted names p).Aligns d := by
  intro c c' hc hc'
  have hcolons : ∀ name ∈ names.map String.toList, ':' ∉ name := by
    intro name hname
    obtain ⟨s, hs, rfl⟩ := List.mem_map.1 hname
    exact not_mem_of_isName (by rw [String.ofList_toList]; exact hnames s hs) (by decide)
  simp only [text_requoted, Dialect.quotePrefixes, String.toList_ofList]
  exact (hp hc hc').requoted_from hd hcolons (.outside rfl)

end Aligns

/-- Whatever raw SQL a draft has in it, its texts are aligned. -/
theorem Written.aligns {R : Prop} {P : String → Prop} (h : Written R P p)
    (hd : d.QuotesNoDigit) : p.Aligns d := by
  have hcode (s : String) : (Draft.code s).Aligns d := .of_bindings_eq_nil rfl
  induction h with
  | value b => exact .value b
  | append _ _ ihp ihq => exact ihp.append ihq
  | numbered _ _ _ ihp ihrest =>
    exact (hcode _).append (((hcode _).append (ihp.append (hcode _))).append
      ((hcode _).append ihrest))
  | requoted hnames _ ih => exact ih.requoted hd hnames
  | code | raw | identifier | label | quotedChar | qualifiedStar => exact .of_bindings_eq_nil rfl

end Draft

/-! ## Nodes -/

theorem Dialect.Shipped.quotesNoDigit {d : Dialect} (h : d.Shipped)
    (hleft : d.leftQuote.isDigit = false) (hright : d.rightQuote.isDigit = false) :
    d.QuotesNoDigit :=
  ⟨by rw [h.valueQuote_eq]; rfl, hleft, hright⟩

/-- A select with a value in its condition, and behind it raw SQL that refers
to its table. -/
def Select.referring : Select :=
  let p : Predicate := .comparison (.identifier ⟨"n", rfl⟩) .eq (.value (.int 1))
  let called (b : Builder .select) (s : Select) : Select := (Call.build b).act s
  called (.selectWhere (.raw "t.b = 2"))
    (called (.selectWhere (.predicate p)) (called (.fromTable "t") Select.empty))

theorem Select.reachable_referring : Reachable .select Select.referring := by
  let p : Predicate := .comparison (.identifier ⟨"n", rfl⟩) .eq (.value (.int 1))
  have hp : Reachable .predicate p :=
    .made (.comparison (.identifier ⟨"n", rfl⟩) .eq (.value (.int 1))) (fun _ h => by cases h) rfl
  have hempty : Reachable .select Select.empty := .made .select (fun _ h => nomatch h) rfl
  have hfrom := Reachable.called .here (.build (.fromTable "t")) hempty fun _ h => nomatch h
  have htested := Reachable.called .here (.build (.selectWhere (.predicate p))) hfrom
    fun u hu => by
      cases List.mem_singleton.1 hu
      exact hp
  exact .called .here (.build (.selectWhere (.raw "t.b = 2"))) htested fun _ h => nomatch h

/-- A fragment compiles into any two collectors of one style alike, whatever
they hold.  Either it comes to the same error and leaves both as they were,
or it adds entries with the same values and types to both, which are also
those of the fragment by itself.  The two texts are equal if the markers are
positional; if they are named, the texts are woven from the same pieces and
the markers of the new entries, provided that no digit is taken for a quote. -/
theorem Reachable.compileInto_alike {k : Kind} {n : Node k} (h : Reachable k n) {d : Dialect}
    (hd : d.Shipped) {c c' : Collector} (hstyle : c.style = c'.style) :
    (∃ e, answer (Node.compileInto d k n c) = .error e ∧
      answer (Node.compileInto d k n c') = .error e ∧
      (left (Node.compileInto d k n c)).2 = c ∧ (left (Node.compileInto d k n c')).2 = c') ∨
    ∃ sql sql' added added', answer (Node.compileInto d k n c) = .ok sql ∧
      answer (Node.compileInto d k n c') = .ok sql' ∧
      (left (Node.compileInto d k n c)).2.entries = c.entries ++ added ∧
      (left (Node.compileInto d k n c')).2.entries = c'.entries ++ added' ∧
      added.map Entry.bound = added'.map Entry.bound ∧
      (Node.keepsText k = true → ∃ root, Node.collector? k (left (Node.compile d k n)) = some root ∧
        root.entries.map Entry.bound = added.map Entry.bound) ∧
      (c.style = .positional → sql = sql') ∧
      (c.style = .named → d.leftQuote.isDigit = false → d.rightQuote.isDigit = false →
        ∃ pieces, pieces.length = added.length + 1 ∧
          sql = woven pieces (added.map fun e => e.key.marker) ∧
          sql' = woven pieces (added'.map fun e => e.key.marker)) := by
  obtain ⟨hanswer, hafter⟩ := Node.collector_compileInto hd h.coherent c
  obtain ⟨hanswer', hafter'⟩ := Node.collector_compileInto hd h.coherent c'
  cases hdraft : Node.draft d.constructs k n with
  | error e =>
    rw [hdraft] at hanswer hanswer' hafter hafter'
    exact .inl ⟨e, hanswer, hanswer', hafter, hafter'⟩
  | ok p =>
    rw [hdraft] at hanswer hanswer' hafter hafter'
    have hends : (left (Node.compileInto d k n c)).2 = c.bindAll p.bindings := hafter
    have hends' : (left (Node.compileInto d k n c')).2 = c'.bindAll p.bindings := hafter'
    obtain ⟨added, hadded, hbound, hmarkers⟩ := c.entries_bindAll p.bindings
    obtain ⟨added', hadded', hbound', hmarkers'⟩ := c'.entries_bindAll p.bindings
    refine .inr ⟨p.text d c, p.text d c', added, added', hanswer, hanswer', by rw [hends, hadded],
      by rw [hends', hadded'], hbound.trans hbound'.symm, fun hkeeps => ?_, fun hpositional => ?_,
      fun hnamed hleft hright => ?_⟩
    · obtain ⟨-, -, hroot⟩ := Node.compile_follows hd h.coherent
      rw [if_pos hkeeps, hdraft] at hroot
      obtain ⟨own, hown, hownBound, -⟩ := (Collector.empty d.style).entries_bindAll p.bindings
      refine ⟨_, hroot, ?_⟩
      have hentries : (p.after (Collector.empty d.style)).entries = own := hown
      change (p.after (Collector.empty d.style)).entries.map Entry.bound = _
      rw [hentries]
      exact hownBound.trans hbound.symm
    · exact Draft.text_eq_of_positional hpositional (by rw [← hstyle, hpositional])
    · have hwritten := Node.draft_written (P := fun _ => True) hd.undotted
        (fun raw _ => by cases raw with | literal => trivial | template => exact fun _ _ => trivial)
        p hdraft
      have hnamed' : c'.style = .named := by rw [← hstyle, hnamed]
      have haligned := hwritten.aligns (hd.quotesNoDigit hleft hright) hnamed hnamed'
      rw [← hmarkers, ← hmarkers'] at haligned
      obtain ⟨pieces, hlength, hsql, hsql'⟩ := haligned.exists_pieces
      rw [String.ofList_toList] at hsql hsql'
      exact ⟨pieces, by rw [hlength, List.length_map], hsql, hsql'⟩

/-- That select, compiled into an empty collector and into one that holds the
first marker of its hint already. -/
theorem Reachable.compileInto_alike_of_select :
    let c := Collector.empty .named
    let c' := (c.create (.int 0) none (some "eq")).2
    Reachable .select Select.referring ∧ Dialect.ansi.Shipped ∧ c.style = c'.style ∧
      ∃ pieces,
        answer (Node.compileInto Dialect.ansi .select Select.referring c) =
          .ok (woven pieces [":eq1"]) ∧
        answer (Node.compileInto Dialect.ansi .select Select.referring c') =
          .ok (woven pieces [":eq2"]) := by
  intro c c'
  refine ⟨Select.reachable_referring, .config .standard, rfl, ?_⟩
  have hmarkers : (left (Node.compileInto Dialect.ansi .select Select.referring c)).2.entries.map
      (fun e => e.key.marker) = [":eq1"] := by decide +kernel
  have hmarkers' : (left (Node.compileInto Dialect.ansi .select Select.referring c')).2.entries.map
      (fun e => e.key.marker) = [":eq1", ":eq2"] := by decide +kernel
  have hsome :
      (answer (Node.compileInto Dialect.ansi .select Select.referring c)).toOption.isSome = true := by
    decide +kernel
  have hstyle : c.style = c'.style := rfl
  have halike := compileInto_alike Select.reachable_referring (.config .standard) hstyle
  rcases halike with ⟨e, herror, -⟩ |
    ⟨sql, sql', added, added', hsql, hsql', hadded, hadded', -, -, -, hwoven⟩
  · have hnone : answer (Node.compileInto Dialect.ansi .select Select.referring c) = .error e :=
      herror
    rw [hnone] at hsome
    cases hsome
  · obtain ⟨pieces, -, htext, htext'⟩ := hwoven rfl rfl rfl
    have hends : (left (Node.compileInto Dialect.ansi .select Select.referring c)).2.entries =
        c.entries ++ added := hadded
    have hends' : (left (Node.compileInto Dialect.ansi .select Select.referring c')).2.entries =
        c'.entries ++ added' := hadded'
    rw [hends, List.map_append] at hmarkers
    rw [hends', List.map_append] at hmarkers'
    have hnew : (added.map fun e => e.key.marker) = [":eq1"] := hmarkers
    have hnew' : (added'.map fun e => e.key.marker) = [":eq2"] := List.tail_eq_of_cons_eq hmarkers'
    refine ⟨pieces, hsql.trans ?_, hsql'.trans ?_⟩
    · rw [htext, hnew]
    · rw [htext', hnew']

/-- A dialect may quote names by a digit.  Then the number of a marker can
open a region, in which no name is quoted. -/
theorem Reachable.compileInto_of_digit_quotes :
    let d := Config.dialect { Config.standard with leftQuote := '1', rightQuote := '1' }
    let c := Collector.empty .named
    let c' := (c.create (.int 0) none (some "eq")).2
    Reachable .select Select.referring ∧ d.Shipped ∧
      ∃ sql sql', answer (Node.compileInto d .select Select.referring c) = .ok sql ∧
        answer (Node.compileInto d .select Select.referring c') = .ok sql' ∧
        (left (Node.compileInto d .select Select.referring c)).2.entries.map (·.key.marker) =
          [":eq1"] ∧
        (left (Node.compileInto d .select Select.referring c')).2.entries.map (·.key.marker) =
          [":eq1", ":eq2"] ∧
        ¬∃ pieces, sql = woven pieces [":eq1"] ∧ sql' = woven pieces [":eq2"] := by
  intro d c c'
  have hsql : answer (Node.compileInto d .select Select.referring c) =
      .ok "SELECT * FROM 1t1 WHERE 1n1 = :eq1 AND t.b = 2" := by
    refine eq_ok_of_toOption ?_
    decide +kernel
  have hsql' : answer (Node.compileInto d .select Select.referring c') =
      .ok "SELECT * FROM 1t1 WHERE 1n1 = :eq2 AND 1t1.b = 2" := by
    refine eq_ok_of_toOption ?_
    decide +kernel
  refine ⟨Select.reachable_referring, .config _, _, _, hsql, hsql', by decide +kernel,
    by decide +kernel, ?_⟩
  -- both markers have four characters, so texts woven from the same pieces have the same length
  rintro ⟨pieces, htext, htext'⟩
  have hlength : (woven pieces [":eq1"]).length = (woven pieces [":eq2"]).length := by
    cases pieces with
    | nil => rfl
    | cons piece pieces =>
      have hmarker : ":eq1".length = ":eq2".length := by decide
      simp only [woven, String.length_append, hmarker]
  rw [← htext, ← htext'] at hlength
  exact absurd hlength (by decide)

end SqlTree
