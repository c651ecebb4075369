import SqlTree.Proofs.Caching.Transparency
import SqlTree.Proofs.Paging.Bound
import SqlTree.Proofs.Templates.Cut

/-!
# SqlTree.Proofs.Templates.Node

Expressions are their templates.  `Filling.Renders` says what stands for a
placeholder in the text: the marker of a value that is bound there, a quoted
name, SQL as it was handed in, or a select in parentheses.  `RendersAll` puts
these one after the other, each with the text that the template has behind it,
so that nothing is read a second time.  An expression compiles to what its
template begins with and what is rendered behind that, from left to right
(`Expression.renders_template`).
-/

namespace SqlTree

/-! ## Renderings -/

/-- A value is bound: `c'` holds it behind the entries of `c`, under a key that
is none of theirs. -/
structure Collector.Gives (c : Collector) (v : Value) (key : Key) (c' : Collector) : Prop where
  record : c.record v v.bindType "expr" = (key.marker, c')
  entries : c'.entries = c.entries ++ [⟨key, v, v.bindType⟩]
  named : c.style = .named → c.isTaken key.marker = false
  positional : c.style = .positional → key = .position (c.size + 1)

/-- The text for a substitution and the collector behind it. -/
inductive Filling.Renders (d : Dialect) : Filling → Collector → String → Collector → Prop where
  | value {v : Value} {c c' : Collector} {key : Key} (h : c.Gives v key c') :
      Renders d (.value v) c key.marker c'
  | identifier (i : Identifier) (c : Collector) : Renders d (.identifier i) c (i.quoted d) c
  | alias (a : Alias) (c : Collector) : Renders d (.alias a) c (a.quoted d) c
  | literal (l : Literal) (c : Collector) : Renders d (.literal l) c l.text c
  | subquery {s : Select} {c : Collector} {sql : String}
      (h : answer (s.compileInto d c) = .ok sql) :
      Renders d (.subquery s) c ("(" ++ sql ++ ")") (left (s.compileInto d c)).2

/-- The text for placeholders with the texts behind them: each placeholder is
replaced by its own substitution, and each text stays. -/
inductive RendersAll (d : Dialect) (slots : List Slot) :
    List (List Char × List Char) → Collector → String → Collector → Prop where
  | nil (c : Collector) : RendersAll d slots [] c "" c
  | cons {name text : List Char} {parts : List (List Char × List Char)} {filling : Filling}
      {c c₁ c₂ : Collector} {sql rest : String} (hslot : ⟨String.ofList name, filling⟩ ∈ slots)
      (h : filling.Renders d c sql c₁) (hrest : RendersAll d slots parts c₁ rest c₂) :
      RendersAll d slots ((name, text) :: parts) c (sql ++ (String.ofList text ++ rest)) c₂

variable {d : Dialect} {c c' : Collector} {sql : String}

/-! ## Substitutions -/

theorem Collector.gives_iff {v : Value} {key : Key} : c.Gives v key c' ↔
    key = c.nextKey "expr" ∧ c.bind ⟨v, v.bindType, "expr"⟩ = c' := by
  constructor
  · rintro ⟨hrecord, hentries, -, -⟩
    have hbind : c.bind ⟨v, v.bindType, "expr"⟩ = c' := congrArg Prod.snd hrecord
    rw [← hbind, entries_bind] at hentries
    have hlast := List.singleton_inj.1 (List.append_cancel_left hentries)
    exact ⟨congrArg Entry.key hlast.symm, hbind⟩
  · rintro ⟨rfl, rfl⟩
    refine ⟨Prod.ext (c.fst_record v _ "expr") rfl, entries_bind .., fun hstyle => ?_,
      fun hstyle => ?_⟩
    · rw [nextKey, hstyle]
      exact c.not_isTaken_nextNumber _
    · rw [nextKey, hstyle]

/-- What stands for a placeholder is what its substitution is compiled to. -/
theorem Filling.renders_iff {filling : Filling} :
    filling.Renders d c sql c' ↔ (filling.run d).Answers c sql c' := by
  cases filling with
  | value v =>
    have hrun : (Filling.value v).run d c =
        .ok (c.nextKey "expr").marker (.value v, c.bind ⟨v, v.bindType, "expr"⟩) := by
      rw [Filling.run, ← c.fst_record v v.bindType]
      rfl
    unfold Run.Answers
    rw [hrun]
    constructor
    · rintro ⟨hgives⟩
      obtain ⟨rfl, rfl⟩ := Collector.gives_iff.1 hgives
      exact ⟨_, rfl⟩
    · rintro ⟨n, h⟩
      cases h
      exact .value (Collector.gives_iff.2 ⟨rfl, rfl⟩)
  | identifier i =>
    rw [Filling.run, Run.answers_pure]
    exact ⟨by rintro ⟨⟩; exact ⟨rfl, rfl⟩, by rintro ⟨rfl, rfl⟩; exact .identifier i c⟩
  | «alias» a =>
    rw [Filling.run, Run.answers_pure]
    exact ⟨by rintro ⟨⟩; exact ⟨rfl, rfl⟩, by rintro ⟨rfl, rfl⟩; exact .alias a c⟩
  | literal l =>
    rw [Filling.run, Run.answers_pure]
    exact ⟨by rintro ⟨⟩; exact ⟨rfl, rfl⟩, by rintro ⟨rfl, rfl⟩; exact .literal l c⟩
  | subquery s =>
    have hselect (sql : String) : Run.Answers (asPart d s (s.body d)) c sql c' ↔
        answer (s.compileInto d c) = .ok sql ∧ (left (s.compileInto d c)).2 = c' :=
      Run.answers_iff
    simp only [Filling.run, Run.answers_map, hselect]
    constructor
    · rintro ⟨⟩
      next hsql => exact ⟨_, ⟨hsql, rfl⟩, rfl⟩
    · rintro ⟨sql, ⟨hsql, rfl⟩, rfl⟩
      exact .subquery hsql

/-! ## Templates -/

/-- A slot is run under its name. -/
theorem lookup_slotRuns_of_mem {name : String} {slots : List Slot}
    (h : name ∈ slots.map Slot.name) : ∃ own, ⟨name, own⟩ ∈ slots ∧
      (slotRuns d slots).lookup name = some (own.run d) := by
  induction slots with
  | nil => exact absurd h List.not_mem_nil
  | cons slot slots ih =>
    obtain ⟨slotName, filling⟩ := slot
    by_cases hname : name = slotName
    · subst hname
      exact ⟨filling, List.mem_cons_self, List.lookup_cons_self⟩
    · have hne : (name == slotName) = false := beq_eq_false_iff_ne.2 hname
      obtain ⟨own, hown, hlookup⟩ := ih ((List.mem_cons.1 h).resolve_left hname)
      refine ⟨own, List.mem_cons_of_mem _ hown, ?_⟩
      rw [slotRuns, List.lookup_cons, hne, hlookup]

section

variable {runs : List (String × Run Filling String)} {pieces : List Piece} {n : List Slot}

/-- A text of a template is written as it is. -/
theorem answers_textPiece (cs : List Char) :
    ((piecesText runs (textPiece cs ++ pieces)).run n).Answers c sql c' ↔
      ∃ s, ((piecesText runs pieces).run n).Answers c s c' ∧ String.ofList cs ++ s = sql := by
  unfold textPiece
  split
  · next hempty =>
    subst hempty
    simp
  · rw [List.singleton_append, piecesText, bind_pure_comp]
    exact Pass.answers_map

/-- A placeholder is what its substitution is compiled to. -/
theorem answers_slot {name : List Char} {run : Run Filling String}
    (hrun : runs.lookup (String.ofList name) = some run)
    {P : Collector → String → Collector → Prop}
    (hpieces : ∀ {n c sql c'}, ((piecesText runs pieces).run n).Answers c sql c' ↔ P c sql c') :
    ((piecesText runs (.slot name :: pieces)).run n).Answers c sql c' ↔
      ∃ s c₁, run.Answers c s c₁ ∧ ∃ rest, P c₁ rest c' ∧ s ++ rest = sql := by
  simp only [piecesText, hrun, bind_pure_comp]
  rw [Pass.answers_bind (P := fun s c sql c' => ∃ rest, P c rest c' ∧ s ++ rest = sql)]
  · simp only [Pass.answers_visit]
  · simp only [Pass.answers_map, hpieces, implies_true]

end

/-- The parts of a template are rendered one after the other, as each
placeholder has a substitution. -/
theorem rendersAll_iff {slots : List Slot} (hnames : (slots.map Slot.name).Nodup)
    {parts : List (List Char × List Char)}
    (hparts : ∀ part ∈ parts, String.ofList part.1 ∈ slots.map Slot.name) {n : List Slot} :
    RendersAll d slots parts c sql c' ↔
      ((piecesText (slotRuns d slots)
        (parts.flatMap fun part => .slot part.1 :: textPiece part.2)).run n).Answers c sql c' := by
  induction parts generalizing c sql c' n with
  | nil =>
    rw [List.flatMap_nil, piecesText]
    change _ ↔ Run.Answers (Run.pure "" n) c sql c'
    rw [Run.answers_pure]
    exact ⟨by rintro ⟨⟩; exact ⟨rfl, rfl⟩, by rintro ⟨rfl, rfl⟩; exact .nil c⟩
  | cons part parts ih =>
    obtain ⟨name, text⟩ := part
    obtain ⟨hname, hparts⟩ := List.forall_mem_cons.1 hparts
    obtain ⟨own, hown, hlookup⟩ := lookup_slotRuns_of_mem (d := d) hname
    rw [List.flatMap_cons, List.cons_append, answers_slot hlookup (P := fun c sql c' =>
      ∃ s, RendersAll d slots parts c s c' ∧ String.ofList text ++ s = sql)]
    · simp only [← Filling.renders_iff]
      constructor
      · rintro ⟨⟩
        next filling c₁ s rest hmem h hrest =>
        -- no two slots have one name
        obtain rfl : filling = own :=
          congrArg Slot.filling (List.inj_on_of_nodup_map hnames hmem hown rfl)
        exact ⟨s, c₁, h, _, ⟨rest, hrest, rfl⟩, rfl⟩
      · rintro ⟨s, c₁, h, _, ⟨rest, hrest, rfl⟩, rfl⟩
        exact .cons hown h hrest
    · intro n c sql c'
      rw [answers_textPiece]
      exact exists_congr fun s => and_congr_left' (ih hparts).symm

/-- An expression compiles to what its template begins with and the renderings
of its placeholders behind that. -/
theorem Expression.compileInto_iff {e : Expression}
    (h : templateFault e.template (e.slots.map Slot.name) = none)
    {first : List Char} {parts : List (List Char × List Char)}
    (hcut : IsCut e.template.toList first parts) :
    (answer (Node.compileInto d .expression e c) = .ok sql ∧
        (left (Node.compileInto d .expression e c)).2 = c') ↔
      ∃ rest, RendersAll d e.slots parts c rest c' ∧ String.ofList first ++ rest = sql := by
  obtain ⟨template, slots⟩ := e
  change (answer (Expression.run d ⟨template, slots⟩ c) = .ok sql ∧
    (left (Expression.run d ⟨template, slots⟩ c)).2 = c') ↔ _
  rw [← Run.answers_iff, Expression.run, Run.answers_orRestore, Run.answers_map,
    pieces_of_isCut hcut, cutPieces]
  simp only [id, exists_eq_right, answers_textPiece]
  exact exists_congr fun rest =>
    and_congr_left' (rendersAll_iff (nodup_of_templateFault h) (hcut.mem_names h)).symm

/-! ## Main result -/

/-- The template of a coherent expression has no fault. -/
theorem Expression.templateFault_of_coherent {e : Expression} (h : e.Coherent) :
    templateFault e.template (e.slots.map Slot.name) = none := by
  obtain ⟨template, slots⟩ := e
  rw [Expression.Coherent] at h
  exact h.1

/-- By itself an expression compiles as into a collector without entries. -/
theorem Expression.answer_compile (d : Dialect) (e : Expression) :
    answer (Node.compile d .expression e) =
      answer (Node.compileInto d .expression e (.empty d.style)) := by
  change answer (unkept d (e.run d)) = answer (e.run d (.empty d.style))
  unfold unkept
  cases e.run d (.empty d.style) <;> rfl

/-- An expression is made of a template that is not blank and of substitutions
with distinct names, which are the placeholders of the template.  Whatever
becomes of it, it is compiled for every dialect and every collector into what
its template begins with and the renderings of its placeholders behind that,
with the texts between them, from left to right; it compiles if they do.  By
itself it compiles as into a collector without entries. -/
theorem Expression.renders_template :
    (∀ template slots e, Expression.make template slots = .ok e ↔
      e = ⟨template, slots⟩ ∧ isBlankText template = false ∧ (slots.map Slot.name).Nodup ∧
        ∀ name, name ∈ slots.map Slot.name ↔ HasPlaceholder name.toList template.toList) ∧
    ∀ {e : Expression}, Reachable .expression e → ∀ d : Dialect,
      (e.slots.map Slot.name).Nodup ∧ (∃ first parts, IsCut e.template.toList first parts) ∧
      (∀ {first parts}, IsCut e.template.toList first parts → ∀ c sql c',
        (answer (Node.compileInto d .expression e c) = .ok sql ∧
          (left (Node.compileInto d .expression e c)).2 = c') ↔
        ∃ rest, RendersAll d e.slots parts c rest c' ∧ String.ofList first ++ rest = sql) ∧
      answer (Node.compile d .expression e) =
        answer (Node.compileInto d .expression e (.empty d.style)) := by
  refine ⟨fun template slots e => ?_, fun {e} h d => ?_⟩
  · rw [← Expression.make_iff]
    refine ⟨fun h => ⟨(template_make h).1, e, h⟩, ?_⟩
    rintro ⟨rfl, e, h⟩
    rw [h, (template_make h).1]
  · have hfault := templateFault_of_coherent h.coherent
    exact ⟨nodup_of_templateFault hfault, exists_isCut _,
      fun hcut c sql c' => compileInto_iff hfault hcut, answer_compile d e⟩

/-- A placeholder that stands twice, and a text between that looks like it. -/
theorem Expression.renders_template_of_literal :
    let template := "\x7bx\x7d\x7by\x7d\x7bx\x7d"
    let slots : List Slot := [⟨"y", .literal ⟨"\x7bx\x7d", by decide⟩⟩, ⟨"x", .value (.int 1)⟩]
    let e : Expression := ⟨template, slots⟩
    let parts := [(['x'], []), (['y'], []), (['x'], [])]
    let c' := (left (Node.compileInto Dialect.ansi .expression e (.empty .named))).2
    Expression.make template slots = .ok e ∧ Reachable .expression e ∧
      IsCut template.toList [] parts ∧
      RendersAll Dialect.ansi slots parts (.empty .named) ":expr1\x7bx\x7d:expr2" c' ∧
      c'.entries.map Entry.key = [.named ":expr1", .named ":expr2"] := by
  intro template slots e parts c'
  have hmake : Expression.make template slots = .ok e := by
    have hfault : templateFault template (slots.map Slot.name) = none := by decide +kernel
    rw [make, checkTemplate, hfault]
    rfl
  have hreachable : Reachable .expression e :=
    .made (.expression template slots) (List.forall_mem_nil _) hmake
  have hcut : IsCut template.toList [] parts := by
    refine ⟨by decide, by decide, isPlain_nil, fun part hpart => ?_⟩
    have hempty : part.2 = [] := by revert part; decide
    rw [hempty]
    exact isPlain_nil
  have hsql : answer (Node.compileInto Dialect.ansi .expression e (.empty .named)) =
      .ok ":expr1\x7bx\x7d:expr2" := by
    refine eq_ok_of_toOption ?_
    decide +kernel
  obtain ⟨-, -, hrenders, -⟩ := renders_template.2 hreachable Dialect.ansi
  obtain ⟨rest, hrest, htext⟩ := (hrenders hcut _ _ _).1 ⟨hsql, rfl⟩
  refine ⟨hmake, hreachable, hcut, ?_, by decide +kernel⟩
  rw [← htext, String.ofList_nil, String.empty_append]
  exact hrest

end SqlTree
