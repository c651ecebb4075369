import SqlTree.Proofs.Caching.Unkept
import SqlTree.Proofs.Grammar.Program
import SqlTree.Proofs.Markers.Collector

/-!
# SqlTree.Proofs.Grammar.Values

The values of specifications.  `Json.boundValues` reads them off a
specification: the scalars in the places of values, in the order in which
they stand, without the nulls, which are tested for and not bound.  A
specification that is accepted makes a group that keeps nothing and compiles in
every dialect, shipped or not, to a text that binds these values and no others;
one that is refused is refused for a fault of its own
(`Group.ofSpec_compiles`).
-/

namespace SqlTree

/-! ## Values in specifications -/

/-- The scalar, unless it is null. -/
def scalarValues (j : Json) : List Value := ((Value.ofJson? j).filter fun v => !v.isNull).toList

/-- The values that a condition tests against. -/
def ConditionOperator.testedValues : ConditionOperator → Json → Option Json → List Value
  | .compare _, value, _ => scalarValues value
  | .inList _, .arr items, _ => items.flatMap scalarValues
  | .inList _, _, _ => []
  | .like _, pattern, _ => scalarValues pattern
  | .between _, low, high? => scalarValues low ++ high?.toList.flatMap scalarValues
  | .truth _, _, _ => []

mutual

/-- The values that a specification binds. -/
def Json.boundValues : Json → List Value
  | .obj [(name, .arr items)] =>
    match Connective.ofSymbol? name with
    | some _ => boundValuesOf items
    | none => items.flatMap scalarValues
  | .obj [(_, value)] => scalarValues value
  | .arr items =>
    match listShape items with
    | .condition _ op value extra => op.testedValues value extra
    | _ => boundValuesOf items
  | _ => []

/-- The values that specifications bind, one after the other. -/
def boundValuesOf : List Json → List Value
  | [] => []
  | item :: items => item.boundValues ++ boundValuesOf items

end

/-! ## Values that predicates bind -/

/-- Whatever the dialect, the predicate has a draft, which binds the
values. -/
def Predicate.Binds (p : Predicate) (values : List Value) : Prop :=
  ∀ k, ∃ q, p.draft k = .ok q ∧ q.bindings.map Binding.value = values

/-- The predicates of the terms bind the values, one after the other. -/
inductive TermsBind : List Term → List Value → Prop where
  | nil : TermsBind [] []
  | cons {t : Term} {terms : List Term} {values values' : List Value}
      (h : t.predicate.Binds values) (rest : TermsBind terms values') :
      TermsBind (t :: terms) (values ++ values')

namespace TermsBind

variable {terms terms' : List Term} {values values' : List Value}

theorem single {connective : Connective} {p : Predicate} (h : p.Binds values) :
    TermsBind [⟨connective, p⟩] values := by
  rw [← List.append_nil values]
  exact .cons h .nil

theorem append (h : TermsBind terms values) (h' : TermsBind terms' values') :
    TermsBind (terms ++ terms') (values ++ values') := by
  induction h with
  | nil => exact h'
  | cons hp _ ih =>
    rw [List.append_assoc]
    exact .cons hp ih

/-- The terms have drafts, which bind the values. -/
theorem termDrafts (h : TermsBind terms values) (k : Constructs) :
    ∃ ts, SqlTree.termDrafts k terms = .ok ts ∧
      (ts.flatMap fun t => t.2.bindings).map Binding.value = values := by
  induction h with
  | nil => exact ⟨[], by rw [SqlTree.termDrafts], rfl⟩
  | @cons t terms values values' hp _ ih =>
    obtain ⟨connective, p⟩ := t
    obtain ⟨q, hq, hvalues⟩ := hp k
    obtain ⟨ts, hts, hvalues'⟩ := ih
    refine ⟨(connective, q) :: ts, ?_, ?_⟩
    · rw [SqlTree.termDrafts, hq, hts]
      rfl
    · rw [List.flatMap_cons, List.map_append, hvalues, hvalues']

/-- So has a group of the terms. -/
theorem draft {g : Group} (h : TermsBind g.terms values) (k : Constructs) :
    ∃ q, g.draft k = .ok q ∧ q.bindings.map Binding.value = values := by
  obtain ⟨terms, default, pending, nested, cache⟩ := g
  obtain ⟨ts, hts, hvalues⟩ := h.termDrafts k
  refine ⟨Draft.group nested ts, ?_, by rw [Draft.bindings_group, hvalues]⟩
  rw [Group.draft, hts]
  rfl

end TermsBind

namespace Predicate.Binds

variable {column : Reference}

theorem literal (l : Literal) : (Predicate.literal l).Binds [] := fun k =>
  ⟨.raw l.text, by rw [Predicate.draft], rfl⟩

theorem truth (negated : Bool) (word : Truth) : (Predicate.truth column negated word).Binds [] :=
  fun k => ⟨_, by rw [Predicate.draft], by rw [Draft.bindings_truth]; rfl⟩

theorem comparison (op : Comparison) (v : Value) :
    (Predicate.comparison column op (.value v)).Binds [v] := fun k =>
  ⟨_, by rw [Predicate.draft, Operand.draft]; rfl, by rw [Draft.bindings_comparison]; rfl⟩

theorem between (negated : Bool) (v w : Value) :
    (Predicate.between column negated (.value v) (.value w)).Binds [v, w] := fun k =>
  ⟨_, by rw [Predicate.draft, Operand.draft, Operand.draft]; rfl,
    by rw [Draft.bindings_between]; rfl⟩

theorem like (negated : Bool) (v : Value) (escape : Option Char) :
    (Predicate.like column negated (.value v) escape).Binds [v] := fun k =>
  ⟨_, by rw [Predicate.draft, Operand.draft]; rfl, by rw [Draft.bindings_like]; rfl⟩

theorem inValues (negated : Bool) (values : List Value) (orNull : Bool) :
    (Predicate.inValues column negated values orNull).Binds values := fun k =>
  ⟨_, by rw [Predicate.draft], by
    rw [Draft.bindings_inList, List.flatMap_map]
    simp [← List.map_eq_flatMap, Function.comp_def]⟩

theorem group {g : Group} {values : List Value} (h : TermsBind g.terms values) :
    (Predicate.group g).Binds values := by
  intro k
  rw [Predicate.draft]
  exact h.draft k

end Predicate.Binds

/-! ## Values that tests bind -/

theorem scalarValues_of_isNull {j : Json} {v : Value} (h : Value.ofJson? j = some v)
    (hnull : v.isNull = true) : scalarValues j = [] := by
  simp [scalarValues, h, Option.filter, hnull]

theorem scalarValues_of_not_isNull {j : Json} {v : Value} (h : Value.ofJson? j = some v)
    (hnull : v.isNull = false) : scalarValues j = [v] := by
  simp [scalarValues, h, Option.filter, hnull]

/-- The values in a list are those of its items that are not null. -/
theorem flatMap_scalarValues {items : List Json} {values : List Value}
    (h : items.map Value.ofJson? = values.map some) :
    items.flatMap scalarValues = values.filter fun v => !v.isNull := by
  have hvalues : items.flatMap scalarValues =
      (items.map Value.ofJson?).flatMap fun v? => (v?.filter fun v => !v.isNull).toList := by
    rw [List.flatMap_map]
    rfl
  rw [hvalues, h, List.flatMap_map]
  clear h hvalues
  induction values with
  | nil => rfl
  | cons v values ih =>
    rw [List.flatMap_cons, ih, List.filter_cons]
    cases hv : v.isNull <;> simp [hv, Option.filter]

namespace Predicate

variable {column : Reference} {p : Predicate}

theorem binds_compare {op : Comparison} {value : Json} {v : Value}
    (hvalue : Value.ofJson? value = some v) (h : compare column op (.value v) = .ok p) :
    p.Binds (scalarValues value) := by
  have hisNull : (Operand.value v).isNull = v.isNull := rfl
  unfold compare at h
  rw [hisNull] at h
  by_cases hnull : v.isNull = true
  · rw [if_pos hnull] at h
    rw [scalarValues_of_isNull hvalue hnull]
    cases op <;> cases h <;> exact .truth _ _
  · rw [if_neg hnull] at h
    rw [scalarValues_of_not_isNull hvalue (Bool.eq_false_iff.2 hnull)]
    cases h
    exact .comparison op v

theorem binds_inList {negated : Bool} {items : List Json} {values : List Value}
    (hitems : items.map Value.ofJson? = values.map some)
    (h : inList column negated values = .ok p) : p.Binds (items.flatMap scalarValues) := by
  unfold inList at h
  split at h <;> cases h
  rw [flatMap_scalarValues hitems]
  exact .inValues _ _ _

theorem binds_matching {negated : Bool} {value : Json} {v : Value} {escape : Option Char}
    (hvalue : Value.ofJson? value = some v)
    (h : matching column negated (.value v) escape = .ok p) :
    p.Binds (scalarValues value) := by
  unfold matching at h
  split at h <;> cases h
  next hnull =>
  rw [scalarValues_of_not_isNull hvalue (Bool.eq_false_iff.2 hnull)]
  exact .like _ _ _

theorem binds_inRange {negated : Bool} {low high : Json} {v w : Value}
    (hlow : Value.ofJson? low = some v) (hhigh : Value.ofJson? high = some w)
    (h : inRange column negated (.value v) (.value w) = .ok p) :
    p.Binds (scalarValues low ++ scalarValues high) := by
  have hbound {v : Value} (h : Operand.boundFault (.value v) = none) : v.isNull = false := by
    cases hnull : v.isNull with
    | false => rfl
    | true =>
      rw [Operand.boundFault, hnull] at h
      cases h
  unfold inRange at h
  split at h
  · cases h
  next hv =>
  split at h <;> cases h
  next hw =>
  rw [scalarValues_of_not_isNull hlow (hbound hv), scalarValues_of_not_isNull hhigh (hbound hw)]
  exact .between _ _ _

/-! ### Refusals -/

variable {e : Error}

theorem category_compare {op : Comparison} {right : Operand}
    (h : compare column op right = .error e) : e.category = .argument := by
  unfold compare at h
  split at h
  · split at h <;> cases h
    rfl
  · cases h

theorem category_inList {negated : Bool} {values : List Value}
    (h : inList column negated values = .error e) : e.category = .argument := by
  unfold inList at h
  split at h <;> cases h
  rfl

theorem category_matching {negated : Bool} {pattern : Operand} {escape : Option Char}
    (h : matching column negated pattern escape = .error e) : e.category = .argument := by
  unfold matching at h
  split at h <;> cases h
  rfl

theorem category_boundFault {bound : Operand} (h : bound.boundFault = some e) :
    e.category = .argument := by
  unfold Operand.boundFault at h
  split at h
  · split at h <;> cases h
    rfl
  · cases h
  · cases h
    rfl

theorem category_inRange {negated : Bool} {low high : Operand}
    (h : inRange column negated low high = .error e) : e.category = .argument := by
  unfold inRange at h
  split at h
  · next hlow =>
    cases h
    exact category_boundFault hlow
  · split at h <;> cases h
    next hhigh => exact category_boundFault hhigh

theorem category_ofText {sql : String} (h : ofText sql = .error e) : e.category = .argument := by
  unfold ofText Literal.parse at h
  split at h <;> cases h
  rfl

end Predicate

namespace ConditionOperator.Tests

variable {column : Reference} {op : ConditionOperator} {value : Json} {extra : Option Json}
  {maker : Maker .predicate}

/-- A test binds the values that it tests against. -/
theorem binds (h : op.Tests column value extra maker) {p : Predicate}
    (hp : maker.predicate = .ok p) : p.Binds (op.testedValues value extra) := by
  cases h with
  | compare h => exact Predicate.binds_compare h hp
  | inList h => exact Predicate.binds_inList h hp
  | like h => exact Predicate.binds_matching h hp
  | between hlow hhigh =>
    rw [testedValues, Option.toList_some, List.flatMap_singleton]
    exact Predicate.binds_inRange hlow hhigh hp
  | null | bool | word =>
    cases hp
    exact .truth _ _

/-- A test that cannot be made has a malformed argument. -/
theorem category_of_error (h : op.Tests column value extra maker) {e : Error}
    (he : maker.predicate = .error e) : e.category = .argument := by
  cases h with
  | compare h => exact Predicate.category_compare he
  | inList h => exact Predicate.category_inList he
  | like h => exact Predicate.category_matching he
  | between hlow hhigh => exact Predicate.category_inRange he
  | null | bool | word => cases he

end ConditionOperator.Tests

theorem ConditionOperator.Faulty.category {spec : Json} {op : ConditionOperator} {value : Json}
    {extra : Option Json} {e : Error} (h : op.Faulty spec value extra e) :
    e.category = .argument := by
  cases h <;> rfl

/-! ## Values that specifications bind -/

/-- The result is refused for a malformed argument, or it is the group with
terms behind its own that bind the values. -/
def Accounts (values : List Value) (g : Group) : Except Error Group → Prop
  | .ok g' => ∃ terms, g'.terms = g.terms ++ terms ∧ TermsBind terms values
  | .error e => e.category = .argument

namespace Accounts

variable {values values' : List Value} {g : Group}

/-- A predicate is added. -/
theorem push {result : Except Error Predicate} (hok : ∀ p, result = .ok p → p.Binds values)
    (herror : ∀ e, result = .error e → e.category = .argument) :
    Accounts values g (result.map fun p => g.push p) := by
  cases hresult : result with
  | error e => exact herror e hresult
  | ok p => exact ⟨_, rfl, .single (hok p hresult)⟩

/-- Two edits, one after the other. -/
theorem andThen {first second : Edit Group} (h : Accounts values g (first.apply g))
    (h' : ∀ g', Accounts values' g' (second.apply g')) :
    Accounts (values ++ values') g ((first.andThen second).apply g) := by
  rw [Edit.apply_andThen]
  cases hfirst : first.apply g with
  | error e =>
    rw [hfirst] at h
    exact h
  | ok g₁ =>
    rw [hfirst] at h
    obtain ⟨terms, hterms, hvalues⟩ := h
    change Accounts (values ++ values') g (second.apply g₁)
    have hsecond := h' g₁
    cases hresult : second.apply g₁ with
    | error e =>
      rw [hresult] at hsecond
      exact hsecond
    | ok g₂ =>
      rw [hresult] at hsecond
      obtain ⟨terms', hterms', hvalues'⟩ := hsecond
      refine ⟨terms ++ terms', ?_, hvalues.append hvalues'⟩
      rw [hterms', hterms, List.append_assoc]

/-- Edits one after the other bind the values of all of them. -/
theorem inOrder {items : List Json} {programs : Json → Edit Group}
    (h : ∀ item ∈ items, ∀ g, Accounts item.boundValues g ((programs item).apply g)) (g : Group) :
    Accounts (boundValuesOf items) g ((Edit.inOrder (items.map programs)).apply g) := by
  induction items generalizing g with
  | nil => exact ⟨[], (List.append_nil _).symm, by rw [boundValuesOf]; exact .nil⟩
  | cons item items ih =>
    obtain ⟨hitem, hitems⟩ := List.forall_mem_cons.1 h
    rw [boundValuesOf]
    exact (hitem g).andThen (ih hitems)

end Accounts

theorem boundValues_pair {name : String} {value : Json} {v : Value}
    (h : Value.ofJson? value = some v) :
    (Json.obj [(name, value)]).boundValues = scalarValues value := by
  cases value with
  | arr | obj => cases h
  | _ => rw [Json.boundValues]; nofun

/-- What a specification denotes binds its values. -/
theorem Denotes.accounts {spec : Json} {program : Edit Group} (h : Denotes spec program)
    (g : Group) : Accounts spec.boundValues g (program.apply g) := by
  induction h generalizing g with
  | raw h =>
    rw [Group.apply_add_raw, Json.boundValues]
    · refine .push (fun p hp => ?_) fun e he => Predicate.category_ofText he
      obtain ⟨l, -, rfl⟩ := exists_of_map_eq_ok hp
      exact .literal l
    · nofun
    · nofun
    · nofun
  | @pair column value v h =>
    have htests := @ConditionOperator.Tests.compare (.identifier column) .eq _ _ h
    rw [Group.apply_addMade, boundValues_pair h]
    exact .push (fun p hp => htests.binds hp) fun e he => htests.category_of_error he
  | @pairList column items values h =>
    have htests := @ConditionOperator.Tests.inList (.identifier column) false _ _ h
    have hvalues : (Json.obj [(column.text, .arr items)]).boundValues =
        items.flatMap scalarValues := by
      simp only [Json.boundValues, ofSymbol?_text]
    rw [Group.apply_addMade, hvalues]
    exact .push (fun p hp => htests.binds hp) fun e he => htests.category_of_error he
  | @group symbol connective items programs hsymbol _ ih =>
    have hvalues : (Json.obj [(symbol, .arr items)]).boundValues = boundValuesOf items := by
      simp only [Json.boundValues, hsymbol]
    have hinner := Accounts.inOrder ih { Group.empty connective with nested := true }
    rw [Group.apply_nestWith, hvalues]
    cases hresult : (Edit.inOrder (items.map programs)).apply
      { Group.empty connective with nested := true } with
    | error e =>
      rw [hresult] at hinner
      exact hinner
    | ok inner =>
      rw [hresult] at hinner
      obtain ⟨terms, hterms, hbind⟩ := hinner
      have hinnerTerms : inner.terms = terms := hterms
      exact ⟨_, rfl, .single (.group (hinnerTerms ▸ hbind))⟩
  | @chained symbol connective spec program hsymbol _ ih =>
    have hvalues : (Json.arr [.str symbol, spec]).boundValues = spec.boundValues := by
      simp only [Json.boundValues, listShape_chained hsymbol, boundValuesOf, List.nil_append,
        List.append_nil]
    have hnext : Accounts [] g ((Edit.always (Group.joinNext connective)).apply g) :=
      ⟨[], (List.append_nil _).symm, .nil⟩
    rw [hvalues]
    exact hnext.andThen ih
  | @condition column operator op value extra maker hop h =>
    have hvalues : (Json.arr (.str column.text :: .str operator :: value ::
        extra.toList)).boundValues = op.testedValues value extra := by
      simp only [Json.boundValues, listShape_of_isNamed hop]
    rw [Group.apply_addMade, hvalues]
    exact .push (fun p hp => h.binds hp) fun e he => h.category_of_error he
  | @specs items programs hne hsymbol hcondition _ ih =>
    have hvalues : (Json.arr items).boundValues = boundValuesOf items := by
      simp only [Json.boundValues, listShape_specs hne hsymbol hcondition]
    rw [hvalues]
    exact Accounts.inOrder ih g
  | faultyCondition hop h => exact h.category
  | loneSymbol | pairOfNoScalar | pairListOfNoScalar | pairOfNoColumn | pairListOfNoColumn
  | groupWithoutList | notOneMember | empty | connectiveArity | unknownOperator
  | conditionOfNoColumn | unrecognised => rfl

/-! ## Specifications compile -/

/-- A plain predicate keeps nothing. -/
theorem Predicate.fresh_of_isPlain {p : Predicate} (h : p.isPlain = true) : p.fresh = p := by
  have hvalue {o : Operand} (h : o.isValue = true) : o.fresh = o := by
    cases o with
    | value v => rw [Operand.fresh]
    | _ => cases h
  cases p with
  | comparison left op right => rw [Predicate.fresh, hvalue h]
  | between left negated low high =>
    obtain ⟨hlow, hhigh⟩ := Bool.and_eq_true_iff.1 h
    rw [Predicate.fresh, hvalue hlow, hvalue hhigh]
  | like left negated pattern escape => rw [Predicate.fresh, hvalue h]
  | inValues | truth | literal => rw [Predicate.fresh]
  | _ => cases h

namespace Group

theorem fresh_eq_self_iff (g : Group) :
    g.fresh = g ↔ (∀ t ∈ g.terms, t.predicate.fresh = t.predicate) ∧ g.cache = none := by
  obtain ⟨terms, default, pending, nested, cache⟩ := g
  have hterms : terms.map Term.fresh = terms ↔ ∀ t ∈ terms, t.predicate.fresh = t.predicate := by
    have hterm (t : Term) : t.fresh = id t ↔ t.predicate.fresh = t.predicate := by
      obtain ⟨connective, p⟩ := t
      simp only [Term.fresh, id, Term.mk.injEq, true_and]
    calc terms.map Term.fresh = terms
      _ ↔ terms.map Term.fresh = terms.map id := by rw [List.map_id]
      _ ↔ ∀ t ∈ terms, t.fresh = id t := List.map_inj_left
      _ ↔ ∀ t ∈ terms, t.predicate.fresh = t.predicate := forall₂_congr fun t _ => hterm t
  simp only [fresh, freshTerms_eq_map, mk.injEq, true_and, hterms]
  exact and_congr_right fun _ => eq_comm

theorem fresh_push {g : Group} {p : Predicate} (hg : g.fresh = g) (hp : p.fresh = p) :
    (g.push p).fresh = g.push p := by
  refine (fresh_eq_self_iff _).2 ⟨fun t ht => ?_, rfl⟩
  rcases List.mem_append.1 ht with ht | ht
  · exact ((fresh_eq_self_iff g).1 hg).1 t ht
  · rw [List.mem_singleton.1 ht, hp]

/-- The group that a specification describes keeps nothing. -/
theorem fresh_ofSpec {spec : Json} {g : Group} (h : ofSpec spec = .ok g) : g.fresh = g := by
  refine specify_keeps (P := fun g => g.fresh = g) (fun connective => ?_) (fun g p hg hp => ?_)
    (fun g inner hg hinner => ?_) (fun g connective hg => ?_) ?_ h
  · exact (fresh_eq_self_iff _).2 ⟨nofun, rfl⟩
  · exact fresh_push hg (Predicate.fresh_of_isPlain hp)
  · refine fresh_push hg ?_
    rw [Predicate.fresh]
    exact congrArg Predicate.group
      ((fresh_eq_self_iff _).2 ⟨((fresh_eq_self_iff inner).1 hinner).1, rfl⟩)
  · exact (fresh_eq_self_iff _).2 ((fresh_eq_self_iff g).1 hg)
  · exact (fresh_eq_self_iff _).2 ⟨nofun, rfl⟩

theorem accounts_ofSpec (spec : Json) :
    Accounts spec.boundValues (Group.empty .and) (ofSpec spec) := by
  obtain ⟨program, hprogram⟩ := Denotes.exists_program spec
  have hread : program.apply (Group.empty .and) = ofSpec spec := hprogram.apply_eq _
  exact hread ▸ hprogram.accounts (Group.empty .and)

/-- It has a draft in every dialect, which binds the values of the
specification. -/
theorem exists_draft_ofSpec {spec : Json} {g : Group} (h : ofSpec spec = .ok g) (k : Constructs) :
    ∃ p, g.draft k = .ok p ∧ p.bindings.map Binding.value = spec.boundValues := by
  have haccounts := accounts_ofSpec spec
  rw [h] at haccounts
  obtain ⟨terms, hterms, hbind⟩ := haccounts
  have hown : g.terms = terms := hterms
  have hall : TermsBind g.terms spec.boundValues := by rwa [hown]
  exact hall.draft k

/-- As a whole it compiles in every dialect and binds these values. -/
theorem compile_ofSpec {spec : Json} {g : Group} (h : ofSpec spec = .ok g) (d : Dialect) :
    ∃ sql c, answer (Node.compile d .group g) = .ok sql ∧
      Node.collector? .group (left (Node.compile d .group g)) = some c ∧
      c.values = spec.boundValues := by
  obtain ⟨p, hp, hvalues⟩ := exists_draft_ofSpec h d.constructs
  obtain ⟨hanswer, hcollector⟩ := compile_of_fresh (fresh_ofSpec h) hp
  exact ⟨_, _, hanswer, hcollector,
    (Collector.values_bindAll (.empty d.style) p.bindings).trans hvalues⟩

/-- As a part it compiles behind any values and binds these after them. -/
theorem compileInto_ofSpec {spec : Json} {g : Group} (h : ofSpec spec = .ok g) (d : Dialect)
    (c : Collector) : ∃ sql, answer (Node.compileInto d .group g c) = .ok sql ∧
      (left (Node.compileInto d .group g c)).2.values = c.values ++ spec.boundValues := by
  obtain ⟨p, hp, hvalues⟩ := exists_draft_ofSpec h d.constructs
  have hfresh : Node.fresh .group g = g := fresh_ofSpec h
  have hrun := (Node.compileInto_fresh_iff (d := d) (k := .group) (n := g) (c := c) rfl).2
    ⟨p, hp, rfl, rfl⟩
  rw [hfresh] at hrun
  exact ⟨_, hrun.1, by rw [hrun.2, Draft.after, Collector.values_bindAll, hvalues]⟩

end Group

/-- A specification is refused for a malformed argument, or it makes a group
that has terms and no connective left pending and compiles in every dialect, as
a whole and as a part behind any values.  It binds the values in the
specification: each of them once, in the order in which they stand, and no
others. -/
theorem Group.ofSpec_compiles (spec : Json) :
    (∃ e, Group.ofSpec spec = .error e ∧ e.category = .argument) ∨
    ∃ g, Group.ofSpec spec = .ok g ∧ g.terms ≠ [] ∧ g.pending = none ∧
      ∀ d : Dialect,
        (∃ sql c, answer (Node.compile d .group g) = .ok sql ∧
          Node.collector? .group (left (Node.compile d .group g)) = some c ∧
          c.values = spec.boundValues) ∧
        ∀ c, ∃ sql, answer (Node.compileInto d .group g c) = .ok sql ∧
          (left (Node.compileInto d .group g c)).2.values = c.values ++ spec.boundValues := by
  cases hspec : Group.ofSpec spec with
  | error e =>
    have haccounts := accounts_ofSpec spec
    rw [hspec] at haccounts
    exact .inl ⟨e, rfl, haccounts⟩
  | ok g =>
    obtain ⟨before, p, hpushed⟩ := specify_pushes hspec
    exact .inr ⟨g, rfl, by simp [hpushed, terms_push], by rw [hpushed, pending_push],
      fun d => ⟨compile_ofSpec hspec d, compileInto_ofSpec hspec d⟩⟩

/-- Two bounds, a list with a null in it, a test for null and raw SQL. -/
theorem Group.ofSpec_compiles_of_range :
    let range : Json := .arr [.str "a", .str "Between", .int 1, .int 2]
    let group : Json := .obj [("&&", .arr [range, .obj [("b", .arr [.null, .str "x"])]])]
    let test : Json := .arr [.str "||", .arr [.str "c", .str "is", .null]]
    let spec : Json := .arr [group, test, .str "d = 3"]
    ∃ g sql c, Group.ofSpec spec = .ok g ∧
      answer (Node.compile Dialect.mysql .group g) = .ok sql ∧
      Node.collector? .group (left (Node.compile Dialect.mysql .group g)) = some c ∧
      c.values = [.int 1, .int 2, .text "x"] := by
  intro range group test spec
  have haccepted : (Group.ofSpec spec).toOption.isSome = true := by decide +kernel
  have hvalues : spec.boundValues = [.int 1, .int 2, .text "x"] := rfl
  rcases Group.ofSpec_compiles spec with ⟨e, hrefused, -⟩ | ⟨g, hg, -, -, hcompiles⟩
  · rw [hrefused] at haccepted
    cases haccepted
  · obtain ⟨sql, c, hsql, hcollector, hbound⟩ := (hcompiles Dialect.mysql).1
    exact ⟨g, sql, c, hg, hsql, hcollector, hbound.trans hvalues⟩

end SqlTree
