import SqlTree.Proofs.Grammar.Condition
import SqlTree.Proofs.Specification

/-!
# SqlTree.Proofs.Grammar.Program

What specifications mean.  A specification denotes a program of calls on
the group that it is added to (`Denotes`): adding raw SQL, making a
predicate and adding it, choosing the next connective, nesting a group and
going on in there, or refusing.  The rows of the relation do not depend on
their order, and none of them mentions how a specification is read.  Every
specification denotes a program, and adding the specification is running
that program, all of it or nothing (`Group.add_spec`).
-/

namespace SqlTree

/-! ## Programs -/

namespace Edit

variable {ν : Type}

/-- Changes nothing and fails. -/
def refuse (e : Error) : Edit ν := fun n => .error e n

/-- One edit and then another, if the first does not fail. -/
def andThen (first second : Edit ν) : Edit ν := fun n =>
  match first n with
  | .ok _ n => second n
  | .error e n => .error e n

/-- Edits one after the other, up to the first that fails. -/
def inOrder : List (Edit ν) → Edit ν
  | [] => always id
  | edit :: edits => edit.andThen (inOrder edits)

@[simp] theorem apply_attempt (f : ν → Except Error ν) (n : ν) : (attempt f).apply n = f n := by
  unfold apply attempt
  cases f n <;> rfl

@[simp] theorem apply_andThen (first second : Edit ν) (n : ν) :
    (first.andThen second).apply n = first.apply n >>= second.apply := by
  unfold apply andThen
  cases first n <;> rfl

end Edit

namespace Group

/-- Makes a predicate and adds it. -/
def addMade (maker : Maker .predicate) : Edit Group := fun g =>
  match maker.predicate with
  | .ok p => add (.predicate p) g
  | .error e => .error e g

/-- Nests a new group and edits it where it stands. -/
def nestWith (connective : Connective) (edit : Edit Group) : Edit Group := fun g =>
  let way : Path .group .group := .via (.nest connective) .here
  match way.edit (fun inner => (answer (edit inner), left (edit inner))) g with
  | (some (.error e), g) => .error e g
  | (_, g) => .ok () g

theorem apply_add_raw (sql : String) (g : Group) :
    (add (.raw sql)).apply g = (Predicate.ofText sql).map fun p => g.push p :=
  Edit.apply_attempt _ g

theorem apply_addMade (maker : Maker .predicate) (g : Group) :
    (addMade maker).apply g = maker.predicate.map fun p => g.push p := by
  unfold Edit.apply addMade
  cases maker.predicate <;> rfl

/-- A pushed group is found at the end. -/
theorem find?_push_group (connective : Connective) (g inner : Group) :
    Hop.find? (.nest connective) (g.push (.group inner)) = some inner := by
  have hlast : (g.push (.group inner)).predicateAt? (g.push (.group inner)).lastIndex =
      some (.group inner) := by
    simp [predicateAt?, lastIndex, terms_push]
  have hfound : Hop.find? (.nest connective) (g.push (.group inner)) =
      ((g.push (.group inner)).predicateAt? (g.push (.group inner)).lastIndex).bind
        Predicate.group? := rfl
  rw [hfound, hlast]
  rfl

/-- Another group takes its place. -/
theorem put_push_group (connective : Connective) (g inner other : Group) :
    Hop.put (.nest connective) other (g.push (.group inner)) = g.push (.group other) := by
  have hterms : (g.push (.group inner)).terms.modify (g.push (.group inner)).lastIndex
      (fun t => { t with predicate := .group other }) = (g.push (.group other)).terms := by
    simp [lastIndex, terms_push, List.modify_eq_take_drop]
  exact congrArg (fun terms => { g.push (.group inner) with terms }) hterms

/-- The edited group is the last term. -/
theorem apply_nestWith (connective : Connective) (edit : Edit Group) (g : Group) :
    (nestWith connective edit).apply g =
      (edit.apply { Group.empty connective with nested := true }).map fun inner =>
        g.push (.group inner) := by
  have hentered : Hop.enter (.nest connective) g =
      g.push (.group { Group.empty connective with nested := true }) := rfl
  unfold Edit.apply nestWith
  simp only [Path.edit, hentered, find?_push_group]
  cases edit { Group.empty connective with nested := true } with
  | ok _ inner => exact congrArg Except.ok (put_push_group connective g _ inner)
  | error e inner => rfl

end Group

/-! ## Specifications -/

/-- The specification denotes the program. -/
inductive Denotes : Json → Edit Group → Prop where
  | raw {sql : String} (h : Connective.ofSymbol? sql = none) :
      Denotes (.str sql) (Group.add (.raw sql))
  | loneSymbol {symbol : String} {connective : Connective}
      (h : Connective.ofSymbol? symbol = some connective) :
      Denotes (.str symbol) (.refuse (.spec (.str symbol) .loneConnective))
  | pair {column : Identifier} {value : Json} {v : Value} (h : Value.ofJson? value = some v) :
      Denotes (.obj [(column.text, value)])
        (Group.addMade (.comparison (.identifier column) .eq (.value v)))
  | pairList {column : Identifier} {items : List Json} {values : List Value}
      (h : items.map Value.ofJson? = values.map some) :
      Denotes (.obj [(column.text, .arr items)])
        (Group.addMade (.inValues (.identifier column) false values))
  | pairOfNoScalar {name : String} {value : Json} (hname : Connective.ofSymbol? name = none)
      (hlist : ∀ items, value ≠ .arr items) (h : Value.ofJson? value = none) :
      Denotes (.obj [(name, value)]) (.refuse (.spec (.obj [(name, value)]) .notScalar))
  | pairListOfNoScalar {name : String} {items : List Json} {item : Json}
      (hname : Connective.ofSymbol? name = none) (hitem : item ∈ items)
      (h : Value.ofJson? item = none) :
      Denotes (.obj [(name, .arr items)]) (.refuse (.spec (.obj [(name, .arr items)]) .notScalar))
  | pairOfNoColumn {name : String} {value : Json} {v : Value}
      (hname : Connective.ofSymbol? name = none) (hcolumn : isIdentifierText name = false)
      (h : Value.ofJson? value = some v) :
      Denotes (.obj [(name, value)]) (.refuse (.invalidIdentifier name))
  | pairListOfNoColumn {name : String} {items : List Json} {values : List Value}
      (hname : Connective.ofSymbol? name = none) (hcolumn : isIdentifierText name = false)
      (h : items.map Value.ofJson? = values.map some) :
      Denotes (.obj [(name, .arr items)]) (.refuse (.invalidIdentifier name))
  | group {symbol : String} {connective : Connective} {items : List Json}
      {programs : Json → Edit Group} (hsymbol : Connective.ofSymbol? symbol = some connective)
      (h : ∀ item ∈ items, Denotes item (programs item)) :
      Denotes (.obj [(symbol, .arr items)])
        (Group.nestWith connective (.inOrder (items.map programs)))
  | groupWithoutList {symbol : String} {connective : Connective} {value : Json}
      (hsymbol : Connective.ofSymbol? symbol = some connective) (h : ∀ items, value ≠ .arr items) :
      Denotes (.obj [(symbol, value)]) (.refuse (.spec (.obj [(symbol, value)]) .groupWithoutList))
  | notOneMember {members : List (String × Json)} (h : members.length ≠ 1) :
      Denotes (.obj members) (.refuse (.spec (.obj members) .notOneMember))
  | empty : Denotes (.arr []) (.refuse (.spec (.arr []) .emptyList))
  | chained {symbol : String} {connective : Connective} {spec : Json} {program : Edit Group}
      (hsymbol : Connective.ofSymbol? symbol = some connective) (h : Denotes spec program) :
      Denotes (.arr [.str symbol, spec]) (.andThen (.always (Group.joinNext connective)) program)
  | connectiveArity {symbol : String} {connective : Connective} {rest : List Json}
      (hsymbol : Connective.ofSymbol? symbol = some connective) (h : rest.length ≠ 1) :
      Denotes (.arr (.str symbol :: rest))
        (.refuse (.spec (.arr (.str symbol :: rest)) .connectiveArity))
  | condition {column : Identifier} {operator : String} {op : ConditionOperator} {value : Json}
      {extra : Option Json} {maker : Maker .predicate} (hop : op.IsNamed operator)
      (h : op.Tests (.identifier column) value extra maker) :
      Denotes (.arr (.str column.text :: .str operator :: value :: extra.toList))
        (Group.addMade maker)
  | faultyCondition {column : Identifier} {operator : String} {op : ConditionOperator}
      {value : Json} {extra : Option Json} {e : Error} (hop : op.IsNamed operator)
      (h : op.Faulty (.arr (.str column.text :: .str operator :: value :: extra.toList)) value
        extra e) :
      Denotes (.arr (.str column.text :: .str operator :: value :: extra.toList)) (.refuse e)
  | unknownOperator {column : Identifier} {operator : String} {value : Json} {extra : Option Json}
      (h : ∀ op : ConditionOperator, ¬op.IsNamed operator) :
      Denotes (.arr (.str column.text :: .str operator :: value :: extra.toList))
        (.refuse (.spec (.arr (.str column.text :: .str operator :: value :: extra.toList))
          (.unknownOperator operator)))
  | conditionOfNoColumn {name operator : String} {op : ConditionOperator} {value : Json}
      {extra : Option Json} (hname : Connective.ofSymbol? name = none)
      (hcolumn : isIdentifierText name = false) (hop : op.IsNamed operator) :
      Denotes (.arr (.str name :: .str operator :: value :: extra.toList))
        (.refuse (.invalidIdentifier name))
  | specs {items : List Json} {programs : Json → Edit Group} (hne : items ≠ [])
      (hsymbol : ∀ symbol rest, items = .str symbol :: rest → Connective.ofSymbol? symbol = none)
      (hcondition : ∀ name operator value (extra : Option Json),
        items = .str name :: .str operator :: value :: extra.toList →
        isIdentifierText name = false ∧ ∀ op : ConditionOperator, ¬op.IsNamed operator)
      (h : ∀ item ∈ items, Denotes item (programs item)) :
      Denotes (.arr items) (.inOrder (items.map programs))
  | unrecognised {spec : Json} (hstr : ∀ s, spec ≠ .str s) (hobj : ∀ members, spec ≠ .obj members)
      (harr : ∀ items, spec ≠ .arr items) : Denotes spec (.refuse (.spec spec .unrecognised))

/-! ## How lists are read -/

section

variable {spec value : Json} {extra : Option Json} {name operator : String}

theorem ofSymbol?_text (column : Identifier) : Connective.ofSymbol? column.text = none := by
  have hne {symbol : String} (h : isIdentifierText symbol = false) : column.text ≠ symbol := by
    rintro rfl
    rw [column.valid] at h
    cases h
  rw [Connective.ofSymbol?, if_neg (hne (by decide +kernel)), if_neg (hne (by decide +kernel))]

theorem parse_of_isIdentifierText_eq_false (h : isIdentifierText name = false) :
    Identifier.parse name = .error (.invalidIdentifier name) := by
  simp [Identifier.parse, h]

theorem ofText?_eq_none_iff :
    ConditionOperator.ofText? operator = none ↔ ∀ op : ConditionOperator, ¬op.IsNamed operator := by
  simp only [Option.eq_none_iff_forall_ne_some, ne_eq, ConditionOperator.ofText?_eq_some_iff]

theorem listShape_condition (hname : Connective.ofSymbol? name = none) :
    listShape (.str name :: .str operator :: value :: extra.toList) =
      conditionShape (.arr (.str name :: .str operator :: value :: extra.toList)) name operator
        value extra := by
  cases extra <;> simp [listShape, hname]

/-- A column and an operator make a condition. -/
theorem listShape_of_isNamed {column : Identifier} {op : ConditionOperator}
    (hop : op.IsNamed operator) :
    listShape (.str column.text :: .str operator :: value :: extra.toList) =
      .condition column op value extra := by
  rw [listShape_condition (ofSymbol?_text column), conditionShape, Identifier.parse_text,
    ConditionOperator.ofText?_eq_some_iff.2 hop]

theorem listShape_unknownOperator {column : Identifier}
    (h : ∀ op : ConditionOperator, ¬op.IsNamed operator) :
    listShape (.str column.text :: .str operator :: value :: extra.toList) =
      .refused (.spec (.arr (.str column.text :: .str operator :: value :: extra.toList))
        (.unknownOperator operator)) := by
  rw [listShape_condition (ofSymbol?_text column), conditionShape, Identifier.parse_text,
    ofText?_eq_none_iff.2 h]

theorem listShape_conditionOfNoColumn {op : ConditionOperator}
    (hname : Connective.ofSymbol? name = none) (hcolumn : isIdentifierText name = false)
    (hop : op.IsNamed operator) :
    listShape (.str name :: .str operator :: value :: extra.toList) =
      .refused (.invalidIdentifier name) := by
  rw [listShape_condition hname, conditionShape, parse_of_isIdentifierText_eq_false hcolumn,
    ConditionOperator.ofText?_eq_some_iff.2 hop]

theorem listShape_chained {symbol : String} {connective : Connective}
    (hsymbol : Connective.ofSymbol? symbol = some connective) :
    listShape [.str symbol, spec] = .chained connective := by
  simp [listShape, hsymbol]

theorem listShape_connectiveArity {symbol : String} {connective : Connective} {rest : List Json}
    (hsymbol : Connective.ofSymbol? symbol = some connective) (h : rest.length ≠ 1) :
    listShape (.str symbol :: rest) =
      .refused (.spec (.arr (.str symbol :: rest)) .connectiveArity) := by
  match rest with
  | [] => simp [listShape, hsymbol]
  | [_] => exact absurd rfl h
  | _ :: _ :: _ => simp [listShape, hsymbol]

theorem listShape_specs {items : List Json} (hne : items ≠ [])
    (hsymbol : ∀ symbol rest, items = .str symbol :: rest → Connective.ofSymbol? symbol = none)
    (hcondition : ∀ name operator value (extra : Option Json),
      items = .str name :: .str operator :: value :: extra.toList →
      isIdentifierText name = false ∧ ∀ op : ConditionOperator, ¬op.IsNamed operator) :
    listShape items = .specs := by
  have hcould {name operator : String} {value : Json} (extra : Option Json)
      (heq : items = .str name :: .str operator :: value :: extra.toList) :
      conditionShape (.arr items) name operator value extra = .specs := by
    obtain ⟨hcolumn, hop⟩ := hcondition name operator value extra heq
    rw [conditionShape, parse_of_isIdentifierText_eq_false hcolumn, ofText?_eq_none_iff.2 hop]
  unfold listShape
  split
  · exact absurd rfl hne
  · next first rest =>
    rw [hsymbol first rest rfl]
    split
    · contradiction
    · contradiction
    · exact hcould none rfl
    · exact hcould (some _) rfl
    · rfl
  · rfl

end

/-! ## How pairs are read -/

section

variable {spec value : Json} {name : String}

/-- The value of a pair is looked at before its column. -/
theorem pairPredicate_of_scalar {v : Value} (h : Value.ofJson? value = some v) :
    pairPredicate spec name value =
      Reference.parse name >>= fun left => Predicate.compare left .eq (.value v) := by
  have hlist : ∀ items, value ≠ .arr items := by
    rintro items rfl
    cases h
  rw [pairPredicate]
  · rw [scalar_of_ofJson? h]
    rfl
  · exact hlist

/-- So is its list of values. -/
theorem pairPredicate_of_list {items : List Json} {values : List Value}
    (h : items.map Value.ofJson? = values.map some) :
    pairPredicate spec name (.arr items) =
      Reference.parse name >>= fun left => Predicate.inList left false values := by
  rw [pairPredicate, scalars_of_map h]
  rfl

theorem pairPredicate_of_no_scalar (hlist : ∀ items, value ≠ .arr items)
    (h : Value.ofJson? value = none) :
    pairPredicate spec name value = .error (.spec spec .notScalar) := by
  rw [pairPredicate]
  · rw [scalar_of_none h]
    rfl
  · exact hlist

theorem pairPredicate_of_mem {items : List Json} {item : Json} (hitem : item ∈ items)
    (h : Value.ofJson? item = none) :
    pairPredicate spec name (.arr items) = .error (.spec spec .notScalar) := by
  rw [pairPredicate, scalars_of_mem hitem h]
  rfl

theorem reference_parse_text (column : Identifier) :
    Reference.parse column.text = .ok (.identifier column) := by
  rw [Reference.parse, Identifier.parse_text]
  rfl

theorem reference_parse_of_isIdentifierText_eq_false (h : isIdentifierText name = false) :
    Reference.parse name = .error (.invalidIdentifier name) := by
  rw [Reference.parse, parse_of_isIdentifierText_eq_false h]
  rfl

end

/-! ## Specifications are read as what they denote -/

theorem specifyLast_pair (first spec : Json) (g : Group) :
    specifyLast [first, spec] g = specify spec g := by
  rw [specifyLast, specifyLast]
  simp

namespace Group

/-- What is in the group keeps nothing, so it is put in another as it is. -/
theorem cache_specifyAll {items : List Json} {g g' : Group} (hg : g.cache = none)
    (h : specifyAll items g = .ok g') : g'.cache = none := by
  induction items generalizing g with
  | nil =>
    rw [specifyAll] at h
    cases h
    exact hg
  | cons item items ih =>
    rw [specifyAll] at h
    cases hitem : SqlTree.specify item g with
    | error e =>
      rw [hitem] at h
      cases h
    | ok next =>
      rw [hitem] at h
      refine ih (specify_keeps (P := fun g => g.cache = none) ?_ ?_ ?_ ?_ hg hitem) h
      · exact fun _ => rfl
      · exact fun _ _ _ _ => rfl
      · exact fun _ _ _ _ => rfl
      · exact fun _ _ h => h

end Group

/-- If specifications are read as what they denote, so are several of them in
order. -/
theorem apply_inOrder {items : List Json} {programs : Json → Edit Group}
    (h : ∀ item ∈ items, ∀ g, (programs item).apply g = specify item g) (g : Group) :
    (Edit.inOrder (items.map programs)).apply g = specifyAll items g := by
  induction items generalizing g with
  | nil =>
    rw [specifyAll]
    rfl
  | cons item items ih =>
    obtain ⟨hitem, hitems⟩ := List.forall_mem_cons.1 h
    rw [List.map_cons, Edit.inOrder, Edit.apply_andThen, hitem, specifyAll]
    cases specify item g with
    | error e => rfl
    | ok next => exact ih hitems next

/-- So are the specifications of a group, which is marked as nested before
they are added and not after. -/
theorem apply_nestWith_inOrder {items : List Json} {programs : Json → Edit Group}
    (h : ∀ item ∈ items, ∀ g, (programs item).apply g = specify item g) (connective : Connective)
    (g : Group) : (Group.nestWith connective (.inOrder (items.map programs))).apply g =
      (specifyAll items (Group.empty connective)).map g.pushGroup := by
  have hnested : specifyAll items { Group.empty connective with nested := true } =
      (specifyAll items (Group.empty connective)).map fun g => { g with nested := true } :=
    specifyAll_frame (fun item _ => specify_frame (Group.isFrame_nested true) item) _
  rw [Group.apply_nestWith, apply_inOrder h, hnested]
  cases hitems : specifyAll items (Group.empty connective) with
  | error e => rfl
  | ok inner =>
    have hcache : inner.cache = none := Group.cache_specifyAll rfl hitems
    refine congrArg Except.ok ?_
    rw [Group.pushGroup, ← hcache]

/-- A specification is read as what it denotes. -/
theorem Denotes.apply_eq {spec : Json} {program : Edit Group} (h : Denotes spec program)
    (g : Group) : program.apply g = specify spec g := by
  induction h generalizing g with
  | raw h => rw [Group.apply_add_raw, specify_text h]
  | loneSymbol h => exact (specify_loneSymbol h g).symm
  | pair h =>
    rw [Group.apply_addMade, specify_pair (ofSymbol?_text _), pairPredicate_of_scalar h,
      reference_parse_text]
    rfl
  | pairList h =>
    rw [Group.apply_addMade, specify_pair (ofSymbol?_text _), pairPredicate_of_list h,
      reference_parse_text]
    rfl
  | pairOfNoScalar hname hlist h =>
    rw [specify_pair hname, pairPredicate_of_no_scalar hlist h]
    rfl
  | pairListOfNoScalar hname hitem h =>
    rw [specify_pair hname, pairPredicate_of_mem hitem h]
    rfl
  | pairOfNoColumn hname hcolumn h =>
    rw [specify_pair hname, pairPredicate_of_scalar h,
      reference_parse_of_isIdentifierText_eq_false hcolumn]
    rfl
  | pairListOfNoColumn hname hcolumn h =>
    rw [specify_pair hname, pairPredicate_of_list h,
      reference_parse_of_isIdentifierText_eq_false hcolumn]
    rfl
  | group hsymbol _ ih => rw [specify_group hsymbol, apply_nestWith_inOrder ih]
  | groupWithoutList hsymbol h => exact (specify_groupWithoutList hsymbol h g).symm
  | notOneMember h => exact (specify_notOneMember h g).symm
  | empty => exact (specify_refused rfl g).symm
  | @chained symbol connective spec program hsymbol _ ih =>
    rw [Edit.apply_andThen, specify_chained (listShape_chained hsymbol), specifyLast_pair]
    exact ih (g.joinNext connective)
  | connectiveArity hsymbol h =>
    exact (specify_refused (listShape_connectiveArity hsymbol h) g).symm
  | condition hop h =>
    rw [Group.apply_addMade, specify_condition (listShape_of_isNamed hop), condition_of_tests h]
  | faultyCondition hop h =>
    rw [specify_condition (listShape_of_isNamed hop), condition_of_faulty h]
    rfl
  | unknownOperator h => exact (specify_refused (listShape_unknownOperator h) g).symm
  | conditionOfNoColumn hname hcolumn hop =>
    exact (specify_refused (listShape_conditionOfNoColumn hname hcolumn hop) g).symm
  | specs hne hsymbol hcondition _ ih =>
    rw [specify_specs (listShape_specs hne hsymbol hcondition)]
    exact apply_inOrder ih g
  | unrecognised hstr hobj harr => exact (specify_unrecognised hstr hobj harr g).symm

/-! ## Every specification denotes a program -/

/-- Programs for the items, chosen together. -/
theorem exists_programs {items : List Json} (h : ∀ item ∈ items, ∃ program, Denotes item program) :
    ∃ programs : Json → Edit Group, ∀ item ∈ items, Denotes item (programs item) := by
  have htotal : ∀ item, ∃ program : Edit Group, item ∈ items → Denotes item program := by
    intro item
    by_cases hitem : item ∈ items
    · obtain ⟨program, hprogram⟩ := h item hitem
      exact ⟨program, fun _ => hprogram⟩
    · exact ⟨.refuse .blankLiteral, fun hmem => absurd hmem hitem⟩
  exact Classical.axiomOfChoice htotal

namespace Denotes

theorem exists_pair {name : String} (value : Json) (hname : Connective.ofSymbol? name = none) :
    ∃ program, Denotes (.obj [(name, value)]) program := by
  by_cases hcolumn : isIdentifierText name = true
  · let column : Identifier := ⟨name, hcolumn⟩
    cases hvalue : Value.ofJson? value with
    | some v => exact ⟨_, @Denotes.pair column value v hvalue⟩
    | none =>
      cases value with
      | arr items =>
        rcases map_ofJson?_cases items with ⟨values, hvalues⟩ | ⟨item, hitem, hnone⟩
        · exact ⟨_, @Denotes.pairList column items values hvalues⟩
        · exact ⟨_, .pairListOfNoScalar hname hitem hnone⟩
      | _ => exact ⟨_, .pairOfNoScalar hname nofun hvalue⟩
  · have hcolumn := Bool.eq_false_iff.2 hcolumn
    cases hvalue : Value.ofJson? value with
    | some v => exact ⟨_, .pairOfNoColumn hname hcolumn hvalue⟩
    | none =>
      cases value with
      | arr items =>
        rcases map_ofJson?_cases items with ⟨values, hvalues⟩ | ⟨item, hitem, hnone⟩
        · exact ⟨_, .pairListOfNoColumn hname hcolumn hvalues⟩
        · exact ⟨_, .pairListOfNoScalar hname hitem hnone⟩
      | _ => exact ⟨_, .pairOfNoScalar hname nofun hvalue⟩

theorem exists_object (members : List (String × Json))
    (h : ∀ name items, members = [(name, .arr items)] → ∀ item ∈ items, ∃ p, Denotes item p) :
    ∃ program, Denotes (.obj members) program := by
  match members with
  | [] => exact ⟨_, .notOneMember (by simp)⟩
  | _ :: _ :: _ => exact ⟨_, .notOneMember (by simp)⟩
  | [(name, value)] =>
    cases hname : Connective.ofSymbol? name with
    | none => exact exists_pair value hname
    | some connective =>
      cases value with
      | arr items =>
        obtain ⟨programs, hprograms⟩ := exists_programs (h name items rfl)
        exact ⟨_, .group hname hprograms⟩
      | _ => exact ⟨_, .groupWithoutList hname nofun⟩

theorem exists_list (items : List Json) (h : ∀ item ∈ items, ∃ p, Denotes item p) :
    ∃ program, Denotes (.arr items) program := by
  by_cases hne : items = []
  · subst hne
    exact ⟨_, .empty⟩
  by_cases hsymbol : ∃ symbol rest connective,
      items = .str symbol :: rest ∧ Connective.ofSymbol? symbol = some connective
  · obtain ⟨symbol, rest, connective, rfl, hsymbol⟩ := hsymbol
    match rest with
    | [spec] =>
      obtain ⟨program, hprogram⟩ := h spec (by simp)
      exact ⟨_, .chained hsymbol hprogram⟩
    | [] | _ :: _ :: _ => exact ⟨_, .connectiveArity hsymbol (by simp)⟩
  have hname {name : String} {rest : List Json} (heq : items = .str name :: rest) :
      Connective.ofSymbol? name = none := by
    cases hconnective : Connective.ofSymbol? name with
    | none => rfl
    | some connective => exact absurd ⟨name, rest, connective, heq, hconnective⟩ hsymbol
  by_cases hcondition : ∃ name operator value, ∃ extra : Option Json,
      items = .str name :: .str operator :: value :: extra.toList ∧
      (isIdentifierText name = true ∨ ∃ op : ConditionOperator, op.IsNamed operator)
  · obtain ⟨name, operator, value, extra, heq, hlikely⟩ := hcondition
    have hfirst := hname heq
    rw [heq]
    by_cases hop : ∃ op : ConditionOperator, op.IsNamed operator
    · obtain ⟨op, hop⟩ := hop
      by_cases hcolumn : isIdentifierText name = true
      · let column : Identifier := ⟨name, hcolumn⟩
        rcases tests_or_faulty (.arr (.str name :: .str operator :: value :: extra.toList))
          (.identifier column) op value extra with ⟨maker, htests⟩ | ⟨e, hfaulty⟩
        · exact ⟨_, @Denotes.condition column operator op value extra maker hop htests⟩
        · exact ⟨_, @Denotes.faultyCondition column operator op value extra e hop hfaulty⟩
      · exact ⟨_, .conditionOfNoColumn hfirst (Bool.eq_false_iff.2 hcolumn) hop⟩
    · have hcolumn : isIdentifierText name = true := hlikely.resolve_right hop
      exact ⟨_, @Denotes.unknownOperator ⟨name, hcolumn⟩ operator value extra
        fun op hnamed => hop ⟨op, hnamed⟩⟩
  · obtain ⟨programs, hprograms⟩ := exists_programs h
    refine ⟨_, .specs hne (fun symbol rest heq => hname heq) ?_ hprograms⟩
    intro name operator value extra heq
    refine ⟨Bool.eq_false_iff.2 fun hcolumn => ?_, fun op hop => ?_⟩
    · exact hcondition ⟨name, operator, value, extra, heq, .inl hcolumn⟩
    · exact hcondition ⟨name, operator, value, extra, heq, .inr ⟨op, hop⟩⟩

/-- Every specification denotes a program. -/
theorem exists_program : (spec : Json) → ∃ program, Denotes spec program
  | .str s => by
    cases hs : Connective.ofSymbol? s with
    | none => exact ⟨_, .raw hs⟩
    | some connective => exact ⟨_, .loneSymbol hs⟩
  | .null | .bool _ | .int _ | .float _ => ⟨_, .unrecognised nofun nofun nofun⟩
  | .obj members => exists_object members fun _ _ _ item _ => exists_program item
  | .arr items => exists_list items fun item _ => exists_program item
termination_by spec => sizeOf spec
decreasing_by
  · next hmembers hitem =>
    subst hmembers
    exact (Json.sizeOf_lt_of_mem hitem).2 _
  · next hitem => exact (Json.sizeOf_lt_of_mem hitem).1

end Denotes

/-! ## Adding a specification -/

/-- Every specification denotes a program, and adding it to a group is
running the program on the group: if the program goes through, the group is
what the program makes of it, and otherwise it is refused with the error of
the program and the group stays as it was. -/
theorem Group.add_spec (spec : Json) : (∃ program, Denotes spec program) ∧
    ∀ program, Denotes spec program →
      ∀ g, Group.add (.spec spec) g = Edit.attempt program.apply g := by
  refine ⟨Denotes.exists_program spec, fun program hprogram g => ?_⟩
  have hadded : added (.spec spec) g = program.apply g := by
    rw [added_spec, hprogram.apply_eq]
    change (SqlTree.specify spec g).map uncached = _
    cases hspecify : SqlTree.specify spec g with
    | error e => rfl
    | ok g' =>
      obtain ⟨before, p, rfl⟩ := specify_pushes hspecify
      rfl
  rw [add, Edit.attempt, hadded]
  rfl

/-- A group of raw SQL and of a test whose operator is written in its own
way, joined by `OR`. -/
theorem Group.add_spec_of_chained :
    let b : Identifier := ⟨"b", by decide +kernel⟩
    let test : Json := .arr [.str "b", .str " Not  IN ", .arr [.int 1, .null]]
    let spec : Json := .arr [.str "||", .obj [("&&", .arr [.str "a = 1", test])]]
    let inner : Edit Group := .inOrder
      [Group.add (.raw "a = 1"), Group.addMade (.inValues (.identifier b) true [.int 1, .null])]
    let program : Edit Group := .andThen (.always (Group.joinNext .or)) (Group.nestWith .and inner)
    Denotes spec program ∧ ∀ g, Group.add (.spec spec) g = Edit.attempt program.apply g := by
  intro b test spec inner program
  classical
  let made : Edit Group := Group.addMade (.inValues (.identifier b) true [.int 1, .null])
  let programs (item : Json) : Edit Group :=
    if item = test then made else Group.add (.raw "a = 1")
  have hraw : programs (.str "a = 1") = Group.add (.raw "a = 1") := if_neg nofun
  have htested : programs test = made := if_pos rfl
  have hop : ConditionOperator.IsNamed (.inList true) " Not  IN " :=
    ⟨"not in", by decide, by decide +kernel⟩
  have htest : Denotes test made := @Denotes.condition b _ _ _ none _ hop (.inList rfl)
  have hitems : ∀ item ∈ [.str "a = 1", test], Denotes item (programs item) := by
    refine List.forall_mem_cons.2 ⟨?_, List.forall_mem_singleton.2 ?_⟩
    · rw [hraw]
      exact .raw rfl
    · rw [htested]
      exact htest
  have hgroup : Denotes (.obj [("&&", .arr [.str "a = 1", test])])
      (Group.nestWith .and (.inOrder ([.str "a = 1", test].map programs))) := .group rfl hitems
  have hprogram : Denotes spec program := by
    rw [List.map_cons, List.map_cons, List.map_nil, hraw, htested] at hgroup
    exact .chained rfl hgroup
  exact ⟨hprogram, (Group.add_spec spec).2 program hprogram⟩

end SqlTree
