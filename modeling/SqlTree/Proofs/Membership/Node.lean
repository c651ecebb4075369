import SqlTree.Node
import SqlTree.Predicate
import SqlTree.Proofs.Draft.Effect
import SqlTree.Proofs.Membership.Reader

/-!
# SqlTree.Proofs.Membership.Node

A test against a list knows null.  Whatever the list holds, the predicate that
is built for it compiles in every dialect and from every collector to a
condition on the column that can be read back (`Predicate.ReadsAs`): its
members are the values of the list other than null, each bound once and in
the order of the list.  With null in the list the condition and its negation
are known on every row and opposite (`Predicate.inList_selects`).
-/

namespace SqlTree

/-! ## Compiling lists -/

/-- The values of a list as they are bound. -/
def listBindings (values : List Value) : List Binding :=
  values.map fun v => ⟨v, v.bindType, "in"⟩

theorem Collecting.mapM_bindValue (values : List Value) (c : Collector) :
    (values.mapM fun v => bindValue v "in") c =
      .ok (c.markersFor (listBindings values)) (c.bindAll (listBindings values)) := by
  induction values generalizing c with
  | nil => rfl
  | cons v values ih =>
    have hfirst : bindValue v "in" c = .ok (c.record v v.bindType "in").1
        (c.bind ⟨v, v.bindType, "in"⟩) := rfl
    rw [List.mapM_cons]
    simp only [bind, EStateM.bind, hfirst, ih]
    rfl

/-- Its values are bound one after the other, and nothing else is. -/
theorem Predicate.steps_inValues (d : Dialect) (column : Reference) (negated : Bool)
    (values : List Value) (orNull : Bool) (c : Collector) :
    Predicate.steps d (.inValues column negated values orNull) c =
      .ok (inListText (column.quoted d) negated (c.markersFor (listBindings values)) orNull)
        (.inValues column negated values orNull, c.bindAll (listBindings values)) := by
  rw [Predicate.steps, Run.collect]
  simp only [bind, EStateM.bind, Collecting.mapM_bindValue]
  rfl

theorem isMarker_of_mem_markersFor {c : Collector} {bs : List Binding} {marker : String}
    (h : marker ∈ c.markersFor bs) : isMarker marker.toList = true := by
  induction bs generalizing c with
  | nil => cases h
  | cons b bs ih =>
    rcases List.mem_cons.1 h with rfl | h
    · exact c.isMarker_record b
    · exact ih h

/-! ## Reading them -/

/-- The predicate compiles from the collector `c` to the text `sql`, which is
read as a test of the column with these keys.  They are the keys of the
entries that are `added`, which hold the members in order, and whatever is
bound later, the test with the values under its keys is `condition`. -/
structure Predicate.ReadsAs (d : Dialect) (column : Reference) (members : List Value)
    (condition : ColumnCondition Value) (c : Collector) (p : Predicate) (sql : String)
    (keys : ColumnCondition Key) (added : List Entry) : Prop where
  text : answer (Node.compileInto d .predicate p c) = .ok sql
  read : readColumnCondition (column.quoted d) (c.size + 1) sql = some keys
  entries : (left (Node.compileInto d .predicate p c)).2.entries = c.entries ++ added
  entryKeys : keys.members = added.map Entry.key
  bound : added.map (fun e => (e.value, e.type)) = members.map fun v => (v, v.bindType)
  values : ∀ later, keys.values ((left (Node.compileInto d .predicate p c)).2.bindAll later) =
    some condition

namespace ColumnCondition

variable {α : Type}

@[simp] theorem members_listed (negated : Bool) (as : List α) (orNull : Bool) :
    (listed negated as orNull).members = as := by
  unfold listed
  split
  · next h => rw [List.isEmpty_iff.1 h]; rfl
  · split
    · exact List.append_nil as
    · rfl

/-- Keys that are found give the condition on their values. -/
theorem values_listed {c : Collector} {keys : List Key} {members : List Value}
    (h : (keys.mapM fun key => (c.entryAt? key).map Entry.value) = some members)
    (negated orNull : Bool) : (listed negated keys orNull).values c =
      some (listed negated members orNull) := by
  cases keys with
  | nil =>
    obtain rfl : [] = members := Option.some.inj h
    rfl
  | cons key keys =>
    obtain ⟨v, members, rfl⟩ : ∃ v vs, members = v :: vs := by
      rw [List.mapM_cons] at h
      obtain ⟨v, -, h⟩ := Option.bind_eq_some_iff.1 h
      obtain ⟨vs, -, h⟩ := Option.bind_eq_some_iff.1 h
      exact ⟨v, vs, (Option.some.inj h).symm⟩
    have hlist : (ColumnTest.isIn negated (key :: keys)).values c =
        some (.isIn negated (v :: members)) := congrArg (Option.map _) h
    simp only [listed, List.isEmpty_cons, Bool.false_eq_true, if_false]
    split
    · rw [values, hlist]
      rfl
    · rw [values, hlist]
      rfl

end ColumnCondition

theorem Collector.entries_bindAll_keysFor (c : Collector) (bs : List Binding) : ∃ added,
    (c.bindAll bs).entries = c.entries ++ added ∧ added.map Entry.key = c.keysFor bs ∧
      added.map (fun e => (e.value, e.type)) = bs.map fun b => (b.value, b.type) := by
  induction bs generalizing c with
  | nil => exact ⟨[], (List.append_nil _).symm, rfl, rfl⟩
  | cons b bs ih =>
    obtain ⟨added, hadded, hkeys, hbound⟩ := ih (c.bind b)
    refine ⟨⟨c.nextKey b.hint, b.value, b.type⟩ :: added, ?_, ?_, ?_⟩
    · change ((c.bind b).bindAll bs).entries = _
      rw [hadded, entries_bind, List.append_assoc, List.singleton_append]
    · rw [List.map_cons, hkeys]
      rfl
    · rw [List.map_cons, hbound]
      rfl

/-- The test of a list is read as one, with each value of the list in it. -/
theorem Predicate.readsAs_inValues (d : Dialect) (column : Reference) (negated : Bool)
    (members : List Value) (orNull : Bool) (c : Collector) : ∃ sql keys added,
      ReadsAs d column members (.listed negated members orNull) c
        (.inValues column negated members orNull) sql keys added := by
  let bs := listBindings members
  let sql := inListText (column.quoted d) negated (c.markersFor bs) orNull
  have hrun : Node.compileInto d .predicate (.inValues column negated members orNull) c =
      .ok sql (.inValues column negated members orNull, c.bindAll bs) := by
    change Outcome.orRestore c (Predicate.steps d _ c) = _
    rw [Predicate.steps_inValues]
    rfl
  obtain ⟨added, hadded, hkeys, hbound⟩ := c.entries_bindAll_keysFor bs
  refine ⟨sql, .listed negated (c.keysFor bs) orNull, added, ?_⟩
  have hleft : (left (Node.compileInto d .predicate (.inValues column negated members orNull)
      c)).2 = c.bindAll bs := by rw [hrun]; rfl
  refine ⟨by rw [hrun]; rfl, ?_, by rw [hleft, hadded], ?_, ?_, fun later => ?_⟩
  · rw [readColumnCondition_inListText _ _ _ _ fun m hm => isMarker_of_mem_markersFor hm,
      c.keysFrom_markersFor]
  · rw [ColumnCondition.members_listed, hkeys]
  · rw [hbound]
    simp [bs, listBindings]
  · have hvalues : bs.map Binding.value = members := by
      simp [bs, listBindings, Function.comp_def]
    rw [hleft]
    exact ColumnCondition.values_listed (hvalues ▸ c.mapM_entryAt?_keysFor bs later) _ _

/-- It compiles by itself as it does into a collector without entries. -/
theorem Predicate.answer_compile_inValues (d : Dialect) (column : Reference) (negated : Bool)
    (members : List Value) (orNull : Bool) :
    answer (Node.compile d .predicate (.inValues column negated members orNull)) =
      answer (Node.compileInto d .predicate (.inValues column negated members orNull)
        (.empty d.style)) := by
  change answer (unkept d (Predicate.steps d _)) =
    answer (Outcome.orRestore _ (Predicate.steps d _ _))
  rw [unkept, Predicate.steps_inValues]
  rfl

/-! ## Main result -/

/-- A list that is not empty is tested as it is meant, whatever column, dialect
and collector.  The predicate and its negation compile to conditions on the
column whose members are the values of the list other than null.  With null
in the list the first is true of null and of what equals a member, the
negation of everything else, and there is no row of which nothing is known.
Without it the first is true of what equals a member, and the negation of
what is not null and equals none. -/
theorem Predicate.inList_selects (column : Reference) {values : List Value} (hvalues : values ≠ [])
    (d : Dialect) : ∃ condition : Bool → ColumnCondition Value,
    (∀ negated, ∃ p, inList column negated values = .ok p ∧
      answer (Node.compile d .predicate p) =
        answer (Node.compileInto d .predicate p (.empty d.style)) ∧
      ∀ c, ∃ sql keys added, ReadsAs d column (values.filter fun v => !v.isNull)
        (condition negated) c p sql keys added) ∧
    ∀ {ρ : Type} (equal : ρ → Value → Bool) (x? : Option ρ),
      let verdict (negated : Bool) := (condition negated).verdict equal x?
      let isListed := ∃ x, x? = some x ∧ ∃ v ∈ values, v ≠ .null ∧ equal x v = true
      (.null ∈ values →
        (verdict false = .holds ↔ x? = none ∨ isListed) ∧
        (verdict true = .holds ↔ x? ≠ none ∧ ¬isListed) ∧
        (∀ negated, verdict negated ≠ .unknown) ∧ verdict true = (verdict false).not) ∧
      (.null ∉ values →
        (verdict false = .holds ↔ isListed) ∧
        (verdict true = .holds ↔ x? ≠ none ∧ ¬isListed)) := by
  let kept := values.filter fun v => !v.isNull
  let orNull := values.any Value.isNull
  have hnull : orNull = true ↔ Value.null ∈ values := by
    simp [orNull, Value.isNull_iff]
  refine ⟨fun negated => .listed negated kept orNull, fun negated => ?_, fun equal x? => ?_⟩
  · refine ⟨.inValues column negated kept orNull, ?_, answer_compile_inValues .., fun c =>
      readsAs_inValues d column negated kept orNull c⟩
    rw [inList, if_neg (by simpa using hvalues)]
  · cases x? with
    | none =>
      have hverdict (negated : Bool) : (ColumnCondition.listed negated kept orNull).verdict equal
          none = if orNull then .ofBool !negated else .unknown :=
        ColumnCondition.verdict_listed_none negated hvalues
      refine ⟨fun h => ?_, fun h => ?_⟩
      · simp only [hverdict, if_pos (hnull.2 h)]
        simp [Verdict.not]
      · simp only [hverdict, if_neg (mt hnull.1 h)]
        simp
    | some x =>
      have hlisted : (∃ y, some x = some y ∧ ∃ v ∈ values, v ≠ .null ∧ equal y v = true) ↔
          (values.any fun v => !v.isNull && equal x v) = true := by
        simp [List.any_eq_true, ← Value.isNull_iff]
      have hverdict (negated : Bool) : (ColumnCondition.listed negated kept orNull).verdict equal
          (some x) = .ofBool (negated ^^ values.any fun v => !v.isNull && equal x v) :=
        ColumnCondition.verdict_listed_some negated x
      simp only [hlisted, hverdict]
      simp [Verdict.ofBool_ne_unknown, Verdict.not_ofBool]

/-- Of a column of numbers, what is neither one nor two nor null. -/
theorem Predicate.inList_selects_of_numbers :
    let column : Reference := .identifier ⟨"a", by decide⟩
    let values : List Value := [.int 1, .null, .int 2]
    let equal (x : Int64) (v : Value) : Bool := v == .int x
    let sql := "(\"a\" NOT IN (:in1, :in2) AND \"a\" IS NOT NULL)"
    values ≠ [] ∧ ∃ condition : Bool → ColumnCondition Value,
      (∃ p keys added, inList column true values = .ok p ∧
        ReadsAs Dialect.ansi column [.int 1, .int 2] (condition true) (.empty .named) p sql
          keys added) ∧
      (condition false).verdict equal none = .holds ∧
      (condition true).verdict equal none = .fails ∧
      (condition true).verdict equal (some 3) = .holds := by
  intro column values equal sql
  have hvalues : values ≠ [] := List.cons_ne_nil _ _
  have hnull : Value.null ∈ values := by decide
  obtain ⟨condition, hreads, hverdict⟩ := Predicate.inList_selects column hvalues Dialect.ansi
  obtain ⟨p, hp, -, hreads⟩ := hreads true
  obtain ⟨sql', keys, added, hreads⟩ := hreads (.empty .named)
  obtain ⟨hnone, -, -, hnot⟩ := (hverdict equal none).1 hnull
  obtain ⟨-, hthree, -⟩ := (hverdict equal (some 3)).1 hnull
  have hsql : sql' = sql := by
    have htext : answer (Node.compileInto Dialect.ansi .predicate p (.empty .named)) = .ok sql := by
      obtain rfl := Except.ok.inj hp
      refine eq_ok_of_toOption ?_
      decide +kernel
    exact Except.ok.inj (hreads.text.symm.trans htext)
  have hholds : (condition false).verdict equal none = .holds := hnone.2 (.inl rfl)
  have hfails : (condition true).verdict equal none = .fails :=
    hnot.trans (congrArg Verdict.not hholds)
  refine ⟨hvalues, condition, ⟨p, keys, added, hp, hsql ▸ hreads⟩, hholds, hfails, ?_⟩
  refine hthree.2 ⟨Option.some_ne_none _, ?_⟩
  rintro ⟨_, ⟨⟩, v, hv, -, hequal⟩
  revert v
  decide

end SqlTree
