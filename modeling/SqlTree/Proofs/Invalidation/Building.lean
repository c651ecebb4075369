import SqlTree.Proofs.Invalidation.Path
import SqlTree.Proofs.Rows.Build

/-!
# SqlTree.Proofs.Invalidation.Building

Building and changing nodes is exact about what is kept.  A method that adds
a condition does its work in the group of a clause below, so this group is the
node that it changes (`Builder.address`, `Change.address`), and some methods
take nodes away (`Builder.Replaces`, `Change.Replaces`).  What a builder gives
and what a change leaves differ from the node before there and nowhere else
(`Builder.altered`, `Change.altered`).
-/

namespace SqlTree

open AnyNode

variable {k : Kind} {replaced : Position → Prop}

/-! ## Where methods work -/

namespace Builder

/-- The address of the part of a node that a builder works on. -/
def address : {k : Kind} → Builder k → List Position
  | _, .selectWhere _ | _, .selectOrWhere _ | _, .updateWhere _ | _, .updateOrWhere _
  | _, .deleteWhere _ | _, .deleteOrWhere _ => [.filter, .group]
  | _, .having _ => [.having, .group]
  | _, .on _ => [.on, .group]
  | _, _ => []

/-- The positions whose nodes a builder replaces: the operand of a combination,
the source of rows, and the values of columns that are assigned to again. -/
def Replaces : {k : Kind} → Builder k → Node k → Position → Prop
  | _, .combine _ _, _, p => p = .combined
  | _, .source _, _, p => p = .source
  | _, .set name _, (u : Update), p =>
      ∃ i a, p = .assigned i ∧ u.assignments[i]? = some a ∧ a.column.text = name
  | _, .setAll pairs, (u : Update), p =>
      ∃ i a, p = .assigned i ∧ u.assignments[i]? = some a ∧ a.column.text ∈ pairs.map Prod.fst
  | _, _, _, _ => False

end Builder

namespace Change

/-- The address of the part of a node that a change works on. -/
def address : {k : Kind} → Change k → List Position
  | _, .addTo _ => [.group]
  | _, _ => []

/-- The positions whose nodes a change removes. -/
def Replaces : {k : Kind} → Change k → Position → Prop
  | _, .clear, p => ∃ i, p = .term i
  | _, _, _ => False

end Change

/-! ## Groups and clauses -/

namespace Group

/-- An item is added behind what is there. -/
theorem left_add (item : Item) (g : Group) :
    g.terms <+: (left (add item g)).terms ∧
      ((left (add item g)).cache = none ∨ left (add item g) = g) := by
  cases hadded : added item g with
  | error e =>
    have hleft : left (add item g) = g := by simp only [add, Edit.attempt, hadded, left]
    rw [hleft]
    exact ⟨List.prefix_rfl, .inr rfl⟩
  | ok g' =>
    have hleft : left (add item g) = g' := by simp only [add, Edit.attempt, hadded, left]
    rw [hleft]
    cases item with
    | raw sql =>
      obtain ⟨p, -, rfl⟩ := exists_of_map_eq_ok hadded
      exact ⟨List.prefix_append _ _, .inl rfl⟩
    | predicate p | group inner =>
      cases hadded
      exact ⟨List.prefix_append _ _, .inl rfl⟩
    | clause c =>
      obtain ⟨kind, _ | inner⟩ := c
      · cases hadded
        exact ⟨List.prefix_rfl, .inr rfl⟩
      · cases hadded
        exact ⟨List.prefix_append _ _, .inl rfl⟩
    | spec j =>
      obtain ⟨pushed, hpushed, rfl⟩ := exists_of_added_spec hadded
      have hterms : g.terms <+: pushed.terms :=
        specify_leads (R := fun g g' => g.terms <+: g'.terms) (fun _ => List.prefix_rfl)
          List.IsPrefix.trans (fun _ _ _ => List.prefix_append _ _)
          (fun _ _ _ _ => List.prefix_append _ _) (fun _ _ => List.prefix_rfl) hpushed
      exact ⟨hterms, .inl rfl⟩

/-- A group that is longer, or reads as before. -/
theorem altered_of_prefix {g g' : Group} (hterms : g.terms <+: g'.terms)
    (h : g'.cache = none ∨ ReadsAs ⟨.group, g⟩ ⟨.group, g'⟩) :
    Altered [] replaced ⟨.group, g⟩ ⟨.group, g'⟩ :=
  .here h fun _ _ _ => child?_of_prefix hterms

theorem altered_add (item : Item) (g : Group) :
    Altered [] replaced ⟨.group, g⟩ ⟨.group, left (add item g)⟩ := by
  obtain ⟨hterms, hcache⟩ := left_add item g
  exact altered_of_prefix hterms (hcache.imp_right .of_eq)

theorem altered_addJoined (connective : Connective) (item : Item) (g : Group) :
    Altered [] replaced ⟨.group, g⟩ ⟨.group, left (addJoined connective item g)⟩ := by
  obtain ⟨hterms, hcache⟩ := left_add item (g.joinNext connective)
  exact altered_of_prefix hterms (hcache.imp_right (.joining g.default (some connective)))

end Group

/-- What goes well has its outcome in what it leaves. -/
theorem Edit.eq_left_of_apply {ν : Type} {edit : Edit ν} {n n' : ν} (h : edit.apply n = .ok n') :
    n' = left (edit n) := by
  unfold Edit.apply at h
  split at h
  · next heq =>
    cases h
    rw [heq]
    rfl
  · cases h

/-- A change of the group of a clause is put back in either case. -/
theorem Clause.left_onGroup (edit : Edit Group) (c : Clause) :
    left (onGroup edit c) = c.putGroup (left (edit c.groupOrEmpty)) := by
  simp only [onGroup, Edit.part]
  split <;> next heq => rw [heq]; rfl

theorem Change.altered (c : Change k) (n : Node k) :
    Altered c.address c.Replaces ⟨k, n⟩ ⟨k, left (c.edit n)⟩ := by
  cases c with
  | add item => exact Group.altered_add item n
  | addJoined connective item => exact Group.altered_addJoined connective item n
  | joinNext connective => exact Group.altered_of_prefix List.prefix_rfl (.inr (.joining _ _ rfl))
  | setDefault connective => exact Group.altered_of_prefix List.prefix_rfl (.inr (.joining _ _ rfl))
  | clear =>
    refine .here (.inl rfl) fun p v hp hv => ?_
    cases p with
    | term i => exact absurd ⟨i, rfl⟩ hp
    | _ => exact hv
  | addTo item =>
    have hleft : left (Clause.add item n) = _ := Clause.left_onGroup (Group.add item) n
    exact hleft ▸ .step (Clause.steps_putGroup n _) (Group.altered_add item _)

/-! ## Selects -/

/-- A select made from another one by dropping what it keeps and putting more
behind what there is. -/
structure Select.Extends (replaced : Position → Prop) (s s' : Select) : Prop where
  cache : s'.cache = none
  columnTexts : s'.columnTexts = none
  columns : s.columns <+: s'.columns
  origin : s.origin? = none ∨ s'.origin? = s.origin?
  joins : s.joins <+: s'.joins
  filter : s'.filter = s.filter
  having : s'.having = s.having
  combined : replaced .combined ∨ s'.combined? = s.combined?

namespace Select

theorem extends_touched (replaced : Position → Prop) (s : Select) : s.Extends replaced s.touched :=
  ⟨rfl, rfl, List.prefix_rfl, .inr rfl, List.prefix_rfl, rfl, rfl, .inr rfl⟩

theorem Extends.altered {s s' : Select} (h : s.Extends replaced s') :
    Altered [] replaced ⟨.select, s⟩ ⟨.select, s'⟩ := by
  refine .here (.inl ⟨h.cache, h.columnTexts⟩) fun p v hp hv => ?_
  cases p with
  | column i =>
    obtain ⟨c, hc, hv⟩ := Option.bind_eq_some_iff.1 hv
    exact Option.bind_eq_some_iff.2 ⟨c, getElem?_of_prefix h.columns hc, hv⟩
  | origin =>
    rcases h.origin with hnone | hsame
    · have hselect : s.originSelect? = none := by rw [originSelect?, hnone]
      cases (congrArg (Option.map _) hselect).symm.trans hv
    · have hselect : s'.originSelect? = s.originSelect? := by
        rw [originSelect?, originSelect?, hsame]
      exact (congrArg (Option.map _) hselect).trans hv
  | join i =>
    obtain ⟨j, hj, hv⟩ := Option.map_eq_some_iff.1 hv
    exact Option.map_eq_some_iff.2 ⟨j, getElem?_of_prefix h.joins hj, hv⟩
  | filter => exact (congrArg (fun c => some (⟨.clause, c⟩ : AnyNode)) h.filter).trans hv
  | having => exact (congrArg (fun c => some (⟨.clause, c⟩ : AnyNode)) h.having).trans hv
  | combined => exact (congrArg (Option.map _) (h.combined.resolve_left hp)).trans hv
  | _ => exact hv

theorem extends_atNesting {s : Select} {origin : Origin} (hnone : s.origin? = none)
    (nesting : Nat) :
    s.Extends replaced (({ s with origin? := some origin } : Select).atNesting nesting) := by
  cases origin with
  | table name alias? => exact { s.extends_touched replaced with origin := .inl hnone }
  | subquery inner a =>
    rw [atNesting]
    exact { s.extends_touched replaced with origin := .inl hnone }

theorem extends_of_setOrigin {s s' : Select} {origin : Origin} (h : s.setOrigin origin = .ok s') :
    s.Extends replaced s' := by
  unfold setOrigin at h
  split at h
  · cases h
  · next hnone =>
    cases h
    exact extends_atNesting hnone s.nesting

theorem extends_of_combine {s other s' : Select} {operation : SetOperation}
    (hreplaced : replaced .combined) (h : s.combine operation other = .ok s') :
    s.Extends replaced s' := by
  unfold combine at h
  split at h
  · split at h <;> cases h
    exact { s.extends_touched replaced with combined := .inl hreplaced }
  · cases h
    exact { s.extends_touched replaced with combined := .inl hreplaced }

end Select

/-! ## Other statements and joins -/

theorem Insert.altered_of_prefix {i i' : Insert} (hcache : i'.cache = none)
    (hrows : i.rows <+: i'.rows) (hsource : replaced .source ∨ i'.source? = i.source?) :
    Altered [] replaced ⟨.insert, i⟩ ⟨.insert, i'⟩ := by
  refine .here (.inl hcache) fun p v hp hv => ?_
  cases p with
  | value row index =>
    obtain ⟨o, ho, hv⟩ := Option.bind_eq_some_iff.1 hv
    obtain ⟨os, hos, ho⟩ := Option.bind_eq_some_iff.1 ho
    exact Option.bind_eq_some_iff.2
      ⟨o, Option.bind_eq_some_iff.2 ⟨os, getElem?_of_prefix hrows hos, ho⟩, hv⟩
  | source => exact (congrArg (Option.map _) (hsource.resolve_left hp)).trans hv
  | _ => exact hv

/-- An assignment replaces none but those to the same column. -/
theorem getElem?_assign {column : Identifier} {value : Operand} {as : List Assignment} {i : Nat}
    {a : Assignment} (ha : as[i]? = some a) (hcolumn : a.column ≠ column) :
    (assign column value as)[i]? = some a := by
  induction as generalizing i with
  | nil => cases ha
  | cons first rest ih =>
    rw [assign]
    cases i with
    | zero =>
      cases ha
      rw [if_neg hcolumn]
      rfl
    | succ i =>
      split
      · exact ha
      · exact ih ha

/-- Assignments to columns by name: no other is replaced, and nothing is kept
unless there are none. -/
structure Update.Assigns (names : List String) (u u' : Update) : Prop where
  cache : u'.cache = none ∨ u' = u
  filter : u'.filter = u.filter
  assignments : ∀ (i : Nat) a, u.assignments[i]? = some a → a.column.text ∉ names →
    u'.assignments[i]? = some a

namespace Update

variable {u u' : Update} {name : String} {value : Operand} {names : List String}

theorem assigns_set (h : u.set name value = .ok u') : u.Assigns [name] u' := by
  obtain ⟨column, hcolumn, h⟩ := exists_of_bind_eq_ok h
  cases h
  refine ⟨.inl rfl, rfl, fun i a ha hname => getElem?_assign ha fun heq => hname ?_⟩
  rw [heq, Identifier.text_of_parse hcolumn]
  exact List.mem_singleton.2 rfl

theorem assigns_setAll {pairs : List (String × Operand)} (h : setAll pairs u = .ok u') :
    u.Assigns (pairs.map Prod.fst) u' := by
  induction pairs generalizing u with
  | nil =>
    cases h
    exact ⟨.inr rfl, rfl, fun _ _ ha _ => ha⟩
  | cons pair pairs ih =>
    rw [setAll] at h
    split at h
    · next u₁ hset =>
      have hfirst := assigns_set hset
      have hrest := ih h
      refine ⟨?_, hrest.filter.trans hfirst.filter, fun i a ha hname => ?_⟩
      · rcases hrest.cache with hcache | rfl
        · exact .inl hcache
        · exact hfirst.cache
      · obtain ⟨hne, hname⟩ := not_or.1 (mt List.mem_cons.2 hname)
        exact hrest.assignments i a (hfirst.assignments i a ha (mt List.mem_singleton.1 hne)) hname
    · cases h

theorem Assigns.altered (h : u.Assigns names u')
    (hreplaced : ∀ (i : Nat) a, u.assignments[i]? = some a → a.column.text ∈ names →
      replaced (.assigned i)) :
    Altered [] replaced ⟨.update, u⟩ ⟨.update, u'⟩ := by
  refine .here (h.cache.imp_right .of_eq) fun p v hp hv => ?_
  cases p with
  | assigned i =>
    obtain ⟨a, ha, hv⟩ := Option.bind_eq_some_iff.1 hv
    have hname : a.column.text ∉ names := fun hname => hp (hreplaced i a ha hname)
    exact Option.bind_eq_some_iff.2 ⟨a, h.assignments i a ha hname, hv⟩
  | filter => exact (congrArg (fun c => some (⟨.clause, c⟩ : AnyNode)) h.filter).trans hv
  | _ => exact hv

end Update

/-! ## Builders -/

/-- Who adds a condition to a clause adds it to its group. -/
theorem Clause.altered_of_apply {edit : Edit Group} {c c' : Clause}
    (h : (onGroup edit).apply c = .ok c') {p : Position} {u u' : AnyNode}
    (hstep : Steps p u u' ⟨.clause, c⟩ ⟨.clause, c'⟩)
    (hgroup : Altered [] replaced ⟨.group, c.groupOrEmpty⟩ ⟨.group, left (edit c.groupOrEmpty)⟩) :
    Altered [p, .group] replaced u u' := by
  obtain rfl := (Edit.eq_left_of_apply h).trans (left_onGroup edit c)
  exact .step hstep (.step (steps_putGroup c _) hgroup)

theorem Builder.altered_select {b : Builder .select} {s s' : Select} (h : b.build s = .ok s') :
    Altered b.address (b.Replaces s) ⟨.select, s⟩ ⟨.select, s'⟩ := by
  have htouched := s.extends_touched (b.Replaces s)
  cases b with
  | distinct | groupBy r | orderBy r direction | limit count | offset count | pretty spread =>
    cases h
    exact Select.Extends.altered { htouched with }
  | column src alias? =>
    obtain ⟨alias?, -, h⟩ := exists_of_bind_eq_ok h
    cases h
    exact Select.Extends.altered { htouched with columns := List.prefix_append _ _ }
  | into name =>
    obtain ⟨name, -, h⟩ := exists_of_bind_eq_ok h
    cases h
    exact Select.Extends.altered { htouched with }
  | order terms =>
    obtain ⟨terms, -, h⟩ := exists_of_bind_eq_ok h
    cases h
    exact Select.Extends.altered { htouched with }
  | fromTable name =>
    obtain ⟨name, -, h⟩ := exists_of_bind_eq_ok h
    exact (Select.extends_of_setOrigin h).altered
  | fromTableAs name known =>
    obtain ⟨name, -, h⟩ := exists_of_bind_eq_ok h
    obtain ⟨a, -, h⟩ := exists_of_bind_eq_ok h
    exact (Select.extends_of_setOrigin h).altered
  | fromSubquery inner known =>
    obtain ⟨a, -, h⟩ := exists_of_bind_eq_ok h
    exact (Select.extends_of_setOrigin h).altered
  | join j =>
    cases h
    exact Select.Extends.altered { htouched with joins := List.prefix_append _ _ }
  | combine operation other =>
    have hreplaced : Builder.Replaces (.combine operation other) s .combined := rfl
    exact (Select.extends_of_combine hreplaced h).altered
  | selectWhere item =>
    obtain ⟨filter, hfilter, h⟩ := exists_of_bind_eq_ok h
    cases h
    exact Clause.altered_of_apply hfilter (s.steps_filter _) (Group.altered_add item _)
  | selectOrWhere item =>
    obtain ⟨filter, hfilter, h⟩ := exists_of_bind_eq_ok h
    cases h
    exact Clause.altered_of_apply hfilter (s.steps_filter _) (Group.altered_addJoined .or item _)
  | having item =>
    obtain ⟨having, hhaving, h⟩ := exists_of_bind_eq_ok h
    cases h
    exact Clause.altered_of_apply hhaving (s.steps_having _) (Group.altered_add item _)

theorem Builder.altered_insert {b : Builder .insert} {i i' : Insert} (h : b.build i = .ok i') :
    Altered b.address (b.Replaces i) ⟨.insert, i⟩ ⟨.insert, i'⟩ := by
  have hlonger (row : List Operand) : i.rows <+: i.rows ++ [row] := List.prefix_append _ _
  cases b with
  | insertInto name =>
    obtain ⟨table, rfl⟩ := Insert.intoTable_eq_ok h
    exact Insert.altered_of_prefix rfl List.prefix_rfl (.inr rfl)
  | columns names =>
    obtain ⟨columns, rfl⟩ := Insert.setColumns_eq_ok h
    exact Insert.altered_of_prefix rfl List.prefix_rfl (.inr rfl)
  | row values =>
    obtain ⟨-, rfl⟩ := Insert.addRow_eq_ok h
    exact Insert.altered_of_prefix rfl (hlonger values) (.inr rfl)
  | namedRow pairs =>
    obtain ⟨named, -, h⟩ := exists_of_bind_eq_ok h
    split at h
    · obtain ⟨added, hadded, h⟩ := exists_of_bind_eq_ok h
      cases h
      obtain ⟨-, rfl⟩ := Insert.addRow_eq_ok hadded
      exact Insert.altered_of_prefix rfl (hlonger _) (.inr rfl)
    · split at h
      · cases h
      · obtain ⟨row, -, h⟩ := exists_of_bind_eq_ok h
        obtain ⟨-, rfl⟩ := Insert.addRow_eq_ok h
        exact Insert.altered_of_prefix rfl (hlonger row) (.inr rfl)
  | source s =>
    obtain ⟨-, rfl⟩ := Insert.fromSelect_eq_ok h
    exact Insert.altered_of_prefix rfl List.prefix_rfl (.inl rfl)

theorem Builder.altered {b : Builder k} {n n' : Node k} (h : b.build n = .ok n') :
    Altered b.address (b.Replaces n) ⟨k, n⟩ ⟨k, n'⟩ := by
  cases k with
  | select => exact altered_select h
  | insert => exact altered_insert h
  | update =>
    cases b with
    | updateTable name =>
      have hset : Update.setTable name n = .ok n' := h
      unfold Update.setTable at hset
      split at hset
      · cases hset
      · obtain ⟨table, -, hset⟩ := exists_of_bind_eq_ok hset
        cases hset
        exact .here (.inl rfl) fun p v _ hv => by cases p <;> exact hv
    | set name value =>
      exact (Update.assigns_set h).altered fun i a ha hname =>
        ⟨i, a, rfl, ha, List.mem_singleton.1 hname⟩
    | setAll pairs =>
      exact (Update.assigns_setAll h).altered fun i a ha hname => ⟨i, a, rfl, ha, hname⟩
    | updateWhere item =>
      obtain ⟨filter, hfilter, h⟩ := exists_of_bind_eq_ok h
      cases h
      exact Clause.altered_of_apply hfilter (Update.steps_filter n _) (Group.altered_add item _)
    | updateOrWhere item =>
      obtain ⟨filter, hfilter, h⟩ := exists_of_bind_eq_ok h
      cases h
      exact Clause.altered_of_apply hfilter (Update.steps_filter n _)
        (Group.altered_addJoined .or item _)
  | delete =>
    cases b with
    | deleteFrom name =>
      have hset : Delete.fromTable name n = .ok n' := h
      unfold Delete.fromTable at hset
      split at hset
      · cases hset
      · obtain ⟨table, -, hset⟩ := exists_of_bind_eq_ok hset
        cases hset
        exact .here (.inl rfl) fun p v _ hv => by cases p <;> exact hv
    | deleteWhere item =>
      obtain ⟨filter, hfilter, h⟩ := exists_of_bind_eq_ok h
      cases h
      exact Clause.altered_of_apply hfilter (Delete.steps_filter n _) (Group.altered_add item _)
    | deleteOrWhere item =>
      obtain ⟨filter, hfilter, h⟩ := exists_of_bind_eq_ok h
      cases h
      exact Clause.altered_of_apply hfilter (Delete.steps_filter n _)
        (Group.altered_addJoined .or item _)
  | join =>
    cases b with
    | label name =>
      obtain ⟨a, -, h⟩ := exists_of_bind_eq_ok h
      cases h
      exact .here (.inl rfl) fun p v _ hv => by cases p <;> exact hv
    | on item =>
      have hon : Join.onItem item n = .ok n' := h
      unfold Join.onItem at hon
      split at hon
      · cases hon
      · obtain ⟨on, hcondition, hon⟩ := exists_of_bind_eq_ok hon
        cases hon
        exact Clause.altered_of_apply hcondition (Join.steps_on n _) (Group.altered_add item _)
  | _ => cases b

end SqlTree
