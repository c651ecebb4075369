import SqlTree.Proofs.Filtered.Visible
import SqlTree.Proofs.Rows.Named

/-!
# SqlTree.Proofs.Assigned

What an update assigns.  `Update.Assigned` are the updates with the pairs
that were assigned on the way to them, in any history of calls.  Of these
pairs, `lastPairs` has one for each column, at the place where it was first
assigned, with the operand that was assigned to it last.  An update is
written with these pairs and no others (`Update.Assigned.writes_lastPairs`):
the operands are compiled one after the other, and then the condition on
rows, so nothing is bound for an operand that has been overwritten.
-/

namespace SqlTree

/-! ## The last operands, in the first order -/

/-- The operand that was assigned last. -/
def lastOperand? (pairs : List (String × Operand)) (name : String) : Option Operand :=
  pairs.reverse.lookup name

/-- Each column once, where it is first assigned, with its last operand. -/
def lastPairs (pairs : List (String × Operand)) : List (String × Operand) :=
  (pairs.map Prod.fst).eraseDups.filterMap fun name => (lastOperand? pairs name).map (name, ·)

theorem lastOperand?_append (pairs : List (String × Operand)) (name : String) (value : Operand)
    (other : String) : lastOperand? (pairs ++ [(name, value)]) other =
      if other = name then some value else lastOperand? pairs other := by
  rw [lastOperand?, List.reverse_append, List.reverse_singleton, List.singleton_append,
    List.lookup_cons]
  by_cases h : other = name
  · simp [h]
  · have hbeq : (other == name) = false := beq_eq_false_iff_ne.2 h
    simp [h, hbeq, lastOperand?]

/-- A name is taken over at its end if it is new. -/
theorem eraseDups_append_singleton (names : List String) (name : String) :
    (names ++ [name]).eraseDups =
      if name ∈ names then names.eraseDups else names.eraseDups ++ [name] := by
  rw [List.eraseDups_append]
  by_cases h : name ∈ names <;> simp [h, List.removeAll, List.eraseDups_cons]

namespace Assignment

/-- An assignment as a pair. -/
def pair (a : Assignment) : String × Operand := (a.column.text, a.value)

/-- An assignment as far as it can be seen in statements. -/
def form (a : Assignment) : Identifier × (Constructs → Except Error Draft) :=
  (a.column, fun k => a.value.draft k a.column.text)

theorem form_fresh (a : Assignment) : a.fresh.form = a.form :=
  Prod.ext rfl (funext fun k => a.value.draft_fresh k a.column.text)

theorem map_form_fresh (as : List Assignment) : (as.map fresh).map form = as.map form := by
  rw [List.map_map]
  exact List.map_congr_left fun a _ => form_fresh a

end Assignment

/-- The assignments are those that the pairs come to. -/
structure ComesTo (pairs : List (String × Operand)) (as : List Assignment) : Prop where
  names : as.map (·.column.text) = (pairs.map Prod.fst).eraseDups
  operands : ∀ a ∈ as, lastOperand? pairs a.column.text = some a.value
  apart : (as.map (·.column.text)).Nodup

theorem Identifier.text_inj {i j : Identifier} : i.text = j.text ↔ i = j := by
  cases i
  cases j
  simp

/-- A column is taken over at the end if it is new. -/
theorem names_assign (column : Identifier) (value : Operand) (as : List Assignment) :
    (assign column value as).map (·.column.text) =
      if column.text ∈ as.map (·.column.text) then as.map (·.column.text)
      else as.map (·.column.text) ++ [column.text] := by
  induction as with
  | nil => rfl
  | cons a as ih =>
    rw [assign]
    by_cases hcolumn : a.column = column
    · simp [hcolumn]
    · have hne : column.text ≠ a.column.text := fun h => hcolumn (Identifier.text_inj.1 h).symm
      rw [if_neg hcolumn, List.map_cons, ih, List.map_cons]
      by_cases hmem : column.text ∈ as.map (·.column.text)
      · rw [if_pos hmem, if_pos (List.mem_cons_of_mem _ hmem)]
      · rw [if_neg hmem, if_neg (List.mem_cons.not.2 (not_or.2 ⟨hne, hmem⟩)), List.cons_append]

/-- Other columns keep their operands. -/
theorem mem_assign {column : Identifier} {value : Operand} {as : List Assignment}
    (hapart : (as.map (·.column.text)).Nodup) {a : Assignment} (ha : a ∈ assign column value as) :
    a = ⟨column, value⟩ ∨ (a ∈ as ∧ a.column.text ≠ column.text) := by
  induction as with
  | nil => exact .inl (List.mem_singleton.1 ha)
  | cons b as ih =>
    obtain ⟨hb, hapart⟩ := List.nodup_cons.1 hapart
    rw [assign] at ha
    by_cases hcolumn : b.column = column
    · rw [if_pos hcolumn] at ha
      rcases List.mem_cons.1 ha with rfl | ha
      · exact .inl rfl
      · refine .inr ⟨List.mem_cons_of_mem _ ha, fun heq => hb ?_⟩
        exact List.mem_map.2 ⟨a, ha, heq.trans (congrArg Identifier.text hcolumn.symm)⟩
    · rw [if_neg hcolumn] at ha
      rcases List.mem_cons.1 ha with rfl | ha
      · exact .inr ⟨List.mem_cons_self, mt Identifier.text_inj.1 hcolumn⟩
      · rcases ih hapart ha with hnew | ⟨hold, hne⟩
        · exact .inl hnew
        · exact .inr ⟨List.mem_cons_of_mem _ hold, hne⟩

namespace ComesTo

variable {pairs : List (String × Operand)} {as : List Assignment}

theorem map_pair (h : ComesTo pairs as) : as.map Assignment.pair = lastPairs pairs := by
  rw [lastPairs, ← h.names, List.filterMap_map, ← List.filterMap_eq_map]
  refine List.filterMap_congr fun a ha => ?_
  rw [Function.comp_apply, Function.comp_apply, h.operands a ha]
  rfl

/-- One more pair is one more assignment. -/
theorem assign (h : ComesTo pairs as) (column : Identifier) (value : Operand) :
    ComesTo (pairs ++ [(column.text, value)]) (assign column value as) where
  names := by
    have hmem : column.text ∈ as.map (·.column.text) ↔ column.text ∈ pairs.map Prod.fst := by
      rw [h.names, List.mem_eraseDups]
    rw [names_assign, List.map_append, List.map_singleton, eraseDups_append_singleton, ← h.names]
    simp only [hmem]
  operands a ha := by
    rw [lastOperand?_append]
    rcases mem_assign h.apart ha with rfl | ⟨hold, hne⟩
    · rw [if_pos rfl]
    · rw [if_neg hne]
      exact h.operands a hold
  apart := by
    rw [names_assign]
    split
    · exact h.apart
    · next hnew =>
      refine List.nodup_append.2 ⟨h.apart, List.nodup_singleton _, fun name hname other hother => ?_⟩
      rw [List.mem_singleton.1 hother]
      exact fun heq => hnew (heq ▸ hname)

end ComesTo

/-! ## Drafts of assignments -/

section

variable {as bs : List Assignment} {k : Constructs}

theorem assign_form (h : as.map Assignment.form = bs.map Assignment.form) (column : Identifier)
    (value : Operand) :
    (assign column value as).map Assignment.form =
      (assign column value bs).map Assignment.form := by
  induction as generalizing bs with
  | nil =>
    rw [List.map_eq_nil_iff.1 h.symm]
  | cons a as ih =>
    cases bs with
    | nil => cases h
    | cons b bs =>
      obtain ⟨hfirst, hrest⟩ := List.cons.inj h
      have hcolumn : a.column = b.column := congrArg Prod.fst hfirst
      rw [assign, assign, hcolumn]
      by_cases hb : b.column = column
      · rw [if_pos hb, if_pos hb, List.map_cons, List.map_cons, hrest]
      · rw [if_neg hb, if_neg hb, List.map_cons, List.map_cons, ih hrest, hfirst]

theorem assignmentDrafts_congr (h : as.map Assignment.form = bs.map Assignment.form) :
    assignmentDrafts k as = assignmentDrafts k bs := by
  induction as generalizing bs with
  | nil => rw [List.map_eq_nil_iff.1 h.symm]
  | cons a as ih =>
    cases bs with
    | nil => cases h
    | cons b bs =>
      obtain ⟨hfirst, hrest⟩ := List.cons.inj h
      have hcolumn : a.column = b.column := congrArg Prod.fst hfirst
      have hvalue : a.value.draft k a.column.text = b.value.draft k b.column.text :=
        congrFun (congrArg Prod.snd hfirst) k
      rw [assignmentDrafts, assignmentDrafts, hvalue, hcolumn, ih hrest]

end

/-! ## Histories -/

/-- The pairs that a call assigns. -/
def Builder.assigned : Builder .update → List (String × Operand)
  | .set name value => [(name, value)]
  | .setAll pairs => pairs
  | .updateTable _ | .updateWhere _ | .updateOrWhere _ => []

/-- The call is for what a node compiles to, or for nothing. -/
def Call.isReading {k : Kind} : Call k → Bool
  | .look | .compile .. | .compileInto .. | .inlined .. => true
  | .replace _ | .build _ | .change _ => false

theorem Call.uses_of_isReading {k : Kind} {call : Call k} (h : call.isReading = true) :
    call.uses = [] := by
  cases call <;> first | rfl | cases h

/-- The updates that histories of calls lead to, with the pairs that have
been assigned in them, one after the other. -/
inductive Update.Assigned : List (String × Operand) → Update → Prop where
  | empty : Assigned [] Update.empty
  | built {pairs : List (String × Operand)} {u u' : Update} (call : Builder .update)
      (node : Assigned pairs u) (uses : ∀ n ∈ call.uses, Reachable n.1 n.2)
      (h : call.build u = .ok u') : Assigned (pairs ++ call.assigned) u'
  | read {pairs : List (String × Operand)} {u : Update} (call : Call .update)
      (node : Assigned pairs u) (h : call.isReading = true) : Assigned pairs (call.act u)
  | inside {pairs : List (String × Operand)} {u : Update} {m : Kind} (path : Path .group m)
      (call : Call m) (node : Assigned pairs u) (uses : ∀ n ∈ call.uses, Reachable n.1 n.2) :
      Assigned pairs ((Path.via .updateFilter path).edit (fun inner => ((), call.act inner)) u).2
  | copied {pairs : List (String × Operand)} {u : Update} (node : Assigned pairs u) :
      Assigned pairs u.fresh

namespace Update.Assigned

variable {pairs : List (String × Operand)} {u : Update}

theorem reachable (h : Assigned pairs u) : Reachable .update u := by
  induction h with
  | empty => exact .made Maker.update (fun _ h => by cases h) rfl
  | built call _ uses hbuild ih =>
    have hcalled := Reachable.called .here (.build call) ih uses
    simpa only [Path.edit, Call.act, hbuild] using hcalled
  | read call _ hread ih =>
    refine Reachable.called .here call ih ?_
    rw [Call.uses_of_isReading hread]
    exact fun _ hu => absurd hu List.not_mem_nil
  | inside path call _ uses ih => exact .called (.via .updateFilter path) call ih uses
  | copied _ ih => exact .copied ih

/-- No path leads from another node to an update. -/
theorem not_into_update {k l m : Kind} (hop : Hop k l) (rest : Path l m) : m ≠ .update := by
  induction rest generalizing k with
  | here =>
    rintro rfl
    cases hop
  | via next rest ih => exact ih next

/-- Every update has been assigned some pairs. -/
theorem exists_of_reachable {k : Kind} {n : Node k} (h : Reachable k n) {u : Update}
    (hu : (⟨k, n⟩ : AnyNode) = ⟨.update, u⟩) : ∃ pairs, Assigned pairs u := by
  induction h generalizing u with
  | made maker uses hmake =>
    obtain ⟨rfl, hn⟩ := Sigma.mk.inj hu
    obtain rfl := eq_of_heq hn
    cases maker
    cases hmake
    exact ⟨[], .empty⟩
  | @called k m path call n _ uses ih ihuses =>
    obtain ⟨rfl, hn⟩ := Sigma.mk.inj hu
    obtain rfl := eq_of_heq hn
    obtain ⟨pairs, hpairs⟩ := ih rfl
    cases path with
    | via hop rest =>
      cases hop
      exact ⟨pairs, hpairs.inside rest call uses⟩
    | here =>
      cases call with
      | replace other => exact ihuses ⟨.update, other⟩ (List.mem_singleton.2 rfl) rfl
      | change c => cases c
      | build b =>
        simp only [Path.edit, Call.act]
        cases hbuild : b.build n with
        | ok n' => exact ⟨_, hpairs.built b uses hbuild⟩
        | error e => exact ⟨pairs, hpairs.copied⟩
      | look => exact ⟨pairs, hpairs⟩
      | compile d hd => exact ⟨pairs, hpairs.read (.compile d hd) rfl⟩
      | compileInto d hd c => exact ⟨pairs, hpairs.read (.compileInto d hd c) rfl⟩
      | inlined d hd => exact ⟨pairs, hpairs.read (.inlined d hd) rfl⟩
  | @inner k m path n found _ hfound ih =>
    obtain ⟨rfl, hn⟩ := Sigma.mk.inj hu
    obtain rfl := eq_of_heq hn
    cases path with
    | here => exact ih (congrArg (Sigma.mk Kind.update) (Option.some.inj hfound))
    | via hop rest => exact absurd rfl (not_into_update hop rest)
  | copied _ ih =>
    obtain ⟨rfl, hn⟩ := Sigma.mk.inj hu
    obtain rfl := eq_of_heq hn
    obtain ⟨pairs, hpairs⟩ := ih rfl
    exact ⟨pairs, hpairs.copied⟩

theorem set_eq_ok {name : String} {value : Operand} {u' : Update} (h : u.set name value = .ok u') :
    ∃ column : Identifier, column.text = name ∧
      u'.assignments = assign column value u.assignments := by
  obtain ⟨column, hcolumn, h⟩ := exists_of_bind_eq_ok h
  cases h
  exact ⟨column, Identifier.text_of_parse hcolumn, rfl⟩

theorem assignments_setTable {name : String} {u' : Update} (h : u.setTable name = .ok u') :
    u'.assignments = u.assignments := by
  rw [Update.setTable] at h
  split at h
  · cases h
  · obtain ⟨table, -, h⟩ := exists_of_bind_eq_ok h
    cases h
    rfl

/-- The assignments are what the pairs come to, but for the texts that are
kept in operands. -/
def Holds (pairs : List (String × Operand)) (u : Update) : Prop :=
  ∃ as, ComesTo pairs as ∧ AssignmentsCoherent as ∧
    u.assignments.map Assignment.form = as.map Assignment.form

theorem Holds.set {name : String} {value : Operand} {u' : Update} (h : Holds pairs u)
    (hvalue : value.Coherent) (hset : u.set name value = .ok u') :
    Holds (pairs ++ [(name, value)]) u' := by
  obtain ⟨as, hcomes, hcoherent, hform⟩ := h
  obtain ⟨column, rfl, hassignments⟩ := set_eq_ok hset
  refine ⟨_, hcomes.assign column value, Update.coherent_assign hvalue hcoherent, ?_⟩
  rw [hassignments, assign_form hform]

theorem Holds.setAll {more : List (String × Operand)} {u' : Update} (h : Holds pairs u)
    (hmore : ∀ p ∈ more, p.2.Coherent) (hset : Update.setAll more u = .ok u') :
    Holds (pairs ++ more) u' := by
  induction more generalizing pairs u with
  | nil =>
    cases hset
    rwa [List.append_nil]
  | cons p more ih =>
    obtain ⟨hp, hmore⟩ := List.forall_mem_cons.1 hmore
    rw [Update.setAll] at hset
    cases hfirst : u.set p.1 p.2 with
    | error e =>
      rw [hfirst] at hset
      cases hset
    | ok next =>
      rw [hfirst] at hset
      rw [List.append_cons]
      exact ih (h.set hp hfirst) hmore hset

/-- Only the assignments count. -/
theorem Holds.congr {u' : Update} (h : Holds pairs u)
    (hform : u'.assignments.map Assignment.form = u.assignments.map Assignment.form) :
    Holds pairs u' := by
  obtain ⟨as, hcomes, hcoherent, h⟩ := h
  exact ⟨as, hcomes, hcoherent, hform.trans h⟩

theorem form_of_fresh {u' : Update} (h : u'.fresh = u.fresh) :
    u'.assignments.map Assignment.form = u.assignments.map Assignment.form := by
  have hassignments : u'.assignments.map Assignment.fresh = u.assignments.map Assignment.fresh :=
    congrArg Update.assignments h
  rw [← Assignment.map_form_fresh u'.assignments, hassignments, Assignment.map_form_fresh]

/-- A call for what the update compiles to leaves the same update. -/
theorem fresh_act {call : Call .update} (hread : call.isReading = true)
    (hu : Node.Coherent .update u) : Update.fresh (call.act u) = u.fresh := by
  cases call with
  | look => rfl
  | compile d hd => exact (Node.compile_follows hd hu).1.fresh
  | compileInto d hd c => exact ((Node.compileInto_follows hd hu).node c).fresh
  | inlined d hd =>
    refine (congrArg Update.fresh (Node.left_inlined d .update u)).trans ?_
    exact (Node.compile_follows hd hu).1.fresh
  | replace | build | change => cases hread

theorem assignments_inside {m : Kind} (path : Path .group m) (f : Node m → Unit × Node m) :
    Update.assignments ((Path.via .updateFilter path).edit f u).2 = u.assignments := by
  simp only [Path.edit]
  split <;> rfl

/-- An update holds what has been assigned. -/
theorem holds (h : Assigned pairs u) : Holds pairs u := by
  induction h with
  | empty => exact ⟨[], ⟨rfl, nofun, List.nodup_nil⟩, nofun, rfl⟩
  | @built pairs u u' call node uses hbuild ih =>
    have hoperand {value : Operand} (hvalue : ∀ n ∈ value.uses, n ∈ call.uses) : value.Coherent :=
      Operand.coherent_of_uses fun n hn => (uses n (hvalue n hn)).coherent
    -- a call that assigns nothing changes another part of the update
    have hother (happart : call.assigned = []) (h : u'.assignments = u.assignments) :
        Holds (pairs ++ call.assigned) u' := by
      rw [happart, List.append_nil]
      exact ih.congr (congrArg _ h)
    cases call with
    | set name value => exact ih.set (hoperand fun n hn => hn) hbuild
    | setAll more =>
      refine ih.setAll (fun p hp => hoperand fun n hn => ?_) hbuild
      exact List.mem_flatMap.2 ⟨p.2, List.mem_map_of_mem hp, hn⟩
    | updateTable name =>
      exact hother rfl (assignments_setTable hbuild)
    | updateWhere item =>
      obtain ⟨filter, -, h⟩ := exists_of_bind_eq_ok hbuild
      cases h
      exact hother rfl rfl
    | updateOrWhere item =>
      obtain ⟨filter, -, h⟩ := exists_of_bind_eq_ok hbuild
      cases h
      exact hother rfl rfl
  | read call node hread ih =>
    exact ih.congr (form_of_fresh (fresh_act hread node.reachable.coherent))
  | inside path call _ _ ih => exact ih.congr (congrArg _ (assignments_inside path _))
  | copied _ ih => exact ih.congr (Assignment.map_form_fresh _)

end Update.Assigned

/-! ## What is written -/

section

variable {d : Dialect} {c c' : Collector}

/-- The values that an operand binds, here where nothing else is bound. -/
def Operand.boundValues (d : Dialect) (hint : String) (o : Operand) : List Value :=
  (left (o.run d hint (.empty d.style))).2.values

/-- The values that a clause binds. -/
def Clause.boundValues (d : Dialect) (cl : Clause) : List Value :=
  (left (cl.run d (.empty d.style))).2.values

/-- The pairs are written one after the other, each operand compiled under
the hint of its column into the collector that those before it leave. -/
inductive PairsWrite (d : Dialect) :
    List (String × Operand) → Collector → List String → Collector → Prop where
  | nil {c : Collector} : PairsWrite d [] c [] c
  | cons {name : String} {value value' : Operand} {pairs : List (String × Operand)}
      {c next last : Collector} {text : String} {texts : List String}
      (hvalue : value.run d name c = .ok text (value', next))
      (hpairs : PairsWrite d pairs next texts last) :
      PairsWrite d ((name, value) :: pairs) c ((d.quoteIdentifier name ++ " = " ++ text) :: texts)
        last

/-- The update is written with the pairs as its assignments, and after them
the condition on rows. -/
def Update.Writes (d : Dialect) (u : Update) (pairs : List (String × Operand)) (c : Collector)
    (sql : String) (c' : Collector) : Prop :=
  ∃ (table : Identifier) (texts : List String) (next : Collector) (filter : String)
    (clause : Clause),
    u.table? = some table ∧ pairs ≠ [] ∧ PairsWrite d pairs c texts next ∧
      u.filter.run d next = .ok filter (clause, c') ∧ filter ≠ "" ∧
      sql = d.quotePrefixes [table.text] (updateText (table.quoted d) texts filter)

/-- A run that follows a draft writes it. -/
theorem Run.Follows.exists_run_iff {ν : Type} {run : Run ν String} {plan : Except Error Draft}
    {P : ν → Prop} (h : run.Follows ((Draft.scribe d).effect plan) P) {text : String} :
    (∃ n, run c = .ok text (n, c')) ↔
      ∃ p, plan = .ok p ∧ text = p.text d c ∧ c' = p.after c := by
  constructor
  · rintro ⟨n, hrun⟩
    obtain ⟨heffect, -⟩ := h.of_ok hrun
    cases plan with
    | error e => cases heffect
    | ok p =>
      cases heffect
      exact ⟨p, rfl, rfl, rfl⟩
  · rintro ⟨p, rfl, rfl, rfl⟩
    exact h.run_eq rfl

/-- A run adds the values that it binds by itself. -/
theorem Run.Follows.values_run {ν : Type} {run : Run ν String} {plan : Except Error Draft}
    {P : ν → Prop} (h : run.Follows ((Draft.scribe d).effect plan) P) {text : String} {n : ν}
    (hrun : run c = .ok text (n, c')) :
    c'.values = c.values ++ (left (run (.empty d.style))).2.values := by
  obtain ⟨p, rfl, -, rfl⟩ := h.exists_run_iff.1 ⟨n, hrun⟩
  obtain ⟨n', halone⟩ := h.run_eq (c := .empty d.style) rfl
  rw [halone]
  exact (Collector.values_bindAll c p.bindings).trans
    (congrArg (c.values ++ ·) (Collector.values_bindAll (.empty d.style) p.bindings).symm)

theorem Draft.texts_assignment_cons (column : Identifier) (p : Draft) (ps : List Draft) :
    texts d (assignment column p :: ps) c =
        (column.quoted d ++ " = " ++ p.text d c) :: texts d ps (p.after c) ∧
      afterAll (assignment column p :: ps) c = afterAll ps (p.after c) := by
  have hafter : (assignment column p).after c = p.after c :=
    congrArg c.bindAll (bindings_assignment column)
  rw [texts, text_assignment, afterAll_cons, hafter]
  exact ⟨rfl, rfl⟩

/-- Pairs are written as the drafts of their assignments are. -/
theorem pairsWrite_iff (hd : d.Shipped) {as : List Assignment} (h : AssignmentsCoherent as)
    {texts : List String} : PairsWrite d (as.map Assignment.pair) c texts c' ↔
      ∃ ps, assignmentDrafts d.constructs as = .ok ps ∧ texts = Draft.texts d ps c ∧
        c' = Draft.afterAll ps c := by
  induction as generalizing c c' texts with
  | nil =>
    constructor
    · rintro ⟨⟩
      exact ⟨[], rfl, rfl, rfl⟩
    · rintro ⟨ps, hps, rfl, rfl⟩
      cases hps
      exact .nil
  | cons a as ih =>
    obtain ⟨ha, has⟩ := List.forall_mem_cons.1 h
    have hfollows := a.value.run_follows hd a.column.text ha
    rw [List.map_cons, assignmentDrafts]
    constructor
    · intro hwrite
      cases hwrite with
      | cons hvalue hpairs =>
        obtain ⟨p, hp, rfl, rfl⟩ := hfollows.exists_run_iff.1 ⟨_, hvalue⟩
        obtain ⟨ps, hps, rfl, rfl⟩ := (ih has).1 hpairs
        obtain ⟨htexts, hafter⟩ := Draft.texts_assignment_cons (d := d) (c := c) a.column p ps
        refine ⟨Draft.assignment a.column p :: ps, ?_, htexts.symm, hafter.symm⟩
        rw [hp, hps]
        rfl
    · rintro ⟨qs, hqs, rfl, rfl⟩
      obtain ⟨q, hq, hqs⟩ := exists_of_bind_eq_ok hqs
      obtain ⟨ps, hps, hqs⟩ := exists_of_bind_eq_ok hqs
      cases hqs
      obtain ⟨p, hp, rfl⟩ := exists_of_map_eq_ok hq
      obtain ⟨htexts, hafter⟩ := Draft.texts_assignment_cons (d := d) (c := c) a.column p ps
      rw [htexts, hafter]
      obtain ⟨value', hvalue⟩ := hfollows.exists_run_iff.2 ⟨p, hp, rfl, rfl⟩
      exact .cons hvalue ((ih has).2 ⟨ps, hps, rfl, rfl⟩)

theorem PairsWrite.values (hd : d.Shipped) {pairs : List (String × Operand)} {texts : List String}
    (hpairs : ∀ p ∈ pairs, p.2.Coherent) (h : PairsWrite d pairs c texts c') :
    c'.values = c.values ++ pairs.flatMap fun p => p.2.boundValues d p.1 := by
  induction h with
  | nil => exact (List.append_nil _).symm
  | @cons name value value' pairs c next last text texts hvalue _ ih =>
    obtain ⟨hfirst, hrest⟩ := List.forall_mem_cons.1 hpairs
    rw [ih hrest, (value.run_follows hd name hfirst).values_run hvalue, List.append_assoc,
      List.flatMap_cons]
    rfl

/-- A clause without predicates comes to nothing. -/
theorem Clause.draft_of_isEmpty {k : Constructs} {cl : Clause} (h : cl.isEmpty = true) {p : Draft}
    (hp : cl.draft k = .ok p) : p.isEmpty = true := by
  have htest : cl.hasTest = false := by
    obtain ⟨kind, _ | ⟨terms, default, pending, nested, cache⟩⟩ := cl
    · rfl
    · have hterms : terms = [] := List.isEmpty_iff.1 h
      rw [hterms]
      rfl
  obtain ⟨q, hq, hempty⟩ := cl.draft_of_not_hasTest (k := k) htest
  cases hq.symm.trans hp
  exact hempty

/-- An update has a draft if it has a table, assignments, and a condition that
comes to something. -/
theorem Update.draft_eq_ok_iff {k : Constructs} {u : Update} {q : Draft} :
    u.draft k = .ok q ↔ ∃ table ps p, u.table? = some table ∧ ¬u.assignments.isEmpty = true ∧
      assignmentDrafts k u.assignments = .ok ps ∧ u.filter.draft k = .ok p ∧
      ¬p.isEmpty = true ∧ q = .requoted [table.text] (.update table ps p) := by
  constructor
  · intro hq
    rw [draft] at hq
    split at hq
    · cases hq
    next table htable =>
    split at hq
    · cases hq
    next hsome =>
    split at hq
    · cases hq
    obtain ⟨ps, hps, hq⟩ := exists_of_bind_eq_ok hq
    obtain ⟨p, hp, hq⟩ := exists_of_bind_eq_ok hq
    split at hq
    · cases hq
    next hvisible =>
    cases hq
    exact ⟨table, ps, p, htable, hsome, hps, hp, hvisible, rfl⟩
  · rintro ⟨table, ps, p, htable, hsome, hps, hp, hvisible, rfl⟩
    rw [draft, htable]
    dsimp only
    rw [if_neg hsome, if_neg fun h => hvisible (Clause.draft_of_isEmpty h hp), hps, hp]
    exact if_neg hvisible

/-- What is written is what the draft of the update says. -/
theorem Update.writes_iff (hd : d.Shipped) {u : Update} (hu : u.Coherent) {as : List Assignment}
    (has : AssignmentsCoherent as)
    (hform : u.assignments.map Assignment.form = as.map Assignment.form) {sql : String} :
    u.Writes d (as.map Assignment.pair) c sql c' ↔
      ∃ p, u.draft d.constructs = .ok p ∧ sql = p.text d c ∧ c' = p.after c := by
  have hdrafts := assignmentDrafts_congr (k := d.constructs) hform
  have hempty : u.assignments.isEmpty = true ↔ as.map Assignment.pair = [] := by
    have hlength : u.assignments.length = as.length := by simpa using congrArg List.length hform
    rw [List.isEmpty_iff, List.map_eq_nil_iff, ← List.length_eq_zero_iff, hlength,
      List.length_eq_zero_iff]
  have hfilter {c last : Collector} {text : String} :
      (∃ clause, u.filter.run d c = .ok text (clause, last)) ↔
        ∃ p, u.filter.draft d.constructs = .ok p ∧ text = p.text d c ∧ last = p.after c :=
    (u.filter.run_follows hd hu.filter).exists_run_iff
  have htext (table : Identifier) (ps : List Draft) (p : Draft) :
      (Draft.requoted [table.text] (Draft.update table ps p)).text d c =
        d.quotePrefixes [table.text] (updateText (table.quoted d) (Draft.texts d ps c)
          (p.text d (Draft.afterAll ps c))) ∧
      (Draft.requoted [table.text] (Draft.update table ps p)).after c =
        p.after (Draft.afterAll ps c) := by
    rw [Draft.text_requoted, Draft.text_update, Draft.after_requoted]
    refine ⟨rfl, ?_⟩
    simp only [Draft.after, Draft.afterAll, Draft.bindings_update, Collector.bindAll_append]
  simp only [draft_eq_ok_iff, hdrafts]
  constructor
  · rintro ⟨table, texts, next, filter, clause, htable, hsome, hpairs, hrun, hne, rfl⟩
    obtain ⟨ps, hps, rfl, rfl⟩ := (pairsWrite_iff hd has).1 hpairs
    obtain ⟨p, hp, rfl, rfl⟩ := hfilter.1 ⟨clause, hrun⟩
    exact ⟨_, ⟨table, ps, p, htable, mt hempty.1 hsome, hps, hp,
      fun h => hne (Draft.text_eq_empty_iff.2 h), rfl⟩, (htext table ps p).1.symm,
      (htext table ps p).2.symm⟩
  · rintro ⟨_, ⟨table, ps, p, htable, hsome, hps, hp, hvisible, rfl⟩, rfl, rfl⟩
    obtain ⟨clause, hrun⟩ := hfilter.2 ⟨p, hp, rfl, rfl⟩
    rw [(htext table ps p).1, (htext table ps p).2]
    exact ⟨table, _, _, _, clause, htable, mt hempty.2 hsome,
      (pairsWrite_iff hd has).2 ⟨ps, hps, rfl, rfl⟩, hrun,
      fun h => hvisible (Draft.text_eq_empty_iff.1 h), rfl⟩

/-- An update answers a text by itself, with the values bound for it, if its
draft is written so. -/
theorem Update.compile_iff (hd : d.Shipped) {u : Update} (hu : u.Coherent) {sql : String} :
    (answer (Node.compile d .update u) = .ok sql ∧
        Node.collector? .update (left (Node.compile d .update u)) = some c') ↔
      ∃ p, u.draft d.constructs = .ok p ∧ sql = p.text d (.empty d.style) ∧
        c' = p.after (.empty d.style) := by
  constructor
  · rintro ⟨hsql, hc'⟩
    obtain ⟨p, hp, rfl, hcollector⟩ := Node.draft_of_compile (k := .update) (n := u) hd hu hsql
    exact ⟨p, hp, rfl, Option.some.inj (hc'.symm.trans hcollector)⟩
  · rintro ⟨p, hp, rfl, rfl⟩
    obtain ⟨-, hanswer, hcollector⟩ := Node.compile_follows (k := .update) (n := u) hd hu
    have hdraft : Node.draft d.constructs .update u = .ok p := hp
    rw [hanswer, hcollector, hdraft]
    exact ⟨rfl, rfl⟩

/-- The columns that have been assigned are listed once each, in the order in
which they were first assigned; the update is written with the operand that
each was assigned last, and in no other way; and the values that this binds
are those of these operands, followed by those of the condition on rows. -/
theorem Update.Assigned.writes_lastPairs {pairs : List (String × Operand)} {u : Update}
    (h : u.Assigned pairs) :
    u.assignments.map (·.column.text) = (pairs.map Prod.fst).eraseDups ∧
      (lastPairs pairs).map Prod.fst = (pairs.map Prod.fst).eraseDups ∧
      ((lastPairs pairs).map Prod.fst).Nodup ∧
      ∀ d : Dialect, d.Shipped →
        (∀ sql c', (answer (Node.compile d .update u) = .ok sql ∧
            Node.collector? .update (left (Node.compile d .update u)) = some c') ↔
          u.Writes d (lastPairs pairs) (.empty d.style) sql c') ∧
        (∀ c sql c', (∃ u', Node.compileInto d .update u c = .ok sql (u', c')) ↔
          u.Writes d (lastPairs pairs) c sql c') ∧
        ∀ c sql c', u.Writes d (lastPairs pairs) c sql c' →
          c'.values = c.values ++ (lastPairs pairs).flatMap (fun p => p.2.boundValues d p.1) ++
            u.filter.boundValues d := by
  obtain ⟨as, hcomes, has, hform⟩ := h.holds
  have hu : u.Coherent := h.reachable.coherent
  have hcolumns : u.assignments.map (·.column) = as.map (·.column) := by
    simpa [Assignment.form, Function.comp_def] using congrArg (List.map Prod.fst) hform
  have hnames : u.assignments.map (·.column.text) = as.map (·.column.text) := by
    simpa [Function.comp_def] using congrArg (List.map Identifier.text) hcolumns
  have hlast : (lastPairs pairs).map Prod.fst = as.map (·.column.text) := by
    rw [← hcomes.map_pair, List.map_map]
    rfl
  refine ⟨hnames.trans hcomes.names, hlast.trans hcomes.names, hlast ▸ hcomes.apart,
    fun d hd => ?_⟩
  rw [← hcomes.map_pair]
  refine ⟨fun sql c' => ?_, fun c sql c' => ?_, ?_⟩
  · rw [Update.compile_iff hd hu, Update.writes_iff hd hu has hform]
  · rw [Update.writes_iff hd hu has hform]
    exact (Node.compileInto_follows (k := .update) (n := u) hd hu).exists_run_iff
  · rintro c sql c' ⟨table, texts, next, filter, clause, -, -, hpairs, hrun, -, -⟩
    have hoperands : ∀ p ∈ as.map Assignment.pair, p.2.Coherent := by
      intro p hp
      obtain ⟨a, ha, rfl⟩ := List.mem_map.1 hp
      exact has a ha
    rw [(u.filter.run_follows hd hu.filter).values_run hrun, hpairs.values hd hoperands]
    rfl

/-- A column that is assigned again after the update has been compiled. -/
theorem Update.writes_lastPairs_of_reassigned :
    let d := Dialect.ansi
    let one : Operand := .value (.int 1)
    let two : Operand := .value (.int 2)
    let three : Operand := .value (.int 3)
    let pairs := [("a", one), ("b", two), ("a", three)]
    let called (b : Builder .update) (u : Update) : Update := (Call.build b).act u
    let table : Update := called (.updateTable "t") Update.empty
    let filtered : Update := called (.updateWhere (.raw "id = 4")) table
    let first : Update := called (.setAll [("a", one), ("b", two)]) filtered
    let compiled : Update := left (first.compile d)
    let u : Update := called (.set "a" three) compiled
    let sql := "UPDATE \"t\" SET \"a\" = :a1, \"b\" = :b1 WHERE id = 4"
    u.Assigned pairs ∧ d.Shipped ∧ lastPairs pairs = [("a", three), ("b", two)] ∧
      answer (first.compile d) = .ok sql ∧ answer (u.compile d) = .ok sql ∧
      ∃ c', u.Writes d (lastPairs pairs) (.empty .named) sql c' ∧
        c'.values = [.int 3, .int 2] := by
  intro d one two three pairs called table filtered first compiled u sql
  have hd : d.Shipped := .config .standard
  have htable : table.Assigned [] :=
    Update.Assigned.empty.built (.updateTable "t") (fun _ h => nomatch h) rfl
  have hfiltered : filtered.Assigned [] :=
    htable.built (.updateWhere (.raw "id = 4")) (fun _ h => nomatch h) rfl
  have hfirst : first.Assigned [("a", one), ("b", two)] :=
    hfiltered.built (.setAll [("a", one), ("b", two)]) (fun _ h => nomatch h) rfl
  have hcompiled : compiled.Assigned [("a", one), ("b", two)] := hfirst.read (.compile d hd) rfl
  have hu : u.Assigned pairs := hcompiled.built (.set "a" three) (fun _ h => nomatch h) rfl
  have hsql : answer (u.compile d) = .ok sql := by
    refine eq_ok_of_toOption ?_
    simp only [u, compiled, first, filtered, table, called, d, one, two, three, sql]
    decide +kernel
  refine ⟨hu, hd, rfl, ?_, hsql, ?_⟩
  · refine eq_ok_of_toOption ?_
    simp only [first, filtered, table, called, d, one, two, sql]
    decide +kernel
  obtain ⟨c', hc'⟩ : ∃ c', Node.collector? .update (left (u.compile d)) = some c' := by
    obtain ⟨p, -, -, hcollector⟩ := Node.draft_of_compile (k := .update) hd hu.reachable.coherent hsql
    exact ⟨_, hcollector⟩
  obtain ⟨-, -, -, hwritten⟩ := hu.writes_lastPairs
  obtain ⟨hcompile, -, hvalues⟩ := hwritten d hd
  have hwrites := (hcompile sql c').1 ⟨hsql, hc'⟩
  refine ⟨c', hwrites, (hvalues _ _ _ hwrites).trans ?_⟩
  decide +kernel

end

end SqlTree
