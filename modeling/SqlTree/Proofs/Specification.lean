import SqlTree.Group

/-!
# SqlTree.Proofs.Specification

What specifications can do to a group.  They add predicates whose operands
are values (`Predicate.isPlain`), they add groups that are made in the same
way, and they choose the next connective; nothing else (`specify_leads`).
So whatever these three keep is kept by every specification
(`specify_keeps`).  The last thing that one does is to add
(`specify_pushes`).  A change of a group that these three do not look at can
be made before or after (`specify_frame`): terms that are gathered apart are
the ones that would have been added at once (`Group.added_spec`).
-/

namespace SqlTree

/-! ## Plain predicates -/

/-- The operand is a value. -/
def Operand.isValue : Operand → Bool
  | .value _ => true
  | _ => false

namespace Predicate

/-- The predicate is raw SQL or has values only for operands. -/
def isPlain : Predicate → Bool
  | .comparison _ _ right => right.isValue
  | .between _ _ low high => low.isValue && high.isValue
  | .like _ _ pattern _ => pattern.isValue
  | .inValues _ _ _ _ | .truth _ _ _ | .literal _ => true
  | .inSelect _ _ _ | .existence _ _ | .quantified _ _ _ _ | .expression _ | .group _ => false

theorem isPlain_ofText {sql : String} {p : Predicate} (h : ofText sql = .ok p) :
    p.isPlain = true := by
  unfold ofText at h
  cases hl : Literal.parse sql with
  | error e => rw [hl] at h; cases h
  | ok l => rw [hl] at h; cases h; rfl

theorem isPlain_compare {left : Reference} {op : Comparison} {v : Value} {p : Predicate}
    (h : compare left op (.value v) = .ok p) : p.isPlain = true := by
  unfold compare at h
  split at h
  · split at h <;> cases h <;> rfl
  · cases h
    rfl

theorem isPlain_inList {left : Reference} {negated : Bool} {values : List Value} {p : Predicate}
    (h : inList left negated values = .ok p) : p.isPlain = true := by
  unfold inList at h
  split at h <;> cases h
  rfl

theorem isPlain_inRange {left : Reference} {negated : Bool} {low high : Value} {p : Predicate}
    (h : inRange left negated (.value low) (.value high) = .ok p) : p.isPlain = true := by
  unfold inRange at h
  split at h
  · cases h
  · split at h <;> cases h
    rfl

theorem isPlain_matching {left : Reference} {negated : Bool} {pattern : Value}
    {escape : Option Char} {p : Predicate}
    (h : matching left negated (.value pattern) escape = .ok p) : p.isPlain = true := by
  unfold matching at h
  split at h <;> cases h
  rfl

end Predicate

theorem isPlain_condition {spec : Json} {column : Reference} {operator : ConditionOperator}
    {value : Json} {extra : Option Json} {p : Predicate}
    (h : condition spec column operator value extra = .ok p) : p.isPlain = true := by
  cases operator with
  | between negated =>
    simp only [condition] at h
    cases extra with
    | none => cases h
    | some high =>
      obtain ⟨low, -, h⟩ := exists_of_bind_eq_ok h
      obtain ⟨high, -, h⟩ := exists_of_bind_eq_ok h
      exact Predicate.isPlain_inRange h
  | like negated =>
    obtain ⟨escape, -, h⟩ := exists_of_bind_eq_ok h
    obtain ⟨pattern, -, h⟩ := exists_of_bind_eq_ok h
    exact Predicate.isPlain_matching h
  | compare op =>
    obtain ⟨-, -, h⟩ := exists_of_bind_eq_ok h
    obtain ⟨right, -, h⟩ := exists_of_bind_eq_ok h
    exact Predicate.isPlain_compare h
  | inList negated =>
    obtain ⟨-, -, h⟩ := exists_of_bind_eq_ok h
    obtain ⟨values, -, h⟩ := exists_of_bind_eq_ok h
    exact Predicate.isPlain_inList h
  | truth negated =>
    obtain ⟨-, -, h⟩ := exists_of_bind_eq_ok h
    obtain ⟨word, -, h⟩ := exists_of_bind_eq_ok h
    cases h
    rfl

theorem isPlain_pairPredicate {spec value : Json} {column : String} {p : Predicate}
    (h : pairPredicate spec column value = .ok p) : p.isPlain = true := by
  unfold pairPredicate at h
  split at h
  · obtain ⟨values, -, h⟩ := exists_of_bind_eq_ok h
    obtain ⟨left, -, h⟩ := exists_of_bind_eq_ok h
    exact Predicate.isPlain_inList h
  · obtain ⟨right, -, h⟩ := exists_of_bind_eq_ok h
    obtain ⟨left, -, h⟩ := exists_of_bind_eq_ok h
    exact Predicate.isPlain_compare h

/-! ## How a specification is read -/

/-- The ways in which a specification is read, whatever the group. -/
inductive Json.IsRead (spec : Json) : Prop where
  | push {p : Predicate} (hp : p.isPlain = true) (h : ∀ g, specify spec g = .ok (g.push p))
  | refused {e : Error} (h : ∀ g, specify spec g = .error e)
  | group {connective : Connective} {items : List Json}
      (hsize : ∀ item ∈ items, sizeOf item < sizeOf spec)
      (h : ∀ g, specify spec g = (specifyAll items (Group.empty connective)).map g.pushGroup)
  | chained {connective : Connective} {items : List Json}
      (hsize : ∀ item ∈ items, sizeOf item < sizeOf spec) (hne : items ≠ [])
      (h : ∀ g, specify spec g = specifyLast items (g.joinNext connective))
  | specs {items : List Json} (hsize : ∀ item ∈ items, sizeOf item < sizeOf spec)
      (hne : items ≠ []) (h : ∀ g, specify spec g = specifyAll items g)

/-- A predicate that is made from a specification is pushed. -/
theorem Json.IsRead.of_result {spec : Json} {result : Except Error Predicate}
    (hresult : ∀ p, result = .ok p → p.isPlain = true)
    (h : ∀ g, specify spec g = result.map fun p => g.push p) : spec.IsRead := by
  cases result with
  | error e => exact .refused h
  | ok p => exact .push (hresult p rfl) h

theorem specify_text {s : String} (hs : Connective.ofSymbol? s = none) (g : Group) :
    specify (.str s) g = (Predicate.ofText s).map fun p => g.push p := by
  simp only [specify, hs]
  cases Predicate.ofText s <;> rfl

theorem specify_loneSymbol {s : String} {connective : Connective}
    (hs : Connective.ofSymbol? s = some connective) (g : Group) :
    specify (.str s) g = .error (.spec (.str s) .loneConnective) := by
  simp only [specify, hs]

theorem specify_pair {name : String} (hname : Connective.ofSymbol? name = none) (value : Json)
    (g : Group) : specify (.obj [(name, value)]) g =
      (pairPredicate (.obj [(name, value)]) name value).map fun p => g.push p := by
  have hread : specify (.obj [(name, value)]) g =
      (pairPredicate (.obj [(name, value)]) name value >>= fun p => .ok (g.push p)) := by
    cases value <;> simp only [specify, hname] <;> rfl
  rw [hread]
  cases pairPredicate (.obj [(name, value)]) name value <;> rfl

theorem specify_group {name : String} {connective : Connective}
    (hname : Connective.ofSymbol? name = some connective) (items : List Json) (g : Group) :
    specify (.obj [(name, .arr items)]) g =
      (specifyAll items (Group.empty connective)).map g.pushGroup := by
  simp only [specify, hname]
  cases specifyAll items (Group.empty connective) <;> rfl

theorem specify_groupWithoutList {name : String} {connective : Connective} {value : Json}
    (hname : Connective.ofSymbol? name = some connective) (hlist : ∀ items, value ≠ .arr items)
    (g : Group) :
    specify (.obj [(name, value)]) g = .error (.spec (.obj [(name, value)]) .groupWithoutList) := by
  rw [specify]
  · simp only [hname]
  · exact hlist

theorem specify_notOneMember {members : List (String × Json)} (h : members.length ≠ 1)
    (g : Group) : specify (.obj members) g = .error (.spec (.obj members) .notOneMember) := by
  match members with
  | [] | _ :: _ :: _ => rw [specify] <;> simp
  | [_] => exact absurd rfl h

theorem specify_condition {items : List Json} {column : Identifier} {op : ConditionOperator}
    {value : Json} {extra : Option Json} (h : listShape items = .condition column op value extra)
    (g : Group) : specify (.arr items) g =
      (condition (.arr items) (.identifier column) op value extra).map fun p => g.push p := by
  rw [specify_list, h]

theorem specify_chained {items : List Json} {connective : Connective}
    (h : listShape items = .chained connective) (g : Group) :
    specify (.arr items) g = specifyLast items (g.joinNext connective) := by
  rw [specify_list, h]

theorem specify_refused {items : List Json} {e : Error} (h : listShape items = .refused e)
    (g : Group) : specify (.arr items) g = .error e := by
  rw [specify_list, h]

theorem specify_specs {items : List Json} (h : listShape items = .specs) (g : Group) :
    specify (.arr items) g = specifyAll items g := by
  rw [specify_list, h]

theorem specify_unrecognised {spec : Json} (hstr : ∀ s, spec ≠ .str s)
    (hobj : ∀ members, spec ≠ .obj members) (harr : ∀ items, spec ≠ .arr items) (g : Group) :
    specify spec g = .error (.spec spec .unrecognised) := by
  cases spec with
  | str s => exact absurd rfl (hstr s)
  | obj members => exact absurd rfl (hobj members)
  | arr items => exact absurd rfl (harr items)
  | null | bool | int | float => rw [specify] <;> simp

/-- A list that has a shape other than a refused one has elements. -/
theorem ne_nil_of_listShape {items : List Json} (h : ∀ e, listShape items ≠ .refused e) :
    items ≠ [] := by
  rintro rfl
  exact h _ rfl

theorem Json.sizeOf_lt_of_mem {items : List Json} {item : Json} (h : item ∈ items) :
    sizeOf item < sizeOf (Json.arr items) ∧
      ∀ name, sizeOf item < sizeOf (Json.obj [(name, .arr items)]) := by
  have hsize := List.sizeOf_lt_of_mem h
  constructor
  · simp
    omega
  · intro name
    simp
    omega

theorem Json.isRead_object (members : List (String × Json)) : (Json.obj members).IsRead := by
  match members with
  | [] | _ :: _ :: _ => exact .refused (specify_notOneMember (by simp))
  | [(name, value)] =>
    cases hname : Connective.ofSymbol? name with
    | none => exact .of_result (fun p => isPlain_pairPredicate) (specify_pair hname value)
    | some connective =>
      cases value with
      | arr items =>
        exact .group (fun item hitem => (sizeOf_lt_of_mem hitem).2 name)
          (specify_group hname items)
      | _ => exact .refused (specify_groupWithoutList hname nofun)

theorem Json.isRead_list (items : List Json) : (Json.arr items).IsRead := by
  have hsize : ∀ item ∈ items, sizeOf item < sizeOf (Json.arr items) := fun item hitem =>
    (sizeOf_lt_of_mem hitem).1
  cases hshape : listShape items with
  | chained connective =>
    exact .chained hsize (ne_nil_of_listShape fun e => by rw [hshape]; nofun)
      (specify_chained hshape)
  | condition column op value extra =>
    exact .of_result (fun p => isPlain_condition) (specify_condition hshape)
  | refused e => exact .refused (specify_refused hshape)
  | specs =>
    exact .specs hsize (ne_nil_of_listShape fun e => by rw [hshape]; nofun) (specify_specs hshape)

theorem Json.isRead (spec : Json) : spec.IsRead := by
  cases spec with
  | str s =>
    cases hs : Connective.ofSymbol? s with
    | none => exact .of_result (fun p => Predicate.isPlain_ofText) (specify_text hs)
    | some connective => exact .refused (specify_loneSymbol hs)
  | obj members => exact isRead_object members
  | arr items => exact isRead_list items
  | null | bool | int | float => exact .refused (specify_unrecognised nofun nofun nofun)

/-! ## What specifications do -/

/-- The last step that led to the group was to push a term. -/
def Group.IsPushed (g : Group) : Prop := ∃ (before : Group) (p : Predicate), g = before.push p

section

variable {R : Group → Group → Prop} {items : List Json}

theorem specifyAll_leads_pushing {g g' : Group} (hrefl : ∀ g, R g g)
    (htrans : ∀ {g g' g''}, R g g' → R g' g'' → R g g'')
    (h : ∀ item ∈ items, ∀ g g', specify item g = .ok g' → R g g' ∧ g'.IsPushed)
    (hall : specifyAll items g = .ok g') : R g g' ∧ (items ≠ [] → g'.IsPushed) := by
  induction items generalizing g with
  | nil =>
    rw [specifyAll] at hall
    cases hall
    exact ⟨hrefl _, fun hne => absurd rfl hne⟩
  | cons item items ih =>
    obtain ⟨hitem, hitems⟩ := List.forall_mem_cons.1 h
    cases hnext : specify item g with
    | error e =>
      simp only [specifyAll, hnext] at hall
      cases hall
    | ok next =>
      simp only [specifyAll, hnext] at hall
      obtain ⟨hfirst, hpushed⟩ := hitem g next hnext
      obtain ⟨hrest, hlast⟩ := ih hitems hall
      refine ⟨htrans hfirst hrest, fun _ => ?_⟩
      cases items with
      | nil =>
        rw [specifyAll] at hall
        cases hall
        exact hpushed
      | cons => exact hlast (List.cons_ne_nil _ _)

/-- The last of the specifications is one of them. -/
theorem exists_specifyLast (hne : items ≠ []) :
    ∃ item ∈ items, ∀ g, specifyLast items g = specify item g := by
  induction items with
  | nil => exact absurd rfl hne
  | cons item items ih =>
    cases items with
    | nil => exact ⟨item, List.mem_cons_self, fun g => by rw [specifyLast]⟩
    | cons next items =>
      obtain ⟨last, hlast, h⟩ := ih (List.cons_ne_nil _ _)
      refine ⟨last, List.mem_cons_of_mem _ hlast, fun g => ?_⟩
      rw [specifyLast, h]
      nofun

/-- A specification leads from group to group by pushing plain predicates,
pushing groups and choosing a connective, and its last step is to push. -/
theorem specify_leads_pushing (hrefl : ∀ g, R g g)
    (htrans : ∀ {g g' g''}, R g g' → R g' g'' → R g g'')
    (hpush : ∀ g p, p.isPlain = true → R g (g.push p))
    (hgroup : ∀ g connective inner, R (Group.empty connective) inner → R g (g.pushGroup inner))
    (hnext : ∀ g connective, R g (g.joinNext connective)) (spec : Json) (g g' : Group)
    (h : specify spec g = .ok g') : R g g' ∧ g'.IsPushed := by
  have hitems {items : List Json} (hsize : ∀ item ∈ items, sizeOf item < sizeOf spec) (item : Json)
      (hitem : item ∈ items) (g g' : Group) (h : specify item g = .ok g') : R g g' ∧ g'.IsPushed :=
    have := hsize item hitem
    specify_leads_pushing hrefl htrans hpush hgroup hnext item g g' h
  cases spec.isRead with
  | @push p hp hread =>
    cases (hread g).symm.trans h
    exact ⟨hpush g p hp, g, p, rfl⟩
  | refused hread => cases (hread g).symm.trans h
  | @group connective items hsize hread =>
    obtain ⟨inner, hinner, rfl⟩ := exists_of_map_eq_ok ((hread g).symm.trans h)
    have hall := specifyAll_leads_pushing hrefl htrans (hitems hsize) hinner
    exact ⟨hgroup g connective inner hall.1, g, _, rfl⟩
  | @chained connective items hsize hne hread =>
    obtain ⟨item, hitem, hlast⟩ := exists_specifyLast hne
    rw [hread, hlast] at h
    obtain ⟨hleads, hpushed⟩ := hitems hsize item hitem _ g' h
    exact ⟨htrans (hnext g connective) hleads, hpushed⟩
  | @specs items hsize hne hread =>
    have hall := specifyAll_leads_pushing hrefl htrans (hitems hsize) ((hread g).symm.trans h)
    exact ⟨hall.1, hall.2 hne⟩
termination_by sizeOf spec

end

/-- A specification leads from group to group by pushing plain predicates,
pushing groups and choosing a connective. -/
theorem specify_leads {R : Group → Group → Prop} (hrefl : ∀ g, R g g)
    (htrans : ∀ {g g' g''}, R g g' → R g' g'' → R g g'')
    (hpush : ∀ g p, p.isPlain = true → R g (g.push p))
    (hgroup : ∀ g connective inner, R (Group.empty connective) inner → R g (g.pushGroup inner))
    (hnext : ∀ g connective, R g (g.joinNext connective)) {spec : Json} {g g' : Group}
    (h : specify spec g = .ok g') : R g g' :=
  (specify_leads_pushing hrefl htrans hpush hgroup hnext spec g g' h).1

/-- A specification ends by pushing something. -/
theorem specify_pushes {spec : Json} {g g' : Group} (h : specify spec g = .ok g') :
    g'.IsPushed :=
  (specify_leads_pushing (R := fun _ _ => True) (fun _ => trivial) (fun _ _ => trivial)
    (fun _ _ _ => trivial) (fun _ _ _ _ => trivial) (fun _ _ => trivial) spec g g' h).2

/-- What pushing plain predicates, pushing groups and choosing a connective
keep is kept by every specification. -/
theorem specify_keeps {P : Group → Prop} (hempty : ∀ connective, P (Group.empty connective))
    (hpush : ∀ g p, P g → p.isPlain = true → P (g.push p))
    (hgroup : ∀ g inner, P g → P inner → P (g.pushGroup inner))
    (hnext : ∀ g connective, P g → P (g.joinNext connective)) {spec : Json} {g g' : Group}
    (hg : P g) (h : specify spec g = .ok g') : P g' := by
  have hleads :=
    specify_leads (R := fun g g' => P g → P g') (fun _ hg => hg) (fun h h' hg => h' (h hg))
    (fun g p hp hg => hpush g p hg hp)
    (fun g connective inner hinner hg => hgroup g inner hg (hinner (hempty connective)))
    hnext h
  exact hleads hg

/-! ## Frames -/

/-- A change of groups that adding a term and choosing a connective do not
look at. -/
structure Group.IsFrame (F : Group → Group) : Prop where
  push (g : Group) (p : Predicate) : (F g).push p = F (g.push p)
  joinNext (g : Group) (connective : Connective) :
    (F g).joinNext connective = F (g.joinNext connective)

section

variable {F : Group → Group} {items : List Json}

theorem specifyAll_frame
    (h : ∀ item ∈ items, ∀ g, specify item (F g) = (specify item g).map F) (g : Group) :
    specifyAll items (F g) = (specifyAll items g).map F := by
  induction items generalizing g with
  | nil =>
    rw [specifyAll, specifyAll]
    rfl
  | cons item items ih =>
    obtain ⟨hitem, hitems⟩ := List.forall_mem_cons.1 h
    rw [specifyAll, specifyAll, hitem]
    cases specify item g with
    | error e => rfl
    | ok next => exact ih hitems next

/-- A specification does the same before and after such a change. -/
theorem specify_frame (hF : Group.IsFrame F) (spec : Json) (g : Group) :
    specify spec (F g) = (specify spec g).map F := by
  have hitems {items : List Json} (hsize : ∀ item ∈ items, sizeOf item < sizeOf spec)
      (item : Json) (hitem : item ∈ items) (g : Group) :
      specify item (F g) = (specify item g).map F :=
    have := hsize item hitem
    specify_frame hF item g
  cases spec.isRead with
  | @push p hp hread =>
    rw [hread, hread, hF.push]
    rfl
  | refused hread =>
    rw [hread, hread]
    rfl
  | @group connective items hsize hread =>
    rw [hread, hread]
    cases specifyAll items (Group.empty connective) with
    | error e => rfl
    | ok inner => exact congrArg Except.ok (hF.push g _)
  | @chained connective items hsize hne hread =>
    obtain ⟨item, hitem, hlast⟩ := exists_specifyLast hne
    rw [hread, hread, hF.joinNext, hlast, hlast]
    exact hitems hsize item hitem _
  | @specs items hsize hne hread =>
    rw [hread, hread]
    exact specifyAll_frame (hitems hsize) g
termination_by sizeOf spec

end

namespace Group

theorem isFrame_nested (nested : Bool) : IsFrame fun g => { g with nested } :=
  ⟨fun _ _ => rfl, fun _ _ => rfl⟩

theorem isFrame_uncached : IsFrame uncached := ⟨fun _ _ => rfl, fun _ _ => rfl⟩

/-- The terms before those that are added are not looked at, nor is the mark of
a nested group. -/
theorem isFrame_behind (before : List Term) (nested : Bool) :
    IsFrame fun g => { g with terms := before ++ g.terms, nested, cache := none } where
  push g p := by simp only [push, List.append_assoc]
  joinNext _ _ := rfl

/-- A specification does not change the default connective. -/
theorem default_specify {spec : Json} {g g' : Group} (h : g.specify spec = .ok g') :
    g'.default = g.default :=
  specify_leads (R := fun g g' => g'.default = g.default) (fun _ => rfl)
    (fun hfirst hrest => hrest.trans hfirst) (fun _ _ _ => rfl) (fun _ _ _ _ => rfl)
    (fun _ _ => rfl) h

/-- The terms that are gathered apart are those that would be added at
once. -/
theorem added_spec (spec : Json) (g : Group) :
    added (.spec spec) g = (g.specify spec).map uncached := by
  let behind (gathered : Group) : Group :=
    { gathered with terms := g.terms ++ gathered.terms, nested := g.nested, cache := none }
  have hbehind : behind g.staged = g.uncached := by
    simp only [behind, staged, empty, uncached, List.append_nil]
  have hsame : (g.staged.specify spec).map g.withGathered = (g.staged.specify spec).map behind := by
    cases hstaged : g.staged.specify spec with
    | error e => rfl
    | ok gathered =>
      have hdefault : gathered.default = g.staged.default := default_specify hstaged
      rw [staged, empty] at hdefault
      simp only [Except.map, withGathered, behind, hdefault]
  calc added (.spec spec) g
    _ = (g.staged.specify spec).map behind := hsame
    _ = (behind g.staged).specify spec :=
      (specify_frame (isFrame_behind g.terms g.nested) spec g.staged).symm
    _ = (g.specify spec).map uncached := by
      rw [hbehind]
      exact specify_frame isFrame_uncached spec g

/-- A specification that is accepted. -/
theorem exists_of_added_spec {spec : Json} {g g' : Group} (h : added (.spec spec) g = .ok g') :
    ∃ pushed, g.specify spec = .ok pushed ∧ pushed.uncached = g' :=
  exists_of_map_eq_ok ((added_spec spec g).symm.trans h)

end Group

end SqlTree
