import SqlTree.Proofs.Caching.Sound

/-!
# SqlTree.Proofs.Caching.Coherent

Trees in which every kept text is right, at the top and everywhere below
(`Select.Coherent` and so on).  Compiling changes what is kept and nothing
else, so what it makes of a coherent node is `Renewed`: the same node up to
what is kept, and coherent again.  The nodes that keep texts are `Drafted`: they follow their
draft under the caching protocol if their body does
(`Drafted.part_follows`).
-/

namespace SqlTree

/-! ## Column texts -/

/-- The drafts of the columns of a select, the star if there are none. -/
def Select.columnPlan (k : Constructs) (s : Select) : Except Error (List Draft) :=
  let star := Draft.star (s.origin?.bind Origin.alias?)
  Draft.columnsOr star <$> columnDrafts k star s.columns

/-- Every shipped dialect with the fingerprint would write the kept texts
of columns, and bind nothing. -/
def ColumnTexts.Sound (drafts : Constructs → Except Error (List Draft))
    (memo : Option ColumnTexts) : Prop :=
  ∀ m, memo = some m → ∀ d : Dialect, d.Shipped → d.fingerprint = m.fingerprint →
    ∃ ps, drafts d.constructs = .ok ps ∧ ps.flatMap Draft.bindings = [] ∧
      ∀ c, Draft.texts d ps c = m.texts

theorem Draft.texts_congr {d d' : Dialect} (hfp : d.fingerprint = d'.fingerprint) (ps : List Draft)
    (c : Collector) : Draft.texts d ps c = Draft.texts d' ps c := by
  induction ps generalizing c with
  | nil => rfl
  | cons p ps ih => rw [Draft.texts, Draft.texts, Draft.text_congr hfp, ih]

theorem Draft.texts_eq_of_bindings_eq_nil {d : Dialect} {ps : List Draft}
    (h : ps.flatMap Draft.bindings = []) (c c' : Collector) :
    Draft.texts d ps c = Draft.texts d ps c' := by
  induction ps generalizing c c' with
  | nil => rfl
  | cons p ps ih =>
    obtain ⟨hp, hps⟩ := List.append_eq_nil_iff.1 (List.flatMap_cons ▸ h)
    rw [Draft.texts, Draft.texts, Draft.text_eq_of_bindings_eq_nil hp c c', ih hps]

namespace ColumnTexts

variable {drafts : Constructs → Except Error (List Draft)} {d : Dialect} {memo : Option ColumnTexts}

theorem sound_none : ColumnTexts.Sound drafts none := fun _ h => nomatch h

theorem sound_some {ps : List Draft} {texts : List String} (hd : d.Shipped)
    (hps : drafts d.constructs = .ok ps) (hbindings : ps.flatMap Draft.bindings = [])
    {c : Collector} (htexts : Draft.texts d ps c = texts) :
    ColumnTexts.Sound drafts (some ⟨d.fingerprint, texts⟩) := by
  rintro _ ⟨⟩ d' hd' hfp
  refine ⟨ps, by rw [hd'.constructs_eq hd hfp, hps], hbindings, fun c' => ?_⟩
  rw [Draft.texts_congr hfp, Draft.texts_eq_of_bindings_eq_nil hbindings c' c, htexts]

theorem Sound.find? (h : ColumnTexts.Sound drafts memo) (hd : d.Shipped) {texts : List String}
    (htexts : ColumnTexts.find? memo d = some texts) :
    (Draft.listScribe d).effect (drafts d.constructs) = Pure.pure texts := by
  cases memo with
  | none => cases htexts
  | some m =>
    simp only [ColumnTexts.find?] at htexts
    split at htexts
    · next hm =>
      cases htexts
      obtain ⟨ps, hps, hbindings, hm⟩ := h m rfl d hd hm.symm
      funext c
      rw [hps]
      exact congrArg Except.ok
        (Prod.ext (hm c) (by simp [Draft.listScribe, Draft.afterAll, hbindings]))
    · cases htexts

end ColumnTexts

/-! ## Coherent trees -/

mutual

/-- Every text kept below is right. -/
def Operand.Coherent : Operand → Prop
  | .value _ => True
  | .identifier _ => True
  | .literal _ => True
  | .expression e => e.Coherent
  | .subquery s => s.Coherent

/-- Every text kept below is right. -/
def Filling.Coherent : Filling → Prop
  | .value _ => True
  | .identifier _ => True
  | .alias _ => True
  | .literal _ => True
  | .subquery s => s.Coherent

/-- Every text kept below is right. -/
def SlotsCoherent : List Slot → Prop
  | [] => True
  | ⟨_, filling⟩ :: slots => filling.Coherent ∧ SlotsCoherent slots

/-- Every text kept below is right, and the fillings are those that the
template asks for. -/
def Expression.Coherent : Expression → Prop
  | ⟨template, slots⟩ => templateFault template (slots.map Slot.name) = none ∧ SlotsCoherent slots

/-- Every text kept below is right. -/
def Predicate.Coherent : Predicate → Prop
  | .comparison _ _ right => right.Coherent
  | .between _ _ low high => low.Coherent ∧ high.Coherent
  | .inValues _ _ _ _ => True
  | .inSelect _ _ s => s.Coherent
  | .like _ _ pattern _ => pattern.Coherent
  | .truth _ _ _ => True
  | .existence _ s => s.Coherent
  | .quantified _ _ _ s => s.Coherent
  | .literal _ => True
  | .expression e => e.Coherent
  | .group g => g.Coherent

/-- Every text kept below is right. -/
def TermsCoherent : List Term → Prop
  | [] => True
  | ⟨_, p⟩ :: terms => p.Coherent ∧ TermsCoherent terms

/-- The kept text is right, and so is every one below. -/
def Group.Coherent : Group → Prop
  | ⟨terms, default, pending, nested, cache⟩ =>
    cache.Sound (fun k => Group.draft k ⟨terms, default, pending, nested, cache⟩) ∧
      TermsCoherent terms

/-- Every text kept below is right. -/
def Clause.Coherent : Clause → Prop
  | ⟨_, none⟩ => True
  | ⟨_, some g⟩ => g.Coherent

/-- Every text kept below is right. -/
def JoinTarget.Coherent : JoinTarget → Prop
  | .table _ => True
  | .subquery s => s.Coherent

/-- The kept text is right, and so is every one below. -/
def Join.Coherent : Join → Prop
  | ⟨kind, target, alias?, on, cache⟩ =>
    cache.Sound (fun k => Join.draft k ⟨kind, target, alias?, on, cache⟩) ∧
      target.Coherent ∧ on.Coherent

/-- Every text kept below is right. -/
def JoinsCoherent : List Join → Prop
  | [] => True
  | j :: joins => j.Coherent ∧ JoinsCoherent joins

/-- Every text kept below is right. -/
def ColumnSource.Coherent : ColumnSource → Prop
  | .reference _ => True
  | .expression e => e.Coherent
  | .subquery s => s.Coherent

/-- Every text kept below is right. -/
def ColumnsCoherent : List Column → Prop
  | [] => True
  | ⟨source, _⟩ :: columns => source.Coherent ∧ ColumnsCoherent columns

/-- Every text kept below is right. -/
def OriginCoherent : Option Origin → Prop
  | none => True
  | some (.table _ _) => True
  | some (.subquery s _) => s.Coherent

/-- Every text kept below is right. -/
def CombinedCoherent : Option (SetOperation × Select) → Prop
  | none => True
  | some (_, s) => s.Coherent

/-- The kept texts are right, and so is every one below. -/
def Select.Coherent : Select → Prop
  | ⟨distinct, columns, into?, origin?, joins, filter, groupBy, having, combined?, orderBy, limit,
      offset, nesting, pretty, columnTexts, cache⟩ =>
    cache.Sound (fun k => Select.draft k ⟨distinct, columns, into?, origin?, joins, filter, groupBy,
      having, combined?, orderBy, limit, offset, nesting, pretty, columnTexts, cache⟩) ∧
    ColumnTexts.Sound (fun k => Select.columnPlan k ⟨distinct, columns, into?, origin?, joins,
      filter, groupBy, having, combined?, orderBy, limit, offset, nesting, pretty, columnTexts,
      cache⟩) columnTexts ∧
    ColumnsCoherent columns ∧ OriginCoherent origin? ∧ JoinsCoherent joins ∧ filter.Coherent ∧
      having.Coherent ∧
    CombinedCoherent combined?

end

/-! ## Renewed nodes -/

/-- The node `y` is `x` with perhaps other texts kept, all of which are
right. -/
structure Renewed {ν : Type} (Coherent : ν → Prop) (fresh : ν → ν) (x y : ν) : Prop where
  coherent : Coherent y
  fresh : fresh y = fresh x

theorem Renewed.refl {ν : Type} {Coherent : ν → Prop} {fresh : ν → ν} {x : ν} (h : Coherent x) :
    Renewed Coherent fresh x x := ⟨h, rfl⟩

/-- A node around a renewed one is renewed. -/
theorem Renewed.within {ν μ : Type} {Coherent : ν → Prop} {fresh : ν → ν} {Coherent' : μ → Prop}
    {fresh' : μ → μ} {f : ν → μ} (hcoherent : ∀ x, Coherent x → Coherent' (f x))
    (hfresh : ∀ x, fresh' (f x) = f (fresh x)) {x y : ν} (h : Renewed Coherent fresh x y) :
    Renewed Coherent' fresh' (f x) (f y) :=
  ⟨hcoherent y h.coherent, by rw [hfresh, hfresh, h.fresh]⟩

/-- Nodes that keep texts of their drafts, and can be given a right text to
keep. -/
class Drafted (ν : Type) [Keeps ν] where
  draft : Constructs → ν → Except Error Draft
  fresh : ν → ν
  Coherent : ν → Prop
  draft_congr : ∀ {n n' : ν}, fresh n' = fresh n → ∀ k, draft k n' = draft k n
  fresh_keep : ∀ cache n, fresh (Keeps.keep cache n) = fresh n
  cache_keep : ∀ (cache : Cache) (n : ν), Keeps.cache (Keeps.keep cache n) = cache
  sound : ∀ {n : ν}, Coherent n → (Keeps.cache n).Sound fun k => draft k n
  coherent_keep : ∀ {cache : Cache} {n : ν}, Coherent n → cache.Sound (fun k => draft k n) →
    Coherent (Keeps.keep cache n)

namespace Drafted

variable {ν : Type} [Keeps ν] [Drafted ν] {d : Dialect} {x n : ν}

/-- A coherent copy of a node. -/
abbrev Renewal (x : ν) : ν → Prop := Renewed (Coherent (ν := ν)) fresh x

/-- The effect of writing the draft of a node. -/
abbrev effect (d : Dialect) (x : ν) : Effect String :=
  (Draft.scribe d).effect (draft d.constructs x)

/-- A right text can be kept instead of another one. -/
theorem renewal_keep {cache : Cache} (h : Renewal x n) (hcache : cache.Sound fun k => draft k x) :
    Renewal x (Keeps.keep cache n) := by
  refine ⟨coherent_keep h.coherent ?_, (fresh_keep cache n).trans h.fresh⟩
  have hdraft : (fun k => draft k n) = fun k => draft k x := funext (draft_congr h.fresh)
  rwa [hdraft]

/-- A node follows its draft as a part if its body does. -/
theorem part_follows (hd : d.Shipped) {body : Pass ν String} (hx : Coherent x)
    (hbody : body.Follows (effect d x) fun n => Renewal x n ∧ Keeps.cache n = none) :
    (asPart d x body).Follows (effect d x) (Renewal x) := by
  have hstart : Renewal x (Keeps.keep none x) := renewal_keep (.refl hx) Cache.sound_none
  have hrun := hbody _ ⟨hstart, cache_keep none x⟩
  exact asPart_follows hd (.refl hx) (sound hx) (hrun.mono fun _ h => h.1) fun _ _ h hcache =>
    renewal_keep h hcache

/-- As a whole it does so too, and keeps the collector. -/
theorem whole_follows (hd : d.Shipped) {body : Pass ν String} (hx : Coherent x)
    (hbody : body.Follows (effect d x) fun n => Renewal x n ∧ Keeps.cache n = none) :
    Renewal x (left (asWhole d x body)) ∧
      answer (asWhole d x body) = (effect d x (Collector.empty d.style)).map Prod.fst ∧
      (Keeps.cache (left (asWhole d x body))).collector? =
        (effect d x (Collector.empty d.style)).toOption.map Prod.snd := by
  have hstart : Renewal x (Keeps.keep none x) := renewal_keep (.refl hx) Cache.sound_none
  exact asWhole_follows hd (.refl hx) (sound hx) (hbody _ ⟨hstart, cache_keep none x⟩)
    fun n cache h hcache =>
    ⟨renewal_keep h hcache, cache_keep cache n⟩

end Drafted

/-! ## Groups and joins -/

instance : Drafted Group where
  draft := Group.draft
  fresh := Group.fresh
  Coherent := Group.Coherent
  draft_congr h k := by rw [← Group.draft_fresh, h, Group.draft_fresh]
  fresh_keep _ n := by cases n; simp only [Keeps.keep, Group.fresh]
  cache_keep _ _ := rfl
  sound {n} h := by cases n; rw [Group.Coherent] at h; exact h.1
  coherent_keep {cache n} h hcache := by
    cases n
    rw [Group.Coherent] at h
    simp only [Keeps.keep, Group.Coherent, Group.draft] at hcache ⊢
    exact ⟨hcache, h.2⟩

instance : Drafted Join where
  draft := Join.draft
  fresh := Join.fresh
  Coherent := Join.Coherent
  draft_congr h k := by rw [← Join.draft_fresh, h, Join.draft_fresh]
  fresh_keep _ n := by cases n; simp only [Keeps.keep, Join.fresh]
  cache_keep _ _ := rfl
  sound {n} h := by cases n; rw [Join.Coherent] at h; exact h.1
  coherent_keep {cache n} h hcache := by
    cases n
    rw [Join.Coherent] at h
    simp only [Keeps.keep, Join.Coherent, Join.draft] at hcache ⊢
    exact ⟨hcache, h.2⟩

/-! ## Selects, by their parts -/

/-- A select is coherent if its own texts are right and its parts are
coherent. -/
structure Select.Parts (s : Select) : Prop where
  cache : s.cache.Sound fun k => s.draft k
  columnTexts : ColumnTexts.Sound (fun k => s.columnPlan k) s.columnTexts
  columns : ColumnsCoherent s.columns
  origin : OriginCoherent s.origin?
  joins : JoinsCoherent s.joins
  filter : s.filter.Coherent
  having : s.having.Coherent
  combined : CombinedCoherent s.combined?

theorem Select.coherent_iff (s : Select) : s.Coherent ↔ s.Parts := by
  cases s
  rw [Select.Coherent]
  exact ⟨fun ⟨h₁, h₂, h₃, h₄, h₅, h₆, h₇, h₈⟩ => ⟨h₁, h₂, h₃, h₄, h₅, h₆, h₇, h₈⟩,
    fun ⟨h₁, h₂, h₃, h₄, h₅, h₆, h₇, h₈⟩ => ⟨h₁, h₂, h₃, h₄, h₅, h₆, h₇, h₈⟩⟩

theorem Select.draft_congr {s s' : Select} (h : s'.fresh = s.fresh) (k : Constructs) :
    s'.draft k = s.draft k := by
  rw [← Select.draft_fresh, h, Select.draft_fresh]

theorem Select.columnPlan_fresh (k : Constructs) (s : Select) :
    s.fresh.columnPlan k = s.columnPlan k := by
  cases s
  simp only [Select.fresh, Select.columnPlan, bind_alias?_fresh, columnDrafts_fresh]

theorem Select.columnPlan_congr {s s' : Select} (h : s'.fresh = s.fresh) (k : Constructs) :
    s'.columnPlan k = s.columnPlan k := by
  rw [← Select.columnPlan_fresh, h, Select.columnPlan_fresh]

instance : Drafted Select where
  draft := Select.draft
  fresh := Select.fresh
  Coherent := Select.Coherent
  draft_congr := Select.draft_congr
  fresh_keep _ n := by cases n; simp only [Keeps.keep, Select.fresh]
  cache_keep _ _ := rfl
  sound {n} h := ((Select.coherent_iff n).1 h).cache
  coherent_keep {cache n} h hcache := by
    have hfresh : (Keeps.keep cache n).fresh = n.fresh :=
      by cases n; simp only [Keeps.keep, Select.fresh]
    obtain ⟨-, hcolumnTexts, hcolumns, horigin, hjoins, hfilter, hhaving, hcombined⟩ :=
      (Select.coherent_iff n).1 h
    refine (Select.coherent_iff _).2 ⟨?_, ?_, hcolumns, horigin, hjoins, hfilter, hhaving,
      hcombined⟩
    · simp only [Select.draft_congr hfresh]
      exact hcache
    · simp only [Select.columnPlan_congr hfresh]
      exact hcolumnTexts

end SqlTree
