import SqlTree.Proofs.Draft.Effect

/-!
# SqlTree.Proofs.Rollback.Grows

A compilation only adds to the collector.  Whatever it answers, the entries
that were there before come first after it (`Collector.Within`), so cutting
the collector back to their number gives the earlier one again
(`Collector.Within.backTo`).  There is a rule for each way in which actions,
runs and passes are put together, and two for the caching protocol: a part
that fails leaves the collector as it was and its node without a text
(`asPart_error`), and so does a whole (`asWhole_error`).

None of this depends on the dialect or on what is kept.
-/

namespace SqlTree

variable {ν μ χ α β : Type}

/-! ## Collectors -/

namespace Collector

/-- The later collector is of the same style and has these entries first. -/
structure Within (c c' : Collector) : Prop where
  style : c'.style = c.style
  entries : c.entries <+: c'.entries

namespace Within

variable {c c' c'' : Collector}

theorem refl (c : Collector) : c.Within c := ⟨rfl, List.prefix_rfl⟩

theorem trans (h : c.Within c') (h' : c'.Within c'') : c.Within c'' :=
  ⟨h'.style.trans h.style, h.entries.trans h'.entries⟩

theorem record (c : Collector) (value : Value) (type : BindType) (hint : String) :
    c.Within (c.record value type hint).2 := by
  obtain ⟨key, hentries, -⟩ := c.entries_record value type hint
  refine ⟨c.style_record value type hint, ?_⟩
  rw [hentries]
  exact List.prefix_append _ _

/-- Cutting back undoes whatever has been added. -/
theorem backTo (h : c.Within c') : c'.backTo c = c := by
  have htake : c'.entries.take c.size = c.entries := (List.prefix_iff_eq_take.1 h.entries).symm
  simp only [Collector.backTo, htake, h.style]

end Within

end Collector

/-! ## Actions -/

/-- Whatever the action answers, the state after it is related to the one
before. -/
def Leads {σ α : Type} (R : σ → σ → Prop) (action : EStateM Error σ α) : Prop :=
  ∀ s, R s (left (action s))

namespace Leads

variable {σ : Type} {R : σ → σ → Prop}

theorem pure (hrefl : ∀ s, R s s) (a : α) : Leads R (Pure.pure a : EStateM Error σ α) :=
  fun s => hrefl s

theorem throw (hrefl : ∀ s, R s s) (e : Error) : Leads R (throw e : EStateM Error σ α) :=
  fun s => hrefl s

theorem bind (htrans : ∀ {s s' s''}, R s s' → R s' s'' → R s s'') {action : EStateM Error σ α}
    {next : α → EStateM Error σ β} (h : Leads R action) (hnext : ∀ a, Leads R (next a)) :
    Leads R (action >>= next) := by
  intro s
  have hfirst := h s
  simp only [Bind.bind, EStateM.bind]
  cases hrun : action s with
  | ok a s' =>
    rw [hrun] at hfirst
    exact htrans hfirst (hnext a s')
  | error e s' =>
    rw [hrun] at hfirst
    exact hfirst

end Leads

namespace Collecting

/-- The action only adds to the collector. -/
def Grows (action : Collecting α) : Prop := Leads Collector.Within action

namespace Grows

theorem pure (a : α) : Grows (Pure.pure a) := Leads.pure .refl a

theorem throw (e : Error) : Grows (throw e : Collecting α) := Leads.throw .refl e

theorem bind {action : Collecting α} {next : α → Collecting β} (h : action.Grows)
    (hnext : ∀ a, (next a).Grows) : Grows (action >>= next) := Leads.bind .trans h hnext

theorem bindValue (value : Value) (hint : String) : (Collecting.bindValue value hint).Grows :=
  fun c => .record c value value.bindType hint

theorem bindCount (count : UInt64) (hint : String) : (Collecting.bindCount count hint).Grows := by
  intro c
  simp only [Collecting.bindCount]
  split
  · exact .record c _ _ hint
  · exact .refl c

theorem mapM {f : α → Collecting β} (hf : ∀ a, (f a).Grows) (as : List α) : (as.mapM f).Grows := by
  induction as with
  | nil => exact .pure _
  | cons a as ih =>
    rw [List.mapM_cons]
    exact (hf a).bind fun b => ih.bind fun bs => .pure (b :: bs)

end Grows

end Collecting

/-! ## Runs -/

/-- The run only adds to the collector. -/
def Run.Grows (run : Run ν α) : Prop := ∀ c : Collector, c.Within (left (run c)).2

theorem Outcome.left_map (text : α → β) (node : ν → μ) (o : Outcome ν α) :
    left (o.map text node) = (node (left o).1, (left o).2) := by
  cases o <;> rfl

namespace Run.Grows

variable {run : Run ν α}

theorem pure (a : α) (n : ν) : (Run.pure a n).Grows := fun c => .refl c

theorem collect {action : Collecting α} (h : action.Grows) (n : ν) :
    (Run.collect action n).Grows := by
  intro c
  have hgrows := h c
  simp only [Run.collect]
  cases haction : action c with
  | ok a c' => rw [haction] at hgrows; exact hgrows
  | error e c' => rw [haction] at hgrows; exact hgrows

theorem map (h : run.Grows) (text : α → β) (node : ν → μ) : (run.map text node).Grows := by
  intro c
  simp only [Run.map, Outcome.left_map]
  exact h c

/-- A run that is taken back if it fails leaves the collector as it was in
that case. -/
theorem orRestore_error (h : run.Grows) {n : ν} {c c' : Collector} {e : Error}
    (hrun : run.orRestore c = .error e (n, c')) : c' = c := by
  have hgrows := h c
  simp only [Run.orRestore, Outcome.orRestore] at hrun
  cases hc : run c with
  | ok a s => rw [hc] at hrun; cases hrun
  | error e' s =>
    rw [hc] at hrun hgrows
    cases hrun
    exact hgrows.backTo

theorem orRestore (h : run.Grows) : run.orRestore.Grows := by
  intro c
  cases hrun : run.orRestore c with
  | ok a s =>
    have hgrows := h c
    simp only [Run.orRestore, Outcome.orRestore] at hrun
    cases hc : run c with
    | ok a' s' => rw [hc] at hrun hgrows; cases hrun; exact hgrows
    | error e s' => rw [hc] at hrun; cases hrun
  | error e s =>
    obtain rfl : s.2 = c := h.orRestore_error hrun
    exact .refl s.2

theorem both (h : run.Grows) (y : μ) {second : Run μ β} (hsecond : second.Grows) :
    (Run.both run y second).Grows := by
  intro c
  have hfirst := h c
  simp only [Run.both]
  cases hrun : run c with
  | error e s => rw [hrun] at hfirst; exact hfirst
  | ok a s =>
    rw [hrun] at hfirst
    simp only [Outcome.left_map]
    exact hfirst.trans (hsecond s.2)

theorem cons (h : run.Grows) (ys : List ν) {rest : Run (List ν) (List α)} (hrest : rest.Grows) :
    (Run.cons run ys rest).Grows := by
  intro c
  have hfirst := h c
  simp only [Run.cons]
  cases hrun : run c with
  | error e s => rw [hrun] at hfirst; exact hfirst
  | ok a s =>
    rw [hrun] at hfirst
    simp only [Outcome.left_map]
    exact hfirst.trans (hrest s.2)

end Run.Grows

/-! ## Passes -/

/-- The pass only adds to the collector, and what holds of the node before it
holds of the node after it. -/
def Pass.Grows (P : ν → Prop) (pass : Pass ν α) : Prop :=
  Leads (fun s s' => s.2.Within s'.2 ∧ (P s.1 → P s'.1)) pass

namespace Pass.Grows

variable {P : ν → Prop} {pass : Pass ν α}

theorem pure (a : α) : Pass.Grows P (Pure.pure a) := Leads.pure (fun s => ⟨.refl s.2, id⟩) a

theorem fail (e : Error) : Pass.Grows P (Pass.fail (α := α) e) := fun s => ⟨.refl s.2, id⟩

theorem bind {next : α → Pass ν β} (h : pass.Grows P) (hnext : ∀ a, (next a).Grows P) :
    Pass.Grows P (pass >>= next) :=
  Leads.bind (fun h h' => ⟨h.1.trans h'.1, h'.2 ∘ h.2⟩) h hnext

theorem adjust {f : ν → ν} (hf : ∀ n, P n → P (f n)) : (Pass.adjust f).Grows P :=
  fun s => ⟨.refl s.2, hf s.1⟩

theorem visit {put : χ → ν → ν} {run : Run χ α} (h : run.Grows)
    (hput : ∀ x n, P n → P (put x n)) : (Pass.visit put run).Grows P := by
  intro s
  simp only [Pass.visit, Outcome.left_map]
  exact ⟨h s.2, hput _ s.1⟩

theorem collect {action : Collecting α} (h : action.Grows) : (Pass.collect action).Grows P := by
  intro s
  refine ⟨Run.Grows.collect h s.1 s.2, ?_⟩
  simp only [Pass.collect, Run.collect]
  cases action s.2 <;> exact id

theorem run (h : pass.Grows P) (n : ν) : (pass.run n).Grows := fun c => (h (n, c)).1

end Pass.Grows

/-! ## The caching protocol -/

section Protocol

variable [Keeps ν] {d : Dialect} {node n : ν} {body : Pass ν String} {e : Error}

/-- The body of a node neither takes entries from the collector nor keeps a
text on the node itself. -/
abbrev Pass.Bare (body : Pass ν α) : Prop := body.Grows fun n => Keeps.cache n = none

/-- A bare body that starts without a text ends without one. -/
theorem Pass.Bare.cache_run (h : body.Bare) (node : ν) (c : Collector) :
    Keeps.cache (left (body.run (Keeps.keep none node) c)).1 = none :=
  (h (Keeps.keep none node, c)).2 (Keeps.cache_keep none node)

/-- A part that fails leaves the collector as it was and keeps no text. -/
theorem asPart_error (h : body.Bare) {c c' : Collector}
    (hrun : asPart d node body c = .error e (n, c')) : c' = c ∧ Keeps.cache n = none := by
  have hgrows := h.run (Keeps.keep none node) c
  have hcache := h.cache_run node c
  simp only [asPart] at hrun
  split at hrun
  · cases hrun
  · cases hbody : body.run (Keeps.keep none node) c with
    | ok sql s => rw [hbody] at hrun; cases hrun
    | error e' s =>
      rw [hbody] at hrun hgrows hcache
      cases hrun
      exact ⟨hgrows.backTo, hcache⟩

/-- A whole that fails keeps no text. -/
theorem asWhole_error (h : body.Bare) (hrun : asWhole d node body = .error e n) :
    Keeps.cache n = none := by
  have hcache := h.cache_run node (Collector.empty d.style)
  simp only [asWhole] at hrun
  split at hrun
  · cases hrun
  · cases hbody : body.run (Keeps.keep none node) (Collector.empty d.style) with
    | ok sql s => rw [hbody] at hrun; cases hrun
    | error e' s =>
      rw [hbody] at hrun hcache
      cases hrun
      exact hcache

/-- A part only adds to the collector. -/
theorem Run.Grows.part (h : body.Bare) (node : ν) : (asPart d node body).Grows := by
  intro c
  cases hrun : asPart d node body c with
  | error e s =>
    obtain ⟨hc, -⟩ := asPart_error h hrun
    rw [← hc]
    exact .refl _
  | ok sql s =>
    have hgrows := h.run (Keeps.keep none node) c
    simp only [asPart] at hrun
    split at hrun
    · cases hrun
      exact .refl c
    · cases hbody : body.run (Keeps.keep none node) c with
      | error e s' => rw [hbody] at hrun; cases hrun
      | ok sql' s' =>
        rw [hbody] at hrun hgrows
        cases hrun
        exact hgrows

end Protocol

end SqlTree
