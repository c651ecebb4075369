import SqlTree.Proofs.Draft.Tree

/-!
# SqlTree.Proofs.Caching.Follows

Runs against effects.  A run that goes well answers a text and leaves a
collector (`Run.Answers`).  A run follows an effect if it answers the same text
with the same collector, or the same error; and whatever it answers, the
node that it gives back is of the kind asked for.  There is a rule for each
way in which runs are put together, and for each way in which passes are, so
the proof that a tree follows its draft is made of the rules and of the
steps at which something is kept.
-/

namespace SqlTree

variable {ν μ χ α β : Type}

/-! ## Effects one after the other -/

namespace Effect

variable {effect : Effect α} {c c' : Collector} {a : α} {e : Error}

theorem map_ok (f : α → β) (h : effect c = .ok (a, c')) : (f <$> effect) c = .ok (f a, c') := by
  simp only [Functor.map, StateT.map, bind, Except.bind, h, pure, Except.pure]

theorem map_error (f : α → β) (h : effect c = .error e) : (f <$> effect) c = .error e := by
  simp only [Functor.map, StateT.map, bind, Except.bind, h]

theorem bind_ok (f : α → Effect β) (h : effect c = .ok (a, c')) : (effect >>= f) c = f a c' := by
  simp only [bind, StateT.bind, Except.bind, h]

theorem bind_error (f : α → Effect β) (h : effect c = .error e) : (effect >>= f) c = .error e := by
  simp only [bind, StateT.bind, Except.bind, h]

end Effect

/-! ## Runs that answer -/

/-- The run goes well, with the answer, and leaves the collector. -/
def Run.Answers (run : Run ν α) (c : Collector) (a : α) (c' : Collector) : Prop :=
  ∃ n, run c = .ok a (n, c')

namespace Run

variable {run : Run ν α} {c c' : Collector} {a : α} {b : β}

theorem answers_iff : run.Answers c a c' ↔ answer (run c) = .ok a ∧ (left (run c)).2 = c' := by
  unfold Answers
  cases run c with
  | error e s => exact iff_of_false (fun ⟨_, h⟩ => nomatch h) fun h => nomatch h.1
  | ok a₀ s =>
    constructor
    · rintro ⟨n, h⟩
      cases h
      exact ⟨rfl, rfl⟩
    · rintro ⟨h, rfl⟩
      cases h
      exact ⟨s.1, rfl⟩

theorem answers_pure {a₀ : α} {n : ν} : (Run.pure a₀ n).Answers c a c' ↔ a₀ = a ∧ c = c' := by
  rw [answers_iff]
  exact and_congr_left' ⟨Except.ok.inj, congrArg _⟩

theorem answers_map {f : α → β} {g : ν → μ} :
    (run.map f g).Answers c b c' ↔ ∃ a, run.Answers c a c' ∧ f a = b := by
  unfold Answers Run.map
  cases run c with
  | error e s => exact iff_of_false (fun ⟨_, h⟩ => nomatch h) fun ⟨_, ⟨_, h⟩, _⟩ => nomatch h
  | ok a₀ s =>
    constructor
    · rintro ⟨n, h⟩
      cases h
      exact ⟨a₀, ⟨s.1, rfl⟩, rfl⟩
    · rintro ⟨a, ⟨n, h⟩, rfl⟩
      cases h
      exact ⟨g n, rfl⟩

theorem answers_cons {ys : List ν} {rest : Run (List ν) (List α)} {as : List α} :
    (Run.cons run ys rest).Answers c as c' ↔
      ∃ a next as', run.Answers c a next ∧ rest.Answers next as' c' ∧ a :: as' = as := by
  simp only [answers_iff, Run.cons]
  cases run c with
  | error e s => exact iff_of_false (fun h => nomatch h.1) fun ⟨_, _, _, h, _⟩ => nomatch h.1
  | ok a s =>
    have hmap : (rest.map (a :: ·) (s.1 :: ·)).Answers s.2 as c' ↔
        ∃ as', rest.Answers s.2 as' c' ∧ a :: as' = as := answers_map
    refine (answers_iff.symm.trans hmap).trans ?_
    simp only [answers_iff]
    constructor
    · rintro ⟨as', hrest, rfl⟩
      exact ⟨a, s.2, as', ⟨rfl, rfl⟩, hrest, rfl⟩
    · rintro ⟨_, _, as', ⟨⟨⟩, rfl⟩, hrest, rfl⟩
      exact ⟨as', hrest, rfl⟩

theorem answers_orRestore : run.orRestore.Answers c a c' ↔ run.Answers c a c' := by
  unfold Answers Run.orRestore
  cases run c with
  | error e s => exact iff_of_false (fun ⟨_, h⟩ => nomatch h) fun ⟨_, h⟩ => nomatch h
  | ok a₀ s => rfl

end Run

namespace Pass

variable {pass : Pass ν α} {n : ν} {c c' : Collector} {a : α} {b : β}

theorem answers_visit {put : χ → ν → ν} {run : Run χ α} :
    ((visit put run).run n).Answers c a c' ↔ run.Answers c a c' := by
  have hmap : (visit put run).run n = run.map id fun x => put x n := rfl
  rw [hmap, Run.answers_map]
  simp

theorem answers_map {f : α → β} :
    ((f <$> pass).run n).Answers c b c' ↔ ∃ a, (pass.run n).Answers c a c' ∧ f a = b := by
  have hmap : (f <$> pass).run n = (pass.run n).map f id := by
    funext c
    simp only [Pass.run, Functor.map, EStateM.map, Run.map]
    cases pass (n, c) <;> rfl
  rw [hmap, Run.answers_map]

/-- A step behind another goes from what that one leaves.  It does not matter
which node that is if the step does the same for all of them. -/
theorem answers_bind {f : α → Pass ν β} {P : α → Collector → β → Collector → Prop}
    (hf : ∀ {a n c b c'}, ((f a).run n).Answers c b c' ↔ P a c b c') :
    ((pass >>= f).run n).Answers c b c' ↔ ∃ a c₁, (pass.run n).Answers c a c₁ ∧ P a c₁ b c' := by
  have hbind : (pass >>= f).run n c = match pass.run n c with
      | .ok a (n, c) => (f a).run n c
      | .error e s => .error e s := by
    simp only [Pass.run, Bind.bind, EStateM.bind]
    cases pass (n, c) <;> rfl
  unfold Run.Answers
  rw [hbind]
  cases pass.run n c with
  | error e s => exact iff_of_false (fun ⟨_, h⟩ => nomatch h) fun ⟨_, _, ⟨_, h⟩, _⟩ => nomatch h
  | ok a₀ s =>
    constructor
    · intro h
      exact ⟨a₀, s.2, ⟨s.1, rfl⟩, hf.1 h⟩
    · rintro ⟨a, c₁, ⟨n₁, h⟩, hP⟩
      cases h
      exact hf.2 hP

end Pass

/-! ## Runs -/

/-- The run has the effect and gives back a node with the property. -/
def Run.Follows (run : Run ν α) (effect : Effect α) (P : ν → Prop) : Prop := ∀ c,
  match run c with
  | .ok a (n, c') => effect c = .ok (a, c') ∧ P n
  | .error e (n, _) => effect c = .error e ∧ P n

namespace Run.Follows

variable {P Q : ν → Prop} {run : Run ν α} {effect : Effect α}

theorem of_ok (h : run.Follows effect P) {c c' : Collector} {a : α} {n : ν}
    (hrun : run c = .ok a (n, c')) : effect c = .ok (a, c') ∧ P n := by
  have := h c
  rwa [hrun] at this

theorem of_error (h : run.Follows effect P) {c c' : Collector} {e : Error} {n : ν}
    (hrun : run c = .error e (n, c')) : effect c = .error e ∧ P n := by
  have := h c
  rwa [hrun] at this

/-- A run does what its effect does. -/
theorem run_eq (h : run.Follows effect P) {c c' : Collector} {a : α}
    (heffect : effect c = .ok (a, c')) : run.Answers c a c' := by
  unfold Run.Answers
  cases hrun : run c with
  | ok b s =>
    obtain ⟨rfl, rfl⟩ := Prod.mk.inj (Except.ok.inj ((h.of_ok hrun).1.symm.trans heffect))
    exact ⟨s.1, rfl⟩
  | error e s => cases (h.of_error hrun).1.symm.trans heffect

theorem node (h : run.Follows effect P) (c : Collector) : P (left (run c)).1 := by
  cases hrun : run c with
  | ok a s => exact (h.of_ok hrun).2
  | error e s => exact (h.of_error hrun).2

/-- The answer needs no node. -/
theorem answer_eq (h : run.Follows effect P) (c : Collector) :
    answer (run c) = (effect c).map Prod.fst := by
  cases hrun : run c with
  | ok a s =>
    rw [(h.of_ok hrun).1]
    rfl
  | error e s =>
    rw [(h.of_error hrun).1]
    rfl

theorem mono (h : run.Follows effect P) (hPQ : ∀ n, P n → Q n) : run.Follows effect Q := by
  intro c
  have := h c
  split at this <;> exact ⟨this.1, hPQ _ this.2⟩

/-- A text that needs no collector. -/
theorem pure {d : Dialect} {p : Draft} {text : String} {n : ν} (htext : ∀ c, p.text d c = text)
    (hbindings : p.bindings = []) (hn : P n) :
    (Run.pure text n).Follows ((Draft.scribe d).effect (.ok p)) P := fun c =>
  ⟨congrArg Except.ok (Prod.ext (htext c) (Draft.after_of_bindings_eq_nil hbindings)), hn⟩

theorem collect {action : Collecting α} {n : ν} (haction : action.effect = effect) (hn : P n) :
    (Run.collect action n).Follows effect P := by
  intro c
  have h : action.effect c = effect c := congrFun haction c
  simp only [Run.collect, Collecting.effect] at h ⊢
  cases hc : action c with
  | ok a c' => rw [hc] at h; exact ⟨h.symm, hn⟩
  | error e c' => rw [hc] at h; exact ⟨h.symm, hn⟩

theorem map {f : α → β} {g : ν → μ} {Q : μ → Prop} (h : run.Follows effect P)
    (hnode : ∀ n, P n → Q (g n)) : (run.map f g).Follows (f <$> effect) Q := by
  intro c
  cases hrun : run c with
  | ok a s =>
    obtain ⟨heffect, hn⟩ := h.of_ok hrun
    simp only [Run.map, hrun, Outcome.map]
    exact ⟨Effect.map_ok f heffect, hnode _ hn⟩
  | error e s =>
    obtain ⟨heffect, hn⟩ := h.of_error hrun
    simp only [Run.map, hrun, Outcome.map]
    exact ⟨Effect.map_error f heffect, hnode _ hn⟩

/-- The same text for another node. -/
theorem rename {g : ν → μ} {Q : μ → Prop} (h : run.Follows effect P) (hnode : ∀ n, P n → Q (g n)) :
    (run.map id g).Follows effect Q := by
  simpa only [id_map] using h.map (f := id) hnode

/-- Another shape of the text is another shape of the draft. -/
theorem reshape {d : Dialect} {run : Run ν String} {plan : Except Error Draft} {f : String → String}
    {r : Draft → Draft} {g : ν → μ} {Q : μ → Prop}
    (h : run.Follows ((Draft.scribe d).effect plan) P)
    (htext : ∀ p c, (r p).text d c = f (p.text d c)) (hbindings : ∀ p, (r p).bindings = p.bindings)
    (hnode : ∀ n, P n → Q (g n)) : (run.map f g).Follows ((Draft.scribe d).effect (r <$> plan)) Q :=
  Draft.effect_map htext hbindings plan ▸ h.map hnode

theorem orRestore (h : run.Follows effect P) : run.orRestore.Follows effect P := by
  intro c
  cases hrun : run c with
  | ok a s => simpa only [Run.orRestore, hrun, Outcome.orRestore] using h.of_ok hrun
  | error e s => simpa only [Run.orRestore, hrun, Outcome.orRestore] using h.of_error hrun

theorem both {second : Run μ β} {effect' : Effect β} {Q : μ → Prop} {y : μ}
    (h : run.Follows effect P) (hsecond : second.Follows effect' Q) (hy : Q y) :
    (Run.both run y second).Follows (do let a ← effect; let b ← effect'; Pure.pure (a, b))
      fun n => P n.1 ∧ Q n.2 := by
  intro c
  cases hrun : run c with
  | error e s =>
    obtain ⟨heffect, hn⟩ := h.of_error hrun
    simp only [Run.both, hrun]
    exact ⟨Effect.bind_error _ heffect, hn, hy⟩
  | ok a s =>
    obtain ⟨heffect, hn⟩ := h.of_ok hrun
    simp only [Run.both, hrun, Effect.bind_ok _ heffect, bind_pure_comp]
    cases hrun' : second s.2 with
    | ok b t =>
      obtain ⟨heffect', hm⟩ := hsecond.of_ok hrun'
      exact ⟨Effect.map_ok _ heffect', hn, hm⟩
    | error e t =>
      obtain ⟨heffect', hm⟩ := hsecond.of_error hrun'
      exact ⟨Effect.map_error _ heffect', hn, hm⟩

theorem cons {rest : Run (List ν) (List α)} {effect' : Effect (List α)} {Q R : List ν → Prop}
    {l : List ν} (h : run.Follows effect P) (hrest : rest.Follows effect' Q) (hys : Q l)
    (hcons : ∀ x xs, P x → Q xs → R (x :: xs)) :
    (Run.cons run l rest).Follows (do let a ← effect; let as ← effect'; Pure.pure (a :: as)) R := by
  intro c
  cases hrun : run c with
  | error e s =>
    obtain ⟨heffect, hn⟩ := h.of_error hrun
    simp only [Run.cons, hrun]
    exact ⟨Effect.bind_error _ heffect, hcons _ _ hn hys⟩
  | ok a s =>
    obtain ⟨heffect, hn⟩ := h.of_ok hrun
    simp only [Run.cons, hrun, Effect.bind_ok _ heffect, bind_pure_comp]
    cases hrun' : rest s.2 with
    | ok as t =>
      obtain ⟨heffect', hxs⟩ := hrest.of_ok hrun'
      exact ⟨Effect.map_ok _ heffect', hcons _ _ hn hxs⟩
    | error e t =>
      obtain ⟨heffect', hxs⟩ := hrest.of_error hrun'
      exact ⟨Effect.map_error _ heffect', hcons _ _ hn hxs⟩

end Run.Follows

/-! ## Passes -/

/-- From a node with the property the pass has the effect, and the property
holds of the node again. -/
def Pass.Follows (pass : Pass ν α) (effect : Effect α) (P : ν → Prop) : Prop :=
  ∀ n, P n → (pass.run n).Follows effect P

namespace Pass.Follows

variable {P : ν → Prop} {pass : Pass ν α} {effect : Effect α}

theorem pure (a : α) : Pass.Follows (Pure.pure a) (Pure.pure a) P := fun _ hn _ => ⟨rfl, hn⟩

theorem fail (e : Error) : Pass.Follows (Pass.fail (α := α) e) (Effect.fail e) P :=
    fun _ hn _ => ⟨rfl, hn⟩

theorem adjust {f : ν → ν} (hf : ∀ n, P n → P (f n)) :
    (Pass.adjust f).Follows (Pure.pure ()) P := fun n hn _ =>
  ⟨rfl, hf n hn⟩

theorem collect {action : Collecting α} (haction : action.effect = effect) :
    (Pass.collect action).Follows effect P := fun _ hn =>
  Run.Follows.collect haction hn

theorem visit {Q : χ → Prop} {put : χ → ν → ν} {run : Run χ α} (h : run.Follows effect Q)
    (hput : ∀ n x, P n → Q x → P (put x n)) : (Pass.visit put run).Follows effect P := by
  intro n hn c
  cases hrun : run c with
  | ok a s =>
    obtain ⟨heffect, hx⟩ := h.of_ok hrun
    simp only [Pass.run, Pass.visit, hrun, Outcome.map]
    exact ⟨heffect, hput n _ hn hx⟩
  | error e s =>
    obtain ⟨heffect, hx⟩ := h.of_error hrun
    simp only [Pass.run, Pass.visit, hrun, Outcome.map]
    exact ⟨heffect, hput n _ hn hx⟩

/-- What comes next may rely on what the effect can answer. -/
theorem bind {f : α → Pass ν β} {effect' : α → Effect β} (h : pass.Follows effect P)
    (hf : ∀ a, (∃ c c', effect c = .ok (a, c')) → (f a).Follows (effect' a) P) :
    (pass >>= f).Follows (effect >>= effect') P := by
  intro n hn c
  cases hrun : pass (n, c) with
  | ok a s =>
    obtain ⟨heffect, hn'⟩ := (h n hn).of_ok hrun
    rw [Effect.bind_ok _ heffect]
    simpa only [Pass.run, Bind.bind, EStateM.bind, hrun] using hf a ⟨c, s.2, heffect⟩ s.1 hn' s.2
  | error e s =>
    obtain ⟨heffect, hn'⟩ := (h n hn).of_error hrun
    rw [Effect.bind_error _ heffect]
    simpa only [Pass.run, Bind.bind, EStateM.bind, hrun, true_and] using hn'

/-- An adjustment that keeps the property has no effect of its own. -/
theorem after_adjust {f : ν → ν} (hf : ∀ n, P n → P (f n)) (h : pass.Follows effect P) :
    (Pass.adjust f >>= fun _ => pass).Follows effect P :=
  (adjust hf).bind fun _ _ => h

end Pass.Follows

end SqlTree
