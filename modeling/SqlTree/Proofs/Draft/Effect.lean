import SqlTree.Compile.Pass
import SqlTree.Proofs.Draft.Shape

/-!
# SqlTree.Proofs.Draft.Effect

What a compilation does to a collector.  An `Effect` answers a result with
the collector after it, or an error; unlike a `Collecting` it says nothing
about the collector after an error, as that one is thrown away or taken
back.  A `Scribe` writes plans of some type: drafts, or lists of drafts.
`Scribe.effect` is the effect of writing a plan, if there is one.  Errors
are settled before anything is written, so the effects of parts put
together are the effect of the plans put together (`effect_map`,
`effect_pair`).
-/

namespace SqlTree

/-! ## Answers -/

/-- What a compilation answers. -/
def answer {σ α : Type} : EStateM.Result Error σ α → Except Error α
  | .ok a _ => .ok a
  | .error e _ => .error e

/-- What a compilation leaves, be it with a text or an error. -/
def left {σ α : Type} : EStateM.Result Error σ α → σ
  | .ok _ s => s
  | .error _ s => s

/-! ## Effects -/

/-- A result and the collector after it, or an error. -/
abbrev Effect (α : Type) : Type := StateT Collector (Except Error) α

/-- No result. -/
def Effect.fail {α : Type} (e : Error) : Effect α := fun _ => .error e

/-- A result that takes no collector. -/
def Effect.ofExcept {α : Type} : Except Error α → Effect α
  | .ok a => pure a
  | .error e => Effect.fail e

/-- The effect of an action on the collector. -/
def Collecting.effect {α : Type} (action : Collecting α) : Effect α := fun c =>
  match action c with
  | .ok a c => .ok (a, c)
  | .error e _ => .error e

/-- A way to write plans of type `χ` as results of type `α`. -/
structure Scribe (χ α : Type) where
  text : χ → Collector → α
  after : χ → Collector → Collector

/-- The effect of writing a plan. -/
def Scribe.effect {χ α : Type} (w : Scribe χ α) (plan : Except Error χ) : Effect α := fun c =>
  match plan with
  | .ok x => .ok (w.text x c, w.after x c)
  | .error e => .error e

/-! ## Laws of actions -/

namespace Collecting

variable {α β : Type}

@[simp] theorem effect_pure (a : α) : effect (pure a) = pure a := rfl

@[simp] theorem effect_throw (e : Error) : effect (throw e : Collecting α) = Effect.fail e := rfl

@[simp] theorem effect_bind (action : Collecting α) (f : α → Collecting β) :
    effect (action >>= f) = effect action >>= fun a => effect (f a) := by
  funext c
  simp only [effect, bind, EStateM.bind, StateT.bind, Except.bind]
  cases action c <;> rfl

end Collecting

/-! ## Laws of plans -/

namespace Scribe

variable {χ χ₁ χ₂ χ₃ α β γ : Type}

@[simp] theorem effect_ok (w : Scribe χ α) (x : χ) (c : Collector) :
    w.effect (.ok x) c = .ok (w.text x c, w.after x c) := rfl

@[simp] theorem effect_error (w : Scribe χ α) (e : Error) (c : Collector) :
    w.effect (.error e) c = .error e := rfl

/-- The effect of a plan and of what comes after it is the effect of the
whole plan, if it is from each first part on. -/
theorem effect_bind {w : Scribe χ₁ α} {v : Scribe χ₂ β} {plan : Except Error χ₁} {f : α → Effect β}
    {g : χ₁ → Except Error χ₂} {c c' : Collector}
    (h : ∀ x, plan = .ok x → f (w.text x c) (w.after x c) = v.effect (g x) c') :
    (w.effect plan >>= f) c = v.effect (plan >>= g) c' := by
  cases plan with
  | error e => rfl
  | ok x => exact h x rfl

/-- A change of the result is a change of the plan. -/
theorem effect_map {w : Scribe χ₁ α} {v : Scribe χ₂ β} {f : α → β} {g : χ₁ → χ₂}
    (htext : ∀ x c, v.text (g x) c = f (w.text x c)) (hafter : ∀ x c, v.after (g x) c = w.after x c)
    (plan : Except Error χ₁) : f <$> w.effect plan = v.effect (g <$> plan) := by
  funext c
  cases plan with
  | error e => rfl
  | ok x =>
    change Except.ok (f (w.text x c), w.after x c) = Except.ok (v.text (g x) c, v.after (g x) c)
    rw [htext, hafter]

/-- Two plans written one after the other are one plan. -/
theorem effect_pair {u : Scribe χ₁ α} {v : Scribe χ₂ β} {w : Scribe χ₃ γ} {f : α → β → γ}
    {g : χ₁ → χ₂ → χ₃} (htext : ∀ x y c, w.text (g x y) c = f (u.text x c) (v.text y (u.after x c)))
    (hafter : ∀ x y c, w.after (g x y) c = v.after y (u.after x c)) (first : Except Error χ₁)
    (second : Except Error χ₂) :
    (do let a ← u.effect first; let b ← v.effect second; pure (f a b)) =
      w.effect (do let x ← first; let y ← second; pure (g x y)) := by
  funext c
  cases first with
  | error e => rfl
  | ok x =>
    cases second with
    | error e => rfl
    | ok y =>
      change Except.ok (f (u.text x c) (v.text y (u.after x c)), v.after y (u.after x c)) =
        Except.ok (w.text (g x y) c, w.after (g x y) c)
      rw [htext, hafter]

end Scribe

/-! ## Scribes for drafts -/

namespace Draft

variable {d : Dialect}

/-- Writes a draft. -/
def scribe (d : Dialect) : Scribe Draft String := ⟨text d, after⟩

/-- Writes drafts one after the other. -/
def listScribe (d : Dialect) : Scribe (List Draft) (List String) := ⟨texts d, afterAll⟩

/-- Writes the terms of a group. -/
def termScribe (d : Dialect) : Scribe (List (Connective × Draft)) (List (Connective × String)) :=
  ⟨termTexts d, fun ts => afterAll (ts.map Prod.snd)⟩

/-- The texts of rows written one after the other. -/
def rowTexts (d : Dialect) : List (List Draft) → Collector → List (List String)
  | [], _ => []
  | row :: rows, c => texts d row c :: rowTexts d rows (afterAll row c)

/-- Writes rows of drafts. -/
def rowScribe (d : Dialect) : Scribe (List (List Draft)) (List (List String)) :=
  ⟨rowTexts d, fun rows => afterAll rows.flatten⟩

@[simp] theorem length_rowTexts (rows : List (List Draft)) (c : Collector) :
    (rowTexts d rows c).length = rows.length := by
  induction rows generalizing c with
  | nil => rfl
  | cons row rows ih => simp [rowTexts, ih]

/-- A change of a text is a change of the draft. -/
theorem effect_map {f : String → String} {g : Draft → Draft}
    (htext : ∀ p c, (g p).text d c = f (p.text d c)) (hbindings : ∀ p, (g p).bindings = p.bindings)
    (plan : Except Error Draft) : f <$> (scribe d).effect plan = (scribe d).effect (g <$> plan) :=
  Scribe.effect_map htext (fun p c => congrArg c.bindAll (hbindings p)) plan

/-- Two drafts written one after the other, as one draft. -/
theorem effect_pair {f : String → String → String} {g : Draft → Draft → Draft}
    (htext : ∀ p q c, (g p q).text d c = f (p.text d c) (q.text d (p.after c)))
    (hbindings : ∀ p q, (g p q).bindings = p.bindings ++ q.bindings)
    (first second : Except Error Draft) :
    (do let a ← (scribe d).effect first; let b ← (scribe d).effect second; pure (f a b)) =
      (scribe d).effect (do let p ← first; let q ← second; pure (g p q)) :=
  Scribe.effect_pair htext (fun p q c => by simp [scribe, after, hbindings]) first second

/-- A draft in front of others. -/
theorem effect_cons (first : Except Error Draft) (rest : Except Error (List Draft)) :
    (do let a ← (scribe d).effect first; let as ← (listScribe d).effect rest; pure (a :: as)) =
      (listScribe d).effect (do let p ← first; let ps ← rest; pure (p :: ps)) :=
  Scribe.effect_pair (fun _ _ _ => rfl) (fun _ _ _ => afterAll_cons _) first rest

/-- A term in front of others. -/
theorem effect_term_cons (op : Connective) (first : Except Error Draft)
    (rest : Except Error (List (Connective × Draft))) :
    (do let a ← (scribe d).effect first; let as ← (termScribe d).effect rest
        pure ((op, a) :: as)) =
      (termScribe d).effect (do let p ← first; let ts ← rest; pure ((op, p) :: ts)) :=
  Scribe.effect_pair (f := fun a as => (op, a) :: as) (fun _ _ _ => rfl)
    (fun _ _ _ => afterAll_cons _) first rest

/-- A row in front of others. -/
theorem effect_row_cons (first : Except Error (List Draft))
    (rest : Except Error (List (List Draft))) :
    (do let a ← (listScribe d).effect first; let as ← (rowScribe d).effect rest; pure (a :: as)) =
      (rowScribe d).effect (do let ps ← first; let rows ← rest; pure (ps :: rows)) :=
  Scribe.effect_pair (fun _ _ _ => rfl) (fun ps rows c => by simp [rowScribe, listScribe, afterAll])
    first rest

/-! ## Values -/

/-- The value of an action that binds one. -/
theorem effect_bindValue (v : Value) (hint : String) :
    (Collecting.bindValue v hint).effect = (scribe d).effect (.ok (value ⟨v, v.bindType, hint⟩)) :=
    rfl

/-- A number of rows, which is bound as a signed integer. -/
def rowCount (count : UInt64) (hint : String) : Except Error Draft :=
  if (count.toNat : Int) ≤ Int64.maxValue.toInt then
    .ok (value ⟨.int (Int64.ofNat count.toNat), .int, hint⟩)
  else .error (.countOutOfRange count.toNat)

theorem effect_bindCount (count : UInt64) (hint : String) :
    (Collecting.bindCount count hint).effect = (scribe d).effect (rowCount count hint) := by
  funext c
  by_cases h : (count.toNat : Int) ≤ Int64.maxValue.toInt
  · simp only [Collecting.effect, Collecting.bindCount, rowCount, if_pos h]
    rfl
  · simp only [Collecting.effect, Collecting.bindCount, rowCount, if_neg h]
    rfl

end Draft

end SqlTree
