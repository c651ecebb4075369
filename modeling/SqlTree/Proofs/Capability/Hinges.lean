import SqlTree.Proofs.Combined.Parts
import SqlTree.Proofs.Selects

/-!
# SqlTree.Proofs.Capability.Hinges

Two plans for one node.  They hinge on a condition if they are one plan where
it holds, and where it does not, the first one is stopped: it leads nowhere,
and nothing but a given error stands between it and where the second one
leads (`Hinges`).  Plans that are put together of such pairs are such a pair
again (`Hinges.bind`, `Hinges.map`).
-/

namespace SqlTree

variable {α β : Type} {e : Error}

/-- The first plan leads nowhere.  Where the second one leads somewhere, the
first one fails with the error. -/
structure Stops (e : Error) (plan plan' : Except Error α) : Prop where
  nowhere : ∀ a, plan ≠ .ok a
  error : ∀ a, plan' = .ok a → plan = .error e

/-- The plans are one if the condition holds, and the first one is stopped
otherwise. -/
structure Hinges (P : Prop) (e : Error) (plan plan' : Except Error α) : Prop where
  same : P → plan = plan'
  stops : ¬P → Stops e plan plan'

namespace Stops

theorem of_error (plan' : Except Error α) : Stops e (.error e) plan' :=
  ⟨nofun, fun _ _ => rfl⟩

theorem bind {plan plan' : Except Error α} (h : Stops e plan plan') (f f' : α → Except Error β) :
    Stops e (plan >>= f) (plan' >>= f') := by
  refine ⟨fun b hb => ?_, fun b hb => ?_⟩
  · obtain ⟨a, ha, -⟩ := exists_of_bind_eq_ok hb
    exact h.nowhere a ha
  · obtain ⟨a, ha, -⟩ := exists_of_bind_eq_ok hb
    rw [h.error a ha]
    rfl

/-- Going on does not help if what follows is stopped. -/
theorem after_ok (a : α) (plan' : Except Error α) {f f' : α → Except Error β}
    (h : ∀ a', Stops e (f a) (f' a')) : Stops e (.ok a >>= f) (plan' >>= f') := by
  refine ⟨?_, fun b hb => ?_⟩
  · cases plan' with
    | ok a' => exact (h a').nowhere
    | error _ => exact (h a).nowhere
  · obtain ⟨a', -, hb⟩ := exists_of_bind_eq_ok hb
    exact (h a').error b hb

end Stops

namespace Hinges

variable {P Q : Prop} {plan plan' : Except Error α}

theorem congr (h : Hinges P e plan plan') (hiff : Q ↔ P) : Hinges Q e plan plan' :=
  ⟨fun hq => h.same (hiff.1 hq), fun hq => h.stops (mt hiff.2 hq)⟩

theorem refl (hp : P) (plan : Except Error α) : Hinges P e plan plan :=
  ⟨fun _ => rfl, fun hnot => absurd hp hnot⟩

/-- Two plans that fail alike hinge on anything. -/
theorem failed (e' : Error) : Hinges P e (.error e' : Except Error α) (.error e') :=
  ⟨fun _ => rfl, fun _ => ⟨nofun, nofun⟩⟩

/-- A condition that holds anyway changes nothing. -/
theorem alone [Decidable P] {e' : Error} (h : Hinges P e plan plan') (hq : Q) :
    Hinges (P ∧ Q) (if P then e' else e) plan plan' := by
  refine ⟨fun hboth => h.same hboth.1, fun hnot => ?_⟩
  have hp : ¬P := fun hp => hnot ⟨hp, hq⟩
  rw [if_neg hp]
  exact h.stops hp

/-- One plan after the other, each with its own error: the first one that is
stopped has its way. -/
theorem bind_either [Decidable P] {e' : Error} (h : Hinges P e plan plan')
    {f f' : α → Except Error β} (hf : ∀ a, plan' = .ok a → Hinges Q e' (f a) (f' a)) :
    Hinges (P ∧ Q) (if P then e' else e) (plan >>= f) (plan' >>= f') := by
  by_cases hp : P
  · rw [if_pos hp, h.same hp]
    cases plan' with
    | error x => exact .failed x
    | ok a => exact (hf a rfl).congr (and_iff_right hp)
  · rw [if_neg hp]
    exact ⟨fun hboth => absurd hboth.1 hp, fun _ => (h.stops hp).bind f f'⟩

theorem bind (h : Hinges P e plan plan') {f f' : α → Except Error β}
    (hf : ∀ a, Hinges Q e (f a) (f' a)) : Hinges (P ∧ Q) e (plan >>= f) (plan' >>= f') := by
  classical
  have hboth := h.bind_either fun a _ => hf a
  rwa [ite_self] at hboth

/-- What comes after one and the same plan. -/
theorem after (plan : Except Error α) {f f' : α → Except Error β}
    (hf : ∀ a, Hinges Q e (f a) (f' a)) : Hinges Q e (plan >>= f) (plan >>= f') :=
  ((refl trivial plan).bind hf).congr ⟨fun hq => ⟨trivial, hq⟩, And.right⟩

theorem map (h : Hinges P e plan plan') (f : α → β) : Hinges P e (f <$> plan) (f <$> plan') := by
  rw [map_eq_pure_bind, map_eq_pure_bind]
  exact (h.bind fun a => .refl trivial (pure (f a))).congr ⟨fun hp => ⟨hp, trivial⟩, And.left⟩

/-- A plan goes on until it is stopped, before or after. -/
theorem stops_after (h : Hinges P e plan plan') {f f' : α → Except Error β}
    (hf : ∀ a a', Stops e (f a) (f' a')) : Stops e (plan >>= f) (plan' >>= f') := by
  by_cases hp : P
  · rw [h.same hp]
    refine ⟨fun b hb => ?_, fun b hb => ?_⟩
    · obtain ⟨a, -, hb⟩ := exists_of_bind_eq_ok hb
      exact (hf a a).nowhere b hb
    · obtain ⟨a, ha, hb⟩ := exists_of_bind_eq_ok hb
      rw [ha]
      exact (hf a a).error b hb
  · exact (h.stops hp).bind f f'

end Hinges

end SqlTree
