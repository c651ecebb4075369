import SqlTree.Dialect.Shipped
import SqlTree.Node
import SqlTree.Proofs.Rollback.Tree

/-!
# SqlTree.Proofs.Rollback.Node

A failed compilation is taken back.  Wherever in a node the error comes from
and however much was bound before it, the collector afterwards is the one
from before, and the node keeps no text and no values
(`Node.compile_error_restores`).
-/

namespace SqlTree

namespace Node

variable {d : Dialect} {k : Kind} {n n' : Node k} {c c' : Collector} {e : Error}

/-- The node keeps no text, be it that nodes of its kind never do. -/
def KeepsNothing (k : Kind) (n : Node k) : Prop := ∀ cache, cache? k n = some cache → cache = none

theorem KeepsNothing.collector? (h : KeepsNothing k n) : collector? k n = none := by
  unfold Node.collector?
  cases hcache : cache? k n with
  | none => rfl
  | some cache =>
    rw [h cache hcache]
    rfl

theorem keepsNothing_of_cache {cache : Cache} (h : cache? k n = some cache) (hnone : cache = none) :
    KeepsNothing k n := by
  intro other hother
  rw [h, hnone] at hother
  exact (Option.some.inj hother).symm

theorem keepsNothing_of_none (h : cache? k n = none) : KeepsNothing k n := by
  intro cache hcache
  rw [h] at hcache
  cases hcache

/-! ## Into a collector -/

theorem clause_run_error {cl cl' : Clause} (h : cl.run d c = .error e (cl', c')) : c' = c := by
  obtain ⟨kind, _ | g⟩ := cl
  · rw [Clause.run] at h
    cases h
  · rw [Clause.run] at h
    cases hpart : asPart d g (g.body d) c with
    | ok sql s =>
      simp only [Run.map, hpart, Outcome.map] at h
      cases h
    | error e' s =>
      simp only [Run.map, hpart, Outcome.map] at h
      cases h
      exact (asPart_error g.body_bare hpart).1

/-- An error leaves the collector alone and the node without a text. -/
theorem compileInto_error (h : compileInto d k n c = .error e (n', c')) :
    c' = c ∧ KeepsNothing k n' := by
  cases k with
  | select =>
    obtain ⟨hc, hcache⟩ := asPart_error (Select.body_bare n) h
    exact ⟨hc, keepsNothing_of_cache rfl hcache⟩
  | insert =>
    obtain ⟨hc, hcache⟩ := asPart_error (Insert.body_bare n) h
    exact ⟨hc, keepsNothing_of_cache rfl hcache⟩
  | update =>
    obtain ⟨hc, hcache⟩ := asPart_error (Update.body_bare n) h
    exact ⟨hc, keepsNothing_of_cache rfl hcache⟩
  | delete =>
    obtain ⟨hc, hcache⟩ := asPart_error (Delete.body_bare n) h
    exact ⟨hc, keepsNothing_of_cache rfl hcache⟩
  | group =>
    obtain ⟨hc, hcache⟩ := asPart_error (Group.body_bare n) h
    exact ⟨hc, keepsNothing_of_cache rfl hcache⟩
  | join =>
    obtain ⟨hc, hcache⟩ := asPart_error (Join.body_bare n) h
    exact ⟨hc, keepsNothing_of_cache rfl hcache⟩
  | clause => exact ⟨clause_run_error h, keepsNothing_of_none rfl⟩
  | predicate => exact ⟨(Predicate.steps_grow n).orRestore_error h, keepsNothing_of_none rfl⟩
  | expression =>
    obtain ⟨template, slots⟩ := n
    simp only [compileInto, Expression.run] at h
    have hpieces := piecesText_grows (slotRuns_grow (d := d) slots) (pieces template)
    exact ⟨((hpieces.run slots).map _ _).orRestore_error h, keepsNothing_of_none rfl⟩
  | reference => cases h

/-! ## With a collector of its own -/

/-- An error leaves the node without a text. -/
theorem compile_error (h : compile d k n = .error e n') : KeepsNothing k n' := by
  cases k with
  | select => exact keepsNothing_of_cache rfl (asWhole_error (Select.body_bare n) h)
  | insert => exact keepsNothing_of_cache rfl (asWhole_error (Insert.body_bare n) h)
  | update => exact keepsNothing_of_cache rfl (asWhole_error (Update.body_bare n) h)
  | delete => exact keepsNothing_of_cache rfl (asWhole_error (Delete.body_bare n) h)
  | group => exact keepsNothing_of_cache rfl (asWhole_error (Group.body_bare n) h)
  | join => exact keepsNothing_of_cache rfl (asWhole_error (Join.body_bare n) h)
  | clause | predicate | expression | reference => exact keepsNothing_of_none rfl

/-- A failed compilation is taken back, in every dialect, whatever is kept in
the node and whatever the collector holds.  Into a collector, it leaves the
very same collector, so what is recorded later gets the markers that it would
have got; and in either mode it leaves a node that keeps no text and no
values. -/
theorem compile_error_restores (d : Dialect) (k : Kind) (n : Node k) :
    (∀ c e n' c', compileInto d k n c = .error e (n', c') →
      c' = c ∧ KeepsNothing k n' ∧ collector? k n' = none) ∧
    (∀ e n', compile d k n = .error e n' → KeepsNothing k n' ∧ collector? k n' = none) := by
  refine ⟨fun c e n' c' h => ?_, fun e n' h => ?_⟩
  · obtain ⟨hc, hnothing⟩ := compileInto_error h
    exact ⟨hc, hnothing, hnothing.collector?⟩
  · have hnothing := compile_error h
    exact ⟨hnothing, hnothing.collector?⟩

/-- An update whose only condition is an empty group binds a value and then
fails, into a collector that holds one already. -/
theorem compile_error_restores_of_empty_group :
    let u : Update := { Update.empty with
      table? := some ⟨"t", by decide⟩
      assignments := [⟨⟨"a", by decide⟩, .value (.int 1)⟩]
      filter := ⟨.filter, some ((Group.empty .and).nest .and)⟩ }
    let c := ((Collector.empty .named).create (.int 7) none none).2
    ∃ u', Update.compileInto Dialect.ansi u c = .error (.missingFilter .update) (u', c) ∧
      u'.cache = none := by
  intro u c
  have hanswer : answer (Update.compileInto Dialect.ansi u c) = .error (.missingFilter .update) := rfl
  cases h : Update.compileInto Dialect.ansi u c with
  | ok sql s =>
    rw [h] at hanswer
    cases hanswer
  | error e s =>
    obtain ⟨u', c'⟩ := s
    obtain ⟨hc, hnothing, -⟩ := (compile_error_restores Dialect.ansi .update u).1 c e u' c' h
    rw [h] at hanswer
    cases hanswer
    exact ⟨u', by rw [hc], hnothing u'.cache rfl⟩

end Node

end SqlTree
