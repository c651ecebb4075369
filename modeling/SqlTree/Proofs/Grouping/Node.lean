import SqlTree.Proofs.Grouping.Assembled
import SqlTree.Proofs.Grouping.Group

/-!
# SqlTree.Proofs.Grouping.Node

Groups keep their meaning when they are compiled.  What is read back from
the text of an assembled group is its formula, whatever it has been compiled
to before, and the groups in it without a test leave no trace.
-/

namespace SqlTree

/-- The usual quotes are no characters that SQL is made of. -/
theorem Dialect.Shipped.quotesStandOut {d : Dialect} (h : d.Shipped) (hquotes : d.HasUsualQuotes) :
    d.QuotesStandOut := by
  have hvalue := h.valueQuote_eq
  simp only [HasUsualQuotes, List.mem_cons, Prod.mk.injEq, List.not_mem_nil, or_false] at hquotes
  rcases hquotes with ⟨hleft, hright⟩ | ⟨hleft, hright⟩ | ⟨hleft, hright⟩ <;>
    constructor <;> simp only [hvalue, hleft, hright] <;> decide

/-- A group that has been put together, without raw SQL in it, compiles to a
text that is read as the formula of the group, by itself and as a part of
what any collector belongs to.  Groups in it without a test change neither
the text nor the values.  The quotes of the dialect must be no characters
that SQL is made of. -/
theorem Assembled.readCondition_compile {g : Group} (h : Assembled .group g)
    (hraws : Node.raws .group g = []) {d : Dialect} (hd : d.Shipped) (hquotes : d.QuotesStandOut) :
    (∀ sql, answer (g.compile d) = .ok sql → readCondition d sql =
    some (g.formula d (.empty d.style))) ∧
      (∀ c sql, answer (g.compileInto d c) = .ok sql → readCondition d sql = some (g.formula d c)) ∧
      answer (g.pruned.compile d) = answer (g.compile d) ∧
      Node.collector? .group (left (g.pruned.compile d)) = Node.collector? .group
        (left (g.compile d)) ∧
      ∀ c, answer (g.pruned.compileInto d c) = answer (g.compileInto d c) ∧
        (left (g.pruned.compileInto d c)).2 = (left (g.compileInto d c)).2 := by
  have hcoherent : g.Coherent := h.reachable.coherent
  have hread := g.readCondition_draft hd hquotes h.marked hcoherent hraws
  have hpruned := g.coherent_pruned hcoherent
  have hdraft := g.draft_pruned d.constructs
  obtain ⟨hanswer, hcollector⟩ :=
    Node.compile_of_draft_eq (k := .group) hd hpruned hcoherent hdraft.symm
  refine ⟨?_, ?_, hanswer, hcollector, ?_⟩
  · intro sql hsql
    obtain ⟨q, hq, rfl, -⟩ := Node.draft_of_compile (k := .group) hd hcoherent hsql
    exact hread q hq (.empty d.style)
  · intro c sql hsql
    obtain ⟨q, hq, rfl, -⟩ := Node.draft_of_compileInto (k := .group) hd hcoherent hsql
    exact hread q hq c
  · exact Node.compileInto_of_draft_eq (k := .group) hd hpruned hcoherent hdraft.symm

/-- The group of `a = 1 AND (b = 2 OR c = 3)` with a group without tests at
its end. -/
def Group.choice : Group where
  terms := [
    ⟨.and, .comparison (.identifier ⟨"a", rfl⟩) .eq (.value (.int 1))⟩,
    ⟨.and, .group {
      terms := [
        ⟨.or, .comparison (.identifier ⟨"b", rfl⟩) .eq (.value (.int 2))⟩,
        ⟨.or, .comparison (.identifier ⟨"c", rfl⟩) .eq (.value (.int 3))⟩]
      default := .or
      pending := none
      nested := true
      cache := none }⟩,
    ⟨.and, .group { Group.empty .and with nested := true }⟩]
  default := .and
  pending := none
  nested := false
  cache := none

theorem Group.assembled_choice : Assembled .group Group.choice := by
  let spec := Json.arr [.obj [("a", .int 1)],
    .obj [("||", .arr [.obj [("b", .int 2)], .obj [("c", .int 3)]])], .obj [("&&", .arr [])]]
  have hmade : (Maker.specification spec).make = .ok Group.choice := rfl
  exact .made (.specification spec) (fun _ h => nomatch h) hmade

/-- In standard SQL the group reads as a test and a choice of two. -/
theorem Assembled.readCondition_compile_choice :
    Assembled .group Group.choice ∧ Node.raws .group Group.choice = [] ∧
      Dialect.ansi.QuotesStandOut ∧
      readCondition Dialect.ansi "\"a\" = :eq1 AND (\"b\" = :eq2 OR \"c\" = :eq3)" =
        some (.anyOf [[.test "\"a\" = :eq1",
          .anyOf [[.test "\"b\" = :eq2"], [.test "\"c\" = :eq3"]]]]) := by
  have hraws : Node.raws .group Group.choice = [] := rfl
  have hquotes : Dialect.ansi.QuotesStandOut :=
    Dialect.Shipped.quotesStandOut (.config .standard) (.head _)
  have hsql : answer (Group.choice.compile Dialect.ansi) =
    .ok "\"a\" = :eq1 AND (\"b\" = :eq2 OR \"c\" = :eq3)" := rfl
  have hformula : Group.choice.formula Dialect.ansi (.empty .named) =
      .anyOf [[.test "\"a\" = :eq1", .anyOf [[.test "\"b\" = :eq2"], [.test "\"c\" = :eq3"]]]] :=
        rfl
  have hread := (Assembled.readCondition_compile Group.assembled_choice hraws (.config .standard)
    hquotes).1 _ hsql
  exact ⟨Group.assembled_choice, hraws, hquotes, hread.trans (congrArg some hformula)⟩

/-- A dialect may quote names by parentheses.  Then nobody can tell the
quotes from the parentheses of a group. -/
theorem Assembled.readCondition_compile_of_parentheses :
    let d := Config.dialect { Config.standard with leftQuote := '(', rightQuote := ')' }
    Assembled .group Group.choice ∧ Node.raws .group Group.choice = [] ∧ d.Shipped ∧
      ∃ sql, answer (Group.choice.compile d) = .ok sql ∧
        readCondition d sql ≠ some (Group.choice.formula d (.empty d.style)) := by
  refine ⟨Group.assembled_choice, rfl, .config _,
    "(a) = :eq1 AND ((b) = :eq2 OR (c) = :eq3)", rfl, ?_⟩
  · have hread : readCondition
      (Config.dialect { Config.standard with leftQuote := '(', rightQuote := ')' })
        "(a) = :eq1 AND ((b) = :eq2 OR (c) = :eq3)" = none := rfl
    rw [hread]
    exact Option.some_ne_none _ ∘ Eq.symm

end SqlTree
