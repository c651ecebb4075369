import SqlTree.Node
import SqlTree.Proofs.Draft.Effect

/-!
# SqlTree.Proofs.Grouping.Formula

What the predicates of a group mean together.  A `Formula` is a test or
alternatives, each of them a row of formulas that hold together, and
`Formula.ofSequence` reads a sequence of formulas with connectives between
them: `AND` binds tighter than `OR`, so the alternatives are the longest
rows that are joined by `AND` alone.

`Group.formula` is the formula of a group.  A group in it is one formula;
one without a test anywhere in it counts for nothing, and neither does its
connective.  `Group.pruned` is the group without such groups.
-/

namespace SqlTree

/-- A condition as it is understood. -/
inductive Formula where
  /-- A test, by its text. -/
  | test (sql : String)
  /-- Alternatives, each of formulas that hold together. -/
  | anyOf (rows : List (List Formula))

namespace Formula

/-- The longest rows of formulas joined by `AND`; what joins the first
formula to those before it does not matter. -/
def rows : List (Connective × Formula) → List (List Formula)
  | [] => []
  | [(_, f)] => [[f]]
  | (_, f) :: (.or, g) :: rest => [f] :: rows ((.or, g) :: rest)
  | (_, f) :: (.and, g) :: rest =>
    match rows ((.and, g) :: rest) with
    | [] => [[f]]
    | row :: more => (f :: row) :: more

/-- Alternatives; one formula by itself is that formula. -/
def ofRows : List (List Formula) → Formula
  | [[f]] => f
  | rows => .anyOf rows

/-- What formulas with connectives between them mean together. -/
def ofSequence (fs : List (Connective × Formula)) : Formula := ofRows (rows fs)

/-! ## Laws -/

theorem rows_cons_congr (op op' : Connective) (f : Formula) (fs : List (Connective × Formula)) :
    rows ((op, f) :: fs) = rows ((op', f) :: fs) := by
  rcases fs with _ | ⟨⟨_ | _, g⟩, fs⟩ <;> rfl

/-- The first connective joins nothing. -/
theorem ofSequence_cons_congr (op op' : Connective) (f : Formula)
    (fs : List (Connective × Formula)) : ofSequence ((op, f) :: fs) = ofSequence ((op', f) :: fs) :=
  congrArg ofRows (rows_cons_congr op op' f fs)

@[simp] theorem ofSequence_singleton (op : Connective) (f : Formula) :
    ofSequence [(op, f)] = f := rfl

end Formula

/-! ## Tests in a tree -/

mutual

/-- The predicate is a test, or a group with a test in it. -/
def Predicate.hasTest : Predicate → Bool
  | .group g => g.hasTest
  | _ => true

/-- There is a test in one of the terms. -/
def termsHaveTest : List Term → Bool
  | [] => false
  | ⟨_, p⟩ :: terms => p.hasTest || termsHaveTest terms

/-- There is a test in the group. -/
def Group.hasTest : Group → Bool
  | ⟨terms, _, _, _, _⟩ => termsHaveTest terms

end

mutual

/-- The predicate without the groups that have no test. -/
def Predicate.pruned : Predicate → Predicate
  | .group g => .group g.pruned
  | p => p

/-- The terms with a test, each without the groups that have none. -/
def prunedTerms : List Term → List Term
  | [] => []
  | ⟨connective, p⟩ :: terms =>
    if p.hasTest then ⟨connective, p.pruned⟩ :: prunedTerms terms else prunedTerms terms

/-- The group without the groups in it that have no test. -/
def Group.pruned : Group → Group
  | ⟨terms, default, pending, nested, _⟩ => ⟨prunedTerms terms, default, pending, nested, none⟩

end

/-! ## Formulas of trees -/

/-- The text of a predicate as a part of what the collector belongs to. -/
def Predicate.sql (d : Dialect) (p : Predicate) (c : Collector) : String :=
  match answer (Predicate.run d p c) with
  | .ok sql => sql
  | .error _ => ""

/-- The collector after that. -/
def Predicate.after (d : Dialect) (p : Predicate) (c : Collector) :
    Collector := (left (Predicate.run d p c)).2

/-- What a test means.  A list with null in it is a list and a test for
null, each by itself. -/
def Predicate.testFormula (d : Dialect) (p : Predicate) (c : Collector) : Formula :=
  match p with
  | .inValues left negated (v :: values) true =>
    .ofSequence [
      (.and, .test (Predicate.sql d (.inValues left negated (v :: values) false) c)),
      (if negated then .and else .or, .test (Predicate.sql d (.truth left negated .null) c))]
  | p => .test (p.sql d c)

mutual

/-- What a predicate means, given the collector that its values go to. -/
def Predicate.formula (d : Dialect) : Predicate → Collector → Formula
  | .group g, c => g.formula d c
  | p, c => p.testFormula d c

/-- What the terms with a test mean. -/
def termFormulas (d : Dialect) : List Term → Collector → List (Connective × Formula)
  | [], _ => []
  | ⟨connective, p⟩ :: terms, c =>
    if p.hasTest then (connective, p.formula d c) :: termFormulas d terms (p.after d c)
    else termFormulas d terms (p.after d c)

/-- What a group means. -/
def Group.formula (d : Dialect) : Group → Collector → Formula
  | ⟨terms, _, _, _, _⟩, c => .ofSequence (termFormulas d terms c)

end

end SqlTree
