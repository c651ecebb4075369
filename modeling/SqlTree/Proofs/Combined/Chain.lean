import SqlTree.Keyword
import Mathlib.Data.List.Basic

/-!
# SqlTree.Proofs.Combined.Chain

Reading what selects are combined to.  The words of a text outside of quotes
and parentheses make up a `Chain`: selects with set operators between them,
and behind the last one what orders and cuts the rows of all of them.  Of the
operators `INTERSECT` binds tighter than the unions, and each kind associates
to the left; this makes a `Query` of the chain (`readWords`).

A chain behind an operator is read as one operand only if nothing is written
at its end and no operator in it binds looser than the one in front of it or
as tight (`readWords_combined`).
-/

namespace SqlTree

/-! ## Keywords -/

/-- What a word does between selects. -/
inductive Signal where
  | union
  | intersect
  /-- Here begins what orders and cuts the rows. -/
  | tail
deriving DecidableEq

/-- Keywords count in any case. -/
def Signal.ofWord? (word : List Char) : Option Signal :=
  let word := word.map Char.toUpper
  if word = ['U', 'N', 'I', 'O', 'N'] then some .union
  else if word = ['I', 'N', 'T', 'E', 'R', 'S', 'E', 'C', 'T'] then some .intersect
  else if word = ['O', 'R', 'D', 'E', 'R'] then some .tail
  else if word = ['L', 'I', 'M', 'I', 'T'] then some .tail
  else if word = ['O', 'F', 'F', 'S', 'E', 'T'] then some .tail
  else if word = ['F', 'E', 'T', 'C', 'H'] then some .tail
  else none

/-- The word that makes a union keep equal rows. -/
def isAll (word : List Char) : Bool := word.map Char.toUpper = ['A', 'L', 'L']

/-- The words of a set operator. -/
def SetOperation.words : SetOperation → List (List Char)
  | .union => [['U', 'N', 'I', 'O', 'N']]
  | .unionAll => [['U', 'N', 'I', 'O', 'N'], ['A', 'L', 'L']]
  | .intersect => [['I', 'N', 'T', 'E', 'R', 'S', 'E', 'C', 'T']]

/-- Words that belong to one select. -/
def AreQuiet (ws : List (List Char)) : Prop := ∀ w ∈ ws, Signal.ofWord? w = none

/-- Words that end a chain, if there are any. -/
def AreTail (ws : List (List Char)) : Prop := ∀ w, ws.head? = some w → Signal.ofWord? w = some .tail

/-! ## Chains -/

/-- Selects with set operators between them, and what is written behind. -/
structure Chain where
  first : List (List Char)
  rest : List (SetOperation × List (List Char))
  tail : List (List Char)

/-- What can be told of a chain without its selects: the operators, and whether
anything is written behind. -/
structure Outline where
  operators : List SetOperation
  trails : Bool
deriving DecidableEq

namespace Outline

/-- A select by itself. -/
def single : Outline := ⟨[], false⟩

/-- The outline behind an operator. -/
def behind (op : SetOperation) (o : Outline) : Outline := ⟨op :: o.operators, o.trails⟩

/-- The outline with something written behind, or not. -/
def andTail (o : Outline) (trails : Bool) : Outline := ⟨o.operators, o.trails || trails⟩

/-- Nothing is written at the end, and there are only operators that bind
tighter than the one in front. -/
def FitsBehind (op : SetOperation) (o : Outline) : Prop :=
  o.trails = false ∧ ∀ op' ∈ o.operators, op' = .intersect ∧ op ≠ .intersect

instance (op : SetOperation) (o : Outline) : Decidable (o.FitsBehind op) :=
  inferInstanceAs (Decidable (_ ∧ _))

end Outline

namespace Chain

/-- The chain behind an operator. -/
def behind (op : SetOperation) (chain : Chain) : Chain :=
  ⟨[], (op, chain.first) :: chain.rest, chain.tail⟩

/-- The chain behind a `UNION`, which may go on with `ALL`. -/
def behindUnion (chain : Chain) : Chain :=
  match chain.first with
  | w :: ws => if isAll w then { chain with first := ws }.behind .unionAll else chain.behind .union
  | [] => chain.behind .union

/-- The chain that words make up. -/
def ofWords : List (List Char) → Chain
  | [] => ⟨[], [], []⟩
  | w :: ws =>
    match Signal.ofWord? w with
    | some .tail => ⟨[], [], w :: ws⟩
    | some .intersect => (ofWords ws).behind .intersect
    | some .union => (ofWords ws).behindUnion
    | none => { ofWords ws with first := w :: (ofWords ws).first }

/-- The outline of a chain. -/
def outline (chain : Chain) : Outline := ⟨chain.rest.map Prod.fst, !chain.tail.isEmpty⟩

/-! ### Words one after the other -/

theorem ofWords_append_quiet {ws : List (List Char)} (h : AreQuiet ws) (vs : List (List Char)) :
    ofWords (ws ++ vs) = { ofWords vs with first := ws ++ (ofWords vs).first } := by
  induction ws with
  | nil => rfl
  | cons w ws ih =>
    obtain ⟨hw, hws⟩ := List.forall_mem_cons.1 h
    rw [List.cons_append, ofWords, hw, ih hws]
    rfl

theorem ofWords_of_quiet {ws : List (List Char)} (h : AreQuiet ws) : ofWords ws = ⟨ws, [], []⟩ := by
  have heq := ofWords_append_quiet h []
  rwa [List.append_nil, ofWords, List.append_nil] at heq

theorem ofWords_of_tail {ws : List (List Char)} (h : AreTail ws) : ofWords ws = ⟨[], [], ws⟩ := by
  cases ws with
  | nil => rfl
  | cons w ws => rw [ofWords, h w rfl]

/-- What ends a chain goes behind what ends it already. -/
theorem ofWords_append_tail {ts : List (List Char)} (h : AreTail ts) (ws : List (List Char)) :
    ofWords (ws ++ ts) = { ofWords ws with tail := (ofWords ws).tail ++ ts } := by
  induction ws with
  | nil => exact ofWords_of_tail h
  | cons w ws ih =>
    rw [List.cons_append, ofWords, ofWords]
    cases hw : Signal.ofWord? w with
    | none => simp only [ih]
    | some signal =>
      cases signal with
      | tail => rfl
      | intersect => simp only [ih, behind]
      | union =>
        simp only [ih, behindUnion]
        cases hfirst : (ofWords ws).first with
        | nil => simp only [behind, hfirst]
        | cons w' ws' =>
          by_cases hall : isAll w' = true
          · simp only [if_pos hall, behind]
          · simp only [if_neg hall, behind, hfirst]

/-- Behind an operator stands the chain of what follows. -/
theorem ofWords_operation (op : SetOperation) {ws : List (List Char)}
    (h : ∀ w, (ofWords ws).first.head? = some w → isAll w = false) :
    ofWords (op.words ++ ws) = (ofWords ws).behind op := by
  have hunion : Signal.ofWord? ['U', 'N', 'I', 'O', 'N'] = some .union := by decide
  have hintersect :
      Signal.ofWord? ['I', 'N', 'T', 'E', 'R', 'S', 'E', 'C', 'T'] = some .intersect := by decide
  have hall : Signal.ofWord? ['A', 'L', 'L'] = none := by decide
  cases op with
  | union =>
    rw [SetOperation.words, List.singleton_append, ofWords, hunion]
    cases hfirst : (ofWords ws).first with
    | nil => simp only [behindUnion, hfirst]
    | cons w' ws' =>
      have hw' : ¬isAll w' = true := Bool.eq_false_iff.1 (h w' (by rw [hfirst]; rfl))
      simp only [behindUnion, hfirst, if_neg hw']
  | unionAll =>
    rw [SetOperation.words, List.cons_append, List.singleton_append, ofWords, hunion, ofWords, hall]
    rfl
  | intersect =>
    rw [SetOperation.words, List.singleton_append, ofWords, hintersect]

/-! ### Outlines of words -/

theorem outline_append_quiet {ws : List (List Char)} (h : AreQuiet ws) (vs : List (List Char)) :
    (ofWords (ws ++ vs)).outline = (ofWords vs).outline := by
  rw [ofWords_append_quiet h]
  rfl

theorem outline_of_quiet {ws : List (List Char)} (h : AreQuiet ws) :
    (ofWords ws).outline = .single := by
  rw [ofWords_of_quiet h]
  rfl

theorem outline_append_tail {ts : List (List Char)} (h : AreTail ts) (ws : List (List Char)) :
    (ofWords (ws ++ ts)).outline = (ofWords ws).outline.andTail (!ts.isEmpty) := by
  rw [ofWords_append_tail h, outline, outline, Outline.andTail, Outline.mk.injEq]
  exact ⟨rfl, by cases (ofWords ws).tail <;> simp⟩

theorem outline_operation (op : SetOperation) {ws : List (List Char)}
    (h : ∀ w, (ofWords ws).first.head? = some w → isAll w = false) :
    (ofWords (op.words ++ ws)).outline = (ofWords ws).outline.behind op := by
  rw [ofWords_operation op h]
  rfl

end Chain

/-! ## Queries -/

/-- What a chain means. -/
inductive Query where
  /-- A select, given by its words. -/
  | core (words : List (List Char))
  | combined (op : SetOperation) (left right : Query)
  /-- A query whose rows are ordered or cut by what the words say. -/
  | tailed (query : Query) (words : List (List Char))
deriving DecidableEq

namespace Query

/-- The query with this behind it, if there is anything. -/
def withTail (q : Query) (tail : List (List Char)) : Query :=
  if tail = [] then q else .tailed q tail

/-- The query behind an operator with its left operand, if there is one. -/
def closed (left? : Option (Query × SetOperation)) (current : Query) : Query :=
  match left? with
  | none => current
  | some (left, op) => .combined op left current

/-- Selects combined from the left.  A union waits with its left operand
until no `INTERSECT` takes anything from the right one any more. -/
def combineFrom (left? : Option (Query × SetOperation)) (current : Query) :
    List (SetOperation × List (List Char)) → Query
  | [] => closed left? current
  | (.intersect, ws) :: rest => combineFrom left? (.combined .intersect current (.core ws)) rest
  | (op, ws) :: rest => combineFrom (some (closed left? current, op)) (.core ws) rest

/-- The number of operators that have a query for their left operand, down
the left operands. -/
def spine : Query → Nat
  | .core _ => 0
  | .combined _ left _ => left.spine + 1
  | .tailed query _ => query.spine

end Query

/-- What a chain means. -/
def Chain.query (chain : Chain) : Query :=
  (Query.combineFrom none (.core chain.first) chain.rest).withTail chain.tail

/-- What words mean. -/
def readWords (ws : List (List Char)) : Query := (Chain.ofWords ws).query

theorem readWords_of_quiet {ws : List (List Char)} (h : AreQuiet ws) : readWords ws = .core ws := by
  rw [readWords, Chain.ofWords_of_quiet h]
  rfl

namespace Query

/-- Intersections go on with the right operand. -/
theorem combineFrom_of_intersections {rest : List (SetOperation × List (List Char))}
    (h : ∀ o ∈ rest.map Prod.fst, o = SetOperation.intersect)
    (left? : Option (Query × SetOperation)) (current : Query) :
    combineFrom left? current rest = closed left? (combineFrom none current rest) := by
  induction rest generalizing current with
  | nil => rfl
  | cons t rest ih =>
    obtain ⟨op, ws⟩ := t
    obtain ⟨hop, hrest⟩ := List.forall_mem_cons.1 h
    obtain rfl : op = .intersect := hop
    exact ih hrest _

/-- Each union goes on the spine. -/
theorem spine_combineFrom_some (left : Query) (op : SetOperation) (current : Query)
    (rest : List (SetOperation × List (List Char))) :
    (combineFrom (some (left, op)) current rest).spine =
      left.spine + 1 + (rest.filter fun t => t.1 ≠ .intersect).length := by
  induction rest generalizing left op current with
  | nil => rfl
  | cons t rest ih =>
    obtain ⟨o, ws⟩ := t
    cases o with
    | intersect => exact ih left op _
    | union | unionAll =>
      have hfilter (o : SetOperation) (ho : o ≠ .intersect) :
          (((o, ws) :: rest).filter fun t => t.1 ≠ .intersect).length =
            (rest.filter fun t => t.1 ≠ .intersect).length + 1 := by
        rw [List.filter_cons_of_pos (by simpa using ho), List.length_cons]
      rw [combineFrom, ih, hfilter _ (by decide), closed, spine]
      · omega
      · decide

/-- So does the first operator, whatever it is. -/
theorem spine_lt_combineFrom_none {rest : List (SetOperation × List (List Char))} (hne : rest ≠ [])
    (current : Query) : current.spine < (combineFrom none current rest).spine := by
  induction rest generalizing current with
  | nil => exact absurd rfl hne
  | cons t rest ih =>
    obtain ⟨op, ws⟩ := t
    cases op with
    | intersect =>
      rw [combineFrom]
      by_cases hrest : rest = []
      · subst hrest
        exact Nat.lt_succ_self _
      · have hlt := ih hrest (.combined .intersect current (.core ws))
        rw [spine] at hlt
        omega
    | union | unionAll =>
      rw [combineFrom, spine_combineFrom_some]
      · rw [closed]
        omega
      · decide

/-- The words behind a query that are its own. -/
def tail : Query → List (List Char)
  | .tailed _ words => words
  | _ => []

theorem tail_combineFrom {left? : Option (Query × SetOperation)} {current : Query}
    (h : current.tail = []) (rest : List (SetOperation × List (List Char))) :
    (combineFrom left? current rest).tail = [] := by
  induction rest generalizing left? current with
  | nil =>
    cases left? with
    | none => exact h
    | some left => rfl
  | cons t rest ih =>
    obtain ⟨op, ws⟩ := t
    cases op with
    | intersect => exact ih rfl
    | union | unionAll => exact ih rfl

theorem withTail_inj {q q' : Query} (hq : q.tail = []) (hq' : q'.tail = [])
    {ts ts' : List (List Char)} : q.withTail ts = q'.withTail ts' ↔ q = q' ∧ ts = ts' := by
  constructor
  · unfold withTail
    intro h
    split at h <;> split at h
    · next hts hts' => exact ⟨h, hts.trans hts'.symm⟩
    · next hts hts' =>
      rw [h] at hq
      exact absurd hq hts'
    · next hts hts' =>
      rw [← h] at hq'
      exact absurd hq' hts
    · exact ⟨congrArg (fun q => match q with | .tailed q _ => q | _ => q) h, congrArg tail h⟩
  · rintro ⟨rfl, rfl⟩
    rfl

/-- Operators behind the first one make up its right operand just if they
bind tighter. -/
theorem combineFrom_eq_combined_iff {core first : List (List Char)} {op : SetOperation}
    {rest : List (SetOperation × List (List Char))} {q : Query} :
    combineFrom none (.core core) ((op, first) :: rest) = .combined op (.core core) q ↔
      (∀ o ∈ rest.map Prod.fst, o = .intersect ∧ op ≠ .intersect) ∧
        q = combineFrom none (.core first) rest := by
  by_cases hop : op = .intersect
  · subst hop
    rw [combineFrom]
    constructor
    · intro heq
      have hrest : rest = [] := by
        by_contra hrest
        have hlt :=
          spine_lt_combineFrom_none hrest (.combined .intersect (.core core) (.core first))
        rw [heq] at hlt
        exact absurd hlt (Nat.lt_irrefl _)
      subst hrest
      rw [combineFrom, closed, combined.injEq] at heq
      exact ⟨by simp, heq.2.2.symm⟩
    · rintro ⟨hall, rfl⟩
      have hrest : rest = [] := by
        cases rest with
        | nil => rfl
        | cons t rest => exact absurd rfl (hall t.1 List.mem_cons_self).2
      rw [hrest]
      rfl
  · have hgoes : combineFrom none (.core core) ((op, first) :: rest) =
        combineFrom (some (.core core, op)) (.core first) rest := by
      rw [combineFrom, closed]
      exact hop
    rw [hgoes]
    constructor
    · intro heq
      have hspine := congrArg spine heq
      rw [spine_combineFrom_some] at hspine
      have hnone : rest.filter (fun t => t.1 ≠ .intersect) = [] := by
        refine List.eq_nil_of_length_eq_zero ?_
        simp only [spine] at hspine
        omega
      have hall : ∀ o ∈ rest.map Prod.fst, o = .intersect := by
        intro o ho
        obtain ⟨t, ht, rfl⟩ := List.mem_map.1 ho
        simpa using List.filter_eq_nil_iff.1 hnone t ht
      rw [combineFrom_of_intersections hall, closed, combined.injEq] at heq
      exact ⟨fun o ho => ⟨hall o ho, hop⟩, heq.2.2.symm⟩
    · rintro ⟨hall, rfl⟩
      exact combineFrom_of_intersections (fun o ho => (hall o ho).1) _ _

end Query

/-- Behind an operator, the words of a chain are read as one operand just if
the chain fits there; the operand is then what they are read as by
themselves. -/
theorem readWords_combined {core operand tail : List (List Char)} (op : SetOperation)
    (hcore : AreQuiet core)
    (hoperand : ∀ w, (Chain.ofWords operand).first.head? = some w → isAll w = false)
    (htail : AreTail tail) (q : Query) :
    readWords (core ++ op.words ++ operand ++ tail) =
        (Query.combined op (.core core) q).withTail tail ↔
      (Chain.ofWords operand).outline.FitsBehind op ∧ q = readWords operand := by
  have hwords : readWords (core ++ op.words ++ operand ++ tail) =
      (Query.combineFrom none (.core core)
        ((op, (Chain.ofWords operand).first) :: (Chain.ofWords operand).rest)).withTail
        ((Chain.ofWords operand).tail ++ tail) := by
    rw [readWords, Chain.ofWords_append_tail htail, List.append_assoc,
      Chain.ofWords_append_quiet hcore, Chain.ofWords_operation op hoperand, Chain.query]
    simp only [Chain.behind, List.append_nil]
  have hnone :
      (Chain.ofWords operand).outline.trails = false ↔ (Chain.ofWords operand).tail = [] := by
    simp [Chain.outline]
  rw [hwords, Query.withTail_inj (Query.tail_combineFrom rfl _) rfl, List.append_left_eq_self,
    and_comm, Outline.FitsBehind, and_assoc, hnone]
  refine and_congr_right fun hnone => ?_
  have hread : readWords operand = Query.combineFrom none (.core (Chain.ofWords operand).first)
      (Chain.ofWords operand).rest := by
    rw [readWords, Chain.query, hnone]
    rfl
  rw [hread]
  exact Query.combineFrom_eq_combined_iff

end SqlTree
