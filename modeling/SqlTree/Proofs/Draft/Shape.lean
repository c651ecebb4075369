import SqlTree.Proofs.Draft.Basic

/-!
# SqlTree.Proofs.Draft.Shape

Drafts of the shapes that texts have: predicates, groups, clauses, joins,
selects, inserts, updates and deletes, given the drafts of what they
contain.  Each shape has two laws.  One gives its text, which is the shape
of the texts of its parts, written one after the other into the collector
(`text_comparison`, `text_group`, `text_select`); the other says that it
binds what its parts bind and nothing else (`bindings_comparison`, …).
-/

namespace SqlTree

namespace Draft

variable {d : Dialect} {p q : Draft} {c : Collector}

/-! ## Lists of drafts -/

/-- The texts of drafts written one after the other. -/
def texts (d : Dialect) : List Draft → Collector → List String
  | [], _ => []
  | p :: ps, c => p.text d c :: texts d ps (p.after c)

/-- The collector after drafts written one after the other. -/
def afterAll (ps : List Draft) (c : Collector) : Collector := c.bindAll (ps.flatMap bindings)

@[simp] theorem afterAll_nil : afterAll [] c = c := rfl

@[simp] theorem afterAll_cons (ps : List Draft) :
    afterAll (p :: ps) c = afterAll ps (p.after c) := by
  simp [afterAll, after]

theorem texts_append (ps qs : List Draft) :
    texts d (ps ++ qs) c = texts d ps c ++ texts d qs (afterAll ps c) := by
  induction ps generalizing c with
  | nil => rfl
  | cons p ps ih => simp [texts, ih]

/-- Drafts with a separator between neighbours. -/
def joined (sep : String) : List Draft → Draft
  | [] => code ""
  | [p] => p
  | p :: ps => p ++ (code sep ++ joined sep ps)

@[simp] theorem bindings_joined (sep : String) (ps : List Draft) :
    (joined sep ps).bindings = ps.flatMap bindings := by
  fun_induction joined sep ps <;> simp_all

@[simp] theorem after_joined (sep : String) (ps : List Draft) :
    (joined sep ps).after c = afterAll ps c := by
  simp only [after, afterAll, bindings_joined]

@[simp] theorem text_joined (sep : String) (ps : List Draft) :
    (joined sep ps).text d c = SqlTree.joined sep (texts d ps c) := by
  fun_induction joined sep ps generalizing c with
  | case1 => rfl
  | case2 p => rfl
  | case3 p ps h ih =>
    obtain ⟨q, qs, rfl⟩ := List.exists_cons_of_ne_nil (by simpa using h)
    simp [texts, SqlTree.joined, ih, String.append_assoc]

/-! ## Pieces -/

/-- A reference as it is written. -/
def ofReference : Reference → Draft
  | .identifier i => identifier i
  | .alias a => label a
  | .literal l => raw l.text

@[simp] theorem bindings_ofReference (r : Reference) : (ofReference r).bindings = [] := by
  cases r <;> rfl

@[simp] theorem text_ofReference (r : Reference) : (ofReference r).text d c = r.quoted d := by
  cases r <;> rfl

@[simp] theorem after_ofReference (r : Reference) : (ofReference r).after c = c :=
  after_of_bindings_eq_nil (bindings_ofReference r)

/-- A draft between parentheses. -/
def enclosed (p : Draft) : Draft := code "(" ++ (p ++ code ")")

@[simp] theorem bindings_enclosed : (enclosed p).bindings = p.bindings := by simp [enclosed]

@[simp] theorem text_enclosed : (enclosed p).text d c = SqlTree.enclosed (p.text d c) := by
  simp [enclosed, SqlTree.enclosed, String.append_assoc]

@[simp] theorem after_enclosed : (enclosed p).after c = p.after c := by simp [after]

/-- A draft in its place after others, nothing if it is empty. -/
def spaced (p : Draft) : Draft := if p.isEmpty then code "" else code " " ++ p

@[simp] theorem bindings_spaced : (spaced p).bindings = p.bindings := by
  unfold spaced
  split
  · next h => simp [bindings_of_isEmpty h]
  · simp

@[simp] theorem after_spaced :
    (spaced p).after c = p.after c := by simp only [after, bindings_spaced]

@[simp] theorem text_spaced : (spaced p).text d c = SqlTree.spaced (p.text d c) := by
  unfold spaced SqlTree.spaced
  by_cases h : p.isEmpty = true
  · rw [if_pos h, if_pos (text_eq_empty_iff.2 h), text_code]
  · rw [if_neg h, if_neg (mt text_eq_empty_iff.1 h)]
    simp

/-! ## Predicates -/

/-- A comparison. -/
def comparison (left : Reference) (op : Comparison) (right : Draft) : Draft :=
  ofReference left ++ (code (" " ++ op.symbol ++ " ") ++ right)

@[simp] theorem bindings_comparison (left : Reference) (op : Comparison) :
    (comparison left op p).bindings = p.bindings := by simp [comparison]

@[simp] theorem text_comparison (left : Reference) (op : Comparison) :
    (comparison left op p).text d c = comparisonText (left.quoted d) op (p.text d c) := by
  simp [comparison, comparisonText, String.append_assoc]

/-- A range test. -/
def between (left : Reference) (negated : Bool) (low high : Draft) : Draft :=
  ofReference left ++ (code (" " ++ notWord negated ++ "BETWEEN ") ++
    (low ++ (code " AND " ++ high)))

@[simp] theorem bindings_between (left : Reference) (negated : Bool) :
    (between left negated p q).bindings = p.bindings ++ q.bindings := by simp [between]

@[simp] theorem text_between (left : Reference) (negated : Bool) :
    (between left negated p q).text d c =
      betweenText (left.quoted d) negated (p.text d c) (q.text d (p.after c)) := by
  simp [between, betweenText, String.append_assoc]

/-- A test against what the parentheses hold. -/
def inParentheses (left : Reference) (negated : Bool) (inner : Draft) : Draft :=
  ofReference left ++ (code (" " ++ notWord negated ++ "IN ") ++ enclosed inner)

@[simp] theorem bindings_inParentheses (left : Reference) (negated : Bool) :
    (inParentheses left negated p).bindings = p.bindings := by simp [inParentheses]

@[simp] theorem text_inParentheses (left : Reference) (negated : Bool) :
    (inParentheses left negated p).text d c = inText (left.quoted d) negated (p.text d c) := by
  simp [inParentheses, inText, String.append_assoc]

/-- A test for null or another truth value. -/
def truth (left : Reference) (negated : Bool) (word : Truth) : Draft :=
  ofReference left ++ code (" IS " ++ notWord negated ++ word.keyword)

@[simp] theorem bindings_truth (left : Reference) (negated : Bool) (word : Truth) :
    (truth left negated word).bindings = [] := by simp [truth]

@[simp] theorem text_truth (left : Reference) (negated : Bool) (word : Truth) :
    (truth left negated word).text d c = truthText (left.quoted d) negated word := by
  simp [truth, truthText, String.append_assoc]

/-- A test against a list, with null tested by itself. -/
def inList (left : Reference) (negated : Bool) (markers : List Draft) (orNull : Bool) : Draft :=
  if markers.isEmpty then truth left negated .null
  else
    let list := inParentheses left negated (joined ", " markers)
    if orNull then enclosed
      (list ++ (code (if negated then " AND " else " OR ") ++ truth left negated .null))
    else list

@[simp] theorem bindings_inList (left : Reference) (negated : Bool) (ps : List Draft)
    (orNull : Bool) : (inList left negated ps orNull).bindings = ps.flatMap bindings := by
  unfold inList
  split
  · next h => simp [List.isEmpty_iff.1 h]
  · split <;> simp

@[simp] theorem text_inList (left : Reference) (negated : Bool) (ps : List Draft) (orNull : Bool) :
    (inList left negated ps orNull).text d c =
      inListText (left.quoted d) negated (texts d ps c) orNull := by
  unfold inList inListText
  cases ps with
  | nil => simp [texts]
  | cons p ps =>
    simp only [texts, List.isEmpty_cons, Bool.false_eq_true, if_false]
    split
    · rw [text_enclosed, text_append, text_append, text_code, text_truth, text_inParentheses,
        text_joined, texts, String.append_assoc]
    · rw [text_inParentheses, text_joined, texts]

/-- A pattern test. -/
def like (left : Reference) (negated : Bool) (pattern : Draft) (escape : Option Char) : Draft :=
  ofReference left ++ (code (" " ++ notWord negated ++ "LIKE ") ++ (pattern ++
    match escape with
    | some ch => code " ESCAPE " ++ quotedChar ch
    | none => code ""))

@[simp] theorem bindings_like (left : Reference) (negated : Bool) (escape : Option Char) :
    (like left negated p escape).bindings = p.bindings := by
  cases escape <;> simp [like]

@[simp] theorem text_like (left : Reference) (negated : Bool) (escape : Option Char) :
    (like left negated p escape).text d c =
      likeText d (left.quoted d) negated (p.text d c) escape := by
  cases escape <;> simp [like, likeText, String.append_assoc]

/-- A test for rows. -/
def existence (negated : Bool) (p : Draft) :
    Draft := code (notWord negated ++ "EXISTS ") ++ enclosed p

@[simp] theorem bindings_existence (negated : Bool) :
    (existence negated p).bindings = p.bindings := by
  simp [existence]

@[simp] theorem text_existence (negated : Bool) :
    (existence negated p).text d c = existenceText negated (p.text d c) := by
  simp [existence, existenceText, String.append_assoc]

/-- A comparison with the rows of a subquery. -/
def quantified (left : Reference) (op : Comparison) (quantifier : Quantifier) (p : Draft) : Draft :=
  ofReference left ++ (code (" " ++ op.symbol ++ " " ++ quantifier.keyword ++ " ") ++ enclosed p)

@[simp] theorem bindings_quantified (left : Reference) (op : Comparison) (quantifier : Quantifier) :
    (quantified left op quantifier p).bindings = p.bindings := by simp [quantified]

@[simp] theorem text_quantified (left : Reference) (op : Comparison) (quantifier : Quantifier) :
    (quantified left op quantifier p).text d c = quantifiedText (left.quoted d) op quantifier
    (p.text d c) := by
  simp [quantified, quantifiedText, String.append_assoc]

/-! ## Groups and clauses -/

/-- The texts of terms written one after the other. -/
def termTexts (d : Dialect) : List (Connective × Draft) → Collector → List (Connective × String)
  | [], _ => []
  | (op, p) :: ts, c => (op, p.text d c) :: termTexts d ts (p.after c)

/-- Terms that follow others, each after its connective. -/
def following : List (Connective × Draft) → Draft
  | [] => code ""
  | (op, p) :: ts => code (" " ++ op.keyword ++ " ") ++ (p ++ following ts)

/-- Terms one after the other; the first one has nothing to be joined to. -/
def terms : List (Connective × Draft) → Draft
  | [] => code ""
  | (_, p) :: ts => p ++ following ts

/-- The terms that are not empty. -/
def live (ts : List (Connective × Draft)) : List (Connective × Draft) :=
  ts.filter fun t => !t.2.isEmpty

/-- Empty terms are left out with their connectives; what is left of a
nested group is one unit. -/
def group (nested : Bool) (ts : List (Connective × Draft)) : Draft :=
  if nested ∧ 1 < (live ts).length then enclosed (terms (live ts)) else terms (live ts)

theorem bindings_following (ts : List (Connective × Draft)) :
    (following ts).bindings = ts.flatMap fun t => t.2.bindings := by
  fun_induction following ts <;> simp_all

theorem bindings_terms (ts : List (Connective × Draft)) :
    (terms ts).bindings = ts.flatMap fun t => t.2.bindings := by
  cases ts with
  | nil => rfl
  | cons t ts => simp [terms, bindings_following]

theorem flatMap_bindings_live (ts : List (Connective × Draft)) :
    ((live ts).flatMap fun t => t.2.bindings) = ts.flatMap fun t => t.2.bindings := by
  induction ts with
  | nil => rfl
  | cons t ts ih =>
    by_cases h : t.2.isEmpty = true
    · rw [live, List.filter_cons_of_neg (by simp [h]), ← live, ih, List.flatMap_cons,
        bindings_of_isEmpty h, List.nil_append]
    · rw [live, List.filter_cons_of_pos (by simp [h]), ← live, List.flatMap_cons, ih,
        List.flatMap_cons]

@[simp] theorem bindings_group (nested : Bool) (ts : List (Connective × Draft)) :
    (group nested ts).bindings = ts.flatMap fun t => t.2.bindings := by
  unfold group
  split
  · rw [bindings_enclosed, bindings_terms, flatMap_bindings_live]
  · rw [bindings_terms, flatMap_bindings_live]

theorem text_following (ts : List (Connective × Draft)) :
    (following ts).text d c = followingText (termTexts d ts c) := by
  fun_induction following ts generalizing c with
  | case1 => rfl
  | case2 op p ts ih => simp [termTexts, followingText, ih, String.append_assoc]

theorem text_terms (ts : List (Connective × Draft)) :
    (terms ts).text d c = termsText (termTexts d ts c) := by
  cases ts with
  | nil => rfl
  | cons t ts => simp [terms, termTexts, termsText, text_following]

/-- What is empty as a draft is empty as a text, and binds nothing. -/
theorem termTexts_live (ts : List (Connective × Draft)) :
    termTexts d (live ts) c = (termTexts d ts c).filter fun t => t.2 ≠ "" := by
  induction ts generalizing c with
  | nil => rfl
  | cons t ts ih =>
    by_cases h : t.2.isEmpty = true
    · have htext : t.2.text d c = "" := text_eq_empty_iff.2 h
      rw [live, List.filter_cons_of_neg (by simp [h]), ← live, termTexts, List.filter_cons_of_neg
        (by simp [htext]), ih, after_of_bindings_eq_nil (bindings_of_isEmpty h)]
    · have htext : t.2.text d c ≠ "" := mt text_eq_empty_iff.1 h
      rw [live, List.filter_cons_of_pos (by simp [h]), ← live, termTexts, termTexts,
        List.filter_cons_of_pos (by simp [htext]), ih]

theorem length_termTexts (ts : List (Connective × Draft)) :
    (termTexts d ts c).length = ts.length := by
  induction ts generalizing c with
  | nil => rfl
  | cons t ts ih => simp [termTexts, ih]

@[simp] theorem text_group (nested : Bool) (ts : List (Connective × Draft)) :
    (group nested ts).text d c = groupText nested (termTexts d ts c) := by
  simp only [group, groupText]
  rw [← termTexts_live, length_termTexts]
  split
  · rw [text_enclosed, text_terms]
  · rw [text_terms]

/-- A clause without predicates is empty. -/
def clause (kind : ClauseKind) (p : Draft) :
    Draft := if p.isEmpty then code "" else code (kind.keyword ++ " ") ++ p

@[simp] theorem bindings_clause (kind : ClauseKind) : (clause kind p).bindings = p.bindings := by
  unfold clause
  split
  · next h => simp [bindings_of_isEmpty h]
  · simp

@[simp] theorem text_clause (kind : ClauseKind) :
    (clause kind p).text d c = clauseText kind (p.text d c) := by
  unfold clause clauseText
  by_cases h : p.isEmpty = true
  · rw [if_pos h, if_pos (text_eq_empty_iff.2 h), text_code]
  · rw [if_neg h, if_neg (mt text_eq_empty_iff.1 h)]
    simp

/-! ## Joins -/

/-- An alias in its place after a name. -/
def aliased (alias? : Option Alias) : Draft :=
  match alias? with
  | some a => code " " ++ label a
  | none => code ""

@[simp] theorem bindings_aliased (alias? : Option Alias) : (aliased alias?).bindings = [] := by
  cases alias? <;> rfl

@[simp] theorem text_aliased (alias? : Option Alias) :
    (aliased alias?).text d c = aliasText d alias? := by
  cases alias? <;> rfl

@[simp] theorem after_aliased (alias? : Option Alias) : (aliased alias?).after c = c :=
  after_of_bindings_eq_nil (bindings_aliased alias?)

/-- A join. -/
def join (kind : JoinKind) (target : Draft) (alias? : Option Alias) (on : Draft) : Draft :=
  code (kind.keyword ++ " ") ++ (target ++ (aliased alias? ++ spaced on))

@[simp] theorem bindings_join (kind : JoinKind) (alias? : Option Alias) :
    (join kind p alias? q).bindings = p.bindings ++ q.bindings := by simp [join]

@[simp] theorem text_join (kind : JoinKind) (alias? : Option Alias) :
    (join kind p alias? q).text d c = joinText d kind (p.text d c) alias?
    (q.text d (p.after c)) := by
  simp [join, joinText, String.append_assoc]

end Draft

end SqlTree
