import Mathlib.Data.List.Basic
import SqlTree.Compile.Text
import SqlTree.Proofs.Membership.Meaning
import SqlTree.Proofs.Paging.Bound

/-!
# SqlTree.Proofs.Membership.Reader

Reading the test of a column against a list back from its text.  The text of
the column is given, as it may be any SQL.  What stands between the
parentheses of a list are markers with commas between them, and a marker is
read as the key of the value that it stands for: a named one is the key, and
question marks count from the number of the next value on.

Texts of lists are read as the condition that they were written for
(`readColumnCondition_inListText`).
-/

namespace SqlTree

/-! ## Keys -/

/-- The keys that bindings get, one after the other. -/
def Collector.keysFor (c : Collector) : List Binding → List Key
  | [] => []
  | b :: bs => c.nextKey b.hint :: (c.bind b).keysFor bs

/-- The key of a marker, a question mark being the one of this number. -/
def keyOf (n : Nat) (marker : String) : Key :=
  if marker = "?" then .position n else .named marker

/-- The keys of markers from this number on. -/
def keysFrom (n : Nat) : List String → List Key
  | [] => []
  | marker :: markers => keyOf n marker :: keysFrom (n + 1) markers

namespace ColumnTest

variable {α : Type}

/-- The members of the list. -/
def members : ColumnTest α → List α
  | isNull _ => []
  | isIn _ members => members

/-- The test with the values that its keys are found by. -/
def values (c : Collector) : ColumnTest Key → Option (ColumnTest Value)
  | isNull negated => some (isNull negated)
  | isIn negated keys => (keys.mapM fun key => (c.entryAt? key).map Entry.value).map (isIn negated)

end ColumnTest

namespace ColumnCondition

variable {α : Type}

/-- The members of its lists. -/
def members : ColumnCondition α → List α
  | test t => t.members
  | pair _ t t' => t.members ++ t'.members

/-- The condition with the values that its keys are found by. -/
def values (c : Collector) : ColumnCondition Key → Option (ColumnCondition Value)
  | test t => (t.values c).map test
  | pair op t t' => do
    let t ← t.values c
    let t' ← t'.values c
    return pair op t t'

end ColumnCondition

/-! ## Reading -/

/-- A question mark, or a colon and a word. -/
def isMarker : List Char → Bool
  | ['?'] => true
  | ':' :: w => isWord w
  | _ => false

/-- The markers of a list. -/
def readMarkers (cs : List Char) : Option (List String) :=
  match splitAt ',' cs with
  | [] => none
  | first :: rest => do
    let rest ← rest.mapM (List.dropPrefix? · [' '])
    if (first :: rest).all isMarker then some ((first :: rest).map String.ofList) else none

/-- The list up to its parenthesis, and what follows it. -/
def readList (negated : Bool) (n : Nat) (cs : List Char) : Option (ColumnTest Key × List Char) :=
  let inner := cs.takeWhile (· ≠ ')')
  match readMarkers inner, cs.drop inner.length with
  | some markers, _ :: rest => some (.isIn negated (keysFrom n markers), rest)
  | _, _ => none

/-- The test behind a column, and what follows it. -/
def readTest (n : Nat) (cs : List Char) : Option (ColumnTest Key × List Char) :=
  ((cs.dropPrefix? " IS NULL".toList).map fun rest => (.isNull false, rest)) <|>
  ((cs.dropPrefix? " IS NOT NULL".toList).map fun rest => (.isNull true, rest)) <|>
  ((cs.dropPrefix? " IN (".toList).bind (readList false n)) <|>
  ((cs.dropPrefix? " NOT IN (".toList).bind (readList true n))

/-- A test of this column, and what follows it. -/
def readColumnTest (column : String) (n : Nat) (cs : List Char) :
    Option (ColumnTest Key × List Char) :=
  (cs.dropPrefix? column.toList).bind (readTest n)

/-- The connective between two tests, and what follows it. -/
def readConnective (cs : List Char) : Option (Connective × List Char) :=
  ((cs.dropPrefix? " AND ".toList).map fun rest => (.and, rest)) <|>
  ((cs.dropPrefix? " OR ".toList).map fun rest => (.or, rest))

/-- The condition on this column, with `n` as the number of the next
value: a test, or two in parentheses. -/
def readColumnCondition (column : String) (n : Nat) (sql : String) :
    Option (ColumnCondition Key) :=
  match readColumnTest column n sql.toList with
  | some (t, []) => some (.test t)
  | _ => do
    let cs ← sql.toList.dropPrefix? ['(']
    let (t, cs) ← readColumnTest column n cs
    let (op, cs) ← readConnective cs
    let (t', cs) ← readColumnTest column (n + t.members.length) cs
    if cs = [')'] then some (.pair op t t') else none

/-! ## Keys of what is bound -/

namespace Collector

/-- A marker that is given is one, and has the key that the value gets. -/
theorem isMarker_record (c : Collector) (b : Binding) :
    isMarker (c.record b.value b.type b.hint).1.toList = true := by
  obtain hmark | ⟨w, hw, hword⟩ := c.record_eq_mark_or_word b
  · rw [hmark]
    decide
  · rw [hword]
    cases w with
    | nil => cases hw
    | cons x w => exact hw

theorem keyOf_record (c : Collector) (b : Binding) :
    keyOf (c.size + 1) (c.record b.value b.type b.hint).1 = c.nextKey b.hint := by
  cases hc : c.style with
  | positional =>
    rw [record, nextKey, hc]
    rfl
  | named =>
    obtain ⟨w, -, hword⟩ := exists_word_record hc b
    have hne : (c.record b.value b.type b.hint).1 ≠ "?" := by
      intro h
      rw [h] at hword
      cases hword
    rw [keyOf, if_neg hne, record, nextKey, hc]

theorem keysFrom_markersFor (c : Collector) (bs : List Binding) :
    keysFrom (c.size + 1) (c.markersFor bs) = c.keysFor bs := by
  induction bs generalizing c with
  | nil => rfl
  | cons b bs ih =>
    have hsize : (c.bind b).size = c.size + 1 := size_record _ _ _ _
    rw [markersFor, keysFrom, keyOf_record, keysFor, ← ih (c.bind b), hsize]

/-- The values of bindings are found by the keys that these get, whatever is
bound later. -/
theorem mapM_entryAt?_keysFor (c : Collector) (bs later : List Binding) :
    ((c.keysFor bs).mapM fun key => (((c.bindAll bs).bindAll later).entryAt? key).map
      Entry.value) = some (bs.map Binding.value) := by
  induction bs generalizing c with
  | nil => rfl
  | cons b bs ih =>
    have hfirst : ((c.bindAll (b :: bs)).bindAll later).entryAt? (c.nextKey b.hint) =
        some ⟨c.nextKey b.hint, b.value, b.type⟩ := by
      have h := c.entryAt?_bindAll b (bs ++ later)
      rwa [bindAll_append] at h
    have hrest : (((c.bind b).keysFor bs).mapM fun key =>
        (((c.bindAll (b :: bs)).bindAll later).entryAt? key).map Entry.value) =
          some (bs.map Binding.value) := ih (c.bind b)
    rw [keysFor, List.mapM_cons, hfirst, hrest]
    rfl

end Collector

/-! ## Prefixes -/

theorem dropPrefix?_append (cs rest : List Char) : (cs ++ rest).dropPrefix? cs = some rest :=
  List.dropPrefix?_append_of_beq rest (beq_self_eq_true cs)

/-- Where neither begins with the other, nothing that follows helps. -/
theorem dropPrefix?_append_of_not_prefix {cs other : List Char} (h : ¬ cs <+: other)
    (h' : ¬ other <+: cs) (rest : List Char) : (cs ++ rest).dropPrefix? other = none := by
  cases hdrop : (cs ++ rest).dropPrefix? other with
  | none => rfl
  | some rest' =>
    obtain ⟨start, htext, hstart⟩ := List.dropPrefix?_eq_some_iff.1 hdrop
    obtain rfl := beq_iff_eq.1 hstart
    exact absurd (List.prefix_or_prefix_of_prefix (List.prefix_append cs rest)
      ⟨rest', htext.symm⟩) (not_or.2 ⟨h, h'⟩)

/-! ## Lists of markers -/

/-- No marker has anything in it but a sign and a word. -/
theorem not_mem_of_isMarker {c : Char} (hword : isWordChar c = false) (hsign : c ∉ [':', '?'])
    {cs : List Char} (h : isMarker cs = true) : c ∉ cs := by
  simp only [List.mem_cons, List.not_mem_nil, or_false, not_or] at hsign
  unfold isMarker at h
  split at h
  · simpa using hsign.2
  · next w =>
    have hw := all_isWordChar_of_isWord h
    rw [List.mem_cons, not_or]
    refine ⟨hsign.1, fun hmem => ?_⟩
    rw [List.all_eq_true.1 hw c hmem] at hword
    cases hword
  · cases h

/-- Markers with commas between them are cut into the first one and the
others, each of these behind a blank. -/
theorem splitAt_joined {marker : String} {markers : List String}
    (h : ∀ m ∈ marker :: markers, isMarker m.toList = true) :
    splitAt ',' (joined ", " (marker :: markers)).toList =
      marker.toList :: markers.map fun m => ' ' :: m.toList := by
  have hcomma : ',' ∉ marker.toList :=
    not_mem_of_isMarker (by decide) (by decide) (h marker List.mem_cons_self)
  induction markers generalizing marker with
  | nil => exact splitAt_of_not_mem hcomma
  | cons m markers ih =>
    have hrest := List.forall_mem_cons.1 h
    have hnext := ih (fun x hx => hrest.2 x hx)
      (not_mem_of_isMarker (by decide) (by decide) (hrest.2 m List.mem_cons_self))
    have htext : (joined ", " (marker :: m :: markers)).toList =
        marker.toList ++ ',' :: ' ' :: (joined ", " (m :: markers)).toList := by
      simp [joined]
    rw [htext, splitAt_append hcomma, splitAt, if_neg (by decide), hnext, List.map_cons]

theorem mapM_dropPrefix? (css : List (List Char)) :
    (css.map (' ' :: ·)).mapM (List.dropPrefix? · [' ']) = some css := by
  induction css with
  | nil => rfl
  | cons cs css ih =>
    have hfirst : (' ' :: cs).dropPrefix? [' '] = some cs := dropPrefix?_append [' '] cs
    rw [List.map_cons, List.mapM_cons, hfirst, ih]
    rfl

/-- They are read one by one. -/
theorem readMarkers_joined {markers : List String} (hne : markers ≠ [])
    (h : ∀ marker ∈ markers, isMarker marker.toList = true) :
    readMarkers (joined ", " markers).toList = some markers := by
  obtain ⟨marker, markers, rfl⟩ := List.exists_cons_of_ne_nil hne
  have hrest : (markers.map fun m => ' ' :: m.toList).mapM (List.dropPrefix? · [' ']) =
      some (markers.map String.toList) := by
    rw [← mapM_dropPrefix?, List.map_map]
    rfl
  have hall : (marker.toList :: markers.map String.toList).all isMarker = true := by
    rw [← List.map_cons (f := String.toList), List.all_map, List.all_eq_true]
    exact h
  rw [readMarkers, splitAt_joined h]
  dsimp only
  rw [hrest, Option.bind_eq_bind, Option.bind_some, if_pos hall,
    ← List.map_cons (f := String.toList), List.map_map]
  simp

/-! ## Tests of lists -/

variable (column : String) (negated : Bool) (n : Nat)

theorem readColumnTest_truthText (rest : List Char) :
    readColumnTest column n ((truthText column negated .null).toList ++ rest) =
      some (.isNull negated, rest) := by
  have htext : (truthText column negated .null).toList ++ rest = column.toList ++
      ((" IS " ++ notWord negated ++ "NULL").toList ++ rest) := by
    simp [truthText, Truth.keyword, String.append_assoc]
  have hfalse : (" IS " ++ notWord false ++ "NULL").toList = " IS NULL".toList := by decide
  have htrue : (" IS " ++ notWord true ++ "NULL").toList = " IS NOT NULL".toList := by decide
  rw [htext, readColumnTest, dropPrefix?_append, Option.bind_some]
  cases negated with
  | false =>
    simp only [hfalse, readTest, dropPrefix?_append]
    rfl
  | true =>
    simp (disch := decide) only [htrue, readTest, dropPrefix?_append_of_not_prefix,
      dropPrefix?_append]
    rfl

/-- No list has a parenthesis in it. -/
theorem not_mem_joined {markers : List String}
    (h : ∀ marker ∈ markers, isMarker marker.toList = true) :
    ')' ∉ (joined ", " markers).toList := by
  have hmarker {marker : String} (hm : isMarker marker.toList = true) : ')' ∉ marker.toList :=
    not_mem_of_isMarker (by decide) (by decide) hm
  induction markers with
  | nil => exact List.not_mem_nil
  | cons marker markers ih =>
    obtain ⟨hfirst, hrest⟩ := List.forall_mem_cons.1 h
    cases markers with
    | nil => exact hmarker hfirst
    | cons m markers => simp [joined, hmarker hfirst, ih hrest]

theorem readColumnTest_inText {markers : List String} (hne : markers ≠ [])
    (h : ∀ marker ∈ markers, isMarker marker.toList = true) (rest : List Char) :
    readColumnTest column n ((inText column negated (joined ", " markers)).toList ++ rest) =
      some (.isIn negated (keysFrom n markers), rest) := by
  let inner := (joined ", " markers).toList
  have htext : (inText column negated (joined ", " markers)).toList ++ rest = column.toList ++
      ((" " ++ notWord negated ++ "IN (").toList ++ (inner ++ ')' :: rest)) := by
    simp [inText, enclosed, inner, String.append_assoc]
  have htest (cs : List Char) : readTest n ((" " ++ notWord negated ++ "IN (").toList ++ cs) =
      readList negated n cs := by
    have hfalse : (" " ++ notWord false ++ "IN (").toList = " IN (".toList := by decide
    have htrue : (" " ++ notWord true ++ "IN (").toList = " NOT IN (".toList := by decide
    cases negated with
    | false =>
      simp (disch := decide) only [hfalse, readTest, dropPrefix?_append_of_not_prefix,
        dropPrefix?_append]
      simp
    | true =>
      simp (disch := decide) only [htrue, readTest, dropPrefix?_append_of_not_prefix,
        dropPrefix?_append]
      rfl
  have hinner : (inner ++ ')' :: rest).takeWhile (· ≠ ')') = inner := by
    have hall : ∀ c ∈ inner, decide (c ≠ ')') = true := fun c hc =>
      decide_eq_true fun heq => not_mem_joined h (heq ▸ hc)
    rw [List.takeWhile_append_of_pos hall, List.takeWhile_cons_of_neg (by simp), List.append_nil]
  rw [htext, readColumnTest, dropPrefix?_append, Option.bind_some, htest, readList]
  simp only [hinner, List.drop_left, inner, readMarkers_joined hne h]

/-- A condition in parentheses is no test: if the column begins with a
parenthesis itself, there is one too many. -/
theorem readColumnTest_parenthesis (cs : List Char) :
    readColumnTest column n ('(' :: (column.toList ++ cs)) = none := by
  have hhead (col rest : List Char) (h : '(' :: (col ++ cs) = col ++ rest) :
      ∃ rest', rest = '(' :: rest' := by
    induction col with
    | nil => exact ⟨cs, h.symm⟩
    | cons c col ih =>
      obtain ⟨hc, htail⟩ := List.cons.inj h
      exact ih (hc ▸ htail)
  rw [readColumnTest]
  cases hdrop : List.dropPrefix? ('(' :: (column.toList ++ cs)) column.toList with
  | none => rfl
  | some rest =>
    obtain ⟨start, htext, hstart⟩ := List.dropPrefix?_eq_some_iff.1 hdrop
    obtain rfl := beq_iff_eq.1 hstart
    obtain ⟨rest', rfl⟩ := hhead _ rest htext
    have hcons : '(' :: rest' = ['('] ++ rest' := rfl
    simp (disch := decide) only [hcons, Option.bind_some, readTest,
      dropPrefix?_append_of_not_prefix]
    rfl

theorem readConnective_keyword (op : Connective) (rest : List Char) :
    readConnective ((" " ++ op.keyword ++ " ").toList ++ rest) = some (op, rest) := by
  have hand : (" " ++ Connective.and.keyword ++ " ").toList = " AND ".toList := by decide
  have hor : (" " ++ Connective.or.keyword ++ " ").toList = " OR ".toList := by decide
  cases op with
  | and =>
    simp only [hand, readConnective, dropPrefix?_append]
    rfl
  | or =>
    simp (disch := decide) only [hor, readConnective, dropPrefix?_append_of_not_prefix,
      dropPrefix?_append]
    rfl

/-- Two tests in parentheses are read one after the other. -/
theorem readColumnCondition_pair {markers : List String} (hne : markers ≠ [])
    (h : ∀ marker ∈ markers, isMarker marker.toList = true) (op : Connective) :
    readColumnCondition column n (enclosed (inText column negated (joined ", " markers) ++
      (" " ++ op.keyword ++ " ") ++ truthText column negated .null)) =
      some (.pair op (.isIn negated (keysFrom n markers)) (.isNull negated)) := by
  let list := (inText column negated (joined ", " markers)).toList
  let null := (truthText column negated .null).toList
  obtain ⟨behind, hbehind⟩ : ∃ behind, list = column.toList ++ behind := by
    exact ⟨(" " ++ notWord negated ++ "IN " ++ enclosed (joined ", " markers)).toList, by
      simp [list, inText, String.append_assoc]⟩
  have htext : (enclosed (inText column negated (joined ", " markers) ++
      (" " ++ op.keyword ++ " ") ++ truthText column negated .null)).toList =
        '(' :: (list ++ ((" " ++ op.keyword ++ " ").toList ++ (null ++ [')']))) := by
    simp [enclosed, list, null, String.append_assoc]
  have hnone : readColumnTest column n
      ('(' :: (list ++ ((" " ++ op.keyword ++ " ").toList ++ (null ++ [')'])))) = none := by
    rw [hbehind, List.append_assoc]
    exact readColumnTest_parenthesis column n _
  have hopen (cs : List Char) : ('(' :: cs).dropPrefix? ['('] = some cs :=
    dropPrefix?_append ['('] cs
  rw [readColumnCondition, htext, hnone]
  simp only [hopen, Option.bind_eq_bind, Option.bind_some, list, null,
    readColumnTest_inText column negated n hne h, readConnective_keyword,
    readColumnTest_truthText, if_true]

/-- The test of a list is read as what it was written for. -/
theorem readColumnCondition_inListText {markers : List String} (orNull : Bool)
    (h : ∀ marker ∈ markers, isMarker marker.toList = true) :
    readColumnCondition column n (inListText column negated markers orNull) =
      some (.listed negated (keysFrom n markers) orNull) := by
  by_cases hne : markers = []
  · have hread := readColumnTest_truthText column negated n []
    rw [List.append_nil] at hread
    subst hne
    have htext : inListText column negated [] orNull = truthText column negated .null := rfl
    rw [htext, readColumnCondition, hread]
    rfl
  · have hmarkers : markers.isEmpty = false := by simpa using hne
    have hkeys : (keysFrom n markers).isEmpty = false := by
      obtain ⟨marker, markers, rfl⟩ := List.exists_cons_of_ne_nil hne
      rfl
    rw [inListText, hmarkers, ColumnCondition.listed, hkeys]
    simp only [Bool.false_eq_true, if_false]
    cases orNull with
    | false =>
      have hread := readColumnTest_inText column negated n hne h []
      rw [List.append_nil] at hread
      simp only [Bool.false_eq_true, if_false]
      rw [readColumnCondition, hread]
    | true =>
      have hop : (if negated then " AND " else " OR ") =
          " " ++ (if negated then Connective.and else Connective.or).keyword ++ " " := by
        cases negated <;> rfl
      rw [if_pos rfl, if_pos rfl, hop]
      exact readColumnCondition_pair column negated n hne h _

end SqlTree
