import Mathlib.Data.List.Basic
import SqlTree.Spec

/-!
# SqlTree.Proofs.Grammar.Operator

The operators of conditions and their names.  A text names an operator if
it has the words of one of its names, in any case of the letters A to Z and
with any blanks around them (`ConditionOperator.IsNamed`), and the operator
that is read from a text is the one that it names (`ofText?_eq_some_iff`).
-/

namespace SqlTree

/-! ## Words in lower case -/

theorem isBlank_eq_false_of_mem_wordsFrom {word cs w : List Char}
    (hword : ∀ c ∈ word, isBlank c = false) (h : w ∈ wordsFrom word cs) :
    ∀ c ∈ w, isBlank c = false := by
  fun_induction wordsFrom word cs with
  | case1 => cases h
  | case2 word hne =>
    rw [List.mem_singleton.1 h]
    exact fun c hc => hword c (List.mem_reverse.1 hc)
  | case3 c cs hc ih => exact ih (by simp) h
  | case4 c cs hc ih => exact ih (by simpa using hc) h
  | case5 c cs word hne hc ih =>
    rcases List.mem_cons.1 h with rfl | h
    · exact fun c hc => hword c (List.mem_reverse.1 hc)
    · exact ih (by simp) h
  | case6 c cs word hne hc ih =>
    exact ih (List.forall_mem_cons.2 ⟨by simpa using hc, hword⟩) h

/-- A word holds no blank. -/
theorem isBlank_eq_false_of_mem_words {cs w : List Char} (h : w ∈ words cs) :
    ∀ c ∈ w, isBlank c = false :=
  isBlank_eq_false_of_mem_wordsFrom (by simp) h

/-- Characters that are not blank go on a word. -/
theorem wordsFrom_append {w : List Char} (hw : ∀ c ∈ w, isBlank c = false) (word cs : List Char) :
    wordsFrom word (w ++ cs) = wordsFrom (w.reverse ++ word) cs := by
  induction w generalizing word with
  | nil => rfl
  | cons c w ih =>
    obtain ⟨hc, hw⟩ := List.forall_mem_cons.1 hw
    have hstep : wordsFrom word (c :: (w ++ cs)) = wordsFrom (c :: word) (w ++ cs) := by
      cases word <;> simp [wordsFrom, hc]
    rw [List.cons_append, hstep, ih hw]
    simp

/-- A blank or the end closes a word. -/
theorem wordsFrom_closed {word : List Char} (h : word ≠ []) (cs : List Char) :
    wordsFrom word [] = [word.reverse] ∧
      wordsFrom word (' ' :: cs) = word.reverse :: wordsFrom [] cs := by
  obtain ⟨c, word, rfl⟩ := List.exists_cons_of_ne_nil h
  have hblank : isBlank ' ' = true := by decide
  simp [wordsFrom, hblank]

/-- Words with blanks between them are cut apart again. -/
theorem words_joinWith {ws : List (List Char)}
    (h : ∀ w ∈ ws, w ≠ [] ∧ ∀ c ∈ w, isBlank c = false) : words (joinWith ' ' ws) = ws := by
  induction ws with
  | nil => rfl
  | cons w ws ih =>
    obtain ⟨⟨hne, hw⟩, hws⟩ := List.forall_mem_cons.1 h
    have hreversed : w.reverse ≠ [] := by simpa using hne
    by_cases hlast : ws = []
    · subst hlast
      have hword := wordsFrom_append hw [] []
      rw [List.append_nil, List.append_nil, (wordsFrom_closed hreversed []).1,
        List.reverse_reverse] at hword
      exact hword
    · rw [joinWith_cons hlast, words, wordsFrom_append hw, List.append_nil,
        (wordsFrom_closed hreversed _).2, List.reverse_reverse]
      exact congrArg (w :: ·) (ih hws)

/-- The words of a text in lower case. -/
def loweredWords (s : String) : List (List Char) := (words s.toList).map (·.map Char.toLower)

/-- The letters A to Z move, all else stays. -/
theorem toNat_toLower (c : Char) :
    c.toLower.toNat = if 65 ≤ c.toNat ∧ c.toNat ≤ 90 then c.toNat + 32 else c.toNat := by
  have hrange : (c.val ≥ 'A'.val ∧ c.val ≤ 'Z'.val) ↔ 65 ≤ c.toNat ∧ c.toNat ≤ 90 :=
    and_congr UInt32.le_iff_toNat_le UInt32.le_iff_toNat_le
  unfold Char.toLower
  by_cases h : 65 ≤ c.toNat ∧ c.toNat ≤ 90
  · rw [dif_pos (hrange.2 h), if_pos h]
    have hsum : c.toNat + 32 < 2 ^ 32 := by omega
    exact (UInt32.toNat_add _ _).trans (Nat.mod_eq_of_lt hsum)
  · rw [dif_neg (mt hrange.1 h), if_neg h]

theorem toLower_toLower (c : Char) : c.toLower.toLower = c.toLower := by
  refine Char.toNat_inj.1 ?_
  rw [toNat_toLower c.toLower, toNat_toLower c]
  grind

theorem isBlank_toLower {c : Char} (h : isBlank c = false) : isBlank c.toLower = false := by
  simp only [isBlank, toNat_toLower, Bool.or_eq_false_iff, Bool.and_eq_false_iff,
    decide_eq_false_iff_not, beq_eq_false_iff_ne] at h ⊢
  split <;> omega

theorem map_joinWith {f : Char → Char} {sep : Char} (hsep : f sep = sep) (ws : List (List Char)) :
    (joinWith sep ws).map f = joinWith sep (ws.map (·.map f)) := by
  induction ws with
  | nil => rfl
  | cons w ws ih =>
    by_cases hlast : ws = []
    · subst hlast
      rfl
    · have hmap : ws.map (·.map f) ≠ [] := by simpa using hlast
      rw [joinWith_cons hlast, List.map_append, List.map_cons, hsep, ih, List.map_cons,
        joinWith_cons hmap]

theorem toList_normalized (s : String) :
    (normalized s).toList = joinWith ' ' (loweredWords s) := by
  rw [normalized, lowered, String.toList_ofList, String.toList_ofList,
    map_joinWith (by decide), loweredWords]

/-- A text in lower case with single blanks is the normal form of every text
with the same words. -/
theorem normalized_eq_iff {s name : String}
    (hname : joinWith ' ' (words name.toList) = name.toList) :
    normalized s = name ↔ loweredWords s = words name.toList := by
  have hwords : words (normalized s).toList = loweredWords s := by
    rw [toList_normalized]
    refine words_joinWith fun w hw => ?_
    obtain ⟨word, hmem, rfl⟩ := List.mem_map.1 hw
    refine ⟨by simpa using ne_nil_of_mem_words hmem, fun c hc => ?_⟩
    obtain ⟨letter, hletter, rfl⟩ := List.mem_map.1 hc
    exact isBlank_toLower (isBlank_eq_false_of_mem_words hmem letter hletter)
  constructor
  · rintro rfl
    exact hwords.symm
  · intro h
    rw [← String.toList_inj, toList_normalized, h, hname]

/-! ## Operators by their names -/

namespace ConditionOperator

/-- The names of an operator. -/
def names : ConditionOperator → List String
  | .compare .eq => ["=", "==", "eq"]
  | .compare .ne => ["!=", "<>", "ne", "neq"]
  | .compare .lt => ["<", "lt"]
  | .compare .le => ["<=", "lte", "le"]
  | .compare .gt => [">", "gt"]
  | .compare .ge => [">=", "gte", "ge"]
  | .inList false => ["in"]
  | .inList true => ["not in", "nin"]
  | .like false => ["like"]
  | .like true => ["not like"]
  | .between false => ["between"]
  | .between true => ["not between"]
  | .truth false => ["is"]
  | .truth true => ["is not"]

/-- The text is one of the names, in any case of the letters A to Z and with
any blanks around its words. -/
def IsNamed (op : ConditionOperator) (text : String) : Prop :=
  ∃ name ∈ op.names, loweredWords text = words name.toList

theorem mem_names_of_comparison {t : String} (ht : lowered t = t) {op : Comparison}
    (h : Comparison.ofText? t = some op) : t ∈ names (.compare op) := by
  rw [Comparison.ofText?, ht] at h
  repeat' split at h
  all_goals cases h
  all_goals assumption

theorem mem_names_of_ofText? {text : String} {op : ConditionOperator}
    (h : ofText? text = some op) : normalized text ∈ op.names := by
  have hlowered : lowered (normalized text) = normalized text := by
    rw [← String.toList_inj, lowered, String.toList_ofList, normalized, lowered,
      String.toList_ofList, List.map_map]
    exact List.map_congr_left fun c _ => toLower_toLower c
  rw [ofText?] at h
  generalize normalized text = t at h hlowered ⊢
  split at h
  · next ht => cases h; simp [names, ht]
  split at h
  · next ht => cases h; simpa [names] using ht
  iterate 6
    split at h
    · next ht => cases h; simp [names, ht]
  obtain ⟨comparison, hop, rfl⟩ := Option.map_eq_some_iff.1 h
  exact mem_names_of_comparison hlowered hop

theorem ofText?_of_mem_names {text : String} {op : ConditionOperator}
    (h : normalized text ∈ op.names) : ofText? text = some op := by
  have hread : ∀ name ∈ op.names, normalized text = name → ofText? text = some op := by
    rcases op with (_ | _ | _ | _ | _ | _) | (_ | _) | (_ | _) | (_ | _) | (_ | _) <;>
      simp only [names, List.forall_mem_cons, List.not_mem_nil, false_implies, implies_true,
        and_true, ofText?] <;>
      (repeat' constructor) <;> intro hname <;> rw [hname] <;> decide
  exact hread _ h rfl

/-- Reading an operator finds the one that the text names. -/
theorem ofText?_eq_some_iff {text : String} {op : ConditionOperator} :
    ofText? text = some op ↔ op.IsNamed text := by
  have hnames : ∀ name ∈ op.names, joinWith ' ' (words name.toList) = name.toList := by
    rcases op with (_ | _ | _ | _ | _ | _) | (_ | _) | (_ | _) | (_ | _) | (_ | _) <;> decide
  constructor
  · intro h
    have hname := mem_names_of_ofText? h
    exact ⟨_, hname, (normalized_eq_iff (hnames _ hname)).1 rfl⟩
  · rintro ⟨name, hname, hwords⟩
    have hnormal : normalized text = name := (normalized_eq_iff (hnames name hname)).2 hwords
    exact ofText?_of_mem_names (hnormal ▸ hname)

end ConditionOperator

end SqlTree
