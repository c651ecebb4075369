import SqlTree.Proofs.Markers.Node

/-!
# SqlTree.Proofs.Positional.Scan

Question marks for markers.  `unmarked` reads a text from left to right, as
`markersIn` does, and writes `?` for every marker in it.  `Unmarks` is the
same as a relation, token by token, between a text and what is made of it
in front of some other text.  Quoting the prefixes of the two texts keeps
them related (`Unmarks.requoted`): a name can start behind a question mark
and not behind a word, but what stands behind a marker starts no word.
-/

namespace SqlTree

/-- The text with a question mark for each marker; `within` says that the
text starts in the word of one. -/
def unmarkedFrom : Bool → List Char → List Char
  | _, [] => []
  | within, c :: cs =>
    if within ∧ isWordChar c then unmarkedFrom true cs
    else if c = ':' ∧ cs.head?.any isWordStart then '?' :: unmarkedFrom true cs
    else c :: unmarkedFrom false cs

/-- A statement with a question mark for each marker. -/
def unmarked (sql : String) : String := String.ofList (unmarkedFrom false sql.toList)

/-! ## Token by token -/

/-- A text in front of `rest`, and the same text with its markers replaced. -/
inductive Unmarks (rest : List Char) : List Char → List Char → Prop where
  | nil : Unmarks rest [] []
  | char {c : Char} {t t' : List Char} (hc : c = ':' → (t ++ rest).head?.any isWordStart = false)
      (h : Unmarks rest t t') : Unmarks rest (c :: t) (c :: t')
  | marker {w t t' : List Char} (hw : isWord w = true) (hend : EndsWord (t ++ rest))
      (h : Unmarks rest t t') : Unmarks rest (':' :: (w ++ t)) ('?' :: t')

theorem unmarkedFrom_of_endsWord {cs : List Char} (h : EndsWord cs) :
    unmarkedFrom true cs = unmarkedFrom false cs := by
  cases cs with
  | nil => simp only [unmarkedFrom]
  | cons c cs =>
    have hc : isWordChar c = false := h
    simp [unmarkedFrom, hc]

theorem unmarkedFrom_word {w : List Char} (hw : w.all isWordChar = true) (cs : List Char) :
    unmarkedFrom true (w ++ cs) = unmarkedFrom true cs := by
  induction w with
  | nil => rfl
  | cons c w ih =>
    obtain ⟨hc, hw⟩ := Bool.and_eq_true_iff.1 hw
    rw [List.cons_append, unmarkedFrom, if_pos ⟨rfl, hc⟩, ih hw]

namespace Unmarks

variable {rest t t' u u' : List Char}

/-- The relation is what the reader does. -/
theorem unmarkedFrom_eq (h : Unmarks rest t t') :
    unmarkedFrom false (t ++ rest) = t' ++ unmarkedFrom false rest := by
  induction h with
  | nil => rfl
  | @char c t t' hc h ih =>
    have hmarker : ¬(c = ':' ∧ (t ++ rest).head?.any isWordStart = true) := by
      rintro ⟨hcolon, hstart⟩
      rw [hc hcolon] at hstart
      cases hstart
    rw [List.cons_append, unmarkedFrom, if_neg (by simp), if_neg hmarker, ih, List.cons_append]
  | @marker w t t' hw hend h ih =>
    have hstart : (w ++ t ++ rest).head?.any isWordStart = true := by
      cases w with
      | nil => cases hw
      | cons c w => exact (Bool.and_eq_true_iff.1 hw).1
    rw [List.cons_append, unmarkedFrom, if_neg (by simp), if_pos ⟨rfl, hstart⟩, List.append_assoc,
      unmarkedFrom_word (all_isWordChar_of_isWord hw), unmarkedFrom_of_endsWord hend, ih,
      List.cons_append]

/-- A character other than a colon. -/
theorem other {c : Char} (hc : c ≠ ':') (h : Unmarks rest t t') : Unmarks rest (c :: t) (c :: t') :=
  .char (fun hcolon => absurd hcolon hc) h

theorem append (h : Unmarks (u ++ rest) t t') (h' : Unmarks rest u u') :
    Unmarks rest (t ++ u) (t' ++ u') := by
  induction h with
  | nil => exact h'
  | char hc h ih => exact .char (by simpa using hc) ih
  | @marker w t t' hw hend h ih =>
    rw [List.cons_append, List.append_assoc]
    exact .marker hw (by simpa using hend) ih

/-- Text without colons stays as it is. -/
theorem of_not_mem (h : ':' ∉ t) : Unmarks rest t t := by
  induction t with
  | nil => exact .nil
  | cons c t ih =>
    obtain ⟨hc, ht⟩ := not_or.1 (mt List.mem_cons.2 h)
    exact .other (Ne.symm hc) (ih ht)

/-! ### Taken apart -/

/-- The first token of a text is a character or a marker. -/
theorem cons_cases {c : Char} (h : Unmarks rest (c :: t) u) :
    (∃ t', u = c :: t' ∧ (c = ':' → (t ++ rest).head?.any isWordStart = false) ∧
      Unmarks rest t t') ∨
    (c = ':' ∧ ∃ w t₁ t₁', t = w ++ t₁ ∧ u = '?' :: t₁' ∧ isWord w = true ∧
      EndsWord (t₁ ++ rest) ∧ Unmarks rest t₁ t₁') := by
  generalize htext : c :: t = text at h
  cases h with
  | nil => cases htext
  | char hc h =>
    cases htext
    exact .inl ⟨_, rfl, hc, h⟩
  | @marker w t₁ t₁' hw hend h =>
    obtain ⟨rfl, rfl⟩ := List.cons.inj htext
    exact .inr ⟨rfl, w, t₁, t₁', rfl, rfl, hw, hend, h⟩

/-- What starts with text without colons starts with it afterwards. -/
theorem split (h : Unmarks rest (t ++ u) u') (ht : ':' ∉ t) :
    ∃ v, u' = t ++ v ∧ Unmarks rest u v := by
  induction t generalizing u' with
  | nil => exact ⟨u', rfl, h⟩
  | cons c t ih =>
    obtain ⟨hc, ht⟩ := not_or.1 (mt List.mem_cons.2 ht)
    rcases h.cons_cases with ⟨t', rfl, -, h⟩ | ⟨hcolon, -⟩
    · obtain ⟨v, rfl, hv⟩ := ih h ht
      exact ⟨v, rfl, hv⟩
    · exact absurd hcolon.symm hc

/-- What starts with text without question marks afterwards started with it
before. -/
theorem split_right (h : Unmarks rest u' (t ++ u)) (ht : '?' ∉ t) :
    ∃ v, u' = t ++ v ∧ Unmarks rest v u := by
  induction t generalizing u' with
  | nil => exact ⟨u', rfl, h⟩
  | cons c t ih =>
    obtain ⟨hc, ht⟩ := not_or.1 (mt List.mem_cons.2 ht)
    cases h with
    | char _ h =>
      obtain ⟨v, rfl, hv⟩ := ih h ht
      exact ⟨v, rfl, hv⟩
    | marker => exact absurd rfl hc

/-- A text without colons and question marks starts both or none. -/
theorem prefix_iff {name : List Char} (h : Unmarks rest t t') (hcolon : ':' ∉ name)
    (hmark : '?' ∉ name) : name <+: t ↔ name <+: t' := by
  constructor
  · rintro ⟨u, rfl⟩
    obtain ⟨v, rfl, -⟩ := h.split hcolon
    exact List.prefix_append _ _
  · rintro ⟨u, rfl⟩
    obtain ⟨v, rfl, -⟩ := h.split_right hmark
    exact List.prefix_append _ _

end Unmarks

end SqlTree
