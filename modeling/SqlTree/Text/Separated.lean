/-!
# SqlTree.Text.Separated

Text cut at a separator character, and pieces put together again.
`splitAt sep` keeps empty pieces, so a text with `n` separators has `n + 1`
pieces and `joinWith_splitAt` gives the text back.  `String.joined` is the
same join on strings, as statements use it for their lists.
-/

namespace SqlTree

/-- The pieces of a text between the separators, empty ones included. -/
def splitAt (sep : Char) : List Char → List (List Char)
  | [] => [[]]
  | c :: cs =>
    if c = sep then [] :: splitAt sep cs
    else
      match splitAt sep cs with
      | [] => [[c]]
      | piece :: pieces => (c :: piece) :: pieces

/-- The pieces with a separator between neighbours. -/
def joinWith (sep : Char) : List (List Char) → List Char
  | [] => []
  | [piece] => piece
  | piece :: pieces => piece ++ sep :: joinWith sep pieces

/-- The texts with a separator between neighbours. -/
def joined (sep : String) : List String → String
  | [] => ""
  | [text] => text
  | text :: texts => text ++ sep ++ joined sep texts

/-! ## Laws -/

/-- A list is cut at the first place of an element in one way only. -/
theorem append_cons_inj_of_not_mem {α : Type} {a : α} {xs ys us vs : List α} (hxs : a ∉ xs)
    (hys : a ∉ ys) (h : xs ++ a :: us = ys ++ a :: vs) : xs = ys ∧ us = vs := by
  rcases List.append_eq_append_iff.1 h with ⟨more, rfl, hmore⟩ | ⟨more, rfl, hmore⟩
  · cases more with
    | nil => exact ⟨(List.append_nil _).symm, (List.cons.inj hmore).2⟩
    | cons x more =>
      obtain rfl := (List.cons.inj hmore).1
      exact absurd (List.mem_append_right _ List.mem_cons_self) hys
  · cases more with
    | nil => exact ⟨List.append_nil _, (List.cons.inj hmore).2.symm⟩
    | cons x more =>
      obtain rfl := (List.cons.inj hmore).1
      exact absurd (List.mem_append_right _ List.mem_cons_self) hxs

theorem splitAt_ne_nil (sep : Char) (cs : List Char) : splitAt sep cs ≠ [] := by
  fun_cases splitAt sep cs <;> simp_all

theorem joinWith_cons {sep : Char} {pieces : List (List Char)} (h : pieces ≠ []) (piece : List Char) :
    joinWith sep (piece :: pieces) = piece ++ sep :: joinWith sep pieces := by
  cases pieces with
  | nil => exact absurd rfl h
  | cons p ps => rfl

/-- Joined pieces start as the first of them does. -/
theorem head?_joinWith {sep : Char} {piece : List Char} (h : piece ≠ []) (pieces : List (List Char)) :
    (joinWith sep (piece :: pieces)).head? = piece.head? := by
  cases piece with
  | nil => exact absurd rfl h
  | cons c cs => cases pieces <;> rfl

/-- Cutting loses nothing. -/
theorem joinWith_splitAt (sep : Char) (cs : List Char) : joinWith sep (splitAt sep cs) = cs := by
  fun_induction splitAt sep cs with
  | case1 => rfl
  | case2 cs ih => rw [joinWith_cons (splitAt_ne_nil _ _), ih]; rfl
  | case3 c cs _ h => exact absurd h (splitAt_ne_nil _ _)
  | case4 c cs _ piece pieces h ih =>
    rw [h] at ih
    cases pieces <;> simp_all [joinWith]

/-- No piece holds the separator. -/
theorem not_mem_of_mem_splitAt {sep : Char} {cs piece : List Char} (h : piece ∈ splitAt sep cs) : sep ∉ piece := by
  fun_induction splitAt sep cs generalizing piece with
  | case1 => simp_all
  | case2 cs ih =>
    rcases List.mem_cons.1 h with rfl | h
    · simp
    · exact ih h
  | case3 c cs _ h' => exact absurd h' (splitAt_ne_nil _ _)
  | case4 c cs hc p ps hs ih =>
    rcases List.mem_cons.1 h with rfl | h
    · have : sep ∉ p := ih (by simp [hs])
      simp_all [Ne.symm, eq_comm]
    · exact ih (by simp [hs, h])

/-- A text without the separator is one piece. -/
theorem splitAt_of_not_mem {sep : Char} {cs : List Char} (h : sep ∉ cs) :
    splitAt sep cs = [cs] := by
  induction cs with
  | nil => rfl
  | cons c cs ih =>
    obtain ⟨hc, hcs⟩ := not_or.1 (mt List.mem_cons.2 h)
    rw [splitAt, if_neg (Ne.symm hc), ih hcs]

/-- The first separator ends the first piece. -/
theorem splitAt_append {sep : Char} {piece : List Char} (h : sep ∉ piece) (cs : List Char) :
    splitAt sep (piece ++ sep :: cs) = piece :: splitAt sep cs := by
  induction piece with
  | nil => exact if_pos rfl
  | cons c piece ih =>
    obtain ⟨hc, hpiece⟩ := not_or.1 (mt List.mem_cons.2 h)
    rw [List.cons_append, splitAt, if_neg (Ne.symm hc), ih hpiece]

end SqlTree
