import Mathlib.Data.List.Basic
import SqlTree.Proofs.Names.Segments
import SqlTree.Proofs.Shipped

/-!
# SqlTree.Proofs.Names.Alias

An alias is quoted as one name, whatever it holds, and is cut again like any
name.  The cut takes a dot for a separator as soon as one closing quote is
before it, also where that quote is doubled, so an alias with such a dot is
not found again (`Dialect.unquote_quoteAlias`).
-/

namespace SqlTree

variable {left right : Char}

/-! ## Lists -/

theorem length_le_length_double (q : Char) (cs : List Char) : cs.length ≤ (double q cs).length := by
  induction cs with
  | nil => exact Nat.le_refl 0
  | cons c cs ih =>
    by_cases h : c = q
    · rw [h, double_cons_self, List.length_cons, List.length_cons, List.length_cons]
      omega
    · rw [double_cons_of_ne h, List.length_cons, List.length_cons]
      omega

/-! ## Names without the quotes of their segments -/

/-- The name without the quotes of its segments. -/
def unquoted (left right : Char) (cs : List Char) : List Char :=
  joinWith '.' ((segments left right cs).map (unquoteSegment left right))

theorem Dialect.toList_unquote (d : Dialect) (name : String) :
    (d.unquote name).toList = unquoted d.leftQuote d.rightQuote name.toList := String.toList_ofList

theorem unquoted_of_segments_eq_cons {cs piece rest : List Char}
    (h : segments left right cs = piece :: segments left right rest) :
    unquoted left right cs = unquoteSegment left right piece ++ '.' :: unquoted left right rest := by
  rw [unquoted, h, List.map_cons, joinWith_cons (mt List.map_eq_nil_iff.1 (segments_ne_nil _ _ _))]
  rfl

theorem unquoteSegment_of_head?_ne {cs : List Char} (h : cs.head? ≠ some left) :
    unquoteSegment left right cs = cs := by
  rw [unquoteSegment, isQuoted_of_head?_ne h]
  rfl

/-- A segment that was quoted and then cut loses its quotes if it still ends in
one, and stays as it is otherwise. -/
theorem unquoteSegment_cut (left right : Char) (cs : List Char) :
    (cs.getLast? = some right ∧ unquoteSegment left right (left :: double right cs) = cs) ∨
      unquoteSegment left right (left :: double right cs) = left :: double right cs := by
  by_cases h : isQuoted left right (left :: double right cs) = true
  · left
    rcases List.eq_nil_or_concat' cs with rfl | ⟨front, last, rfl⟩
    · simp [isQuoted, double] at h
    · obtain rfl : last = right := by
        by_contra hlast
        have hdouble : double right (front ++ [last]) = double right front ++ [last] := by
          rw [double_append, double_cons_of_ne hlast]
          rfl
        rw [hdouble, ← List.cons_append, isQuoted, List.getLast?_concat] at h
        simp [hlast] at h
      have hdouble : double last (front ++ [last]) = double last front ++ [last] ++ [last] := by
        rw [double_append, double_cons_self, List.append_assoc]
        rfl
      refine ⟨List.getLast?_concat, ?_⟩
      rw [unquoteSegment, if_pos h, List.tail_cons, hdouble, List.dropLast_concat,
        undouble_double_append]
      rfl
  · right
    rw [unquoteSegment, if_neg h]

/-! ## Dots behind a closing quote -/

/-- A text with a dot behind a closing quote: the first of these quotes is
behind `front`, and between it and the next dot is `middle`. -/
theorem exists_dot_behind {cs : List Char} (hright : right ≠ '.')
    (h : '.' ∈ cs.dropWhile (· != right)) :
    ∃ front middle rest, right ∉ front ∧ '.' ∉ middle ∧
      cs = front ++ right :: (middle ++ '.' :: rest) := by
  obtain ⟨front, hfront, hsplit, hnone | ⟨behind, hsome⟩⟩ := exists_front right cs
  · rw [hnone] at h
    cases h
  · rw [hsome] at h hsplit
    have hdot : '.' ∈ behind := (List.mem_cons.1 h).resolve_left hright.symm
    obtain ⟨middle, rest, rfl, hmiddle⟩ := List.eq_append_cons_of_mem hdot
    exact ⟨front, middle, rest, hfront, hmiddle, hsplit⟩

/-- An opening quote in front moves the first closing quote. -/
theorem moved_ne {front : List Char} (hne : left ≠ right) (hfront : right ∉ front)
    (us vs : List Char) : left :: (front ++ right :: us) ≠ front ++ right :: vs := by
  intro h
  have hmoved : right ∉ left :: front := by simp [hne.symm, hfront]
  have hfronts := (append_cons_inj_of_not_mem hmoved hfront h).1
  exact absurd (congrArg List.length hfronts) (Nat.succ_ne_self _)

/-- Nor is a text that starts with a quote more, and has its quotes doubled,
the same up to the first dot. -/
theorem doubled_ne {middle : List Char} (hmiddle : '.' ∉ middle) (hright : right ≠ '.')
    (quotes : List Char) (hquotes : '.' ∉ quotes) (us vs : List Char) :
    right :: (quotes ++ double right middle) ++ '.' :: us ≠ middle ++ '.' :: vs := by
  intro h
  have hdot : '.' ∉ right :: (quotes ++ double right middle) := by
    simp [hright.symm, hquotes, mem_double_iff, hmiddle]
  have hsame := congrArg List.length (append_cons_inj_of_not_mem hdot hmiddle h).1
  have hlength := length_le_length_double right middle
  simp only [List.length_cons, List.length_append] at hsame
  omega

section

variable {front middle rest : List Char} (hfront : right ∉ front) (hmiddle : '.' ∉ middle)
  (hright : right ≠ '.')

include hfront hmiddle hright

/-- A quoted alias is cut at its first dot behind a closing quote. -/
theorem segments_quoteSegment_dot :
    segments left right (quoteSegment left right (front ++ right :: (middle ++ '.' :: rest))) =
      (left :: double right (front ++ right :: middle)) ::
        segments left right (double right rest ++ [right]) := by
  have htext : quoteSegment left right (front ++ right :: (middle ++ '.' :: rest)) =
      left :: (front ++ right :: ((right :: double right middle) ++
        '.' :: (double right rest ++ [right]))) := by
    rw [quoteSegment, double_append, double_of_not_mem hfront, double_cons_self, double_append,
      double_cons_of_ne hright.symm]
    simp
  have hbegun : '.' ∉ right :: double right middle := by
    rw [List.mem_cons, mem_double_iff]
    exact not_or.2 ⟨hright.symm, hmiddle⟩
  rw [htext, segments_quoted hfront, segmentsFrom_begun_dot (List.cons_ne_nil _ _) hbegun,
    double_append, double_of_not_mem hfront, double_cons_self]
  simp

/-- Taking off the quotes again leaves the part in front of the dot as it was
if that ends in a quote, or else quoted and doubled. -/
theorem unquoted_quoteSegment_dot (left : Char) (rest : List Char) :
    ∃ part, (((right :: middle).getLast? = some right ∧ part = front ++ right :: middle) ∨
        part = left :: (front ++ right :: right :: double right middle)) ∧
      unquoted left right (quoteSegment left right (front ++ right :: (middle ++ '.' :: rest))) =
        part ++ '.' :: unquoted left right (double right rest ++ [right]) := by
  refine ⟨_, ?_, unquoted_of_segments_eq_cons (segments_quoteSegment_dot hfront hmiddle hright)⟩
  refine (unquoteSegment_cut left right (front ++ right :: middle)).imp ?_ fun hcut => ?_
  · rintro ⟨hlast, hwhole⟩
    exact ⟨by simpa [List.getLast?_append] using hlast, hwhole⟩
  · rw [hcut, double_append, double_of_not_mem hfront, double_cons_self]

/-- An alias is not found again if the dot is not directly behind a quote. -/
theorem unquoted_quoteSegment_ne (hlast : (right :: middle).getLast? ≠ some right) :
    unquoted left right (quoteSegment left right (front ++ right :: (middle ++ '.' :: rest))) ≠
      front ++ right :: (middle ++ '.' :: rest) := by
  intro h
  obtain ⟨part, ⟨hwhole, -⟩ | rfl, htext⟩ :=
    unquoted_quoteSegment_dot hfront hmiddle hright left rest
  · exact hlast hwhole
  · rw [htext, List.cons_append, List.append_assoc] at h
    by_cases hne : left = right
    · subst hne
      cases front with
      | nil =>
        have hbehind := (List.cons.inj h).2
        exact doubled_ne hmiddle hright [left] (by simpa using hright.symm) _ _ hbehind
      | cons c front => exact hfront ((List.cons.inj h).1 ▸ List.mem_cons_self)
    · exact moved_ne hne hfront _ _ h

end

section

variable (hne : left ≠ right) (hright : right ≠ '.')

include hne hright

/-- Where the two quotes differ, an alias that is cut is found again only if
what is behind the dot is. -/
theorem unquoted_rest {front middle rest : List Char} (hfront : right ∉ front)
    (hmiddle : '.' ∉ middle)
    (h : unquoted left right (quoteSegment left right (front ++ right :: (middle ++ '.' :: rest))) =
      front ++ right :: (middle ++ '.' :: rest)) :
    unquoted left right (double right rest ++ [right]) = rest := by
  obtain ⟨part, ⟨-, rfl⟩ | rfl, htext⟩ :=
    unquoted_quoteSegment_dot hfront hmiddle hright left rest
  · rw [htext, ← List.cons_append, ← List.append_assoc] at h
    exact (List.cons.inj (List.append_cancel_left h)).2
  · rw [htext, List.cons_append, List.append_assoc] at h
    exact absurd h (moved_ne hne hfront _ _)

/-- Nor is an alias found with an opening quote in front of it. -/
theorem unquoted_quoteSegment_ne_cons (cs : List Char) :
    unquoted left right (quoteSegment left right cs) ≠ left :: cs := by
  intro h
  by_cases hdot : '.' ∈ cs.dropWhile (· != right)
  · obtain ⟨front, middle, rest, hfront, hmiddle, rfl⟩ := exists_dot_behind hright hdot
    obtain ⟨part, ⟨-, rfl⟩ | rfl, htext⟩ :=
      unquoted_quoteSegment_dot hfront hmiddle hright left rest
    · rw [htext, List.append_assoc] at h
      exact moved_ne hne hfront _ _ h.symm
    · rw [htext, List.cons_append, List.append_assoc] at h
      have hbehind := (List.cons.inj (List.append_cancel_left (List.cons.inj h).2)).2
      exact doubled_ne hmiddle hright [] List.not_mem_nil _ _ hbehind
  · have hback : unquoted left right (quoteSegment left right cs) = cs := by
      rw [unquoted, segments_quoteSegment.2 hdot, List.map_singleton, joinWith,
        unquoteSegment_quoteSegment]
    rw [hback] at h
    exact absurd (congrArg List.length h).symm (Nat.succ_ne_self _)

/-- Where the two quotes differ, nothing is found again that begins outside of
quotes and ends with one. -/
theorem unquoted_double_ne (hleft : left ≠ '.') (cs : List Char) :
    unquoted left right (double right cs ++ [right]) ≠ cs := by
  -- the text behind a dot is shorter and begins anew, so the induction is on the length
  induction hn : cs.length using Nat.strongRecOn generalizing cs with
  | ind n ih =>
    subst hn
    by_cases hhead : cs.head? = some left
    · obtain ⟨name, rfl⟩ := List.head?_eq_some_iff.1 hhead
      rw [double_cons_of_ne hne]
      exact unquoted_quoteSegment_ne_cons hne hright name
    · by_cases hdot : '.' ∈ cs
      · obtain ⟨piece, rest, rfl, hpiece⟩ := List.eq_append_cons_of_mem hdot
        have hplain : (double right piece).head? ≠ some left := by
          rw [head?_double]
          intro h
          exact hhead (by rw [List.head?_append, h]; rfl)
        have hsegment : IsSegment left right (double right piece) :=
          .plain (mt mem_double_iff.1 hpiece) hplain hleft
        rw [double_append, double_cons_of_ne hright.symm, List.append_assoc, List.cons_append,
          unquoted_of_segments_eq_cons (hsegment.beforeDot _), unquoteSegment_of_head?_ne hplain]
        intro h
        have hrest := (append_cons_inj_of_not_mem (mt mem_double_iff.1 hpiece) hpiece h).2
        exact ih rest.length (by simp; omega) rest rfl hrest
      · have hplain : (double right cs ++ [right]).head? ≠ some left := by
          rw [List.head?_append, head?_double]
          cases cs with
          | nil => simpa using hne.symm
          | cons c cs => exact hhead
        have hsegment : IsSegment left right (double right cs ++ [right]) :=
          .plain (by simp [mem_double_iff, hdot, hright.symm]) hplain hleft
        rw [unquoted, hsegment.alone, List.map_singleton, joinWith,
          unquoteSegment_of_head?_ne hplain]
        intro h
        have hlength := length_le_length_double right cs
        have hsame := congrArg List.length h
        rw [List.length_append, List.length_singleton] at hsame
        omega

end

/-! ## Aliases -/

namespace Dialect

/-- An alias is read back as one name, and then also found again and not
quoted twice, just if it has no dot behind a closing quote.  Otherwise it is
cut there, and where the quotes differ, or the dot is not directly behind a
quote, it is not found again. -/
theorem unquote_quoteAlias (d : Dialect) {s : String}
    (hs : isQuoted d.leftQuote d.rightQuote s.toList = false) :
    let behind := s.toList.dropWhile (· != d.rightQuote)
    (segments d.leftQuote d.rightQuote (d.quoteAlias s).toList = [(d.quoteAlias s).toList] ↔
      '.' ∉ behind) ∧
    ('.' ∉ behind →
      d.unquote (d.quoteAlias s) = s ∧ d.quoteIdentifier (d.quoteAlias s) = d.quoteAlias s) ∧
    (d.rightQuote ≠ '.' → ∀ front middle rest, d.rightQuote ∉ front → '.' ∉ middle →
      s.toList = front ++ d.rightQuote :: (middle ++ '.' :: rest) →
      segments d.leftQuote d.rightQuote (d.quoteAlias s).toList =
        (d.leftQuote :: double d.rightQuote (front ++ d.rightQuote :: middle)) ::
          segments d.leftQuote d.rightQuote (double d.rightQuote rest ++ [d.rightQuote]) ∧
      ((d.rightQuote :: middle).getLast? ≠ some d.rightQuote → d.unquote (d.quoteAlias s) ≠ s)) ∧
    (d.leftQuote ≠ d.rightQuote → d.leftQuote ≠ '.' → d.rightQuote ≠ '.' →
      (d.unquote (d.quoteAlias s) = s ↔ '.' ∉ behind)) := by
  intro behind
  have htext : (d.quoteAlias s).toList = quoteSegment d.leftQuote d.rightQuote s.toList := by
    rw [toList_quoteAlias, withQuotes_eq hs]
  have hwhole : segments d.leftQuote d.rightQuote (d.quoteAlias s).toList =
      [(d.quoteAlias s).toList] ↔ '.' ∉ behind := by
    rw [htext]
    exact segments_quoteSegment
  have hback : '.' ∉ behind → d.unquote (d.quoteAlias s) = s := fun hdot => by
    rw [unquote, hwhole.2 hdot, List.map_singleton, joinWith, htext, unquoteSegment_quoteSegment,
      String.ofList_toList]
  have hfound : d.unquote (d.quoteAlias s) = s ↔
      unquoted d.leftQuote d.rightQuote (quoteSegment d.leftQuote d.rightQuote s.toList) = s.toList := by
    rw [← htext, ← toList_unquote, String.toList_inj]
  refine ⟨hwhole, fun hdot => ⟨hback hdot, ?_⟩, ?_, fun hne hleft hright => ⟨fun h hdot => ?_, hback⟩⟩
  · have hsame : d.writtenSegments (d.quoteAlias s) = [(d.quoteAlias s).toList] := by
      rw [writtenSegments, hwhole.2 hdot, List.map_singleton, writtenSegment,
        if_pos (.inr (htext ▸ isQuoted_quoteSegment _ _ _))]
    rw [← String.toList_inj, toList_quoteIdentifier, hsame, joinWith]
  · intro hright front middle rest hfront hmiddle hsplit
    refine ⟨?_, fun hlast => mt hfound.1 ?_⟩
    · rw [htext, hsplit]
      exact segments_quoteSegment_dot hfront hmiddle hright
    · rw [hsplit]
      exact unquoted_quoteSegment_ne hfront hmiddle hright hlast
  · obtain ⟨front, middle, rest, hfront, hmiddle, hsplit⟩ := exists_dot_behind hright hdot
    have hrest := hfound.1 h
    rw [hsplit] at hrest
    exact unquoted_double_ne hne hright hleft rest (unquoted_rest hne hright hfront hmiddle hrest)

/-- In brackets, a dot in front of the closing one does no harm, and one behind
it does. -/
theorem unquote_quoteAlias_of_brackets :
    let d := sqlServer
    let s := "a.b]]c["
    let t := "a.b]c.d"
    isQuoted d.leftQuote d.rightQuote s.toList = false ∧
      isQuoted d.leftQuote d.rightQuote t.toList = false ∧
      '.' ∉ s.toList.dropWhile (· != d.rightQuote) ∧ '.' ∈ t.toList.dropWhile (· != d.rightQuote) ∧
      d.leftQuote ≠ d.rightQuote ∧ d.leftQuote ≠ '.' ∧ d.rightQuote ≠ '.' ∧
      d.unquote (d.quoteAlias s) = s ∧ d.quoteIdentifier (d.quoteAlias s) = d.quoteAlias s ∧
      segments d.leftQuote d.rightQuote (d.quoteAlias t).toList =
        ["[a.b]]c".toList, "d]".toList] ∧ d.unquote (d.quoteAlias t) ≠ t := by
  intro d s t
  have hs : isQuoted d.leftQuote d.rightQuote s.toList = false := by decide +kernel
  have ht : isQuoted d.leftQuote d.rightQuote t.toList = false := by decide +kernel
  have hfree : '.' ∉ s.toList.dropWhile (· != d.rightQuote) := by decide +kernel
  have hdot : '.' ∈ t.toList.dropWhile (· != d.rightQuote) := by decide +kernel
  have hne : d.leftQuote ≠ d.rightQuote := by decide
  have hleft : d.leftQuote ≠ '.' := by decide
  have hright : d.rightQuote ≠ '.' := by decide
  obtain ⟨hunquoted, hquoted⟩ := (d.unquote_quoteAlias hs).2.1 hfree
  obtain ⟨-, -, hcut, hfound⟩ := d.unquote_quoteAlias ht
  exact ⟨hs, ht, hfree, hdot, hne, hleft, hright, hunquoted, hquoted,
    (hcut hright "a.b".toList "c".toList "d".toList (by decide) (by decide) (by decide)).1,
    fun h => (hfound hne hleft hright).1 h hdot⟩

/-- A dot directly behind a doubled quote is taken for a separator. -/
theorem quoteAlias_cut_behind_quote :
    let d := ansi
    let s := "a\".b"
    d.Shipped ∧ isQuoted d.leftQuote d.rightQuote s.toList = false ∧
      d.quoteAlias s = "\"a\"\".b\"" ∧ d.unquote (d.quoteAlias s) = "a\".b\"" ∧
      d.quoteIdentifier (d.quoteAlias s) = "\"a\"\".\"b\"\"\"" ∧
      d.unquote (d.quoteAlias s) ≠ s ∧ d.quoteIdentifier (d.quoteAlias s) ≠ d.quoteAlias s := by
  intro d s
  refine ⟨.config .standard, ?_⟩
  decide +kernel

end Dialect

end SqlTree
