import SqlTree.Dialect.Shipped

/-!
# SqlTree.Proofs.Names.Segments

Where a name is cut.  A quote opens at the start of a segment only and is
closed by the next closing quote, doubled or not, so a segment in quotes is
cut at its first dot behind a closing quote (`segments_quoteSegment`).  A
piece that is a segment wherever it stands is an `IsSegment`; a name joined
from such pieces is cut into them again (`segments_joinWith`).  From this
the quotes of a name are taken off again, and quoting it twice is quoting it
once (`Dialect.unquote_quoteIdentifier`).
-/

namespace SqlTree

variable {left right : Char}

/-! ## Steps of the cut -/

/-- Where no quote opens, a stretch without dots goes to the segment. -/
theorem segmentsFrom_append {acc xs : List Char} (hplain : acc ≠ [] ∨ xs.head? ≠ some left)
    (hdot : '.' ∉ xs) (rest : List Char) :
    segmentsFrom left right acc false (xs ++ rest) =
      segmentsFrom left right (xs.reverse ++ acc) false rest := by
  induction xs generalizing acc with
  | nil => rfl
  | cons x xs ih =>
    obtain ⟨hx, hxs⟩ := not_or.1 (mt List.mem_cons.2 hdot)
    have hopens : ¬(x = left ∧ acc = []) := by
      rintro ⟨rfl, rfl⟩
      exact hplain.elim (· rfl) (· rfl)
    rw [List.cons_append, segmentsFrom, if_neg Bool.false_ne_true, if_neg hopens,
      if_neg (Ne.symm hx), ih (.inl (List.cons_ne_nil _ _)) hxs, List.reverse_cons,
      List.append_assoc, List.singleton_append]

/-- A dot that is no quote ends the segment. -/
theorem segmentsFrom_dot {acc : List Char} (hplain : acc ≠ [] ∨ left ≠ '.') (rest : List Char) :
    segmentsFrom left right acc false ('.' :: rest) = acc.reverse :: segments left right rest := by
  have hopens : ¬('.' = left ∧ acc = []) := by
    rintro ⟨rfl, rfl⟩
    exact hplain.elim (· rfl) (· rfl)
  rw [segmentsFrom, if_neg Bool.false_ne_true, if_neg hopens, if_pos rfl, segments]

/-- In quotes everything goes to the segment up to the first closing quote. -/
theorem segmentsFrom_quoted {acc xs : List Char} (h : right ∉ xs) (rest : List Char) :
    segmentsFrom left right acc true (xs ++ right :: rest) =
      segmentsFrom left right (right :: (xs.reverse ++ acc)) false rest := by
  induction xs generalizing acc with
  | nil => rw [List.nil_append, segmentsFrom, if_pos rfl, bne_self_eq_false]; rfl
  | cons x xs ih =>
    obtain ⟨hx, hxs⟩ := not_or.1 (mt List.mem_cons.2 h)
    rw [List.cons_append, segmentsFrom, if_pos rfl, bne_iff_ne.2 (Ne.symm hx), ih hxs]
    simp

/-- What has begun is one segment if no dot is left. -/
theorem segmentsFrom_begun {acc xs : List Char} (hacc : acc ≠ []) (hdot : '.' ∉ xs) :
    segmentsFrom left right acc false xs = [acc.reverse ++ xs] := by
  rw [← List.append_nil xs, segmentsFrom_append (.inl hacc) hdot, segmentsFrom,
    List.reverse_append, List.reverse_reverse, List.append_nil]

/-- Otherwise it goes up to the next dot. -/
theorem segmentsFrom_begun_dot {acc xs : List Char} (hacc : acc ≠ []) (hdot : '.' ∉ xs)
    (rest : List Char) :
    segmentsFrom left right acc false (xs ++ '.' :: rest) =
      (acc.reverse ++ xs) :: segments left right rest := by
  rw [segmentsFrom_append (.inl hacc) hdot, segmentsFrom_dot (.inl (by simp [hacc])),
    List.reverse_append, List.reverse_reverse]

/-! ## Pieces that are segments -/

/-- A piece that is one segment, by itself and in front of a dot. -/
structure IsSegment (left right : Char) (piece : List Char) : Prop where
  alone : segments left right piece = [piece]
  beforeDot (rest : List Char) :
    segments left right (piece ++ '.' :: rest) = piece :: segments left right rest

/-- Pieces that are segments are found again where they have been joined. -/
theorem segments_joinWith {pieces : List (List Char)} (hne : pieces ≠ [])
    (h : ∀ piece ∈ pieces, IsSegment left right piece) :
    segments left right (joinWith '.' pieces) = pieces := by
  induction pieces with
  | nil => exact absurd rfl hne
  | cons piece pieces ih =>
    obtain ⟨hpiece, hpieces⟩ := List.forall_mem_cons.1 h
    by_cases hlast : pieces = []
    · rw [hlast]
      exact hpiece.alone
    · rw [joinWith_cons hlast, hpiece.beforeDot, ih hlast hpieces]

/-- A piece without dots that no quote starts. -/
theorem IsSegment.plain {piece : List Char} (hdot : '.' ∉ piece) (hhead : piece.head? ≠ some left)
    (hleft : left ≠ '.') : IsSegment left right piece := by
  constructor
  · rw [segments, ← List.append_nil piece, segmentsFrom_append (.inr hhead) hdot, segmentsFrom]
    simp
  · intro rest
    rw [segments, segmentsFrom_append (.inr hhead) hdot, segmentsFrom_dot (.inr hleft)]
    simp

/-! ## Segments in quotes -/

/-- What is in front of the first closing quote, if there is one. -/
theorem exists_front (right : Char) (cs : List Char) :
    ∃ front, right ∉ front ∧ cs = front ++ cs.dropWhile (· != right) ∧
      (cs.dropWhile (· != right) = [] ∨ ∃ behind, cs.dropWhile (· != right) = right :: behind) := by
  refine ⟨cs.takeWhile (· != right), fun hmem => ?_, List.takeWhile_append_dropWhile.symm, ?_⟩
  · simpa using List.all_eq_true.1 List.all_takeWhile right hmem
  · cases hdrop : cs.dropWhile (· != right) with
    | nil => exact .inl rfl
    | cons c behind =>
      have hhead := List.head?_dropWhile_not (· != right) cs
      rw [hdrop] at hhead
      obtain rfl : c = right := by simpa using hhead
      exact .inr ⟨behind, rfl⟩

/-- A segment in quotes is closed at its first closing quote; what follows
there has the characters of what is quoted from its first closing quote on. -/
theorem quoteSegment_eq_append (left right : Char) (cs : List Char) :
    ∃ front tail, right ∉ front ∧ quoteSegment left right cs = left :: (front ++ right :: tail) ∧
      ∀ c, c ∈ tail ↔ c ∈ cs.dropWhile (· != right) := by
  obtain ⟨front, hfront, hsplit, hnone | ⟨behind, hsome⟩⟩ := exists_front right cs
  · rw [hnone, List.append_nil] at hsplit
    refine ⟨front, [], hfront, ?_, fun c => by rw [hnone]⟩
    rw [quoteSegment, hsplit, double_of_not_mem hfront]
    rfl
  · refine ⟨front, right :: (double right behind ++ [right]), hfront, ?_, fun c => ?_⟩
    · rw [hsplit, hsome, quoteSegment, double_append, double_of_not_mem hfront, double_cons_self]
      simp
    · rw [hsome]
      simp [mem_double_iff, or_comm]

/-- A segment in quotes is cut like what follows its first closing quote. -/
theorem segments_quoted {front : List Char} (h : right ∉ front) (rest : List Char) :
    segments left right (left :: (front ++ right :: rest)) =
      segmentsFrom left right (right :: (front.reverse ++ [left])) false rest := by
  rw [segments, segmentsFrom, if_neg Bool.false_ne_true, if_pos ⟨rfl, rfl⟩, segmentsFrom_quoted h]

/-- A segment in quotes in which no dot is behind a closing quote. -/
theorem IsSegment.quoteSegment {cs : List Char} (h : '.' ∉ cs.dropWhile (· != right)) :
    IsSegment left right (quoteSegment left right cs) := by
  obtain ⟨front, tail, hfront, htext, hmem⟩ := quoteSegment_eq_append left right cs
  have hdot : '.' ∉ tail := mt (hmem '.').1 h
  rw [htext]
  constructor
  · rw [segments_quoted hfront, segmentsFrom_begun (List.cons_ne_nil _ _) hdot]
    simp
  · intro rest
    rw [List.cons_append, List.append_assoc, List.cons_append, segments_quoted hfront,
      segmentsFrom_begun_dot (List.cons_ne_nil _ _) hdot]
    simp

/-- A segment in quotes is one segment just if no dot is behind a closing
quote. -/
theorem segments_quoteSegment {cs : List Char} :
    segments left right (quoteSegment left right cs) = [quoteSegment left right cs] ↔
      '.' ∉ cs.dropWhile (· != right) := by
  refine ⟨fun halone hmem => ?_, fun h => (IsSegment.quoteSegment h).alone⟩
  obtain ⟨front, tail, hfront, htext, hiff⟩ := quoteSegment_eq_append left right cs
  obtain ⟨before, after, rfl, hbefore⟩ := List.eq_append_cons_of_mem ((hiff '.').2 hmem)
  rw [htext, segments_quoted hfront,
    segmentsFrom_begun_dot (List.cons_ne_nil _ _) hbefore] at halone
  exact segments_ne_nil _ _ _ (List.cons.inj halone).2

/-! ## Names of several segments -/

namespace Dialect

variable {d : Dialect}

/-- A segment that no quote starts is put between quotes unless it is the
star. -/
theorem writtenSegment_eq {segment : List Char} (h : segment.head? ≠ some d.leftQuote) :
    d.writtenSegment segment =
      if segment = ['*'] then ['*'] else quoteSegment d.leftQuote d.rightQuote segment := by
  rw [writtenSegment, isQuoted_of_head?_ne h]
  by_cases hstar : segment = ['*'] <;> simp [hstar]

/-- Written as it is, a segment stays as it is. -/
theorem writtenSegment_writtenSegment (segment : List Char) :
    d.writtenSegment (d.writtenSegment segment) = d.writtenSegment segment := by
  by_cases h : segment = ['*'] ∨ isQuoted d.leftQuote d.rightQuote segment
  · have hkept : d.writtenSegment segment = segment := if_pos h
    rw [hkept, hkept]
  · have hquoted : d.writtenSegment segment = SqlTree.quoteSegment d.leftQuote d.rightQuote segment :=
      if_neg h
    rw [hquoted, writtenSegment, if_pos (.inr (isQuoted_quoteSegment _ _ _))]

/-- Without its quotes a written segment is what it was. -/
theorem unquoteSegment_writtenSegment {segment : List Char}
    (h : segment.head? ≠ some d.leftQuote) :
    unquoteSegment d.leftQuote d.rightQuote (d.writtenSegment segment) = segment := by
  rw [writtenSegment_eq h]
  split
  · next hstar => rw [hstar]; rfl
  · exact unquoteSegment_quoteSegment _ _ _

/-- A segment without dots that no quote starts is written as a segment. -/
theorem isSegment_writtenSegment {segment : List Char} (hdot : '.' ∉ segment)
    (hhead : segment.head? ≠ some d.leftQuote) (hleft : d.leftQuote ≠ '.') :
    IsSegment d.leftQuote d.rightQuote (d.writtenSegment segment) := by
  rw [writtenSegment_eq hhead]
  split
  · next hstar => exact .plain (by decide) (hstar ▸ hhead) hleft
  · exact .quoteSegment fun hmem => hdot ((List.dropWhile_sublist _).mem hmem)

/-- A name of pieces that no quote starts has its quotes taken off again, and
once quoted it stays as it is. -/
theorem unquote_quoteIdentifier (d : Dialect) (hleft : d.leftQuote ≠ '.') (s : String)
    (h : ∀ piece ∈ splitAt '.' s.toList, piece.head? ≠ some d.leftQuote) :
    d.unquote (d.quoteIdentifier s) = s ∧
      d.quoteIdentifier (d.quoteIdentifier s) = d.quoteIdentifier s := by
  have hdot : ∀ piece ∈ splitAt '.' s.toList, '.' ∉ piece := fun _ => not_mem_of_mem_splitAt
  have hcut : segments d.leftQuote d.rightQuote s.toList = splitAt '.' s.toList := by
    have hjoined : segments d.leftQuote d.rightQuote (joinWith '.' (splitAt '.' s.toList)) =
        splitAt '.' s.toList :=
      segments_joinWith (splitAt_ne_nil _ _) fun piece hpiece =>
        .plain (hdot piece hpiece) (h piece hpiece) hleft
    rwa [joinWith_splitAt] at hjoined
  have hwritten : d.writtenSegments s = (splitAt '.' s.toList).map d.writtenSegment := by
    rw [writtenSegments, hcut]
  have hagain : segments d.leftQuote d.rightQuote (d.quoteIdentifier s).toList =
      d.writtenSegments s := by
    rw [toList_quoteIdentifier]
    refine segments_joinWith (d.writtenSegments_ne_nil s) ?_
    rw [hwritten]
    exact List.forall_mem_map.2 fun piece hpiece =>
      isSegment_writtenSegment (hdot piece hpiece) (h piece hpiece) hleft
  constructor
  · have hback : (d.writtenSegments s).map (unquoteSegment d.leftQuote d.rightQuote) =
        splitAt '.' s.toList := by
      rw [hwritten, List.map_map]
      exact (List.map_congr_left fun piece hpiece =>
        unquoteSegment_writtenSegment (h piece hpiece)).trans (List.map_id' _)
    rw [unquote, hagain, hback, joinWith_splitAt, String.ofList_toList]
  · have hsame : d.writtenSegments (d.quoteIdentifier s) = d.writtenSegments s := by
      rw [writtenSegments, hagain, writtenSegments, List.map_map]
      exact List.map_congr_left fun segment _ => writtenSegment_writtenSegment segment
    rw [← String.toList_inj, toList_quoteIdentifier, toList_quoteIdentifier, hsame]

/-- Empty segments, a star and closing quotes in all places. -/
theorem unquote_quoteIdentifier_of_brackets :
    let d := Dialect.sqlServer
    let s := "a]].].*..]b["
    d.leftQuote ≠ '.' ∧ (∀ piece ∈ splitAt '.' s.toList, piece.head? ≠ some d.leftQuote) ∧
      d.quoteIdentifier s = "[a]]]]].[]]].*.[].[]]b[]" ∧ d.unquote (d.quoteIdentifier s) = s ∧
      d.quoteIdentifier (d.quoteIdentifier s) = d.quoteIdentifier s := by
  intro d s
  have hleft : d.leftQuote ≠ '.' := by decide
  have hpieces : ∀ piece ∈ splitAt '.' s.toList, piece.head? ≠ some d.leftQuote := by decide +kernel
  exact ⟨hleft, hpieces, by decide +kernel, d.unquote_quoteIdentifier hleft s hpieces⟩

end Dialect

end SqlTree
