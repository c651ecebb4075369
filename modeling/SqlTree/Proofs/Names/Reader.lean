import SqlTree.Proofs.Names.Segments
import SqlTree.Proofs.Shipped

/-!
# SqlTree.Proofs.Names.Reader

Quoted names as SQL reads them.  A name in quotes goes up to the first
closing quote that is not doubled; names and stars may follow one another
with dots between them (`readParts`).  What is read as one name is an opening
quote, a body in which each closing quote is doubled, and a closing quote
(`readParts_eq_name_iff`).  Text is quoted into this form except that what
has quotes around it already is kept, whether it is one name or not
(`Dialect.readParts_quoted`).
-/

namespace SqlTree

variable {left right : Char}

/-! ## Names in quotes -/

/-- Each closing quote has another one behind it. -/
def closingDoubled (right : Char) : List Char → Bool
  | [] => true
  | [c] => c != right
  | c :: c' :: cs =>
    if c = right then c' == right && closingDoubled right cs else closingDoubled right (c' :: cs)

/-- An opening quote, a body in which each closing quote is doubled, and a
closing quote. -/
def IsQuotedName (left right : Char) (cs : List Char) : Prop :=
  ∃ body, cs = left :: (body ++ [right]) ∧ closingDoubled right body = true

/-- What has quotes around it is one name in quotes. -/
def QuotedAsOne (left right : Char) (cs : List Char) : Prop :=
  isQuoted left right cs = true → IsQuotedName left right cs

theorem closingDoubled_double (right : Char) (name : List Char) :
    closingDoubled right (double right name) = true := by
  induction name with
  | nil => rfl
  | cons c name ih =>
    by_cases hc : c = right
    · rw [hc, double_cons_self, closingDoubled, if_pos rfl, ih, beq_self_eq_true]
      rfl
    · rw [double_cons_of_ne hc]
      cases hdouble : double right name with
      | nil => simpa [closingDoubled] using hc
      | cons d ds => rw [closingDoubled, if_neg hc, ← hdouble, ih]

theorem double_undouble {body : List Char} (h : closingDoubled right body = true) :
    double right (undouble right body) = body := by
  fun_induction closingDoubled right body with
  | case1 => rfl
  | case2 c =>
    have hc : c ≠ right := by simpa using h
    rw [undouble, double_cons_of_ne hc]
    · rfl
    · intros; simp_all
  | case3 c' cs ih =>
    obtain ⟨hc', hcs⟩ := Bool.and_eq_true_iff.1 h
    obtain rfl : c' = right := by simpa using hc'
    rw [undouble, if_pos ⟨rfl, rfl⟩, double_cons_self, ih hcs]
  | case4 c c' cs hc ih => rw [undouble, if_neg fun hboth => hc hboth.1, double_cons_of_ne hc, ih h]

/-- These are the segments that are quoted. -/
theorem isQuotedName_iff_exists {cs : List Char} :
    IsQuotedName left right cs ↔ ∃ name, cs = quoteSegment left right name := by
  constructor
  · rintro ⟨body, rfl, hbody⟩
    refine ⟨undouble right body, ?_⟩
    rw [quoteSegment, double_undouble hbody]
    rfl
  · rintro ⟨name, rfl⟩
    exact ⟨double right name, rfl, closingDoubled_double right name⟩

theorem isQuotedName_iff {cs : List Char} :
    IsQuotedName left right cs ↔
      isQuoted left right cs = true ∧ closingDoubled right cs.tail.dropLast = true := by
  constructor
  · rintro ⟨body, rfl, hbody⟩
    refine ⟨?_, by rwa [List.tail_cons, List.dropLast_concat]⟩
    rw [isQuoted, ← List.cons_append, List.getLast?_concat]
    simp
  · rintro ⟨hquoted, hbody⟩
    simp only [isQuoted, Bool.and_eq_true, decide_eq_true_eq, beq_iff_eq] at hquoted
    obtain ⟨⟨hlength, hhead⟩, hlast⟩ := hquoted
    obtain ⟨cs, rfl⟩ := List.head?_eq_some_iff.1 hhead
    rcases List.eq_nil_or_concat' cs with rfl | ⟨body, last, rfl⟩
    · exact absurd hlength (by simp)
    · rw [← List.cons_append, List.getLast?_concat, Option.some.injEq] at hlast
      rw [List.tail_cons, List.dropLast_concat] at hbody
      exact ⟨body, by rw [hlast], hbody⟩

instance (left right : Char) (cs : List Char) : Decidable (IsQuotedName left right cs) :=
  decidable_of_iff _ isQuotedName_iff.symm

/-! ## Reading names -/

/-- A part of a name. -/
inductive NamePart where
  | star
  | name (chars : List Char)
deriving DecidableEq

/-- Where a reader of names stands: in front of a part, behind a star, in a
name, or behind a closing quote that ends the name unless it is doubled. -/
inductive NamePlace where
  | start
  | star
  | inside (chars : List Char)
  | closed (chars : List Char)

/-- The parts of a name that is all of the text. -/
def readParts (left right : Char) : NamePlace → List Char → Option (List NamePart)
  | .start, [] => none
  | .start, c :: cs =>
    if c = left then readParts left right (.inside []) cs
    else if c = '*' then readParts left right .star cs
    else none
  | .star, [] => some [.star]
  | .star, c :: cs =>
    if c = '.' then (readParts left right .start cs).map (.star :: ·) else none
  | .inside _, [] => none
  | .inside chars, c :: cs =>
    if c = right then readParts left right (.closed chars) cs
    else readParts left right (.inside (chars ++ [c])) cs
  | .closed chars, [] => some [.name chars]
  | .closed chars, c :: cs =>
    if c = right then readParts left right (.inside (chars ++ [c])) cs
    else if c = '.' then (readParts left right .start cs).map (.name chars :: ·)
    else none

theorem readParts_double (chars name rest : List Char) :
    readParts left right (.inside chars) (double right name ++ right :: rest) =
      readParts left right (.closed (chars ++ name)) rest := by
  induction name generalizing chars with
  | nil => simp [double, readParts]
  | cons c name ih =>
    by_cases hc : c = right
    · rw [hc, double_cons_self, List.cons_append, List.cons_append, readParts, if_pos rfl, readParts,
        if_pos rfl, ih]
      simp
    · rw [double_cons_of_ne hc, List.cons_append, readParts, if_neg hc, ih]
      simp

/-- A quoted segment is read as its name, up to the closing quote. -/
theorem readParts_quoteSegment (name rest : List Char) :
    readParts left right .start (quoteSegment left right name ++ rest) =
      readParts left right (.closed name) rest := by
  have htext : quoteSegment left right name ++ rest =
      left :: (double right name ++ right :: rest) := by simp [quoteSegment]
  rw [htext, readParts, if_pos rfl]
  exact readParts_double [] name rest

theorem readParts_ne_nil (place : NamePlace) (cs : List Char) :
    readParts left right place cs ≠ some [] := by
  fun_induction readParts left right place cs <;> simp_all

/-- Behind a dot there is another part. -/
theorem map_readParts_ne (part part' : NamePart) (cs : List Char) :
    (readParts left right .start cs).map (part :: ·) ≠ some [part'] := by
  intro h
  obtain ⟨parts, hparts, hcons⟩ := Option.map_eq_some_iff.1 h
  rw [(List.cons.inj hcons).2] at hparts
  exact readParts_ne_nil _ _ hparts

/-- What is read to its end as one name, from the inside of its quotes or
from behind a closing quote. -/
theorem eq_double_of_readParts {name cs : List Char} (chars : List Char) :
    (readParts left right (.inside chars) cs = some [.name name] →
      ∃ more, name = chars ++ more ∧ cs = double right more ++ [right]) ∧
    (readParts left right (.closed chars) cs = some [.name name] →
      ∃ more, name = chars ++ more ∧ right :: cs = double right more ++ [right]) := by
  induction cs generalizing chars with
  | nil =>
    refine ⟨(nomatch ·), fun h => ⟨[], ?_, rfl⟩⟩
    simpa [readParts, eq_comm] using h
  | cons c cs ih =>
    constructor
    · intro h
      rw [readParts] at h
      split at h
      · next hc =>
        obtain ⟨more, hname, hcs⟩ := (ih chars).2 h
        exact ⟨more, hname, hc ▸ hcs⟩
      · next hc =>
        obtain ⟨more, rfl, rfl⟩ := (ih _).1 h
        exact ⟨c :: more, by simp, by rw [double_cons_of_ne hc]; rfl⟩
    · intro h
      rw [readParts] at h
      split at h
      · next hc =>
        obtain ⟨more, rfl, rfl⟩ := (ih _).1 h
        exact ⟨c :: more, by simp, by rw [hc, double_cons_self]; rfl⟩
      · split at h
        · exact absurd h (map_readParts_ne _ _ _)
        · cases h

/-- What is read as one name is that name in quotes. -/
theorem readParts_eq_name_iff {cs name : List Char} :
    readParts left right .start cs = some [.name name] ↔ cs = quoteSegment left right name := by
  constructor
  · intro h
    cases cs with
    | nil => cases h
    | cons c cs =>
      rw [readParts] at h
      split at h
      · next hc =>
        obtain ⟨more, rfl, rfl⟩ := (eq_double_of_readParts []).1 h
        rw [hc]
        rfl
      · split at h
        · cases cs with
          | nil => cases h
          | cons c cs =>
            rw [readParts] at h
            split at h
            · exact absurd h (map_readParts_ne _ _ _)
            · cases h
        · cases h
  · rintro rfl
    rw [← List.append_nil (quoteSegment left right name), readParts_quoteSegment, readParts]

/-! ## Names of several parts -/

/-- The part that a segment stands for. -/
def partOf (left right : Char) (segment : List Char) : NamePart :=
  if segment = ['*'] then .star else .name (unquoteSegment left right segment)

/-- A piece is read as one part, by itself and in front of a dot. -/
structure IsPart (left right : Char) (piece : List Char) (part : NamePart) : Prop where
  alone : readParts left right .start piece = some [part]
  beforeDot (rest : List Char) : readParts left right .start (piece ++ '.' :: rest) =
    (readParts left right .start rest).map (part :: ·)

theorem IsPart.star (hleft : left ≠ '*') : IsPart left right ['*'] .star := by
  constructor <;> simp [readParts, hleft.symm]

theorem IsPart.name (hright : right ≠ '.') (name : List Char) :
    IsPart left right (quoteSegment left right name) (.name name) := by
  refine ⟨readParts_eq_name_iff.2 rfl, fun rest => ?_⟩
  rw [readParts_quoteSegment, readParts, if_neg hright.symm, if_pos rfl]

/-- Parts with dots between them are read one after the other. -/
theorem readParts_joinWith {α : Type} {written : α → List Char} {part : α → NamePart}
    {segments : List α} (hne : segments ≠ [])
    (h : ∀ segment ∈ segments, IsPart left right (written segment) (part segment)) :
    readParts left right .start (joinWith '.' (segments.map written)) = some (segments.map part) := by
  induction segments with
  | nil => exact absurd rfl hne
  | cons segment segments ih =>
    obtain ⟨hsegment, hsegments⟩ := List.forall_mem_cons.1 h
    by_cases hlast : segments = []
    · rw [hlast]
      exact hsegment.alone
    · rw [List.map_cons, joinWith_cons (mt List.map_eq_nil_iff.1 hlast), hsegment.beforeDot,
        ih hlast hsegments]
      rfl

/-! ## Names as they are quoted -/

theorem isQuotedName_withQuotes {cs : List Char} :
    IsQuotedName left right (withQuotes left right cs) ↔ QuotedAsOne left right cs := by
  rw [withQuotes, QuotedAsOne]
  split
  · next hquoted => simp [hquoted]
  · next hbare => exact iff_of_true (isQuotedName_iff_exists.2 ⟨cs, rfl⟩) fun h => absurd h hbare

theorem withQuotes_ne_star {cs : List Char} (hstar : cs ≠ ['*']) :
    withQuotes left right cs ≠ ['*'] := by
  rw [withQuotes]
  split
  · exact hstar
  · simp [quoteSegment]

/-- What becomes one name in quotes is the name without them. -/
theorem withQuotes_eq_quoteSegment {cs : List Char} (h : QuotedAsOne left right cs) :
    withQuotes left right cs = quoteSegment left right (unquoteSegment left right cs) := by
  rw [withQuotes]
  split
  · next hquoted =>
    obtain ⟨name, rfl⟩ := isQuotedName_iff_exists.1 (h hquoted)
    rw [unquoteSegment_quoteSegment]
  · next hbare => rw [unquoteSegment, if_neg hbare]

namespace Dialect

/-- A name is quoted as one name, and each segment of an identifier as one
name or a star, just if what has quotes around it already is one name in
quotes.  SQL then reads the parts that were meant. -/
theorem readParts_quoted (d : Dialect) (s : String) :
    (IsQuotedName d.leftQuote d.rightQuote (d.quoteAlias s).toList ↔
      QuotedAsOne d.leftQuote d.rightQuote s.toList) ∧
    (readParts d.leftQuote d.rightQuote .start (d.quoteAlias s).toList =
        some [.name (unquoteSegment d.leftQuote d.rightQuote s.toList)] ↔
      QuotedAsOne d.leftQuote d.rightQuote s.toList) ∧
    (d.quoteIdentifier s).toList = joinWith '.' (d.writtenSegments s) ∧
    ((∀ segment ∈ d.writtenSegments s,
        segment = ['*'] ∨ IsQuotedName d.leftQuote d.rightQuote segment) ↔
      ∀ segment ∈ segments d.leftQuote d.rightQuote s.toList,
        QuotedAsOne d.leftQuote d.rightQuote segment) ∧
    (d.leftQuote ≠ '*' → d.rightQuote ≠ '.' →
      (∀ segment ∈ segments d.leftQuote d.rightQuote s.toList,
        QuotedAsOne d.leftQuote d.rightQuote segment) →
      readParts d.leftQuote d.rightQuote .start (d.quoteIdentifier s).toList =
        some ((segments d.leftQuote d.rightQuote s.toList).map
          (partOf d.leftQuote d.rightQuote))) := by
  refine ⟨?_, ⟨fun h => ?_, fun h => ?_⟩, d.toList_quoteIdentifier s, ?_, fun hleft hright h => ?_⟩
  · rw [toList_quoteAlias]
    exact isQuotedName_withQuotes
  · rw [toList_quoteAlias] at h
    exact isQuotedName_withQuotes.1 (isQuotedName_iff_exists.2 ⟨_, readParts_eq_name_iff.1 h⟩)
  · rw [toList_quoteAlias]
    exact readParts_eq_name_iff.2 (withQuotes_eq_quoteSegment h)
  · rw [writtenSegments, List.forall_mem_map]
    refine forall₂_congr fun segment _ => ?_
    by_cases hstar : segment = ['*']
    · rw [hstar, writtenSegment_star]
      exact iff_of_true (.inl rfl) fun h => absurd h (by simp [isQuoted])
    · rw [writtenSegment_of_ne_star hstar, isQuotedName_withQuotes]
      exact or_iff_right (withQuotes_ne_star hstar)
  · rw [toList_quoteIdentifier, writtenSegments]
    refine readParts_joinWith (segments_ne_nil _ _ _) fun segment hsegment => ?_
    by_cases hstar : segment = ['*']
    · rw [hstar, writtenSegment_star]
      exact .star hleft
    · rw [writtenSegment_of_ne_star hstar, withQuotes_eq_quoteSegment (h segment hsegment), partOf,
        if_neg hstar]
      exact .name hright _

/-- A name in brackets is kept, a star stays bare, and a closing bracket is
doubled. -/
theorem readParts_quoted_of_brackets :
    let d := sqlServer
    let s := "[a.b].*.c]d"
    d.leftQuote ≠ '*' ∧ d.rightQuote ≠ '.' ∧
      (∀ segment ∈ segments d.leftQuote d.rightQuote s.toList,
        QuotedAsOne d.leftQuote d.rightQuote segment) ∧
      d.quoteIdentifier s = "[a.b].*.[c]]d]" ∧
      readParts d.leftQuote d.rightQuote .start (d.quoteIdentifier s).toList =
        some [.name "a.b".toList, .star, .name "c]d".toList] ∧
      readParts d.leftQuote d.rightQuote .start (d.quoteAlias s).toList = some [.name s.toList] := by
  intro d s
  have hleft : d.leftQuote ≠ '*' := by decide
  have hright : d.rightQuote ≠ '.' := by decide
  have hsegments : ∀ segment ∈ segments d.leftQuote d.rightQuote s.toList,
      QuotedAsOne d.leftQuote d.rightQuote segment := by
    unfold QuotedAsOne
    decide +kernel
  have hs : QuotedAsOne d.leftQuote d.rightQuote s.toList := by
    unfold QuotedAsOne
    decide +kernel
  obtain ⟨-, halias, -, -, hidentifier⟩ := d.readParts_quoted s
  exact ⟨hleft, hright, hsegments, by decide +kernel,
    (hidentifier hleft hright hsegments).trans (by decide +kernel), (halias.2 hs).trans (by decide +kernel)⟩

/-- Between the first quote and the last one there may be anything. -/
theorem quoteAlias_keeps_two_names :
    let d := ansi
    let s := "\"a\" OR \"b\""
    d.Shipped ∧ d.quoteAlias s = s ∧ d.quoteIdentifier s = s ∧
      segments d.leftQuote d.rightQuote s.toList = [s.toList] ∧
      ¬IsQuotedName d.leftQuote d.rightQuote s.toList ∧
      readParts d.leftQuote d.rightQuote .start s.toList = none := by
  intro d s
  refine ⟨.config .standard, ?_⟩
  decide +kernel

end Dialect

end SqlTree
