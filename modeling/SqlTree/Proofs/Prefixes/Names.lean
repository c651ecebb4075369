import SqlTree.Proofs.Positional.Requoting
import SqlTree.Proofs.Verbatim.Dots

/-!
# SqlTree.Proofs.Prefixes.Names

The names that the pass over prefixes looks for.  Of those that a text
starts with it takes the longest (`leadingName_eq_some_iff`), which does not
depend on the order of the names nor on how often they are listed.  What it
writes for a name are the words of the name between quotes, with dots between
them and perhaps a star at the end (`WrittenName`), and when this is read
again, it is copied (`WrittenName.quotePrefixesFrom_append`).
-/

namespace SqlTree

variable {d : Dialect} {names : List (List Char)}

/-! ## The longest name -/

/-- The name qualifies what comes behind it at the start of the text. -/
def Qualifies (name cs : List Char) : Prop := name ≠ [] ∧ (name ++ ['.']) <+: cs

/-- One step of the search for the longest name. -/
def longer (cs : List Char) (best : Option (List Char)) (name : List Char) : Option (List Char) :=
  if name ≠ [] ∧ (name ++ ['.']).isPrefixOf cs then
    match best with
    | some b => if b.length < name.length then some name else best
    | none => some name
  else best

/-- A name of at least this length. -/
def HasLength (n : Nat) (found : Option (List Char)) : Prop := ∃ f, found = some f ∧ n ≤ f.length

theorem hasLength_longer {cs name : List Char} {best : Option (List Char)} :
    (∀ n, HasLength n best → HasLength n (longer cs best name)) ∧
      (Qualifies name cs → HasLength name.length (longer cs best name)) := by
  constructor
  · rintro n ⟨b, rfl, hn⟩
    simp only [longer]
    split
    · split
      · exact ⟨name, rfl, by omega⟩
      · exact ⟨b, rfl, hn⟩
    · exact ⟨b, rfl, hn⟩
  · rintro ⟨hne, hprefix⟩
    have hfits : name ≠ [] ∧ (name ++ ['.']).isPrefixOf cs = true :=
      ⟨hne, List.isPrefixOf_iff_prefix.2 hprefix⟩
    simp only [longer, if_pos hfits]
    cases best with
    | none => exact ⟨name, rfl, Nat.le_refl _⟩
    | some b =>
      dsimp only
      split
      · exact ⟨name, rfl, Nat.le_refl _⟩
      · exact ⟨b, rfl, by omega⟩

/-- What the search finds is no shorter than any name that it has met. -/
theorem hasLength_foldl (cs : List Char) (names : List (List Char)) (best : Option (List Char)) :
    (∀ n, HasLength n best → HasLength n (names.foldl (longer cs) best)) ∧
      ∀ name ∈ names, Qualifies name cs → HasLength name.length (names.foldl (longer cs) best) := by
  induction names generalizing best with
  | nil => exact ⟨fun n h => h, nofun⟩
  | cons name names ih =>
    obtain ⟨hbest, hnames⟩ := ih (longer cs best name)
    rw [List.foldl_cons, List.forall_mem_cons]
    exact ⟨fun n h => hbest n (hasLength_longer.1 n h),
      fun h => hbest _ (hasLength_longer.2 h), hnames⟩

/-- What the search finds is one of the names, unless it is what it started
with. -/
theorem foldl_longer_cases (cs : List Char) (names : List (List Char)) (best : Option (List Char))
    {f : List Char} (h : names.foldl (longer cs) best = some f) :
    best = some f ∨ (f ∈ names ∧ Qualifies f cs) := by
  induction names generalizing best with
  | nil => exact .inl h
  | cons name names ih =>
    rcases ih _ h with hstep | ⟨hmem, hfits⟩
    · simp only [longer] at hstep
      split at hstep
      · next hfits =>
        have hname : name ∈ name :: names ∧ Qualifies name cs :=
          ⟨List.mem_cons_self, hfits.1, List.isPrefixOf_iff_prefix.1 hfits.2⟩
        split at hstep
        · split at hstep
          · exact .inr (Option.some.inj hstep ▸ hname)
          · exact .inl hstep
        · exact .inr (Option.some.inj hstep ▸ hname)
      · exact .inl hstep
    · exact .inr ⟨List.mem_cons_of_mem _ hmem, hfits⟩

/-- A text has one prefix of each length. -/
theorem Qualifies.eq_of_length {name other cs : List Char} (h : Qualifies name cs)
    (h' : Qualifies other cs) (hlength : name.length = other.length) : name = other := by
  have hdot := List.prefix_of_prefix_length_le h.2 h'.2 (by simp [hlength])
  have hsame := hdot.eq_of_length (by simp [hlength])
  exact List.append_inj_left' hsame rfl

theorem exists_leadingName {cs name : List Char} (hname : name ∈ names) (h : Qualifies name cs) :
    ∃ found, leadingName names cs = some found ∧ name.length ≤ found.length :=
  (hasLength_foldl cs names none).2 name hname h

/-- The name found is the longest of those that qualify the text. -/
theorem leadingName_eq_some_iff {cs name : List Char} : leadingName names cs = some name ↔
    name ∈ names ∧ Qualifies name cs ∧
      ∀ other ∈ names, Qualifies other cs → other.length ≤ name.length := by
  have hfound {f : List Char} (h : leadingName names cs = some f) : f ∈ names ∧ Qualifies f cs :=
    (foldl_longer_cases cs names none h).resolve_left nofun
  constructor
  · intro h
    refine ⟨(hfound h).1, (hfound h).2, fun other hother hfits => ?_⟩
    obtain ⟨f, hf, hlength⟩ := exists_leadingName hother hfits
    cases hf.symm.trans h
    exact hlength
  · rintro ⟨hname, hfits, hlongest⟩
    obtain ⟨f, hf, hlength⟩ := exists_leadingName hname hfits
    obtain ⟨hmem, hfits'⟩ := hfound hf
    have hsame : f.length = name.length := Nat.le_antisymm (hlongest f hmem hfits') hlength
    rw [hf, hfits'.eq_of_length hfits hsame]

/-- Neither the order of the names matters nor how often they are listed. -/
theorem leadingName_eq_of_mem_iff {names' : List (List Char)}
    (h : ∀ name, name ∈ names ↔ name ∈ names') (cs : List Char) :
    leadingName names cs = leadingName names' cs := by
  refine Option.ext fun name => ?_
  rw [leadingName_eq_some_iff, leadingName_eq_some_iff]
  simp only [h]

/-- So the pass is the same for all lists of the same names. -/
theorem Dialect.quotePrefixesFrom_eq_of_mem_iff {names' : List (List Char)}
    (h : ∀ name, name ∈ names ↔ name ∈ names') (s : Scan) (cs : List Char) :
    d.quotePrefixesFrom names s cs = d.quotePrefixesFrom names' s cs := by
  induction cs generalizing s with
  | nil => simp only [quotePrefixesFrom]
  | cons c cs ih =>
    cases s <;> simp only [quotePrefixesFrom, ih, leadingName_eq_of_mem_iff h]

/-! ## Written names -/

/-- A name and what is written for it: words between quotes with dots between
them, and in the last place perhaps a star. -/
inductive WrittenName (d : Dialect) : List Char → List Char → Prop where
  | star : WrittenName d ['*'] ['*']
  | word {w : List Char} (hw : isWord w = true) :
      WrittenName d w (d.leftQuote :: (w ++ [d.rightQuote]))
  | dotted {w name written : List Char} (hw : isWord w = true) (h : WrittenName d name written) :
      WrittenName d (w ++ '.' :: name) (d.leftQuote :: (w ++ d.rightQuote :: '.' :: written))

/-- The quotes can be told from each other and from what names and markers
are made of. -/
structure Dialect.QuotesNames (d : Dialect) : Prop extends d.QuotesNoName where
  differ : d.leftQuote ≠ d.valueQuote
  valueColon : d.valueQuote ≠ ':'
  leftColon : d.leftQuote ≠ ':'

theorem Dialect.quotesNames (hvalue : d.valueQuote = '\'') (hquotes : d.HasUsualQuotes) :
    d.QuotesNames := by
  simp only [HasUsualQuotes, List.mem_cons, Prod.mk.injEq, List.not_mem_nil, or_false] at hquotes
  rcases hquotes with ⟨hleft, hright⟩ | ⟨hleft, hright⟩ | ⟨hleft, hright⟩ <;>
    constructor <;> first | constructor | skip
  all_goals simp only [hvalue, hleft, hright]; decide

namespace Dialect.QuotesNames

variable (hd : d.QuotesNames)

include hd

theorem closer?_left : d.closer? d.leftQuote = some d.rightQuote := by
  rw [closer?, if_neg hd.differ, if_pos rfl]

theorem closer?_name {c : Char} (hc : isNameChar c = true) : d.closer? c = none := by
  refine closer?_eq_none ?_ ?_
  · rintro rfl
    rw [hd.value] at hc
    cases hc
  · rintro rfl
    rw [hd.left] at hc
    cases hc

theorem right_not_mem {w : List Char} (hw : isWord w = true) : d.rightQuote ∉ w := by
  intro hmem
  have hname := List.all_eq_true.1 (all_isNameChar_of_isWord hw) _ hmem
  rw [hd.right] at hname
  cases hname

theorem written_word {w : List Char} (hw : isWord w = true) :
    d.writtenSegment w = d.leftQuote :: (w ++ [d.rightQuote]) := by
  rw [hd.writtenSegment_word hw, quoteSegment, double_of_not_mem (hd.right_not_mem hw)]
  rfl

theorem writtenName_of_isPath {pieces : List (List Char)} (h : isPath pieces = true) :
    WrittenName d (joinWith '.' pieces) (joinWith '.' (pieces.map d.writtenSegment)) := by
  have hlast {piece : List Char} (hpiece : (isWord piece || piece == ['*']) = true) :
      WrittenName d piece (d.writtenSegment piece) := by
    rcases Bool.or_eq_true_iff.1 hpiece with hword | hstar
    · rw [hd.written_word hword]
      exact .word hword
    · rw [eq_of_beq hstar, writtenSegment_star]
      exact .star
  have hdotted {piece name written : List Char} (hpiece : isWord piece = true)
      (h : WrittenName d name written) :
      WrittenName d (piece ++ '.' :: name) (d.writtenSegment piece ++ '.' :: written) := by
    rw [hd.written_word hpiece]
    simpa using h.dotted hpiece
  fun_induction isPath pieces with
  | case1 => cases h
  | case2 piece => exact hlast (Bool.or_eq_true_iff.2 (.inl h))
  | case3 piece last =>
    obtain ⟨hpiece, h⟩ := Bool.and_eq_true_iff.1 h
    exact hdotted hpiece (hlast h)
  | case4 piece pieces _ _ ih =>
    obtain ⟨hpiece, hpieces⟩ := Bool.and_eq_true_iff.1 h
    have hne : pieces ≠ [] := by
      rintro rfl
      cases hpieces
    rw [List.map_cons, joinWith_cons hne, joinWith_cons (mt List.map_eq_nil_iff.1 hne)]
    exact hdotted hpiece (ih hpieces)

/-- This is what is written for an identifier. -/
theorem writtenName (i : Identifier) :
    WrittenName d i.text.toList (d.quoteIdentifier i.text).toList := by
  have hleft := hd.left_not_mem (Bool.and_eq_true_iff.1 i.isName_text).1
  rw [toList_quoteIdentifier, writtenSegments, segments_of_not_mem hleft]
  have hvalid := i.valid
  rw [isIdentifierText, Bool.or_eq_true] at hvalid
  rcases hvalid with hstar | hpath
  · rw [eq_of_beq hstar]
    exact .star
  · have hname := hd.writtenName_of_isPath hpath
    rwa [joinWith_splitAt] at hname

end Dialect.QuotesNames

/-! ## Written names read again -/

/-- The names are names of identifiers. -/
def AreIdentifiers (names : List (List Char)) : Prop :=
  ∀ name ∈ names, ∃ i : Identifier, i.text.toList = name

theorem AreIdentifiers.isName (h : AreIdentifiers names) :
    ∀ name ∈ names, isName (String.ofList name) = true := by
  intro name hname
  obtain ⟨i, rfl⟩ := h name hname
  rw [String.ofList_toList]
  exact i.isName_text

theorem AreIdentifiers.writtenName (h : AreIdentifiers names) (hd : d.QuotesNames)
    {name : List Char} (hname : name ∈ names) :
    WrittenName d name (d.quoteIdentifier (String.ofList name)).toList := by
  obtain ⟨i, rfl⟩ := h name hname
  rw [String.ofList_toList]
  exact hd.writtenName i

section

variable (hd : d.QuotesNames) (hnames : AreIdentifiers names)

include hd hnames

/-- A dot starts no name. -/
theorem quotePrefixesFrom_dot (previous : Option Char) (rest : List Char) :
    d.quotePrefixesFrom names (.outside previous) ('.' :: rest) =
      '.' :: d.quotePrefixesFrom names (.outside (some '.')) rest :=
  Dialect.quotePrefixesFrom_plain (hd.closer?_name (by decide))
    fun _ => leadingName_dot hnames.isName

/-- A star in front of a dot is copied, whether it is a name or not. -/
theorem quotePrefixesFrom_star (previous : Option Char) (rest : List Char) :
    d.quotePrefixesFrom names (.outside previous) ('*' :: '.' :: rest) =
      '*' :: '.' :: d.quotePrefixesFrom names (.outside (some '.')) rest := by
  have hclose : d.closer? '*' = none := hd.closer?_name (by decide)
  rcases d.outside_cases names previous '*' ('.' :: rest) with
    ⟨close, hopened⟩ | ⟨-, hprevious, name, tail, hmem, hname, htext⟩ | ⟨-, hname⟩
  · rw [hclose] at hopened
    cases hopened
  · rw [Dialect.quotePrefixesFrom_name hclose hprevious hname htext]
    rcases isName_cases (hnames.isName name hmem) with rfl | ⟨x, xs, rfl, hx⟩
    · have hleft : d.leftQuote ≠ '*' := by
        intro hstar
        have hnot := hd.left
        rw [hstar] at hnot
        exact absurd hnot (by decide)
      obtain rfl : rest = tail := (List.cons.inj (List.cons.inj htext).2).2
      rw [Dialect.quoteIdentifier_star hleft]
      rfl
    · have hstar : x = '*' := (List.cons.inj htext).1.symm
      rw [hstar] at hx
      exact absurd hx (by decide)
  · rw [Dialect.quotePrefixesFrom_plain hclose hname, quotePrefixesFrom_dot hd hnames]

/-- A written name is copied, as its words are in quotes. -/
theorem WrittenName.quotePrefixesFrom_append {name written : List Char}
    (h : WrittenName d name written) (previous : Option Char) (rest : List Char) :
    d.quotePrefixesFrom names (.outside previous) (written ++ '.' :: rest) =
      written ++ '.' :: d.quotePrefixesFrom names (.outside (some '.')) rest := by
  have hregion {w : List Char} (hw : isWord w = true) (previous : Option Char) (t : List Char) :
      d.quotePrefixesFrom names (.outside previous) (d.leftQuote :: (w ++ d.rightQuote :: '.' :: t)) =
        d.leftQuote :: (w ++ d.rightQuote :: '.' ::
          d.quotePrefixesFrom names (.outside (some '.')) t) := by
    rw [Dialect.quotePrefixesFrom_opened hd.closer?_left,
      Dialect.quotePrefixesFrom_inside w (hd.right_not_mem hw), Dialect.quotePrefixesFrom,
      Scan.advanceInside, if_pos rfl, quotePrefixesFrom_dot hd hnames]
  induction h generalizing previous with
  | star => exact quotePrefixesFrom_star hd hnames previous rest
  | word hw => simpa using hregion hw previous rest
  | @dotted w name written hw _ ih =>
    have hword := hregion hw previous (written ++ '.' :: rest)
    rw [ih] at hword
    simpa using hword

end

end SqlTree
