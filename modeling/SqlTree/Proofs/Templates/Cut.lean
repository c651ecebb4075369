import SqlTree.Expression
import SqlTree.Proofs.Capability.Tree
import SqlTree.Proofs.Markers.Scan

/-!
# SqlTree.Proofs.Templates.Cut

What the placeholders of a template are, said without reading it from left to
right.  A text has a placeholder if the word between its braces stands
anywhere in it (`HasPlaceholder`).  Two of them never overlap, as there is one
opening brace in each, so a reader that goes on behind a placeholder misses
none (`mem_slotNames_iff`), and a template is accepted with exactly the names
of its placeholders (`Expression.make_iff`).

`IsCut` cuts a text into placeholders and the texts around them, in which
there are no others.  Every text has a cut (`exists_isCut`), and it is the one
that the parts of a template are (`pieces_of_isCut`).
-/

namespace SqlTree

/-! ## Placeholders -/

/-- Somewhere in the text this word stands between braces. -/
def HasPlaceholder (name cs : List Char) : Prop :=
  isWord name = true ∧ (Piece.slot name).source <:+: cs

/-- There are no placeholders in the text. -/
def IsPlain (cs : List Char) : Prop := ∀ name, ¬HasPlaceholder name cs

theorem not_mem_of_isWord {name : List Char} (h : isWord name = true) {c : Char}
    (hc : isWordChar c = false) : c ∉ name := fun hmem => by
  rw [List.all_eq_true.1 (all_isWordChar_of_isWord h) c hmem] at hc
  cases hc

/-- A name is read just if the word stands before a closing brace. -/
theorem slotName?_eq_some_iff {cs name : List Char} :
    slotName? cs = some name ↔ isWord name = true ∧ name ++ ['\x7d'] <+: cs := by
  refine ⟨fun h => ?_, ?_⟩
  · obtain ⟨rest, rfl, hname⟩ := slotName?_eq_some h
    exact ⟨hname, rest, by rw [List.append_assoc, List.singleton_append]⟩
  · rintro ⟨hname, rest, rfl⟩
    have htake : (name ++ ['\x7d'] ++ rest).takeWhile isWordChar = name := by
      rw [List.append_assoc]
      exact takeWhile_append_of_head (all_isWordChar_of_isWord hname) rfl
    rw [slotName?, htake, hname]
    simp

/-- A placeholder in a text starts with its first character or behind it. -/
theorem hasPlaceholder_cons {name cs : List Char} {c : Char} : HasPlaceholder name (c :: cs) ↔
    (c = '\x7b' ∧ slotName? cs = some name) ∨ HasPlaceholder name cs := by
  have hprefix : (Piece.slot name).source <+: c :: cs ↔
      '\x7b' = c ∧ name ++ ['\x7d'] <+: cs := List.cons_prefix_cons
  rw [HasPlaceholder, HasPlaceholder, List.infix_cons_iff, hprefix, slotName?_eq_some_iff]
  constructor
  · rintro ⟨hname, ⟨rfl, hrest⟩ | hrest⟩
    · exact .inl ⟨rfl, hname, hrest⟩
    · exact .inr ⟨hname, hrest⟩
  · rintro (⟨rfl, hname, hrest⟩ | ⟨hname, hrest⟩)
    · exact ⟨hname, .inl ⟨rfl, hrest⟩⟩
    · exact ⟨hname, .inr hrest⟩

theorem isPlain_nil : IsPlain [] := fun name h => by
  have hnil := List.eq_nil_of_infix_nil h.2
  cases hnil

/-- None starts within characters that are no opening brace. -/
theorem hasPlaceholder_append {name w cs : List Char} (h : '\x7b' ∉ w) :
    HasPlaceholder name (w ++ cs) ↔ HasPlaceholder name cs := by
  induction w with
  | nil => rfl
  | cons c w ih =>
    obtain ⟨hc, hw⟩ := not_or.1 (mt List.mem_cons.2 h)
    rw [List.cons_append, hasPlaceholder_cons, ih hw, or_iff_right fun hopen => hc hopen.1.symm]

/-- Behind an opening brace is the placeholder that is read there, or none. -/
theorem hasPlaceholder_slot {name name' rest : List Char} (h : isWord name' = true) :
    HasPlaceholder name ((Piece.slot name').source ++ rest) ↔
      name = name' ∨ HasPlaceholder name rest := by
  have hopen : '\x7b' ∉ name' ++ ['\x7d'] := by
    simp [not_mem_of_isWord h (c := '\x7b') (by decide)]
  have hread : slotName? (name' ++ ['\x7d'] ++ rest) = some name' :=
    slotName?_eq_some_iff.2 ⟨h, rest, rfl⟩
  have hsource : (Piece.slot name').source ++ rest = '\x7b' :: (name' ++ ['\x7d'] ++ rest) := rfl
  rw [hsource, hasPlaceholder_cons, hread, hasPlaceholder_append hopen, Option.some.injEq,
    eq_comm (a := name')]
  simp

/-! ## Reading a template -/

/-- What belongs to a placeholder is passed over. -/
theorem piecesFrom_skip (skip : Nat) (cs : List Char) :
    piecesFrom skip [] cs = piecesFrom 0 [] (cs.drop skip) := by
  induction cs generalizing skip with
  | nil => cases skip <;> rfl
  | cons c cs ih =>
    cases skip with
    | zero => rfl
    | succ skip => rw [piecesFrom, ih, List.drop_succ_cons]

theorem piecesFrom_slot {name : List Char} (h : isWord name = true) (acc rest : List Char) :
    piecesFrom 0 acc ((Piece.slot name).source ++ rest) =
      (if acc = [] then [] else [.text acc.reverse]) ++ .slot name :: piecesFrom 0 [] rest := by
  have hread : slotName? (name ++ ['\x7d'] ++ rest) = some name :=
    slotName?_eq_some_iff.2 ⟨h, rest, rfl⟩
  have hdrop : (name ++ ['\x7d'] ++ rest).drop (name.length + 1) = rest := by
    have hlength : name.length + 1 = (name ++ ['\x7d']).length := by simp
    rw [hlength, List.drop_left]
  have hsource : (Piece.slot name).source ++ rest = '\x7b' :: (name ++ ['\x7d'] ++ rest) := rfl
  rw [hsource, piecesFrom, if_pos rfl, hread]
  dsimp only
  rw [piecesFrom_skip, hdrop]

theorem piecesFrom_text {c : Char} {cs : List Char} (h : c = '\x7b' → slotName? cs = none)
    (acc : List Char) : piecesFrom 0 acc (c :: cs) = piecesFrom 0 (c :: acc) cs := by
  rw [piecesFrom]
  by_cases hc : c = '\x7b'
  · rw [if_pos hc, h hc]
  · rw [if_neg hc]

/-- What is read at the start of a text: a placeholder, or a character of
text. -/
theorem read_cases (c : Char) (cs : List Char) :
    (∃ name rest, isWord name = true ∧ c :: cs = (Piece.slot name).source ++ rest) ∨
      (c = '\x7b' → slotName? cs = none) := by
  by_cases hc : c = '\x7b'
  · subst hc
    cases hread : slotName? cs with
    | none => exact .inr fun _ => rfl
    | some name =>
      obtain ⟨hname, rest, rfl⟩ := slotName?_eq_some_iff.1 hread
      exact .inl ⟨name, rest, hname, rfl⟩
  · exact .inr fun h => absurd h hc

/-! ## Cuts -/

/-- Placeholders, each with the text behind it. -/
def cutSource (slots : List (List Char × List Char)) : List Char :=
  slots.flatMap fun slot => (Piece.slot slot.1).source ++ slot.2

theorem cutSource_cons (name text : List Char) (slots : List (List Char × List Char)) :
    cutSource ((name, text) :: slots) =
      (Piece.slot name).source ++ (text ++ cutSource slots) := by
  rw [cutSource, List.flatMap_cons, List.append_assoc, cutSource]

/-- The text begins with `first` and goes on with these placeholders, and there
are no others in it. -/
structure IsCut (cs first : List Char) (slots : List (List Char × List Char)) : Prop where
  source : cs = first ++ cutSource slots
  words : ∀ slot ∈ slots, isWord slot.1 = true
  first : IsPlain first
  texts : ∀ slot ∈ slots, IsPlain slot.2

/-- A character that is nowhere in a text is nowhere between its placeholders. -/
theorem IsCut.not_mem {cs first : List Char} {slots : List (List Char × List Char)}
    (h : IsCut cs first slots) {c : Char} (hc : c ∉ cs) :
    c ∉ first ∧ ∀ slot ∈ slots, c ∉ slot.2 := by
  rw [h.source, List.mem_append, not_or] at hc
  refine ⟨hc.1, fun slot hslot hmem => hc.2 ?_⟩
  exact List.mem_flatMap.2 ⟨slot, hslot, List.mem_append_right _ hmem⟩

/-- Every text has a cut. -/
theorem exists_isCut (cs : List Char) : ∃ first slots, IsCut cs first slots := by
  -- a placeholder is several characters at once, so the induction is on the length
  induction hn : cs.length using Nat.strongRecOn generalizing cs with
  | ind n ih =>
    subst hn
    cases cs with
    | nil => exact ⟨[], [], rfl, nofun, isPlain_nil, nofun⟩
    | cons c cs =>
      obtain ⟨name, rest, hname, hsource⟩ | htext := read_cases c cs
      · have hshorter : rest.length < (c :: cs).length := by
          rw [hsource, List.length_append]
          exact Nat.lt_add_of_pos_left (by simp [Piece.source])
        obtain ⟨text, slots, hrest⟩ := ih _ hshorter rest rfl
        refine ⟨[], (name, text) :: slots, ?_, ?_, isPlain_nil, ?_⟩
        · rw [hsource, hrest.source, cutSource_cons, List.nil_append]
        · exact List.forall_mem_cons.2 ⟨hname, hrest.words⟩
        · exact List.forall_mem_cons.2 ⟨hrest.first, hrest.texts⟩
      · obtain ⟨first, slots, hrest⟩ := ih _ (Nat.lt_succ_self cs.length) cs rfl
        refine ⟨c :: first, slots, by rw [hrest.source]; rfl, hrest.words, fun name h => ?_,
          hrest.texts⟩
        rcases hasPlaceholder_cons.1 h with ⟨hc, hread⟩ | h
        · obtain ⟨hname, hprefix⟩ := slotName?_eq_some_iff.1 hread
          have hwhole : slotName? cs = some name := slotName?_eq_some_iff.2
            ⟨hname, hrest.source ▸ hprefix.trans (List.prefix_append _ _)⟩
          rw [htext hc] at hwhole
          cases hwhole
        · exact hrest.first name h

/-- A text as a part of a template, unless it is empty. -/
def textPiece (cs : List Char) : List Piece := if cs = [] then [] else [.text cs]

/-- The parts that a cut has. -/
def cutPieces (first : List Char) (slots : List (List Char × List Char)) : List Piece :=
  textPiece first ++ slots.flatMap fun slot => .slot slot.1 :: textPiece slot.2

/-- A text without placeholders has none with placeholders behind it either. -/
theorem slotName?_append_cutSource {cs : List Char} (h : IsPlain ('\x7b' :: cs))
    (slots : List (List Char × List Char)) : slotName? (cs ++ cutSource slots) = none := by
  rw [Option.eq_none_iff_forall_ne_some]
  intro name hread
  obtain ⟨hname, hprefix⟩ := slotName?_eq_some_iff.1 hread
  have hopen : '\x7b' ∉ name ++ ['\x7d'] := by
    simp [not_mem_of_isWord hname (c := '\x7b') (by decide)]
  have hwithin : name ++ ['\x7d'] <+: cs := by
    cases slots with
    | nil => rwa [cutSource, List.flatMap_nil, List.append_nil] at hprefix
    | cons slot slots =>
      rw [cutSource_cons] at hprefix
      exact (prefix_append_cons_iff hopen).1 hprefix
  exact h name (hasPlaceholder_cons.2 (.inl ⟨rfl, slotName?_eq_some_iff.2 ⟨hname, hwithin⟩⟩))

/-- It is read character by character. -/
theorem piecesFrom_isPlain {cs : List Char} (h : IsPlain cs)
    (slots : List (List Char × List Char)) (acc : List Char) :
    piecesFrom 0 acc (cs ++ cutSource slots) =
      piecesFrom 0 (cs.reverse ++ acc) (cutSource slots) := by
  induction cs generalizing acc with
  | nil => rfl
  | cons c cs ih =>
    have hrest : IsPlain cs := fun name hname => h name (hasPlaceholder_cons.2 (.inr hname))
    have hnone : c = '\x7b' → slotName? (cs ++ cutSource slots) = none := by
      rintro rfl
      exact slotName?_append_cutSource h slots
    rw [List.cons_append, piecesFrom_text hnone, ih hrest, List.reverse_cons, List.append_assoc,
      List.singleton_append]

theorem piecesFrom_cutSource {slots : List (List Char × List Char)}
    (hwords : ∀ slot ∈ slots, isWord slot.1 = true) (htexts : ∀ slot ∈ slots, IsPlain slot.2)
    (acc : List Char) : piecesFrom 0 acc (cutSource slots) = cutPieces acc.reverse slots := by
  have htext (acc : List Char) : (if acc = [] then [] else [Piece.text acc.reverse]) =
      textPiece acc.reverse := by simp [textPiece]
  induction slots generalizing acc with
  | nil =>
    rw [cutPieces, List.flatMap_nil, List.append_nil, ← htext]
    rfl
  | cons slot slots ih =>
    obtain ⟨name, text⟩ := slot
    obtain ⟨hname, hwords⟩ := List.forall_mem_cons.1 hwords
    obtain ⟨hplain, htexts⟩ := List.forall_mem_cons.1 htexts
    rw [cutSource_cons, piecesFrom_slot hname, htext, piecesFrom_isPlain hplain,
      ih hwords htexts, List.append_nil, List.reverse_reverse]
    simp [cutPieces]

/-- The parts of a template are those of its cut. -/
theorem pieces_of_isCut {template : String} {first : List Char}
    {slots : List (List Char × List Char)} (h : IsCut template.toList first slots) :
    pieces template = cutPieces first slots := by
  rw [pieces, h.source, piecesFrom_isPlain h.first, piecesFrom_cutSource h.words h.texts,
    List.append_nil, List.reverse_reverse]

/-! ## Acceptance -/

theorem hasPlaceholder_isPlain {name cs : List Char} (h : IsPlain cs)
    (slots : List (List Char × List Char)) :
    HasPlaceholder name (cs ++ cutSource slots) ↔ HasPlaceholder name (cutSource slots) := by
  induction cs with
  | nil => rfl
  | cons c cs ih =>
    have hrest : IsPlain cs := fun name hname => h name (hasPlaceholder_cons.2 (.inr hname))
    rw [List.cons_append, hasPlaceholder_cons, ih hrest, or_iff_right]
    rintro ⟨rfl, hread⟩
    rw [slotName?_append_cutSource h] at hread
    cases hread

theorem hasPlaceholder_cutSource {name : List Char} {slots : List (List Char × List Char)}
    (hwords : ∀ slot ∈ slots, isWord slot.1 = true) (htexts : ∀ slot ∈ slots, IsPlain slot.2) :
    HasPlaceholder name (cutSource slots) ↔ name ∈ slots.map Prod.fst := by
  induction slots with
  | nil => exact iff_of_false (isPlain_nil name) List.not_mem_nil
  | cons slot slots ih =>
    obtain ⟨hname, hwords⟩ := List.forall_mem_cons.1 hwords
    obtain ⟨hplain, htexts⟩ := List.forall_mem_cons.1 htexts
    have hrest := ih hwords htexts
    rw [cutSource_cons, hasPlaceholder_slot hname, hasPlaceholder_isPlain hplain, hrest,
      List.map_cons, List.mem_cons]

/-- The placeholders of a cut are all that there are. -/
theorem IsCut.hasPlaceholder_iff {cs first : List Char} {slots : List (List Char × List Char)}
    (h : IsCut cs first slots) (name : List Char) :
    HasPlaceholder name cs ↔ name ∈ slots.map Prod.fst := by
  rw [h.source, hasPlaceholder_isPlain h.first, hasPlaceholder_cutSource h.words h.texts]

theorem namesIn_cutPieces (first : List Char) (slots : List (List Char × List Char)) :
    namesIn (cutPieces first slots) = slots.map fun slot => String.ofList slot.1 := by
  have htext (cs : List Char) (parts : List Piece) :
      namesIn (textPiece cs ++ parts) = namesIn parts := by
    unfold textPiece
    split <;> rfl
  rw [cutPieces, htext]
  induction slots with
  | nil => rfl
  | cons slot slots ih =>
    rw [List.map_cons, ← ih, List.flatMap_cons]
    exact congrArg (String.ofList slot.1 :: ·) (htext slot.2 _)

/-- The placeholders that are found are all that there are. -/
theorem mem_slotNames_iff {template name : String} :
    name ∈ slotNames template ↔ HasPlaceholder name.toList template.toList := by
  obtain ⟨first, slots, hcut⟩ := exists_isCut template.toList
  have hnames : slotNames template = slots.map fun slot => String.ofList slot.1 := by
    rw [← namesIn_cutPieces first, ← pieces_of_isCut hcut]
    rfl
  rw [hnames, hcut.hasPlaceholder_iff, List.mem_map, List.mem_map]
  refine exists_congr fun slot => and_congr_right fun _ => ?_
  rw [← String.toList_inj, String.toList_ofList]

theorem checkNames_eq_none_iff {slots seen names : List String} :
    checkNames slots seen names = none ↔
      names.Nodup ∧ ∀ name ∈ names, name ∈ slots ∧ name ∉ seen := by
  refine ⟨fun h => ?_, fun h => ?_⟩
  · obtain ⟨hnodup, hseen⟩ := nodup_of_checkNames h
    exact ⟨hnodup, fun name hname => ⟨mem_of_checkNames h name hname, hseen name hname⟩⟩
  · induction names generalizing seen with
    | nil => rfl
    | cons name names ih =>
      obtain ⟨hnew, hnodup⟩ := List.nodup_cons.1 h.1
      obtain ⟨⟨hused, hseen⟩, hrest⟩ := List.forall_mem_cons.1 h.2
      rw [checkNames, if_neg (not_not.2 hused), if_neg hseen]
      refine ih ⟨hnodup, fun other hother => ⟨(hrest other hother).1, ?_⟩⟩
      rw [List.mem_cons, not_or]
      exact ⟨fun heq => hnew (heq ▸ hother), (hrest other hother).2⟩

theorem templateFault_eq_none_iff {template : String} {names : List String} :
    templateFault template names = none ↔ isBlankText template = false ∧ names.Nodup ∧
      ∀ name, name ∈ names ↔ name ∈ slotNames template := by
  unfold templateFault
  split
  · next hblank => simp [hblank]
  · next hblank =>
    have hused : checkNames (slotNames template) [] names = none ↔
        names.Nodup ∧ ∀ name ∈ names, name ∈ slotNames template ∧ name ∉ [] :=
      checkNames_eq_none_iff
    simp only [List.not_mem_nil, not_false_eq_true, and_true] at hused
    rw [and_iff_right (Bool.eq_false_iff.2 hblank)]
    split
    · next fault hfault =>
      rw [hfault] at hused
      exact iff_of_false nofun fun h => absurd (hused.2 ⟨h.1, fun name => (h.2 name).1⟩) nofun
    · next hfault =>
      obtain ⟨hnodup, hsub⟩ := hused.1 hfault
      rw [Option.map_eq_none_iff, List.find?_eq_none, and_iff_right hnodup]
      simp only [decide_not, Bool.not_eq_true', decide_eq_false_iff_not, not_not]
      exact ⟨fun h name => ⟨hsub name, h name⟩, fun h name => (h name).2⟩

/-- What a template without a fault is cut at are names of its substitutions. -/
theorem IsCut.mem_names {template : String} {names : List String}
    (h : templateFault template names = none) {first : List Char}
    {parts : List (List Char × List Char)} (hcut : IsCut template.toList first parts) :
    ∀ part ∈ parts, String.ofList part.1 ∈ names := by
  intro part hpart
  obtain ⟨-, -, hused⟩ := templateFault_eq_none_iff.1 h
  rw [hused, mem_slotNames_iff, String.toList_ofList, hcut.hasPlaceholder_iff]
  exact List.mem_map_of_mem hpart

/-- An expression is made of a template that is not blank and a substitution
for each of its placeholders, in any order, and of nothing else. -/
theorem Expression.make_iff {template : String} {slots : List Slot} :
    (∃ e, Expression.make template slots = .ok e) ↔
      isBlankText template = false ∧ (slots.map Slot.name).Nodup ∧
        ∀ name, name ∈ slots.map Slot.name ↔ HasPlaceholder name.toList template.toList := by
  simp only [← mem_slotNames_iff]
  rw [← templateFault_eq_none_iff]
  refine ⟨fun ⟨e, h⟩ => (Expression.template_make h).2, fun h => ⟨⟨template, slots⟩, ?_⟩⟩
  rw [Expression.make, checkTemplate, h]
  rfl

end SqlTree
