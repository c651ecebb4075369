import SqlTree.Proofs.Inlined.Node
import SqlTree.Proofs.Templates.Node

/-!
# SqlTree.Proofs.Templates.Inline

Expressions with their values written in.  The marker of a value stands in the
text with nothing between it and what the template has behind the placeholder,
and who reads it takes in all word characters that follow
(`markersFrom_spliced`, `inlineFrom_spliced`).  So the markers are those that
were given just if no placeholder of a value runs into a word, and then the
text with its values written in is the template with their literals
(`Reachable.reads_markers`).
-/

namespace SqlTree

/-! ## Spots -/

/-- The substitution for a placeholder, and the text that the template has
behind it. -/
structure Spot where
  slot : Slot
  behind : List Char

/-- The placeholder with its text. -/
def Spot.part (spot : Spot) : List Char × List Char := (spot.slot.name.toList, spot.behind)

/-- The values that are bound, each with the text behind it. -/
def boundSpots (spots : List Spot) : List (Value × List Char) :=
  spots.filterMap fun spot =>
    match spot.slot.filling with
    | .value v => some (v, spot.behind)
    | _ => none

/-- The name that is written for a substitution. -/
def Filling.name? (d : Dialect) : Filling → Option String
  | .identifier i => some (i.quoted d)
  | .alias a => some (a.quoted d)
  | _ => none

/-- The spots with their names, and with these texts for the values in order,
behind which only so much is left. -/
def spliced (d : Dialect) (leave : List Char → List Char) :
    List Spot → List (List Char) → List Char
  | [], _ => []
  | ⟨slot, behind⟩ :: spots, texts =>
    match slot.filling.name? d with
    | some name => name.toList ++ (behind ++ spliced d leave spots texts)
    | none => texts.headD [] ++ (leave behind ++ spliced d leave spots texts.tail)

/-- A value, or a name. -/
def Filling.IsValueOrName (filling : Filling) : Prop :=
  (∃ v, filling = .value v) ∨ (∃ i, filling = .identifier i) ∨ ∃ a, filling = .alias a

variable {d : Dialect} {spots : List Spot} {slot : Slot} {behind : List Char}

theorem boundSpots_value {v : Value} (h : slot.filling = .value v) :
    boundSpots (⟨slot, behind⟩ :: spots) = (v, behind) :: boundSpots spots := by
  rw [boundSpots, List.filterMap_cons, h]
  rfl

theorem boundSpots_name {name : String} (h : slot.filling.name? d = some name) :
    boundSpots (⟨slot, behind⟩ :: spots) = boundSpots spots := by
  rw [boundSpots, List.filterMap_cons]
  split
  · rfl
  · next h' =>
    split at h'
    · next hv => rw [hv] at h; cases h
    · cases h'

theorem spliced_value {v : Value} (h : slot.filling = .value v) (leave : List Char → List Char)
    (text : List Char) (texts : List (List Char)) :
    spliced d leave (⟨slot, behind⟩ :: spots) (text :: texts) =
      text ++ (leave behind ++ spliced d leave spots texts) := by
  rw [spliced, h]
  rfl

theorem spliced_name {name : String} (h : slot.filling.name? d = some name)
    (leave : List Char → List Char) (texts : List (List Char)) :
    spliced d leave (⟨slot, behind⟩ :: spots) texts =
      name.toList ++ (behind ++ spliced d leave spots texts) := by
  rw [spliced, h]

/-! ## Quoted names -/

theorem Quoting.ne_nil {cs : List Char} (h : Quoting d cs) : cs ≠ [] := by
  induction h with
  | sign | region => exact List.cons_ne_nil _ _
  | append _ _ ih _ => exact fun hempty => ih (List.append_eq_nil_iff.1 hempty).1

/-- The name that is written for a substitution is quoted, has no colons, and
no word goes on into it. -/
theorem Filling.name?_quotes (hout : d.QuotesStandOut) (hd : d.QuotesApart) {filling : Filling}
    {name : String} (h : filling.name? d = some name) :
    Quoting d name.toList ∧ ':' ∉ name.toList ∧ EndsWord name.toList := by
  match filling, h with
  | .identifier i, h =>
    obtain rfl := Option.some.inj h
    exact ⟨.quoteIdentifier hout i.isCode_text,
      Draft.colon_not_mem_quoteIdentifier hd i.isCode_text, d.endsWord_quoteIdentifier hd _⟩
  | .alias a, h =>
    obtain rfl := Option.some.inj h
    exact ⟨.quoteAlias hout a.isCode_text, Draft.colon_not_mem_quoteAlias hd a.isCode_text,
      d.endsWord_quoteAlias hd _⟩

theorem Filling.IsValueOrName.cases {filling : Filling} (h : filling.IsValueOrName) (d : Dialect) :
    (∃ v, filling = .value v) ∨ ∃ name, filling.name? d = some name ∧
      ∀ c, filling.Renders d c name c := by
  obtain hvalue | ⟨i, rfl⟩ | ⟨a, rfl⟩ := h
  · exact .inl hvalue
  · exact .inr ⟨_, rfl, .identifier i⟩
  · exact .inr ⟨_, rfl, .alias a⟩

/-! ## Markers as they are read -/

/-- Each marker with the word characters that the template has behind it. -/
def readings (markers : List (List Char)) (spots : List Spot) : List String :=
  markers.zipWith (fun m bound => String.ofList (m ++ bound.2.takeWhile isWordChar))
    (boundSpots spots)

theorem readings_value {v : Value} (h : slot.filling = .value v) (m : List Char)
    (ms : List (List Char)) : readings (m :: ms) (⟨slot, behind⟩ :: spots) =
      String.ofList (m ++ behind.takeWhile isWordChar) :: readings ms spots := by
  rw [readings, boundSpots_value h]
  rfl

theorem readings_name {name : String} (h : slot.filling.name? d = some name)
    (markers : List (List Char)) : readings markers (⟨slot, behind⟩ :: spots) =
      readings markers spots := by
  rw [readings, boundSpots_name h, readings]

theorem endsWord_dropWhile (cs : List Char) : EndsWord (cs.dropWhile isWordChar) := by
  have hhead := List.head?_dropWhile_not isWordChar cs
  rw [EndsWord]
  cases hnext : (cs.dropWhile isWordChar).head? with
  | none => rfl
  | some c => rwa [hnext] at hhead

/-- Values and names with texts that have no quotes and no colons, and as many
markers as there are values. -/
structure Marked (d : Dialect) (spots : List Spot) (markers : List (List Char)) : Prop where
  filled : ∀ spot ∈ spots, spot.slot.filling.IsValueOrName
  plain : ∀ spot ∈ spots, ∀ ch ∈ ['\'', d.leftQuote, ':'], ch ∉ spot.behind
  marks : ∀ m ∈ markers, MarkerStyle.named.Marks m
  length : markers.length = (boundSpots spots).length

namespace Marked

variable {markers : List (List Char)}

/-- A value and its marker come first, or a name. -/
theorem cons_cases (h : Marked d (⟨slot, behind⟩ :: spots) markers) :
    (∃ v w ms, slot.filling = .value v ∧ isWord w = true ∧ markers = (':' :: w) :: ms ∧
      Marked d spots ms) ∨
    ∃ name, slot.filling.name? d = some name ∧ Marked d spots markers := by
  obtain ⟨hslot, hspots⟩ := List.forall_mem_cons.1 h.filled
  have hplain := (List.forall_mem_cons.1 h.plain).2
  obtain ⟨v, hv⟩ | ⟨name, hname, -⟩ := Filling.IsValueOrName.cases hslot d
  · have hlength := h.length
    rw [boundSpots_value hv] at hlength
    cases markers with
    | nil => cases hlength
    | cons m ms =>
      obtain ⟨⟨w, hw, rfl⟩, hms⟩ := List.forall_mem_cons.1 h.marks
      exact .inl ⟨v, w, ms, hv, hw, rfl, hspots, hplain, hms, Nat.succ.inj hlength⟩
  · exact .inr ⟨name, hname, hspots, hplain, h.marks, boundSpots_name hname ▸ h.length⟩

/-- Both begin with what is no part of a word. -/
theorem endsWord (hout : d.QuotesStandOut) (hd : d.QuotesApart) (h : Marked d spots markers) :
    EndsWord (spliced d id spots markers) := by
  cases spots with
  | nil => rfl
  | cons spot spots =>
    obtain ⟨slot, behind⟩ := spot
    obtain ⟨v, w, ms, hv, -, rfl, -⟩ | ⟨name, hname, -⟩ := h.cons_cases
    · rw [spliced_value hv]
      exact show isWordChar ':' = false by decide
    · obtain ⟨hquoting, -, hends⟩ := Filling.name?_quotes hout hd hname
      rw [spliced_name hname]
      exact endsWord_append (fun _ => hends) fun hempty => absurd hempty hquoting.ne_nil

/-- A marker takes in the word characters behind it, and ends there. -/
theorem marker_cases (hout : d.QuotesStandOut) (hd : d.QuotesApart) (h : Marked d spots markers)
    {w : List Char} (hw : isWord w = true) (behind : List Char) :
    isWord (w ++ behind.takeWhile isWordChar) = true ∧
      EndsWord (behind.dropWhile isWordChar ++ spliced d id spots markers) ∧
      ':' :: w ++ (behind ++ spliced d id spots markers) =
        ':' :: (w ++ behind.takeWhile isWordChar) ++
          (behind.dropWhile isWordChar ++ spliced d id spots markers) := by
  refine ⟨isWord_append hw List.all_takeWhile, endsWord_append (fun _ => endsWord_dropWhile behind)
    fun _ => h.endsWord hout hd, ?_⟩
  have hwhole : behind ++ spliced d id spots markers = behind.takeWhile isWordChar ++
      (behind.dropWhile isWordChar ++ spliced d id spots markers) := by
    rw [← List.append_assoc, List.takeWhile_append_dropWhile]
  rw [hwhole, List.cons_append, List.cons_append, List.append_assoc]

/-- Read as far as words go, the markers are those that stand there with the
word characters behind them. -/
theorem markersFrom_spliced (hout : d.QuotesStandOut) (hd : d.QuotesApart)
    (h : Marked d spots markers) :
    markersFrom (spliced d id spots markers) = readings markers spots := by
  induction spots generalizing markers with
  | nil =>
    rw [readings, boundSpots, List.filterMap_nil, List.zipWith_nil_right]
    rfl
  | cons spot spots ih =>
    obtain ⟨slot, behind⟩ := spot
    have hcolon : ':' ∉ behind := (List.forall_mem_cons.1 h.plain).1 ':' (by simp)
    obtain ⟨v, w, ms, hv, hw, rfl, hrest⟩ | ⟨name, hname, hrest⟩ := h.cons_cases
    · obtain ⟨hword, hends, hsplit⟩ := hrest.marker_cases hout hd hw behind
      have hdropped : ':' ∉ behind.dropWhile isWordChar := fun hmem =>
        hcolon ((List.dropWhile_sublist _).subset hmem)
      rw [spliced_value hv, id, hsplit, List.cons_append, markersFrom_marker hword hends,
        markersFrom_append_of_not_mem hdropped, ih hrest, readings_value hv, List.cons_append]
    · obtain ⟨-, hnameColon, -⟩ := Filling.name?_quotes hout hd hname
      rw [spliced_name hname, markersFrom_append_of_not_mem hnameColon,
        markersFrom_append_of_not_mem hcolon, ih hrest, readings_name hname]

end Marked

/-! ## Values written in -/

theorem except_map_map {α β γ ε : Type} (f : α → β) (g : β → γ) (x : Except ε α) :
    (x.map f).map g = x.map fun a => g (f a) := by
  cases x <;> rfl

namespace Collector

variable {c : Collector} {next : Nat} {previous : Option Char} {t : List Char}

/-- With named markers, a character that neither opens a region nor is a colon
is copied. -/
theorem inlineFrom_copied_named (hstyle : c.style = .named) {x : Char}
    (hclose : closer? d x = none) (hx : x ≠ ':') :
    c.inlineFrom d next (.outside previous) (x :: t) =
      (c.inlineFrom d next (.outside (some x)) t).map (x :: ·) :=
  inlineFrom_copied hclose (fun hpositional => nomatch hstyle.symm.trans hpositional)
    fun _ hcolon => absurd hcolon hx

/-- So is a text of such characters. -/
theorem inlineFrom_text (hstyle : c.style = .named) {cs : List Char}
    (hcs : ∀ ch ∈ ['\'', d.leftQuote, ':'], ch ∉ cs) (hprevious : previous ≠ some ':')
    (next : Nat) (t : List Char) :
    ∃ last, last ≠ some ':' ∧ c.inlineFrom d next (.outside previous) (cs ++ t) =
      (c.inlineFrom d next (.outside last) t).map (cs ++ ·) := by
  induction cs generalizing previous with
  | nil =>
    refine ⟨previous, hprevious, ?_⟩
    rw [List.nil_append]
    cases c.inlineFrom d next (.outside previous) t <;> rfl
  | cons x cs ih =>
    have hx : ∀ ch ∈ ['\'', d.leftQuote, ':'], ch ≠ x := fun ch hch heq =>
      hcs ch hch (heq ▸ List.mem_cons_self)
    have hrest : ∀ ch ∈ ['\'', d.leftQuote, ':'], ch ∉ cs := fun ch hch hmem =>
      hcs ch hch (List.mem_cons_of_mem x hmem)
    have hcolon : x ≠ ':' := (hx ':' (by simp)).symm
    have hclose : closer? d x = none := by
      rw [closer?, if_neg (hx '\'' (by simp)).symm, if_neg (hx d.leftQuote (by simp)).symm]
    obtain ⟨last, hlast, heq⟩ := ih hrest fun h => hcolon (Option.some.inj h)
    refine ⟨last, hlast, ?_⟩
    rw [List.cons_append, inlineFrom_copied_named hstyle hclose hcolon, heq, except_map_map]
    rfl

/-- So are quoted names. -/
theorem inlineFrom_quoting (hvalue : d.valueQuote = '\'') (hout : d.QuotesStandOut)
    (hd : d.QuotesClear) (hstyle : c.style = .named) {cs : List Char} (h : Quoting d cs)
    (previous : Option Char) (next : Nat) (t : List Char) :
    ∃ last, last ≠ some ':' ∧ c.inlineFrom d next (.outside previous) (cs ++ t) =
      (c.inlineFrom d next (.outside last) t).map (cs ++ ·) := by
  induction h generalizing previous t with
  | @sign x hx =>
    have hcolon : x ≠ ':' := by
      rintro rfl
      exact absurd hx (by decide)
    have hclose : closer? d x = none := by
      rw [closer?_eq hvalue, hout.closer?_of_isSyntax (isSyntax_of_isSign hx)]
    exact ⟨some x, fun h => hcolon (Option.some.inj h), inlineFrom_copied_named hstyle hclose hcolon⟩
  | @region x close cs hclose hcs =>
    refine ⟨some close, fun h => ?_, ?_⟩
    · exact (hd.closing (Dialect.closer?_eq_some hclose).2).2.1 (Option.some.inj h)
    · rw [List.cons_append, List.append_assoc, List.singleton_append,
        inlineFrom_region hvalue hclose hcs]
      congr 1
      funext r
      simp
  | append _ _ ih ih' =>
    obtain ⟨last, -, heq⟩ := ih previous _
    obtain ⟨last', hlast', heq'⟩ := ih' last t
    refine ⟨last', hlast', ?_⟩
    rw [List.append_assoc, heq, heq', except_map_map]
    simp only [List.append_assoc]

/-- The marker of each value is looked up together with the word characters
behind it, and everything else is copied. -/
theorem inlineFrom_spliced (hvalue : d.valueQuote = '\'') (hout : d.QuotesStandOut)
    (hd : d.QuotesClear) (hstyle : c.style = .named) {markers : List (List Char)}
    (h : Marked d spots markers) (hprevious : previous ≠ some ':') :
    c.inlineFrom d next (.outside previous) (spliced d id spots markers) =
      ((readings markers spots).mapM fun m => literalOr d (c.find? m) m.toList).map
        (spliced d (List.dropWhile isWordChar) spots) := by
  have hmarks {w : List Char} (hw : isWord w = true) : c.style.Marks (':' :: w) := by
    rw [hstyle]
    exact ⟨w, hw, rfl⟩
  induction spots generalizing markers previous with
  | nil =>
    rw [readings, boundSpots, List.filterMap_nil, List.zipWith_nil_right, spliced, inlineFrom]
    rfl
  | cons spot spots ih =>
    obtain ⟨slot, behind⟩ := spot
    have hplain := (List.forall_mem_cons.1 h.plain).1
    obtain ⟨v, w, ms, hv, hw, rfl, hrest⟩ | ⟨name, hname, hrest⟩ := h.cons_cases
    · obtain ⟨hword, hends, hsplit⟩ := hrest.marker_cases hout hd.toQuotesApart hw behind
      have hdropped : ∀ ch ∈ ['\'', d.leftQuote, ':'], ch ∉ behind.dropWhile isWordChar :=
        fun ch hch hmem => hplain ch hch ((List.dropWhile_sublist _).subset hmem)
      obtain ⟨last, hlast, heq⟩ := inlineFrom_marker hd hvalue (hmarks hword) hends hprevious next
      have hbehind : some last ≠ some ':' := fun h => hlast (Option.some.inj h)
      obtain ⟨last', hlast', heq'⟩ := inlineFrom_text hstyle hdropped hbehind next
        (spliced d id spots ms)
      have hentry (m : List Char) : c.entryOf next m = c.find? (String.ofList m) := by
        rw [entryOf, hstyle]
      have hnext : c.nextAfter next = next := by rw [nextAfter, hstyle]
      rw [spliced_value hv, id, hsplit, heq, hentry, hnext, heq', ih hrest hlast',
        readings_value hv, List.mapM_cons, String.toList_ofList]
      simp only [List.cons_append]
      cases literalOr d (c.find? (String.ofList (':' :: (w ++ behind.takeWhile isWordChar))))
        (':' :: (w ++ behind.takeWhile isWordChar)) with
      | error e => rfl
      | ok l =>
        cases (readings ms spots).mapM fun m => literalOr d (c.find? m) m.toList with
        | error e => rfl
        | ok ls => exact congrArg Except.ok (spliced_value hv _ l ls).symm
    · obtain ⟨hquoting, -, -⟩ := Filling.name?_quotes hout hd.toQuotesApart hname
      obtain ⟨last, hlast, heq⟩ := inlineFrom_quoting hvalue hout hd hstyle hquoting previous next
        (behind ++ spliced d id spots markers)
      obtain ⟨last', hlast', heq'⟩ := inlineFrom_text hstyle hplain hlast next
        (spliced d id spots markers)
      rw [spliced_name hname, heq, heq', ih hrest hlast', readings_name hname, except_map_map,
        except_map_map]
      exact congrArg (Except.map · _) (funext fun ls => (spliced_name hname _ ls).symm)

end Collector

/-! ## Compiled -/

/-- The values of spots as they are bound. -/
def spotBindings (spots : List Spot) : List Binding :=
  (boundSpots spots).map fun bound => ⟨bound.1, bound.1.bindType, "expr"⟩

theorem Collector.length_markersFor (c : Collector) (bs : List Binding) :
    (c.markersFor bs).length = bs.length := by
  induction bs generalizing c with
  | nil => rfl
  | cons b bs ih => rw [markersFor, List.length_cons, List.length_cons, ih]

theorem Collector.marks_markersFor {c : Collector} (hc : c.style = .named) (bs : List Binding) :
    ∀ m ∈ (c.markersFor bs).map String.toList, MarkerStyle.named.Marks m := by
  induction bs generalizing c with
  | nil => exact nofun
  | cons b bs ih =>
    exact List.forall_mem_cons.2 ⟨hc ▸ Draft.marks_record c b, ih (by rw [style_bind, hc])⟩

/-- The spots are rendered with the markers of their values in their places. -/
theorem rendersAll_spliced {slots : List Slot}
    (hspots : ∀ spot ∈ spots, spot.slot ∈ slots ∧ spot.slot.filling.IsValueOrName)
    (c : Collector) : RendersAll d slots (spots.map Spot.part) c
      (String.ofList (spliced d id spots ((c.markersFor (spotBindings spots)).map String.toList)))
      (c.bindAll (spotBindings spots)) := by
  induction spots generalizing c with
  | nil => exact .nil c
  | cons spot spots ih =>
    obtain ⟨⟨name, filling⟩, behind⟩ := spot
    obtain ⟨⟨hslot, hfilling⟩, hothers⟩ := List.forall_mem_cons.1 hspots
    have hmem : ⟨String.ofList name.toList, filling⟩ ∈ slots := by
      rwa [String.ofList_toList]
    have hpart : Spot.part ⟨⟨name, filling⟩, behind⟩ = (name.toList, behind) := rfl
    obtain ⟨v, rfl⟩ | ⟨text, htext, hrenders⟩ := Filling.IsValueOrName.cases hfilling d
    · have hbindings : spotBindings (⟨⟨name, .value v⟩, behind⟩ :: spots) =
          ⟨v, v.bindType, "expr"⟩ :: spotBindings spots := rfl
      have hafter (b : Binding) : c.bindAll (b :: spotBindings spots) =
          (c.bind b).bindAll (spotBindings spots) := rfl
      have hgives := (Collector.gives_iff (c := c) (v := v)).2 ⟨rfl, rfl⟩
      have hrest : RendersAll d slots ((name.toList, behind) :: spots.map Spot.part) c _ _ :=
        .cons hmem (.value hgives) (ih hothers _)
      have hvalue : (⟨name, .value v⟩ : Slot).filling = .value v := rfl
      rw [hbindings, Collector.markersFor, List.map_cons, List.map_cons, hpart,
        spliced_value hvalue, Collector.fst_record, hafter]
      simpa using hrest
    · have hbindings : spotBindings (⟨⟨name, filling⟩, behind⟩ :: spots) = spotBindings spots := by
        rw [spotBindings, boundSpots_name htext, spotBindings]
      have hrest : RendersAll d slots ((name.toList, behind) :: spots.map Spot.part) c _ _ :=
        .cons hmem (hrenders c) (ih hothers c)
      rw [hbindings, List.map_cons, hpart, spliced_name htext]
      simpa using hrest

theorem exists_spots {slots : List Slot} {parts : List (List Char × List Char)}
    (h : ∀ part ∈ parts, String.ofList part.1 ∈ slots.map Slot.name) :
    ∃ spots : List Spot, (∀ spot ∈ spots, spot.slot ∈ slots) ∧ spots.map Spot.part = parts := by
  induction parts with
  | nil => exact ⟨[], nofun, rfl⟩
  | cons part parts ih =>
    obtain ⟨hname, hparts⟩ := List.forall_mem_cons.1 h
    obtain ⟨slot, hslot, hslotName⟩ := List.mem_map.1 hname
    obtain ⟨spots, hspots, hsame⟩ := ih hparts
    refine ⟨⟨slot, part.2⟩ :: spots, List.forall_mem_cons.2 ⟨hslot, hspots⟩, ?_⟩
    rw [List.map_cons, hsame, Spot.part, hslotName, String.toList_ofList]

/-! ## Complete markers -/

theorem takeWhile_eq_nil_iff_endsWord {cs : List Char} :
    cs.takeWhile isWordChar = [] ↔ EndsWord cs := by
  cases cs with
  | nil => exact iff_of_true rfl rfl
  | cons c cs => simp [List.takeWhile_cons]

theorem dropWhile_of_endsWord {cs : List Char} (h : EndsWord cs) :
    cs.dropWhile isWordChar = cs := by
  have hsplit := List.takeWhile_append_dropWhile (p := isWordChar) (l := cs)
  rwa [takeWhile_eq_nil_iff_endsWord.2 h] at hsplit

/-- The markers are read as they are just if none has word characters behind
it. -/
theorem readings_eq_iff {markers : List (List Char)}
    (hlength : markers.length = (boundSpots spots).length) :
    readings markers spots = markers.map String.ofList ↔
      ∀ bound ∈ boundSpots spots, EndsWord bound.2 := by
  unfold readings
  generalize boundSpots spots = bounds at hlength ⊢
  induction bounds generalizing markers with
  | nil =>
    obtain rfl := List.length_eq_zero_iff.1 hlength
    exact iff_of_true rfl nofun
  | cons bound bounds ih =>
    cases markers with
    | nil => cases hlength
    | cons m ms =>
      rw [List.zipWith_cons_cons, List.map_cons, List.cons.injEq, ih (Nat.succ.inj hlength),
        List.forall_mem_cons, String.ofList_inj, List.append_right_eq_self,
        takeWhile_eq_nil_iff_endsWord]

/-- Then all of the texts behind them is left. -/
theorem spliced_dropWhile (hfilled : ∀ spot ∈ spots, spot.slot.filling.IsValueOrName)
    (hends : ∀ bound ∈ boundSpots spots, EndsWord bound.2) (texts : List (List Char)) :
    spliced d (List.dropWhile isWordChar) spots texts = spliced d id spots texts := by
  induction spots generalizing texts with
  | nil => rfl
  | cons spot spots ih =>
    obtain ⟨slot, behind⟩ := spot
    obtain ⟨hslot, hspots⟩ := List.forall_mem_cons.1 hfilled
    obtain ⟨v, hv⟩ | ⟨name, hname, -⟩ := Filling.IsValueOrName.cases hslot d
    · rw [boundSpots_value hv, List.forall_mem_cons] at hends
      obtain ⟨hbehind, hends⟩ := hends
      have hsame : behind.dropWhile isWordChar = behind := dropWhile_of_endsWord hbehind
      rw [spliced, spliced, hv]
      simp only [Filling.name?, ih hspots hends, hsame, id]
    · rw [boundSpots_name hname] at hends
      rw [spliced_name hname, spliced_name hname, ih hspots hends]

namespace Marked

variable {markers : List (List Char)} {first : List Char}

theorem markersIn_spliced (hout : d.QuotesStandOut) (hd : d.QuotesApart)
    (h : Marked d spots markers) (hfirst : ':' ∉ first) :
    markersIn (String.ofList (first ++ spliced d id spots markers)) = readings markers spots := by
  rw [markersIn, String.toList_ofList, markersFrom_append_of_not_mem hfirst,
    h.markersFrom_spliced hout hd]

theorem inline_spliced (hvalue : d.valueQuote = '\'') (hout : d.QuotesStandOut)
    (hd : d.QuotesClear) (h : Marked d spots markers)
    (hfirst : ∀ ch ∈ ['\'', d.leftQuote, ':'], ch ∉ first) {c : Collector}
    (hstyle : c.style = .named) :
    c.inline (String.ofList (first ++ spliced d id spots markers)) d =
      ((readings markers spots).mapM fun m => Collector.literalOr d (c.find? m) m.toList).map
        fun texts => String.ofList
          (first ++ spliced d (List.dropWhile isWordChar) spots texts) := by
  obtain ⟨last, hlast, heq⟩ := Collector.inlineFrom_text hstyle hfirst
    (Option.some_ne_none ':').symm 1 (spliced d id spots markers)
  rw [Collector.inline, Scan.start, String.toList_ofList, heq,
    Collector.inlineFrom_spliced hvalue hout hd hstyle h hlast, except_map_map, except_map_map]

end Marked

/-- Markers with entries are looked up to the literals of their values. -/
theorem Collector.mapM_literalOr {c : Collector} {es : List Entry} {d : Dialect}
    (hes : ∀ e ∈ es, c.find? e.key.marker = some e) {literals : List String}
    (h : (es.map Entry.value).mapM d.quoteValue = .ok literals) :
    (es.map fun e => e.key.marker).mapM (fun m => literalOr d (c.find? m) m.toList) =
      .ok (literals.map String.toList) := by
  induction es generalizing literals with
  | nil =>
    cases h
    rfl
  | cons e es ih =>
    obtain ⟨he, hes⟩ := List.forall_mem_cons.1 hes
    rw [List.map_cons, List.mapM_cons] at h
    rw [List.map_cons, List.mapM_cons, he, literalOr]
    cases hl : d.quoteValue e.value with
    | error => rw [hl] at h; cases h
    | ok l =>
      cases hls : (es.map Entry.value).mapM d.quoteValue with
      | error => rw [hl, hls] at h; cases h
      | ok ls =>
        rw [hl, hls] at h
        cases h
        rw [ih hes hls]
        rfl

theorem Collector.Keyed.find?_marker {c : Collector} (h : c.Keyed) (hstyle : c.style = .named)
    {e : Entry} (he : e ∈ c.entries) : c.find? e.key.marker = some e := by
  obtain ⟨w, -, hkey⟩ := (h.named hstyle).1 e.key (List.mem_map_of_mem he)
  exact h.find?_eq_some.2 ⟨he, by rw [hkey]; rfl⟩

/-- The placeholders of an expression are spots of its substitutions. -/
theorem Expression.exists_spots {e : Expression} (h : e.Coherent) :
    ∃ (first : List Char) (spots : List Spot), (∀ spot ∈ spots, spot.slot ∈ e.slots) ∧
      IsCut e.template.toList first (spots.map Spot.part) := by
  obtain ⟨first, parts, hcut⟩ := exists_isCut e.template.toList
  have hparts := hcut.mem_names (templateFault_of_coherent h)
  obtain ⟨spots, hspots, rfl⟩ := SqlTree.exists_spots hparts
  exact ⟨first, spots, hspots, hcut⟩

/-! ## Main result -/

/-- An expression of values and names, in a template without quotes and colons
outside of its placeholders, compiles for named markers to its template with
the markers of the values and the quoted names in their places.  Who reads
the markers takes in the word characters behind them: the values are written
in for what is read, so all markers are read as they were given just if there
is no word character behind the placeholder of a value.  Then the text with
its values written in is the template with their literals and the names.  No
quote may be a character that SQL is made of, and a closing one neither a
colon nor a question mark. -/
theorem Reachable.reads_markers {e : Expression} (h : Reachable .expression e)
    (hslots : ∀ slot ∈ e.slots, slot.filling.IsValueOrName) {d : Dialect} (hd : d.Shipped)
    (hstyle : d.style = .named) (hout : d.QuotesStandOut) (hright : d.rightQuote ∉ [':', '?']) :
    ∃ (first : List Char) (spots : List Spot), (∀ spot ∈ spots, spot.slot ∈ e.slots) ∧
      IsCut e.template.toList first (spots.map Spot.part) ∧
      ((∀ cs ∈ first :: spots.map Spot.behind, ∀ ch ∈ ['\'', d.leftQuote, ':'], ch ∉ cs) →
        ∃ sql c, answer (Node.compileInto d .expression e (.empty d.style)) = .ok sql ∧
          (left (Node.compileInto d .expression e (.empty d.style))).2 = c ∧
          c.values = (boundSpots spots).map Prod.fst ∧
          let markers := c.entries.map fun e => e.key.marker
          sql = String.ofList (first ++ spliced d id spots (markers.map String.toList)) ∧
          markersIn sql = readings (markers.map String.toList) spots ∧
          c.inline sql d = ((markersIn sql).mapM fun m => Collector.literalOr d (c.find? m) m.toList).map
            (fun texts => String.ofList
              (first ++ spliced d (List.dropWhile isWordChar) spots texts)) ∧
          (markersIn sql = markers ↔ ∀ bound ∈ boundSpots spots, EndsWord bound.2) ∧
          (markersIn sql = markers →
            (∀ v ∈ c.values, ∃ literal, d.quoteValue v = .ok literal) →
            ∃ literals, c.values.mapM d.quoteValue = .ok literals ∧ c.inline sql d =
              .ok (String.ofList (first ++ spliced d id spots (literals.map String.toList))))) := by
  obtain ⟨first, spots, hspots, hcut⟩ := Expression.exists_spots h.coherent
  refine ⟨first, spots, hspots, hcut, fun hplain => ?_⟩
  obtain ⟨hfirst, hbehind⟩ := List.forall_mem_cons.1 hplain
  have hfilled : ∀ spot ∈ spots, spot.slot.filling.IsValueOrName := fun spot hspot =>
    hslots spot.slot (hspots spot hspot)
  have hclear := hout.quotesClear hright
  have hfault := Expression.templateFault_of_coherent h.coherent
  let before := Collector.empty d.style
  let bs := spotBindings spots
  let c := before.bindAll bs
  let given := (before.markersFor bs).map String.toList
  obtain ⟨hsql, hleft⟩ := (Expression.compileInto_iff hfault hcut).2
    ⟨_, rendersAll_spliced (d := d) (fun spot hspot => ⟨hspots spot hspot, hfilled spot hspot⟩)
      before, rfl⟩
  have hmarkers : c.entries.map (fun e => e.key.marker) = before.markersFor bs := by
    obtain ⟨added, hadded, -, hgiven⟩ := before.entries_bindAll bs
    have hentries : c.entries = added := hadded
    rw [hentries, hgiven]
  have hvalues : c.values = (boundSpots spots).map Prod.fst := by
    have hown : c.values = bs.map Binding.value := before.values_bindAll bs
    rw [hown]
    simp [bs, spotBindings]
  have hlength : given.length = (boundSpots spots).length := by
    simp [given, bs, spotBindings, Collector.length_markersFor]
  have hmarked : Marked d spots given :=
    ⟨hfilled, fun spot hspot => hbehind spot.behind (List.mem_map_of_mem hspot),
      Collector.marks_markersFor hstyle bs, hlength⟩
  have hcstyle : c.style = .named := by rw [Collector.style_bindAll]; exact hstyle
  rw [← String.ofList_append] at hsql
  refine ⟨_, c, hsql, hleft, hvalues, ?_⟩
  dsimp only
  rw [hmarkers]
  have hread := hmarked.markersIn_spliced hout hclear.toQuotesApart (hfirst ':' (by simp))
  have hinline := hmarked.inline_spliced hd.valueQuote_eq hout hclear hfirst hcstyle
  have hcomplete : readings given spots = before.markersFor bs ↔
      ∀ bound ∈ boundSpots spots, EndsWord bound.2 := by
    rw [← readings_eq_iff hlength]
    simp [given, Function.comp_def]
  refine ⟨rfl, hread, hread ▸ hinline, hread ▸ hcomplete, fun hsame hquotable => ?_⟩
  obtain ⟨literals, hliterals⟩ := exists_mapM_ok.2 hquotable
  have hkeyed : c.Keyed := (Collector.Keyed.empty d.style).bindAll bs
  have hfound := Collector.mapM_literalOr (fun e he => hkeyed.find?_marker hcstyle he) hliterals
  rw [hread] at hsame
  rw [hmarkers, ← hsame] at hfound
  refine ⟨literals, hliterals, ?_⟩
  rw [hinline, hfound, Except.map, spliced_dropWhile hfilled (hcomplete.1 hsame)]

/-- A value and a name that are compared. -/
theorem Reachable.reads_markers_of_comparison :
    let e : Expression := ⟨"\x7bx\x7d < \x7bc\x7d",
      [⟨"x", .value (.int 1)⟩, ⟨"c", .identifier ⟨"a", by decide⟩⟩]⟩
    let d := Dialect.ansi
    let c := (left (Node.compileInto d .expression e (.empty .named))).2
    Reachable .expression e ∧ (∀ slot ∈ e.slots, slot.filling.IsValueOrName) ∧ d.Shipped ∧
      d.style = .named ∧ d.QuotesStandOut ∧ d.rightQuote ∉ [':', '?'] ∧
      ∃ (first : List Char) (spots : List Spot),
        IsCut e.template.toList first (spots.map Spot.part) ∧
        (∀ cs ∈ first :: spots.map Spot.behind, ∀ ch ∈ ['\'', d.leftQuote, ':'], ch ∉ cs) ∧
        ∃ literals, c.values.mapM d.quoteValue = .ok literals ∧
          c.inline ":expr1 < \"a\"" d =
            .ok (String.ofList (first ++ spliced d id spots (literals.map String.toList))) := by
  intro e d c
  have hmake : Expression.make e.template e.slots = .ok e := by
    have hfault : templateFault e.template (e.slots.map Slot.name) = none := by decide +kernel
    rw [Expression.make, checkTemplate, hfault]
    rfl
  have hreachable : Reachable .expression e :=
    .made (.expression e.template e.slots) (List.forall_mem_nil _) hmake
  have hslots : ∀ slot ∈ e.slots, slot.filling.IsValueOrName :=
    List.forall_mem_cons.2 ⟨.inl ⟨_, rfl⟩, List.forall_mem_singleton.2 (.inr (.inl ⟨_, rfl⟩))⟩
  have hout : d.QuotesStandOut := (Dialect.Shipped.config .standard).quotesStandOut (.head _)
  obtain ⟨first, spots, -, hcut, hread⟩ :=
    Reachable.reads_markers hreachable hslots (.config .standard) rfl hout (by decide)
  have hplain : ∀ cs ∈ first :: spots.map Spot.behind, ∀ ch ∈ ['\'', d.leftQuote, ':'],
      ch ∉ cs := by
    intro cs hcs ch hch
    have habsent : ∀ ch ∈ ['\'', d.leftQuote, ':'], ch ∉ e.template.toList :=
      List.forall_mem_cons.2 ⟨by decide, List.forall_mem_cons.2 ⟨by decide,
        List.forall_mem_singleton.2 (by decide)⟩⟩
    obtain ⟨hfirst, hbehind⟩ := hcut.not_mem (habsent ch hch)
    obtain rfl | hcs := List.mem_cons.1 hcs
    · exact hfirst
    · obtain ⟨spot, hspot, rfl⟩ := List.mem_map.1 hcs
      exact hbehind spot.part (List.mem_map_of_mem hspot)
  obtain ⟨sql, c', hsql, hleft, -, -, -, -, -, hcomplete⟩ := hread hplain
  obtain rfl : sql = ":expr1 < \"a\"" := by
    refine Except.ok.inj (hsql.symm.trans (eq_ok_of_toOption ?_))
    decide +kernel
  obtain rfl : c = c' := hleft
  have hmarkers : markersIn ":expr1 < \"a\"" = c.entries.map fun e => e.key.marker := by
    decide +kernel
  have hvalues : c.values = [.int 1] := by decide +kernel
  have hquotable : ∀ v ∈ c.values, ∃ literal, d.quoteValue v = .ok literal := by
    rw [hvalues]
    exact List.forall_mem_singleton.2 ⟨"1", rfl⟩
  exact ⟨hreachable, hslots, .config .standard, rfl, hout, by decide, first, spots, hcut, hplain,
    hcomplete hmarkers hquotable⟩

/-- A word behind the placeholder of a value becomes a part of its marker, which
is then not found. -/
theorem Expression.marker_runs_into_word :
    let e : Expression := ⟨"\x7bx\x7dabc", [⟨"x", .value (.int 1)⟩]⟩
    let d := Dialect.ansi
    let c := (left (Node.compileInto d .expression e (.empty .named))).2
    Expression.make e.template e.slots = .ok e ∧ d.Shipped ∧ d.HasUsualQuotes ∧
      d.style = .named ∧ (∀ ch ∈ ['\'', d.leftQuote, ':'], ch ∉ e.template.toList) ∧
      answer (Node.compileInto d .expression e (.empty .named)) = .ok ":expr1abc" ∧
      c.entries = [⟨.named ":expr1", .int 1, .int⟩] ∧ d.quoteValue (.int 1) = .ok "1" ∧
      markersIn ":expr1abc" = [":expr1abc"] ∧ c.inline ":expr1abc" d = .ok ":expr1abc" := by
  intro e d c
  have hmake : Expression.make e.template e.slots = .ok e := by
    have hfault : templateFault e.template (e.slots.map Slot.name) = none := by decide +kernel
    rw [make, checkTemplate, hfault]
    rfl
  have habsent : ∀ ch ∈ ['\'', d.leftQuote, ':'], ch ∉ e.template.toList :=
    List.forall_mem_cons.2 ⟨by decide, List.forall_mem_cons.2 ⟨by decide,
      List.forall_mem_singleton.2 (by decide)⟩⟩
  refine ⟨hmake, .config .standard, .head _, rfl, habsent, eq_ok_of_toOption ?_, ?_, rfl, ?_,
    eq_ok_of_toOption ?_⟩ <;> decide +kernel

end SqlTree
