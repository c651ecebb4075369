import SqlTree.Proofs.Prefixes.Names

/-!
# SqlTree.Proofs.Prefixes.Laws

Laws of the pass over prefixes.  A second pass finds nothing more to quote
(`Dialect.quotePrefixesFrom_twice`): behind a name the two passes go on from
the same place, and where the first has found no name the second finds none
either, as names begin with no quote.  What the pass adds are quotes, and
these only where a reader of the text stands free, outside of quoted regions
and not behind a colon (`Enquoted`).
-/

namespace SqlTree

variable {d : Dialect} {names : List (List Char)}

/-! ## A second pass -/

section

variable (hd : d.QuotesNames) (hnames : AreIdentifiers names)

include hd hnames

/-- The pass puts nothing that names are made of where there was something
else. -/
theorem Requoted.prefix_of_prefix {previous : Option Char} {cs out p : List Char}
    (h : Requoted d names (.outside previous) cs out) (hp : ∀ c ∈ p, isNameChar c = true)
    (hstart : p <+: out) : p <+: cs := by
  generalize hs : Scan.outside previous = s at h
  induction h generalizing previous p with
  | nil => exact hstart
  | inside => cases hs
  | opened hclose =>
    cases p with
    | nil => exact List.nil_prefix
    | cons c p =>
      obtain ⟨rfl, -⟩ := List.cons_prefix_cons.1 hstart
      rw [hd.closer?_name (hp c List.mem_cons_self)] at hclose
      cases hclose
  | plain _ _ ih =>
    cases p with
    | nil => exact List.nil_prefix
    | cons c p =>
      obtain ⟨rfl, hrest⟩ := List.cons_prefix_cons.1 hstart
      exact List.cons_prefix_cons.2 ⟨rfl, ih (List.forall_mem_cons.1 hp).2 hrest rfl⟩
  | @name _ name cs out _ hname _ ih =>
    have hquote {t : List Char} (hstart : p <+: d.leftQuote :: t) : p = [] := by
      cases p with
      | nil => rfl
      | cons c p =>
        obtain ⟨rfl, -⟩ := List.cons_prefix_cons.1 hstart
        have hleft := hp d.leftQuote List.mem_cons_self
        rw [hd.left] at hleft
        cases hleft
    have hwritten := hnames.writtenName hd hname
    generalize (d.quoteIdentifier (String.ofList name)).toList = written at hwritten hstart
    cases hwritten with
    | word => exact hquote hstart ▸ List.nil_prefix
    | dotted => exact hquote hstart ▸ List.nil_prefix
    | star =>
      -- a star stays as it is, so what is behind it decides
      cases p with
      | nil => exact List.nil_prefix
      | cons c p =>
        obtain ⟨rfl, hrest⟩ := List.cons_prefix_cons.1 hstart
        refine List.cons_prefix_cons.2 ⟨rfl, ?_⟩
        cases p with
        | nil => exact List.nil_prefix
        | cons c p =>
          obtain ⟨rfl, hbehind⟩ := List.cons_prefix_cons.1 hrest
          have hp : ∀ x ∈ p, isNameChar x = true := fun x hx =>
            hp x (List.mem_cons_of_mem _ (List.mem_cons_of_mem _ hx))
          exact List.cons_prefix_cons.2 ⟨rfl, ih hp hbehind rfl⟩

/-- Where the pass has found no name there is none behind it either. -/
theorem leadingName_requoted {previous : Option Char} {c : Char} {cs out : List Char}
    (h : Requoted d names (.outside previous) cs out) (hnone : leadingName names (c :: cs) = none) :
    leadingName names (c :: out) = none := by
  cases hfound : leadingName names (c :: out) with
  | none => rfl
  | some name =>
    obtain ⟨hname, ⟨hne, hprefix⟩, -⟩ := leadingName_eq_some_iff.1 hfound
    obtain ⟨i, rfl⟩ := hnames name hname
    have hchars : ∀ x ∈ i.text.toList ++ ['.'], isNameChar x = true := by
      refine List.forall_mem_append.2 ⟨List.all_eq_true.1 (Bool.and_eq_true_iff.1 i.isName_text).1, ?_⟩
      exact List.forall_mem_singleton.2 (by decide)
    have hfits : Qualifies i.text.toList (c :: cs) := by
      refine ⟨hne, ?_⟩
      generalize i.text.toList ++ ['.'] = p at hchars hprefix
      cases p with
      | nil => exact List.nil_prefix
      | cons x p =>
        obtain ⟨rfl, hrest⟩ := List.cons_prefix_cons.1 hprefix
        exact List.cons_prefix_cons.2
          ⟨rfl, h.prefix_of_prefix hd hnames (List.forall_mem_cons.1 hchars).2 hrest⟩
    obtain ⟨found, hlead, -⟩ := exists_leadingName hname hfits
    rw [hnone] at hlead
    cases hlead

/-- A second pass changes nothing. -/
theorem Dialect.quotePrefixesFrom_twice (cs : List Char) {s : Scan} (hs : s.isSettled = true) :
    d.quotePrefixesFrom names s (d.quotePrefixesFrom names s cs) =
      d.quotePrefixesFrom names s cs := by
  -- a name is several characters at once, so the induction is on the length
  induction hn : cs.length using Nat.strongRecOn generalizing cs s with
  | ind n ih =>
    subst hn
    cases cs with
    | nil => simp only [quotePrefixesFrom]
    | cons c cs =>
      have hgo {s : Scan} (hs : s.isSettled = true) := ih cs.length (Nat.lt_succ_self _) cs hs rfl
      cases s with
      | within => cases hs
      | inside close =>
        rw [quotePrefixesFrom, quotePrefixesFrom, hgo (Scan.isSettled_advanceInside close c)]
      | outside previous =>
        rcases d.outside_cases names previous c cs with
          ⟨close, hclose⟩ | ⟨hclose, hprevious, name, tail, hmem, hname, htext⟩ | ⟨hclose, hname⟩
        · rw [quotePrefixesFrom_opened hclose, quotePrefixesFrom_opened hclose, hgo rfl]
        · have hlength : tail.length < (c :: cs).length := by
            rw [htext, List.length_append, List.length_cons]
            omega
          rw [quotePrefixesFrom_name hclose hprevious hname htext,
            (hnames.writtenName hd hmem).quotePrefixesFrom_append hd hnames,
            ih _ hlength tail rfl rfl]
        · have hrequoted : Requoted d names (.outside (some c)) cs _ :=
            requoted_of_isSettled rfl cs
          rw [quotePrefixesFrom_plain hclose hname, quotePrefixesFrom_plain hclose fun hprevious =>
            leadingName_requoted hd hnames hrequoted (hname hprevious), hgo rfl]

end

/-! ## Where a reader stands -/

/-- Where a reader of a text stands: free, behind a colon within the word that
follows it, or within a quoted region. -/
inductive Whereabouts where
  | free
  | marker
  | quoted (close : Char)

namespace Whereabouts

/-- Where the reader stands behind a character outside of quotes, if no marker
goes on with it. -/
def behind (d : Dialect) (c : Char) : Whereabouts :=
  match d.closer? c with
  | some close => .quoted close
  | none => if c = ':' then .marker else .free

/-- Where the reader stands behind the next character. -/
def next (d : Dialect) : Whereabouts → Char → Whereabouts
  | .quoted close, c => if c = close then .free else .quoted close
  | .marker, c => if isWordChar c then .marker else behind d c
  | .free, c => behind d c

/-- Where the reader stands behind a text. -/
def after (d : Dialect) (w : Whereabouts) (cs : List Char) : Whereabouts := cs.foldl (next d) w

/-- Within a quoted region. -/
def isQuoted : Whereabouts → Bool
  | .quoted _ => true
  | .free | .marker => false

end Whereabouts

/-- The text as it is, but for identifier quotes that are put in where its
reader stands free. -/
inductive Enquoted (d : Dialect) : Whereabouts → List Char → List Char → Prop where
  | nil (w : Whereabouts) : Enquoted d w [] []
  | copied {w : Whereabouts} {c : Char} {cs out : List Char} (h : Enquoted d (w.next d c) cs out) :
      Enquoted d w (c :: cs) (c :: out)
  | added {q : Char} {cs out : List Char} (hq : q = d.leftQuote ∨ q = d.rightQuote)
      (h : Enquoted d .free cs out) : Enquoted d .free cs (q :: out)

/-- What stands together: a quoted region, up to its end or to that of the
text, and a colon with the characters of the word that follows it. -/
inductive IsKept (d : Dialect) (w : Whereabouts) : List Char → Prop where
  | region {c close : Char} {inside : List Char} (hw : w.isQuoted = false)
      (hclose : d.closer? c = some close) (hinside : close ∉ inside) :
      IsKept d w (c :: (inside ++ [close]))
  | unended {c close : Char} {inside : List Char} (hw : w.isQuoted = false)
      (hclose : d.closer? c = some close) (hinside : close ∉ inside) :
      IsKept d w (c :: inside)
  | marker {word : List Char} (hw : w.isQuoted = false) (hword : word.all isWordChar = true) :
      IsKept d w (':' :: word)

namespace Enquoted

variable {w : Whereabouts} {cs out : List Char}

/-- Taking away the quotes that were put in gives back the text. -/
theorem exists_marked (h : Enquoted d w cs out) :
    ∃ marked : List (Char × Bool), marked.map Prod.fst = out ∧
      (marked.filter fun m => !m.2).map Prod.fst = cs ∧
      ∀ m ∈ marked, m.2 = true → m.1 = d.leftQuote ∨ m.1 = d.rightQuote := by
  induction h with
  | nil => exact ⟨[], rfl, rfl, nofun⟩
  | @copied _ c _ _ _ ih =>
    obtain ⟨marked, rfl, rfl, hmarked⟩ := ih
    exact ⟨(c, false) :: marked, rfl, rfl, List.forall_mem_cons.2 ⟨nofun, hmarked⟩⟩
  | @added q _ _ hq _ ih =>
    obtain ⟨marked, rfl, rfl, hmarked⟩ := ih
    exact ⟨(q, true) :: marked, rfl, rfl, List.forall_mem_cons.2 ⟨fun _ => hq, hmarked⟩⟩

/-- Quotes may be put in front of a text where its reader stands free. -/
theorem append_added {xs ys : List Char} (h : Enquoted d w xs ys) {quotes : List Char}
    (hquotes : quotes ≠ [] → w.after d xs = .free)
    (hall : ∀ q ∈ quotes, q = d.leftQuote ∨ q = d.rightQuote) : Enquoted d w xs (ys ++ quotes) := by
  induction h with
  | nil w =>
    rw [List.nil_append]
    induction quotes with
    | nil => exact .nil w
    | cons q quotes ih =>
      obtain ⟨hq, hall⟩ := List.forall_mem_cons.1 hall
      have hw : w = .free := hquotes (List.cons_ne_nil q quotes)
      subst hw
      exact .added hq (ih hall fun _ => rfl)
  | copied _ ih => exact .copied (ih hquotes)
  | added hq _ ih => exact .added hq (ih hquotes)

/-- What comes of a text and what comes of the text behind it. -/
theorem split {xs ys : List Char} (h : Enquoted d w (xs ++ ys) out) :
    ∃ xs' ys', out = xs' ++ ys' ∧ Enquoted d w xs xs' ∧ Enquoted d (w.after d xs) ys ys' := by
  generalize hcs : xs ++ ys = cs at h
  induction h generalizing xs with
  | nil w =>
    obtain ⟨rfl, rfl⟩ := List.append_eq_nil_iff.1 hcs
    exact ⟨[], [], rfl, .nil w, .nil w⟩
  | @copied w c cs out hrest ih =>
    cases xs with
    | nil =>
      obtain rfl : ys = c :: cs := hcs
      exact ⟨[], c :: out, rfl, .nil w, .copied hrest⟩
    | cons x xs =>
      obtain ⟨rfl, htail⟩ := List.cons.inj hcs
      obtain ⟨xs', ys', rfl, hxs, hys⟩ := ih htail
      exact ⟨x :: xs', ys', rfl, .copied hxs, hys⟩
  | @added q cs out hq hrest ih =>
    obtain ⟨xs', ys', rfl, hxs, hys⟩ := ih hcs
    exact ⟨q :: xs', ys', rfl, .added hq hxs, hys⟩

/-- In front of a character there may be quotes that were put in. -/
theorem cons_cases {c : Char} (h : Enquoted d w (c :: cs) out) :
    ∃ quotes rest, out = quotes ++ c :: rest ∧ (quotes ≠ [] → w = .free) ∧
      (∀ q ∈ quotes, q = d.leftQuote ∨ q = d.rightQuote) ∧ Enquoted d (w.next d c) cs rest := by
  generalize hcs : c :: cs = text at h
  induction h with
  | nil => cases hcs
  | @copied w c' cs' out hrest =>
    obtain ⟨rfl, rfl⟩ := List.cons.inj hcs
    exact ⟨[], out, rfl, fun h => absurd rfl h, nofun, hrest⟩
  | @added q _ _ hq _ ih =>
    obtain ⟨quotes, rest, rfl, -, hall, hrest⟩ := ih hcs
    exact ⟨q :: quotes, rest, rfl, fun _ => rfl, List.forall_mem_cons.2 ⟨hq, hall⟩, hrest⟩

/-- Nothing is put into a quoted region. -/
theorem of_quoted {close : Char} {inside : List Char} (hinside : close ∉ inside)
    (h : Enquoted d (.quoted close) (inside ++ cs) out) :
    ∃ rest, out = inside ++ rest ∧ Enquoted d (.quoted close) cs rest := by
  induction inside generalizing out with
  | nil => exact ⟨out, rfl, h⟩
  | cons c inside ih =>
    obtain ⟨hc, hinside⟩ := not_or.1 (mt List.mem_cons.2 hinside)
    cases h with
    | @copied _ _ _ out h =>
      rw [Whereabouts.next, if_neg (Ne.symm hc)] at h
      obtain ⟨rest, rfl, hrest⟩ := ih hinside h
      exact ⟨rest, rfl, hrest⟩

/-- Nothing is put into the word behind a colon. -/
theorem of_marker {word : List Char} (hword : word.all isWordChar = true)
    (h : Enquoted d .marker (word ++ cs) out) :
    ∃ rest, out = word ++ rest ∧ Enquoted d .marker cs rest := by
  induction word generalizing out with
  | nil => exact ⟨out, rfl, h⟩
  | cons c word ih =>
    obtain ⟨hc, hword⟩ := Bool.and_eq_true_iff.1 hword
    cases h with
    | @copied _ _ _ out h =>
      rw [Whereabouts.next, if_pos hc] at h
      obtain ⟨rest, rfl, hrest⟩ := ih hword h
      exact ⟨rest, rfl, hrest⟩

end Enquoted

/-! ## Steps of the reader -/

namespace Whereabouts

/-- A region goes on to its closing character. -/
theorem after_inside {close : Char} {inside : List Char} (h : close ∉ inside) :
    after d (.quoted close) inside = .quoted close := by
  induction inside with
  | nil => rfl
  | cons c inside ih =>
    obtain ⟨hc, hinside⟩ := not_or.1 (mt List.mem_cons.2 h)
    have hnext : next d (.quoted close) c = .quoted close := if_neg (Ne.symm hc)
    rw [after, List.foldl_cons, hnext]
    exact ih hinside

/-- A marker goes on to the end of its word. -/
theorem after_word {word : List Char} (h : word.all isWordChar = true) :
    after d .marker word = .marker := by
  induction word with
  | nil => rfl
  | cons c word ih =>
    obtain ⟨hc, hword⟩ := Bool.and_eq_true_iff.1 h
    have hnext : next d .marker c = .marker := if_pos hc
    rw [after, List.foldl_cons, hnext]
    exact ih hword

section

variable {w : Whereabouts} {c : Char}

theorem next_behind (hw : w.isQuoted = false) (hc : isWordChar c = false) :
    w.next d c = behind d c := by
  cases w with
  | quoted => cases hw
  | free => rfl
  | marker => rw [next, if_neg (Bool.eq_false_iff.1 hc)]

variable (hd : d.QuotesNames)

include hd

/-- A quote opens a region wherever there is none. -/
theorem next_opened (hw : w.isQuoted = false) {close : Char} (hclose : d.closer? c = some close) :
    w.next d c = .quoted close := by
  have hc : isWordChar c = false := by
    refine Bool.eq_false_iff.2 fun hword => ?_
    have hname : isNameChar c = true := Bool.or_eq_true_iff.2 (.inl hword)
    rw [hd.closer?_name hname] at hclose
    cases hclose
  rw [next_behind hw hc, behind, hclose]

/-- A colon begins a marker. -/
theorem next_colon (hw : w.isQuoted = false) : w.next d ':' = .marker := by
  rw [next_behind hw (by decide), behind, Dialect.closer?_eq_none hd.valueColon hd.leftColon]
  rfl

/-- Within a name the reader stands free. -/
theorem next_name (hc : isNameChar c = true) : free.next d c = .free := by
  have hcolon : c ≠ ':' := by
    rintro rfl
    exact absurd hc (by decide)
  rw [next, behind, hd.closer?_name hc]
  exact if_neg hcolon

end

end Whereabouts

/-! ## The pass puts in quotes -/

/-- The reader of the text stands where the pass does.  Behind a colon and
its word the pass finds no name. -/
inductive StandsAt : Scan → Whereabouts → Prop where
  | inside (close : Char) : StandsAt (.inside close) (.quoted close)
  | free (previous : Option Char) : StandsAt (.outside previous) .free
  | marker {previous : Option Char} (h : isNameBoundary previous = false) :
      StandsAt (.outside previous) .marker

namespace StandsAt

theorem isQuoted {previous : Option Char} {w : Whereabouts} (h : StandsAt (.outside previous) w) :
    w.isQuoted = false := by
  cases h <;> rfl

theorem plain {previous : Option Char} {w : Whereabouts} (h : StandsAt (.outside previous) w)
    {c : Char} (hclose : d.closer? c = none) : StandsAt (.outside (some c)) (w.next d c) := by
  have hbehind : StandsAt (.outside (some c)) (Whereabouts.behind d c) := by
    rw [Whereabouts.behind, hclose]
    dsimp only
    split
    · next hcolon => exact hcolon ▸ .marker (by decide)
    · exact .free _
  cases h with
  | free => exact hbehind
  | marker =>
    rw [Whereabouts.next]
    split
    · next hword => exact .marker (Dialect.isNameBoundary_of_isWordChar hword)
    · exact hbehind

theorem advanceInside (close c : Char) :
    StandsAt (Scan.advanceInside close c) ((Whereabouts.quoted close).next d c) := by
  rw [Scan.advanceInside, Whereabouts.next]
  split
  · exact .free _
  · exact .inside close

end StandsAt

section

variable (hd : d.QuotesNames)

include hd

theorem Enquoted.name_append {name cs out : List Char} (hname : name.all isNameChar = true)
    (h : Enquoted d .free cs out) : Enquoted d .free (name ++ cs) (name ++ out) := by
  induction name with
  | nil => exact h
  | cons c name ih =>
    obtain ⟨hc, hname⟩ := Bool.and_eq_true_iff.1 hname
    refine .copied ?_
    rw [Whereabouts.next_name hd hc]
    exact ih hname

/-- A written name is the name with quotes put in. -/
theorem WrittenName.enquoted {name written cs out : List Char} (h : WrittenName d name written)
    (hrest : Enquoted d .free cs out) :
    Enquoted d .free (name ++ '.' :: cs) (written ++ '.' :: out) := by
  have hdot {cs out : List Char} (h : Enquoted d .free cs out) :
      Enquoted d .free ('.' :: cs) ('.' :: out) :=
    Enquoted.name_append hd (by decide : ['.'].all isNameChar = true) h
  have hregion {w cs out : List Char} (hw : isWord w = true) (h : Enquoted d .free cs out) :
      Enquoted d .free (w ++ cs) (d.leftQuote :: (w ++ d.rightQuote :: out)) :=
    .added (.inl rfl) (Enquoted.name_append hd (all_isNameChar_of_isWord hw) (.added (.inr rfl) h))
  induction h with
  | star => exact Enquoted.name_append hd (by decide : ['*'].all isNameChar = true) (hdot hrest)
  | word hw => simpa using hregion hw (hdot hrest)
  | dotted hw _ ih => simpa using hregion hw (hdot ih)

/-- The pass puts in quotes and does nothing else. -/
theorem Requoted.enquoted (hnames : AreIdentifiers names) {s : Scan} {cs out : List Char}
    (h : Requoted d names s cs out) {w : Whereabouts} (hw : StandsAt s w) : Enquoted d w cs out := by
  induction h generalizing w with
  | nil => exact .nil w
  | inside _ ih =>
    cases hw
    exact .copied (ih (.advanceInside _ _))
  | @opened _ close c _ _ hclose _ ih =>
    refine .copied (ih ?_)
    rw [Whereabouts.next_opened hd hw.isQuoted hclose]
    exact .inside close
  | plain hclose _ ih => exact .copied (ih (hw.plain hclose))
  | name hprevious hname _ ih =>
    cases hw with
    | free => exact (hnames.writtenName hd hname).enquoted hd (ih (.free _))
    | marker hmarker =>
      rw [hprevious] at hmarker
      cases hmarker

/-- What stands together stays together. -/
theorem Enquoted.of_isKept {w : Whereabouts} {kept cs out : List Char} (hkept : IsKept d w kept)
    (h : Enquoted d w (kept ++ cs) out) :
    ∃ quotes rest, out = quotes ++ (kept ++ rest) ∧ (quotes ≠ [] → w = .free) ∧
      (∀ q ∈ quotes, q = d.leftQuote ∨ q = d.rightQuote) ∧
      Enquoted d (w.after d kept) cs rest := by
  cases hkept with
  | @region c close inside hw hclose hinside =>
    have htext : c :: (inside ++ [close]) ++ cs = c :: (inside ++ close :: cs) := by simp
    rw [htext] at h
    obtain ⟨quotes, rest, rfl, hfree, hall, hrest⟩ := h.cons_cases
    rw [Whereabouts.next_opened hd hw hclose] at hrest
    obtain ⟨rest, rfl, hclosed⟩ := hrest.of_quoted hinside
    cases hclosed with
    | @copied _ _ _ rest hbehind =>
      refine ⟨quotes, rest, by simp, hfree, hall, ?_⟩
      have hafter : w.after d (c :: (inside ++ [close])) =
          (Whereabouts.quoted close).next d close := by
        rw [Whereabouts.after, List.foldl_cons, List.foldl_append,
          Whereabouts.next_opened hd hw hclose]
        exact congrArg (Whereabouts.next d · close) (Whereabouts.after_inside hinside)
      rw [hafter]
      exact hbehind
  | @unended c close inside hw hclose hinside =>
    obtain ⟨quotes, rest, rfl, hfree, hall, hrest⟩ := h.cons_cases
    rw [Whereabouts.next_opened hd hw hclose] at hrest
    obtain ⟨rest, rfl, hbehind⟩ := hrest.of_quoted hinside
    have hafter : w.after d (c :: inside) = .quoted close := by
      rw [Whereabouts.after, List.foldl_cons, Whereabouts.next_opened hd hw hclose]
      exact Whereabouts.after_inside hinside
    rw [hafter]
    exact ⟨quotes, rest, by simp, hfree, hall, hbehind⟩
  | @marker word hw hword =>
    obtain ⟨quotes, rest, rfl, hfree, hall, hrest⟩ := h.cons_cases
    rw [Whereabouts.next_colon hd hw] at hrest
    obtain ⟨rest, rfl, hbehind⟩ := hrest.of_marker hword
    have hafter : w.after d (':' :: word) = .marker := by
      rw [Whereabouts.after, List.foldl_cons, Whereabouts.next_colon hd hw]
      exact Whereabouts.after_word hword
    rw [hafter]
    exact ⟨quotes, rest, by simp, hfree, hall, hbehind⟩

end

/-! ## Main result -/

/-- Quoting the prefixes of a text a second time changes nothing; the order of
the names does not matter, nor how often they are listed; the text stays as it
is but for identifier quotes that are put in where a reader stands free, so
quoted regions and markers stay in one piece and in their order; and without
the quotes that were put in it is the same text. -/
theorem Dialect.quotePrefixes_laws (hvalue : d.valueQuote = '\'') (hquotes : d.HasUsualQuotes)
    (names : List Identifier) (text : String) :
    let requoted (names : List Identifier) (text : String) : String :=
      d.quotePrefixes (names.map Identifier.text) text
    requoted names (requoted names text) = requoted names text ∧
      (∀ names' : List Identifier, (∀ i, i ∈ names' ↔ i ∈ names) →
        requoted names' text = requoted names text) ∧
      Enquoted d .free text.toList (requoted names text).toList ∧
      (∀ before kept behind, text.toList = before ++ (kept ++ behind) →
        IsKept d (Whereabouts.free.after d before) kept →
        ∃ before' behind', (requoted names text).toList = before' ++ (kept ++ behind') ∧
          Enquoted d .free before before' ∧
          Enquoted d (Whereabouts.free.after d (before ++ kept)) behind behind') ∧
      ∃ marked : List (Char × Bool), marked.map Prod.fst = (requoted names text).toList ∧
        (marked.filter fun m => !m.2).map Prod.fst = text.toList ∧
        ∀ m ∈ marked, m.2 = true → m.1 = d.leftQuote ∨ m.1 = d.rightQuote := by
  intro requoted
  have hd := quotesNames hvalue hquotes
  have hnames : AreIdentifiers ((names.map Identifier.text).map String.toList) := by
    intro name hname
    rw [List.map_map] at hname
    obtain ⟨i, -, rfl⟩ := List.mem_map.1 hname
    exact ⟨i, rfl⟩
  have hpass (text : String) : (requoted names text).toList = d.quotePrefixesFrom
      ((names.map Identifier.text).map String.toList) .start text.toList := String.toList_ofList
  have henquoted : Enquoted d .free text.toList (requoted names text).toList :=
    (d.requoted_quotePrefixes (names.map Identifier.text) text).enquoted hd hnames (.free none)
  refine ⟨?_, fun names' hmem => ?_, henquoted, fun before kept behind htext hkept => ?_,
    henquoted.exists_marked⟩
  · rw [← String.toList_inj, hpass, hpass]
    exact quotePrefixesFrom_twice hd hnames _ rfl
  · have hlists (name : List Char) : name ∈ (names'.map Identifier.text).map String.toList ↔
        name ∈ (names.map Identifier.text).map String.toList := by
      simp only [List.mem_map, hmem]
    exact congrArg String.ofList (quotePrefixesFrom_eq_of_mem_iff hlists _ _)
  · rw [htext] at henquoted
    obtain ⟨before', rest, hrest, hbefore, hbehind⟩ := henquoted.split
    obtain ⟨quotes, behind', rfl, hfree, hall, hbehind⟩ := hbehind.of_isKept hd hkept
    refine ⟨before' ++ quotes, behind', by rw [hrest, List.append_assoc],
      hbefore.append_added hfree hall, ?_⟩
    rwa [Whereabouts.after, List.foldl_append]

/-- A name that is a part of another one, a quoted region and a marker. -/
theorem Dialect.quotePrefixes_laws_of_qualified_name :
    let a : Identifier := ⟨"a", by decide +kernel⟩
    let ab : Identifier := ⟨"a.b", by decide +kernel⟩
    let requoted (names : List Identifier) (text : String) : String :=
      ansi.quotePrefixes (names.map Identifier.text) text
    let text := "a.b.c = 'a.c' AND a.c = :a1"
    let out := "\"a\".\"b\".c = 'a.c' AND \"a\".c = :a1"
    ansi.valueQuote = '\'' ∧ ansi.HasUsualQuotes ∧ requoted [a, ab] text = out ∧
      requoted [a, ab] out = out ∧ requoted [ab, a, ab] text = out ∧
      Enquoted ansi .free text.toList out.toList := by
  intro a ab requoted text out
  have hquotes : ansi.HasUsualQuotes := .head _
  have hout : requoted [a, ab] text = out := by decide +kernel
  obtain ⟨htwice, hmem, henquoted, -, -⟩ := quotePrefixes_laws rfl hquotes [a, ab] text
  have hnames : ∀ i, i ∈ [ab, a, ab] ↔ i ∈ [a, ab] := by simp [or_comm]
  refine ⟨rfl, hquotes, hout, ?_, ?_, ?_⟩
  · rw [← hout]
    exact htwice
  · rw [← hout]
    exact hmem _ hnames
  · rw [← hout]
    exact henquoted

end SqlTree
