import Mathlib.Logic.Function.Basic
import SqlTree.Proofs.Sections.Script

/-!
# SqlTree.Proofs.Sections.Index

Markers looked up in an index.  An `Indexed` collector also keeps the places
of its named markers: a creation looks there for a free number and adds the
marker it found, and a failed attempt takes the markers of the entries it
cuts off out again.  Each of the two keeps the index to the entries that
there are (`Sound.create`, `Sound.backTo`), so it does along a whole script
(`Sound.run`), and the index answers what a look through the entries does
(`Sound.find?_eq`).

The main result, `Script.run_invariant`, says what holds of a collector
after any script.
-/

namespace SqlTree

open Collector

/-! ## The search for a number -/

/-- The loop that looks for a free number.  It goes on to the next one while
the marker is taken, and ends at the first that is not. -/
inductive Finds (taken : String → Bool) (hint : String) : Nat → Nat → Prop where
  | free {n : Nat} (h : taken (Collector.markerOf hint n) = false) : Finds taken hint n n
  | next {n m : Nat} (h : taken (Collector.markerOf hint n) = true)
    (hrest : Finds taken hint (n + 1) m) : Finds taken hint n m

namespace Collector

theorem finds_freeNumber {c : Collector} {hint : String} {fuel n : Nat}
    (h : c.isTaken (markerOf hint (c.freeNumber hint fuel n)) = false) :
    Finds c.isTaken hint n (c.freeNumber hint fuel n) := by
  induction fuel generalizing n with
  | zero => exact .free h
  | succ fuel ih =>
    by_cases hn : c.isTaken (markerOf hint n) = true
    · rw [freeNumber, if_pos hn] at h ⊢
      exact .next hn (ih h)
    · rw [freeNumber, if_neg hn]
      exact .free (Bool.eq_false_iff.2 hn)

/-- The loop comes to an end, at the number that a creation takes. -/
theorem finds_nextNumber (c : Collector) (hint : String) :
    Finds c.isTaken hint (c.counter hint + 1) (c.nextNumber hint) :=
  finds_freeNumber (c.not_isTaken_nextNumber hint)

end Collector

/-! ## Indexed collectors -/

/-- A collector with the places of its named markers. -/
structure Indexed where
  collector : Collector
  index : String → Option Nat

namespace Indexed

/-- An indexed collector without entries. -/
def empty (style : MarkerStyle) : Indexed := ⟨.empty style, fun _ => none⟩

/-- The index has this marker. -/
def isTaken (ix : Indexed) (marker : String) : Bool := (ix.index marker).isSome

/-- The entry of a named marker, by the index. -/
def find? (ix : Indexed) (marker : String) : Option Entry :=
  (ix.index marker).bind fun i => ix.collector.entries[i]?

/-- Records a value, and the place of its marker if it is a named one. -/
def create (ix : Indexed) (value : Value) (type? : Option BindType) (hint? : Option String) : Indexed where
  collector := (ix.collector.create value type? hint?).2
  index := match ix.collector.style with
    | .named =>
      Function.update ix.index (ix.collector.create value type? hint?).1 (some ix.collector.size)
    | .positional => ix.index

/-- The index without the markers of some entries. -/
def release (index : String → Option Nat) : List Entry → String → Option Nat
  | [] => index
  | e :: es =>
    match e.key with
    | .named marker => release (Function.update index marker none) es
    | .position _ => release index es

/-- Cuts the entries back to those of an earlier collector and takes the
markers of the others out of the index. -/
def backTo (ix before : Indexed) : Indexed :=
  ⟨ix.collector.backTo before.collector, release ix.index (ix.collector.entries.drop before.collector.size)⟩

end Indexed

/-- The indexed collector after the script. -/
def Script.runIndexed : Script → Indexed → Indexed
  | .done, ix => ix
  | .create value type? hint? rest, ix => rest.runIndexed (ix.create value type? hint?)
  | .attempt inner none rest, ix => rest.runIndexed (inner.runIndexed ix)
  | .attempt inner (some _) rest, ix => rest.runIndexed ((inner.runIndexed ix).backTo ix)

/-! ## Places -/

/-- The entry at place `i` has this marker. -/
def Placed (es : List Entry) (m : String) (i : Nat) : Prop := ∃ e, es[i]? = some e ∧ e.key = .named m

theorem placed_append {es fs : List Entry} {m : String} {i : Nat} : Placed (es ++ fs) m i ↔
    Placed es m i ∨ es.length ≤ i ∧ Placed fs m (i - es.length) := by
  by_cases hi : i < es.length
  · have hnot : ¬ es.length ≤ i := by omega
    simp [Placed, List.getElem?_append_left hi, hnot]
  · have hle : es.length ≤ i := by omega
    simp [Placed, List.getElem?_append_right hle, hle]

theorem placed_singleton {e : Entry} {m : String} {i : Nat} :
    Placed [e] m i ↔ i = 0 ∧ e.key = .named m := by
  cases i with
  | zero => simp [Placed]
  | succ i => simp [Placed]

theorem exists_placed {es : List Entry} {m : String} :
    (∃ i, Placed es m i) ↔ Key.named m ∈ es.map Entry.key := by
  constructor
  · intro ⟨i, e, hi, hkey⟩
    exact List.mem_map.2 ⟨e, List.mem_of_getElem? hi, hkey⟩
  · intro hmem
    obtain ⟨e, he, hkey⟩ := List.mem_map.1 hmem
    obtain ⟨i, hi⟩ := List.mem_iff_getElem?.1 he
    exact ⟨i, e, hi, hkey⟩

/-- A marker has at most one place. -/
theorem Collector.Keyed.placed_unique {c : Collector} (h : c.Keyed) {m : String} {i j : Nat}
    (hi : Placed c.entries m i) (hj : Placed c.entries m j) : i = j := by
  obtain ⟨e, he, hkey⟩ := hi
  obtain ⟨e', he', hkey'⟩ := hj
  exact h.eq_of_key_eq he he' hkey hkey'

namespace Indexed

/-- The index has the place of each marker and nothing else. -/
structure Sound (ix : Indexed) : Prop where
  keyed : ix.collector.Keyed
  places : ∀ m i, ix.index m = some i ↔ Placed ix.collector.entries m i

theorem release_apply (index : String → Option Nat) (es : List Entry) (m : String) :
    release index es m = if .named m ∈ es.map Entry.key then none else index m := by
  induction es generalizing index with
  | nil => rfl
  | cons e es ih =>
    rw [release, List.map_cons]
    cases hkey : e.key with
    | named marker =>
      simp only [ih]
      by_cases hm : m = marker <;> simp [hm]
    | position n => simp [ih]

namespace Sound

variable {ix before : Indexed}

theorem empty (style : MarkerStyle) : (Indexed.empty style).Sound := by
  refine ⟨.empty style, fun m i => ⟨fun h => ?_, fun h => ?_⟩⟩
  · cases h
  · obtain ⟨e, he, -⟩ := h
    cases he

/-- The index answers what a look through the entries does. -/
theorem find?_eq (h : ix.Sound) (m : String) : ix.find? m = ix.collector.find? m := by
  ext e
  rw [h.keyed.find?_eq_some, find?, Option.bind_eq_some_iff]
  constructor
  · intro ⟨i, hi, he⟩
    obtain ⟨e', he', hkey⟩ := (h.places m i).1 hi
    rw [he] at he'
    rw [Option.some.inj he']
    exact ⟨List.mem_of_getElem? (he.trans he'), hkey⟩
  · intro ⟨hmem, hkey⟩
    obtain ⟨i, hi⟩ := List.mem_iff_getElem?.1 hmem
    exact ⟨i, (h.places m i).2 ⟨e, hi, hkey⟩, hi⟩

theorem isTaken_eq (h : ix.Sound) : ix.isTaken = ix.collector.isTaken := by
  funext m
  rw [Bool.eq_iff_iff, Collector.isTaken_iff, isTaken, Option.isSome_iff_exists, ← exists_placed]
  exact exists_congr (h.places m)

/-- A creation adds the place of its marker, which had none. -/
theorem create (h : ix.Sound) (value : Value) (type? : Option BindType) (hint? : Option String) :
    (ix.create value type? hint?).Sound := by
  let b : Binding := ⟨value, type?.getD value.bindType, hint?.getD "param"⟩
  refine ⟨h.keyed.bind b, fun m i => ?_⟩
  have hcollector : (ix.create value type? hint?).collector = ix.collector.bind b := rfl
  rw [hcollector]
  cases hstyle : ix.collector.style with
  | positional =>
    have hentries : (ix.collector.bind b).entries =
        ix.collector.entries ++ [⟨.position (ix.collector.size + 1), b.value, b.type⟩] := by
      rw [Collector.bind, Collector.record, hstyle]
    have hindex : (ix.create value type? hint?).index = ix.index := by
      simp only [Indexed.create]
      rw [hstyle]
    rw [hentries, hindex, h.places, placed_append, placed_singleton]
    simp
  | named =>
    let marker := (ix.collector.create value type? hint?).1
    have hmarker :
        marker = markerOf (hintWord b.hint) (ix.collector.nextNumber (hintWord b.hint)) := by
      simp only [marker, Collector.create, record, hstyle, b]
    have hentries : (ix.collector.bind b).entries =
        ix.collector.entries ++ [⟨.named marker, b.value, b.type⟩] := by
      rw [Collector.bind, record, hstyle, hmarker]
    have hfresh : ¬ ∃ i, Placed ix.collector.entries marker i := by
      rw [exists_placed, ← isTaken_iff, hmarker, not_isTaken_nextNumber]
      decide
    have hindex : (ix.create value type? hint?).index =
        Function.update ix.index marker (some ix.collector.size) := by
      simp only [Indexed.create]
      rw [hstyle]
    rw [hentries, hindex, placed_append, placed_singleton]
    by_cases hm : m = marker
    · have hnot : ¬ Placed ix.collector.entries marker i := fun hi => hfresh ⟨i, hi⟩
      rw [hm, Function.update_self]
      simp only [hnot, false_or, Option.some.injEq, and_true]
      change ix.collector.entries.length = i ↔ _
      omega
    · rw [Function.update_of_ne hm, h.places]
      simp [Ne.symm hm]

/-- Cutting back leaves the places of the entries that stay. -/
theorem backTo (h : ix.Sound) (hbefore : before.collector.Keyed)
    (hwithin : before.collector.Within ix.collector) : (ix.backTo before).Sound := by
  have hcollector : (ix.backTo before).collector = before.collector := hwithin.backTo
  refine ⟨by rwa [hcollector], fun m i => ?_⟩
  obtain ⟨later, hlater⟩ := hwithin.entries
  have hdropped : ix.collector.entries.drop before.collector.size = later := by
    rw [← hlater, Collector.size, List.drop_left]
  have hindex : (ix.backTo before).index m =
      if .named m ∈ later.map Entry.key then none else ix.index m := by
    rw [← hdropped]
    exact release_apply _ _ m
  have hplaces := h.places m i
  rw [← hlater, placed_append] at hplaces
  rw [hcollector, hindex]
  by_cases hmem : .named m ∈ later.map Entry.key
  · -- the marker stands with an entry that is cut off, so with none that stays
    obtain ⟨j, hj⟩ := exists_placed.2 hmem
    have hcut : Placed ix.collector.entries m (before.collector.entries.length + j) := by
      rw [← hlater, placed_append]
      exact .inr ⟨by omega, by simpa using hj⟩
    rw [if_pos hmem]
    refine ⟨fun h => absurd h (Option.some_ne_none i).symm, fun hi => ?_⟩
    have hstays : Placed ix.collector.entries m i := by
      rw [← hlater, placed_append]
      exact .inl hi
    have heq := h.keyed.placed_unique hstays hcut
    obtain ⟨e, he, -⟩ := hi
    have hlt := (List.getElem?_eq_some_iff.1 he).1
    omega
  · rw [if_neg hmem, hplaces]
    constructor
    · rintro (hi | ⟨-, hi⟩)
      · exact hi
      · exact absurd (exists_placed.1 ⟨_, hi⟩) hmem
    · exact .inl

/-- So a script keeps the index to the entries, and the collector beside it
is the one that the script leaves without an index. -/
theorem run (h : ix.Sound) (s : Script) :
    (s.runIndexed ix).Sound ∧ (s.runIndexed ix).collector = s.run ix.collector := by
  induction s generalizing ix with
  | done => exact ⟨h, rfl⟩
  | create value type? hint? rest ih => exact ih (h.create value type? hint?)
  | attempt inner error? rest ihinner ihrest =>
    obtain ⟨hinner, hcollector⟩ := ihinner h
    cases error? with
    | none =>
      have hrun := ihrest hinner
      rw [hcollector] at hrun
      exact hrun
    | some e =>
      have hwithin : ix.collector.Within (inner.runIndexed ix).collector := by
        rw [hcollector]
        exact inner.within_run ix.collector
      have hback : ((inner.runIndexed ix).backTo ix).collector = ix.collector := hwithin.backTo
      have hrun := ihrest (hinner.backTo h.keyed hwithin)
      rw [hback, ← Script.run_attempt_some inner e rest] at hrun
      exact hrun

end Sound

end Indexed

/-! ## Main result -/

/-- What holds of a collector after any script.  With its markers it also
keeps an index, by which it finds what a look through its entries does and
in which the search for a number ends at a free one.  Its entries are the
values recorded outside of failed attempts, in order, under the markers that
these creations answered.  Named markers are colons with words, each with an
entry of its own; positional ones are found at their places, and nothing
beyond. -/
theorem Script.run_invariant (style : MarkerStyle) (s : Script) :
    let c := s.run (.empty style)
    let ix := s.runIndexed (.empty style)
    ix.collector = c ∧ (∀ m, ix.find? m = c.find? m) ∧
    (∀ hint, Finds ix.isTaken hint (c.counter hint + 1) (c.nextNumber hint)) ∧
    c.entries.map (fun e => (e.value, e.type)) = s.kept.map (fun b => (b.value, b.type)) ∧
    c.entries.map (fun e => e.key.marker) = (Collector.empty style).markersFor s.kept ∧
    (∀ m e, c.find? m = some e ↔ e ∈ c.entries ∧ e.key = .named m) ∧
    match style with
    | .named => (c.entries.map Entry.key).Nodup ∧ ∀ e ∈ c.entries,
        ∃ w, isWord w = true ∧ e.key = .named (String.ofList (':' :: w))
    | .positional => (∀ n, c.findAt? n = none ↔ n = 0 ∨ c.size < n) ∧ ∀ i e,
        c.entries[i]? = some e → e.key = .position (i + 1) ∧ c.findAt? (i + 1) = some e := by
  intro c ix
  obtain ⟨hsound, hix⟩ : ix.Sound ∧ ix.collector = c := (Indexed.Sound.empty style).run s
  have hkeyed : c.Keyed := (Collector.Keyed.empty style).run s
  have hbindings : c = (Collector.empty style).bindAll s.kept := s.run_eq_bindAll _
  have hstyle : c.style = style := by
    rw [hbindings, style_bindAll]
    rfl
  obtain ⟨added, hadded, hvalues, hmarkers⟩ := (Collector.empty style).entries_bindAll s.kept
  have hentries : c.entries = added := by
    rw [hbindings, hadded]
    rfl
  refine ⟨hix, fun m => ?_, fun hint => ?_, ?_, ?_, fun m e => hkeyed.find?_eq_some, ?_⟩
  · rw [hsound.find?_eq, hix]
  · rw [hsound.isTaken_eq, hix]
    exact c.finds_nextNumber hint
  · rw [hentries, hvalues]
  · rw [hentries, hmarkers]
  · cases style with
    | named =>
      obtain ⟨hforms, hnodup⟩ := hkeyed.named hstyle
      exact ⟨hnodup, fun e he => hforms e.key (List.mem_map_of_mem he)⟩
    | positional =>
      refine ⟨fun n => ?_, fun i e hi => hkeyed.findAt?_succ hstyle hi⟩
      cases n with
      | zero => simp [findAt?]
      | succ n =>
        rw [findAt?, if_pos hstyle, List.getElem?_eq_none_iff]
        change c.size ≤ n ↔ _
        omega

end SqlTree
