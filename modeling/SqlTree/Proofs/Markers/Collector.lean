import Mathlib.Data.List.Nodup
import SqlTree.Proofs.Draft.Basic
import SqlTree.Proofs.Markers.Scan

/-!
# SqlTree.Proofs.Markers.Collector

The markers that a collector gives.  A named marker is a colon and a word
(`exists_word_record`), and it is none that was given before
(`not_isTaken_nextNumber`), as among one more numbers than there are entries
one is free.  So the keys of a collector never repeat
(`nodup_keys_bindAll`), and the keys that bindings add are the markers that
were given for them (`keys_bindAll`).
-/

namespace SqlTree

/-! ## Words of markers -/

theorem isWordChar_of_isDigit {c : Char} (h : c.isDigit = true) : isWordChar c = true := by
  simp [isWordChar, Char.isAlphanum, h]

/-- A hint becomes a word. -/
theorem isWord_hintWord (hint : String) : isWord (hintWord hint).toList = true := by
  have hall : (hint.toList.map fun c => if c.isAlphanum then c else '_').all isWordChar = true := by
    rw [List.all_map, List.all_eq_true]
    intro c _
    by_cases hc : c.isAlphanum = true <;> simp [hc, isWordChar]
  rw [hintWord]
  split
  · decide
  · next c cs hchars =>
    rw [hchars, List.all_cons, Bool.and_eq_true] at hall
    obtain ⟨hc, hcs⟩ := hall
    rw [String.toList_ofList]
    by_cases hdigit : c.isDigit = true
    · rw [if_pos hdigit, isWord, List.all_cons, hc, hcs]
      decide
    · have hstart : isWordStart c = true := by
        simpa [isWordStart, isWordChar, Char.isAlphanum, hdigit] using hc
      rw [if_neg hdigit, isWord, hstart, hcs]
      rfl

theorem all_isWordChar_toString (n : Nat) : (toString n).toList.all isWordChar = true := by
  rw [List.all_eq_true, Nat.toString_eq_ofList_toDigits, String.toList_ofList]
  exact fun c hc => isWordChar_of_isDigit (Nat.isDigit_of_mem_toDigits (by decide) (by decide) hc)

theorem isWord_append {w cs : List Char} (hw : isWord w = true) (hcs : cs.all isWordChar = true) :
    isWord (w ++ cs) = true := by
  cases w with
  | nil => cases hw
  | cons c w =>
    obtain ⟨hc, hw⟩ := Bool.and_eq_true_iff.1 hw
    rw [List.cons_append, isWord, hc, List.all_append, hw, hcs]
    rfl

namespace Collector

theorem toList_markerOf (hint : String) (n : Nat) :
    (markerOf hint n).toList = ':' :: (hint.toList ++ (toString n).toList) := by
  simp [markerOf, toString]

/-- Numbers tell the markers of a hint apart. -/
theorem markerOf_injective {hint : String} {n m : Nat} 
    (h : markerOf hint n = markerOf hint m) : n = m := by
  have hlist := congrArg String.toList h
  rw [toList_markerOf, toList_markerOf] at hlist
  have hdigits : (toString n).toList = (toString m).toList :=
    List.append_cancel_left (List.tail_eq_of_cons_eq hlist)
  rw [Nat.toString_eq_ofList_toDigits, Nat.toString_eq_ofList_toDigits, String.toList_ofList,
    String.toList_ofList] at hdigits
  have hnumber := congrArg (fun digits => Nat.ofDigitChars 10 digits 0) hdigits
  simpa [Nat.ofDigitChars_ten_toDigits] using hnumber

/-! ## Free numbers -/

theorem isTaken_iff {c : Collector} {marker : String} :
    c.isTaken marker = true ↔ Key.named marker ∈ c.entries.map Entry.key := by
  simp [isTaken, List.any_eq_true]

/-- If the number that is found is taken, so are all that were tried. -/
theorem isTaken_of_isTaken_freeNumber {c : Collector} {hint : String} {fuel n : Nat}
    (h : c.isTaken (markerOf hint (c.freeNumber hint fuel n)) = true) :
    ∀ i ≤ fuel, c.isTaken (markerOf hint (n + i)) = true := by
  induction fuel generalizing n with
  | zero =>
    intro i hi
    obtain rfl : i = 0 := by omega
    exact h
  | succ fuel ih =>
    rw [freeNumber] at h
    split at h
    · next hn =>
      intro i hi
      cases i with
      | zero => exact hn
      | succ i =>
        rw [show n + (i + 1) = n + 1 + i by omega]
        exact ih h i (by omega)
    · next hn => exact absurd h hn

/-- There are more numbers to try than entries, so one of them is free. -/
theorem not_isTaken_nextNumber (c : Collector) (hint : String) :
    c.isTaken (markerOf hint (c.nextNumber hint)) = false := by
  rw [Bool.eq_false_iff]
  intro h
  have htaken := isTaken_of_isTaken_freeNumber h
  let tried := (List.range (c.size + 1)).map fun i =>
    Key.named (markerOf hint (c.counter hint + 1 + i))
  have hnodup : tried.Nodup := by
    refine List.nodup_range.map fun i j hij => ?_
    have := markerOf_injective (Key.named.inj hij)
    omega
  have hsubset : tried ⊆ c.entries.map Entry.key := by
    intro key hkey
    obtain ⟨i, hi, rfl⟩ := List.mem_map.1 hkey
    exact isTaken_iff.1 (htaken i (by have := List.mem_range.1 hi; omega))
  have hlength := hnodup.length_le_of_subset hsubset
  simp only [tried, List.length_map, List.length_range, size] at hlength
  omega

/-! ## Markers given -/

/-- The markers that bindings get, one after the other. -/
def markersFor (c : Collector) : List Binding → List String
  | [] => []
  | b :: bs => (c.record b.value b.type b.hint).1 :: (c.bind b).markersFor bs

theorem markersFor_append (c : Collector) (bs bs' : List Binding) :
    c.markersFor (bs ++ bs') = c.markersFor bs ++ (c.bindAll bs).markersFor bs' := by
  induction bs generalizing c with
  | nil => rfl
  | cons b bs ih =>
    rw [List.cons_append, markersFor, ih, markersFor, List.cons_append]
    rfl

variable {c : Collector}

/-- A named marker is a colon and a word. -/
theorem exists_word_record (hc : c.style = .named) (b : Binding) :
    ∃ w, isWord w = true ∧ (c.record b.value b.type b.hint).1.toList = ':' :: w := by
  refine ⟨_, isWord_append (isWord_hintWord b.hint)
    (all_isWordChar_toString (c.nextNumber (hintWord b.hint))), ?_⟩
  rw [record, hc]
  exact toList_markerOf _ _

/-- In any style a marker is a question mark, or a colon and a word. -/
theorem record_eq_mark_or_word (c : Collector) (b : Binding) :
    (c.record b.value b.type b.hint).1 = "?" ∨
    ∃ w, isWord w = true ∧ (c.record b.value b.type b.hint).1.toList = ':' :: w := by
  cases hc : c.style with
  | named => exact .inr (exists_word_record hc b)
  | positional =>
    rw [record, hc]
    exact .inl rfl

/-- Bindings add one entry each, with their values and types in order, under
the markers given for them. -/
theorem entries_bindAll (c : Collector) (bs : List Binding) : ∃ added,
    (c.bindAll bs).entries = c.entries ++ added ∧
      added.map (fun e => (e.value, e.type)) = bs.map (fun b => (b.value, b.type)) ∧
      added.map (fun e => e.key.marker) = c.markersFor bs := by
  induction bs generalizing c with
  | nil => exact ⟨[], (List.append_nil _).symm, rfl, rfl⟩
  | cons b bs ih =>
    obtain ⟨key, hentries, hmarker⟩ := c.entries_record b.value b.type b.hint
    obtain ⟨added, hadded, hvalues, hmarkers⟩ := ih (c.bind b)
    have hbind : (c.bind b).entries = c.entries ++ [⟨key, b.value, b.type⟩] := hentries
    refine ⟨⟨key, b.value, b.type⟩ :: added, ?_, ?_, ?_⟩
    · change ((c.bind b).bindAll bs).entries = _
      rw [hadded, hbind, List.append_assoc, List.singleton_append]
    · rw [List.map_cons, List.map_cons, hvalues]
    · rw [List.map_cons, markersFor, hmarkers, hmarker]

/-- So the values that they add are their own. -/
theorem values_bindAll (c : Collector) (bs : List Binding) :
    (c.bindAll bs).values = c.values ++ bs.map Binding.value := by
  obtain ⟨added, hadded, hvalues, -⟩ := c.entries_bindAll bs
  have hown := congrArg (List.map Prod.fst) hvalues
  rw [List.map_map, List.map_map] at hown
  rw [values, hadded, List.map_append, values]
  exact congrArg (c.entries.map Entry.value ++ ·) hown

theorem keys_bind (hc : c.style = .named) (b : Binding) : (c.bind b).entries.map Entry.key =
    c.entries.map Entry.key ++ [.named (c.record b.value b.type b.hint).1] := by
  rw [bind, record, hc]
  simp

/-- Bindings add the markers given for them, in order. -/
theorem keys_bindAll (hc : c.style = .named) (bs : List Binding) :
    (c.bindAll bs).entries.map Entry.key = c.entries.map Entry.key ++
    (c.markersFor bs).map Key.named := by
  induction bs generalizing c with
  | nil => simp [markersFor]
  | cons b bs ih =>
    have hbind : (c.bind b).style = .named := by rw [style_bind, hc]
    change ((c.bind b).bindAll bs).entries.map Entry.key = _
    rw [ih hbind, keys_bind hc, markersFor, List.map_cons, List.append_assoc, List.singleton_append]

theorem nodup_keys_bind (hc : c.style = .named) (h : (c.entries.map Entry.key).Nodup)
    (b : Binding) : ((c.bind b).entries.map Entry.key).Nodup := by
  rw [keys_bind hc, List.nodup_append]
  refine ⟨h, List.nodup_singleton _, fun key hkey key' hkey' => ?_⟩
  rintro rfl
  rw [List.mem_singleton.1 hkey', ← isTaken_iff, record, hc] at hkey
  rw [not_isTaken_nextNumber] at hkey
  cases hkey

/-- No marker is given twice. -/
theorem nodup_keys_bindAll (hc : c.style = .named) (h : (c.entries.map Entry.key).Nodup)
    (bs : List Binding) : ((c.bindAll bs).entries.map Entry.key).Nodup := by
  induction bs generalizing c with
  | nil => exact h
  | cons b bs ih => exact ih (c := c.bind b) (by rw [style_bind, hc]) (nodup_keys_bind hc h b)

end Collector

end SqlTree
