import SqlTree.Proofs.Markers.Collector
import SqlTree.Proofs.Rollback.Grows

/-!
# SqlTree.Proofs.Sections.Script

Values recorded one by one and in sections.  A `Script` creates markers and
attempts scripts of its own, each of which is taken back if it fails, to any
depth.  An attempt that fails leaves the collector as it was, so a script
leaves what the creations outside of failed attempts leave by themselves
(`run_eq_bindAll`), and any key of it is one that they gave: a marker of its
own in one style (`Keyed.named`), its position in the other
(`Keyed.positional`).
-/

namespace SqlTree

/-! ## Scripts -/

/-- What is done to a collector: values get markers one after the other, and
scripts are attempted, which at their end succeed or fail with an error. -/
inductive Script where
  | done
  | create (value : Value) (type? : Option BindType) (hint? : Option String) (rest : Script)
  | attempt (inner : Script) (error? : Option Error) (rest : Script)

/-- The action that changes the collector and then succeeds, or fails with
the error if there is one. -/
def Collecting.ending (change : Collector → Collector) : Option Error → Collecting Unit
  | none => fun c => .ok () (change c)
  | some e => fun c => .error e (change c)

namespace Script

/-- The collector after the script.  The error of an attempt is not passed
on: a script that stops at one is a shorter script that fails itself. -/
def run : Script → Collector → Collector
  | .done, c => c
  | .create value type? hint? rest, c => rest.run (c.create value type? hint?).2
  | .attempt inner error? rest, c =>
    rest.run (left ((Collecting.ending inner.run error?).orRestore c))

/-- What is recorded outside of failed attempts. -/
def kept : Script → List Binding
  | .done => []
  | .create value type? hint? rest =>
    ⟨value, type?.getD value.bindType, hint?.getD "param"⟩ :: rest.kept
  | .attempt inner none rest => inner.kept ++ rest.kept
  | .attempt _ (some _) rest => rest.kept

/-! ## Attempts -/

theorem run_attempt_none (inner rest : Script) (c : Collector) :
    (attempt inner none rest).run c = rest.run (inner.run c) := rfl

/-- A script only adds to the collector. -/
theorem within_run (s : Script) (c : Collector) : c.Within (s.run c) := by
  induction s generalizing c with
  | done => exact .refl c
  | create value type? hint? rest ih =>
    have hfirst : c.Within (c.create value type? hint?).2 := .record c value _ _
    exact hfirst.trans (ih _)
  | attempt inner error? rest ihinner ihrest =>
    cases error? with
    | none => exact (ihinner c).trans (ihrest _)
    | some e =>
      have hcut : left ((Collecting.ending inner.run (some e)).orRestore c) = c :=
        (ihinner c).backTo
      rw [run, hcut]
      exact ihrest c

/-- An attempt that fails leaves the collector as it was. -/
theorem run_attempt_some (inner : Script) (e : Error) (rest : Script) (c : Collector) :
    (attempt inner (some e) rest).run c = rest.run c :=
  congrArg rest.run (inner.within_run c).backTo

/-- So a script leaves what the creations outside of failed attempts
leave. -/
theorem run_eq_bindAll (s : Script) (c : Collector) : s.run c = c.bindAll s.kept := by
  induction s generalizing c with
  | done => rfl
  | create value type? hint? rest ih => exact ih _
  | attempt inner error? rest ihinner ihrest =>
    cases error? with
    | none => rw [run_attempt_none, ihrest, ihinner, kept, Collector.bindAll_append]
    | some e => rw [run_attempt_some, ihrest, kept]

end Script

/-! ## Keys -/

/-- The keys of a collector are as its style says: markers of their own, or
the positions of their entries. -/
structure Collector.Keyed (c : Collector) : Prop where
  named : c.style = .named → (∀ key ∈ c.entries.map Entry.key,
    ∃ w, isWord w = true ∧ key = .named (String.ofList (':' :: w))) ∧ (c.entries.map Entry.key).Nodup
  positional : c.style = .positional →
    c.entries.map Entry.key = (List.range c.size).map fun i => .position (i + 1)

namespace Collector.Keyed

variable {c : Collector}

theorem empty (style : MarkerStyle) : (Collector.empty style).Keyed := by
  refine ⟨fun _ => ⟨fun key hkey => ?_, List.nodup_nil⟩, fun _ => rfl⟩
  cases hkey

/-- A value gets a key that keeps the others apart and in their form. -/
theorem bind (h : c.Keyed) (b : Binding) : (c.bind b).Keyed := by
  refine ⟨fun hstyle => ?_, fun hstyle => ?_⟩
  · rw [style_bind] at hstyle
    obtain ⟨hforms, hnodup⟩ := h.named hstyle
    refine ⟨fun key hkey => ?_, nodup_keys_bind hstyle hnodup b⟩
    rw [keys_bind hstyle, List.mem_append, List.mem_singleton] at hkey
    obtain hold | rfl := hkey
    · exact hforms key hold
    · obtain ⟨w, hw, hmarker⟩ := exists_word_record hstyle b
      exact ⟨w, hw, by rw [← hmarker, String.ofList_toList]⟩
  · rw [style_bind] at hstyle
    have hsize : (c.bind b).size = c.size + 1 := size_record _ _ _ _
    have hkeys : (c.bind b).entries.map Entry.key =
        c.entries.map Entry.key ++ [.position (c.size + 1)] := by
      rw [Collector.bind, record, hstyle]
      simp
    rw [hkeys, hsize, h.positional hstyle, List.range_succ, List.map_append]
    rfl

theorem bindAll (h : c.Keyed) (bs : List Binding) : (c.bindAll bs).Keyed := by
  induction bs generalizing c with
  | nil => exact h
  | cons b bs ih => exact ih (h.bind b)

/-- So a script keeps them too. -/
theorem run (h : c.Keyed) (s : Script) : (s.run c).Keyed := by
  rw [s.run_eq_bindAll]
  exact h.bindAll s.kept

/-- A marker stands with at most one entry. -/
theorem eq_of_key_eq (h : c.Keyed) {m : String} {i j : Nat} {e e' : Entry}
    (hi : c.entries[i]? = some e) (hj : c.entries[j]? = some e') (hkey : e.key = .named m)
    (hkey' : e'.key = .named m) : i = j := by
  have hmem : Key.named m ∈ c.entries.map Entry.key :=
    List.mem_map.2 ⟨e, List.mem_of_getElem? hi, hkey⟩
  have hi' : (c.entries.map Entry.key)[i]? = some (.named m) := by
    rw [List.getElem?_map, hi]
    simp [hkey]
  have hj' : (c.entries.map Entry.key)[j]? = some (.named m) := by
    rw [List.getElem?_map, hj]
    simp [hkey']
  cases hstyle : c.style with
  | named =>
    have hlt : i < (c.entries.map Entry.key).length := (List.getElem?_eq_some_iff.1 hi').1
    exact (List.getElem?_inj hlt (h.named hstyle).2).1 (hi'.trans hj'.symm)
  | positional =>
    -- keys that are positions are no markers
    rw [h.positional hstyle] at hmem
    obtain ⟨i, -, hposition⟩ := List.mem_map.1 hmem
    cases hposition

/-- The entry of a marker is found, and nothing for any other text. -/
theorem find?_eq_some (h : c.Keyed) {m : String} {e : Entry} :
    c.find? m = some e ↔ e ∈ c.entries ∧ e.key = .named m := by
  constructor
  · intro hfind
    refine ⟨List.mem_of_find?_eq_some hfind, ?_⟩
    have hkey := List.find?_some hfind
    exact eq_of_beq hkey
  · intro ⟨hmem, hkey⟩
    cases hfind : c.find? m with
    | none =>
      have hnone := List.find?_eq_none.1 hfind e hmem
      simp [hkey] at hnone
    | some e' =>
      have hmem' := List.mem_of_find?_eq_some hfind
      have hkey' := List.find?_some hfind
      obtain ⟨i, hi⟩ := List.mem_iff_getElem?.1 hmem
      obtain ⟨j, hj⟩ := List.mem_iff_getElem?.1 hmem'
      have hij := h.eq_of_key_eq hi hj hkey (eq_of_beq hkey')
      rw [hij, hj] at hi
      exact hi

/-- The entry with a position is found there. -/
theorem findAt?_succ (h : c.Keyed) (hstyle : c.style = .positional) {i : Nat} {e : Entry}
    (hi : c.entries[i]? = some e) : e.key = .position (i + 1) ∧ c.findAt? (i + 1) = some e := by
  have hkey : (c.entries.map Entry.key)[i]? = some e.key := by rw [List.getElem?_map, hi]; rfl
  have hlt : i < c.size := (List.getElem?_eq_some_iff.1 hi).1
  rw [h.positional hstyle, List.getElem?_map, List.getElem?_range hlt] at hkey
  refine ⟨(Option.some.inj hkey).symm, ?_⟩
  rw [findAt?, if_pos hstyle, hi]

end Collector.Keyed

end SqlTree
