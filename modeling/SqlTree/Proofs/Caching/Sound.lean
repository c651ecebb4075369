import SqlTree.Proofs.Caching.Follows
import SqlTree.Proofs.Shipped

/-!
# SqlTree.Proofs.Caching.Sound

When a kept text is right.  What is kept on a node under a fingerprint is
right if every shipped dialect with that fingerprint would write it again
from the draft of the node (`Cache.Sound`); a part without values is then
the same for every collector, and a whole text comes with the collector that
goes with it.  The caching protocol serves right texts only and keeps right
texts only (`asPart_follows`, `asWhole_follows`).
-/

namespace SqlTree

/-! ## Kept texts -/

/-- What is kept of a draft: a text without values, which is the same for
every collector, or a whole text with its collector. -/
structure Stored.Describes (s : Stored) (d : Dialect) (p : Draft) : Prop where
  bindsValues : s.bindsValues = !p.bindings.isEmpty
  sql : p.bindings = [] → ∀ c, p.text d c = s.sql
  whole : ∀ c, s.collector = some c →
    p.text d (Collector.empty d.style) = s.sql ∧ p.after (Collector.empty d.style) = c

/-- Every shipped dialect with the fingerprint would write what is kept. -/
def Cache.Sound (draft : Constructs → Except Error Draft) (cache : Cache) : Prop :=
  ∀ s, cache = some s → ∀ d : Dialect, d.Shipped → d.fingerprint = s.fingerprint →
    ∃ p, draft d.constructs = .ok p ∧ s.Describes d p

namespace Cache

variable {draft : Constructs → Except Error Draft} {d : Dialect} {p : Draft} {cache : Cache}

theorem sound_none : Cache.Sound draft none := fun _ h => nomatch h

/-- What is right for one shipped dialect is right for all with its
fingerprint. -/
theorem sound_some {s : Stored} (hd : d.Shipped) (hfp : s.fingerprint = d.fingerprint)
    (hp : draft d.constructs = .ok p) (hs : s.Describes d p) : Cache.Sound draft (some s) := by
  rintro _ ⟨⟩ d' hd' hfp'
  have hdd' : d'.fingerprint = d.fingerprint := hfp'.trans hfp
  refine ⟨p, by rw [hd'.constructs_eq hd hdd', hp], hs.bindsValues, fun h c => ?_, fun c hc => ?_⟩
  · rw [Draft.text_congr hdd', hs.sql h]
  · rw [Draft.text_congr hdd', Dialect.style_eq_of_fingerprint_eq hdd']
    exact hs.whole c hc

theorem Sound.partText? (h : Cache.Sound draft cache) (hd : d.Shipped) {sql : String}
    (hsql : cache.partText? d = some sql) (c : Collector) :
    (Draft.scribe d).effect (draft d.constructs) c = .ok (sql, c) := by
  cases cache with
  | none => cases hsql
  | some s =>
    simp only [Cache.partText?] at hsql
    split at hsql
    · next hs =>
      cases hsql
      obtain ⟨p, hp, hdescribes⟩ := h s rfl d hd hs.1.symm
      have hnil : p.bindings = [] := by
        have := hdescribes.bindsValues
        simpa [show s.bindsValues = false by simpa using hs.2] using this
      rw [hp]
      exact congrArg Except.ok
        (Prod.ext (hdescribes.sql hnil c) (Draft.after_of_bindings_eq_nil hnil))
    · cases hsql

theorem Sound.wholeText? (h : Cache.Sound draft cache) (hd : d.Shipped) {sql : String}
    (hsql : cache.wholeText? d = some sql) :
    ∃ c, cache.collector? = some c ∧
      (Draft.scribe d).effect (draft d.constructs) (Collector.empty d.style) = .ok (sql, c) := by
  cases cache with
  | none => cases hsql
  | some s =>
    simp only [Cache.wholeText?] at hsql
    split at hsql
    · next hs =>
      cases hsql
      obtain ⟨p, hp, hdescribes⟩ := h s rfl d hd hs.1.symm
      obtain ⟨c, hc⟩ := Option.isSome_iff_exists.1 hs.2
      obtain ⟨htext, hafter⟩ := hdescribes.whole c hc
      refine ⟨c, hc, ?_⟩
      rw [hp]
      exact congrArg Except.ok (Prod.ext htext hafter)
    · cases hsql

end Cache

/-! ## The caching protocol -/

section Protocol

variable {ν : Type} [Keeps ν] {d : Dialect} {node : ν} {body : Pass ν String} {P : ν → Prop}
  {draft : Constructs → Except Error Draft}

/-- A part that is not kept is compiled by the body. -/
theorem asPart_answers_iff (hmiss : (Keeps.cache node).partText? d = none) {c c' : Collector}
    {sql : String} : (asPart d node body).Answers c sql c' ↔
      (body.run (Keeps.keep none node)).Answers c sql c' := by
  unfold Run.Answers
  simp only [asPart, hmiss]
  cases body.run (Keeps.keep none node) c with
  | error e s => exact iff_of_false (fun ⟨_, h⟩ => nomatch h) fun ⟨_, h⟩ => nomatch h
  | ok text s =>
    constructor
    · rintro ⟨n, h⟩
      cases h
      exact ⟨s.1, rfl⟩
    · rintro ⟨n, h⟩
      cases h
      exact ⟨_, rfl⟩

/-- So is a whole, from the empty collector, and the collector after that is
kept with the text. -/
theorem asWhole_answers_iff (hmiss : (Keeps.cache node).wholeText? d = none) {c : Collector}
    {sql : String} : (answer (asWhole d node body) = .ok sql ∧
        (Keeps.cache (left (asWhole d node body))).collector? = some c) ↔
      (body.run (Keeps.keep none node)).Answers (.empty d.style) sql c := by
  simp only [asWhole, hmiss, Run.answers_iff]
  cases body.run (Keeps.keep none node) (.empty d.style) with
  | error e s => exact iff_of_false (fun h => nomatch h.1) fun h => nomatch h.1
  | ok text s =>
    simp only [keepWhole, answer, left, Keeps.cache_keep]
    exact and_congr_right' ⟨Option.some.inj, congrArg some⟩

/-- If it goes well, there is such a collector. -/
theorem exists_collector_of_asWhole (hmiss : (Keeps.cache node).wholeText? d = none)
    {sql : String} (hsql : answer (asWhole d node body) = .ok sql) :
    ∃ c, (Keeps.cache (left (asWhole d node body))).collector? = some c := by
  simp only [asWhole, hmiss] at hsql ⊢
  cases hrun : body.run (Keeps.keep none node) (.empty d.style) with
  | error e s =>
    rw [hrun] at hsql
    cases hsql
  | ok text s => exact ⟨s.2, by simp only [keepWhole, left, Keeps.cache_keep]; rfl⟩

theorem bindsValues_of_after {p : Draft} {c : Collector} :
    ((p.after c).size != c.size) = !p.bindings.isEmpty := by
  rw [Draft.size_after]
  cases p.bindings <;> simp

/-- The part of a node that keeps right texts has the effect of writing its
draft. -/
theorem asPart_follows (hd : d.Shipped) (hnode : P node) (hcache : (Keeps.cache node).Sound draft)
    (hbody : (body.run (Keeps.keep none node)).Follows
    ((Draft.scribe d).effect (draft d.constructs)) P) (hkeep :
    ∀ n cache, P n → Cache.Sound draft cache → P (Keeps.keep cache n)) :
    (asPart d node body).Follows ((Draft.scribe d).effect (draft d.constructs)) P := by
  intro c
  cases hpart : (Keeps.cache node).partText? d with
  | some sql =>
    simp only [asPart, hpart]
    exact ⟨hcache.partText? hd hpart c, hnode⟩
  | none =>
    cases hrun : body.run (Keeps.keep none node) c with
    | error e s =>
      simp only [asPart, hpart, hrun, keepPart]
      exact hbody.of_error hrun
    | ok sql s =>
      obtain ⟨heffect, hn⟩ := hbody.of_ok hrun
      simp only [asPart, hpart, hrun, keepPart]
      refine ⟨heffect, hkeep _ _ hn ?_⟩
      cases hp : draft d.constructs with
      | error e => rw [hp] at heffect; cases heffect
      | ok p =>
        rw [hp] at heffect
        obtain ⟨htext, hafter⟩ := Prod.mk.inj (Except.ok.inj heffect)
        refine Cache.sound_some hd rfl hp ⟨?_, fun hnil c' => ?_, fun c' hc' => nomatch hc'⟩
        · exact hafter ▸ bindsValues_of_after
        · exact (Draft.text_eq_of_bindings_eq_nil hnil c' c).trans htext

/-- The whole of a node that keeps right texts is its draft, written from
the empty collector, and the collector after that is kept with it. -/
theorem asWhole_follows (hd : d.Shipped) (hnode : P node) (hcache : (Keeps.cache node).Sound draft)
    (hbody : (body.run (Keeps.keep none node)).Follows
    ((Draft.scribe d).effect (draft d.constructs))
      fun n => P n ∧ Keeps.cache n = none)
    (hkeep : ∀ n cache, P n → Cache.Sound draft cache →
      P (Keeps.keep cache n) ∧ Keeps.cache (Keeps.keep cache n) = cache) :
    P (left (asWhole d node body)) ∧
      answer (asWhole d node body) =
        ((Draft.scribe d).effect (draft d.constructs) (Collector.empty d.style)).map Prod.fst ∧
      (Keeps.cache (left (asWhole d node body))).collector? =
        ((Draft.scribe d).effect (draft d.constructs) (Collector.empty d.style)).toOption.map
          Prod.snd := by
  cases hwhole : (Keeps.cache node).wholeText? d with
  | some sql =>
    obtain ⟨c, hc, heffect⟩ := hcache.wholeText? hd hwhole
    simp only [asWhole, hwhole, answer, left, heffect]
    exact ⟨hnode, rfl, hc⟩
  | none =>
    cases hrun : body.run (Keeps.keep none node) (Collector.empty d.style) with
    | error e s =>
      obtain ⟨heffect, hn, hnone⟩ := hbody.of_error hrun
      simp only [asWhole, hwhole, hrun, keepWhole, answer, left, heffect]
      exact ⟨hn, rfl, by rw [hnone]; rfl⟩
    | ok sql s =>
      obtain ⟨heffect, hn, -⟩ := hbody.of_ok hrun
      have hsound : Cache.Sound draft (some ⟨d.fingerprint, sql, s.2.size != 0, some s.2⟩) := by
        cases hp : draft d.constructs with
        | error e => rw [hp] at heffect; cases heffect
        | ok p =>
          rw [hp] at heffect
          obtain ⟨htext, hafter⟩ := Prod.mk.inj (Except.ok.inj heffect)
          refine Cache.sound_some hd rfl hp ⟨?_, fun hnil c' => ?_, ?_⟩
          · exact hafter ▸ bindsValues_of_after
          · exact (Draft.text_eq_of_bindings_eq_nil hnil c' _).trans htext
          · rintro _ ⟨⟩
            exact ⟨htext, hafter⟩
      obtain ⟨hP, hcache'⟩ := hkeep _ _ hn hsound
      simp only [asWhole, hwhole, hrun, keepWhole, answer, left, heffect]
      exact ⟨hP, rfl, by rw [hcache']; rfl⟩

end Protocol

end SqlTree
