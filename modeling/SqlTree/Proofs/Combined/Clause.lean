import SqlTree.Proofs.Combined.Parts
import SqlTree.Proofs.Markers.Collector
import SqlTree.Proofs.Written.Tree

/-!
# SqlTree.Proofs.Combined.Clause

What a page at the end of a select looks like.  It has no dots, so that
quoting prefixes leaves it alone, and begins with a keyword that no select
goes on with (`Draft.pageClause_isPage`).
-/

namespace SqlTree

/-- The keywords of what stands at the end of a select. -/
def endKeywords : List String := ["ORDER", "LIMIT", "OFFSET"]

namespace Draft

variable {k : Constructs} {d : Dialect} {p q : Draft}

/-! ## Bare drafts -/

/-- Made of code without dots and of values. -/
def isBare : Draft → Bool
  | code s => isUndotted s
  | value _ => true
  | append p q => p.isBare && q.isBare
  | _ => false

@[simp] theorem isBare_code (s : String) : (code s).isBare = isUndotted s := rfl

@[simp] theorem isBare_value (b : Binding) : (value b).isBare = true := rfl

@[simp] theorem isBare_append (p q : Draft) : (p ++ q).isBare = (p.isBare && q.isBare) := rfl

theorem dot_not_mem_of_isBare (h : p.isBare = true) (c : Collector) :
    '.' ∉ (p.text d c).toList := by
  induction p generalizing c with
  | code s => exact dot_not_mem_of_isUndotted h
  | value b =>
    obtain hmark | ⟨w, hw, hmarker⟩ := c.record_eq_mark_or_word b
    · rw [text_value, hmark]
      decide
    · rw [text_value, hmarker, List.mem_cons, not_or]
      refine ⟨by decide, fun hdot => ?_⟩
      exact absurd (List.all_eq_true.1 (all_isWordChar_of_isWord hw) '.' hdot) (by decide)
  | append p q ihp ihq =>
    obtain ⟨hp, hq⟩ := Bool.and_eq_true_iff.1 h
    change '.' ∉ (p.text d c ++ q.text d (p.after c)).toList
    rw [String.toList_append, List.mem_append, not_or]
    exact ⟨ihp hp c, ihq hq _⟩
  | _ => cases h

theorem rowCount_isBare (n : UInt64) (hint : String) :
    Yields (fun p => p.isBare = true) (rowCount n hint) := by
  unfold rowCount
  split
  · exact .ok rfl
  · exact .error

/-! ## Pages -/

/-- The text begins with a keyword of the end of a select. -/
def Leads (p : Draft) : Prop :=
  ∀ d c, ∃ word ∈ endKeywords, ∃ rest, p.text d c = word ++ " " ++ rest

/-- Something without dots behind a keyword. -/
structure IsPage (p : Draft) : Prop where
  bare : p.isBare = true
  leads : p.Leads

namespace IsPage

theorem text_ne_empty (h : IsPage p) (c : Collector) : p.text d c ≠ "" := by
  obtain ⟨word, -, rest, htext⟩ := h.leads d c
  rw [htext, ← String.toList_inj.ne]
  simp

/-- Code that begins with a keyword, and anything bare behind it. -/
theorem keyword {s word : String} (rest : String) (hs : s = word ++ " " ++ rest)
    (hword : word ∈ endKeywords) (hdots : isUndotted s = true) (hp : p.isBare = true) :
    IsPage (code s ++ p) := by
  refine ⟨by rw [isBare_append, isBare_code, hdots, hp]; rfl, fun d c => ?_⟩
  refine ⟨word, hword, rest ++ p.text d c, ?_⟩
  rw [text_append, text_code, after_code, hs, String.append_assoc, String.append_assoc]

theorem append (h : IsPage p) (hq : q.isBare = true) : IsPage (p ++ q) := by
  refine ⟨by rw [isBare_append, h.bare, hq]; rfl, fun d c => ?_⟩
  obtain ⟨word, hword, rest, htext⟩ := h.leads d c
  refine ⟨word, hword, rest ++ q.text d (p.after c), ?_⟩
  rw [text_append, htext, String.append_assoc]

/-- Several of them with blanks between. -/
theorem joined {ps : List Draft} (h : ∀ p ∈ ps, IsPage p) (hne : ps ≠ []) :
    IsPage (joined " " ps) := by
  fun_induction Draft.joined " " ps with
  | case1 => exact absurd rfl hne
  | case2 p => exact h p List.mem_cons_self
  | case3 p ps hps ih =>
    obtain ⟨hp, hall⟩ := List.forall_mem_cons.1 h
    have hrest := ih hall (by simpa using hps)
    refine hp.append ?_
    rw [isBare_append, hrest.bare]
    decide

end IsPage

theorem standardPart_isPage {w : String} (hword : w ∈ endKeywords)
    (hdots : isUndotted (w ++ " ") = true) (hint : String) (count? : Option UInt64) :
    Yields (fun ps => (∀ p ∈ ps, IsPage p) ∧ (count?.isSome = true → ps ≠ []))
      (standardPart (w ++ " ") hint count?) := by
  cases count? with
  | none => exact .ok ⟨by simp, by simp⟩
  | some n =>
    exact (rowCount_isBare n hint).bind fun p hp => .ok
      ⟨List.forall_mem_singleton.2 (.keyword "" (by simp) hword hdots hp), by simp⟩

theorem standardPage_isPage {page : Page} (hpage : page.isPartial = true) :
    Yields IsPage (standardPage page) := by
  have hlimit := standardPart_isPage (w := "LIMIT") (by decide) (by decide) "limit" page.limit
  have hoffset := standardPart_isPage (w := "OFFSET") (by decide) (by decide) "offset" page.offset
  refine hlimit.bind fun ps hps => hoffset.bind fun qs hqs => .ok ?_
  refine .joined (List.forall_mem_append.2 ⟨hps.1, hqs.1⟩) fun hnil => ?_
  obtain ⟨hnone, hnone'⟩ := List.append_eq_nil_iff.1 hnil
  obtain hlimit | hoffset := Bool.or_eq_true_iff.1 hpage
  · exact hps.2 hlimit hnone
  · exact hqs.2 hoffset hnone'

theorem limitOffsetPage_isPage {unbounded : String} (h : isUndotted unbounded = true) {page : Page}
    (hpage : page.isPartial = true) : Yields IsPage (limitOffsetPage unbounded page) := by
  have hlimit : "LIMIT" ∈ endKeywords := by decide
  obtain ⟨_ | n, _ | m⟩ := page
  case none.none => cases hpage
  case none.some =>
    have hcode : "LIMIT " ++ unbounded ++ " OFFSET " =
        "LIMIT" ++ " " ++ (unbounded ++ " OFFSET ") := by
      rw [← String.append_assoc]
      rfl
    refine (rowCount_isBare m _).bind fun p hp => .ok (.keyword _ hcode hlimit ?_ hp)
    rw [isUndotted_append, isUndotted_append, h]
    decide
  case some.none =>
    exact (rowCount_isBare n _).bind fun p hp =>
      .ok (.keyword "" rfl hlimit (by decide) hp)
  case some.some =>
    refine (rowCount_isBare n _).bind fun p hp => (rowCount_isBare m _).bind fun q hq =>
      .ok (.keyword "" rfl hlimit (by decide) ?_)
    rw [isBare_append, isBare_append, hp, hq]
    decide

theorem offsetFetchPage_isPage {page : Page} (hoffset : page.offset.isSome = true)
    (ordered : Bool) : Yields IsPage (offsetFetchPage page ordered) := by
  -- rows that have no order get an empty one in front of the clause
  have hordered {p : Draft} (hp : p.isBare = true) :
      IsPage (emptyOrder ordered ++ (code "OFFSET " ++ p)) := by
    have hclause : IsPage (code "OFFSET " ++ p) :=
      .keyword "" (show _ = "OFFSET" ++ " " ++ "" from rfl) (by decide) (by decide) hp
    cases ordered with
    | true =>
      refine ⟨by rw [isBare_append, hclause.bare]; decide, fun d c => ?_⟩
      obtain ⟨word, hword, rest, htext⟩ := hclause.leads d c
      exact ⟨word, hword, rest, by rw [← htext]; exact String.empty_append⟩
    | false =>
      have horder : IsPage (emptyOrder false) :=
        .keyword "BY " (show _ = "ORDER" ++ " " ++ "BY " from rfl) (by decide) (by decide)
          (by decide)
      exact horder.append hclause.bare
  obtain ⟨_ | n, _ | m⟩ := page
  case none.none | some.none => cases hoffset
  case none.some =>
    refine (rowCount_isBare m _).bind fun p hp => .ok (hordered ?_)
    rw [isBare_append, hp]
    decide
  case some.some =>
    refine (rowCount_isBare m _).bind fun p hp => (rowCount_isBare n _).bind fun q hq =>
      .ok (hordered ?_)
    simp only [isBare_append, hp, hq]
    decide

/-- The clause for a part of the rows is something without dots behind a
keyword.  Where a limit stands before the columns there must be an offset. -/
theorem pageClause_isPage (hk : k.Undotted) {page : Page} (hpage : page.isPartial = true)
    (hoffset : k.pageSyntax = some .offsetFetch → page.offset.isSome = true) (ordered : Bool) :
    Yields IsPage (pageClause k page ordered) := by
  unfold pageClause
  cases hsyntax : k.pageSyntax with
  | none =>
    dsimp only
    split
    · exact standardPage_isPage hpage
    · exact .error
  | some s =>
    cases s with
    | limitOffset unbounded => exact limitOffsetPage_isPage (hk unbounded hsyntax) hpage
    | offsetFetch => exact offsetFetchPage_isPage (hoffset hsyntax) ordered

/-- What is asked for at the end of a select is a page. -/
theorem innerPageClause_isPage (hd : d.Shipped) {page : Page}
    (h : d.constructs.asksBehind page = true) (ordered : Bool) :
    Yields IsPage (innerPageClause d.constructs page ordered) := by
  obtain ⟨hpage, hhead⟩ := Bool.and_eq_true_iff.1 h
  rw [innerPageClause, if_pos hpage]
  refine pageClause_isPage hd.undotted hpage (fun hsyntax => ?_) ordered
  have htop : d.topRows = true := hd.topRows_eq.1.2 hsyntax
  have hrow : ¬d.constructs.rowNumbers = true := hd.not_rowNumbers htop
  rw [show d.constructs.topRows = true from htop, Bool.true_and] at hhead
  rw [Constructs.innerPage, if_neg hrow]
  simpa using hhead

end Draft

end SqlTree
