import SqlTree.Proofs.Composed.Tree
import SqlTree.Proofs.Grouping.Reader
import SqlTree.Proofs.Markers.Collector

/-!
# SqlTree.Proofs.Grouping.Nesting

Subqueries keep their parentheses to themselves.  A text is `Balanced` if a
reader inside parentheses comes out of it as it went in.  Names and quoted
characters are (`Quoting.balanced`), and so is the text of every composed
draft (`Draft.Composed.balanced`), also after the prefixes in it have been
quoted.  For this the quotes must be told from the rest of the text
(`Dialect.QuotesStandOut`).
-/

namespace SqlTree

/-! ## Quotes -/

/-- A character that SQL is made of outside of quotes. -/
def isSyntax (c : Char) : Bool := isCodeChar c || c ∈ ['(', ')', ':', '?']

theorem isSyntax_of_isCodeChar {c : Char} (h : isCodeChar c = true) : isSyntax c = true := by
  rw [isSyntax, h, Bool.true_or]

namespace Dialect

variable {d : Dialect}

/-- No opening quote is a character that SQL is made of outside of quotes, and
no closing one a character that names may be made of.  Where names and values
share the opening quote, they share the closing one. -/
structure QuotesStandOut (d : Dialect) : Prop where
  value : isSyntax d.valueQuote = false
  left : isSyntax d.leftQuote = false
  right : isCodeChar d.rightQuote = false
  shared : d.leftQuote = d.valueQuote → d.rightQuote = d.valueQuote

namespace QuotesStandOut

variable (hd : d.QuotesStandOut)
include hd

theorem closer?_left : d.closer? d.leftQuote = some d.rightQuote := by
  unfold closer?
  split
  · next h => rw [hd.shared h]
  · rw [if_pos rfl]

omit hd in
theorem closer?_value : d.closer? d.valueQuote = some d.valueQuote := if_pos rfl

theorem closer?_of_isSyntax {c : Char} (h : isSyntax c = true) : d.closer? c = none := by
  have hvalue : c ≠ d.valueQuote := by rintro rfl; rw [hd.value] at h; cases h
  have hleft : c ≠ d.leftQuote := by rintro rfl; rw [hd.left] at h; cases h
  rw [closer?, if_neg hvalue, if_neg hleft]

theorem right_not_mem {cs : List Char} (h : cs.all isCodeChar = true) : d.rightQuote ∉ cs := by
  intro hmem
  have hcode : isCodeChar d.rightQuote = true := List.all_eq_true.1 h _ hmem
  rw [hd.right] at hcode
  cases hcode

/-- Plain code does not start with a quote. -/
theorem isQuoted_eq_false {cs : List Char} (h : cs.all isCodeChar = true) :
    isQuoted d.leftQuote d.rightQuote cs = false := by
  refine isQuoted_of_not_mem fun hmem => ?_
  have hcode := isSyntax_of_isCodeChar (List.all_eq_true.1 h _ hmem)
  rw [hd.left] at hcode
  cases hcode

end QuotesStandOut

end Dialect

/-! ## Quoted text -/

/-- A sign of its own, which is neither a blank nor a parenthesis and starts
no marker. -/
def isSign (c : Char) : Bool := c ∈ [',', '.', '*', '=', '<', '>', '!', '-', '?']

theorem isSyntax_of_isSign {c : Char} (h : isSign c = true) : isSyntax c = true := by
  simp only [isSign, List.mem_cons, List.not_mem_nil, or_false, decide_eq_true_eq] at h
  rcases h with rfl | rfl | rfl | rfl | rfl | rfl | rfl | rfl | rfl <;> decide

/-- Quoted regions with signs between them. -/
inductive Quoting (d : Dialect) : List Char → Prop where
  | sign {c : Char} (h : isSign c = true) : Quoting d [c]
  | region {c close : Char} {cs : List Char} (h : d.closer? c = some close) (hcs : close ∉ cs) :
      Quoting d (c :: (cs ++ [close]))
  | append {cs cs' : List Char} (h : Quoting d cs) (h' : Quoting d cs') : Quoting d (cs ++ cs')

namespace Quoting

variable {d : Dialect}

theorem joinWith {pieces : List (List Char)} (hne : pieces ≠ [])
    (h : ∀ piece ∈ pieces, Quoting d piece) : Quoting d (joinWith '.' pieces) := by
  induction pieces with
  | nil => exact absurd rfl hne
  | cons piece pieces ih =>
    obtain ⟨hpiece, hpieces⟩ := List.forall_mem_cons.1 h
    cases pieces with
    | nil => exact hpiece
    | cons next rest =>
      rw [joinWith_cons (List.cons_ne_nil _ _), ← List.singleton_append (l := SqlTree.joinWith _ _)]
      exact hpiece.append (.append (.sign (by decide)) (ih (List.cons_ne_nil _ _) hpieces))

theorem quoteSegment (hd : d.QuotesStandOut) {cs : List Char} (h : cs.all isCodeChar = true) :
    Quoting d (quoteSegment d.leftQuote d.rightQuote cs) :=
  .region hd.closer?_left fun hmem => hd.right_not_mem h (mem_double_iff.1 hmem)

theorem quoteIdentifier (hd : d.QuotesStandOut) {name : String} (h : isCode name = true) :
    Quoting d (d.quoteIdentifier name).toList := by
  rw [Dialect.toList_quoteIdentifier]
  refine joinWith (d.writtenSegments_ne_nil name) fun piece hpiece => ?_
  obtain ⟨s, hs, rfl⟩ := List.mem_map.1 hpiece
  have hcode : s.all isCodeChar = true := by
    refine List.all_eq_true.2 fun c hc => List.all_eq_true.1 h c ?_
    exact (mem_of_mem_segmentsFrom hs hc).resolve_left List.not_mem_nil
  by_cases hstar : s = ['*']
  · rw [hstar, Dialect.writtenSegment_star]
    exact .sign (by decide)
  · rw [Dialect.writtenSegment_of_ne_star hstar, withQuotes_eq (hd.isQuoted_eq_false hcode)]
    exact quoteSegment hd hcode

theorem quoteAlias (hd : d.QuotesStandOut) {name : String} (h : isCode name = true) :
    Quoting d (d.quoteAlias name).toList := by
  rw [Dialect.toList_quoteAlias, withQuotes_eq (hd.isQuoted_eq_false h)]
  exact quoteSegment hd h

/-- A quote between quotes is two empty regions. -/
theorem charLiteral (c : Char) : Quoting d (charLiteral d.valueQuote c).toList := by
  have hvalue := Dialect.QuotesStandOut.closer?_value (d := d)
  rw [SqlTree.charLiteral, String.toList_ofList]
  split
  · next h =>
    subst h
    have hempty : Quoting d (d.valueQuote :: ([] ++ [d.valueQuote])) :=
      .region hvalue List.not_mem_nil
    exact .append hempty hempty
  · next h =>
    have hregion : Quoting d (d.valueQuote :: ([c] ++ [d.valueQuote])) :=
      .region hvalue (mt List.mem_singleton.1 (Ne.symm h))
    exact hregion

end Quoting

/-! ## Balanced text -/

/-- A reader inside parentheses comes out of the text as it went in. -/
def Balanced (d : Dialect) (cs : List Char) : Prop :=
  ∀ n, cs.foldlM (Nesting.step d) ⟨n, none⟩ = some ⟨n, none⟩

namespace Balanced

variable {d : Dialect} {cs cs' : List Char}

theorem append (h : Balanced d cs) (h' : Balanced d cs') : Balanced d (cs ++ cs') := by
  intro n
  rw [List.foldlM_append, h n]
  exact h' n

theorem parenthesised (h : Balanced d cs) : Balanced d ('(' :: (cs ++ [')'])) := by
  intro n
  have hopen : Nesting.step d ⟨n, none⟩ '(' = some ⟨n + 1, none⟩ := rfl
  rw [List.foldlM_cons, hopen, Option.bind_eq_bind, Option.bind_some, List.foldlM_append, h (n + 1)]
  rfl

/-- What SQL is made of, without parentheses. -/
theorem of_isSyntax (hd : d.QuotesStandOut) (h : ∀ c ∈ cs, isSyntax c = true ∧ c ≠ '(' ∧ c ≠ ')') :
    Balanced d cs := by
  intro n
  induction cs with
  | nil => rfl
  | cons c cs ih =>
    obtain ⟨⟨hc, hopen, hclose⟩, hcs⟩ := List.forall_mem_cons.1 h
    have hstep : Nesting.step d ⟨n, none⟩ c = some ⟨n, none⟩ := by
      simp only [Nesting.step, if_neg hopen, if_neg hclose, hd.closer?_of_isSyntax hc]
    rw [List.foldlM_cons, hstep]
    exact ih hcs

theorem of_isCode (hd : d.QuotesStandOut) {s : String} (h : isCode s = true) :
    Balanced d s.toList :=
  of_isSyntax hd fun c hc => by
    have hcode : isCodeChar c = true := List.all_eq_true.1 h c hc
    refine ⟨isSyntax_of_isCodeChar hcode, ?_, ?_⟩ <;> rintro rfl <;> exact absurd hcode (by decide)

end Balanced

/-- A quote opens a region. -/
theorem Dialect.QuotesStandOut.step_quote {d : Dialect} (hd : d.QuotesStandOut) {c close : Char}
    (hclose : d.closer? c = some close) {n : Nat} :
    Nesting.step d ⟨n, none⟩ c = some ⟨n, some close⟩ := by
  have hopening : c ≠ '(' := by
    rintro rfl
    rw [hd.closer?_of_isSyntax (by decide)] at hclose
    contradiction
  have hclosing : c ≠ ')' := by
    rintro rfl
    rw [hd.closer?_of_isSyntax (by decide)] at hclose
    contradiction
  simp only [Nesting.step, if_neg hopening, if_neg hclosing, hclose]

/-- Up to its closing character a region is read as it is. -/
theorem Nesting.foldlM_step_region {d : Dialect} {n : Nat} {close : Char} {cs : List Char}
    (h : close ∉ cs) : cs.foldlM (step d) ⟨n, some close⟩ = some ⟨n, some close⟩ := by
  induction cs with
  | nil => rfl
  | cons c cs ih =>
    rw [List.mem_cons, not_or] at h
    have hstep : step d ⟨n, some close⟩ c = some ⟨n, some close⟩ := by
      simp only [step, if_neg (Ne.symm h.1)]
    rw [List.foldlM_cons, hstep]
    exact ih h.2

theorem Quoting.balanced {d : Dialect} {cs : List Char} (hd : d.QuotesStandOut) (h : Quoting d cs) :
    Balanced d cs := by
  induction h with
  | sign hc =>
    refine .of_isSyntax hd fun x hx => ?_
    rw [List.mem_singleton.1 hx]
    refine ⟨isSyntax_of_isSign hc, ?_, ?_⟩ <;> rintro rfl <;> exact absurd hc (by decide)
  | @region c close cs hclose hcs =>
    intro n
    rw [List.foldlM_cons, hd.step_quote hclose, Option.bind_eq_bind, Option.bind_some,
      List.foldlM_append, Nesting.foldlM_step_region hcs]
    simp [Nesting.step]
  | append _ _ ih ih' => exact ih.append ih'

/-! ## Requoted text -/

/-- The character that closes the region of this position. -/
def Scan.quote : Scan → Option Char
  | .inside close => some close
  | _ => none

@[simp] theorem Scan.quote_outside (previous : Option Char) : (outside previous).quote = none := rfl

/-- Quoting the prefixes of a text moves no parenthesis. -/
theorem Requoted.foldlM_step {d : Dialect} {names : List (List Char)} {s : Scan}
    {cs out : List Char} (h : Requoted d names s cs out) (hd : d.QuotesStandOut)
    (hnames : ∀ name ∈ names, isCode (String.ofList name) = true) (n : Nat) :
    out.foldlM (Nesting.step d) ⟨n, s.quote⟩ = cs.foldlM (Nesting.step d) ⟨n, s.quote⟩ := by
  induction h generalizing n with
  | nil => rfl
  | @inside close c cs out h ih =>
    have hquote : (Scan.advanceInside close c).quote = if c = close then none else some close := by
      unfold Scan.advanceInside
      split <;> rfl
    have hstep : Nesting.step d ⟨n, some close⟩ c =
      some ⟨n, (Scan.advanceInside close c).quote⟩ := by
      rw [hquote, Nesting.step]
    rw [Scan.quote, List.foldlM_cons, List.foldlM_cons, hstep]
    exact ih n
  | @opened previous close c cs out hclose h ih =>
    rw [Scan.quote_outside, List.foldlM_cons, List.foldlM_cons, hd.step_quote hclose]
    exact ih n
  | @name previous name cs out hprevious hname h ih =>
    have hcode := hnames name hname
    have hquoted := (Quoting.quoteIdentifier hd hcode).balanced hd
    have hplain := Balanced.of_isCode hd hcode
    rw [String.toList_ofList] at hplain
    have hdot : Nesting.step d ⟨n, none⟩ '.' = some ⟨n, none⟩ := by
      rw [Nesting.step, hd.closer?_of_isSyntax (by decide)]
      rfl
    rw [Scan.quote_outside, List.foldlM_append, List.foldlM_append, hquoted n, hplain n,
      Option.bind_eq_bind, Option.bind_some, Option.bind_some, List.foldlM_cons, List.foldlM_cons,
      hdot]
    exact ih n
  | @plain previous c cs out hclose h ih =>
    rw [Scan.quote_outside, List.foldlM_cons, List.foldlM_cons]
    cases hstep : Nesting.step d ⟨n, none⟩ c with
    | none => rfl
    | some next =>
      have hnext : ∃ m, next = ⟨m, none⟩ := by
        simp only [Nesting.step, hclose] at hstep
        split at hstep
        · cases hstep
          exact ⟨_, rfl⟩
        · split at hstep
          · split at hstep <;> cases hstep
            exact ⟨_, rfl⟩
          · cases hstep
            exact ⟨_, rfl⟩
      obtain ⟨m, rfl⟩ := hnext
      exact ih m

/-! ## Composed drafts -/

/-- A marker has no parentheses. -/
theorem Balanced.marker {d : Dialect} (hd : d.QuotesStandOut) (c : Collector) (b : Binding) :
    Balanced d (c.record b.value b.type b.hint).1.toList := by
  rcases c.record_eq_mark_or_word b with h | ⟨w, hw, h⟩
  · rw [h]
    exact (Quoting.sign (by decide)).balanced hd
  · rw [h, ← List.singleton_append]
    have hcolon : Balanced d [':'] := .of_isSyntax hd (List.forall_mem_singleton.2 (by decide))
    have hword : isCode (String.ofList w) = true := isCode_of_isWord (by simpa using hw)
    have hbalanced := Balanced.of_isCode hd hword
    rw [String.toList_ofList] at hbalanced
    exact hcolon.append hbalanced

/-- Quoting prefixes leaves the parentheses in pairs. -/
theorem Balanced.quotePrefixes {d : Dialect} (hd : d.QuotesStandOut) {names : List String}
    (hnames : ∀ name ∈ names, isName name = true) {sql : String} (h : Balanced d sql.toList) :
    Balanced d (d.quotePrefixes names sql).toList := by
  have hcodes : ∀ name ∈ names.map String.toList, isCode (String.ofList name) = true := by
    intro name hname
    obtain ⟨s, hs, rfl⟩ := List.mem_map.1 hname
    rw [String.ofList_toList]
    exact isCode_of_isName (hnames s hs)
  exact fun n => ((d.requoted_quotePrefixes names sql).foldlM_step hd hcodes n).trans (h n)

/-- A draft is written with its parentheses in pairs, if its raw SQL is. -/
theorem Draft.Composed.balanced_of {d : Dialect} (hd : d.QuotesStandOut) {P : String → Prop}
    (hP : ∀ s, P s → Balanced d s.toList) {p : Draft} (h : p.Composed P) (c : Collector) :
    Balanced d (p.text d c).toList := by
  induction h generalizing c with
  | code hs => exact .of_isCode hd hs
  | raw hs => exact hP _ hs
  | identifier i => exact (Quoting.quoteIdentifier hd i.isCode_text).balanced hd
  | label a => exact (Quoting.quoteAlias hd a.isCode_text).balanced hd
  | quotedChar ch => exact (Quoting.charLiteral ch).balanced hd
  | value b => exact .marker hd c b
  | append _ _ _ ihp ihq =>
    rw [text_append, String.toList_append]
    exact (ihp c).append (ihq _)
  | enclosed _ ih =>
    have htext := (ih c).parenthesised
    simpa [SqlTree.enclosed] using htext
  | requoted hnames _ ih =>
    rw [text_requoted]
    exact (ih c).quotePrefixes hd hnames

/-- So is a draft without raw SQL. -/
theorem Draft.Composed.balanced {d : Dialect} (hd : d.QuotesStandOut) {p : Draft}
    (h : p.Composed fun _ => False) (c : Collector) : Balanced d (p.text d c).toList :=
  h.balanced_of hd (fun _ h => h.elim) c

end SqlTree
