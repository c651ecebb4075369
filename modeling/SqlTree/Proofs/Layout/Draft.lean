import Mathlib.Data.List.Forall2
import SqlTree.Proofs.Draft.Statement
import SqlTree.Proofs.Layout.Requoting

/-!
# SqlTree.Proofs.Layout.Draft

Drafts that differ in layout.  Two drafts are laid out alike but for layout
(`LaidOut`) if they bind the same values, and the text of the first one is
that of the second with layout in it.  What is put together from such drafts
is related in the same way.  Layout comes in at one shape only: a subquery
that rows come from stands on lines of its own (`LaidOut.subqueryOrigin`).
-/

namespace SqlTree

/-! ## Plans -/

/-- Both plans are there and related, or both fail with the same error. -/
inductive Alike {α β : Type} (R : α → β → Prop) : Except Error α → Except Error β → Prop where
  | ok {a : α} {b : β} (h : R a b) : Alike R (.ok a) (.ok b)
  | error (e : Error) : Alike R (.error e) (.error e)

namespace Alike

variable {α β γ δ : Type} {R : α → β → Prop} {S : γ → δ → Prop} {x : Except Error α}
  {y : Except Error β}

theorem refl {R : α → α → Prop} (hR : ∀ a, R a a) (x : Except Error α) : Alike R x x := by
  cases x with
  | ok a => exact .ok (hR a)
  | error e => exact .error e

theorem bind {F : α → Except Error γ} {G : β → Except Error δ} (h : Alike R x y)
    (hnext : ∀ a b, R a b → Alike S (F a) (G b)) : Alike S (x >>= F) (y >>= G) := by
  cases h with
  | ok h => exact hnext _ _ h
  | error e => exact .error e

theorem map {F : α → γ} {G : β → δ} (h : Alike R x y) (hF : ∀ a b, R a b → S (F a) (G b)) :
    Alike S (F <$> x) (G <$> y) := by
  cases h with
  | ok h => exact .ok (hF _ _ h)
  | error e => exact .error e

/-- Plans that start with the same one. -/
theorem bind_same {F : α → Except Error γ} {G : α → Except Error δ}
    (hnext : ∀ a, Alike S (F a) (G a)) : Alike S (x >>= F) (x >>= G) :=
  (refl (R := Eq) (fun _ => rfl) x).bind fun a _ h => h ▸ hnext a

/-- Plans that are both related to a third one. -/
theorem join {R : α → γ → Prop} {S : β → γ → Prop} {z : Except Error γ} (hx : Alike R x z)
    (hy : Alike S y z) : Alike (fun a b => ∃ c, R a c ∧ S b c) x y := by
  cases hx with
  | ok hR =>
    cases hy with
    | ok hS => exact .ok ⟨_, hR, hS⟩
  | error e =>
    cases hy with
    | error => exact .error e

/-- What is known of the results may be added. -/
theorem and_yields {P : α → Prop} {Q : β → Prop} (h : Alike R x y) (hx : ∀ a, x = .ok a → P a)
    (hy : ∀ b, y = .ok b → Q b) : Alike (fun a b => R a b ∧ P a ∧ Q b) x y := by
  cases h with
  | ok h => exact .ok ⟨h, hx _ rfl, hy _ rfl⟩
  | error e => exact .error e

end Alike

namespace Draft

/-! ## Drafts -/

/-- Drafts that bind the same values and are written alike, except that the
first one has more layout. -/
structure LaidOut (d : Dialect) (p p' : Draft) : Prop where
  bindings : p.bindings = p'.bindings
  text : ∀ c, Laid (p.text d c).toList (p'.text d c).toList

/-- A draft that begins as selects do. -/
def OpensSelect (d : Dialect) (p : Draft) : Prop := ∀ c, ∃ rest, p.text d c = "SELECT " ++ rest

variable {d : Dialect} {p p' q q' : Draft}

namespace LaidOut

theorem refl (p : Draft) : LaidOut d p p := ⟨rfl, fun _ => .refl _⟩

theorem after_eq (h : LaidOut d p p') (c : Collector) : p.after c = p'.after c := by
  rw [after, after, h.bindings]

theorem isEmpty_eq (h : LaidOut d p p') : p.isEmpty = p'.isEmpty := by
  rw [Bool.eq_iff_iff, ← text_eq_empty_iff (d := d) (c := .empty .named),
    ← text_eq_empty_iff (d := d) (c := .empty .named), ← String.toList_eq_nil_iff,
    ← String.toList_eq_nil_iff]
  exact (h.text _).eq_nil_iff

theorem append (hp : LaidOut d p p') (hq : LaidOut d q q') : LaidOut d (p ++ q) (p' ++ q') := by
  refine ⟨by rw [bindings_append, bindings_append, hp.bindings, hq.bindings], fun c => ?_⟩
  rw [text_append, text_append, String.toList_append, String.toList_append, hp.after_eq]
  exact (hp.text c).append (hq.text _)

/-- Behind the same draft. -/
theorem behind (r : Draft) (hp : LaidOut d p p') : LaidOut d (r ++ p) (r ++ p') :=
  (refl r).append hp

/-- In front of the same draft. -/
theorem before (hp : LaidOut d p p') (r : Draft) : LaidOut d (p ++ r) (p' ++ r) :=
  hp.append (refl r)

theorem requoted (hd : d.QuotesInLine) {names : List String}
    (hnames : ∀ name ∈ names, isName name = true) (hp : LaidOut d p p') :
    LaidOut d (requoted names p) (requoted names p') := by
  refine ⟨hp.bindings, fun c => ?_⟩
  rw [text_requoted, text_requoted]
  exact (hp.text c).quotePrefixes hd hnames

theorem enclosed (hp : LaidOut d p p') : LaidOut d (enclosed p) (enclosed p') :=
  behind _ (hp.before _)

theorem spaced (hp : LaidOut d p p') : LaidOut d (spaced p) (spaced p') := by
  unfold Draft.spaced
  rw [hp.isEmpty_eq]
  split
  · exact refl _
  · exact behind _ hp

/-! ## Lists of drafts -/

theorem joined (sep : String) {ps ps' : List Draft} (h : List.Forall₂ (LaidOut d) ps ps') :
    LaidOut d (joined sep ps) (joined sep ps') := by
  induction h with
  | nil => exact refl _
  | cons hp hps ih =>
    cases hps with
    | nil => exact hp
    | cons hq hqs => exact hp.append (behind _ ih)

theorem joins {ps ps' : List Draft} (h : List.Forall₂ (LaidOut d) ps ps') :
    LaidOut d (joins ps) (joins ps') := by
  induction h with
  | nil => exact refl _
  | cons hp _ ih => exact behind _ (hp.append ih)

/-! ## Groups and clauses -/

/-- Terms with one connective. -/
abbrev Terms (d : Dialect) : List (Connective × Draft) → List (Connective × Draft) → Prop :=
  List.Forall₂ fun t t' => t.1 = t'.1 ∧ LaidOut d t.2 t'.2

theorem following {ts ts' : List (Connective × Draft)} (h : Terms d ts ts') :
    LaidOut d (following ts) (following ts') := by
  induction h with
  | nil => exact refl _
  | @cons t t' _ _ ht _ ih =>
    obtain ⟨op, p⟩ := t
    obtain ⟨op', p'⟩ := t'
    obtain ⟨rfl, hp⟩ : op = op' ∧ LaidOut d p p' := ht
    exact behind _ (hp.append ih)

theorem terms {ts ts' : List (Connective × Draft)} (h : Terms d ts ts') :
    LaidOut d (terms ts) (terms ts') := by
  cases h with
  | nil => exact refl _
  | cons ht hts => exact ht.2.append (following hts)

theorem live {ts ts' : List (Connective × Draft)} (h : Terms d ts ts') :
    Terms d (live ts) (live ts') := by
  induction h with
  | nil => exact .nil
  | @cons t t' ts ts' ht _ ih =>
    unfold Draft.live at ih ⊢
    rw [List.filter_cons, List.filter_cons, ht.2.isEmpty_eq]
    split
    · exact .cons ht ih
    · exact ih

theorem group (nested : Bool) {ts ts' : List (Connective × Draft)} (h : Terms d ts ts') :
    LaidOut d (group nested ts) (group nested ts') := by
  unfold Draft.group
  rw [(live h).length_eq]
  split
  · exact (terms (live h)).enclosed
  · exact terms (live h)

theorem clause (kind : ClauseKind) (hp : LaidOut d p p') :
    LaidOut d (clause kind p) (clause kind p') := by
  unfold Draft.clause
  rw [hp.isEmpty_eq]
  split
  · exact refl _
  · exact behind _ hp

/-! ## Selects -/

theorem column (alias? : Option Alias) (hp : LaidOut d p p') :
    LaidOut d (column alias? p) (column alias? p') := by
  cases alias? with
  | none => exact hp
  | some a => exact hp.before _

theorem columnsOr (star : Draft) {ps ps' : List Draft} (h : List.Forall₂ (LaidOut d) ps ps') :
    List.Forall₂ (LaidOut d) (columnsOr star ps) (columnsOr star ps') := by
  cases h with
  | nil => exact .cons (refl star) .nil
  | cons hp hps => exact .cons hp hps

/-- On lines of its own a subquery differs in layout only, whatever the
levels are. -/
theorem subqueryOrigin (hp : LaidOut d p p') (hopens : OpensSelect d p)
    (hopens' : OpensSelect d p') (pretty : Bool) (outer inner outer' inner' : Nat) (a : Alias) :
    LaidOut d (subqueryOrigin pretty outer inner a p) (subqueryOrigin false outer' inner' a p') := by
  cases pretty with
  | false => exact behind _ (hp.enclosed.before _)
  | true =>
    refine ⟨by rw [bindings_subqueryOrigin, bindings_subqueryOrigin, hp.bindings], fun c => ?_⟩
    obtain ⟨rest, hrest⟩ := hopens c
    obtain ⟨rest', hrest'⟩ := hopens' c
    have hselect : IsLineWord "SELECT".toList := by constructor <;> decide
    have hclosing : IsLineWord [')'] := by constructor <;> decide
    have hinner := hp.text c
    have hword (rest : String) :
        ("SELECT " ++ rest).toList = "SELECT".toList ++ ' ' :: rest.toList := by
      rw [String.toList_append]
      rfl
    rw [hrest, hrest', hword, hword] at hinner
    have hopened := hinner.line_start inner hselect
    have hclosed := Laid.line outer hclosing (.refl (a.quoted d).toList)
    have hlaid := Laid.append_left " FROM (".toList (hopened.append hclosed)
    simpa [text_subqueryOrigin, subqueryOriginText, indent, hrest, hrest'] using hlaid

/-- A select made of such parts. -/
theorem select {head page origin origin' filter filter' having having' combined combined' : Draft}
    {columns columns' joins joins' : List Draft} {into? : Option Identifier}
    {groupBy : List Reference} {orderBy : List (Reference × Direction)}
    (hcolumns : List.Forall₂ (LaidOut d) columns columns') (horigin : LaidOut d origin origin')
    (hjoins : List.Forall₂ (LaidOut d) joins joins') (hfilter : LaidOut d filter filter')
    (hhaving : LaidOut d having having') (hcombined : LaidOut d combined combined') :
    LaidOut d (select ⟨head, columns, into?, origin, joins, filter, groupBy, having, combined,
        orderBy, page⟩)
      (select ⟨head, columns', into?, origin', joins', filter', groupBy, having', combined',
        orderBy, page⟩) :=
  behind _ <| behind _ <| (joined _ hcolumns).append <| behind _ <| horigin.append <|
    (LaidOut.joins hjoins).append <| hfilter.spaced.append <| behind _ <| hhaving.spaced.append <|
    hcombined.append <| behind _ (refl _)

/-- However a page is cut. -/
theorem aroundSelect (k : Constructs) (hp : LaidOut d p p') (page : Page) :
    Alike (LaidOut d) (aroundSelect k p page) (aroundSelect k p' page) := by
  have hwrapped {q q' : Draft} (hq : LaidOut d q q') (r : Draft) :
      LaidOut d (code "SELECT * FROM " ++ (Draft.enclosed q ++ r))
        (code "SELECT * FROM " ++ (Draft.enclosed q' ++ r)) := behind _ (hq.enclosed.before r)
  have hnumbered (r : Draft) : LaidOut d (numbered p r) (numbered p' r) :=
    behind _ (hp.enclosed.before _)
  unfold Draft.aroundSelect
  split
  · rcases page with ⟨_ | n, _ | m⟩
    case none.none => exact .ok hp
    case none.some => exact .bind_same fun _ => .ok (hwrapped (hnumbered _) _)
    case some.none => exact .bind_same fun _ => .ok (hwrapped hp _)
    case some.some => exact .bind_same fun _ => .bind_same fun _ => .ok (hwrapped (hnumbered _) _)
  · exact .ok hp

end LaidOut

end Draft

end SqlTree
