import SqlTree.Compile.Text
import SqlTree.Proofs.Requoting

/-!
# SqlTree.Proofs.Draft.Basic

What a tree comes to before it is known which collector takes its values.
A `Draft` is SQL text with the values still in it: keywords, names that are
not quoted yet, SQL that was handed in, and at the place of each marker the
value that the marker will stand for.  It depends on no collector and on no
cache, so it is the reference point for everything that is said about
either of them.

`Draft.text` writes a draft for a dialect, starting from a collector, and
`Draft.after` is that collector with the values of the draft recorded.
Whether a draft is empty (`Draft.isEmpty`) can be told before it is
written, and a draft without values reads the same for every collector
(`text_eq_of_bindings_eq_nil`).
-/

namespace SqlTree

/-! ## Values to bind -/

/-- A value that waits for its marker. -/
structure Binding where
  value : Value
  type : BindType
  hint : String

namespace Collector

/-- The collector with a binding recorded. -/
def bind (c : Collector) (b : Binding) : Collector := (c.record b.value b.type b.hint).2

/-- The collector with bindings recorded one after the other. -/
def bindAll (c : Collector) (bs : List Binding) : Collector := bs.foldl bind c

@[simp] theorem bindAll_nil (c : Collector) : c.bindAll [] = c := rfl

@[simp] theorem bindAll_append (c : Collector) (bs bs' : List Binding) :
    c.bindAll (bs ++ bs') = (c.bindAll bs).bindAll bs' := List.foldl_append

@[simp] theorem style_bind (c : Collector) (b : Binding) :
    (c.bind b).style = c.style := style_record _ _ _ _

@[simp] theorem style_bindAll (c : Collector) (bs : List Binding) :
    (c.bindAll bs).style = c.style := by
  induction bs generalizing c with
  | nil => rfl
  | cons b bs ih => exact (ih (c.bind b)).trans (c.style_bind b)

@[simp] theorem size_bindAll (c : Collector) (bs : List Binding) :
    (c.bindAll bs).size = c.size + bs.length := by
  induction bs generalizing c with
  | nil => rfl
  | cons b bs ih =>
    have h : (c.bind b).size = c.size + 1 := size_record _ _ _ _
    calc
      ((c.bind b).bindAll bs).size = (c.bind b).size + bs.length := ih (c.bind b)
      _ = c.size + (b :: bs).length := by rw [h, List.length_cons]; omega

end Collector

/-! ## Drafts -/

/-- SQL text with the values still in it. -/
inductive Draft where
  /-- Keywords, punctuation and blanks. -/
  | code (s : String)
  /-- SQL that was handed in. -/
  | raw (s : String)
  | identifier (i : Identifier)
  | label (a : Alias)
  /-- A character between value quotes. -/
  | quotedChar (c : Char)
  | value (b : Binding)
  | append (p q : Draft)
  /-- A finished statement, in which these names are quoted before dots. -/
  | requoted (names : List String) (p : Draft)

namespace Draft

instance : Append Draft := ⟨append⟩

/-- The values of a draft, in the order of their markers. -/
def bindings : Draft → List Binding
  | value b => [b]
  | append p q => p.bindings ++ q.bindings
  | requoted _ p => p.bindings
  | _ => []

/-- The collector with the values of a draft recorded. -/
def after (p : Draft) (c : Collector) : Collector := c.bindAll p.bindings

/-- The text of a draft whose values go to the collector. -/
def text (d : Dialect) : Draft → Collector → String
  | code s, _ => s
  | raw s, _ => s
  | identifier i, _ => i.quoted d
  | label a, _ => a.quoted d
  | quotedChar ch, _ => charLiteral d.valueQuote ch
  | value b, c => (c.record b.value b.type b.hint).1
  | append p q, c => p.text d c ++ q.text d (p.after c)
  | requoted names p, c => d.quotePrefixes names (p.text d c)

/-- Nothing will be written. -/
def isEmpty : Draft → Bool
  | code s => s == ""
  | raw s => s == ""
  | append p q => p.isEmpty && q.isEmpty
  | requoted _ p => p.isEmpty
  | _ => false

/-! ## Laws -/

variable {d : Dialect} {p q : Draft} {c : Collector}

@[simp] theorem bindings_code (s : String) : (code s).bindings = [] := rfl

@[simp] theorem bindings_raw (s : String) : (raw s).bindings = [] := rfl

@[simp] theorem bindings_identifier (i : Identifier) : (identifier i).bindings = [] := rfl

@[simp] theorem bindings_label (a : Alias) : (label a).bindings = [] := rfl

@[simp] theorem bindings_quotedChar (ch : Char) : (quotedChar ch).bindings = [] := rfl

@[simp] theorem bindings_value (b : Binding) : (value b).bindings = [b] := rfl

@[simp] theorem bindings_append : (p ++ q).bindings = p.bindings ++ q.bindings := rfl

@[simp] theorem bindings_requoted (names : List String) :
    (requoted names p).bindings = p.bindings := rfl

@[simp] theorem text_code (s : String) : (code s).text d c = s := rfl

@[simp] theorem text_raw (s : String) : (raw s).text d c = s := rfl

@[simp] theorem text_identifier (i : Identifier) : (identifier i).text d c = i.quoted d := rfl

@[simp] theorem text_label (a : Alias) : (label a).text d c = a.quoted d := rfl

@[simp] theorem text_quotedChar (ch : Char) :
    (quotedChar ch).text d c = charLiteral d.valueQuote ch := rfl

@[simp] theorem text_value (b : Binding) :
    (value b).text d c = (c.record b.value b.type b.hint).1 := rfl

@[simp] theorem text_append : (p ++ q).text d c = p.text d c ++ q.text d (p.after c) := rfl

@[simp] theorem text_requoted (names : List String) :
    (requoted names p).text d c = d.quotePrefixes names (p.text d c) := rfl

theorem after_of_bindings_eq_nil (h : p.bindings = []) : p.after c = c := by
  simp [after, h]

@[simp] theorem after_code (s : String) : (code s).after c = c := rfl

@[simp] theorem after_raw (s : String) : (raw s).after c = c := rfl

@[simp] theorem after_identifier (i : Identifier) : (identifier i).after c = c := rfl

@[simp] theorem after_label (a : Alias) : (label a).after c = c := rfl

@[simp] theorem after_quotedChar (ch : Char) : (quotedChar ch).after c = c := rfl

@[simp] theorem after_value (b : Binding) : (value b).after c = c.bind b := rfl

@[simp] theorem after_append : (p ++ q).after c = q.after (p.after c) := by
  simp [after]

@[simp] theorem after_requoted (names : List String) : (requoted names p).after c = p.after c := rfl

@[simp] theorem style_after : (p.after c).style = c.style := by simp [after]

@[simp] theorem size_after : (p.after c).size = c.size + p.bindings.length := by simp [after]

/-- Without values the collector does not matter. -/
theorem text_eq_of_bindings_eq_nil (h : p.bindings = []) (c c' : Collector) :
    p.text d c = p.text d c' := by
  induction p generalizing c c' with
  | value b => simp at h
  | append p q ihp ihq =>
    obtain ⟨hp, hq⟩ := List.append_eq_nil_iff.1 h
    change p.text d c ++ q.text d (p.after c) = p.text d c' ++ q.text d (p.after c')
    rw [ihp hp c c', ihq hq (p.after c) (p.after c')]
  | requoted names p ih =>
    rw [text_requoted, text_requoted, ih h c c']
  | _ => rfl

/-! ### Empty drafts -/

/-- Quoting prefixes makes no text empty. -/
theorem quotePrefixes_eq_empty_iff (names : List String) (s : String) :
    d.quotePrefixes names s = "" ↔ s = "" := by
  rw [← String.toList_eq_nil_iff, ← String.toList_eq_nil_iff]
  exact (d.requoted_quotePrefixes names s).eq_nil_iff

/-- A marker has at least its first character. -/
theorem fst_record_ne_empty (c : Collector) (v : Value) (type : BindType) (hint : String) :
    (c.record v type hint).1 ≠ "" := by
  unfold Collector.record
  split
  · exact show "?" ≠ "" by decide
  · intro h
    have : ":" ++ toString (hintWord hint) = "" := (String.append_eq_empty_iff.1 h).1
    exact absurd (String.append_eq_empty_iff.1 this).1 (by decide)

/-- A name between quotes holds the quotes at least. -/
theorem quoteIdentifier_ne_empty (name : String) : d.quoteIdentifier name ≠ "" := by
  intro hempty
  have hhead := d.head?_quoteIdentifier name
  rw [hempty] at hhead
  rcases hhead with hhead | hhead <;> cases hhead

theorem quoteAlias_ne_empty (name : String) : d.quoteAlias name ≠ "" := by
  intro hempty
  have hhead := head?_withQuotes d.leftQuote d.rightQuote name.toList
  rw [← Dialect.toList_quoteAlias, hempty] at hhead
  cases hhead

theorem charLiteral_ne_empty (quote ch : Char) : charLiteral quote ch ≠ "" := by
  rw [charLiteral, Ne, ← String.toList_inj, String.toList_ofList]
  split <;> simp

/-- Emptiness of the text is known before it is written. -/
theorem text_eq_empty_iff : p.text d c = "" ↔ p.isEmpty = true := by
  induction p generalizing c with
  | code s => simp [isEmpty]
  | raw s => simp [isEmpty]
  | identifier i => simpa [isEmpty, Identifier.quoted] using quoteIdentifier_ne_empty _
  | label a => simpa [isEmpty, Alias.quoted] using quoteAlias_ne_empty _
  | quotedChar ch => simpa [isEmpty] using charLiteral_ne_empty _ _
  | value b => simpa [isEmpty] using fst_record_ne_empty c b.value b.type b.hint
  | append p q ihp ihq =>
    change p.text d c ++ q.text d (p.after c) = "" ↔ _
    rw [String.append_eq_empty_iff, ihp, ihq, isEmpty, Bool.and_eq_true]
  | requoted names p ih => rw [text_requoted, quotePrefixes_eq_empty_iff, ih, isEmpty]

theorem bindings_of_isEmpty (h : p.isEmpty = true) : p.bindings = [] := by
  induction p with
  | append p q ihp ihq =>
    rw [isEmpty, Bool.and_eq_true] at h
    exact List.append_eq_nil_iff.2 ⟨ihp h.1, ihq h.2⟩
  | requoted names p ih => exact ih h
  | value b => simp [isEmpty] at h
  | _ => rfl

end Draft

end SqlTree
