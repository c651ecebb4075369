import SqlTree.Dialect.Basic
import SqlTree.Name

/-!
# SqlTree.Dialect.Quoting

Names and values as a dialect writes them.  A name is cut at the dots
outside quotes and each segment is quoted by itself; a closing quote inside
a segment is written twice, and `undouble` takes that back.  A segment that
starts and ends with the quotes already passes as it is.  An alias is one
segment whatever it holds.

What is written for a name is said once, in `Dialect.toList_quoteIdentifier`
and `Dialect.toList_quoteAlias`: segments with their own quotes or put
between them (`withQuotes`), and stars.
-/

namespace SqlTree

/-! ## Segments -/

/-- Cuts at the dots outside quotes.  `acc` is the segment so far, last
character first; a quote opens only at the start of a segment. -/
def segmentsFrom (left right : Char) (acc : List Char) (quoted : Bool) : List Char → List (List Char)
  | [] => [acc.reverse]
  | c :: cs =>
    if quoted then segmentsFrom left right (c :: acc) (c != right) cs
    else if c = left ∧ acc = [] then segmentsFrom left right [c] true cs
    else if c = '.' then acc.reverse :: segmentsFrom left right [] false cs
    else segmentsFrom left right (c :: acc) false cs

/-- The segments of a name. -/
def segments (left right : Char) (cs : List Char) : List (List Char) :=
  segmentsFrom left right [] false cs

/-- Two characters at least, the quotes first and last. -/
def isQuoted (left right : Char) (cs : List Char) : Bool :=
  2 ≤ cs.length && cs.head? == some left && cs.getLast? == some right

/-- Every `q` written twice. -/
def double (q : Char) (cs : List Char) : List Char :=
  cs.flatMap fun c => if c = q then [c, c] else [c]

/-- Every two neighbouring `q` written once, from the left. -/
def undouble (q : Char) : List Char → List Char
  | c :: d :: cs => if c = q ∧ d = q then q :: undouble q cs else c :: undouble q (d :: cs)
  | cs => cs

/-- A segment between quotes. -/
def quoteSegment (left right : Char) (cs : List Char) : List Char :=
  left :: double right cs ++ [right]

/-- The inside of a quoted segment, any other segment as it is. -/
def unquoteSegment (left right : Char) (cs : List Char) : List Char :=
  if isQuoted left right cs then undouble right (cs.tail.dropLast) else cs

namespace Dialect

/-! ## Names -/

/-- A possibly qualified name; stars stay bare. -/
def quoteIdentifier (d : Dialect) (name : String) : String :=
  String.ofList <| joinWith '.' <| (segments d.leftQuote d.rightQuote name.toList).map fun s =>
    if s = ['*'] ∨ isQuoted d.leftQuote d.rightQuote s then s else quoteSegment d.leftQuote d.rightQuote s

/-- A name of one segment. -/
def quoteAlias (d : Dialect) (name : String) : String :=
  if isQuoted d.leftQuote d.rightQuote name.toList then name
  else String.ofList (quoteSegment d.leftQuote d.rightQuote name.toList)

/-- A name without the quotes of its segments. -/
def unquote (d : Dialect) (name : String) : String :=
  String.ofList <| joinWith '.' <|
    (segments d.leftQuote d.rightQuote name.toList).map (unquoteSegment d.leftQuote d.rightQuote)

/-! ## Values -/

/-- A byte as two hexadecimal digits. -/
def hexByte (b : UInt8) : List Char :=
  let digit (n : Nat) : Char := if n < 10 then Char.ofNat (48 + n) else Char.ofNat (55 + n)
  [digit (b.toNat / 16), digit (b.toNat % 16)]

/-- Bytes as a literal. -/
def blobLiteral (bytes : List UInt8) : String :=
  String.ofList ('X' :: '\'' :: bytes.flatMap hexByte ++ ['\''])

/-- Text as a literal in which each apostrophe stands twice. -/
def textLiteral (s : String) : String :=
  String.ofList ('\'' :: double '\'' s.toList ++ ['\''])

/-- A boolean as a literal. -/
def boolLiteral (d : Dialect) (b : Bool) : String :=
  if d.numericBools then (if b then "1" else "0") else (if b then "TRUE" else "FALSE")

/-- A value as a literal.  How text is escaped may depend on the connection;
a float without digits has no literal. -/
def quoteValue (d : Dialect) : Value → Except Error String
  | .null => .ok "NULL"
  | .bool b => .ok (d.boolLiteral b)
  | .int n => .ok (toString n.toInt)
  | .float x => if x.isFinite then .ok x.text else .error (.noFloatLiteral x)
  | .text s =>
    if d.quotesText then .ok (textLiteral s)
    else
      match d.connection with
      | some connection => .ok (connection.quote s)
      | none => .error (.noConnection d.name)
  | .blob bytes => .ok (blobLiteral bytes)

end Dialect

/-! ## Names that were checked -/

/-- An identifier in a dialect. -/
def Identifier.quoted (i : Identifier) (d : Dialect) : String := d.quoteIdentifier i.text

/-- An alias in a dialect. -/
def Alias.quoted (a : Alias) (d : Dialect) : String := d.quoteAlias a.text

/-- A reference in a dialect. -/
def Reference.quoted (d : Dialect) : Reference → String
  | .identifier i => i.quoted d
  | .alias a => a.quoted d
  | .literal l => l.text

/-! ## Laws of doubling -/

section

variable {q : Char}

theorem double_cons_self (q : Char) (cs : List Char) : double q (q :: cs) = q :: q :: double q cs := by
  rw [double, List.flatMap_cons, if_pos rfl]
  rfl

theorem double_cons_of_ne {c : Char} (h : c ≠ q) (cs : List Char) :
    double q (c :: cs) = c :: double q cs := by
  rw [double, List.flatMap_cons, if_neg h]
  rfl

theorem double_append (q : Char) (xs ys : List Char) :
    double q (xs ++ ys) = double q xs ++ double q ys := List.flatMap_append

theorem double_of_not_mem {cs : List Char} (h : q ∉ cs) : double q cs = cs := by
  induction cs with
  | nil => rfl
  | cons c cs ih =>
    obtain ⟨hc, hcs⟩ := not_or.1 (mt List.mem_cons.2 h)
    rw [double_cons_of_ne (Ne.symm hc), ih hcs]

theorem mem_double_iff {c : Char} {cs : List Char} : c ∈ double q cs ↔ c ∈ cs := by
  induction cs with
  | nil => rfl
  | cons d cs ih =>
    by_cases h : d = q
    · rw [h, double_cons_self]
      simp [ih]
    · rw [double_cons_of_ne h]
      simp [ih]

/-- Doubling keeps the first character. -/
theorem head?_double (q : Char) (cs : List Char) : (double q cs).head? = cs.head? := by
  cases cs with
  | nil => rfl
  | cons c cs =>
    by_cases h : c = q
    · rw [h, double_cons_self]
      rfl
    · rw [double_cons_of_ne h]
      rfl

/-- Doubled quotes are read pair by pair, so what follows them is read as it
is. -/
theorem undouble_double_append (q : Char) (xs ys : List Char) :
    undouble q (double q xs ++ ys) = xs ++ undouble q ys := by
  induction xs with
  | nil => rfl
  | cons c xs ih =>
    by_cases h : c = q
    · rw [h, double_cons_self, List.cons_append, List.cons_append, undouble, if_pos ⟨rfl, rfl⟩, ih]
      rfl
    · rw [double_cons_of_ne h, List.cons_append, List.cons_append, ← ih]
      cases double q xs ++ ys with
      | nil => rfl
      | cons d ds => rw [undouble, if_neg fun hcd => h hcd.1]

theorem undouble_double (q : Char) (cs : List Char) : undouble q (double q cs) = cs := by
  rw [← List.append_nil (double q cs), undouble_double_append]
  exact List.append_nil cs

end

/-! ## Laws of segments -/

section

variable {left right : Char}

theorem segmentsFrom_ne_nil (left right : Char) (acc : List Char) (quoted : Bool) (cs : List Char) :
    segmentsFrom left right acc quoted cs ≠ [] := by
  fun_induction segmentsFrom left right acc quoted cs <;> simp_all

theorem segments_ne_nil (left right : Char) (cs : List Char) : segments left right cs ≠ [] :=
  segmentsFrom_ne_nil _ _ _ _ _

/-- Quotes have been put around it. -/
theorem isQuoted_quoteSegment (left right : Char) (cs : List Char) :
    isQuoted left right (quoteSegment left right cs) = true := by
  simp [isQuoted, quoteSegment, List.getLast?_cons]

theorem head?_of_isQuoted {cs : List Char} (h : isQuoted left right cs = true) :
    cs.head? = some left := by
  simp only [isQuoted, Bool.and_eq_true, beq_iff_eq] at h
  exact h.1.2

theorem isQuoted_of_head?_ne {cs : List Char} (h : cs.head? ≠ some left) :
    isQuoted left right cs = false := Bool.eq_false_iff.2 (mt head?_of_isQuoted h)

theorem isQuoted_of_not_mem {cs : List Char} (h : left ∉ cs) : isQuoted left right cs = false :=
  isQuoted_of_head?_ne fun hhead => h (List.mem_of_mem_head? hhead)

theorem mem_quoteSegment_iff {c : Char} {cs : List Char} :
    c ∈ quoteSegment left right cs ↔ c = left ∨ c ∈ cs ∨ c = right := by
  rw [quoteSegment, List.cons_append, List.mem_cons, List.mem_append, mem_double_iff,
    List.mem_singleton]

/-- A quoted segment gives back what was quoted. -/
theorem unquoteSegment_quoteSegment (left right : Char) (cs : List Char) :
    unquoteSegment left right (quoteSegment left right cs) = cs := by
  rw [unquoteSegment, if_pos (isQuoted_quoteSegment left right cs), quoteSegment, List.cons_append,
    List.tail_cons, List.dropLast_concat, undouble_double]

/-! ## Names as they are written -/

/-- A name with its own quotes, or else put between them. -/
def withQuotes (left right : Char) (cs : List Char) : List Char :=
  if isQuoted left right cs then cs else quoteSegment left right cs

theorem withQuotes_eq {cs : List Char} (h : isQuoted left right cs = false) :
    withQuotes left right cs = quoteSegment left right cs := by
  rw [withQuotes, h, if_neg Bool.false_ne_true]

/-- The opening quote is the first character in either case. -/
theorem head?_withQuotes (left right : Char) (cs : List Char) :
    (withQuotes left right cs).head? = some left := by
  rw [withQuotes]
  split
  · next h => exact head?_of_isQuoted h
  · rfl

/-- Nothing but the quotes is added. -/
theorem mem_withQuotes {c : Char} {cs : List Char} (h : c ∈ withQuotes left right cs) :
    c = left ∨ c = right ∨ c ∈ cs := by
  rw [withQuotes] at h
  split at h
  · exact .inr (.inr h)
  · exact (mem_quoteSegment_iff.1 h).imp_right Or.symm

theorem mem_withQuotes_of_mem {c : Char} {cs : List Char} (h : c ∈ cs) :
    c ∈ withQuotes left right cs := by
  rw [withQuotes]
  split
  · exact h
  · exact mem_quoteSegment_iff.2 (.inr (.inl h))

end

namespace Dialect

/-- A segment as `quoteIdentifier` writes it. -/
def writtenSegment (d : Dialect) (segment : List Char) : List Char :=
  if segment = ['*'] ∨ isQuoted d.leftQuote d.rightQuote segment then segment
  else quoteSegment d.leftQuote d.rightQuote segment

/-- The segments as `quoteIdentifier` writes them. -/
def writtenSegments (d : Dialect) (name : String) : List (List Char) :=
  (segments d.leftQuote d.rightQuote name.toList).map d.writtenSegment

variable {d : Dialect}

theorem writtenSegment_star (d : Dialect) : d.writtenSegment ['*'] = ['*'] := if_pos (.inl rfl)

theorem writtenSegment_of_ne_star {segment : List Char} (h : segment ≠ ['*']) :
    d.writtenSegment segment = withQuotes d.leftQuote d.rightQuote segment := by
  rw [writtenSegment, withQuotes]
  simp only [h, false_or]

theorem writtenSegments_ne_nil (d : Dialect) (name : String) : d.writtenSegments name ≠ [] :=
  mt List.map_eq_nil_iff.1 (segments_ne_nil _ _ _)

theorem toList_quoteIdentifier (d : Dialect) (name : String) :
    (d.quoteIdentifier name).toList = joinWith '.' (d.writtenSegments name) :=
  String.toList_ofList

theorem toList_quoteAlias (d : Dialect) (name : String) :
    (d.quoteAlias name).toList = withQuotes d.leftQuote d.rightQuote name.toList := by
  rw [quoteAlias, withQuotes]
  split
  · rfl
  · exact String.toList_ofList

/-- A quoted name starts with the opening quote or with a star. -/
theorem head?_quoteIdentifier (d : Dialect) (name : String) :
    (d.quoteIdentifier name).toList.head? = some d.leftQuote ∨
      (d.quoteIdentifier name).toList.head? = some '*' := by
  rw [toList_quoteIdentifier, writtenSegments]
  cases hsegments : segments d.leftQuote d.rightQuote name.toList with
  | nil => exact absurd hsegments (segments_ne_nil _ _ _)
  | cons segment rest =>
    rw [List.map_cons]
    by_cases hstar : segment = ['*']
    · rw [hstar, writtenSegment_star, head?_joinWith (List.cons_ne_nil _ _)]
      exact .inr rfl
    · obtain ⟨cs, hcs⟩ := List.head?_eq_some_iff.1 (head?_withQuotes d.leftQuote d.rightQuote segment)
      rw [writtenSegment_of_ne_star hstar, hcs, head?_joinWith (List.cons_ne_nil _ _)]
      exact .inl rfl

end Dialect

end SqlTree
