import SqlTree.Json.Reader
import SqlTree.Proofs.Names.Reader

/-!
# SqlTree.Proofs.Literals

Literals as SQL reads them back.  Text and bytes stand between apostrophes
and end at the first apostrophe that is not one of a pair (`cutAtQuote`), so
`readLiteral` takes one literal off the front of a text and leaves the rest.
What a dialect writes for text, bytes and integers is read as the value that
was written, whatever stands behind it (`Dialect.quoteValue_readBack`).
-/

namespace SqlTree

/-! ## Up to the closing quote -/

section

variable {q : Char} {cs inside rest : List Char}

/-- What stands in front of the first `q` that is not one of a pair, and
what stands behind it. -/
def cutAtQuote (q : Char) : List Char → Option (List Char × List Char)
  | [] => none
  | [c] => if c = q then some ([], []) else none
  | c :: d :: cs =>
    if c = q then
      if d = q then (cutAtQuote q cs).map (Prod.map (q :: q :: ·) id) else some ([], d :: cs)
    else (cutAtQuote q (d :: cs)).map (Prod.map (c :: ·) id)

theorem map_prodMap_id_eq_some_iff {f : List Char → List Char}
    {cut : Option (List Char × List Char)} :
    cut.map (Prod.map f id) = some (inside, rest) ↔
      ∃ more, f more = inside ∧ cut = some (more, rest) := by
  cases cut <;> simp [Prod.ext_iff, and_comm, and_assoc]

theorem cutAtQuote_sound (h : cutAtQuote q cs = some (inside, rest)) :
    cs = inside ++ q :: rest ∧ closingDoubled q inside = true ∧ rest.head? ≠ some q := by
  fun_induction cutAtQuote q cs generalizing inside with
  | case1 => cases h
  | case2 =>
    obtain ⟨rfl, rfl⟩ : [] = inside ∧ [] = rest := by simpa using h
    exact ⟨rfl, rfl, nofun⟩
  | case3 => cases h
  | case4 cs ih =>
    obtain ⟨more, rfl, hmore⟩ := map_prodMap_id_eq_some_iff.1 h
    obtain ⟨rfl, hdoubled, hrest⟩ := ih hmore
    exact ⟨rfl, by simp [closingDoubled, hdoubled], hrest⟩
  | case5 d cs hd =>
    obtain ⟨rfl, rfl⟩ : [] = inside ∧ d :: cs = rest := by simpa using h
    exact ⟨rfl, rfl, by simpa using hd⟩
  | case6 c d cs hc ih =>
    obtain ⟨more, rfl, hmore⟩ := map_prodMap_id_eq_some_iff.1 h
    obtain ⟨hcs, hdoubled, hrest⟩ := ih hmore
    refine ⟨by rw [hcs]; rfl, ?_, hrest⟩
    cases more <;> simp [closingDoubled, hc, hdoubled]

theorem cutAtQuote_closing (hinside : closingDoubled q inside = true)
    (hrest : rest.head? ≠ some q) : cutAtQuote q (inside ++ q :: rest) = some (inside, rest) := by
  fun_induction closingDoubled q inside with
  | case1 => cases rest <;> simp_all [cutAtQuote]
  | case2 c =>
    have hc : c ≠ q := by simpa using hinside
    cases rest <;> simp_all [cutAtQuote]
  | case3 c' cs ih =>
    obtain ⟨hc', hcs⟩ := Bool.and_eq_true_iff.1 hinside
    obtain rfl : c' = q := by simpa using hc'
    simp [cutAtQuote, ih hcs]
  | case4 c c' cs hc ih =>
    have hcut := ih hinside
    rw [List.cons_append] at hcut
    rw [List.cons_append, List.cons_append, cutAtQuote, if_neg hc, hcut]
    rfl

/-- In front of the cut there are no quotes but pairs, and behind it there is
no further quote. -/
theorem cutAtQuote_eq_some_iff :
    cutAtQuote q cs = some (inside, rest) ↔
      cs = inside ++ q :: rest ∧ closingDoubled q inside = true ∧ rest.head? ≠ some q :=
  ⟨cutAtQuote_sound, fun ⟨hcs, hinside, hrest⟩ => hcs ▸ cutAtQuote_closing hinside hrest⟩

end

/-! ## Reading a literal -/

/-- The bytes written as pairs of hexadecimal digits. -/
def bytesOfHex? : List Char → Option (List UInt8)
  | [] => some []
  | [_] => none
  | high :: low :: cs => do
    let h ← Json.hexDigit? high
    let l ← Json.hexDigit? low
    let bytes ← bytesOfHex? cs
    return UInt8.ofNat (16 * h + l) :: bytes

/-- Text up to the closing apostrophe, each pair of apostrophes read as one. -/
def readText (cs : List Char) : Option (Value × List Char) := do
  let (inside, rest) ← cutAtQuote '\'' cs
  return (.text (String.ofList (undouble '\'' inside)), rest)

/-- Bytes up to the closing apostrophe. -/
def readBlob (cs : List Char) : Option (Value × List Char) := do
  let (inside, rest) ← cutAtQuote '\'' cs
  let bytes ← bytesOfHex? inside
  return (.blob bytes, rest)

/-- A number up to the last of its digits, of which there is one at least. -/
def readDigits (cs : List Char) : Option (Nat × List Char) :=
  if cs.takeWhile Char.isDigit = [] then none
  else some (natOfDigits (cs.takeWhile Char.isDigit), cs.dropWhile Char.isDigit)

/-- The text, bytes or whole number at the front, and what stands behind the
literal. -/
def readLiteral : List Char → Option (Value × List Char)
  | '\'' :: cs => readText cs
  | 'X' :: '\'' :: cs => readBlob cs
  | '-' :: cs => (readDigits cs).map fun (n, rest) => (.ofInt (-n), rest)
  | cs => (readDigits cs).map fun (n, rest) => (.ofInt n, rest)

/-! ## Bytes -/

theorem hexDigits_hexByte (b : UInt8) :
    ∃ high low, Dialect.hexByte b = [high, low] ∧ high ≠ '\'' ∧ low ≠ '\'' ∧
      Json.hexDigit? high = some (b.toNat / 16) ∧ Json.hexDigit? low = some (b.toNat % 16) := by
  have hdigit : ∀ n < 16,
      (if n < 10 then Char.ofNat (48 + n) else Char.ofNat (55 + n)) ≠ '\'' ∧
      Json.hexDigit? (if n < 10 then Char.ofNat (48 + n) else Char.ofNat (55 + n)) = some n := by
    decide
  have hb := b.toNat_lt
  obtain ⟨hhigh, hhigh'⟩ := hdigit (b.toNat / 16) (by omega)
  obtain ⟨hlow, hlow'⟩ := hdigit (b.toNat % 16) (by omega)
  exact ⟨_, _, rfl, hhigh, hlow, hhigh', hlow'⟩

theorem bytesOfHex?_hexByte (bytes : List UInt8) :
    bytesOfHex? (bytes.flatMap Dialect.hexByte) = some bytes := by
  induction bytes with
  | nil => rfl
  | cons b bytes ih =>
    obtain ⟨high, low, hbyte, -, -, hhigh, hlow⟩ := hexDigits_hexByte b
    have hdigits : UInt8.ofNat (16 * (b.toNat / 16) + b.toNat % 16) = b := by
      rw [Nat.div_add_mod, UInt8.ofNat_toNat]
    rw [List.flatMap_cons, hbyte, List.cons_append, List.cons_append, List.nil_append, bytesOfHex?,
      hhigh, hlow, ih]
    exact congrArg (fun b => some (b :: bytes)) hdigits

theorem quote_not_mem_hexBytes (bytes : List UInt8) : '\'' ∉ bytes.flatMap Dialect.hexByte := by
  intro hmem
  obtain ⟨b, -, hb⟩ := List.mem_flatMap.1 hmem
  obtain ⟨high, low, hbyte, hhigh, hlow, -⟩ := hexDigits_hexByte b
  rw [hbyte] at hb
  simp [hhigh.symm, hlow.symm] at hb

/-! ## Numbers -/

/-- The digits of a number are read up to what is not a digit. -/
theorem readDigits_repr (n : Nat) {rest : List Char} (hrest : ∀ c ∈ rest.head?, c.isDigit = false) :
    readDigits (n.repr.toList ++ rest) = some (n, rest) := by
  have hdigits : ∀ c ∈ Nat.toDigits 10 n, c.isDigit = true := fun c hc =>
    Nat.isDigit_of_mem_toDigits (by decide) (by decide) hc
  have hstop : rest.takeWhile Char.isDigit = [] ∧ rest.dropWhile Char.isDigit = rest := by
    cases rest with
    | nil => exact ⟨rfl, rfl⟩
    | cons c rest =>
      have hc : ¬c.isDigit = true := by simp [hrest c rfl]
      exact ⟨List.takeWhile_cons_of_neg hc, List.dropWhile_cons_of_neg hc⟩
  rw [readDigits, Nat.toList_repr, List.takeWhile_append_of_pos hdigits,
    List.dropWhile_append_of_pos hdigits, hstop.1, hstop.2, List.append_nil,
    if_neg Nat.toDigits_ne_nil]
  exact congrArg (fun m => some (m, rest)) (Nat.ofDigitChars_toDigits (by decide) (by decide))

/-- A number without a sign is what starts with digits. -/
theorem readLiteral_digits {digits : List Char} (hne : digits ≠ [])
    (hdigits : ∀ c ∈ digits, c.isDigit = true) (rest : List Char) :
    readLiteral (digits ++ rest) =
      (readDigits (digits ++ rest)).map fun (n, rest) => (.ofInt n, rest) := by
  obtain ⟨c, digits, rfl⟩ := List.exists_cons_of_ne_nil hne
  have hc := hdigits c List.mem_cons_self
  have hother : c ≠ '\'' ∧ c ≠ 'X' ∧ c ≠ '-' := by
    refine ⟨?_, ?_, ?_⟩ <;> rintro rfl <;> exact absurd hc (by decide)
  rw [List.cons_append, readLiteral] <;> simp [hother]

theorem readLiteral_toString (n : Int64) {rest : List Char}
    (hrest : ∀ c ∈ rest.head?, c.isDigit = false) :
    readLiteral ((toString n.toInt).toList ++ rest) = some (.int n, rest) := by
  have hn : Value.ofInt n.toInt = .int n := by
    rw [Value.ofInt_eq_int ⟨n.minValue_le_toInt, n.toInt_le⟩, Int64.ofInt_toInt]
  cases hint : n.toInt with
  | ofNat m =>
    have htext : (toString (Int.ofNat m)).toList = Nat.toDigits 10 m := Nat.toList_repr
    rw [htext, readLiteral_digits Nat.toDigits_ne_nil fun c hc =>
      Nat.isDigit_of_mem_toDigits (by decide) (by decide) hc, ← Nat.toList_repr,
      readDigits_repr m hrest, ← hn, hint]
    rfl
  | negSucc m =>
    have htext : (toString (Int.negSucc m)).toList = '-' :: (m + 1).repr.toList :=
      String.toList_append
    rw [htext, List.cons_append, readLiteral, readDigits_repr _ hrest, ← hn, hint]
    rfl

/-! ## What a dialect writes -/

/-- Behind its opening characters a literal goes up to a quote, which is the
first one that is not one of a pair; text behind the literal does not change
that, unless it starts with a quote. -/
def ClosesAtEnd (opening : List Char) (literal : String) : Prop :=
  ∃ inside, literal.toList = opening ++ (inside ++ ['\'']) ∧
    ∀ rest, cutAtQuote '\'' (inside ++ '\'' :: rest) = some (inside, rest) ↔
      rest.head? ≠ some '\''

theorem closesAtEnd {opening inside : List Char} (h : closingDoubled '\'' inside = true) :
    ClosesAtEnd opening (String.ofList (opening ++ (inside ++ ['\'']))) :=
  ⟨inside, String.toList_ofList, fun rest => by simp [cutAtQuote_eq_some_iff, h]⟩

theorem readLiteral_textLiteral (s : String) {rest : List Char} (hrest : rest.head? ≠ some '\'') :
    readLiteral ((Dialect.textLiteral s).toList ++ rest) = some (.text s, rest) := by
  have htext : (Dialect.textLiteral s).toList ++ rest =
      '\'' :: (double '\'' s.toList ++ '\'' :: rest) := by simp [Dialect.textLiteral]
  rw [htext, readLiteral, readText, cutAtQuote_closing (closingDoubled_double _ _) hrest]
  simp [undouble_double]

theorem closingDoubled_hexBytes (bytes : List UInt8) :
    closingDoubled '\'' (bytes.flatMap Dialect.hexByte) = true := by
  rw [← double_of_not_mem (quote_not_mem_hexBytes bytes)]
  exact closingDoubled_double _ _

theorem readLiteral_blobLiteral (bytes : List UInt8) {rest : List Char}
    (hrest : rest.head? ≠ some '\'') :
    readLiteral ((Dialect.blobLiteral bytes).toList ++ rest) = some (.blob bytes, rest) := by
  have htext : (Dialect.blobLiteral bytes).toList ++ rest =
      'X' :: '\'' :: (bytes.flatMap Dialect.hexByte ++ '\'' :: rest) := by
    simp [Dialect.blobLiteral]
  rw [htext, readLiteral, readBlob, cutAtQuote_closing (closingDoubled_hexBytes bytes) hrest]
  simp [bytesOfHex?_hexByte]

namespace Dialect

/-- The literals of text, of bytes and of integers are read as the values
they were written for, and the literals in quotes end where their closing
quote stands. -/
theorem quoteValue_readBack :
    (∀ style s, ∃ literal, (sqlite style).quoteValue (.text s) = .ok literal ∧
      ClosesAtEnd ['\''] literal ∧
      ∀ rest, rest.head? ≠ some '\'' →
        readLiteral (literal.toList ++ rest) = some (.text s, rest)) ∧
    ∀ d : Dialect,
      (∀ bytes, ∃ literal, d.quoteValue (.blob bytes) = .ok literal ∧
        ClosesAtEnd ['X', '\''] literal ∧
        ∀ rest, rest.head? ≠ some '\'' →
          readLiteral (literal.toList ++ rest) = some (.blob bytes, rest)) ∧
      ∀ n, ∃ literal, d.quoteValue (.int n) = .ok literal ∧
        ∀ rest, (∀ c ∈ rest.head?, c.isDigit = false) →
          readLiteral (literal.toList ++ rest) = some (.int n, rest) := by
  refine ⟨fun style s => ⟨textLiteral s, rfl, ?_, fun rest => readLiteral_textLiteral s⟩,
    fun d => ⟨fun bytes => ⟨blobLiteral bytes, rfl, ?_, fun rest => readLiteral_blobLiteral bytes⟩,
      fun n => ⟨toString n.toInt, rfl, fun rest => readLiteral_toString n⟩⟩⟩
  · exact closesAtEnd (closingDoubled_double _ _)
  · exact closesAtEnd (closingDoubled_hexBytes bytes)

/-- Pairs of apostrophes in the text, bytes at both ends of their range, and
the least integer, each in front of more text. -/
theorem quoteValue_readBack_of_pairs :
    let rest := " AND 'b'".toList
    rest.head? ≠ some '\'' ∧ (∀ c ∈ rest.head?, c.isDigit = false) ∧
    (sqlite .positional).quoteValue (.text "'it''s'") = .ok "'''it''''s'''" ∧
    readLiteral ("'''it''''s'''".toList ++ rest) = some (.text "'it''s'", rest) ∧
    ansi.quoteValue (.blob [0, 255]) = .ok "X'00FF'" ∧
    readLiteral ("X'00FF'".toList ++ rest) = some (.blob [0, 255], rest) ∧
    ansi.quoteValue (.int Int64.minValue) = .ok "-9223372036854775808" ∧
    readLiteral ("-9223372036854775808".toList ++ rest) = some (.int Int64.minValue, rest) := by
  intro rest
  have hhead : rest.head? = some ' ' := rfl
  have hquote : rest.head? ≠ some '\'' := by rw [hhead]; decide
  have hdigit : ∀ c ∈ rest.head?, c.isDigit = false := by
    intro c hc
    obtain rfl := Option.some.inj (hhead.symm.trans hc)
    rfl
  obtain ⟨htexts, hothers⟩ := quoteValue_readBack
  obtain ⟨hblobs, hints⟩ := hothers ansi
  obtain ⟨text, htext, -, hreadText⟩ := htexts .positional "'it''s'"
  obtain ⟨blob, hblob, -, hreadBlob⟩ := hblobs [0, 255]
  obtain ⟨int, hint, hreadInt⟩ := hints Int64.minValue
  have htextLiteral : textLiteral "'it''s'" = "'''it''''s'''" := rfl
  have hblobLiteral : blobLiteral [0, 255] = "X'00FF'" := rfl
  have hintLiteral : toString Int64.minValue.toInt = "-9223372036854775808" := rfl
  obtain rfl := htextLiteral.symm.trans (Except.ok.inj htext)
  obtain rfl := hblobLiteral.symm.trans (Except.ok.inj hblob)
  obtain rfl := hintLiteral.symm.trans (Except.ok.inj hint)
  exact ⟨hquote, hdigit, htext, hreadText rest hquote, hblob, hreadBlob rest hquote, hint,
    hreadInt rest hdigit⟩

end Dialect

end SqlTree
