import SqlTree.Proofs.Caching.Node
import SqlTree.Proofs.Rows.Build

/-!
# SqlTree.Proofs.Rows.Written

Rows as they are written.  A row is written value by value: each value compiles
under the hint of the column above it, into the collector that the values
before it leave (`RowWrites`), and rows are written one after the other in
the same way (`RowsWrite`).  So the text at a place belongs to what is bound
for the value at that place, also where all markers look alike.  An insert
that compiles has written its rows, from the collector that it starts with to
the one that it leaves (`Insert.writesRows_of_compile`,
`Insert.writesRows_of_compileInto`).
-/

namespace SqlTree

/-! ## Rows -/

/-- The texts of a row: each value compiles under the hint of its column into
the collector that those before it leave. -/
inductive RowWrites (d : Dialect) :
    List Identifier → List Operand → Collector → List String → Collector → Prop where
  | nil {columns : List Identifier} {c : Collector} : RowWrites d columns [] c [] c
  | cons {columns : List Identifier} {v : Operand} {row : List Operand}
      {c next last : Collector} {text : String} {texts : List String}
      (hvalue : (v.run d (columnHint columns.head?)).Answers c text next)
      (hrow : RowWrites d columns.tail row next texts last) :
      RowWrites d columns (v :: row) c (text :: texts) last

/-- The texts of rows, each below the same columns. -/
inductive RowsWrite (d : Dialect) (columns : List Identifier) :
    List (List Operand) → Collector → List (List String) → Collector → Prop where
  | nil {c : Collector} : RowsWrite d columns [] c [] c
  | cons {row : List Operand} {rows : List (List Operand)} {c next last : Collector}
      {texts : List String} {cells : List (List String)}
      (hrow : RowWrites d columns row c texts next)
      (hrows : RowsWrite d columns rows next cells last) :
      RowsWrite d columns (row :: rows) c (texts :: cells) last

section

variable {d : Dialect} {columns : List Identifier} {row : List Operand}
  {rows : List (List Operand)} {c last : Collector} {texts : List String}
  {cells : List (List String)}

theorem rowWrites_iff :
    RowWrites d columns row c texts last ↔ (rowRun d columns row).Answers c texts last := by
  induction row generalizing columns c texts with
  | nil =>
    rw [rowRun, Run.answers_pure]
    exact ⟨by rintro ⟨⟩; exact ⟨rfl, rfl⟩, by rintro ⟨rfl, rfl⟩; exact .nil⟩
  | cons v row ih =>
    rw [rowRun, Run.answers_cons]
    constructor
    · rintro ⟨⟩
      next next text texts hvalue hrow => exact ⟨text, next, texts, hvalue, ih.1 hrow, rfl⟩
    · rintro ⟨text, next, texts, hvalue, hrow, rfl⟩
      exact .cons hvalue (ih.2 hrow)

theorem rowsWrite_iff :
    RowsWrite d columns rows c cells last ↔ (rowRuns d columns rows).Answers c cells last := by
  induction rows generalizing c cells with
  | nil =>
    rw [rowRuns, Run.answers_pure]
    exact ⟨by rintro ⟨⟩; exact ⟨rfl, rfl⟩, by rintro ⟨rfl, rfl⟩; exact .nil⟩
  | cons row rows ih =>
    rw [rowRuns, Run.answers_cons]
    constructor
    · rintro ⟨⟩
      next next texts cells hrow hrows =>
      exact ⟨texts, next, cells, rowWrites_iff.1 hrow, ih.1 hrows, rfl⟩
    · rintro ⟨texts, next, cells, hrow, hrows, rfl⟩
      exact .cons (rowWrites_iff.2 hrow) (ih.2 hrows)

/-! ### As many texts as values -/

theorem RowWrites.length (h : RowWrites d columns row c texts last) :
    texts.length = row.length := by
  induction h with
  | nil => rfl
  | cons _ _ ih => exact congrArg Nat.succ ih

theorem RowsWrite.length (h : RowsWrite d columns rows c cells last) :
    cells.length = rows.length := by
  induction h with
  | nil => rfl
  | cons _ _ ih => exact congrArg Nat.succ ih

/-- The texts of a row are one of the lists of texts. -/
theorem RowsWrite.exists_row (h : RowsWrite d columns rows c cells last) (htexts : texts ∈ cells) :
    ∃ row ∈ rows, texts.length = row.length := by
  induction h with
  | nil => exact absurd htexts List.not_mem_nil
  | cons hrow _ ih =>
    rcases List.mem_cons.1 htexts with rfl | htexts
    · exact ⟨_, List.mem_cons_self, hrow.length⟩
    · obtain ⟨row, hmem, hlength⟩ := ih htexts
      exact ⟨row, List.mem_cons_of_mem _ hmem, hlength⟩

/-! ### Collectors -/

theorem Run.Grows.within_of_answers {ν α : Type} {run : Run ν α} (h : run.Grows) {a : α}
    (hrun : run.Answers c a last) : c.Within last :=
  (Run.answers_iff.1 hrun).2 ▸ h c

theorem RowWrites.within (h : RowWrites d columns row c texts last) : c.Within last :=
  (rowRun_grows columns row).within_of_answers (rowWrites_iff.1 h)

theorem RowsWrite.within (h : RowsWrite d columns rows c cells last) : c.Within last :=
  (rowRuns_grow columns rows).within_of_answers (rowsWrite_iff.1 h)

/-! ### One place -/

/-- A value is written behind those before it and before those behind it. -/
theorem RowWrites.at (h : RowWrites d columns row c texts last) {j : Nat} {v : Operand}
    (hv : row[j]? = some v) : ∃ text before after, texts[j]? = some text ∧
      RowWrites d columns (row.take j) c (texts.take j) before ∧
      (v.run d (columnHint columns[j]?)).Answers before text after ∧ after.Within last := by
  induction h generalizing j with
  | nil => simp at hv
  | @cons columns v₀ row c next last text texts hvalue hrow ih =>
    cases j with
    | zero =>
      obtain rfl : v₀ = v := by simpa using hv
      rw [List.head?_eq_getElem?] at hvalue
      exact ⟨text, c, next, rfl, .nil, hvalue, hrow.within⟩
    | succ j =>
      obtain ⟨other, before, after, htext, hbefore, hother, hafter⟩ := ih (j := j) (by simpa using hv)
      rw [List.getElem?_tail] at hother
      exact ⟨other, before, after, htext, .cons hvalue hbefore, hother, hafter⟩

/-- A row is written behind the rows above it. -/
theorem RowsWrite.at (h : RowsWrite d columns rows c cells last) {r : Nat}
    (hrow : rows[r]? = some row) : ∃ texts above below, cells[r]? = some texts ∧
      RowsWrite d columns (rows.take r) c (cells.take r) above ∧
      RowWrites d columns row above texts below ∧ below.Within last := by
  induction h generalizing r with
  | nil => simp at hrow
  | @cons row₀ rows c next last texts cells hfirst hrows ih =>
    cases r with
    | zero =>
      obtain rfl : row₀ = row := by simpa using hrow
      exact ⟨texts, c, next, rfl, .nil, hfirst, hrows.within⟩
    | succ r =>
      obtain ⟨other, above, below, htexts, habove, hother, hbelow⟩ := ih (r := r) (by simpa using hrow)
      exact ⟨other, above, below, htexts, .cons hfirst habove, hother, hbelow⟩

end

/-! ## Inserts -/

namespace Insert

variable {d : Dialect} {i : Insert} {c last : Collector} {sql : String}

/-- The rows of the insert are written, and `sql` is the insert of their
texts. -/
def WritesRows (i : Insert) (d : Dialect) (c : Collector) (sql : String) (last : Collector) : Prop :=
  ∃ (table : Identifier) (cells : List (List String)), i.table? = some table ∧
    RowsWrite d i.columns i.rows c cells last ∧
    d.insertRows (table.quoted d) (i.columns.map (·.quoted d)) cells = .ok sql

/-- The body of an insert without a source writes its rows. -/
theorem writesRows_of_body (hsource : i.source? = none) {n : Insert}
    (h : ((i.body d).run n).Answers c sql last) : i.WritesRows d c sql last := by
  unfold body at h
  cases htable : i.table? with
  | none =>
    rw [htable] at h
    obtain ⟨_, h⟩ := h
    cases h
  | some table =>
    simp only [htable, hsource] at h
    split at h
    · obtain ⟨_, h⟩ := h
      cases h
    · rw [Pass.answers_bind (P := fun cells c sql last =>
        d.insertRows (table.quoted d) (i.columns.map (·.quoted d)) cells = .ok sql ∧ c = last)] at h
      · obtain ⟨cells, next, hcells, hsql, rfl⟩ := h
        exact ⟨table, cells, htable, rowsWrite_iff.2 (Pass.answers_visit.1 hcells), hsql⟩
      · intro cells n c sql last
        cases d.insertRows (table.quoted d) (i.columns.map (·.quoted d)) cells with
        | error e => exact iff_of_false (fun ⟨_, h⟩ => nomatch h) fun h => nomatch h.1
        | ok text =>
          change (Run.pure text n).Answers c sql last ↔ _
          rw [Run.answers_pure, Except.ok.injEq]

/-- So does the draft, in a shipped dialect. -/
theorem writesRows_of_draft (hd : d.Shipped) (hi : i.Coherent) (hsource : i.source? = none)
    {p : Draft} (hp : i.draft d.constructs = .ok p) (c : Collector) :
    i.WritesRows d c (p.text d c) (p.after c) := by
  rw [draft] at hp
  cases htable : i.table? with
  | none =>
    rw [htable] at hp
    cases hp
  | some table =>
    rw [htable, hsource] at hp
    dsimp only at hp
    split at hp
    · cases hp
    obtain ⟨cells, hcells, hp⟩ := exists_of_bind_eq_ok hp
    have heffect : (Draft.rowScribe d).effect (rowDrafts d.constructs i.columns i.rows) c =
        .ok (Draft.rowTexts d cells c, Draft.afterAll cells.flatten c) := by
      rw [hcells]
      rfl
    have hafter : p.after c = Draft.afterAll cells.flatten c := by
      rw [Draft.after, Draft.bindings_insertRows hp]
      rfl
    refine ⟨table, Draft.rowTexts d cells c, htable, ?_, ?_⟩
    · rw [hafter]
      exact rowsWrite_iff.2 ((rowRuns_follow hd i.columns i.rows hi.rows).run_eq heffect)
    · rw [Draft.text_insertRows, hp]
      rfl

/-- An insert that compiles as a whole has written its rows; only a dialect
that is not shipped might be served a text that was kept for another one. -/
theorem writesRows_of_compile (hi : i.Coherent) (hsource : i.source? = none)
    (hd : d.Shipped ∨ i.cache.wholeText? d = none)
    (hsql : answer (Node.compile d .insert i) = .ok sql) :
    ∃ last, Node.collector? .insert (left (Node.compile d .insert i)) = some last ∧
      i.WritesRows d (.empty d.style) sql last := by
  rcases hd with hd | hmiss
  · obtain ⟨p, hp, rfl, hlast⟩ := Node.draft_of_compile (k := .insert) (n := i) hd hi hsql
    exact ⟨_, hlast, writesRows_of_draft hd hi hsource hp _⟩
  · have hmiss : (Keeps.cache i).wholeText? d = none := hmiss
    obtain ⟨last, hlast⟩ := exists_collector_of_asWhole hmiss hsql
    exact ⟨last, hlast,
      writesRows_of_body hsource ((asWhole_answers_iff hmiss).1 ⟨hsql, hlast⟩)⟩

/-- So has one that compiles into a collector. -/
theorem writesRows_of_compileInto (hi : i.Coherent) (hsource : i.source? = none)
    (hd : d.Shipped ∨ i.cache.partText? d = none)
    (hsql : answer (Node.compileInto d .insert i c) = .ok sql) :
    i.WritesRows d c sql (left (Node.compileInto d .insert i c)).2 := by
  rcases hd with hd | hmiss
  · obtain ⟨p, hp, rfl, hlast⟩ := Node.draft_of_compileInto (k := .insert) (n := i) hd hi hsql
    rw [hlast]
    exact writesRows_of_draft hd hi hsource hp c
  · have hmiss : (Keeps.cache i).partText? d = none := hmiss
    exact writesRows_of_body hsource
      ((asPart_answers_iff hmiss).1 (Run.answers_iff.2 ⟨hsql, rfl⟩))

end Insert

end SqlTree
