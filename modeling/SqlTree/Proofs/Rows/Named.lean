import SqlTree.Proofs.Rows.Written

/-!
# SqlTree.Proofs.Rows.Named

Where a value that is given by the name of its column ends up.  A row stands
in the text as it was built, each value compiled under the hint of the
column above it (`Insert.writesAt_of_compile`).  As rows stay and columns do
not change by themselves, a value that is given for a column stands below
that column and is bound under its hint (`Insert.writes_named_value`).  It
is another matter if the columns are called for again after the row: then
the row stays in the order that it has, and the values stand below whichever
columns are listed there now (`Insert.relabels_named_values`).
-/

namespace SqlTree

namespace Insert

/-- The text writes the rows of the insert below its columns, one behind the
other from the first collector to the last, and at a place of them what the
value compiles to under the hint.  It compiles into the collector that the
rows above and the values before it leave, so what is bound there comes
after their entries, and is in the last collector. -/
def WritesAt (d : Dialect) (i : Insert) (r j : Nat) (v : Operand) (hint sql : String)
    (first last : Collector) : Prop :=
  ∃ (table : Identifier) (cells : List (List String)) (values : List Operand) (row : List String)
    (text : String) (above c : Collector),
    i.table? = some table ∧ cells.length = i.rows.length ∧
      d.insertRows (table.quoted d) (i.columns.map (·.quoted d)) cells = .ok sql ∧
      RowsWrite d i.columns i.rows first cells last ∧
      i.rows[r]? = some values ∧ values[j]? = some v ∧
      cells[r]? = some row ∧ row[j]? = some text ∧
      RowsWrite d i.columns (i.rows.take r) first (cells.take r) above ∧
      RowWrites d i.columns (values.take j) above (row.take j) c ∧
      answer (v.run d hint c) = .ok text ∧
      first.entries <+: c.entries ∧ (left (v.run d hint c)).2.entries <+: last.entries

variable {d : Dialect} {i : Insert} {r j : Nat} {row : List Operand} {v : Operand}

/-- Rows that are written have each of their values below its column. -/
theorem WritesRows.writesAt {sql : String} {first last : Collector}
    (h : i.WritesRows d first sql last) (hrow : i.rows[r]? = some row) (hv : row[j]? = some v) :
    i.WritesAt d r j v (columnHint i.columns[j]?) sql first last := by
  obtain ⟨table, cells, htable, hcells, hsql⟩ := h
  obtain ⟨texts, above, below, htexts, habove, hwrites, hbelow⟩ := hcells.at hrow
  obtain ⟨text, before, after, htext, hbefore, hrun, hafter⟩ := hwrites.at hv
  obtain ⟨hanswer, hleft⟩ := Run.answers_iff.1 hrun
  refine ⟨table, cells, row, texts, text, above, before, htable, hcells.length, hsql, hcells, hrow,
    hv, htexts, htext, habove, hbefore, hanswer, ?_, ?_⟩
  · exact (habove.within.trans hbefore.within).entries
  · rw [hleft]
    exact (hafter.trans hbelow).entries

/-- Compiling an insert writes each value below its column. -/
theorem writesAt_of_compile (hd : d.Shipped) (hi : i.Coherent) (hsource : i.source? = none)
    (hrow : i.rows[r]? = some row) (hv : row[j]? = some v) :
    (∀ sql, answer (Node.compile d .insert i) = .ok sql →
      ∃ last, Node.collector? .insert (left (Node.compile d .insert i)) = some last ∧
        i.WritesAt d r j v (columnHint i.columns[j]?) sql (.empty d.style) last) ∧
      ∀ first sql, answer (Node.compileInto d .insert i first) = .ok sql →
        i.WritesAt d r j v (columnHint i.columns[j]?) sql first
          (left (Node.compileInto d .insert i first)).2 := by
  refine ⟨fun sql hsql => ?_, fun first sql hsql => ?_⟩
  · obtain ⟨last, hlast, hwrites⟩ := writesRows_of_compile hi hsource (.inl hd) hsql
    exact ⟨last, hlast, hwrites.writesAt hrow hv⟩
  · exact (writesRows_of_compileInto hi hsource (.inl hd) hsql).writesAt hrow hv

/-! ## Calls one after the other -/

/-- Builder calls, each on what the one before it answers. -/
def run : List (Builder .insert) → Insert → Except Error Insert
  | [], i => .ok i
  | call :: calls, i => do
    let next ← call.build i
    run calls next

theorem run_append_eq_ok {calls calls' : List (Builder .insert)} {i i' : Insert}
    (h : run (calls ++ calls') i = .ok i') :
    ∃ next, run calls i = .ok next ∧ run calls' next = .ok i' := by
  induction calls generalizing i with
  | nil => exact ⟨i, rfl, h⟩
  | cons call calls ih =>
    obtain ⟨next, hnext, h⟩ := exists_of_bind_eq_ok h
    obtain ⟨last, hlast, h⟩ := ih h
    refine ⟨last, ?_, h⟩
    rw [run, hnext]
    exact hlast

variable {calls : List (Builder .insert)} {i' : Insert}

theorem reachable_run (huses : ∀ call ∈ calls, ∀ u ∈ call.uses, Reachable u.1 u.2)
    (hi : Reachable .insert i) (h : run calls i = .ok i') : Reachable .insert i' := by
  induction calls generalizing i with
  | nil =>
    cases h
    exact hi
  | cons call calls ih =>
    obtain ⟨next, hnext, h⟩ := exists_of_bind_eq_ok h
    obtain ⟨hcall, hcalls⟩ := List.forall_mem_cons.1 huses
    have hcalled := Reachable.called .here (.build call) hi hcall
    simp only [Path.edit, Call.act, hnext] at hcalled
    exact ih hcalls hcalled h

/-- Rows stay, and with a row the columns stay as well unless they are called
for again. -/
theorem rows_run (h : run calls i = .ok i') : i.rows <+: i'.rows ∧
    (i.rows ≠ [] → (∀ names, .columns names ∉ calls) → i'.columns = i.columns) := by
  induction calls generalizing i with
  | nil =>
    cases h
    exact ⟨List.prefix_refl _, fun _ _ => rfl⟩
  | cons call calls ih =>
    obtain ⟨next, hnext, h⟩ := exists_of_bind_eq_ok h
    have hrows := Builder.rows_build hnext
    refine ⟨hrows.trans (ih h).1, fun hsome hcalls => ?_⟩
    have hcall : ∀ names, call ≠ .columns names := fun names heq =>
      hcalls names (heq ▸ List.mem_cons_self ..)
    rw [(ih h).2 (fun hnone => hsome (List.prefix_nil.1 (hnone ▸ hrows)))
      fun names hin => hcalls names (List.mem_cons_of_mem _ hin)]
    exact Builder.columns_build hnext hsome hcall

/-- A value that is given for a column stands in the last row there is then,
below that column, and this is where it is written, under the hint of the
column that stands above it in the end.  That is the column it was given for,
unless the columns are called for again after the row. -/
theorem writes_named_value {before after : List (Builder .insert)}
    {pairs : List (String × Operand)} {given : Insert}
    (huses : ∀ call ∈ before ++ [.namedRow pairs] ++ after, ∀ u ∈ call.uses, Reachable u.1 u.2)
    (hgiven : run (before ++ [.namedRow pairs]) empty = .ok given) (hrun : run after given = .ok i)
    {name : String} (hpair : (name, v) ∈ pairs) :
    ∃ (c : Identifier) (r j : Nat), Identifier.parse name = .ok c ∧ r + 1 = given.rows.length ∧
      given.columns[j]? = some c ∧
      ((∀ names, .columns names ∉ after) → i.columns[j]? = some c) ∧
      ∀ d : Dialect, d.Shipped →
        (∀ sql, answer (Node.compile d .insert i) = .ok sql →
          ∃ last, Node.collector? .insert (left (Node.compile d .insert i)) = some last ∧
            i.WritesAt d r j v (columnHint i.columns[j]?) sql (.empty d.style) last) ∧
        ∀ first sql, answer (Node.compileInto d .insert i first) = .ok sql →
          i.WritesAt d r j v (columnHint i.columns[j]?) sql first
            (left (Node.compileInto d .insert i first)).2 := by
  obtain ⟨earlier, -, hlast⟩ := run_append_eq_ok hgiven
  obtain ⟨given', hbuild, hlast⟩ := exists_of_bind_eq_ok hlast
  cases hlast
  obtain ⟨-, hsource, -, row, hrows, hplaces⟩ := addNamedRow_places hbuild
  obtain ⟨c, j, hc, hcolumn, hv⟩ := hplaces name v hpair
  obtain ⟨hstay, hcolumns⟩ := rows_run hrun
  have hsome : given.rows ≠ [] := by simp [hrows]
  have hmade : Reachable .insert empty := .made .insert (fun _ h => nomatch h) rfl
  have hreachable : Reachable .insert i :=
    reachable_run (fun call hcall => huses call (List.mem_append_right _ hcall))
      (reachable_run (fun call hcall => huses call (List.mem_append_left _ hcall)) hmade hgiven)
      hrun
  have hrow : i.rows[earlier.rows.length]? = some row := by
    obtain ⟨later, hlater⟩ := hstay
    rw [← hlater, hrows]
    simp
  have hapart : i.source? = none := by
    by_contra hne
    have hnone := hreachable.sourceApart (Option.isSome_iff_ne_none.2 hne)
    simp [hnone] at hrow
  refine ⟨c, earlier.rows.length, j, hc, by simp [hrows], hcolumn, fun hcalls => ?_, fun d hd => ?_⟩
  · rw [hcolumns hsome hcalls]
    exact hcolumn
  · exact writesAt_of_compile hd hreachable.coherent hapart hrow hv

/-- Two rows by name, the second in another order. -/
theorem writes_named_value_of_two_rows :
    let one : Operand := .value (.int 1)
    let pairs : List (String × Operand) := [("a", one), ("b", .value (.int 2))]
    let after : List (Builder .insert) :=
      [.namedRow [("b", .value (.int 3)), ("a", .value (.int 4))]]
    ∃ given i : Insert, run ([.insertInto "t"] ++ [.namedRow pairs]) empty = .ok given ∧
      run after given = .ok i ∧ ("a", one) ∈ pairs ∧ Dialect.ansi.Shipped ∧
      answer (Node.compile Dialect.ansi .insert i) =
        .ok "INSERT INTO \"t\" (\"a\", \"b\") VALUES (:a1, :b1), (:a2, :b2)" ∧
      ∃ (c : Identifier) (r j : Nat) (last : Collector), Identifier.parse "a" = .ok c ∧
        i.columns[j]? = some c ∧
        i.WritesAt Dialect.ansi r j one (columnHint i.columns[j]?)
          "INSERT INTO \"t\" (\"a\", \"b\") VALUES (:a1, :b1), (:a2, :b2)" (.empty .named)
          last := by
  intro one pairs after
  have hsql : ∀ given i, run ([.insertInto "t"] ++ [.namedRow pairs]) empty = .ok given →
      run after given = .ok i → answer (Node.compile Dialect.ansi .insert i) =
        .ok "INSERT INTO \"t\" (\"a\", \"b\") VALUES (:a1, :b1), (:a2, :b2)" := by
    intro given i hgiven hrun
    cases hgiven
    cases hrun
    refine eq_ok_of_toOption ?_
    decide +kernel
  refine ⟨_, _, rfl, rfl, List.mem_cons_self .., .config .standard, hsql _ _ rfl rfl, ?_⟩
  have hgiven : run ([.insertInto "t"] ++ [.namedRow pairs]) empty = .ok _ := rfl
  have hpair : ("a", one) ∈ pairs := List.mem_cons_self ..
  have huses : ∀ call ∈ [.insertInto "t"] ++ [.namedRow pairs] ++ after,
      ∀ u ∈ Builder.uses call, Reachable u.1 u.2 := by
    simp [pairs, after, one, Builder.uses, Operand.uses]
  obtain ⟨c, r, j, hc, -, -, hcolumn, hwrites⟩ := writes_named_value huses hgiven rfl hpair
  obtain ⟨last, -, hwrites⟩ := (hwrites Dialect.ansi (.config .standard)).1 _ (hsql _ _ rfl rfl)
  exact ⟨c, r, j, last, hc, hcolumn (by simp [after]), hwrites⟩

/-- A row by name whose columns are then listed the other way round: each
value is written below the column that the other one was given for, and bound
under its hint. -/
theorem relabels_named_values :
    let pairs : List (String × Operand) := [("a", .value (.int 1)), ("b", .value (.int 2))]
    ∃ i : Insert, run [.insertInto "t", .namedRow pairs, .columns ["b", "a"]] empty = .ok i ∧
      i.columns.map Identifier.text = ["b", "a"] ∧ i.rows = [pairs.map Prod.snd] ∧
      answer (Node.compile Dialect.ansi .insert i) =
        .ok "INSERT INTO \"t\" (\"b\", \"a\") VALUES (:b1, :a1)" ∧
      (Node.collector? .insert (left (Node.compile Dialect.ansi .insert i))).map
          (fun c => c.entries.map fun e => (e.key.marker, e.value)) =
        some [(":b1", .int 1), (":a1", .int 2)] := by
  intro pairs
  refine ⟨_, rfl, rfl, rfl, eq_ok_of_toOption ?_, ?_⟩ <;> decide +kernel

end Insert

end SqlTree
