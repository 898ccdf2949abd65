import MockMessageBoard.Stats.Csv

/-!
# MockMessageBoard — the reads of a dump

`dump_matrix` returns at once when the matrix has no rows, but it never asks
for a column: with a `col_count` of zero the last column is `col_count - 1`, a
`uint32_t` subtraction that wraps. The indices it reads depend on the sizes and
on `until` only, so they are listed here beside the loops that use them, and
compared with the matrix.

* `dumpMatrix_isSome_iff` — the loops get to their end exactly when every read
  is inside the matrix;
* `dump_inside_iff`       — which dumps stay inside.
-/

namespace MockMessageBoard

open TextFile

/-- The limits of the two loops, `row_count` and `col_count`, unless the call
returns before them. -/
def dumpLimits (data : Matrix) (untilRow : Int64) : Option (UInt32 × UInt32) :=
  let rowCount := UInt32.ofNat data.length
  if rowCount ≤ 0 then none
  else do
    let first ← data[0]?
    some (dumpRowCount rowCount untilRow, UInt32.ofNat first.length)

/-- The indices that one turn of the outer loop reads: `data[i][j]` for the `j`
of the inner loop, then `data[i][col_count - 1]`. -/
def rowReads (colCount : UInt32) (i : Nat) : List (Nat × Nat) :=
  (List.range (colCount - 1).toNat).map (fun j => (i, j)) ++ [(i, (colCount - 1).toNat)]

/-- The indices that `dump_matrix` reads, in order. -/
def dumpReads (data : Matrix) (untilRow : Int64) : List (Nat × Nat) :=
  match dumpLimits data untilRow with
  | none => []
  | some (rowCount, colCount) => (List.range rowCount.toNat).flatMap (rowReads colCount)

/-- Index `(i, j)` is inside the matrix. -/
def Inside (data : Matrix) (p : Nat × Nat) : Prop :=
  ∃ row, data[p.1]? = some row ∧ p.2 < row.length

/-- `dump_matrix` stays inside its matrix, and does not wrap `col_count - 1` in
any turn of the outer loop. -/
structure StaysInside (data : Matrix) (untilRow : Int64) : Prop where
  reads : ∀ p ∈ dumpReads data untilRow, Inside data p
  subtraction : ∀ rowCount colCount, dumpLimits data untilRow = some (rowCount, colCount) →
    rowCount ≠ 0 → (colCount - 1).toNat + 1 = colCount.toNat

-- ---------------------------------------------------------------------------
-- The loops and their reads
-- ---------------------------------------------------------------------------

/-- A loop whose turns fail or not whatever the state fails in its first bad turn. -/
theorem foldlM_isSome_iff {σ α : Type} {f : σ → α → Option σ} {P : α → Prop}
    (hf : ∀ s a, (f s a).isSome ↔ P a) (l : List α) (s : σ) :
    (l.foldlM f s).isSome ↔ ∀ a ∈ l, P a := by
  induction l generalizing s with
  | nil => simp
  | cons a l ih =>
    rw [List.foldlM_cons, List.forall_mem_cons, ← hf s a]
    cases hs : f s a with
    | none => simp
    | some s' => simpa using ih s'

theorem cell_isSome_iff (data : Matrix) (i j : Nat) :
    (cell data i j).isSome ↔ Inside data (i, j) := by
  unfold cell Inside
  cases hrow : data[i]? with
  | none => simp
  | some row => simp

theorem dumpCell_isSome_iff (data : Matrix) (i : Nat) (file : OfStream) (j : Nat) :
    (dumpCell data i file j).isSome ↔ Inside data (i, j) := by
  rw [← cell_isSome_iff]
  unfold dumpCell
  cases cell data i j with
  | none => simp
  | some x => simp

theorem dumpRow_isSome_iff (data : Matrix) (colCount : UInt32) (file : OfStream) (i : Nat) :
    (dumpRow data colCount file i).isSome ↔ ∀ p ∈ rowReads colCount i, Inside data p := by
  have hinner := foldlM_isSome_iff (dumpCell_isSome_iff data i)
    (List.range (colCount - 1).toNat) file
  have hlast := cell_isSome_iff data i (colCount - 1).toNat
  unfold dumpRow rowReads
  rw [List.forall_mem_append, List.forall_mem_map, List.forall_mem_singleton, ← hinner, ← hlast]
  cases (List.range (colCount - 1).toNat).foldlM (dumpCell data i) file with
  | none => simp
  | some file' =>
    cases cell data i (colCount - 1).toNat with
    | none => simp
    | some x => simp

/-- A matrix with a row count has a first row. -/
theorem exists_first {data : Matrix} (h : ¬UInt32.ofNat data.length ≤ 0) :
    ∃ first rest, data = first :: rest := by
  refine List.exists_cons_of_ne_nil ?_
  rintro rfl
  exact h (UInt32.le_refl _)

/-- **A dump gets to its end** exactly when all its reads are inside. -/
theorem dumpMatrix_isSome_iff (filename : Path) (data : Matrix) (untilRow : Int64)
    (overwrite : Bool) (fs : FileSystem) :
    (dumpMatrix filename data untilRow overwrite fs).isSome ↔
      ∀ p ∈ dumpReads data untilRow, Inside data p := by
  unfold dumpMatrix dumpReads dumpLimits
  by_cases hrows : UInt32.ofNat data.length ≤ 0
  · simp [hrows]
  · obtain ⟨first, rest, rfl⟩ := exists_first hrows
    have houter := foldlM_isSome_iff
      (dumpRow_isSome_iff (first :: rest) (UInt32.ofNat first.length))
      (List.range (dumpRowCount (UInt32.ofNat (first :: rest).length) untilRow).toNat)
      (OfStream.open filename (if overwrite then .trunc else .app) fs).1
    simp only [hrows, if_false, List.getElem?_cons_zero, Option.bind_eq_bind, Option.bind_some,
      List.forall_mem_flatMap, ← houter]
    cases (List.range (dumpRowCount (UInt32.ofNat (first :: rest).length) untilRow).toNat).foldlM
        (dumpRow (first :: rest) (UInt32.ofNat first.length))
        (OfStream.open filename (if overwrite then .trunc else .app) fs).1 with
    | none => simp
    | some file => simp

-- ---------------------------------------------------------------------------
-- The limits
-- ---------------------------------------------------------------------------

theorem ofNat_eq_zero_iff (n : Nat) : UInt32.ofNat n = 0 ↔ 2 ^ 32 ∣ n := by
  rw [← UInt32.toNat_inj, UInt32.toNat_ofNat', show (0 : UInt32).toNat = 0 from rfl]
  exact (Nat.dvd_iff_mod_eq_zero ..).symm

theorem le_zero_iff (n : UInt32) : n ≤ 0 ↔ n = 0 := by
  rw [UInt32.le_iff_toNat_le, ← UInt32.toNat_inj]
  exact Nat.le_zero

theorem dumpRowCount_toNat (rowCount : UInt32) (untilRow : Int64) :
    (dumpRowCount rowCount untilRow).toNat =
      if 0 ≤ untilRow.toInt then min untilRow.toInt.toNat rowCount.toNat else rowCount.toNat := by
  have h := dumpRowCount_eq rowCount.toNat_lt untilRow
  rwa [UInt32.ofNat_toNat] at h

theorem dumpRowCount_le (rowCount : UInt32) (untilRow : Int64) :
    (dumpRowCount rowCount untilRow).toNat ≤ rowCount.toNat := by
  rw [dumpRowCount_toNat]
  split <;> omega

/-- Only an `until` of zero selects no row. -/
theorem dumpRowCount_eq_zero_iff {rowCount : UInt32} (hrows : rowCount ≠ 0) (untilRow : Int64) :
    dumpRowCount rowCount untilRow = 0 ↔ untilRow = 0 := by
  have hpos : rowCount.toNat ≠ 0 := fun h => hrows (UInt32.toNat_inj.mp h)
  have hzero : untilRow = 0 ↔ untilRow.toInt = 0 := by
    rw [← Int64.toInt_inj]
    rfl
  rw [← UInt32.toNat_inj, dumpRowCount_toNat, hzero, show (0 : UInt32).toNat = 0 from rfl]
  split <;> omega

theorem dumpLimits_eq_none_iff (data : Matrix) (untilRow : Int64) :
    dumpLimits data untilRow = none ↔ 2 ^ 32 ∣ data.length := by
  rw [← ofNat_eq_zero_iff, ← le_zero_iff]
  unfold dumpLimits
  by_cases hrows : UInt32.ofNat data.length ≤ 0
  · simp [hrows]
  · obtain ⟨first, rest, rfl⟩ := exists_first hrows
    rw [if_neg hrows]
    exact iff_of_false (Option.some_ne_none _) hrows

/-- The limits of a matrix of rows of one length. -/
theorem dumpLimits_eq {data : Matrix} {cols : Nat} (hcols : ∀ row ∈ data, row.length = cols)
    (hrows : ¬2 ^ 32 ∣ data.length) (untilRow : Int64) :
    dumpLimits data untilRow =
      some (dumpRowCount (UInt32.ofNat data.length) untilRow, UInt32.ofNat cols) := by
  rw [← ofNat_eq_zero_iff, ← le_zero_iff] at hrows
  obtain ⟨first, rest, rfl⟩ := exists_first hrows
  unfold dumpLimits
  rw [if_neg hrows, ← hcols first (List.mem_cons_self ..)]
  rfl

theorem mem_rowReads {colCount : UInt32} {i : Nat} {p : Nat × Nat} :
    p ∈ rowReads colCount i ↔ p.1 = i ∧ p.2 ≤ (colCount - 1).toNat := by
  obtain ⟨i', j⟩ := p
  simp only [rowReads, List.mem_append, List.mem_map, List.mem_range, Prod.mk.injEq,
    List.mem_singleton]
  constructor
  · rintro (⟨j', hj', rfl, rfl⟩ | ⟨rfl, rfl⟩)
    · exact ⟨rfl, hj'.le⟩
    · exact ⟨rfl, le_rfl⟩
  · rintro ⟨rfl, hj⟩
    rcases hj.lt_or_eq with hlt | heq
    · exact .inl ⟨j, hlt, rfl, rfl⟩
    · exact .inr ⟨rfl, heq⟩

theorem mem_dumpReads {data : Matrix} {untilRow : Int64} {rowCount colCount : UInt32}
    (h : dumpLimits data untilRow = some (rowCount, colCount)) {p : Nat × Nat} :
    p ∈ dumpReads data untilRow ↔ p.1 < rowCount.toNat ∧ p.2 ≤ (colCount - 1).toNat := by
  unfold dumpReads
  rw [h]
  simp only [List.mem_flatMap, List.mem_range, mem_rowReads]
  constructor
  · rintro ⟨i, hi, rfl, hj⟩
    exact ⟨hi, hj⟩
  · rintro ⟨hi, hj⟩
    exact ⟨_, hi, rfl, hj⟩

/-- `col_count - 1` is the number below, unless there is none. -/
theorem sub_one_toNat_iff (colCount : UInt32) :
    (colCount - 1).toNat + 1 = colCount.toNat ↔ colCount ≠ 0 := by
  constructor
  · rintro h rfl
    exact absurd h (by decide)
  · intro h
    have hpos : colCount.toNat ≠ 0 := fun h' => h (UInt32.toNat_inj.mp h')
    have hone : (1 : UInt32) ≤ colCount := by
      rw [UInt32.le_iff_toNat_le]
      exact Nat.one_le_iff_ne_zero.mpr hpos
    rw [UInt32.toNat_sub_of_le _ _ hone]
    exact Nat.sub_add_cancel (Nat.one_le_iff_ne_zero.mpr hpos)

-- ---------------------------------------------------------------------------
-- Dumps that stay inside
-- ---------------------------------------------------------------------------

/-- With a column, the limits are those of the matrix or less. -/
theorem inside_of_columns {data : Matrix} {cols : Nat} (hcols : ∀ row ∈ data, row.length = cols)
    (hrows : ¬2 ^ 32 ∣ data.length) (hpos : ¬2 ^ 32 ∣ cols) {untilRow : Int64} {p : Nat × Nat}
    (hp : p ∈ dumpReads data untilRow) : Inside data p := by
  obtain ⟨hi, hj⟩ := (mem_dumpReads (dumpLimits_eq hcols hrows untilRow)).mp hp
  have hle := dumpRowCount_le (UInt32.ofNat data.length) untilRow
  have hsub := (sub_one_toNat_iff (UInt32.ofNat cols)).mpr (mt (ofNat_eq_zero_iff cols).mp hpos)
  rw [UInt32.toNat_ofNat'] at hle hsub
  have hlt : p.1 < data.length := (hi.trans_le hle).trans_le (Nat.mod_le ..)
  refine ⟨data[p.1], List.getElem?_eq_getElem hlt, ?_⟩
  rw [hcols _ (List.getElem_mem hlt)]
  have hmod := Nat.mod_le cols (2 ^ 32)
  omega

theorem staysInside_iff {data : Matrix} {cols : Nat} (hcols : ∀ row ∈ data, row.length = cols)
    (untilRow : Int64) :
    StaysInside data untilRow ↔ 2 ^ 32 ∣ data.length ∨ untilRow = 0 ∨ ¬2 ^ 32 ∣ cols := by
  by_cases hrows : 2 ^ 32 ∣ data.length
  · have hnone := (dumpLimits_eq_none_iff data untilRow).mpr hrows
    refine iff_of_true ⟨fun p hp => ?_, fun _ _ h _ => ?_⟩ (.inl hrows)
    · unfold dumpReads at hp
      rw [hnone] at hp
      cases hp
    · rw [hnone] at h
      cases h
  have hlimits := dumpLimits_eq hcols hrows untilRow
  have hzero := dumpRowCount_eq_zero_iff (mt (ofNat_eq_zero_iff _).mp hrows) untilRow
  rw [or_iff_right hrows]
  constructor
  · intro h
    by_contra hwrap
    rw [not_or, not_not] at hwrap
    have hsub := h.subtraction _ _ hlimits (mt hzero.mp hwrap.1)
    exact (sub_one_toNat_iff _).mp hsub ((ofNat_eq_zero_iff cols).mpr hwrap.2)
  · intro h
    refine ⟨fun p hp => ?_, fun rowCount colCount hlimits' hpos => ?_⟩
    · rcases h with huntil | hpos
      · have hi := ((mem_dumpReads hlimits).mp hp).1
        rw [hzero.mpr huntil] at hi
        exact absurd hi (Nat.not_lt_zero _)
      · exact inside_of_columns hcols hrows hpos hp
    · rw [hlimits] at hlimits'
      cases hlimits'
      rw [sub_one_toNat_iff]
      exact mt (ofNat_eq_zero_iff cols).mp (h.resolve_left (mt hzero.mpr hpos))

-- ---------------------------------------------------------------------------
-- save_test_file
-- ---------------------------------------------------------------------------

theorem staysInside_testData_iff (rowCount colCount : UInt32) :
    StaysInside (testData rowCount colCount) (-1) ↔ rowCount = 0 ∨ colCount ≠ 0 := by
  have hrows := ofNat_eq_zero_iff rowCount.toNat
  have hcols := ofNat_eq_zero_iff colCount.toNat
  rw [UInt32.ofNat_toNat] at hrows hcols
  rw [staysInside_iff (row_length_testData rowCount colCount), length_testData, ← hrows, ← hcols,
    or_iff_right (show (-1 : Int64) ≠ 0 by decide)]

/-- Rows without columns are read at index 0. -/
theorem mem_dumpReads_empty {rowCount : UInt32} (hrows : rowCount ≠ 0) :
    (0, 0) ∈ dumpReads (testData rowCount 0) (-1) ∧ ¬Inside (testData rowCount 0) (0, 0) := by
  have hlen := length_testData rowCount 0
  have hcols := row_length_testData rowCount 0
  have hdvd := ofNat_eq_zero_iff rowCount.toNat
  rw [UInt32.ofNat_toNat] at hdvd
  have hlimits := dumpLimits_eq hcols (by rwa [hlen, ← hdvd]) (-1)
  have hpos := dumpRowCount_toNat rowCount (-1)
  rw [if_neg (by decide)] at hpos
  rw [hlen, UInt32.ofNat_toNat] at hlimits
  refine ⟨(mem_dumpReads hlimits).mpr ⟨?_, Nat.zero_le _⟩, ?_⟩
  · rw [hpos]
    exact Nat.pos_of_ne_zero fun h => hrows (UInt32.toNat_inj.mp h)
  · rintro ⟨row, hrow, hlt⟩
    rw [hcols row (List.mem_of_getElem? hrow)] at hlt
    exact Nat.not_lt_zero _ hlt

theorem saveTestFile_isSome_iff (rowCount colCount : UInt32) (fs : FileSystem) :
    (saveTestFile rowCount colCount fs).isSome ↔ rowCount = 0 ∨ colCount ≠ 0 := by
  unfold saveTestFile
  rw [dumpMatrix_isSome_iff]
  constructor
  · intro hreads
    by_contra hempty
    rw [not_or, not_not] at hempty
    obtain ⟨hrows, rfl⟩ := hempty
    obtain ⟨hmem, hout⟩ := mem_dumpReads_empty hrows
    exact hout (hreads _ hmem)
  · intro h
    exact ((staysInside_testData_iff rowCount colCount).mpr h).reads

-- ---------------------------------------------------------------------------
-- All matrices
-- ---------------------------------------------------------------------------

/--
**Which dumps stay inside their matrix.** A dump of rows of one length, with any
`until`, reads inside the matrix and never wraps `col_count - 1` if and only if
it writes no row (there are none, modulo the width of `row_count`, or `until` is
zero) or the rows have columns (modulo the width of `col_count`). The dump of
`save_test_file` does, and so gets to its end, if and only if it has no rows or
some columns.
-/
theorem dump_inside_iff {data : Matrix} {cols : Nat} (hcols : ∀ row ∈ data, row.length = cols)
    (untilRow : Int64) (rowCount colCount : UInt32) (fs : FileSystem) :
    (StaysInside data untilRow ↔ 2 ^ 32 ∣ data.length ∨ untilRow = 0 ∨ ¬2 ^ 32 ∣ cols) ∧
      (StaysInside (testData rowCount colCount) (-1) ↔ rowCount = 0 ∨ colCount ≠ 0) ∧
      ((saveTestFile rowCount colCount fs).isSome ↔ rowCount = 0 ∨ colCount ≠ 0) :=
  ⟨staysInside_iff hcols untilRow, staysInside_testData_iff rowCount colCount,
    saveTestFile_isSome_iff rowCount colCount fs⟩

/-- Two rows of two columns, dumped up to a row beyond the end, and a test file of
the same size. -/
theorem dump_inside_iff_square :
    StaysInside [[1, 2], [3, 4]] 7 ∧ StaysInside (testData 2 2) (-1) ∧
      (saveTestFile 2 2 fun _ => none).isSome := by
  obtain ⟨hmatrix, htest, hfile⟩ := dump_inside_iff
    (show ∀ row ∈ [[1, 2], [3, 4]], row.length = 2 by decide) 7 2 2 fun _ => none
  exact ⟨hmatrix.mpr (.inr (.inr (by decide))), htest.mpr (.inr (by decide)),
    hfile.mpr (.inr (by decide))⟩

/-- `save_test_file(1, 0)` reads `data[0][0]` of an empty row. -/
theorem empty_row_read :
    (0, 0) ∈ dumpReads (testData 1 0) (-1) ∧ ¬Inside (testData 1 0) (0, 0) ∧
      ¬StaysInside (testData 1 0) (-1) := by
  obtain ⟨hmem, hout⟩ := mem_dumpReads_empty (show (1 : UInt32) ≠ 0 by decide)
  exact ⟨hmem, hout, fun h => hout (h.reads _ hmem)⟩

end MockMessageBoard
