import MockMessageBoard.Stats.Manager
import Mathlib.Tactic

/-!
# MockMessageBoard — what a dump writes

`dump_matrix` is two nested loops over an output stream. For a rectangular
matrix with at least one column the loops stay inside it and write one line
per row: `dumpMatrix_eq` gives the file system after the call in closed form.

* `dumpRow_eq`       — the inner loop writes one `rowLine`;
* `dumpRows_eq`      — the outer loop writes the first rows, one line each;
* `dumpMatrix_eq`    — the whole call;
* `dumpRowCount_eq`  — the row count the signed/unsigned comparison selects.
-/

namespace MockMessageBoard

open TextFile

/-- The text of one row, without its newline. -/
def rowLine : List UInt64 → Text
  | [] => []
  | [x] => decimal x.toNat
  | x :: y :: row => decimal x.toNat ++ [','] ++ rowLine (y :: row)

/-- A matrix of `cols` columns that `dump_matrix` can write. -/
structure Rectangular (data : Matrix) (cols : Nat) : Prop where
  rows_lt : data.length < 2 ^ 32
  cols_pos : 1 ≤ cols
  cols_lt : cols < 2 ^ 32
  row_length : ∀ row ∈ data, row.length = cols

-- ---------------------------------------------------------------------------
-- Lines
-- ---------------------------------------------------------------------------

theorem rowLine_append_singleton (row : List UInt64) (x : UInt64) :
    rowLine (row ++ [x]) =
      row.flatMap (fun y => decimal y.toNat ++ [',']) ++ decimal x.toNat := by
  induction row with
  | nil => rfl
  | cons y row ih =>
    cases row with
    | nil => simp [rowLine]
    | cons z row =>
      rw [List.cons_append, List.cons_append, rowLine, ← List.cons_append, ih]
      simp

theorem newline_notMem_rowLine (row : List UInt64) : '\n' ∉ rowLine row := by
  induction row with
  | nil => simp [rowLine]
  | cons x row ih =>
    cases row with
    | nil => exact newline_notMem_decimal _
    | cons y row =>
      rw [rowLine, List.mem_append, List.mem_append]
      rintro ((h | h) | h)
      · exact newline_notMem_decimal _ h
      · simp at h
      · exact ih h

-- ---------------------------------------------------------------------------
-- The loops
-- ---------------------------------------------------------------------------

theorem cell_eq {data : Matrix} {i j : Nat} {row : List UInt64} (hrow : data[i]? = some row) :
    cell data i j = row[j]? := by
  simp [cell, hrow]

/-- The inner loop, after `n` turns. -/
theorem dumpCells_eq {data : Matrix} {i n : Nat} {row : List UInt64}
    (hrow : data[i]? = some row) (hn : n ≤ row.length) (file : OfStream) :
    (List.range n).foldlM (dumpCell data i) file =
      some (file.put ((row.take n).flatMap fun x => decimal x.toNat ++ [','])) := by
  induction n with
  | zero => simp
  | succ n ih =>
    have hlt : n < row.length := by omega
    have hcell : cell data i n = some row[n] := by
      rw [cell_eq hrow, List.getElem?_eq_getElem hlt]
    have hstep : dumpCell data i (file.put ((row.take n).flatMap fun x =>
        decimal x.toNat ++ [','])) n =
          some (file.put ((row.take n).flatMap (fun x => decimal x.toNat ++ [',']) ++
            (decimal row[n].toNat ++ [',']))) := by
      simp [dumpCell, hcell]
    rw [List.range_succ, List.foldlM_append, ih (by omega), List.take_succ_eq_append_getElem hlt,
      List.flatMap_append, List.flatMap_singleton]
    simp only [Option.bind_eq_bind, Option.bind_some, List.foldlM_cons, List.foldlM_nil, hstep]
    rfl

/-- **One row.** -/
theorem dumpRow_eq {data : Matrix} {i : Nat} {row : List UInt64} {colCount : UInt32}
    (hrow : data[i]? = some row) (hlen : row.length = colCount.toNat)
    (hpos : 1 ≤ colCount.toNat) (file : OfStream) :
    dumpRow data colCount file i = some (file.put (rowLine row ++ ['\n'])) := by
  have hone : (1 : UInt32) ≤ colCount := by
    rw [UInt32.le_iff_toNat_le]
    exact hpos
  have hsub : (colCount - 1).toNat = row.length - 1 := by
    rw [UInt32.toNat_sub_of_le _ _ hone, hlen]
    rfl
  have hlt : row.length - 1 < row.length := by omega
  have hsplit : row = row.take (row.length - 1) ++ [row[row.length - 1]] := by
    rw [← List.take_succ_eq_append_getElem hlt, Nat.sub_add_cancel (by omega), List.take_length]
  have hline : rowLine row =
      (row.take (row.length - 1)).flatMap (fun y => decimal y.toNat ++ [',']) ++
        decimal row[row.length - 1].toNat := by
    conv_lhs => rw [hsplit]
    exact rowLine_append_singleton _ _
  rw [dumpRow, hsub, dumpCells_eq hrow (by omega), cell_eq hrow, List.getElem?_eq_getElem hlt]
  simp [hline]

/-- **The outer loop**, after `n` turns. -/
theorem dumpRows_eq {data : Matrix} {colCount : UInt32}
    (hcols : ∀ row ∈ data, row.length = colCount.toNat) (hpos : 1 ≤ colCount.toNat)
    {n : Nat} (hn : n ≤ data.length) (file : OfStream) :
    (List.range n).foldlM (dumpRow data colCount) file =
      some (file.put (unlines ((data.take n).map rowLine))) := by
  induction n with
  | zero => simp
  | succ n ih =>
    have hlt : n < data.length := by omega
    have hrow : data[n]? = some data[n] := List.getElem?_eq_getElem hlt
    have hlen := hcols data[n] (List.getElem_mem hlt)
    rw [List.range_succ, List.foldlM_append, ih (by omega), List.take_succ_eq_append_getElem hlt,
      List.map_append, unlines_append]
    simp [dumpRow_eq hrow hlen hpos]

-- ---------------------------------------------------------------------------
-- The whole call
-- ---------------------------------------------------------------------------

/-- The row count that the comparison of `int64_t until` with `uint32_t
row_count` selects. -/
theorem dumpRowCount_eq {rows : Nat} (hrows : rows < 2 ^ 32) (untilRow : Int64) :
    (dumpRowCount (UInt32.ofNat rows) untilRow).toNat =
      if 0 ≤ untilRow.toInt then min untilRow.toInt.toNat rows else rows := by
  have hnat : (UInt32.ofNat rows).toNat = rows := UInt32.toNat_ofNat_of_lt' hrows
  have hint : (Int64.ofNat rows).toInt = rows := Int64.toInt_ofNat_of_lt (by omega)
  have hzero : (0 ≤ untilRow) ↔ 0 ≤ untilRow.toInt := by
    rw [Int64.le_iff_toInt_le]
    simp
  simp only [dumpRowCount, hnat, Int64.lt_iff_toInt_lt, hint, hzero]
  by_cases h : 0 ≤ untilRow.toInt ∧ untilRow.toInt < rows
  · have hlt : untilRow.toInt.toNat < 2 ^ 32 := by omega
    have hconv : (UInt32.ofNat untilRow.toInt.toNat).toNat = untilRow.toInt.toNat :=
      UInt32.toNat_ofNat_of_lt' hlt
    rw [if_pos h, if_pos h.1, hconv]
    omega
  · rw [if_neg h, hnat]
    split <;> omega

/-- **`dump_matrix` in closed form**, on any rectangular matrix. -/
theorem dumpMatrix_eq {data : Matrix} {cols : Nat} (hrect : Rectangular data cols)
    (hne : data ≠ []) (filename : Path) (untilRow : Int64) (overwrite : Bool)
    (fs : FileSystem) :
    dumpMatrix filename data untilRow overwrite fs =
      some (fs.writeText filename (if overwrite then .trunc else .app)
        (unlines ((data.take (if 0 ≤ untilRow.toInt then untilRow.toInt.toNat
          else data.length)).map rowLine))) := by
  obtain ⟨first, rest, rfl⟩ := List.exists_cons_of_ne_nil hne
  have hcount : (UInt32.ofNat (first :: rest).length).toNat = (first :: rest).length :=
    UInt32.toNat_ofNat_of_lt' hrect.rows_lt
  have hpos : ¬ UInt32.ofNat (first :: rest).length ≤ 0 := by
    rw [UInt32.le_iff_toNat_le, hcount]
    simp
  have hfirst := hrect.row_length first (List.mem_cons_self ..)
  have hcols : (UInt32.ofNat first.length).toNat = cols := by
    rw [hfirst]
    exact UInt32.toNat_ofNat_of_lt' hrect.cols_lt
  have hrows := dumpRowCount_eq hrect.rows_lt untilRow
  have hle : (dumpRowCount (UInt32.ofNat (first :: rest).length) untilRow).toNat ≤
      (first :: rest).length := by
    rw [hrows]
    split <;> omega
  have hlens : ∀ row ∈ first :: rest, row.length = (UInt32.ofNat first.length).toNat :=
    fun row h => (hrect.row_length row h).trans hcols.symm
  have hloop := dumpRows_eq hlens (by rw [hcols]; exact hrect.cols_pos) hle
  have htake : (first :: rest).take
      (dumpRowCount (UInt32.ofNat (first :: rest).length) untilRow).toNat =
        (first :: rest).take (if 0 ≤ untilRow.toInt then untilRow.toInt.toNat
          else (first :: rest).length) := by
    rw [hrows]
    split
    · exact List.take_eq_take_iff.mpr (by omega)
    · rfl
  rw [dumpMatrix, if_neg hpos]
  simp only [List.getElem?_cons_zero, Option.bind_eq_bind, Option.bind_some, hloop]
  rw [← writeText_eq, htake]

end MockMessageBoard
