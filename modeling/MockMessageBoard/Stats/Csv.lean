import MockMessageBoard.Lib.Csv
import MockMessageBoard.Stats.Versions

/-!
# MockMessageBoard — reading a dump back

The stats files are read without a header and with two `UInt64` columns asked
for. `readCsv` is that reader; a `Dump` is one call of `dump_matrix` on a
matrix it can write, and a file is the work of any number of them.

* `dumpMatrix_rows` — a dump writes one line for each row it selects;
* `run_holds`       — what a file holds after one more dump;
* `runs_hold`       — what it holds after any sequence of them;
* `dump_decodes`    — the reader gets exactly those rows back;
* `saveTestFile_readCsv` — so with the file `save_test_file` leaves.
-/

namespace MockMessageBoard

open TextFile

/-- A field of a `UInt64` column. -/
def toCell (n : Nat) : Option UInt64 := if n < 2 ^ 64 then some (UInt64.ofNat n) else none

/-- `read_csv` without a header, all columns `UInt64`. -/
def readCsv (t : Text) : Option Matrix := do
  let rows ← readTable t
  rows.mapM fun row => row.mapM toCell

/-- A call of `dump_matrix` on a rectangular matrix with a row and a column. -/
structure Dump where
  data : Matrix
  cols : Nat
  untilRow : Int64
  overwrite : Bool
  nonempty : data ≠ []
  rectangular : Rectangular data cols

namespace Dump

/-- The call. -/
def run (filename : Path) (fs : FileSystem) (d : Dump) : Option FileSystem :=
  dumpMatrix filename d.data d.untilRow d.overwrite fs

/-- The rows a dump selects. -/
def rows (d : Dump) : Matrix :=
  if 0 ≤ d.untilRow.toInt then d.data.take (min d.untilRow.toInt.toNat d.data.length)
  else d.data

/-- The rows of a file after one more dump. -/
def onto (earlier : Matrix) (d : Dump) : Matrix :=
  if d.overwrite then d.rows else earlier ++ d.rows

end Dump

/-- The file `p` holds the lines of `rows` and no other text. -/
structure HoldsRows (fs : FileSystem) (p : Path) (rows : Matrix) : Prop where
  text : (fs p).getD [] = unlines (rows.map rowLine)
  fields : ∀ row ∈ rows, row ≠ []

-- ---------------------------------------------------------------------------
-- Reading
-- ---------------------------------------------------------------------------

theorem rowLine_eq_rowText (row : List UInt64) : rowLine row = rowText (row.map UInt64.toNat) := by
  unfold rowText
  induction row with
  | nil => rfl
  | cons x row ih =>
    cases row with
    | nil => simp [rowLine]
    | cons y row =>
      rw [rowLine, ih]
      simp only [List.map_cons, List.intercalate_cons_cons]

theorem toCell_toNat (x : UInt64) : toCell x.toNat = some x := by
  unfold toCell
  rw [if_pos x.toNat_lt, UInt64.ofNat_toNat]

/-- The reader returns the rows a text was written from. -/
theorem readCsv_unlines {rows : Matrix} (hrows : ∀ row ∈ rows, row ≠ []) :
    readCsv (unlines (rows.map rowLine)) = some rows := by
  have hlines : rows.map rowLine = (rows.map (List.map UInt64.toNat)).map rowText := by
    rw [List.map_map]
    exact List.map_congr_left fun row _ => rowLine_eq_rowText row
  have htable : readTable (unlines (rows.map rowLine)) =
      some (rows.map (List.map UInt64.toNat)) := by
    rw [hlines]
    apply readTable_unlines
    intro row hrow
    obtain ⟨cells, hcells, rfl⟩ := List.mem_map.mp hrow
    simpa using hrows cells hcells
  unfold readCsv
  rw [htable]
  exact mapM_map_of_left_inv fun row _ => mapM_map_of_left_inv fun x _ => toCell_toNat x

/-- The reader returns the entries a manager wrote. -/
theorem readCsv_entryText (es : List Entry) : readCsv (entryText es) = some (es.map Entry.row) := by
  have hrows : es.map StreamStatsManager.entryLine = (es.map Entry.row).map rowLine := by
    rw [List.map_map]
    rfl
  unfold entryText
  rw [hrows]
  apply readCsv_unlines
  intro row hrow
  obtain ⟨e, -, rfl⟩ := List.mem_map.mp hrow
  exact List.cons_ne_nil _ _

theorem HoldsRows.readCsv_eq {fs : FileSystem} {p : Path} {rows : Matrix}
    (h : HoldsRows fs p rows) : readCsv ((fs p).getD []) = some rows := by
  rw [h.text]
  exact readCsv_unlines h.fields

-- ---------------------------------------------------------------------------
-- Writing
-- ---------------------------------------------------------------------------

theorem Dump.rows_fields (d : Dump) : ∀ row ∈ d.rows, row ≠ [] := by
  intro row hrow
  have hmem : row ∈ d.data := by
    unfold Dump.rows at hrow
    split at hrow
    · exact List.mem_of_mem_take hrow
    · exact hrow
  have hlen := d.rectangular.row_length row hmem
  have hpos := d.rectangular.cols_pos
  rintro rfl
  rw [List.length_nil] at hlen
  omega

/-- **One dump** writes one line for each row it selects. -/
theorem dumpMatrix_rows (filename : Path) (fs : FileSystem) (d : Dump) :
    d.run filename fs = some (fs.writeText filename (fileMode d.overwrite)
      (unlines (d.rows.map rowLine))) := by
  have hselected : d.data.take (if 0 ≤ d.untilRow.toInt then d.untilRow.toInt.toNat
      else d.data.length) = d.rows := by
    unfold Dump.rows
    split
    · exact List.take_eq_take_iff.mpr (by omega)
    · exact List.take_length
  unfold Dump.run
  rw [dumpMatrix_eq d.rectangular d.nonempty, hselected]
  rfl

/-- What a file holds after one more dump. -/
theorem run_holds {filename : Path} (hname : filename ≠ []) {fs : FileSystem} {earlier : Matrix}
    (h : HoldsRows fs filename earlier) (d : Dump) :
    ∃ fs', d.run filename fs = some fs' ∧ (fs' filename).isSome ∧
      HoldsRows fs' filename (d.onto earlier) := by
  have hrun := dumpMatrix_rows filename fs d
  unfold Dump.onto
  unfold fileMode at hrun
  cases hmode : d.overwrite with
  | true =>
    rw [hmode] at hrun
    have hfile := writeText_trunc_same fs hname (unlines (d.rows.map rowLine))
    refine ⟨_, hrun, Option.isSome_of_eq_some hfile, ?_, d.rows_fields⟩
    exact congrArg (Option.getD · []) hfile
  | false =>
    rw [hmode] at hrun
    have hfile := writeText_app_same fs hname (unlines (d.rows.map rowLine))
    refine ⟨_, hrun, Option.isSome_of_eq_some hfile, ?_, ?_⟩
    · rw [h.text, ← unlines_append, ← List.map_append] at hfile
      exact congrArg (Option.getD · []) hfile
    · intro row hrow
      rcases List.mem_append.mp hrow with hrow | hrow
      · exact h.fields row hrow
      · exact d.rows_fields row hrow

/-- What a file holds after any sequence of dumps. -/
theorem runs_hold {filename : Path} (hname : filename ≠ []) {fs : FileSystem} {earlier : Matrix}
    (h : HoldsRows fs filename earlier) (ds : List Dump) :
    ∃ fs', ds.foldlM (Dump.run filename) fs = some fs' ∧
      HoldsRows fs' filename (ds.foldl Dump.onto earlier) := by
  induction ds generalizing fs earlier with
  | nil => exact ⟨fs, rfl, h⟩
  | cons d ds ih =>
    obtain ⟨fs₁, hrun, -, hholds⟩ := run_holds hname h d
    obtain ⟨fs₂, hruns, hholds'⟩ := ih hholds
    refine ⟨fs₂, ?_, hholds'⟩
    rw [List.foldlM_cons, hrun]
    exact hruns

-- ---------------------------------------------------------------------------
-- Two columns
-- ---------------------------------------------------------------------------

/-- Two-column rows are entries. -/
theorem exists_entries {rows : Matrix} (h : ∀ row ∈ rows, row.length = 2) :
    ∃ es : List Entry, rows = es.map Entry.row := by
  induction rows with
  | nil => exact ⟨[], rfl⟩
  | cons row rows ih =>
    obtain ⟨es, rfl⟩ := ih fun r hr => h r (List.mem_cons_of_mem _ hr)
    obtain ⟨a, b, rfl⟩ := List.length_eq_two.mp (h row (List.mem_cons_self ..))
    exact ⟨⟨a, b⟩ :: es, rfl⟩

theorem Dump.exists_entries {d : Dump} (hcols : d.cols = 2) :
    ∃ es : List Entry, d.rows = es.map Entry.row := by
  apply MockMessageBoard.exists_entries
  intro row hrow
  unfold Dump.rows at hrow
  split at hrow
  · exact (d.rectangular.row_length row (List.mem_of_mem_take hrow)).trans hcols
  · exact (d.rectangular.row_length row hrow).trans hcols

/-- A two-column dump leaves what the stream version leaves for its rows. -/
theorem run_eq_streamRecord {d : Dump} {es : List Entry} (hrows : d.rows = es.map Entry.row)
    (filename : Path) (entryCount : UInt32) (fs : FileSystem) :
    d.run filename fs =
      some (StreamStatsManager.record filename entryCount d.overwrite false es fs) := by
  rw [dumpMatrix_rows, streamRecord_eq, hrows, List.map_map]
  rfl

-- ---------------------------------------------------------------------------
-- Decoding
-- ---------------------------------------------------------------------------

/--
**Dumps are decodable and compose.** A file that was absent or empty, then
written by any dumps, is read as rows; one more dump of the first `until` rows
(all of them when `until` is negative) leaves a file that is read as those rows
alone when it overwrites, and after the earlier ones when it does not. A dump of
two columns leaves the same files as the stream version does for its rows.
-/
theorem dump_decodes {filename : Path} (hname : filename ≠ []) {fs : FileSystem}
    (hfs : (fs filename).getD [] = []) (earlier : List Dump) (d : Dump) :
    ∃ fs₁ fs₂, earlier.foldlM (Dump.run filename) fs = some fs₁ ∧
      dumpMatrix filename d.data d.untilRow d.overwrite fs₁ = some fs₂ ∧
      (∃ rows, readCsv ((fs₁ filename).getD []) = some rows ∧
        (fs₂ filename).bind readCsv =
          some ((if d.overwrite then [] else rows) ++
            if 0 ≤ d.untilRow.toInt then d.data.take (min d.untilRow.toInt.toNat d.data.length)
            else d.data)) ∧
      (d.cols = 2 → ∃ es : List Entry, d.rows = es.map Entry.row ∧
        ∀ entryCount : UInt32,
          fs₂ = StreamStatsManager.record filename entryCount d.overwrite false es fs₁) := by
  have hempty : HoldsRows fs filename [] := ⟨hfs, by simp⟩
  obtain ⟨fs₁, hruns, hholds₁⟩ := runs_hold hname hempty earlier
  obtain ⟨fs₂, hrun, hfile, hholds₂⟩ := run_holds hname hholds₁ d
  obtain ⟨t, ht⟩ := Option.isSome_iff_exists.mp hfile
  refine ⟨fs₁, fs₂, hruns, hrun, ⟨_, hholds₁.readCsv_eq, ?_⟩, ?_⟩
  · have hread := hholds₂.readCsv_eq
    rw [ht, Option.getD_some] at hread
    rw [ht, Option.bind_some, hread]
    unfold Dump.onto Dump.rows
    cases d.overwrite <;> rfl
  · intro hcols
    obtain ⟨es, hrows⟩ := Dump.exists_entries hcols
    refine ⟨es, hrows, fun entryCount => ?_⟩
    have hstream := run_eq_streamRecord hrows filename entryCount fs₁
    rw [hrun] at hstream
    exact Option.some.inj hstream

/-- A dump of one row. -/
def oneRow : Dump :=
  ⟨[[7, 1]], 2, -1, false, by decide, ⟨by decide, by decide, by decide, by decide⟩⟩

/-- The first two of three rows, appended to the row of an earlier dump. -/
theorem dump_decodes_appended :
    ∃ fs₁ fs₂, [oneRow].foldlM (Dump.run ['f']) (fun _ => none) = some fs₁ ∧
      dumpMatrix ['f'] [[8, 2], [9, 3], [9, 4]] 2 false fs₁ = some fs₂ ∧
      (fs₂ ['f']).bind readCsv = some [[7, 1], [8, 2], [9, 3]] ∧
      ∃ es : List Entry, [[8, 2], [9, 3]] = es.map Entry.row ∧
        ∀ entryCount : UInt32,
          fs₂ = StreamStatsManager.record ['f'] entryCount false false es fs₁ := by
  obtain ⟨fs₁, fs₂, hearlier, hdump, ⟨rows, hrows, hread⟩, hstream⟩ :=
    @dump_decodes ['f'] (by decide) (fun _ => none) rfl [oneRow]
      ⟨[[8, 2], [9, 3], [9, 4]], 2, 2, false, by decide,
        ⟨by decide, by decide, by decide, by decide⟩⟩
  have hfirst : ([oneRow].foldlM (Dump.run ['f']) (fun _ => none)).bind
      (fun fs => readCsv ((fs ['f']).getD [])) = some [[7, 1]] := by decide
  rw [hearlier, Option.bind_some, hrows, Option.some.injEq] at hfirst
  exact ⟨fs₁, fs₂, hearlier, hdump, hread.trans (by rw [hfirst]; rfl), hstream rfl⟩

-- ---------------------------------------------------------------------------
-- The test file
-- ---------------------------------------------------------------------------

/-- `test_data[i][j] = i + j`, a `uint32_t` sum. -/
def testData (rowCount colCount : UInt32) : Matrix :=
  (List.range rowCount.toNat).map fun i =>
    (List.range colCount.toNat).map fun j => (UInt32.ofNat i + UInt32.ofNat j).toUInt64

/-- The file that `save_test_file` writes. -/
def testFile : Path := "example.csv".toList

/-- `save_test_file(row_count, col_count)`. -/
def saveTestFile (rowCount colCount : UInt32) (fs : FileSystem) : Option FileSystem :=
  dumpMatrix testFile (testData rowCount colCount) (-1) true fs

theorem length_testData (rowCount colCount : UInt32) :
    (testData rowCount colCount).length = rowCount.toNat := by
  unfold testData
  rw [List.length_map, List.length_range]

theorem row_length_testData (rowCount colCount : UInt32) :
    ∀ row ∈ testData rowCount colCount, row.length = colCount.toNat := by
  intro row hrow
  obtain ⟨i, -, rfl⟩ := List.mem_map.mp hrow
  rw [List.length_map, List.length_range]

theorem rectangular_testData (rowCount : UInt32) {colCount : UInt32} (hcols : 1 ≤ colCount) :
    Rectangular (testData rowCount colCount) colCount.toNat where
  rows_lt := by
    rw [length_testData]
    exact rowCount.toNat_lt
  cols_pos := UInt32.le_iff_toNat_le.mp hcols
  cols_lt := colCount.toNat_lt
  row_length := row_length_testData rowCount colCount

theorem testData_ne_nil {rowCount : UInt32} (hrows : 1 ≤ rowCount) (colCount : UInt32) :
    testData rowCount colCount ≠ [] := by
  have hpos := UInt32.le_iff_toNat_le.mp hrows
  rw [show (1 : UInt32).toNat = 1 from rfl] at hpos
  unfold testData
  rw [Ne, List.map_eq_nil_iff, List.range_eq_nil]
  omega

/-- The dump `save_test_file` makes. -/
def testDump (rowCount colCount : UInt32) (hrows : 1 ≤ rowCount) (hcols : 1 ≤ colCount) : Dump where
  data := testData rowCount colCount
  cols := colCount.toNat
  untilRow := -1
  overwrite := true
  nonempty := testData_ne_nil hrows colCount
  rectangular := rectangular_testData rowCount hcols

/-- **The test file** is read back as the test data, whatever it held before. -/
theorem saveTestFile_readCsv {rowCount colCount : UInt32} (hrows : 1 ≤ rowCount)
    (hcols : 1 ≤ colCount) (fs : FileSystem) :
    ∃ fs', saveTestFile rowCount colCount fs = some fs' ∧
      (fs' testFile).bind readCsv = some (testData rowCount colCount) := by
  refine ⟨_, dumpMatrix_rows _ fs (testDump rowCount colCount hrows hcols), ?_⟩
  have hdump : (testDump rowCount colCount hrows hcols).rows = testData rowCount colCount := rfl
  have hfields := (testDump rowCount colCount hrows hcols).rows_fields
  rw [hdump] at hfields ⊢
  show (fs.writeText _ .trunc _ _).bind readCsv = _
  rw [writeText_trunc_same fs (by decide), Option.bind_some, readCsv_unlines hfields]

end MockMessageBoard
