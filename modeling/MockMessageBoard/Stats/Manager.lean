import MockMessageBoard.Lib.Streams
import Mathlib.Data.Int.Cast.Basic

/-!
# MockMessageBoard — the statistics recorder

Executable model of `shared/ServerStats.{h,cpp}`: `dump_matrix` and both
versions of `ServerStatsManager`, the ring of buffers that is compiled
(`VECTOR_BUFFER_VERSION`) and the output stream behind the `#else`.

Integers have the widths of the source (`uint32_t` cursors and counts,
`uint64_t` cells, an `int64_t` row limit), so every conversion and wrap-around
is the source's. Indexing a `std::vector` out of range is undefined behaviour:
the functions that index return `none` there.

`addEntry` is split where the source takes `entry_saving_mutex`:
`testAndRotate` runs before the lock is taken, `lockedWrite` under it. The
concurrent model interleaves the two halves, the sequential one composes them.
-/

namespace MockMessageBoard

open TextFile

-- ---------------------------------------------------------------------------
-- dump_matrix
-- ---------------------------------------------------------------------------

/-- `vector<vector<uint64_t>>`. -/
abbrev Matrix := List (List UInt64)

/-- `data[i][j]`. -/
def cell (data : Matrix) (i j : Nat) : Option UInt64 := do
  let row ← data[i]?
  row[j]?

/-- One turn of the inner loop: `file << data[i][j] << ",";`. -/
def dumpCell (data : Matrix) (i : Nat) (file : OfStream) (j : Nat) : Option OfStream := do
  let x ← cell data i j
  some (file.put (decimal x.toNat ++ [',']))

/-- One turn of the outer loop. `col_count - 1` is a `uint32_t` subtraction. -/
def dumpRow (data : Matrix) (colCount : UInt32) (file : OfStream) (i : Nat) :
    Option OfStream := do
  let file ← (List.range (colCount - 1).toNat).foldlM (dumpCell data i) file
  let x ← cell data i (colCount - 1).toNat
  some (file.put (decimal x.toNat ++ ['\n']))

/-- The number of rows `dump_matrix` writes, given `data.size()` and `until`. -/
def dumpRowCount (rowCount : UInt32) (untilRow : Int64) : UInt32 :=
  if 0 ≤ untilRow ∧ untilRow < Int64.ofNat rowCount.toNat then
    UInt32.ofNat untilRow.toInt.toNat
  else rowCount

/-- `dump_matrix(filename, data, until, overwrite)`: the file system after the
call. -/
def dumpMatrix (filename : Path) (data : Matrix) (untilRow : Int64) (overwrite : Bool)
    (fs : FileSystem) : Option FileSystem :=
  let rowCount := UInt32.ofNat data.length
  if rowCount ≤ 0 then some fs
  else do
    let first ← data[0]?
    let colCount := UInt32.ofNat first.length
    let rowCount := dumpRowCount rowCount untilRow
    let (file, fs) := OfStream.open filename (if overwrite then .trunc else .app) fs
    let file ← (List.range rowCount.toNat).foldlM (dumpRow data colCount) file
    some (file.close fs)

-- ---------------------------------------------------------------------------
-- ServerStatsManager, VECTOR_BUFFER_VERSION
-- ---------------------------------------------------------------------------

/-- The arguments of one `add_entry` call. -/
structure Entry where
  queryId : UInt64
  epochTime : UInt64
  deriving DecidableEq, Repr

/-- The private members of `ServerStatsManager`. -/
structure ServerStatsManager where
  dataBuffers : List Matrix
  filename : Path
  overwrite : Bool
  asyncDumping : Bool
  activeBuffer : UInt32
  entryCursor : UInt32
  entryCount : UInt32
  bufferCount : UInt32
  deriving DecidableEq, Repr

namespace ServerStatsManager

/-- `DEFAULT_ENTRY_COUNT`. -/
def defaultEntryCount : UInt32 := 32768

/-- The file-erasing part of both constructors. -/
def eraseFile (filename : Path) (erasePreviousFile : Bool) (fs : FileSystem) : FileSystem :=
  if erasePreviousFile then
    let (file, fs) := OfStream.open filename .trunc fs
    file.close fs
  else fs

theorem eraseFile_same (fs : FileSystem) {p : Path} (hp : p ≠ []) :
    eraseFile p true fs p = some [] := by
  simp [eraseFile, OfStream.open, OfStream.close, OfStream.flush, hp]

/-- The member initialisers of the constructor. -/
def init (filename : Path) (asyncDumping : Bool) (entryCount bufferCount : UInt32)
    (overwrite : Bool) : ServerStatsManager where
  dataBuffers :=
    List.replicate bufferCount.toNat (List.replicate entryCount.toNat (List.replicate 2 0))
  filename := filename
  overwrite := overwrite
  asyncDumping := asyncDumping
  activeBuffer := 0
  entryCursor := 0
  entryCount := entryCount
  bufferCount := bufferCount

/-- The constructor: the new manager and the file system it leaves. -/
def new (filename : Path) (asyncDumping : Bool) (entryCount bufferCount : UInt32)
    (overwrite erasePreviousFile : Bool) (fs : FileSystem) : ServerStatsManager × FileSystem :=
  (init filename asyncDumping entryCount bufferCount overwrite,
    eraseFile filename erasePreviousFile fs)

/-- The unlocked half of `add_entry`: test the cursor, rotate when it is at
the end. -/
def testAndRotate (m : ServerStatsManager) : ServerStatsManager :=
  if m.entryCursor ≥ m.entryCount then
    { m with
      entryCursor := 0
      activeBuffer := (m.activeBuffer + 1) % m.bufferCount }
  else m

/-- `row[0] = query_id; row[1] = epoch_time_ms;`. -/
def writeRow (row : List UInt64) (e : Entry) : Option (List UInt64) :=
  if 1 < row.length then some ((row.set 0 e.queryId).set 1 e.epochTime) else none

/-- The half of `add_entry` under `entry_saving_mutex`. -/
def lockedWrite (m : ServerStatsManager) (e : Entry) : Option ServerStatsManager := do
  let buffer ← m.dataBuffers[m.activeBuffer.toNat]?
  let row ← buffer[m.entryCursor.toNat]?
  let row ← writeRow row e
  some { m with
    dataBuffers := m.dataBuffers.set m.activeBuffer.toNat (buffer.set m.entryCursor.toNat row)
    entryCursor := m.entryCursor + 1 }

/-- `add_entry`, called by one thread at a time. -/
def addEntry (m : ServerStatsManager) (e : Entry) : Option ServerStatsManager :=
  m.testAndRotate.lockedWrite e

/-- `dump_server_stats(filename, until)`. The future that `async` returns is
joined by its destructor, so both branches have finished on return; only the
synchronous one replaces an empty name by the manager's own. -/
def dumpServerStats (m : ServerStatsManager) (filename : Path) (untilRow : UInt32)
    (fs : FileSystem) : Option FileSystem := do
  let data ← m.dataBuffers[m.activeBuffer.toNat]?
  if m.asyncDumping then
    dumpMatrix filename data (Int64.ofNat untilRow.toNat) m.overwrite fs
  else
    dumpMatrix (if filename = [] then m.filename else filename) data
      (Int64.ofNat untilRow.toNat) m.overwrite fs

/-- `~ServerStatsManager()`. -/
def destroy (m : ServerStatsManager) (fs : FileSystem) : Option FileSystem :=
  m.dumpServerStats m.filename m.entryCursor fs

/-- Construct a manager, make the calls `es` one after the other, destroy it:
the file system left behind. -/
def record (filename : Path) (asyncDumping : Bool) (entryCount bufferCount : UInt32)
    (overwrite erasePreviousFile : Bool) (es : List Entry) (fs : FileSystem) :
    Option FileSystem := do
  let (m, fs) := new filename asyncDumping entryCount bufferCount overwrite erasePreviousFile fs
  let m ← es.foldlM addEntry m
  m.destroy fs

end ServerStatsManager

-- ---------------------------------------------------------------------------
-- ServerStatsManager, stream version
-- ---------------------------------------------------------------------------

/-- The private members of the `#else` class. -/
structure StreamStatsManager where
  fileStream : OfStream
  entryCursor : UInt32
  entryCount : UInt32
  deriving DecidableEq, Repr

namespace StreamStatsManager

/-- The constructor of the stream version. -/
def new (filename : Path) (entryCount : UInt32) (overwrite erasePreviousFile : Bool)
    (fs : FileSystem) : StreamStatsManager × FileSystem :=
  let fs := ServerStatsManager.eraseFile filename erasePreviousFile fs
  let (file, fs) := OfStream.open filename (if overwrite then .trunc else .app) fs
  (⟨file, 0, entryCount⟩, fs)

/-- What the stream version writes for one entry. -/
def entryLine (e : Entry) : Text :=
  decimal e.queryId.toNat ++ [','] ++ decimal e.epochTime.toNat

/-- `add_entry` of the stream version; the flush hands pending text to the
file. -/
def addEntry (mf : StreamStatsManager × FileSystem) (e : Entry) :
    StreamStatsManager × FileSystem :=
  let (m, fs) := mf
  let (m, fs) :=
    if m.entryCursor ≥ m.entryCount then
      let (file, fs) := m.fileStream.flush fs
      ({ m with fileStream := file, entryCursor := 0 }, fs)
    else (m, fs)
  ({ m with
      fileStream := m.fileStream.put (entryLine e ++ ['\n'])
      entryCursor := m.entryCursor + 1 }, fs)

/-- The destructor of the stream version. -/
def destroy (m : StreamStatsManager) (fs : FileSystem) : FileSystem :=
  m.fileStream.close fs

/-- Construct, make the calls `es` one after the other, destroy. -/
def record (filename : Path) (entryCount : UInt32) (overwrite erasePreviousFile : Bool)
    (es : List Entry) (fs : FileSystem) : FileSystem :=
  let (m, fs) := es.foldl addEntry (new filename entryCount overwrite erasePreviousFile fs)
  m.destroy fs

end StreamStatsManager

end MockMessageBoard
