import MockMessageBoard.Stats.Ring

/-!
# MockMessageBoard — the two versions of the recorder

The ring of buffers writes to its file once, from its destructor, and then only
the buffer it was filling; the stream version hands over every line. The file
contents of both versions are given in closed form, so that comparing the
versions is comparing two lists of entries:

* `vectorRecord_eq` — the ring leaves the last started block of calls;
* `streamRecord_eq` — the stream leaves all calls, in call order;
* `vector_eq_stream_iff` — the two files agree exactly when no call ever
  rotated the ring.

Nothing writes the buffers a rotation leaves behind: the `dump_server_stats()`
call in `add_entry` is commented out.
-/

namespace MockMessageBoard

open TextFile ServerStatsManager

/-- The mode in which both versions open their file. -/
def fileMode (overwrite : Bool) : OpenMode := if overwrite then .trunc else .app

/-- The lines of `es`, as either version writes them. -/
def entryText (es : List Entry) : Text := unlines (es.map StreamStatsManager.entryLine)

/-- The entries since the ring last moved to another buffer. -/
def lastBlock (entryCount : Nat) (es : List Entry) : List Entry :=
  es.drop (entryCount * ((es.length - 1) / entryCount))

theorem lastBlock_of_le {c : Nat} {es : List Entry} (h : es.length ≤ c) :
    lastBlock c es = es := by
  have hzero : (es.length - 1) / c = 0 := by
    rcases Nat.eq_zero_or_pos c with h0 | hpos
    · rw [h0, Nat.div_zero]
    · exact Nat.div_eq_of_lt (by omega)
  rw [lastBlock, hzero, Nat.mul_zero, List.drop_zero]

/-- A rotation drops at least one entry. -/
theorem length_lastBlock_lt {c : Nat} {es : List Entry} (hc : 1 ≤ c) (h : c < es.length) :
    (lastBlock c es).length < es.length := by
  have hq : 1 ≤ (es.length - 1) / c := (Nat.one_le_div_iff (by omega)).mpr (by omega)
  have hle : c ≤ c * ((es.length - 1) / c) := Nat.le_mul_of_pos_right c hq
  rw [lastBlock, List.length_drop]
  omega

theorem newline_notMem_entryLine (e : Entry) : '\n' ∉ StreamStatsManager.entryLine e :=
  newline_notMem_rowLine e.row

theorem count_newline_entryText (es : List Entry) : (entryText es).count '\n' = es.length := by
  rw [entryText, count_newline_unlines, List.length_map]
  intro l hl
  obtain ⟨e, -, rfl⟩ := List.mem_map.mp hl
  exact newline_notMem_entryLine e

theorem lines_entryText (es : List Entry) :
    lines (entryText es) = es.map StreamStatsManager.entryLine :=
  lines_unlines fun l hl => by
    obtain ⟨e, -, rfl⟩ := List.mem_map.mp hl
    exact newline_notMem_entryLine e

-- ---------------------------------------------------------------------------
-- The ring of buffers
-- ---------------------------------------------------------------------------

namespace ServerStatsManager

/-- The rows below the cursor of the active buffer are the last block. -/
theorem Retains.take_active {m : ServerStatsManager} {es : List Entry} (h : m.Retains es)
    (hC : 1 ≤ m.entryCount.toNat) (hB : 1 ≤ m.bufferCount.toNat) :
    ∃ data, m.dataBuffers[m.activeBuffer.toNat]? = some data ∧
      data.take m.entryCursor.toNat = (lastBlock m.entryCount.toNat es).map Entry.row := by
  have hact : m.activeBuffer.toNat < m.bufferCount.toNat := by
    rw [h.active]
    exact Nat.mod_lt _ (by omega)
  obtain ⟨data, -, hdata, -, -, -⟩ := h.sized.exists_slot hact (show 0 < _ by omega)
  refine ⟨data, hdata, List.ext_getElem? fun j => ?_⟩
  have hdm := Nat.div_add_mod (es.length - 1) m.entryCount.toNat
  have hmod := Nat.mod_lt (es.length - 1) (show m.entryCount.toNat > 0 by omega)
  have hcur := h.cursor
  set q := (es.length - 1) / m.entryCount.toNat with hq
  rw [List.getElem?_take, List.getElem?_map, lastBlock, ← hq, List.getElem?_drop]
  by_cases hj : j < m.entryCursor.toNat
  · have hne : es ≠ [] := by
      rintro rfl
      rw [if_pos rfl] at hcur
      omega
    have hpos := List.length_pos_iff.mpr hne
    rw [if_neg hne] at hcur
    have hlt : m.entryCount.toNat * q + j < es.length := by omega
    have hk := (Nat.div_mod_unique (a := m.entryCount.toNat * q + j) (d := q) (c := j)
      (show 0 < m.entryCount.toNat by omega)).mpr ⟨by omega, by omega⟩
    have hslot := h.slot _ _ (List.getElem?_eq_getElem hlt) (by rw [hk.1]; omega)
    rw [hk.1, hk.2, ← h.active, ServerStatsManager.slot, hdata, Option.bind_some] at hslot
    rw [if_pos hj, hslot, List.getElem?_eq_getElem hlt]
    rfl
  · rw [if_neg hj, List.getElem?_eq_none, Option.map_none]
    split at hcur
    · simp_all
    · omega

/-- The file a dump goes to: only the synchronous branch replaces an empty name
by the manager's own. -/
def dumpTarget (m : ServerStatsManager) (filename : Path) : Path :=
  if m.asyncDumping then filename else if filename = [] then m.filename else filename

theorem dumpTarget_of_ne {m : ServerStatsManager} {filename : Path} (h : filename ≠ []) :
    m.dumpTarget filename = filename := by
  unfold dumpTarget
  rw [if_neg h, ite_self]

/-- **`dump_server_stats` in closed form**, on a buffer that is there. -/
theorem dumpServerStats_eq {m : ServerStatsManager} (hm : m.Sized) (hC : 1 ≤ m.entryCount.toNat)
    {data : Matrix} (hdata : m.dataBuffers[m.activeBuffer.toNat]? = some data) (filename : Path)
    (untilRow : UInt32) (fs : FileSystem) :
    m.dumpServerStats filename untilRow fs =
      some (fs.writeText (m.dumpTarget filename) (fileMode m.overwrite)
        (unlines ((data.take untilRow.toNat).map rowLine))) := by
  have hmem : data ∈ m.dataBuffers := List.mem_of_getElem? hdata
  have hlen := hm.rows data hmem
  have hrect : Rectangular data 2 := by
    refine ⟨?_, by omega, by omega, hm.cols data hmem⟩
    rw [hlen]
    exact m.entryCount.toNat_lt
  have hne : data ≠ [] := by
    rintro rfl
    rw [List.length_nil] at hlen
    omega
  have huntil : (Int64.ofNat untilRow.toNat).toInt = untilRow.toNat :=
    Int64.toInt_ofNat_of_lt (by have := untilRow.toNat_lt; omega)
  have hnonneg : (0 : Int) ≤ untilRow.toNat := Int.natCast_nonneg _
  unfold dumpServerStats dumpTarget
  rw [hdata, Option.bind_eq_bind, Option.bind_some]
  split
  · rw [dumpMatrix_eq hrect hne, huntil, if_pos hnonneg, Int.toNat_natCast]
    rfl
  · rw [dumpMatrix_eq hrect hne, huntil, if_pos hnonneg, Int.toNat_natCast]
    rfl

/-- **The destructor** writes the rows below the cursor of the active buffer,
one line each. -/
theorem destroy_eq {m : ServerStatsManager} (hm : m.Sized) (hC : 1 ≤ m.entryCount.toNat)
    {data : Matrix} {es : List Entry}
    (hdata : m.dataBuffers[m.activeBuffer.toNat]? = some data)
    (htake : data.take m.entryCursor.toNat = es.map Entry.row) (fs : FileSystem) :
    m.destroy fs =
      some (fs.writeText m.filename (fileMode m.overwrite) (entryText es)) := by
  have hname : m.dumpTarget m.filename = m.filename := by
    unfold dumpTarget
    split
    · rfl
    · split <;> rfl
  have hrows : (data.take m.entryCursor.toNat).map rowLine =
      es.map StreamStatsManager.entryLine := by
    rw [htake, List.map_map]
    exact List.map_congr_left fun e _ => rowLine_row e
  unfold destroy
  rw [dumpServerStats_eq hm hC hdata, hname, hrows]
  rfl

end ServerStatsManager

/-- **The file the ring leaves**, for any constructor arguments and calls. -/
theorem vectorRecord_eq {entryCount bufferCount : UInt32} (hC : 1 ≤ entryCount)
    (hB : 1 ≤ bufferCount) (filename : Path) (overwrite erasePreviousFile : Bool)
    (es : List Entry) (fs : FileSystem) :
    ServerStatsManager.record filename false entryCount bufferCount overwrite
        erasePreviousFile es fs =
      some ((eraseFile filename erasePreviousFile fs).writeText filename (fileMode overwrite)
        (entryText (lastBlock entryCount.toNat es))) := by
  have hC' : 1 ≤ entryCount.toNat := UInt32.le_iff_toNat_le.mp hC
  have hB' : 1 ≤ bufferCount.toNat := UInt32.le_iff_toNat_le.mp hB
  obtain ⟨m, hrun, hret, hset⟩ :=
    retains_foldlM (retains_init filename false entryCount bufferCount overwrite) hC' hB' es
  have hcount : m.entryCount = entryCount := hset.entryCount
  obtain ⟨data, hdata, htake⟩ :=
    hret.take_active (by rw [hcount]; exact hC') (by rw [hset.bufferCount]; exact hB')
  have hdestroy := destroy_eq hret.sized (by rw [hcount]; exact hC') hdata htake
    (eraseFile filename erasePreviousFile fs)
  rw [hset.filename, hset.overwrite, hcount] at hdestroy
  rw [ServerStatsManager.record, ServerStatsManager.new]
  simp only [hrun, Option.bind_eq_bind, Option.bind_some]
  exact hdestroy

-- ---------------------------------------------------------------------------
-- The stream
-- ---------------------------------------------------------------------------

/-- Flushing early does not change what closing leaves. -/
theorem close_put_flush (s : OfStream) (t : Text) (fs : FileSystem) :
    ((s.flush fs).1.put t).close (s.flush fs).2 = (s.put t).close fs := by
  cases hs : s.target with
  | none => simp [OfStream.flush, OfStream.put, OfStream.close, hs]
  | some p => simp [OfStream.flush, OfStream.put, OfStream.close, hs]

theorem close_streamAddEntry (m : StreamStatsManager) (e : Entry) (t : Text)
    (fs : FileSystem) :
    (((StreamStatsManager.addEntry (m, fs) e).1.fileStream).put t).close
        (StreamStatsManager.addEntry (m, fs) e).2 =
      (m.fileStream.put (StreamStatsManager.entryLine e ++ ['\n'] ++ t)).close fs := by
  by_cases hfull : m.entryCursor ≥ m.entryCount
  · simp only [StreamStatsManager.addEntry, if_pos hfull, OfStream.put_put]
    exact close_put_flush ..
  · simp only [StreamStatsManager.addEntry, if_neg hfull, OfStream.put_put]

/-- After the calls `es` closing the stream leaves their lines. -/
theorem close_foldl_addEntry (es : List Entry) (m : StreamStatsManager) (fs : FileSystem) :
    (es.foldl StreamStatsManager.addEntry (m, fs)).1.fileStream.close
        (es.foldl StreamStatsManager.addEntry (m, fs)).2 =
      (m.fileStream.put (entryText es)).close fs := by
  induction es generalizing m fs with
  | nil => simp [entryText]
  | cons e es ih =>
    rw [List.foldl_cons, show entryText (e :: es) =
      StreamStatsManager.entryLine e ++ ['\n'] ++ entryText es by simp [entryText],
      ← close_streamAddEntry, ← ih]

/-- **The file the stream version leaves**: every entry once, in call order. -/
theorem streamRecord_eq (filename : Path) (entryCount : UInt32)
    (overwrite erasePreviousFile : Bool) (es : List Entry) (fs : FileSystem) :
    StreamStatsManager.record filename entryCount overwrite erasePreviousFile es fs =
      (eraseFile filename erasePreviousFile fs).writeText filename (fileMode overwrite)
        (entryText es) := by
  rw [← writeText_eq, fileMode, StreamStatsManager.record, StreamStatsManager.new]
  exact close_foldl_addEntry es _ _

-- ---------------------------------------------------------------------------
-- Agreement
-- ---------------------------------------------------------------------------

/-- Two texts written in the same way leave the same file only when equal. -/
theorem writeText_same_iff (fs : FileSystem) {p : Path} (hp : p ≠ []) (mode : OpenMode)
    (t t' : Text) : fs.writeText p mode t p = fs.writeText p mode t' p ↔ t = t' := by
  cases mode <;> simp [FileSystem.writeText, hp]

theorem entryText_lastBlock_eq_iff {c : Nat} (hc : 1 ≤ c) (es : List Entry) :
    entryText (lastBlock c es) = entryText es ↔ es.length ≤ c := by
  constructor
  · intro heq
    by_contra hlong
    have hlt := length_lastBlock_lt hc (by omega : c < es.length)
    rw [← count_newline_entryText, heq, count_newline_entryText] at hlt
    omega
  · intro hle
    rw [lastBlock_of_le hle]

/--
**The two versions agree exactly while nothing rotates.** The stream version
leaves every entry once, in call order; the ring leaves the same file if and
only if at most `entry_count` entries were recorded, whatever the number of
buffers, the opening modes and the prior contents.
-/
theorem vector_eq_stream_iff {entryCount bufferCount : UInt32} (hC : 1 ≤ entryCount)
    (hB : 1 ≤ bufferCount) {filename : Path} (hname : filename ≠ [])
    (overwrite erasePreviousFile : Bool) (es : List Entry) (fs : FileSystem) :
    ∃ fs', ServerStatsManager.record filename false entryCount bufferCount overwrite
        erasePreviousFile es fs = some fs' ∧
      StreamStatsManager.record filename entryCount overwrite erasePreviousFile es fs =
        (eraseFile filename erasePreviousFile fs).writeText filename (fileMode overwrite)
          (unlines (es.map StreamStatsManager.entryLine)) ∧
      (fs' filename = StreamStatsManager.record filename entryCount overwrite
        erasePreviousFile es fs filename ↔ es.length ≤ entryCount.toNat) := by
  refine ⟨_, vectorRecord_eq hC hB filename overwrite erasePreviousFile es fs,
    streamRecord_eq .., ?_⟩
  rw [streamRecord_eq, writeText_same_iff _ hname]
  exact entryText_lastBlock_eq_iff (UInt32.le_iff_toNat_le.mp hC) es

/-- Two entries in a ring of one-entry buffers, over an absent file. -/
theorem vector_eq_stream_two :
    ∃ fs', ServerStatsManager.record ['f'] false 1 2 false true [⟨7, 1⟩, ⟨8, 2⟩]
        (fun _ => none) = some fs' ∧
      StreamStatsManager.record ['f'] 1 false true [⟨7, 1⟩, ⟨8, 2⟩] (fun _ => none) =
        (eraseFile ['f'] true fun _ => none).writeText ['f'] (fileMode false)
          (unlines [['7', ',', '1'], ['8', ',', '2']]) ∧
      (fs' ['f'] = StreamStatsManager.record ['f'] 1 false true [⟨7, 1⟩, ⟨8, 2⟩]
        (fun _ => none) ['f'] ↔ 2 ≤ 1) :=
  vector_eq_stream_iff (by decide) (by decide) (by decide) false true [⟨7, 1⟩, ⟨8, 2⟩] _

/-- The first of two entries is lost by the ring and kept by the stream. -/
theorem vector_loses_rotated_entry :
    ¬ ∀ (entryCount bufferCount : UInt32) (filename : Path) (overwrite erase : Bool)
        (es : List Entry) (fs : FileSystem),
      1 ≤ entryCount → 1 ≤ bufferCount → filename ≠ [] →
      (ServerStatsManager.record filename false entryCount bufferCount overwrite erase es
        fs).bind (fun fs' => fs' filename) =
      StreamStatsManager.record filename entryCount overwrite erase es fs filename := by
  intro hagree
  have hfiles := hagree 1 2 ['f'] false true [⟨7, 1⟩, ⟨8, 2⟩] (fun _ => none)
    (by decide) (by decide) (by decide)
  revert hfiles
  decide

end MockMessageBoard
