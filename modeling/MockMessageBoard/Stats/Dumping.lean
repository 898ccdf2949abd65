import MockMessageBoard.Stats.Concurrent

/-!
# MockMessageBoard — asynchronous and synchronous dumps

`dump_server_stats` builds its `dump_matrix` call twice, once for each value of
`async_dumping`. The calls differ in one argument: only the synchronous branch
replaces an empty file name by the manager's own, so an asynchronous dump
without a name opens the empty path and writes nothing.

* `settled_reaches`  — every reachable state has a buffer to dump;
* `dumps_agree_iff`  — when the two branches leave the same files.
-/

namespace MockMessageBoard

open TextFile ServerStatsManager Transition

namespace ServerStatsManager

/-- The same state with the other way of dumping. -/
def withAsync (m : ServerStatsManager) (asyncDumping : Bool) : ServerStatsManager :=
  { m with asyncDumping := asyncDumping }

/-- The rows of the active buffer that a dump of `untilRow` rows selects. -/
def activeRows (m : ServerStatsManager) (untilRow : UInt32) : Matrix :=
  ((m.dataBuffers[m.activeBuffer.toNat]?).getD []).take untilRow.toNat

/-- A dump of the selected rows to the manager's own file changes nothing: in
append mode it has no rows for a file that exists, otherwise the file already
holds exactly these rows. -/
def OwnFileKept (m : ServerStatsManager) (untilRow : UInt32) (fs : FileSystem) : Prop :=
  if m.overwrite then fs m.filename = some (unlines ((m.activeRows untilRow).map rowLine))
  else untilRow = 0 ∧ (fs m.filename).isSome

end ServerStatsManager

-- ---------------------------------------------------------------------------
-- Reachable states
-- ---------------------------------------------------------------------------

theorem one_le_of_ne_zero {n : UInt32} (hn : n ≠ 0) : 1 ≤ n := by
  rw [UInt32.le_iff_toNat_le]
  refine Nat.one_le_iff_ne_zero.mpr fun h => hn ?_
  exact UInt32.toNat_inj.mp h

/-- What every reachable state has: buffers of the constructed sizes, and an
active one among them. -/
structure Settled (m₀ m : ServerStatsManager) : Prop where
  sized : m.Sized
  settings : SameSettings m₀ m
  active : 1 ≤ m₀.bufferCount → m.activeBuffer < m.bufferCount

theorem settled_init (filename : Path) (asyncDumping : Bool) (entryCount bufferCount : UInt32)
    (overwrite : Bool) :
    Settled (init filename asyncDumping entryCount bufferCount overwrite)
      (init filename asyncDumping entryCount bufferCount overwrite) where
  sized := sized_init ..
  settings := .refl _
  active := fun hB => by
    rw [UInt32.le_iff_toNat_le] at hB
    rw [UInt32.lt_iff_toNat_lt]
    exact hB

theorem settled_testAndRotate {m₀ m : ServerStatsManager} (h : Settled m₀ m) :
    Settled m₀ m.testAndRotate where
  sized := h.sized.testAndRotate
  settings := h.settings.trans (sameSettings_testAndRotate m)
  active := fun hB => by
    have hactive := h.active hB
    unfold testAndRotate
    split
    · show (m.activeBuffer + 1) % m.bufferCount < m.bufferCount
      rw [UInt32.lt_iff_toNat_lt] at hactive
      rw [UInt32.lt_iff_toNat_lt, UInt32.toNat_mod]
      exact Nat.mod_lt _ (by omega)
    · exact hactive

theorem settled_lockedWrite {m₀ m m' : ServerStatsManager} {e : Entry} (h : Settled m₀ m)
    (hwrite : m.lockedWrite e = some m') : Settled m₀ m' := by
  by_cases hin : m.InBounds
  · obtain ⟨m₁, hm₁, hw⟩ := lockedWrite_wrote h.sized hin e
    obtain rfl : m₁ = m' := Option.some.inj (hm₁.symm.trans hwrite)
    refine ⟨hw.sized, h.settings.trans hw.settings, fun hB => ?_⟩
    rw [hw.active, hw.settings.bufferCount]
    exact h.active hB
  · rw [lockedWrite_eq_none h.sized hin] at hwrite
    cases hwrite

/-- **Every reachable state**, whatever the callers and their order. -/
theorem settled_reaches {ι : Type} [DecidableEq ι] {m₀ : ServerStatsManager}
    (hm₀ : Settled m₀ m₀) {calls : ι → List Entry} {s : Recorder ι}
    (hs : Reaches Recorder.step (Recorder.start m₀ calls) s) : Settled m₀ s.manager := by
  refine hs.invariant (P := fun s => Settled m₀ s.manager) hm₀ ?_
  intro t a u _ ht hstep
  cases a with
  | test i =>
    obtain ⟨-, -, rfl⟩ := Recorder.step_test hstep
    exact settled_testAndRotate ht
  | write i =>
    obtain ⟨e, rest, m, -, -, hwrite, rfl⟩ := Recorder.step_write hstep
    exact settled_lockedWrite ht hwrite

theorem Settled.exists_active {m₀ m : ServerStatsManager} (h : Settled m₀ m)
    (hB : m₀.bufferCount ≠ 0) : ∃ data, m.dataBuffers[m.activeBuffer.toNat]? = some data := by
  have hactive := h.active (one_le_of_ne_zero hB)
  rw [UInt32.lt_iff_toNat_lt, ← h.sized.buffers] at hactive
  exact ⟨_, List.getElem?_eq_getElem hactive⟩

-- ---------------------------------------------------------------------------
-- The two branches
-- ---------------------------------------------------------------------------

section Branches

variable {m : ServerStatsManager}

theorem dumpTarget_async (m : ServerStatsManager) : (m.withAsync true).dumpTarget [] = [] := rfl

theorem dumpTarget_sync (m : ServerStatsManager) :
    (m.withAsync false).dumpTarget [] = m.filename := rfl

/-- Without buffers, indexing the active one is undefined behaviour. -/
theorem dumpServerStats_of_no_buffer (hm : m.Sized) (hB : m.bufferCount = 0) (filename : Path)
    (untilRow : UInt32) (fs : FileSystem) : m.dumpServerStats filename untilRow fs = none := by
  have hlen := hm.buffers
  rw [hB] at hlen
  have hnil : m.dataBuffers = [] := List.eq_nil_of_length_eq_zero hlen
  unfold dumpServerStats
  rw [hnil]
  rfl

/-- Buffers without rows are not written at all. -/
theorem dumpServerStats_of_no_row (hm : m.Sized) (hC : m.entryCount = 0) {data : Matrix}
    (hdata : m.dataBuffers[m.activeBuffer.toNat]? = some data) (filename : Path)
    (untilRow : UInt32) (fs : FileSystem) :
    m.dumpServerStats filename untilRow fs = some fs := by
  have hlen := hm.rows data (List.mem_of_getElem? hdata)
  rw [hC] at hlen
  obtain rfl : data = [] := List.eq_nil_of_length_eq_zero hlen
  unfold dumpServerStats
  rw [hdata, Option.bind_eq_bind, Option.bind_some]
  split <;> rfl

/-- A dump that writes nothing, beside one to the manager's own file. -/
theorem writeText_own_iff (hm : m.Sized) (hC : 1 ≤ m.entryCount.toNat) {data : Matrix}
    (hdata : m.dataBuffers[m.activeBuffer.toNat]? = some data) (untilRow : UInt32)
    (fs : FileSystem) :
    fs = fs.writeText m.filename (fileMode m.overwrite)
        (unlines ((data.take untilRow.toNat).map rowLine)) ↔
      m.filename = [] ∨ m.OwnFileKept untilRow fs := by
  have hrows : m.activeRows untilRow = data.take untilRow.toNat := by
    unfold activeRows
    rw [hdata, Option.getD_some]
  have hlen := hm.rows data (List.mem_of_getElem? hdata)
  by_cases hname : m.filename = []
  · unfold FileSystem.writeText
    rw [if_pos hname]
    simp [hname]
  · rw [eq_comm, writeText_eq_self_iff fs hname, or_iff_right hname]
    unfold OwnFileKept fileMode
    rw [hrows]
    cases m.overwrite with
    | true => rfl
    | false =>
      -- no text is written only for no rows, and the buffer has rows
      show unlines ((data.take untilRow.toNat).map rowLine) = [] ∧ _ ↔ untilRow = 0 ∧ _
      rw [unlines_eq_nil_iff, List.map_eq_nil_iff, List.take_eq_nil_iff,
        or_iff_left (List.ne_nil_of_length_pos (by omega)), ← UInt32.toNat_inj]
      rfl

/-- The one difference of the branches: the file that an empty name stands for. -/
theorem writeText_targets_iff (hm : m.Sized) (hC : 1 ≤ m.entryCount.toNat) {data : Matrix}
    (hdata : m.dataBuffers[m.activeBuffer.toNat]? = some data) (filename : Path)
    (untilRow : UInt32) (fs : FileSystem) :
    fs.writeText ((m.withAsync true).dumpTarget filename) (fileMode m.overwrite)
          (unlines ((data.take untilRow.toNat).map rowLine)) =
        fs.writeText ((m.withAsync false).dumpTarget filename) (fileMode m.overwrite)
          (unlines ((data.take untilRow.toNat).map rowLine)) ↔
      filename ≠ [] ∨ m.filename = [] ∨ m.OwnFileKept untilRow fs := by
  by_cases hname : filename = []
  · subst hname
    have hempty : ∀ mode text, fs.writeText [] mode text = fs := fun _ _ => rfl
    rw [dumpTarget_async, dumpTarget_sync, hempty, writeText_own_iff hm hC hdata untilRow fs]
    exact (or_iff_right (not_not.mpr rfl)).symm
  · rw [dumpTarget_of_ne hname, dumpTarget_of_ne hname]
    exact iff_of_true rfl (.inl hname)

end Branches

/--
**The two branches agree** in a reachable state if and only if a file name is
given, the manager's own name is empty as well, the manager has no buffer or
buffers of no entries, or a dump to its own file would change nothing.
-/
theorem dumps_agree_iff {ι : Type} [DecidableEq ι] (own : Path) (asyncDumping : Bool)
    (entryCount bufferCount : UInt32) (overwrite : Bool) {calls : ι → List Entry}
    {s : Recorder ι} (hs : Reaches Recorder.step (Recorder.start
      (init own asyncDumping entryCount bufferCount overwrite) calls) s)
    (filename : Path) (untilRow : UInt32) (fs : FileSystem) :
    (1 ≤ bufferCount → ∀ async, ∃ fs',
      (s.manager.withAsync async).dumpServerStats filename untilRow fs = some fs') ∧
    ((s.manager.withAsync true).dumpServerStats filename untilRow fs =
        (s.manager.withAsync false).dumpServerStats filename untilRow fs ↔
      filename ≠ [] ∨ own = [] ∨ bufferCount = 0 ∨ entryCount = 0 ∨
        s.manager.OwnFileKept untilRow fs) := by
  have hsettled := settled_reaches
    (settled_init own asyncDumping entryCount bufferCount overwrite) hs
  generalize s.manager = m at hsettled ⊢
  have hsized : ∀ async, (m.withAsync async).Sized := fun _ =>
    ⟨hsettled.sized.buffers, hsettled.sized.rows, hsettled.sized.cols⟩
  have hcount : m.entryCount = entryCount := hsettled.settings.entryCount
  have hbuffers : m.bufferCount = bufferCount := hsettled.settings.bufferCount
  by_cases hB : bufferCount = 0
  · have hnone : ∀ async, (m.withAsync async).dumpServerStats filename untilRow fs = none :=
      fun async => dumpServerStats_of_no_buffer (hsized async) (hbuffers.trans hB) ..
    refine ⟨fun hpos => absurd hpos (by rw [hB]; decide), ?_⟩
    rw [hnone, hnone]
    exact iff_of_true rfl (.inr (.inr (.inl hB)))
  obtain ⟨data, hdata⟩ := hsettled.exists_active hB
  by_cases hC : entryCount = 0
  · have hsame : ∀ async, (m.withAsync async).dumpServerStats filename untilRow fs = some fs :=
      fun async => dumpServerStats_of_no_row (hsized async) (hcount.trans hC) hdata ..
    refine ⟨fun _ async => ⟨fs, hsame async⟩, ?_⟩
    rw [hsame, hsame]
    exact iff_of_true rfl (.inr (.inr (.inr (.inl hC))))
  have hpos : 1 ≤ m.entryCount.toNat := by
    rw [hcount]
    exact UInt32.le_iff_toNat_le.mp (one_le_of_ne_zero hC)
  have hdump := fun async => dumpServerStats_eq (hsized async) hpos hdata filename untilRow fs
  refine ⟨fun _ async => ⟨_, hdump async⟩, ?_⟩
  rw [hdump, hdump, Option.some.injEq, or_iff_right hB, or_iff_right hC]
  have hown : m.filename = own := hsettled.settings.filename
  rw [← hown]
  exact writeText_targets_iff hsettled.sized hpos hdata filename untilRow fs

/-- A manager that has recorded two entries, the second one in its second buffer: without
a name the branches do not agree. -/
theorem dumps_agree_iff_recorded :
    ∃ s, run Recorder.step
        (Recorder.start (init ['f'] false 1 2 false) fun _ : Unit => [⟨7, 1⟩, ⟨8, 2⟩])
        [.test (), .write (), .test (), .write ()] = some s ∧
      s.manager.activeBuffer = 1 ∧
      (s.manager.withAsync true).dumpServerStats [] 4294967295 (fun _ => none) ≠
        (s.manager.withAsync false).dumpServerStats [] 4294967295 fun _ => none := by
  obtain ⟨s, hrun, hactive, hoverwrite⟩ : ∃ s, run Recorder.step
      (Recorder.start (init ['f'] false 1 2 false) fun _ : Unit => [⟨7, 1⟩, ⟨8, 2⟩])
      [.test (), .write (), .test (), .write ()] = some s ∧
      s.manager.activeBuffer = 1 ∧ s.manager.overwrite = false := ⟨_, rfl, by decide, by decide⟩
  refine ⟨s, hrun, hactive, ?_⟩
  have hagree := (dumps_agree_iff ['f'] false 1 2 false ⟨_, hrun⟩ [] 4294967295 fun _ => none).2
  rw [Ne, hagree]
  rintro (h | h | h | h | h)
  · exact h rfl
  · cases h
  · cases h
  · cases h
  · rw [OwnFileKept, hoverwrite, if_neg Bool.false_ne_true] at h
    exact absurd h.1 (by decide)

/-- A dump without a name of a manager that recorded one entry writes it to the
manager's file or, asynchronously, nowhere. -/
theorem async_dump_loses_entry :
    ¬ ∀ (own : Path) (entryCount bufferCount : UInt32) (overwrite : Bool)
        (calls : Unit → List Entry) (s : Recorder Unit),
      Reaches Recorder.step
        (Recorder.start (init own false entryCount bufferCount overwrite) calls) s →
      ∀ (filename : Path) (untilRow : UInt32) (fs : FileSystem) (p : Path),
        ((s.manager.withAsync true).dumpServerStats filename untilRow fs).map (· p) =
          ((s.manager.withAsync false).dumpServerStats filename untilRow fs).map (· p) := by
  intro hagree
  obtain ⟨s, hrun, hasync, hsync⟩ : ∃ s, run Recorder.step
      (Recorder.start (init ['f'] false 1 2 false) fun _ : Unit => [⟨7, 1⟩])
      [.test (), .write ()] = some s ∧
      ((s.manager.withAsync true).dumpServerStats [] 4294967295 (fun _ => none)).map (· ['f']) =
        some none ∧
      ((s.manager.withAsync false).dumpServerStats [] 4294967295 (fun _ => none)).map (· ['f']) =
        some (some ['7', ',', '1', '\n']) := ⟨_, rfl, by decide, by decide⟩
  have hsame := hagree ['f'] 1 2 false _ s ⟨_, hrun⟩ [] 4294967295 (fun _ => none) ['f']
  rw [hasync, hsync] at hsame
  cases hsame

end MockMessageBoard
