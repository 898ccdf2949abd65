import MockMessageBoard.Stats.Races

/-!
# MockMessageBoard — a manager that is destroyed early

`SIGINT` destroys the manager of a process (`int_handler`) wherever the callers of
`add_entry` are. However many calls they make, and however their halves interleave, the
rows below the cursor of the active buffer are the last entries that were locked. Each
half of a call is one step here, the test with the rotation and the locked write, and so
is the destructor. Of runs too short to rotate the last is not assumed but proved: there
the destructor may read the cursor and then row by row, with the callers in between.

* `current_reaches`  — the invariant of all runs;
* `exists_finished`  — runs that never overrun can be finished;
* `interrupted_file` — what the destructor leaves in the file;
* `destroy_reads`    — the destructor of a short run, read by read.
-/

namespace MockMessageBoard

open TextFile ServerStatsManager Transition

namespace Recorder

variable {ι : Type} [DecidableEq ι]

/-- The entries that have been locked since the first `rounds` buffers were full. -/
def recent (s : Recorder ι) (rounds : Nat) : List Entry :=
  s.entries.drop (s.manager.entryCount.toNat * rounds)

/--
The invariant of a run from `start m₀ calls`: the active buffer holds, below its cursor,
the locked calls from a multiple of `entry_count` on.
-/
structure Current (m₀ : ServerStatsManager) (calls : ι → List Entry) (s : Recorder ι) :
    Prop where
  sized : s.manager.Sized
  settings : SameSettings m₀ s.manager
  active : s.manager.activeBuffer < s.manager.bufferCount
  room : s.manager.entryCursor ≤ s.manager.entryCount
  rows : ∃ rounds,
    s.locked.length = s.manager.entryCount.toNat * rounds + s.manager.entryCursor.toNat ∧
    ∀ (k : Nat) e, (s.recent rounds)[k]? = some e →
      s.manager.slot s.manager.activeBuffer.toNat k = some e.row
  rotated : s.manager.entryCursor.toNat = 0 → s.locked = [] ∨ ∃ i, s.tested i = true
  pending : ∀ i, s.tested i = true → s.todo i ≠ []
  callOrder : ∀ i, s.finished i ++ s.todo i = calls i

section Runs

variable {m₀ : ServerStatsManager} {calls : ι → List Entry}

theorem current_start (hm : m₀.Sized) (hactive : m₀.activeBuffer = 0)
    (hcursor : m₀.entryCursor = 0) (hB : 1 ≤ m₀.bufferCount.toNat) :
    Current m₀ calls (start m₀ calls) where
  sized := hm
  settings := .refl m₀
  active := by
    show m₀.activeBuffer < m₀.bufferCount
    rw [hactive, UInt32.lt_iff_toNat_lt]
    exact hB
  room := by
    show m₀.entryCursor ≤ m₀.entryCount
    rw [hcursor, UInt32.le_iff_toNat_le]
    exact Nat.zero_le _
  rows := by
    refine ⟨0, ?_, fun k e hk => ?_⟩
    · simp [start, hcursor]
    · simp [start, recent, entries] at hk
  rotated := fun _ => .inl rfl
  pending := nofun
  callOrder := by simp [start, finished]

/-- The unlocked half: nothing, or a rotation of a full buffer. -/
theorem current_test {s : Recorder ι} (h : Current m₀ calls s) (hC : 1 ≤ m₀.entryCount.toNat)
    {i : ι} (hi : s.todo i ≠ []) : Current m₀ calls { s with
      manager := s.manager.testAndRotate
      tested := Function.update s.tested i true } := by
  have hcount : 1 ≤ s.manager.entryCount.toNat := by
    rw [h.settings.entryCount]
    exact hC
  have hin := inBounds_testAndRotate hcount h.active
  have hset := sameSettings_testAndRotate s.manager
  refine ⟨h.sized.testAndRotate, h.settings.trans hset, hin.1, ?_, ?_, ?_, ?_, h.callOrder⟩
  · exact UInt32.le_of_lt hin.2
  · obtain ⟨rounds, hlen, hrows⟩ := h.rows
    by_cases hlt : s.manager.entryCursor < s.manager.entryCount
    · rw [testAndRotate_of_lt hlt]
      exact ⟨rounds, hlen, hrows⟩
    · -- the buffer is full, so one more round is over
      have hfull : s.manager.entryCursor.toNat = s.manager.entryCount.toNat := by
        rw [UInt32.lt_iff_toNat_lt] at hlt
        exact Nat.le_antisymm (UInt32.le_iff_toNat_le.mp h.room) (not_lt.mp hlt)
      rw [testAndRotate_of_ge (UInt32.not_lt.mp hlt)]
      have hlen' : s.locked.length = s.manager.entryCount.toNat * (rounds + 1) := by
        rw [hlen, hfull, Nat.mul_succ]
      refine ⟨rounds + 1, hlen', fun k e hk => ?_⟩
      have hnil : s.entries.drop (s.manager.entryCount.toNat * (rounds + 1)) = [] := by
        rw [List.drop_eq_nil_iff, entries, List.length_map, hlen']
      change (s.entries.drop (s.manager.entryCount.toNat * (rounds + 1)))[k]? = some e at hk
      rw [hnil] at hk
      cases hk
  · exact fun _ => .inr ⟨i, Function.update_self ..⟩
  · intro j hj
    by_cases hji : j = i
    · rw [hji]
      exact hi
    · exact h.pending j (by simpa [hji] using hj)

/-- The locked half: one more row. -/
theorem current_write {s : Recorder ι} (h : Current m₀ calls s) {i : ι} {e : Entry}
    {rest : List Entry} {m : ServerStatsManager} (htodo : s.todo i = e :: rest)
    (hm : s.manager.lockedWrite e = some m) : Current m₀ calls {
      manager := m
      todo := Function.update s.todo i rest
      tested := Function.update s.tested i false
      locked := s.locked ++ [(i, e)] } := by
  have hin : s.manager.InBounds := by
    by_contra hout
    rw [lockedWrite_eq_none h.sized hout] at hm
    cases hm
  obtain ⟨m', hm', hw⟩ := lockedWrite_wrote h.sized hin e
  obtain rfl : m' = m := Option.some.inj (hm'.symm.trans hm)
  refine ⟨hw.sized, h.settings.trans hw.settings, ?_, ?_, ?_, ?_, ?_, ?_⟩
  · show m'.activeBuffer < m'.bufferCount
    rw [hw.active, hw.settings.bufferCount]
    exact hin.1
  · show m'.entryCursor ≤ m'.entryCount
    rw [UInt32.le_iff_toNat_le, hw.cursor, hw.settings.entryCount]
    exact UInt32.lt_iff_toNat_lt.mp hin.2
  · obtain ⟨rounds, hlen, hrows⟩ := h.rows
    refine ⟨rounds, ?_, fun k x hx => ?_⟩
    · show (s.locked ++ [(i, e)]).length = m'.entryCount.toNat * rounds + m'.entryCursor.toNat
      rw [List.length_append, List.length_singleton, hlen, hw.cursor, hw.settings.entryCount,
        Nat.add_assoc]
    · have hlength : (s.recent rounds).length = s.manager.entryCursor.toNat := by
        rw [recent, List.length_drop, entries, List.length_map, hlen, Nat.add_sub_cancel_left]
      have hrecent : ((s.locked ++ [(i, e)]).map Prod.snd).drop (m'.entryCount.toNat * rounds) =
          s.recent rounds ++ [e] := by
        rw [List.map_append, hw.settings.entryCount, List.drop_append_of_le_length]
        · rfl
        · rw [List.length_map, hlen]
          exact Nat.le_add_right ..
      change (((s.locked ++ [(i, e)]).map Prod.snd).drop (m'.entryCount.toNat * rounds))[k]? =
        some x at hx
      rw [hrecent] at hx
      show m'.slot m'.activeBuffer.toNat k = some x.row
      rw [hw.slot, hw.active]
      rcases Nat.lt_trichotomy k (s.recent rounds).length with hlt | heq | hgt
      · rw [List.getElem?_append_left hlt] at hx
        rw [if_neg (by omega)]
        exact hrows k x hx
      · rw [heq, List.getElem?_concat_length, Option.some.injEq] at hx
        rw [if_pos ⟨rfl, by omega⟩, hx]
      · rw [List.getElem?_eq_none (by simpa using hgt)] at hx
        cases hx
  · intro hzero
    change m'.entryCursor.toNat = 0 at hzero
    rw [hw.cursor] at hzero
    cases hzero
  · intro j hj
    by_cases hji : j = i
    · simp [hji] at hj
    · simp only [Function.update_of_ne hji] at hj ⊢
      exact h.pending j hj
  · intro j
    have hj := h.callOrder j
    rw [finished] at hj ⊢
    rw [finished_snoc]
    by_cases hji : j = i
    · subst hji
      rw [htodo] at hj
      simpa using hj
    · rw [if_neg (Ne.symm hji), List.append_nil]
      show _ ++ Function.update s.todo i rest j = calls j
      rw [Function.update_of_ne hji]
      exact hj

/-- **Every run**, of any number of calls. -/
theorem current_reaches (hm : m₀.Sized) (hactive : m₀.activeBuffer = 0)
    (hcursor : m₀.entryCursor = 0) (hC : 1 ≤ m₀.entryCount.toNat) (hB : 1 ≤ m₀.bufferCount.toNat)
    {s : Recorder ι} (hs : Reaches step (start m₀ calls) s) : Current m₀ calls s := by
  refine hs.invariant (P := Current m₀ calls) (current_start hm hactive hcursor hB) ?_
  intro t a u _ h hstep
  cases a with
  | test i =>
    obtain ⟨-, hi, rfl⟩ := step_test hstep
    exact current_test h hC hi
  | write i =>
    obtain ⟨e, rest, m, -, htodo, hm, rfl⟩ := step_write hstep
    exact current_write h htodo hm

/-- The next call of a caller can be finished, if its locked half finds a slot. -/
theorem exists_finished_one [Fintype ι] {s : Recorder ι} (hsized : s.manager.Sized)
    (hsafe : ∀ s', Reaches step s s' → ∀ i, s'.tested i = true → s'.manager.InBounds) {i : ι}
    (hi : s.todo i ≠ []) : ∃ s', Reaches step s s' ∧ s'.remaining + 1 = s.remaining := by
  obtain ⟨e, rest, hcons⟩ := List.exists_cons_of_ne_nil hi
  obtain ⟨s₁, hreaches, htested, htodo, hsized₁⟩ : ∃ s₁, Reaches step s s₁ ∧
      s₁.tested i = true ∧ s₁.todo = s.todo ∧ s₁.manager.Sized := by
    by_cases htested : s.tested i = true
    · exact ⟨s, .refl s, htested, rfl, hsized⟩
    · have htest : s.step (.test i) = some { s with
          manager := s.manager.testAndRotate
          tested := Function.update s.tested i true } :=
        if_pos ⟨Bool.eq_false_iff.mpr htested, hi⟩
      exact ⟨_, .single htest, Function.update_self .., rfl, hsized.testAndRotate⟩
  obtain ⟨m, hm, -⟩ := lockedWrite_wrote hsized₁ (hsafe s₁ hreaches i htested) e
  have hcons₁ : s₁.todo i = e :: rest := by rw [htodo, hcons]
  have hwrite : s₁.step (.write i) = some {
      manager := m
      todo := Function.update s₁.todo i rest
      tested := Function.update s₁.tested i false
      locked := s₁.locked ++ [(i, e)] } := by
    simp [step, htested, hcons₁, hm]
  refine ⟨_, hreaches.tail hwrite, ?_⟩
  rw [remaining, remaining, ← htodo]
  exact sum_length_update (Finset.mem_univ i) hcons₁

/-- **Runs that never overrun can be finished**, whatever has happened in them. -/
theorem exists_finished [Fintype ι] (hm : m₀.Sized) (hactive : m₀.activeBuffer = 0)
    (hcursor : m₀.entryCursor = 0) (hC : 1 ≤ m₀.entryCount.toNat) (hB : 1 ≤ m₀.bufferCount.toNat)
    (hsafe : ∀ s, Reaches step (start m₀ calls) s →
      ∀ i, s.tested i = true → s.manager.InBounds) {s : Recorder ι}
    (hs : Reaches step (start m₀ calls) s) : ∃ s', Reaches step s s' ∧ ∀ i, s'.todo i = [] := by
  induction hn : s.remaining generalizing s with
  | zero =>
    refine ⟨s, .refl s, fun i => List.length_eq_zero_iff.mp ?_⟩
    exact Finset.sum_eq_zero_iff.mp hn i (Finset.mem_univ i)
  | succ n ih =>
    obtain ⟨i, -, hi⟩ : ∃ i ∈ Finset.univ, (s.todo i).length ≠ 0 :=
      Finset.exists_ne_zero_of_sum_ne_zero (by rw [← remaining]; omega)
    obtain ⟨s₁, hs₁, hless⟩ := exists_finished_one
      (current_reaches hm hactive hcursor hC hB hs).sized
      (fun s' hs' => hsafe s' (hs.trans hs')) fun hnil => hi (by rw [hnil]; rfl)
    obtain ⟨s', hs', hdone⟩ := ih (hs.trans hs₁) (by omega)
    exact ⟨s', hs₁.trans hs', hdone⟩

end Runs

omit [DecidableEq ι] in
/-- The rows below the cursor are the last entries that were locked. -/
theorem current_take {s : Recorder ι} {data : Matrix}
    (hdata : s.manager.dataBuffers[s.manager.activeBuffer.toNat]? = some data) {rounds : Nat}
    (hlen : s.locked.length =
      s.manager.entryCount.toNat * rounds + s.manager.entryCursor.toNat)
    (hrows : ∀ (k : Nat) e, (s.recent rounds)[k]? = some e →
      s.manager.slot s.manager.activeBuffer.toNat k = some e.row) :
    data.take s.manager.entryCursor.toNat = (s.recent rounds).map Entry.row := by
  have hlength : (s.recent rounds).length = s.manager.entryCursor.toNat := by
    rw [recent, List.length_drop, entries, List.length_map, hlen, Nat.add_sub_cancel_left]
  refine List.ext_getElem? fun k => ?_
  rw [List.getElem?_take, List.getElem?_map]
  split
  · rename_i hk
    have he := List.getElem?_eq_getElem (hlength.symm ▸ hk : k < (s.recent rounds).length)
    have hrow := hrows k _ he
    rw [slot, hdata, Option.bind_some] at hrow
    rw [hrow, he]
    rfl
  · rename_i hk
    rw [List.getElem?_eq_none (by omega), Option.map_none]

/-- What the destructor of a manager in a run leaves in its file. -/
theorem destroy_recorder {entryCount bufferCount : UInt32} (hC : 1 ≤ entryCount)
    (hB : 1 ≤ bufferCount) {filename : Path} (hname : filename ≠ [])
    (asyncDumping overwrite : Bool) {calls : ι → List Entry} (fs : FileSystem) {s : Recorder ι}
    (hs : Reaches step (start
      (new filename asyncDumping entryCount bufferCount overwrite true fs).1 calls) s) :
    ∃ rounds fs', s.manager.destroy
        (new filename asyncDumping entryCount bufferCount overwrite true fs).2 = some fs' ∧
      fs' filename = some (entryText (s.entries.drop (entryCount.toNat * rounds))) ∧
      s.entries.length = entryCount.toNat * rounds + s.manager.entryCursor.toNat ∧
      Current (new filename asyncDumping entryCount bufferCount overwrite true fs).1 calls s := by
  rw [UInt32.le_iff_toNat_le] at hC hB
  have h := current_reaches (sized_init ..) rfl rfl hC hB hs
  have hcount : s.manager.entryCount = entryCount := h.settings.entryCount
  obtain ⟨rounds, hlen, hrows⟩ := h.rows
  obtain ⟨data, -, hdata, -, -, -⟩ := h.sized.exists_slot
    (UInt32.lt_iff_toNat_lt.mp h.active) (show 0 < _ by rw [hcount]; exact hC)
  have hdestroy := destroy_eq h.sized (by rw [hcount]; exact hC) hdata
    (current_take hdata hlen hrows)
    (new filename asyncDumping entryCount bufferCount overwrite true fs).2
  rw [recent, hcount] at hdestroy
  rw [hcount] at hlen
  refine ⟨rounds, _, hdestroy, ?_, (List.length_map _).trans hlen, h⟩
  have herased : (new filename asyncDumping entryCount bufferCount overwrite true fs).2 filename =
      some [] := eraseFile_same fs hname
  rw [h.settings.filename, h.settings.overwrite]
  show (FileSystem.writeText _ filename (fileMode overwrite) _) filename = _
  cases overwrite with
  | false => exact (writeText_app_same _ hname _).trans (by rw [herased]; rfl)
  | true => exact writeText_trunc_same _ hname _

/-- Between the calls the file gets the last block. -/
theorem Current.drop_eq {m₀ : ServerStatsManager} {calls : ι → List Entry} {s : Recorder ι}
    (h : Current m₀ calls s) {entryCount : UInt32} (hcount : s.manager.entryCount = entryCount)
    (hC : 1 ≤ entryCount) {rounds : Nat}
    (hlen : s.entries.length = entryCount.toNat * rounds + s.manager.entryCursor.toNat)
    (hidle : ∀ i, s.tested i = false) :
    s.entries.drop (entryCount.toNat * rounds) = lastBlock entryCount.toNat s.entries := by
  have hroom := UInt32.le_iff_toNat_le.mp h.room
  rw [hcount] at hroom
  unfold lastBlock
  rcases Nat.eq_zero_or_pos s.manager.entryCursor.toNat with hzero | hpos
  · rcases h.rotated hzero with hnil | ⟨i, hi⟩
    · rw [entries, hnil]
      simp
    · rw [hidle i] at hi
      cases hi
  · have hdiv : (s.entries.length - 1) / entryCount.toNat = rounds := by
      have hsplit : s.entries.length - 1 =
          entryCount.toNat * rounds + (s.manager.entryCursor.toNat - 1) := by omega
      rw [hsplit, Nat.mul_add_div (UInt32.le_iff_toNat_le.mp hC), Nat.div_eq_of_lt (by omega),
        Nat.add_zero]
    rw [hdiv]

/--
**An early end.** Wherever the callers are when the manager is destroyed, and whatever
calls they have made, the file gets the entries of the last rounds of the ring, in the
order of the lock: those from a multiple of `entry_count` on, at most `entry_count` of
them. If no caller is between its halves, it is the last block, as after as many calls
one after the other; a caller that has rotated a full buffer and not written yet makes
the destructor leave that block out. Each caller has finished the first of its calls.
-/
theorem interrupted_file {entryCount bufferCount : UInt32} (hC : 1 ≤ entryCount)
    (hB : 1 ≤ bufferCount) {filename : Path} (hname : filename ≠ [])
    (asyncDumping overwrite : Bool) {calls : ι → List Entry} (fs : FileSystem) {s : Recorder ι}
    (hs : Reaches step (start
      (new filename asyncDumping entryCount bufferCount overwrite true fs).1 calls) s) :
    ∃ rounds fs' text, s.manager.destroy
        (new filename asyncDumping entryCount bufferCount overwrite true fs).2 = some fs' ∧
      fs' filename = some text ∧
      lines text =
        (s.entries.drop (entryCount.toNat * rounds)).map StreamStatsManager.entryLine ∧
      s.entries.length = entryCount.toNat * rounds + s.manager.entryCursor.toNat ∧
      s.manager.entryCursor ≤ entryCount ∧
      ((∀ i, s.tested i = false) →
        s.entries.drop (entryCount.toNat * rounds) = lastBlock entryCount.toNat s.entries) ∧
      ∀ i, s.finished i <+: calls i := by
  obtain ⟨rounds, fs', hdestroy, hfile, hlen, h⟩ :=
    destroy_recorder hC hB hname asyncDumping overwrite fs hs
  have hcount : s.manager.entryCount = entryCount := h.settings.entryCount
  exact ⟨rounds, fs', _, hdestroy, hfile, lines_entryText _, hlen, hcount ▸ h.room,
    h.drop_eq hcount hC hlen, fun i => ⟨s.todo i, h.callOrder i⟩⟩

/-- The first caller has filled the ring and the second has rotated it: the file gets
nothing. -/
theorem interrupted_file_rotated :
    ∃ s fs' text, (run step (start (new ['f'] false 1 2 false true fun _ => none).1
        ![[⟨7, 1⟩], [⟨8, 2⟩]]) [.test 0, .write 0, .test 1]) = some s ∧
      s.entries = [⟨7, 1⟩] ∧
      s.manager.destroy (new ['f'] false 1 2 false true fun _ => none).2 = some fs' ∧
      fs' ['f'] = some text ∧ lines text = [] := by
  obtain ⟨s, hs⟩ := Option.isSome_iff_exists.mp (by decide :
    (run step (start (new ['f'] false 1 2 false true fun _ => none).1
      ![[⟨7, 1⟩], [⟨8, 2⟩]]) [.test 0, .write 0, .test 1]).isSome = true)
  have hentries : (run step (start (new ['f'] false 1 2 false true fun _ => none).1
      ![[⟨7, 1⟩], [⟨8, 2⟩]]) [.test 0, .write 0, .test 1]).map (fun s =>
        (s.entries, s.manager.entryCursor)) = some ([⟨7, 1⟩], 0) := by decide
  rw [hs, Option.map_some, Option.some.injEq, Prod.mk.injEq] at hentries
  obtain ⟨hentries, hcursor⟩ := hentries
  obtain ⟨rounds, fs', text, hdestroy, htext, hlines, hlen, -⟩ := interrupted_file (by decide)
    (by decide) (show ['f'] ≠ [] by decide) false false (fun _ => none) ⟨_, hs⟩
  refine ⟨s, fs', text, hs, hentries, hdestroy, htext, ?_⟩
  rw [hentries, hcursor] at hlen
  have hrounds : (1 : UInt32).toNat * rounds = 1 := hlen.symm
  rw [hlines, hentries, hrounds]
  rfl

end Recorder

-- ---------------------------------------------------------------------------
-- The destructor, read by read
-- ---------------------------------------------------------------------------

/-- A manager that is destroyed while its callers go on: the destructor reads
`entry_cursor`, and `dump_matrix` then the rows below it. -/
structure Destruction (ι : Type) where
  recorder : Recorder ι
  /-- the cursor that has been read -/
  untilRow : Option UInt32
  /-- the rows that have been read -/
  rows : Matrix

/-- Half a call of `add_entry`, or a read of the destructor. -/
inductive DestructionAction (ι : Type) where
  | call (a : RecorderAction ι)
  | readCursor
  | readRow

namespace Destruction

/-- Nobody has read yet. -/
def start (m : ServerStatsManager) (calls : ι → List Entry) : Destruction ι where
  recorder := .start m calls
  untilRow := none
  rows := []

variable [DecidableEq ι]

/-- One half of one call, or one read. -/
def step (s : Destruction ι) : DestructionAction ι → Option (Destruction ι)
  | .call a => do
    let recorder ← s.recorder.step a
    some { s with recorder := recorder }
  | .readCursor =>
    if s.untilRow.isNone then some { s with untilRow := some s.recorder.manager.entryCursor }
    else none
  | .readRow =>
    match s.untilRow with
    | some untilRow => do
      if s.rows.length < untilRow.toNat then
        let row ← s.recorder.manager.slot s.recorder.manager.activeBuffer.toNat s.rows.length
        some { s with rows := s.rows ++ [row] }
      else none
    | none => none

theorem step_call {s s' : Destruction ι} {a : RecorderAction ι} (h : s.step (.call a) = some s') :
    ∃ recorder, s.recorder.step a = some recorder ∧ s' = { s with recorder := recorder } := by
  obtain ⟨recorder, hstep, heq⟩ := Option.bind_eq_some_iff.mp h
  exact ⟨recorder, hstep, (Option.some.inj heq).symm⟩

theorem step_readCursor {s s' : Destruction ι} (h : s.step .readCursor = some s') :
    s.untilRow = none ∧ s' = { s with untilRow := some s.recorder.manager.entryCursor } := by
  rw [step] at h
  split at h
  · rename_i hnone
    exact ⟨Option.isNone_iff_eq_none.mp hnone, (Option.some.inj h).symm⟩
  · cases h

theorem step_readRow {s s' : Destruction ι} (h : s.step .readRow = some s') :
    ∃ untilRow row, s.untilRow = some untilRow ∧ s.rows.length < untilRow.toNat ∧
      s.recorder.manager.slot s.recorder.manager.activeBuffer.toNat s.rows.length = some row ∧
      s' = { s with rows := s.rows ++ [row] } := by
  rw [step] at h
  split at h
  · rename_i untilRow huntil
    split at h
    · rename_i hlt
      obtain ⟨row, hrow, heq⟩ := Option.bind_eq_some_iff.mp h
      exact ⟨untilRow, row, huntil, hlt, hrow, (Option.some.inj heq).symm⟩
    · cases h
  · cases h

/--
The invariant of a run too short to rotate, after the destructor has read the cursor
behind the entries `es`: these stay where they are, and the rows that it reads are theirs.
-/
structure Reading [Fintype ι] (m₀ : ServerStatsManager) (calls : ι → List Entry)
    (es : List Entry) (s : Destruction ι) : Prop where
  recording : Recorder.Recording m₀ calls s.recorder
  count : s.recorder.locked.length + s.recorder.remaining = ∑ i, (calls i).length
  locked : es <+: s.recorder.entries
  untilRow : ∃ cursor, s.untilRow = some cursor ∧ cursor.toNat = es.length
  rows : s.rows <+: es.map Entry.row

section ShortRuns

variable {m₀ : ServerStatsManager} {calls : ι → List Entry} {es : List Entry}

/-- Nothing that is locked is taken back. -/
theorem entries_step {s s' : Recorder ι} {a : RecorderAction ι} (h : s.step a = some s') :
    s.entries <+: s'.entries := by
  cases a with
  | test i =>
    obtain ⟨-, -, rfl⟩ := Recorder.step_test h
    exact List.prefix_refl _
  | write i =>
    obtain ⟨e, rest, m, -, -, -, rfl⟩ := Recorder.step_write h
    exact (List.prefix_append s.locked [(i, e)]).map Prod.snd

/-- Before the cursor is read, no row is. -/
theorem rows_eq_nil {s : Destruction ι} (hs : Reaches step (start m₀ calls) s)
    (hnone : s.untilRow = none) : s.rows = [] := by
  refine hs.invariant (P := fun s => s.untilRow = none → s.rows = []) (fun _ => rfl) ?_ hnone
  intro t a u _ h hstep hu
  cases a with
  | call a =>
    obtain ⟨recorder, -, rfl⟩ := step_call hstep
    exact h hu
  | readCursor =>
    obtain ⟨-, rfl⟩ := step_readCursor hstep
    cases hu
  | readRow =>
    obtain ⟨untilRow, row, huntil, -, -, rfl⟩ := step_readRow hstep
    exact absurd (huntil.symm.trans hu) (Option.some_ne_none _)

/-- The callers do not notice the destructor. -/
theorem recorder_reaches {s : Destruction ι} (hs : Reaches step (start m₀ calls) s) :
    Reaches Recorder.step (.start m₀ calls) s.recorder := by
  refine hs.invariant (P := fun s => Reaches Recorder.step (.start m₀ calls) s.recorder)
    (.refl _) ?_
  intro t a u _ h hstep
  cases a with
  | call a =>
    obtain ⟨recorder, hcall, rfl⟩ := step_call hstep
    exact h.tail hcall
  | readCursor =>
    obtain ⟨-, rfl⟩ := step_readCursor hstep
    exact h
  | readRow =>
    obtain ⟨-, -, -, -, -, rfl⟩ := step_readRow hstep
    exact h

variable [Fintype ι]

/-- The row that is read next. -/
theorem Reading.slot_eq {s : Destruction ι} (h : Reading m₀ calls es s) {e : Entry}
    (he : es[s.rows.length]? = some e) :
    s.recorder.manager.slot s.recorder.manager.activeBuffer.toNat s.rows.length = some e.row := by
  rw [h.recording.active]
  refine h.recording.rows _ e ?_
  obtain ⟨hlt, -⟩ := List.getElem?_eq_some_iff.mp he
  obtain ⟨later, hlater⟩ := h.locked
  rw [← hlater, List.getElem?_append_left hlt, he]

/-- **One step.** -/
theorem reading_step {s s' : Destruction ι} (h : Reading m₀ calls es s)
    (hfit : ∑ i, (calls i).length ≤ m₀.entryCount.toNat) (hB : 1 ≤ m₀.bufferCount.toNat)
    {a : DestructionAction ι} (hstep : s.step a = some s') : Reading m₀ calls es s' := by
  cases a with
  | call a =>
    obtain ⟨recorder, hcall, rfl⟩ := step_call hstep
    obtain ⟨hrec, hcount⟩ := Recorder.recording_step h.recording h.count hfit hB hcall
    exact ⟨hrec, hcount, h.locked.trans (entries_step hcall), h.untilRow, h.rows⟩
  | readCursor =>
    obtain ⟨hnone, -⟩ := step_readCursor hstep
    obtain ⟨cursor, huntil, -⟩ := h.untilRow
    rw [hnone] at huntil
    cases huntil
  | readRow =>
    obtain ⟨cursor, row, huntil, hlt, hrow, rfl⟩ := step_readRow hstep
    obtain ⟨cursor', huntil', hlen⟩ := h.untilRow
    obtain rfl := Option.some.inj (huntil'.symm.trans huntil)
    have hlt' : s.rows.length < es.length := hlen ▸ hlt
    obtain rfl := Option.some.inj (hrow.symm.trans (h.slot_eq (List.getElem?_eq_getElem hlt')))
    refine { h with rows := ?_ }
    have hnext := List.concat_get_prefix h.rows (by rw [List.length_map]; exact hlt')
    rwa [List.get_eq_getElem, List.getElem_map] at hnext

/-- The entries that are locked when the cursor is read. -/
theorem reading_readCursor {s s' : Destruction ι} (hrec : Recorder.Recording m₀ calls s.recorder)
    (hcount : s.recorder.locked.length + s.recorder.remaining = ∑ i, (calls i).length)
    (hrows : s.rows = []) (hread : s.step .readCursor = some s') :
    Reading m₀ calls s.recorder.entries s' := by
  obtain ⟨-, rfl⟩ := step_readCursor hread
  refine ⟨hrec, hcount, List.prefix_refl _, ⟨_, rfl, ?_⟩, ?_⟩
  · rw [hrec.cursor, Recorder.entries, List.length_map]
  · show s.rows <+: _
    rw [hrows]
    exact List.nil_prefix

end ShortRuns

/--
**The destructor of a short run.** If the callers make at most `entry_count` calls, it
does not matter what they do while the destructor is at work: when it has read the rows
below the cursor that it found, what it writes is what `destroy` writes in the state in
which it read the cursor. It never finds a row missing on the way.
-/
theorem destroy_reads [Fintype ι] {entryCount bufferCount : UInt32} (hC : 1 ≤ entryCount)
    (hB : 1 ≤ bufferCount) {filename : Path} (asyncDumping overwrite : Bool)
    {calls : ι → List Entry} (hfit : ∑ i, (calls i).length ≤ entryCount.toNat)
    {s s' s'' : Destruction ι}
    (hs : Reaches step (start (init filename asyncDumping entryCount bufferCount overwrite)
      calls) s)
    (hread : s.step .readCursor = some s') (hs' : Reaches step s' s'') (fs : FileSystem) :
    (s''.rows.length < s.recorder.manager.entryCursor.toNat → ∃ t, s''.step .readRow = some t) ∧
      (s''.rows.length = s.recorder.manager.entryCursor.toNat →
        s.recorder.manager.destroy fs = some (fs.writeText filename (fileMode overwrite)
          (unlines (s''.rows.map rowLine)))) := by
  rw [UInt32.le_iff_toNat_le] at hC hB
  obtain ⟨hrec, hcount⟩ := Recorder.recording_reaches (sized_init ..) rfl rfl hB hfit
    (recorder_reaches hs)
  have hlen : s.recorder.entries.length = s.recorder.manager.entryCursor.toNat := by
    rw [hrec.cursor, Recorder.entries, List.length_map]
  have hreading := hs'.invariant (P := Reading _ calls s.recorder.entries)
    (reading_readCursor hrec hcount (rows_eq_nil hs (step_readCursor hread).1) hread)
    fun _ _ _ _ h hstep => reading_step h hfit hB hstep
  refine ⟨fun hlt => ?_, fun hdone => ?_⟩
  · obtain ⟨cursor, huntil, hcursor⟩ := hreading.untilRow
    have hrow := hreading.slot_eq (List.getElem?_eq_getElem (hlen ▸ hlt))
    refine Option.isSome_iff_exists.mp ?_
    simp only [step, huntil]
    rw [if_pos (by omega), hrow]
    rfl
  · have hall : s''.rows = s.recorder.entries.map Entry.row :=
      hreading.rows.eq_of_length (by rw [List.length_map, hlen, hdone])
    have hset := hrec.settings
    have hcountEq : s.recorder.manager.entryCount = entryCount := hset.entryCount
    obtain ⟨data, -, hdata, -, -, -⟩ := hrec.sized.exists_slot
      (show s.recorder.manager.activeBuffer.toNat < _ by
        rw [hrec.active, hset.bufferCount]
        exact hB) (show 0 < _ by rw [hcountEq]; exact hC)
    rw [destroy_eq hrec.sized (by rw [hcountEq]; exact hC) hdata
      (Recorder.recording_take hrec hdata), hset.filename, hset.overwrite, hall, List.map_map]
    exact congrArg (fun text => some (fs.writeText filename (fileMode overwrite) (unlines text)))
      (List.map_congr_left fun e _ => (rowLine_row e).symm)

end Destruction

end MockMessageBoard
