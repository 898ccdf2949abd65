import MockMessageBoard.Stats.Concurrent

/-!
# MockMessageBoard — when the stale test matters

The unlocked test of `add_entry` may be arbitrarily old when the lock is
taken. Two kinds of runs never notice: those with at most `entry_count` calls
(`Recording`, nothing ever rotates) and those of a single caller (`Alone`, the
test is never stale). All others can be scheduled so that a locked half writes
one past the end of its buffer (`overrun`).

* `locked_inBounds_iff` — this dichotomy is exact;
* `recording_file`      — what short runs leave in the file.
-/

namespace MockMessageBoard

open TextFile ServerStatsManager Transition

namespace Recorder

variable {ι : Type} [DecidableEq ι]

-- ---------------------------------------------------------------------------
-- A single caller
-- ---------------------------------------------------------------------------

/-- The invariant of a run in which only `i₀` makes calls: its test is fresh
when it takes the lock. -/
structure Alone (i₀ : ι) (s : Recorder ι) : Prop where
  sized : s.manager.Sized
  count : 1 ≤ s.manager.entryCount.toNat
  active : s.manager.activeBuffer < s.manager.bufferCount
  fresh : ∀ i, s.tested i = true → s.manager.InBounds
  idle : ∀ i, i ≠ i₀ → s.todo i = [] ∧ s.tested i = false

theorem alone_step {i₀ : ι} {s s' : Recorder ι} (h : Alone i₀ s) {a : RecorderAction ι}
    (hstep : s.step a = some s') : Alone i₀ s' := by
  cases a with
  | test i =>
    obtain ⟨-, hi, rfl⟩ := step_test hstep
    have hset := sameSettings_testAndRotate s.manager
    have hin := inBounds_testAndRotate h.count h.active
    have hii : i = i₀ := by
      by_contra hne
      exact hi (h.idle i hne).1
    subst hii
    refine ⟨h.sized.testAndRotate, ?_, hin.1, fun _ _ => hin, ?_⟩
    · show 1 ≤ s.manager.testAndRotate.entryCount.toNat
      rw [hset.entryCount]
      exact h.count
    · intro j hj
      exact ⟨(h.idle j hj).1, by simpa [hj] using (h.idle j hj).2⟩
  | write i =>
    obtain ⟨e, rest, m, hi, htodo, hm, rfl⟩ := step_write hstep
    obtain ⟨m', hm', hw⟩ := lockedWrite_wrote h.sized (h.fresh i hi) e
    obtain rfl : m' = m := Option.some.inj (hm'.symm.trans hm)
    have hii : i = i₀ := by
      by_contra hne
      rw [(h.idle i hne).2] at hi
      cases hi
    subst hii
    refine ⟨hw.sized, ?_, ?_, ?_, ?_⟩
    · show 1 ≤ m'.entryCount.toNat
      rw [hw.settings.entryCount]
      exact h.count
    · show m'.activeBuffer < m'.bufferCount
      rw [hw.active, hw.settings.bufferCount]
      exact h.active
    · -- nobody is between the halves any more
      intro j hj
      by_cases hji : j = i
      · simp [hji] at hj
      · have hold : s.tested j = true := by simpa [hji] using hj
        rw [(h.idle j hji).2] at hold
        cases hold
    · intro j hj
      simpa [hj] using h.idle j hj

theorem alone_inBounds {i₀ : ι} {s₀ s : Recorder ι} (h₀ : Alone i₀ s₀)
    (hs : Reaches step s₀ s) {i : ι} (hi : s.tested i = true) : s.manager.InBounds :=
  (hs.invariant (P := Alone i₀) h₀ fun _ _ _ _ h hstep => alone_step h hstep).fresh i hi

-- ---------------------------------------------------------------------------
-- Filling a buffer
-- ---------------------------------------------------------------------------

/-- Callers of `S`, one whole call at a time, made `d` calls between `s` and
`s'`; the other callers did nothing. -/
structure Filled (S : Finset ι) (d : Nat) (s s' : Recorder ι) : Prop where
  reaches : Reaches step s s'
  sized : s'.manager.Sized
  settings : SameSettings s.manager s'.manager
  active : s'.manager.activeBuffer = s.manager.activeBuffer
  cursor : s'.manager.entryCursor.toNat = s.manager.entryCursor.toNat + d
  between : ∀ i ∈ S, s'.tested i = false
  others : ∀ i, i ∉ S → s'.todo i = s.todo i ∧ s'.tested i = s.tested i
  made : (∑ i ∈ S, (s'.todo i).length) + d = ∑ i ∈ S, (s.todo i).length

/-- One whole call, while the active buffer has room. -/
theorem filled_one {S : Finset ι} {s : Recorder ι} (hsized : s.manager.Sized)
    (hin : s.manager.InBounds) (hS : ∀ i ∈ S, s.tested i = false) {i : ι} (hi : i ∈ S)
    (htodo : s.todo i ≠ []) : ∃ s', Filled S 1 s s' := by
  obtain ⟨e, rest, hcons⟩ := List.exists_cons_of_ne_nil htodo
  obtain ⟨m, hm, hw⟩ := lockedWrite_wrote hsized hin e
  have htest : s.step (.test i) =
      some { s with tested := Function.update s.tested i true } := by
    rw [step, if_pos ⟨hS i hi, htodo⟩, testAndRotate_of_lt hin.2]
  have hwrite : step { s with tested := Function.update s.tested i true } (.write i) =
      some {
        manager := m
        todo := Function.update s.todo i rest
        tested := Function.update s.tested i false
        locked := s.locked ++ [(i, e)] } := by
    simp [step, hcons, hm]
  refine ⟨_, (Reaches.single htest).tail hwrite, hw.sized, hw.settings, hw.active, hw.cursor,
    ?_, ?_, sum_length_update hi hcons⟩
  · intro j hj
    by_cases hji : j = i
    · simp [hji]
    · simpa [hji] using hS j hj
  · intro j hj
    have hji : j ≠ i := fun h => hj (h ▸ hi)
    simp [hji]

theorem Filled.trans {S : Finset ι} {d d' : Nat} {s s' s'' : Recorder ι} (h : Filled S d s s')
    (h' : Filled S d' s' s'') : Filled S (d + d') s s'' where
  reaches := h.reaches.trans h'.reaches
  sized := h'.sized
  settings := h.settings.trans h'.settings
  active := h'.active.trans h.active
  cursor := by rw [h'.cursor, h.cursor, Nat.add_assoc]
  between := h'.between
  others := fun i hi =>
    ⟨(h'.others i hi).1.trans (h.others i hi).1, (h'.others i hi).2.trans (h.others i hi).2⟩
  made := by
    have := h.made
    have := h'.made
    omega

/-- **Filling.** Callers with `d` calls left can make them one after the other
while the active buffer has room for `d`. -/
theorem exists_filled {S : Finset ι} {d : Nat} {s : Recorder ι} (hsized : s.manager.Sized)
    (hactive : s.manager.activeBuffer < s.manager.bufferCount)
    (hroom : s.manager.entryCursor.toNat + d ≤ s.manager.entryCount.toNat)
    (hS : ∀ i ∈ S, s.tested i = false) (hcalls : d ≤ ∑ i ∈ S, (s.todo i).length) :
    ∃ s', Filled S d s s' := by
  induction d generalizing s with
  | zero => exact ⟨s, .refl s, hsized, .refl _, rfl, rfl, hS, fun _ _ => ⟨rfl, rfl⟩, rfl⟩
  | succ d ih =>
    obtain ⟨i, hi, hlen⟩ : ∃ i ∈ S, (s.todo i).length ≠ 0 :=
      Finset.exists_ne_zero_of_sum_ne_zero (by omega)
    have hin : s.manager.InBounds := ⟨hactive, by rw [UInt32.lt_iff_toNat_lt]; omega⟩
    obtain ⟨s₁, h₁⟩ := filled_one hsized hin hS hi fun h => hlen (by rw [h]; rfl)
    have hcur := h₁.cursor
    have hmade := h₁.made
    obtain ⟨s₂, h₂⟩ := ih h₁.sized (by rw [h₁.active, h₁.settings.bufferCount]; exact hactive)
      (by rw [h₁.settings.entryCount]; omega) h₁.between (by omega)
    exact ⟨s₂, Nat.add_comm 1 d ▸ h₁.trans h₂⟩

-- ---------------------------------------------------------------------------
-- The overrun
-- ---------------------------------------------------------------------------

/-- Caller `i`, alone, made `d` calls between `s` and `s'` and the test of one
more. -/
structure Stopped (i : ι) (d : Nat) (s s' : Recorder ι) : Prop where
  reaches : Reaches step s s'
  sized : s'.manager.Sized
  settings : SameSettings s.manager s'.manager
  active : s'.manager.activeBuffer = s.manager.activeBuffer
  cursor : s'.manager.entryCursor.toNat = s.manager.entryCursor.toNat + d
  tested : s'.tested i = true
  others : ∀ k, k ≠ i → s'.todo k = s.todo k ∧ s'.tested k = s.tested k

/-- The test of the last call still finds a row, so nothing rotates. -/
theorem exists_stopped {s : Recorder ι} (hsized : s.manager.Sized)
    (hactive : s.manager.activeBuffer < s.manager.bufferCount) {i : ι}
    (hi : s.tested i = false) {d : Nat}
    (hroom : s.manager.entryCursor.toNat + d < s.manager.entryCount.toNat)
    (hcalls : d < (s.todo i).length) : ∃ s', Stopped i d s s' := by
  obtain ⟨s₁, h₁⟩ := exists_filled (S := {i}) hsized hactive hroom.le
    (fun k hk => by rw [Finset.mem_singleton.mp hk]; exact hi)
    (by rw [Finset.sum_singleton]; exact hcalls.le)
  have hmade := h₁.made
  rw [Finset.sum_singleton, Finset.sum_singleton] at hmade
  have htodo : s₁.todo i ≠ [] := by
    intro h
    rw [h, List.length_nil] at hmade
    omega
  have hlt : s₁.manager.entryCursor < s₁.manager.entryCount := by
    rw [UInt32.lt_iff_toNat_lt, h₁.cursor, h₁.settings.entryCount]
    exact hroom
  have htest : s₁.step (.test i) =
      some { s₁ with tested := Function.update s₁.tested i true } := by
    rw [step, if_pos ⟨h₁.between i (Finset.mem_singleton_self i), htodo⟩,
      testAndRotate_of_lt hlt]
  refine ⟨_, h₁.reaches.tail htest, h₁.sized, h₁.settings, h₁.active, h₁.cursor,
    Function.update_self .., ?_⟩
  intro k hk
  obtain ⟨htodo, htested⟩ := h₁.others k (by simpa using hk)
  exact ⟨htodo, (Function.update_of_ne hk ..).trans htested⟩

/-- While `i` is between its halves, the callers of `S` can take the last rows. -/
theorem exists_overrun {S : Finset ι} {s : Recorder ι} (hsized : s.manager.Sized)
    (hactive : s.manager.activeBuffer < s.manager.bufferCount)
    (hS : ∀ k ∈ S, s.tested k = false) {i : ι} (hi : i ∉ S) (htested : s.tested i = true)
    {d : Nat} (hfull : s.manager.entryCursor.toNat + d = s.manager.entryCount.toNat)
    (hcalls : d ≤ ∑ k ∈ S, (s.todo k).length) :
    ∃ s', Reaches step s s' ∧ s'.tested i = true ∧ ¬ s'.manager.InBounds := by
  obtain ⟨s', h⟩ := exists_filled hsized hactive hfull.le hS hcalls
  refine ⟨s', h.reaches, (h.others i hi).2.trans htested, fun hin => ?_⟩
  have hlt := UInt32.lt_iff_toNat_lt.mp hin.2
  rw [h.cursor, h.settings.entryCount, hfull] at hlt
  exact Nat.lt_irrefl _ hlt

/--
**The overrun.** When two callers have calls to make and more than
`entry_count` calls are made in all, caller `i` can be stopped after its test
while the others fill the buffer: its locked half then indexes one past the
end.
-/
theorem overrun [Fintype ι] {entryCount bufferCount : UInt32} (hC : 1 ≤ entryCount.toNat)
    (hB : 1 ≤ bufferCount.toNat) (filename : Path) (asyncDumping overwrite : Bool)
    {calls : ι → List Entry} {i j : ι} (hij : i ≠ j) (hi : calls i ≠ []) (hj : calls j ≠ [])
    (hmany : entryCount.toNat < ∑ k, (calls k).length) :
    ∃ s, Reaches step (start (init filename asyncDumping entryCount bufferCount overwrite)
        calls) s ∧
      s.tested i = true ∧ ¬ s.manager.InBounds := by
  have hipos := List.length_pos_iff.mpr hi
  have hjpos := List.length_pos_iff.mpr hj
  have hsplit := Finset.add_sum_erase Finset.univ (fun k => (calls k).length)
    (Finset.mem_univ i)
  have hjle : (calls j).length ≤ ∑ k ∈ Finset.univ.erase i, (calls k).length :=
    Finset.single_le_sum (f := fun k => (calls k).length) (fun _ _ => Nat.zero_le _)
      (Finset.mem_erase.mpr ⟨hij.symm, Finset.mem_univ j⟩)
  set m₀ := init filename asyncDumping entryCount bufferCount overwrite with hm₀
  have hactive : m₀.activeBuffer < m₀.bufferCount := by
    rw [UInt32.lt_iff_toNat_lt]
    exact hB
  -- `i` makes calls of its own until its next test is its last or the
  -- buffer has one row left
  set d := min ((calls i).length - 1) (entryCount.toNat - 1) with hd
  obtain ⟨s₁, h₁⟩ := exists_stopped (s := start m₀ calls) (i := i) (d := d) (sized_init ..)
    hactive rfl (show 0 + d < entryCount.toNat by omega) (show d < (calls i).length by omega)
  have hcur : s₁.manager.entryCursor.toNat = d := by
    rw [h₁.cursor]
    exact Nat.zero_add d
  have hcount : s₁.manager.entryCount = entryCount := h₁.settings.entryCount
  -- the others fill the rest of the buffer
  have hothers : ∑ k ∈ Finset.univ.erase i, (s₁.todo k).length =
      ∑ k ∈ Finset.univ.erase i, (calls k).length :=
    Finset.sum_congr rfl fun k hk =>
      congrArg List.length (h₁.others k (Finset.ne_of_mem_erase hk)).1
  obtain ⟨s₂, hreaches, hstopped, hout⟩ := exists_overrun (S := Finset.univ.erase i)
    (d := entryCount.toNat - d) h₁.sized
    (by rw [h₁.active, h₁.settings.bufferCount]; exact hactive)
    (fun k hk => (h₁.others k (Finset.ne_of_mem_erase hk)).2)
    (Finset.notMem_erase i _) h₁.tested
    (by rw [hcur, hcount]; omega) (by rw [hothers]; omega)
  exact ⟨s₂, h₁.reaches.trans hreaches, hstopped, hout⟩

-- ---------------------------------------------------------------------------
-- The exact condition
-- ---------------------------------------------------------------------------

/-- Short runs, and runs of a single caller, never overrun. -/
theorem inBounds_of_quiet [Fintype ι] {entryCount bufferCount : UInt32}
    (hC : 1 ≤ entryCount.toNat) (hB : 1 ≤ bufferCount.toNat) (filename : Path)
    (asyncDumping overwrite : Bool) {calls : ι → List Entry}
    (hquiet : ∑ i, (calls i).length ≤ entryCount.toNat ∨
      ∀ i j, calls i ≠ [] → calls j ≠ [] → i = j) {s : Recorder ι}
    (hs : Reaches step (start (init filename asyncDumping entryCount bufferCount overwrite)
      calls) s) {i : ι} (hi : s.tested i = true) : s.manager.InBounds := by
  by_cases hfit : ∑ i, (calls i).length ≤ entryCount.toNat
  · obtain ⟨hrec, hcount⟩ := recording_reaches (sized_init ..) rfl rfl hB hfit hs
    exact recording_inBounds hrec hcount hfit hB hi
  · have hone := hquiet.resolve_left hfit
    -- somebody calls, as there are calls
    obtain ⟨i₀, -, hi₀⟩ : ∃ i₀ ∈ Finset.univ, (calls i₀).length ≠ 0 :=
      Finset.exists_ne_zero_of_sum_ne_zero (by omega)
    have halone : Alone i₀ (start (init filename asyncDumping entryCount bufferCount
        overwrite) calls) := by
      refine ⟨sized_init .., hC, UInt32.lt_iff_toNat_lt.mpr hB, ?_, ?_⟩
      · intro k hk
        cases hk
      · intro k hk
        refine ⟨?_, rfl⟩
        by_contra hne
        exact hk (hone k i₀ hne fun hnil => hi₀ (by rw [hnil]; rfl))
    exact alone_inBounds halone hs hi

/--
**Every locked half has a slot exactly for short or single-caller runs.** Over
all interleavings of the callers' calls, a caller that has passed its test
finds `active_buffer < buffer_count` and `entry_cursor < entry_count` if and
only if at most `entry_count` calls are made in all, or one caller makes all of
them.
-/
theorem locked_inBounds_iff [Fintype ι] {entryCount bufferCount : UInt32}
    (hC : 1 ≤ entryCount) (hB : 1 ≤ bufferCount) (filename : Path)
    (asyncDumping overwrite : Bool) (calls : ι → List Entry) :
    (∀ s, Reaches step (start (init filename asyncDumping entryCount bufferCount overwrite)
        calls) s →
      ∀ i, s.tested i = true →
        s.manager.activeBuffer < s.manager.bufferCount ∧
          s.manager.entryCursor < s.manager.entryCount) ↔
      (∑ i, (calls i).length ≤ entryCount.toNat ∨
        ∀ i j, calls i ≠ [] → calls j ≠ [] → i = j) := by
  rw [UInt32.le_iff_toNat_le] at hC hB
  constructor
  · intro hsafe
    by_contra hrace
    push Not at hrace
    obtain ⟨hmany, i, j, hi, hj, hij⟩ := hrace
    obtain ⟨s, hs, htested, hout⟩ :=
      overrun hC hB filename asyncDumping overwrite hij hi hj hmany
    exact hout (hsafe s hs i htested)
  · intro hquiet s hs i hi
    exact inBounds_of_quiet hC hB filename asyncDumping overwrite hquiet hs hi

/-- Two handlers with one call each, in a ring of one-entry buffers. -/
theorem locked_inBounds_two :
    (∀ s, Reaches step (start (init ['f'] false 1 2 false)
        (fun _ : Fin 2 => [(⟨7, 1⟩ : Entry)])) s →
      ∀ i, s.tested i = true →
        s.manager.activeBuffer < s.manager.bufferCount ∧
          s.manager.entryCursor < s.manager.entryCount) ↔
      (∑ _i : Fin 2, ([(⟨7, 1⟩ : Entry)] : List Entry).length ≤ (1 : UInt32).toNat ∨
        ∀ i j : Fin 2, [(⟨7, 1⟩ : Entry)] ≠ [] → [(⟨7, 1⟩ : Entry)] ≠ [] → i = j) :=
  locked_inBounds_iff (by decide) (by decide) ['f'] false false _

/-- With the default sizes: one handler thread makes 32768 calls while another
one is stopped inside its only call. -/
theorem default_manager_overruns :
    ¬ ∀ (entryCount bufferCount : UInt32) (calls : Fin 2 → List Entry),
      1 ≤ entryCount → 1 ≤ bufferCount →
      ∀ s, Reaches step (start (init ['f'] false entryCount bufferCount false) calls) s →
        ∀ i, s.tested i = true →
          s.manager.activeBuffer < s.manager.bufferCount ∧
            s.manager.entryCursor < s.manager.entryCount := by
  intro hsafe
  obtain ⟨n, hn⟩ : ∃ n, n = defaultEntryCount.toNat := ⟨_, rfl⟩
  have hmany : defaultEntryCount.toNat <
      ∑ k, ((![List.replicate n ⟨7, 1⟩, [⟨8, 2⟩]] : Fin 2 → List Entry) k).length := by
    rw [Fin.sum_univ_two, ← hn]
    simp
  have hpos : n ≠ 0 := by
    rw [hn]
    decide
  obtain ⟨s, hs, htested, hout⟩ := @overrun (Fin 2) _ _ defaultEntryCount 2 (by decide)
    (by decide) ['f'] false false _ 1 0 (by decide) (by simp) (by simpa using hpos) hmany
  exact hout (hsafe defaultEntryCount 2 _ (by decide) (by decide) s hs 1 htested)

-- ---------------------------------------------------------------------------
-- The file after a short run
-- ---------------------------------------------------------------------------

/-- The lock order is a shuffle of the callers' own orders. -/
theorem coe_map_snd_eq_sum [Fintype ι] (l : List (ι × Entry)) :
    ((l.map Prod.snd : List Entry) : Multiset Entry) =
      ∑ i, (((l.filter fun x => x.1 = i).map Prod.snd : List Entry) : Multiset Entry) := by
  induction l with
  | nil => simp
  | cons x l ih =>
    have hsplit : ∀ i, ((((x :: l).filter fun y => y.1 = i).map Prod.snd : List Entry) :
        Multiset Entry) = (if x.1 = i then {x.2} else 0) +
          (((l.filter fun y => y.1 = i).map Prod.snd : List Entry) : Multiset Entry) := by
      intro i
      by_cases hx : x.1 = i
      · simp [hx]
      · simp [hx]
    rw [Finset.sum_congr rfl fun i _ => hsplit i, Finset.sum_add_distrib, ← ih,
      Finset.sum_ite_eq]
    simp

/-- The rows below the cursor are the entries, in the order of the lock. -/
theorem recording_take {m₀ : ServerStatsManager} {calls : ι → List Entry} {s : Recorder ι}
    (hrec : Recording m₀ calls s) {data : Matrix}
    (hdata : s.manager.dataBuffers[s.manager.activeBuffer.toNat]? = some data) :
    data.take s.manager.entryCursor.toNat = s.entries.map Entry.row := by
  refine List.ext_getElem? fun k => ?_
  rw [List.getElem?_take, List.getElem?_map, hrec.cursor]
  by_cases hk : k < s.locked.length
  · have hk' : k < s.entries.length := by simpa [entries] using hk
    have hrow := hrec.rows k _ (List.getElem?_eq_getElem hk')
    rw [slot, ← hrec.active, hdata, Option.bind_some] at hrow
    rw [if_pos hk, hrow, List.getElem?_eq_getElem hk']
    rfl
  · rw [if_neg hk, List.getElem?_eq_none (by simpa [entries] using hk), Option.map_none]

/--
**Short concurrent runs lose and duplicate nothing.** When the callers make at
most `entry_count` calls in all, then however their halves interleave, the
file a synchronous destructor leaves after the last call has one line for each
call, in the order in which the lock was taken; as a multiset these are the
recorded entries, and each caller's are in its own call order.
-/
theorem recording_file [Fintype ι] {entryCount bufferCount : UInt32} (hB : 1 ≤ bufferCount)
    (hC : 1 ≤ entryCount) {filename : Path} (hname : filename ≠ []) (overwrite : Bool)
    {calls : ι → List Entry} (hfit : ∑ i, (calls i).length ≤ entryCount.toNat)
    (fs : FileSystem) {s : Recorder ι}
    (hs : Reaches step (start (new filename false entryCount bufferCount overwrite true fs).1
      calls) s) (hdone : ∀ i, s.todo i = []) :
    ∃ fs' text, s.manager.destroy
        (new filename false entryCount bufferCount overwrite true fs).2 = some fs' ∧
      fs' filename = some text ∧
      lines text = s.entries.map StreamStatsManager.entryLine ∧
      (lines text).length = ∑ i, (calls i).length ∧
      (s.entries : Multiset Entry) = ∑ i, (calls i : Multiset Entry) ∧
      ∀ i, s.finished i = calls i := by
  rw [UInt32.le_iff_toNat_le] at hC hB
  obtain ⟨hrec, hcount⟩ := recording_reaches (sized_init ..) rfl rfl hB hfit hs
  have hrem : s.remaining = 0 := by simp [remaining, hdone]
  have hfinished : ∀ i, s.finished i = calls i := by
    intro i
    have := hrec.callOrder i
    rwa [hdone i, List.append_nil] at this
  have hcountEq : s.manager.entryCount = entryCount := hrec.settings.entryCount
  -- the first buffer holds the locked calls below the cursor
  have hactive : s.manager.activeBuffer.toNat < s.manager.bufferCount.toNat := by
    rw [hrec.active, hrec.settings.bufferCount]
    exact hB
  obtain ⟨data, -, hdata, -, -, -⟩ :=
    hrec.sized.exists_slot hactive (show 0 < _ by rw [hcountEq]; exact hC)
  have hdestroy := destroy_eq hrec.sized (by rw [hcountEq]; exact hC) hdata
    (recording_take hrec hdata)
    (new filename false entryCount bufferCount overwrite true fs).2
  have hfile : ((new filename false entryCount bufferCount overwrite true fs).2.writeText
      filename (fileMode overwrite) (entryText s.entries)) filename =
        some (entryText s.entries) := by
    have herased : (new filename false entryCount bufferCount overwrite true fs).2 filename =
        some [] := eraseFile_same fs hname
    cases overwrite with
    | false => exact (writeText_app_same _ hname _).trans (by rw [herased]; rfl)
    | true => exact writeText_trunc_same _ hname _
  refine ⟨_, entryText s.entries, hdestroy, ?_, lines_entryText _, ?_, ?_, hfinished⟩
  · rw [hrec.settings.filename, hrec.settings.overwrite]
    exact hfile
  · rw [lines_entryText, List.length_map, entries, List.length_map]
    omega
  · rw [entries, coe_map_snd_eq_sum]
    exact Finset.sum_congr rfl fun i _ => congrArg _ (hfinished i)

/-- Two callers fill a two-entry buffer; the second caller's lock comes first. -/
theorem recording_file_two :
    ∃ s fs' text, (run step (start (new ['f'] false 2 2 false true fun _ => none).1
        ![[⟨7, 1⟩], [⟨8, 2⟩]]) [.test 0, .test 1, .write 1, .write 0]) = some s ∧
      s.manager.destroy (new ['f'] false 2 2 false true fun _ => none).2 = some fs' ∧
      fs' ['f'] = some text ∧ lines text = [['8', ',', '2'], ['7', ',', '1']] := by
  obtain ⟨s, hs⟩ := Option.isSome_iff_exists.mp (by decide :
    (run step (start (new ['f'] false 2 2 false true fun _ => none).1
      ![[⟨7, 1⟩], [⟨8, 2⟩]]) [.test 0, .test 1, .write 1, .write 0]).isSome = true)
  have hentries : (run step (start (new ['f'] false 2 2 false true fun _ => none).1
      ![[⟨7, 1⟩], [⟨8, 2⟩]]) [.test 0, .test 1, .write 1, .write 0]).map (fun s =>
        (s.entries, s.todo 0, s.todo 1)) = some ([⟨8, 2⟩, ⟨7, 1⟩], [], []) := by decide
  rw [hs, Option.map_some, Option.some.injEq, Prod.mk.injEq, Prod.mk.injEq] at hentries
  obtain ⟨horder, htodo₀, htodo₁⟩ := hentries
  have hdone : ∀ i, s.todo i = [] := by
    intro i
    fin_cases i
    · exact htodo₀
    · exact htodo₁
  obtain ⟨fs', text, hdestroy, htext, hlines, -⟩ := recording_file (by decide)
    (by decide) (show ['f'] ≠ [] by decide) false (by decide) (fun _ => none) ⟨_, hs⟩ hdone
  exact ⟨s, fs', text, hs, hdestroy, htext, by rw [hlines, horder]; rfl⟩

end Recorder

end MockMessageBoard
