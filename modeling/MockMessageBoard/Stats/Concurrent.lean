import MockMessageBoard.Lib.Transition
import MockMessageBoard.Stats.Versions

/-!
# MockMessageBoard — concurrent recording

`add_entry` tests and rotates before it takes `entry_saving_mutex`. Any number
of callers, each with a list of calls still to make, interleave the two halves:
a caller performs the unlocked half of its next call (`test`), then the locked
half (`write`), and anything may happen in between. An action that would index
a vector out of range is undefined behaviour and has no successor.

* `Recording`             — the invariant of runs too short to rotate;
* `recording_step`        — one half of one call keeps it;
* `recording_reaches`     — every run of at most `entry_count` calls keeps it.
-/

namespace MockMessageBoard

open TextFile ServerStatsManager Transition

variable {ι : Type} [DecidableEq ι]

/-- A manager shared by the callers `ι`. -/
structure Recorder (ι : Type) where
  manager : ServerStatsManager
  /-- the calls each caller still has to finish -/
  todo : ι → List Entry
  /-- the callers stopped between the two halves of their next call -/
  tested : ι → Bool
  /-- the finished calls, in the order in which the lock was taken -/
  locked : List (ι × Entry)

/-- The two halves of `add_entry`. -/
inductive RecorderAction (ι : Type) where
  | test (i : ι)
  | write (i : ι)

namespace Recorder

/-- A fresh run over `m` in which caller `i` makes the calls `calls i`. -/
def start (m : ServerStatsManager) (calls : ι → List Entry) : Recorder ι where
  manager := m
  todo := calls
  tested := fun _ => false
  locked := []

/-- One half of one call. -/
def step (s : Recorder ι) : RecorderAction ι → Option (Recorder ι)
  | .test i =>
    if s.tested i = false ∧ s.todo i ≠ [] then
      some { s with
        manager := s.manager.testAndRotate
        tested := Function.update s.tested i true }
    else none
  | .write i =>
    match s.tested i, s.todo i with
    | true, e :: rest => do
      let m ← s.manager.lockedWrite e
      some {
        manager := m
        todo := Function.update s.todo i rest
        tested := Function.update s.tested i false
        locked := s.locked ++ [(i, e)] }
    | _, _ => none

/-- The calls caller `i` has finished, in the order of the lock. -/
def finished (s : Recorder ι) (i : ι) : List Entry :=
  (s.locked.filter fun x => x.1 = i).map Prod.snd

/-- All finished calls, in the order of the lock. -/
def entries (s : Recorder ι) : List Entry := s.locked.map Prod.snd

-- ---------------------------------------------------------------------------
-- What a step does
-- ---------------------------------------------------------------------------

theorem step_test {s s' : Recorder ι} {i : ι} (h : s.step (.test i) = some s') :
    s.tested i = false ∧ s.todo i ≠ [] ∧
      s' = { s with
        manager := s.manager.testAndRotate
        tested := Function.update s.tested i true } := by
  rw [step] at h
  split at h
  · rename_i henabled
    exact ⟨henabled.1, henabled.2, (Option.some.inj h).symm⟩
  · cases h

theorem step_write {s s' : Recorder ι} {i : ι} (h : s.step (.write i) = some s') :
    ∃ e rest m, s.tested i = true ∧ s.todo i = e :: rest ∧
      s.manager.lockedWrite e = some m ∧
      s' = {
        manager := m
        todo := Function.update s.todo i rest
        tested := Function.update s.tested i false
        locked := s.locked ++ [(i, e)] } := by
  rw [step] at h
  split at h
  · rename_i e rest htested htodo
    obtain ⟨m, hm, heq⟩ := Option.bind_eq_some_iff.mp h
    exact ⟨e, rest, m, htested, htodo, hm, (Option.some.inj heq).symm⟩
  · cases h

theorem finished_snoc (l : List (ι × Entry)) (i j : ι) (e : Entry) :
    ((l ++ [(i, e)]).filter fun x => x.1 = j).map Prod.snd =
      (l.filter fun x => x.1 = j).map Prod.snd ++ if i = j then [e] else [] := by
  rw [List.filter_append, List.map_append]
  by_cases hij : i = j
  · simp [hij]
  · simp [hij]

/-- Finishing one call of `i` takes one off the calls that any callers
including `i` have to finish. -/
theorem sum_length_update {S : Finset ι} {todo : ι → List Entry} {i : ι} (hi : i ∈ S)
    {e : Entry} {rest : List Entry} (h : todo i = e :: rest) :
    (∑ j ∈ S, (Function.update todo i rest j).length) + 1 = ∑ j ∈ S, (todo j).length := by
  have hothers : ∑ j ∈ S.erase i, (Function.update todo i rest j).length =
      ∑ j ∈ S.erase i, (todo j).length :=
    Finset.sum_congr rfl fun j hj => by rw [Function.update_of_ne (Finset.ne_of_mem_erase hj)]
  rw [← Finset.sum_erase_add S _ hi, ← Finset.sum_erase_add S _ hi, hothers,
    Function.update_self, h, List.length_cons]
  omega

-- ---------------------------------------------------------------------------
-- Runs too short to rotate
-- ---------------------------------------------------------------------------

/-- The number of calls the callers still have to finish. -/
def remaining [Fintype ι] (s : Recorder ι) : Nat := ∑ i, (s.todo i).length

/--
The invariant of a run from `start m₀ calls` before anything rotates: the
locked calls fill the first buffer from the front, and each caller's finished
calls followed by its remaining ones are the calls it was given.
-/
structure Recording (m₀ : ServerStatsManager) (calls : ι → List Entry) (s : Recorder ι) :
    Prop where
  sized : s.manager.Sized
  settings : SameSettings m₀ s.manager
  active : s.manager.activeBuffer.toNat = 0
  cursor : s.manager.entryCursor.toNat = s.locked.length
  rows : ∀ (k : Nat) e, s.entries[k]? = some e → s.manager.slot 0 k = some e.row
  pending : ∀ i, s.tested i = true → s.todo i ≠ []
  callOrder : ∀ i, s.finished i ++ s.todo i = calls i

section ShortRuns

variable {m₀ : ServerStatsManager} {calls : ι → List Entry}

theorem recording_start (hm : m₀.Sized) (hactive : m₀.activeBuffer = 0)
    (hcursor : m₀.entryCursor = 0) : Recording m₀ calls (start m₀ calls) where
  sized := hm
  settings := .refl m₀
  active := by simp [start, hactive]
  cursor := by simp [start, hcursor]
  rows := by simp [start, entries]
  pending := by simp [start]
  callOrder := by simp [start, finished]

variable [Fintype ι]

omit [DecidableEq ι] in
theorem remaining_pos {s : Recorder ι} {i : ι} (h : s.todo i ≠ []) : 1 ≤ s.remaining := by
  have hle := Finset.single_le_sum (f := fun j => (s.todo j).length)
    (fun j _ => Nat.zero_le _) (Finset.mem_univ i)
  exact (List.length_pos_iff.mpr h).trans_le hle

/-- A caller that has not finished leaves room in the buffer. -/
theorem cursor_lt {s : Recorder ι} {n : Nat} (h : Recording m₀ calls s)
    (hcount : s.locked.length + s.remaining = n) (hfit : n ≤ m₀.entryCount.toNat) {i : ι}
    (hi : s.todo i ≠ []) : s.manager.entryCursor < s.manager.entryCount := by
  have hpos := remaining_pos hi
  rw [UInt32.lt_iff_toNat_lt, h.settings.entryCount, h.cursor]
  omega

theorem recording_inBounds {s : Recorder ι} {n : Nat} (h : Recording m₀ calls s)
    (hcount : s.locked.length + s.remaining = n) (hfit : n ≤ m₀.entryCount.toNat)
    (hB : 1 ≤ m₀.bufferCount.toNat) {i : ι} (hi : s.tested i = true) :
    s.manager.InBounds := by
  refine ⟨?_, cursor_lt h hcount hfit (h.pending i hi)⟩
  rw [UInt32.lt_iff_toNat_lt, h.active, h.settings.bufferCount]
  omega

/-- **One step.** -/
theorem recording_step {s s' : Recorder ι} {n : Nat} (h : Recording m₀ calls s)
    (hcount : s.locked.length + s.remaining = n) (hfit : n ≤ m₀.entryCount.toNat)
    (hB : 1 ≤ m₀.bufferCount.toNat) {a : RecorderAction ι} (hstep : s.step a = some s') :
    Recording m₀ calls s' ∧ s'.locked.length + s'.remaining = n := by
  cases a with
  | test i =>
    obtain ⟨-, hi, rfl⟩ := step_test hstep
    rw [testAndRotate_of_lt (cursor_lt h hcount hfit hi)]
    refine ⟨{ h with pending := ?_ }, hcount⟩
    intro j hj
    by_cases hji : j = i
    · rw [hji]
      exact hi
    · exact h.pending j (by simpa [hji] using hj)
  | write i =>
    obtain ⟨e, rest, m, hi, htodo, hm, rfl⟩ := step_write hstep
    obtain ⟨m', hm', hw⟩ :=
      lockedWrite_wrote h.sized (recording_inBounds h hcount hfit hB hi) e
    obtain rfl : m' = m := Option.some.inj (hm'.symm.trans hm)
    have hrem := sum_length_update (Finset.mem_univ i) htodo
    refine ⟨⟨hw.sized, h.settings.trans hw.settings, ?_, ?_, ?_, ?_, ?_⟩, ?_⟩
    · rw [hw.active, h.active]
    · rw [hw.cursor, h.cursor, List.length_append, List.length_singleton]
    · intro k x hk
      rw [hw.slot, h.active, h.cursor]
      rw [entries, List.map_append] at hk
      rcases Nat.lt_trichotomy k s.locked.length with hlt | rfl | hgt
      · rw [List.getElem?_append_left (by simpa using hlt)] at hk
        rw [if_neg (by omega)]
        exact h.rows k x hk
      · rw [List.getElem?_append_right (by simp)] at hk
        simp at hk
        rw [if_pos ⟨rfl, rfl⟩, hk]
      · rw [List.getElem?_eq_none (by simp; omega)] at hk
        cases hk
    · intro j hj
      by_cases hji : j = i
      · simp [hji] at hj
      · simp only [Function.update_of_ne hji] at hj ⊢
        exact h.pending j hj
    · intro j
      have hj := h.callOrder j
      rw [finished] at hj ⊢
      rw [finished_snoc]
      by_cases hji : j = i
      · subst hji
        rw [htodo] at hj
        simpa using hj
      · rw [if_neg (Ne.symm hji), List.append_nil]
        show _ ++ Function.update s.todo i rest j = calls j
        rw [Function.update_of_ne hji]
        exact hj
    · show (s.locked ++ [(i, e)]).length + ∑ j, (Function.update s.todo i rest j).length = n
      rw [List.length_append, List.length_singleton]
      unfold remaining at hcount
      omega

/-- **Every run** of at most `entry_count` calls keeps the invariant, whatever
the callers' order. -/
theorem recording_reaches (hm : m₀.Sized) (hactive : m₀.activeBuffer = 0)
    (hcursor : m₀.entryCursor = 0) (hB : 1 ≤ m₀.bufferCount.toNat)
    (hfit : ∑ i, (calls i).length ≤ m₀.entryCount.toNat) {s : Recorder ι}
    (hs : Reaches step (start m₀ calls) s) :
    Recording m₀ calls s ∧ s.locked.length + s.remaining = ∑ i, (calls i).length := by
  refine hs.invariant (P := fun s => Recording m₀ calls s ∧
    s.locked.length + s.remaining = ∑ i, (calls i).length) ?_ ?_
  · exact ⟨recording_start hm hactive hcursor, by simp [start, remaining]⟩
  · rintro t a u - ⟨hrec, hcount⟩ hstep
    exact recording_step hrec hcount hfit hB hstep

end ShortRuns

end Recorder

end MockMessageBoard
