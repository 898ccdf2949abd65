import MockMessageBoard.Analysis.RelativeTimes

/-!
# MockMessageBoard — the stress run

`server_stats_stress` drives a manager by itself. Each turn makes two entries, and
both carry the time that was read before the first, although the turn sleeps in
between.

* `stress_spans` — what the analysis makes of the file of such a run.
-/

namespace MockMessageBoard

open TextFile Groups ServerStatsManager

variable {τ : Type}

/-- `server_stats_stress`, where the clock shows `now i` in turn `i`. -/
def serverStatsStress (manager : ServerStatsManager) (entryTestNumber : UInt32)
    (now : Nat → UInt64) : Option ServerStatsManager :=
  (List.range entryTestNumber.toNat).foldlM (fun manager i => do
    let epochTimeMs := now i
    let manager ← manager.addEntry ⟨UInt64.ofNat i, epochTimeMs⟩
    -- `sleep_for(waiting_time)`: the clock is not read again
    manager.addEntry ⟨UInt64.ofNat i, epochTimeMs⟩) manager

/-- The rows that `read_csv` finds in the file of a manager that was stressed and then
destroyed. -/
def stressRows (filename : Path) (entryCount bufferCount entryTestNumber : UInt32)
    (now : Nat → UInt64) (fs : FileSystem) : Option (List Entry) := do
  let (manager, fs) := new filename false entryCount bufferCount false true fs
  let manager ← serverStatsStress manager entryTestNumber now
  let fs ← manager.destroy fs
  let t ← fs filename
  let rows ← readCsv t
  rows.mapM nameColumns

/-- The entries of the turns `s`, …, `s + n - 1`. -/
def turns (now : Nat → UInt64) (s n : Nat) : List Entry :=
  (List.range' s n).flatMap fun i => [⟨UInt64.ofNat i, now i⟩, ⟨UInt64.ofNat i, now i⟩]

theorem turns_succ (now : Nat → UInt64) (s n : Nat) :
    turns now s (n + 1) =
      List.replicate 2 ⟨UInt64.ofNat s, now s⟩ ++ turns now (s + 1) n := rfl

theorem length_turns (now : Nat → UInt64) (s n : Nat) : (turns now s n).length = 2 * n := by
  induction n generalizing s with
  | zero => rfl
  | succ n ih =>
    rw [turns_succ, List.length_append, List.length_replicate, ih]
    omega

theorem serverStatsStress_eq (manager : ServerStatsManager) (entryTestNumber : UInt32)
    (now : Nat → UInt64) :
    serverStatsStress manager entryTestNumber now =
      (turns now 0 entryTestNumber.toNat).foldlM addEntry manager := by
  unfold serverStatsStress
  rw [List.range_eq_range']
  generalize entryTestNumber.toNat = n, 0 = s
  induction n generalizing s manager with
  | zero => rfl
  | succ n ih =>
    rw [List.range'_succ, turns_succ, List.foldlM_cons, List.foldlM_append,
      funext fun m => ih m (s + 1)]
    simp [List.replicate_succ]

theorem timesOf_append (es es' : List Entry) (uid : UInt64) :
    timesOf (es ++ es') uid = timesOf es uid ++ timesOf es' uid := by
  rw [timesOf, List.filter_append, List.map_append, timesOf, timesOf]

theorem timesOf_replicate (k : Nat) (e : Entry) (uid : UInt64) :
    timesOf (List.replicate k e) uid =
      if e.queryId = uid then List.replicate k e.epochTime else [] := by
  rw [timesOf, List.filter_replicate]
  by_cases h : e.queryId = uid <;> simp [h]

/-- The times of a query among the entries from `lost` on: its turn keeps two of them,
or one, or none. -/
theorem timesOf_drop_turns (now : Nat → UInt64) {s n : Nat} (hsn : s + n ≤ 2 ^ 64) (lost : Nat)
    (uid : UInt64) :
    timesOf ((turns now s n).drop lost) uid =
      if s ≤ uid.toNat ∧ uid.toNat < s + n then
        List.replicate (min 2 (2 * (uid.toNat - s + 1) - lost)) (now uid.toNat)
      else [] := by
  induction n generalizing s lost with
  | zero =>
    rw [if_neg (by omega)]
    simp [turns, timesOf]
  | succ n ih =>
    have hown : UInt64.ofNat s = uid ↔ s = uid.toNat := by
      rw [← UInt64.toNat_inj, UInt64.toNat_ofNat', Nat.mod_eq_of_lt (by omega)]
    rw [turns_succ, List.drop_append, List.drop_replicate, List.length_replicate, timesOf_append,
      timesOf_replicate, ih (by omega)]
    by_cases hs : s = uid.toNat
    · rw [if_pos (hown.mpr hs), if_neg (by omega), if_pos (by omega), List.append_nil, hs,
        Nat.sub_self]
      congr 1
      omega
    · rw [if_neg (mt hown.mp hs), List.nil_append]
      by_cases hin : s + 1 ≤ uid.toNat ∧ uid.toNat < s + 1 + n
      · rw [if_pos hin, if_pos (by omega)]
        congr 1
        omega
      · rw [if_neg hin, if_neg (by omega)]

/-- What is read back is the last block of the entries. -/
theorem stressRows_eq {entryCount bufferCount : UInt32} (hC : 1 ≤ entryCount)
    (hB : 1 ≤ bufferCount) {filename : Path} (hname : filename ≠ []) (entryTestNumber : UInt32)
    (now : Nat → UInt64) (fs : FileSystem) :
    stressRows filename entryCount bufferCount entryTestNumber now fs =
      some (lastBlock entryCount.toNat (turns now 0 entryTestNumber.toNat)) := by
  set es := turns now 0 entryTestNumber.toNat with hes
  have hfile := vectorRecord_eq hC hB filename false true es fs
  have hrecord : stressRows filename entryCount bufferCount entryTestNumber now fs =
      (ServerStatsManager.record filename false entryCount bufferCount false true es fs).bind
        fun fs => (fs filename).bind fun t => (readCsv t).bind fun rows =>
          rows.mapM nameColumns := by
    simp only [stressRows, serverStatsStress_eq, ServerStatsManager.record, ← hes,
      Option.bind_eq_bind, Option.bind_assoc]
  rw [hrecord, hfile, Option.bind_some]
  simp only [fileMode, Bool.false_eq_true, if_false]
  rw [writeText_app_same _ hname, eraseFile_same _ hname]
  simp only [Option.getD_some, List.nil_append, Option.bind_some]
  exact readCsv_nameColumns _

/-- The entries that are lost of a stress run with `n` turns, on buffers of `c` entries. -/
def lostEntries (c n : Nat) : Nat := c * ((2 * n - 1) / c)

theorem timesOf_lastBlock_turns (now : Nat → UInt64) {n : Nat} (hn : n ≤ 2 ^ 64) (c : Nat)
    (uid : UInt64) :
    timesOf (lastBlock c (turns now 0 n)) uid =
      if uid.toNat < n then
        List.replicate (min 2 (2 * (uid.toNat + 1) - lostEntries c n)) (now uid.toNat)
      else [] := by
  unfold lastBlock
  rw [length_turns, ← lostEntries, timesOf_drop_turns now (by omega), Nat.sub_zero, Nat.zero_add]
  simp only [Nat.zero_le, true_and]

/--
**The stress run.** Stress a fresh manager, destroy it and analyse its file. A query of
which both entries are kept has a span, and a span of no length; one of which the second
entry is the first that is kept has a start and no end; of the others nothing is found.
-/
theorem stress_spans {entryCount bufferCount : UInt32} (hC : 1 ≤ entryCount)
    (hB : 1 ≤ bufferCount) {filename : Path} (hname : filename ≠ []) (entryTestNumber : UInt32)
    (now : Nat → UInt64) (fs : FileSystem) (scale : UInt64 → τ) (timeStart : Option UInt64) :
    ∃ rows, stressRows filename entryCount bufferCount entryTestNumber now fs = some rows ∧
      ∀ uid,
        let lost := lostEntries entryCount.toNat entryTestNumber.toNat
        let time := scale (now uid.toNat - (timeStart <|> minEpochTime rows).getD 0)
        spansOf (treatData scale rows timeStart).1 uid =
          if entryTestNumber.toNat ≤ uid.toNat ∨ 2 * uid.toNat + 1 < lost then []
          else if 2 * uid.toNat + 1 = lost then [(time, none)]
          else [(time, some time)] := by
  refine ⟨_, stressRows_eq hC hB hname entryTestNumber now fs, fun uid => ?_⟩
  intro lost time
  have hrange := entryTestNumber.toNat_lt
  rw [spansOf_treatData, timesOf_lastBlock_turns now (by omega)]
  change firstTwo _ (if _ then List.replicate (min 2 (2 * (uid.toNat + 1) - lost)) _ else _) = _
  by_cases hin : uid.toNat < entryTestNumber.toNat
  · rw [if_pos hin]
    rcases Nat.lt_trichotomy (2 * uid.toNat + 1) lost with hboth | hone | hnone
    · rw [if_pos (.inr hboth), show 2 * (uid.toNat + 1) - lost = 0 by omega]
      rfl
    · rw [if_neg (by omega), if_pos hone, show 2 * (uid.toNat + 1) - lost = 1 by omega]
      rfl
    · rw [if_neg (by omega), if_neg (by omega), Nat.min_eq_left (by omega)]
      rfl
  · rw [if_neg hin, if_pos (.inl (Nat.le_of_not_lt hin))]
    rfl

/-- Two turns on buffers of three entries: the second turn keeps its second entry only. -/
theorem stress_spans_cut :
    ∃ rows, stressRows ['f'] 3 2 2 UInt64.ofNat (fun _ => none) = some rows ∧
      spansOf (treatData UInt64.toNat rows (some 0)).1 1 = [(1, none)] := by
  obtain ⟨rows, hrows, hspans⟩ := stress_spans (show (1 : UInt32) ≤ 3 by decide)
    (show (1 : UInt32) ≤ 2 by decide) (show ['f'] ≠ [] by decide) 2 UInt64.ofNat
    (fun _ => none) UInt64.toNat (some 0)
  refine ⟨rows, hrows, (hspans 1).trans ?_⟩
  rw [if_neg (by decide), if_pos (by decide)]
  simp

end MockMessageBoard
