import MockMessageBoard.Analysis.Traces
import MockMessageBoard.Board.Completion
import MockMessageBoard.Stats.Interrupt

/-!
# MockMessageBoard — from racing threads to the merged frame

The threads of a process get at its manager in any order, each call of `add_entry` in two
halves. The manager is destroyed when all of the calls are made, except in a client whose
main is left by an exception. What is recorded for one query is recorded one entry after
the other, on whatever threads, so for the traces the queries take the places of the
callers.

* `recordedRows_eq` — what is read back from the file;
* `traces_faithful` — what the analysis makes of the files.
-/

namespace MockMessageBoard

open TextFile Groups Tables Rpc State Transition ServerStatsManager

variable {τ : Type}

-- ---------------------------------------------------------------------------
-- The file of a process
-- ---------------------------------------------------------------------------

/-- The manager of a process and its file, from the start. The manager has the default
arguments. -/
def newManager (svc : Service) (fs : FileSystem) : ServerStatsManager × FileSystem :=
  new (statsFile svc) false defaultEntryCount 2 false true fs

/-- The main of a client is left by an exception: it waits for its replies, and the call of
a query has raised. Its manager is not destroyed then. -/
def aborted (b : Board) (s : Board.State) : Service → Bool
  | .client pid => b.clientSync pid && (List.range (b.queries pid).length).any fun i =>
      (s.calls ⟨⟨pid, i⟩, 0⟩).any Call.raised
  | _ => false

theorem aborted_eq_false {b : Board} {s : Board.State} {svc : Service}
    (h : ∀ pid i call, svc = .client pid → b.clientSync pid = true → i < (b.queries pid).length →
      s.calls ⟨⟨pid, i⟩, 0⟩ = some call → call.phase ≠ .returned .raised) :
    aborted b s svc = false := by
  cases svc with
  | client pid =>
    by_contra habort
    simp only [aborted, Bool.not_eq_false, Bool.and_eq_true, List.any_eq_true, List.mem_range,
      Option.any_eq_true_iff_get] at habort
    obtain ⟨hsync, i, hi, hcall, hraised⟩ := habort
    exact h pid i _ rfl hsync hi (Option.some_get hcall).symm (Call.raised_iff.mp hraised)
  | _ => rfl

/-- The rows that `read_csv` finds in the file of a process. -/
def recordedRows {ι : Type} (b : Board) (s : Board.State) (svc : Service) (fs : FileSystem)
    (m : Recorder ι) : Option (List Entry) := do
  let (_, fs) := newManager svc fs
  -- without the destructor the file stays as the constructor has left it
  let fs ← if aborted b s svc then some fs else m.manager.destroy fs
  let t ← fs (statsFile svc)
  let rows ← readCsv t
  rows.mapM nameColumns

/-- The manager after the calls, in whatever order their halves came. -/
def Recorded {ι : Type} [DecidableEq ι] (svc : Service) (fs : FileSystem)
    (calls : ι → List Entry) (m : Recorder ι) : Prop :=
  Reaches Recorder.step (.start (newManager svc fs).1 calls) m ∧ ∀ i, m.todo i = []

theorem recordedRows_aborted {ι : Type} {b : Board} {s : Board.State} {svc : Service}
    (habort : aborted b s svc = true) (fs : FileSystem) (m : Recorder ι) :
    recordedRows b s svc fs m = some [] := by
  have herased : (newManager svc fs).2 (statsFile svc) = some [] :=
    eraseFile_same fs (statsFile_ne_nil svc)
  unfold recordedRows
  simp only [habort, if_true, Option.bind_eq_bind, Option.bind_some, herased]
  rfl

section Recorded

variable {ι : Type} [DecidableEq ι] {svc : Service} {fs : FileSystem} {calls : ι → List Entry}
  {m : Recorder ι} (h : Recorded svc fs calls m)

include h

theorem Recorded.current : Recorder.Current (newManager svc fs).1 calls m :=
  Recorder.current_reaches (sized_init ..) rfl rfl (show 1 ≤ defaultEntryCount.toNat by decide)
    (show 1 ≤ (2 : UInt32).toNat by decide) h.1

/-- The entries of a caller are locked in their order. -/
theorem Recorded.finished_eq (i : ι) : m.finished i = calls i := by
  have horder := h.current.callOrder i
  rwa [h.2 i, List.append_nil] at horder

/-- Nothing is lost or added. -/
theorem Recorded.entries_eq_sum [Fintype ι] :
    (m.entries : Multiset Entry) = ∑ i, (calls i : Multiset Entry) := by
  rw [Recorder.entries, Recorder.coe_map_snd_eq_sum]
  exact Finset.sum_congr rfl fun i _ => congrArg _ (h.finished_eq i)

/-- **What is read back** is the last block of what was recorded, in the order of the
lock. -/
theorem recordedRows_eq {b : Board} {s : Board.State} (hlive : aborted b s svc = false) :
    recordedRows b s svc fs m = some (lastBlock 32768 m.entries) := by
  obtain ⟨rounds, fs', hdestroy, hfile, hlen, hcurrent⟩ :=
    Recorder.destroy_recorder (show 1 ≤ defaultEntryCount by decide)
      (show (1 : UInt32) ≤ 2 by decide) (statsFile_ne_nil svc) false false fs h.1
  have hidle : ∀ i, m.tested i = false := by
    intro i
    by_contra hbusy
    exact hcurrent.pending i (by simpa using hbusy) (h.2 i)
  have hcount : m.manager.entryCount = defaultEntryCount := hcurrent.settings.entryCount
  rw [hcurrent.drop_eq hcount (by decide) hlen hidle] at hfile
  unfold recordedRows newManager
  simp only [hlive, Bool.false_eq_true, if_false]
  rw [hdestroy, Option.bind_eq_bind, Option.bind_some, hfile, Option.bind_eq_bind,
    Option.bind_some]
  exact readCsv_nameColumns _

end Recorded

-- ---------------------------------------------------------------------------
-- The queries as callers
-- ---------------------------------------------------------------------------

/-- The calls of `add_entry` that a process makes for a query. -/
def callsFor (epoch : Nat → UInt64) (s : Board.State) (svc : Service) (uid : UInt64) :
    List Entry := (entries epoch s svc).filter fun e => e.queryId = uid

section Queries

variable {epoch : Nat → UInt64} {s : Board.State} {svc : Service} {fs : FileSystem}
  {m : Recorder UInt64} (h : Recorded svc fs (callsFor epoch s svc) m)

include h

/-- Who has locked an entry is the query it is about. -/
theorem Recorded.queryId_eq {uid : UInt64} {e : Entry} (he : (uid, e) ∈ m.locked) :
    e.queryId = uid := by
  have hmem : e ∈ m.finished uid :=
    List.mem_map.mpr ⟨(uid, e), List.mem_filter.mpr ⟨he, decide_eq_true rfl⟩, rfl⟩
  rw [h.finished_eq uid] at hmem
  exact of_decide_eq_true (List.mem_filter.mp hmem).2

theorem Recorded.filter_entries (uid : UInt64) :
    (m.entries.filter fun e => e.queryId = uid) = callsFor epoch s svc uid := by
  rw [← h.finished_eq uid, Recorder.finished, Recorder.entries, List.filter_map]
  refine congrArg (List.map Prod.snd) (List.filter_congr fun x hx => ?_)
  obtain ⟨uid', e⟩ := x
  exact decide_eq_decide.mpr (by rw [h.queryId_eq hx])

/-- Nothing is lost or added. -/
theorem Recorded.perm : m.entries.Perm (entries epoch s svc) := by
  refine List.perm_iff_count.mpr fun e => ?_
  have hcount : ∀ l : List Entry,
      l.count e = (l.filter fun e' => e'.queryId = e.queryId).count e := by
    intro l
    rw [List.count_filter]
    exact decide_eq_true rfl
  rw [hcount, hcount (entries epoch s svc), h.filter_entries]
  rfl

theorem Recorded.timesOf_eq (uid : UInt64) :
    timesOf m.entries uid = timesOf (entries epoch s svc) uid :=
  congrArg (List.map Entry.epochTime) (h.filter_entries uid)

end Queries

/-- The threads can make the calls. -/
theorem exists_recorded {epoch : Nat → UInt64} {s : Board.State} {svc : Service}
    (hfew : (entries epoch s svc).length ≤ 32768) (fs : FileSystem) :
    ∃ m, Recorded svc fs (callsFor epoch s svc) m := by
  set queries := ((entries epoch s svc).map Entry.queryId).toFinset with hqueries
  have hmem : ∀ e ∈ entries epoch s svc, e.queryId ∈ queries := by
    intro e he
    rw [hqueries, List.mem_toFinset]
    exact List.mem_map_of_mem he
  have hsum : ∑ uid ∈ queries, (callsFor epoch s svc uid).length =
      (entries epoch s svc).length := (length_eq_sum_group Entry.queryId hmem).symm
  obtain ⟨m, hfilled⟩ := Recorder.exists_filled
    (s := Recorder.start (newManager svc fs).1 (callsFor epoch s svc)) (S := queries)
    (sized_init ..) (show (0 : UInt32) < 2 by decide)
    (show 0 + (entries epoch s svc).length ≤ _ from (Nat.zero_add _).trans_le hfew)
    (fun _ _ => rfl) hsum.ge
  refine ⟨m, hfilled.reaches, fun uid => ?_⟩
  by_cases huid : uid ∈ queries
  · have hmade : ∑ uid ∈ queries, (m.todo uid).length + (entries epoch s svc).length =
        ∑ uid ∈ queries, (callsFor epoch s svc uid).length := hfilled.made
    have hzero : ∑ uid ∈ queries, (m.todo uid).length = 0 := by omega
    exact List.length_eq_zero_iff.mp (Finset.sum_eq_zero_iff.mp hzero uid huid)
  · rw [(hfilled.others uid huid).1]
    refine List.filter_eq_nil_iff.mpr fun e he hquery => huid ?_
    exact of_decide_eq_true hquery ▸ hmem e he

/--
**The traces of a run.** In every state of a run of one client with at most 16384 queries
and distinct uids, on any clock that does not go back, and whatever the order in which the
threads of the processes get at their managers, the files can be read. If the main of the
client has been left by an exception, its file is empty. Otherwise they can be merged as
soon as the client has recorded an entry. The rows of `all` are the queries that the client
has recorded, and the times of a row, from the client down and back up, do not go back. A
query that was answered has one row, and in it the times of exactly the services that the
query does not pass are missing, and the end of SanitizationService if it was rejected.
-/
theorem traces_faithful [LE τ] {merge : MergeOp QueryKey τ} {select : SelectOp QueryKey τ}
    (hmerge : OuterMerge QueryKey.le merge) (hselect : Selection select) {b : Board}
    {s : Board.State} (hreach : b.Reachable s) {pid : Nat}
    (honly : ∀ p, p ≠ pid → b.queries p = []) (hdistinct : b.DistinctUids)
    (hfew : (b.queries pid).length ≤ 16384) (hstarted : recordedBy s (.client pid) ≠ [])
    {epoch : Nat → UInt64} (hclock : ∀ t t', t ≤ t' → epoch t ≤ epoch t')
    {scale : UInt64 → τ} (hscale : ∀ t t', t ≤ t' → scale t ≤ scale t')
    {fs : Service → FileSystem} {m : Service → Recorder UInt64}
    (hrecorded : ∀ svc, Recorded svc (fs svc) (callsFor epoch s svc) (m svc)) :
    ∃ rows, (∀ svc, recordedRows b s svc (fs svc) (m svc) = some (rows svc)) ∧
      (aborted b s (.client pid) = true → rows (.client pid) = []) ∧
      (aborted b s (.client pid) = false →
        ∃ f, all merge select scale (filesOf pid rows) = some f ∧ f.columns = allColumns ∧
          (∀ row ∈ f.rows, (∃ q ∈ b.queries pid, row.1 = queryKey q.uid) ∧
            row.2.reduceOption.Pairwise (· ≤ ·)) ∧
          ∀ (i : Nat) (q : Query), (b.queries pid)[i]? = some q →
            (queryKey q.uid ∈ f.index ↔ recordsOf s ⟨⟨pid, i⟩, 0⟩ ≠ []) ∧
            ∀ call v, s.calls ⟨⟨pid, i⟩, 0⟩ = some call → call.phase = .returned (.value v) →
              ∃ cells, f.under (queryKey q.uid) = [cells] ∧
                cells.map Option.isSome = q.marks) := by
  have hrows : ∀ svc, recordedRows b s svc (fs svc) (m svc) =
      some (if aborted b s svc then [] else (m svc).entries) := by
    intro svc
    cases habort : aborted b s svc with
    | true => exact recordedRows_aborted habort ..
    | false =>
      rw [recordedRows_eq (hrecorded svc) habort, lastBlock_of_le]
      · rfl
      · rw [(hrecorded svc).perm.length_eq]
        exact length_entries_le hreach honly hfew epoch svc
  refine ⟨_, hrows, fun habort => if_pos habort, fun hlive => ?_⟩
  have hnone : ∀ svc, aborted b s svc = false := by
    intro svc
    cases svc with
    | client p =>
      by_cases hp : p = pid
      · exact hp ▸ hlive
      · refine aborted_eq_false fun p' i call hp' _ hi => ?_
        cases hp'
        rw [honly p hp] at hi
        exact absurd hi (Nat.not_lt_zero i)
    | _ => rfl
  simp only [hnone, Bool.false_eq_true, if_false]
  exact traces_of_order hmerge hselect hreach honly hdistinct hstarted hclock hscale
    (fun svc => (hrecorded svc).perm) fun svc => (hrecorded svc).timesOf_eq

/-- The traces of a `send` that is stored. -/
theorem traces_faithful_hi :
    ∃ (s : Board.State) (m : Service → Recorder UInt64) (rows : Service → List Entry)
      (f : Frame QueryKey Nat), (oneSender "hi".toList).Reachable s ∧
      (∀ svc, recordedRows (oneSender "hi".toList) s svc (fun _ => none) (m svc) =
        some (rows svc)) ∧
      all (fullJoin QueryKey.le) selectColumns UInt64.toNat (filesOf 0 rows) = some f ∧
      ∃ cells, f.under (queryKey 0) = [cells] ∧
        cells.map Option.isSome = [true, true, true, true, true, true, true, true] := by
  obtain ⟨s, hs, hcall, -⟩ := hi_answered
  have honly : ∀ p, p ≠ 0 → (oneSender "hi".toList).queries p = [] :=
    fun p hp => oneSender_finite _ p (Nat.one_le_iff_ne_zero.mpr hp)
  obtain ⟨e₁, e₂, hrecords, -⟩ := spanned_of_returned hs hcall rfl id
  have hrecorded : e₁ ∈ recordedBy s (.client 0) := by
    have hrec : e₁ ∈ recordsOf s ⟨⟨0, 0⟩, 0⟩ := hrecords ▸ List.mem_cons_self
    obtain ⟨hmem, hec⟩ := mem_history_of_recordsOf hrec
    refine mem_recordedBy.mpr ⟨hmem, (List.mem_filter.mp hrec).2, ?_⟩
    rw [svc_of_root hs hmem (by rw [hec]), hec]
  choose m hm using fun svc => exists_recorded
    (length_entries_le hs honly (show 1 ≤ 16384 by decide) tickOnce svc) fun _ => none
  obtain ⟨rows, hrows, -, hmerged⟩ := traces_faithful (outerMerge_fullJoin QueryKey.le)
    selection_selectColumns hs honly
    (fun r r' q q' hq hq' _ => (oneSender_query hq).trans (oneSender_query hq').symm) (by decide)
    (List.ne_nil_of_mem hrecorded) tickOnce_le (fun _ _ h => UInt64.le_iff_toNat_le.mp h) hm
  obtain ⟨f, hf, -, -, hqueries⟩ := hmerged rfl
  exact ⟨s, m, rows, f, hs, hrows, hf, (hqueries 0 _ rfl).2 _ _ hcall rfl⟩

end MockMessageBoard
