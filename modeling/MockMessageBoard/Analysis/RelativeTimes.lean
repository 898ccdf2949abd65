import MockMessageBoard.Analysis.TreatData
import MockMessageBoard.Analysis.Uids
import MockMessageBoard.Board.Records
import MockMessageBoard.Stats.Csv

/-!
# MockMessageBoard — times relative to the client's first

`treat_data` subtracts the smallest time in the client's file, as an unsigned
word, from every time in the files of the services. The client's entry comes
before those of the services; but a file has only what its ring still holds, and
the client fills its ring first, with two entries for each query.

* `statsRows_eq`       — what is read back from the file of a process;
* `times_exact`        — a client that does not rotate its ring is the first one;
* `times_wrap`         — one that does need not be;
* `relative_times_iff` — how often the loop may run.
-/

namespace MockMessageBoard

open TextFile Rpc State Transition ServerStatsManager

-- ---------------------------------------------------------------------------
-- The files
-- ---------------------------------------------------------------------------

/-- The file of each process. -/
def statsFile : Service → Path
  | .client _ => "/app/src/build/stats_files/client_stats.csv".toList
  | .messageService => "/app/src/build/stats_files/message_service_stats.csv".toList
  | .sanitizationService => "/app/src/build/stats_files/sanitization_service_stats.csv".toList
  | .mockDatabase => "/app/src/build/stats_files/mock_database_stats.csv".toList

/-- A row under the names `query_uid` and `epoch_time`. -/
def nameColumns : List UInt64 → Option Entry
  | [queryUid, epochTime] => some ⟨queryUid, epochTime⟩
  | _ => none

theorem readCsv_nameColumns (es : List Entry) :
    ((readCsv (entryText es)).bind fun rows => rows.mapM nameColumns) = some es := by
  rw [readCsv_entryText, Option.bind_some]
  exact mapM_map_of_left_inv fun _ _ => rfl

/-- The rows that `read_csv` finds in the file of a process that has called
`add_entry` with `es`, in this order, and then destroyed its manager. The
manager has the default arguments. -/
def statsRows (svc : Service) (es : List Entry) (fs : FileSystem) : Option (List Entry) := do
  let fs ← ServerStatsManager.record (statsFile svc) false defaultEntryCount 2 false true es fs
  let t ← fs (statsFile svc)
  let rows ← readCsv t
  rows.mapM nameColumns

/-- The entries of a process, stamped by the clock. -/
def entries (epoch : Nat → UInt64) (s : Board.State) (svc : Service) : List Entry :=
  (recordedBy s svc).filterMap fun e =>
    match e.act with
    | .record uid => some ⟨uid, epoch e.time⟩
    | _ => none

/-- The processes whose times are related to the client's. -/
def backends : List Service := [.messageService, .sanitizationService, .mockDatabase]

/-- With the smallest time of the client's rows as `time_start`, no subtraction in
the rows of the others wraps. -/
def RelativeTimesExact (pid : Nat) (rows : Service → Option (List Entry)) : Prop :=
  ∃ df timeStart, rows (.client pid) = some df ∧ minEpochTime df = some timeStart ∧
    ∀ svc ∈ backends, ∃ df', rows svc = some df' ∧ ∀ e ∈ df', timeStart ≤ e.epochTime ∧
      (e.epochTime - timeStart).toNat = e.epochTime.toNat - timeStart.toNat

theorem statsFile_ne_nil (svc : Service) : statsFile svc ≠ [] := by
  unfold statsFile
  split <;> exact mt String.toList_eq_nil_iff.mp (by decide)

/-- **What is read back** is the last block of the entries. -/
theorem statsRows_eq (svc : Service) (es : List Entry) (fs : FileSystem) :
    statsRows svc es fs = some (lastBlock 32768 es) := by
  have hne := statsFile_ne_nil svc
  have hfile := vectorRecord_eq (show 1 ≤ defaultEntryCount by decide)
    (show (1 : UInt32) ≤ 2 by decide) (statsFile svc) false true es fs
  have hnamed : ((lastBlock 32768 es).map Entry.row).mapM nameColumns =
      some (lastBlock 32768 es) :=
    mapM_map_of_left_inv fun _ _ => rfl
  unfold statsRows
  rw [hfile, Option.bind_eq_bind, Option.bind_some]
  simp only [fileMode, Bool.false_eq_true, if_false]
  rw [writeText_app_same _ hne, eraseFile_same _ hne]
  simp only [Option.getD_some, List.nil_append, Option.bind_eq_bind, Option.bind_some]
  rw [readCsv_entryText, Option.bind_some]
  exact hnamed

theorem mem_of_mem_lastBlock {c : Nat} {es : List Entry} {e : Entry} (h : e ∈ lastBlock c es) :
    e ∈ es :=
  List.mem_of_mem_drop h

theorem lastBlock_ne_nil {c : Nat} {es : List Entry} (h : es ≠ []) : lastBlock c es ≠ [] := by
  have hpos := List.length_pos_iff.mpr h
  have hle := Nat.mul_div_le (es.length - 1) c
  unfold lastBlock
  rw [ne_eq, List.drop_eq_nil_iff]
  omega

-- ---------------------------------------------------------------------------
-- The entries
-- ---------------------------------------------------------------------------

variable {epoch : Nat → UInt64} {s : Board.State} {svc : Service}

theorem mem_entries {x : Entry} :
    x ∈ entries epoch s svc ↔
      ∃ e ∈ recordedBy s svc, e.act = .record x.queryId ∧ x.epochTime = epoch e.time := by
  unfold entries
  rw [List.mem_filterMap]
  refine exists_congr fun e => and_congr_right fun _ => ?_
  obtain ⟨c, svc, seq, time, act⟩ := e
  cases act with
  | record uid =>
    obtain ⟨queryId, epochTime⟩ := x
    simp [eq_comm]
  | _ => simp

/-- An entry for each record. -/
theorem exists_entry (epoch : Nat → UInt64) {e : Event sig} (he : e ∈ recordedBy s svc) :
    ∃ x ∈ entries epoch s svc, x.epochTime = epoch e.time := by
  obtain ⟨uid, hact⟩ := Act.isRecord_iff.mp (mem_recordedBy.mp he).2.1
  exact ⟨⟨uid, epoch e.time⟩, mem_entries.mpr ⟨e, he, hact, rfl⟩, rfl⟩

theorem length_entries (epoch : Nat → UInt64) (s : Board.State) (svc : Service) :
    (entries epoch s svc).length = (recordedBy s svc).length := by
  unfold entries
  rw [List.length_filterMap_eq_countP, List.countP_eq_length]
  intro e he
  obtain ⟨uid, hact⟩ := Act.isRecord_iff.mp (mem_recordedBy.mp he).2.1
  simp only [hact, Option.isSome_some]

/-- A longer history has more entries at its end. -/
theorem entries_append (epoch : Nat → UInt64) (svc : Service) {t : Board.State}
    {es : List (Event sig)} (hsplit : t.history = s.history ++ es) :
    ∃ new, entries epoch t svc = entries epoch s svc ++ new ∧
      ∀ x ∈ new, ∃ e ∈ es, x.epochTime = epoch e.time := by
  unfold entries recordedBy
  rw [hsplit, List.filter_append, List.filterMap_append]
  refine ⟨_, rfl, fun x hx => ?_⟩
  obtain ⟨e, he, hsome⟩ := List.mem_filterMap.mp hx
  refine ⟨e, (List.mem_filter.mp he).1, ?_⟩
  split at hsome
  · rw [← Option.some.inj hsome]
  · cases hsome

/-- The smallest time of a table with rows is that of a row. -/
theorem exists_minEpochTime {df : List Entry} (h : df ≠ []) :
    ∃ timeStart, minEpochTime df = some timeStart ∧ (∃ e ∈ df, e.epochTime = timeStart) ∧
      ∀ e ∈ df, timeStart ≤ e.epochTime := by
  unfold minEpochTime
  cases hmin : (df.map Entry.epochTime).min? with
  | none =>
    rw [List.min?_eq_none_iff, List.map_eq_nil_iff] at hmin
    exact absurd hmin h
  | some timeStart =>
    obtain ⟨hmem, hle⟩ := List.min?_eq_some_iff.mp hmin
    obtain ⟨e, he, htime⟩ := List.mem_map.mp hmem
    exact ⟨timeStart, rfl, ⟨e, he, htime⟩, fun e he => hle _ (List.mem_map_of_mem he)⟩

-- ---------------------------------------------------------------------------
-- A client that does not rotate its ring
-- ---------------------------------------------------------------------------

theorem ne_client_of_mem_backends (hsvc : svc ∈ backends) (pid : Nat) : svc ≠ .client pid := by
  rintro rfl
  simp [backends] at hsvc

/-- With one client everything serves one of its queries. -/
theorem request_of_event {b : Board} (hreach : b.Reachable s) {pid : Nat}
    (honly : ∀ p, p ≠ pid → b.queries p = []) {e : Event sig} (he : e ∈ s.history) :
    ∃ i < (b.queries pid).length, e.call.request = ⟨pid, i⟩ := by
  obtain ⟨call, hcall, -⟩ := known_reaches hreach e he
  obtain ⟨q, hq, -⟩ := requestAt_of_call hreach hcall
  obtain ⟨⟨⟨p, i⟩, d⟩, svc, seq, time, act⟩ := e
  by_cases hp : p = pid
  · subst hp
    exact ⟨i, (List.getElem?_eq_some_iff.mp hq).1, rfl⟩
  · have hnone : (b.queries p)[i]? = some q := hq
    rw [honly p hp] at hnone
    cases hnone

/-- **The client's file has the first entry of all**, if the client records no more
than its ring holds. -/
theorem times_exact {b : Board} (hreach : b.Reachable s) {pid : Nat}
    (hpos : 0 < (b.queries pid).length) (hfits : (b.queries pid).length ≤ 16384)
    (honly : ∀ p, p ≠ pid → b.queries p = []) (hdone : SummaryRuns b s pid)
    (hclock : ∀ t t', t ≤ t' → epoch t ≤ epoch t') {order : Service → List Entry}
    (horder : ∀ svc, (order svc).Perm (entries epoch s svc)) (fs : Service → FileSystem) :
    RelativeTimesExact pid fun svc => statsRows svc (order svc) (fs svc) := by
  have hall : lastBlock 32768 (order (.client pid)) = order (.client pid) := by
    refine lastBlock_of_le ?_
    have hlen := length_recordedBy_le hreach pid
    rw [(horder _).length_eq, length_entries]
    omega
  have hnonempty : order (.client pid) ≠ [] := by
    obtain ⟨call, o, hcall, hphase, -⟩ := hdone 0 hpos
    obtain ⟨f, hf, hfc, -⟩ := mem_trail.mp (finish_of_returned hreach hcall hphase)
    obtain ⟨e, he, -⟩ := exists_first_record hreach hf
    rw [svc_of_root hreach hf (by rw [hfc]), hfc] at he
    obtain ⟨x, hx, -⟩ := exists_entry epoch he
    exact List.ne_nil_of_mem ((horder _).mem_iff.mpr hx)
  obtain ⟨timeStart, hmin, -, hle⟩ := exists_minEpochTime hnonempty
  refine ⟨order (.client pid), timeStart, ?_, hmin, fun svc hsvc => ?_⟩
  · exact (statsRows_eq ..).trans (congrArg some hall)
  refine ⟨_, statsRows_eq .., fun x hx => ?_⟩
  obtain ⟨e, he, -, hxe⟩ := mem_entries.mp ((horder svc).mem_iff.mp (mem_of_mem_lastBlock hx))
  obtain ⟨hmem, -, rfl⟩ := mem_recordedBy.mp he
  -- the client has recorded the query that the entry is about
  obtain ⟨e₀, he₀, hlt⟩ := client_first hreach hmem (ne_client_of_mem_backends hsvc)
  obtain ⟨i, -, hrequest⟩ := request_of_event hreach honly hmem
  rw [hrequest] at he₀
  obtain ⟨x₀, hx₀, htime⟩ := exists_entry epoch he₀
  have hfirst : timeStart ≤ x.epochTime := by
    have hstart := hle x₀ ((horder _).mem_iff.mpr hx₀)
    rw [htime] at hstart
    rw [hxe]
    have hbefore := time_le hreach (mem_recordedBy.mp he₀).1 hmem hlt.le
    exact UInt64.le_trans hstart (hclock _ _ hbefore)
  exact ⟨hfirst, UInt64.toNat_sub_of_le _ _ hfirst⟩

-- ---------------------------------------------------------------------------
-- A client that does
-- ---------------------------------------------------------------------------

/-- What a ring has rotated past is gone. -/
theorem mem_lastBlock_append {c : Nat} {es new : List Entry}
    (hgone : es.length ≤ c * (((es ++ new).length - 1) / c)) {x : Entry}
    (hx : x ∈ lastBlock c (es ++ new)) : x ∈ new := by
  unfold lastBlock at hx
  rw [List.drop_append, List.drop_eq_nil_of_le hgone, List.nil_append] at hx
  exact List.mem_of_mem_drop hx

section Rotated

variable {b : Board} {pid : Nat}

/-- What the client's file holds in the end is from after the moment when all
queries were under way. -/
theorem client_rows_late {t u : Board.State} (ht : b.Reachable t)
    (htu : Reaches b.deployment.step t u) (hmany : 16384 < (b.queries pid).length)
    (hflight : ∀ i < (b.queries pid).length, InFlight t pid i)
    (hreturned : ∀ i < (b.queries pid).length, Returned u pid i) {x : Entry}
    (hx : x ∈ lastBlock 32768 (entries epoch u (.client pid))) :
    ∃ time, t.now ≤ time ∧ x.epochTime = epoch time := by
  obtain ⟨-, es, hsplit, htimes⟩ := history_extends htu
  obtain ⟨new, hnew, hlate⟩ := entries_append epoch (.client pid) hsplit
  have hearly := length_recordedBy_inFlight ht hflight
  have hlen := length_recordedBy_returned (ht.trans htu) hreturned
  rw [← length_entries epoch] at hearly hlen
  rw [hnew] at hx hlen
  obtain ⟨e, he, htime⟩ := hlate x (mem_lastBlock_append (by omega) hx)
  exact ⟨e.time, htimes e he, htime⟩

/-- What the services have recorded in the end is from before that moment. -/
theorem service_rows_early {u : Board.State} (hs : b.Reachable s)
    (hsu : Reaches b.deployment.step s u) (honly : ∀ p, p ≠ pid → b.queries p = [])
    (hflight : ∀ i < (b.queries pid).length, InFlight s pid i)
    (hsvc : ∀ p, svc ≠ .client p) {x : Entry} (hx : x ∈ entries epoch u svc) :
    ∃ time, time ≤ s.now ∧ x.epochTime = epoch time := by
  obtain ⟨e, he, -, htime⟩ := mem_entries.mp hx
  obtain ⟨hmem, -, rfl⟩ := mem_recordedBy.mp he
  have hu := hs.trans hsu
  obtain ⟨i, hi, hrequest⟩ := request_of_event hu honly hmem
  have hdepth : e.call.depth ≠ 0 := fun h => hsvc _ (svc_of_root hu hmem h)
  have hold := mem_of_inFlight hs hsu (hflight i hi) hmem hrequest hdepth
  exact ⟨e.time, (clock_reaches hs).2 e hold, htime⟩

end Rotated

/-- A clock that ticks once. -/
def tickOnce (t : Nat) : UInt64 := if t = 0 then 0 else 1

theorem tickOnce_le (t t' : Nat) (h : t ≤ t') : tickOnce t ≤ tickOnce t' := by
  unfold tickOnce
  split
  · exact UInt64.le_iff_toNat_le.mpr (Nat.zero_le _)
  · rw [if_neg (by omega)]
    exact UInt64.le_refl _

/-- The board of one client that does not wait for its replies. -/
def oneLoop (iterations : Int) : Board :=
  oneClient .async (Client.queries iterations 0 albert "hi".toList)

theorem oneLoop_only (iterations : Int) (p : Nat) (hp : p ≠ 0) :
    (oneLoop iterations).queries p = [] := if_neg hp

/-- **A client that rotates its ring loses the first entry of all.** All queries
are served before the clock ticks, and the replies are taken when it has: what
the client's ring holds in the end is from after the tick. -/
theorem times_wrap {iterations : Int} (hmany : 16384 < iterations) :
    ∃ s, (oneLoop iterations).Reachable s ∧ SummaryRuns (oneLoop iterations) s 0 ∧
      ¬RelativeTimesExact 0 fun svc =>
        statsRows svc (entries tickOnce s svc) fun _ => none := by
  have hcount : 16384 < ((oneLoop iterations).queries 0).length := by
    show 16384 < (Client.queries iterations 0 albert "hi".toList).length
    rw [length_queries]
    unfold loopCount
    split <;> omega
  have hasync : (oneLoop iterations).clientSync 0 = false := rfl
  obtain ⟨s, hs, hnow, -, hflight⟩ := all_in_flight hasync le_rfl
  obtain ⟨t, htick, htnow, htflight⟩ : ∃ t, Reaches (oneLoop iterations).deployment.step s t ∧
      t.now = s.now + 1 ∧ ∀ i < ((oneLoop iterations).queries 0).length, InFlight t 0 i :=
    ⟨_, .single (a := .tick) rfl, rfl, hflight⟩
  obtain ⟨u, htu, hreturned⟩ := all_returned (hs.trans htick) htflight
  have hsu := htick.trans htu
  refine ⟨u, hs.trans hsu, fun i hi => ?_, ?_⟩
  · obtain ⟨call, v, hcall, hphase⟩ := hreturned i hi
    exact ⟨call, _, hcall, hphase, nofun⟩
  rintro ⟨df, timeStart, hdf, hmin, hexact⟩
  obtain rfl := Option.some.inj ((statsRows_eq ..).symm.trans hdf)
  -- the client's first row has the time after the tick
  have hstart : timeStart = 1 := by
    have hne : lastBlock 32768 (entries tickOnce u (.client 0)) ≠ [] := by
      intro hnil
      rw [hnil] at hmin
      cases hmin
    obtain ⟨-, hmin', ⟨x, hx, rfl⟩, -⟩ := exists_minEpochTime hne
    obtain rfl := Option.some.inj (hmin.symm.trans hmin')
    obtain ⟨time, hafter, htime⟩ :=
      client_rows_late (hs.trans htick) htu hcount htflight hreturned hx
    rw [htime, tickOnce, if_neg (by omega)]
  -- and MessageService has rows with the time before only
  obtain ⟨df', hdf', hafter⟩ := hexact .messageService (by decide)
  obtain rfl := Option.some.inj ((statsRows_eq ..).symm.trans hdf')
  have hrecorded : entries tickOnce u .messageService ≠ [] := by
    obtain ⟨e, he⟩ := recorded_of_inFlight hs (hflight 0 (by omega))
    obtain ⟨-, es, hsplit, -⟩ := history_extends hsu
    obtain ⟨new, hnew, -⟩ := entries_append tickOnce .messageService hsplit
    obtain ⟨x, hx, -⟩ := exists_entry tickOnce he
    rw [hnew]
    exact List.ne_nil_of_mem (List.mem_append_left _ hx)
  obtain ⟨x, hx⟩ := List.exists_mem_of_ne_nil _ (lastBlock_ne_nil (c := 32768) hrecorded)
  obtain ⟨time, hbefore, htime⟩ := service_rows_early hs hsu (oneLoop_only iterations) hflight
    (ne_client_of_mem_backends (by decide)) (mem_of_mem_lastBlock hx)
  have hzero : x.epochTime = 0 := by
    rw [htime, tickOnce, if_pos (by omega)]
  have hle := (hafter x hx).1
  rw [hstart, hzero] at hle
  exact absurd hle (by decide)

/--
**How often the loop may run.** In every run of one client, of either kind, on any
clock that does not go back, and whatever the order in which the threads of a
process get at its manager, the relative times of the services do not wrap, if
and only if the loop runs at most 16384 times: with two entries for each query
the ring of 32768 entries is not rotated then.
-/
theorem relative_times_iff (iterations : Int) :
    (∀ (b : Board) (pid : Nat) (clientUid : UInt64) (clientId message : Text),
      b.queries pid = Client.queries iterations clientUid clientId message →
      (∀ p, p ≠ pid → b.queries p = []) →
      ∀ s, b.Reachable s → SummaryRuns b s pid →
      ∀ epoch : Nat → UInt64, (∀ t t', t ≤ t' → epoch t ≤ epoch t') →
      ∀ order : Service → List Entry, (∀ svc, (order svc).Perm (entries epoch s svc)) →
      ∀ fs : Service → FileSystem,
        RelativeTimesExact pid fun svc => statsRows svc (order svc) (fs svc)) ↔
    iterations ≤ 16384 := by
  constructor
  · intro hexact
    by_contra hmany
    obtain ⟨s, hs, hdone, hwrap⟩ := times_wrap (not_le.mp hmany)
    exact hwrap (hexact _ 0 0 albert "hi".toList rfl (oneLoop_only iterations) s hs hdone
      tickOnce tickOnce_le _ (fun _ => .refl _) _)
  · intro hfew b pid clientUid clientId message hqueries honly s hs hdone epoch hclock order
      horder fs
    have hlen : (b.queries pid).length = loopCount iterations := by
      rw [hqueries, length_queries]
    have hbounds : 0 < loopCount iterations ∧ loopCount iterations ≤ 16384 := by
      unfold loopCount
      split <;> omega
    exact times_exact hs (by omega) (by omega) honly hdone hclock horder fs

/-- A loop that runs 16385 times makes a relative time wrap. -/
theorem relative_times_wrap :
    ∃ s, (oneLoop 16385).Reachable s ∧ SummaryRuns (oneLoop 16385) s 0 ∧
      (∀ t t', t ≤ t' → tickOnce t ≤ tickOnce t') ∧
      ¬RelativeTimesExact 0 fun svc =>
        statsRows svc (entries tickOnce s svc) fun _ => none := by
  have hmany : (16384 : Int) < 16385 := by decide
  obtain ⟨s, hs, hdone, hwrap⟩ := times_wrap hmany
  exact ⟨s, hs, hdone, tickOnce_le, hwrap⟩

end MockMessageBoard
