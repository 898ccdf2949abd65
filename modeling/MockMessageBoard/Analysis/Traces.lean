import MockMessageBoard.Analysis.Merge
import MockMessageBoard.Analysis.RelativeTimes
import MockMessageBoard.Board.Spans
import MockMessageBoard.Lib.Rpc.Brackets

/-!
# MockMessageBoard — from a run to its traces

What the analysis makes of the files that a run of one client has left behind: each
row of the merged frame is a query of the client, and its times, read from the
client down to MockDatabase and back up, do not go back — also where calls have
failed, and where the query is still under way.

* `times_nested`             — the times recorded for a query, in any state of a run;
* `length_recordedBy_le_two` — a process records two entries for each query at most;
* `traces_of_order`          — the rows that the analysis finds.
-/

namespace MockMessageBoard

open TextFile Groups Tables Rpc State Transition

variable {τ : Type}

-- ---------------------------------------------------------------------------
-- The times of a query nest
-- ---------------------------------------------------------------------------

theorem remoteTask_closes {build : Build} {target : Service} {op : Request}
    {k : Value → Prog sig} (hk : ∀ v, (k v).Closes .settled) :
    (remoteTask build target op k).Closes .unsent := by
  cases build with
  | async => exact ⟨rfl, rfl, hk⟩
  | sync =>
    intro found
    cases found with
    | true => exact ⟨rfl, rfl, hk⟩
    | false => exact ⟨rfl, rfl, hk⟩

/-- **Every handler brackets its call** with its two entries. -/
theorem handler_closes (build : Build) (op : Request) :
    ∃ n p, handler build op = .record n p ∧ p.Closes .unsent := by
  cases op with
  | query pid q =>
    cases q with
    | find =>
      refine ⟨_, _, rfl, rfl, rfl, fun v => ?_⟩
      cases v with
      | message => exact fun _ => ⟨.inr rfl, trivial⟩
      | _ => exact trivial
    | send =>
      refine ⟨_, _, rfl, rfl, rfl, fun v => ?_⟩
      cases v with
      | status => exact fun _ => ⟨.inr rfl, trivial⟩
      | _ => exact trivial
  | findLastMessage =>
    refine ⟨_, _, rfl, remoteTask_closes fun v => ?_⟩
    cases v with
    | string => exact ⟨.inr rfl, trivial⟩
    | _ => exact trivial
  | sendMessage =>
    refine ⟨_, _, rfl, remoteTask_closes fun v => ?_⟩
    cases v with
    | bool => exact ⟨.inr rfl, trivial⟩
    | _ => exact trivial
  | sanitizeMessage clientId message uid =>
    refine ⟨_, _, rfl, ?_⟩
    split
    · exact trivial
    · refine remoteTask_closes fun v => ?_
      cases v with
      | bool => exact ⟨.inr rfl, trivial⟩
      | _ => exact trivial
  | mockFindLastMessage clientId uid =>
    refine ⟨_, _, rfl, fun w => ?_⟩
    dsimp only
    split
    · exact fun _ => ⟨.inl rfl, trivial⟩
    · exact ⟨.inl rfl, trivial⟩
  | storeMessage => exact ⟨_, _, rfl, fun _ => ⟨.inl rfl, trivial⟩⟩

/-- The times that a hop of a query has recorded. -/
def hopTimes (s : Board.State) (r : RequestId) (d : Nat) : List Nat :=
  (recordsOf s ⟨r, d⟩).map Event.time

/-- The times that the four processes have recorded for a query, from the client on. -/
def queryTimes (s : Board.State) (pid : Nat) (uid : UInt64) : List (List Nat) :=
  [.client pid, .messageService, .sanitizationService, .mockDatabase].map fun svc =>
    times s svc uid

theorem mem_history_of_recordsOf {s : Board.State} {c : CallId} {e : Event sig}
    (h : e ∈ recordsOf s c) : e ∈ s.history ∧ e.call = c :=
  mem_eventsOf.mp (List.mem_filter.mp h).1

/-- A process serves a query once at most. -/
theorem depth_of_home {pid d d' : Nat} {q : Query} {op op' : Request}
    (h : q.requestAt pid d = some op) (h' : q.requestAt pid d' = some op')
    (hhome : home op = home op') : d = d' := by
  cases q with
  | find =>
    rcases requestAt_find h with ⟨rfl, rfl⟩ | ⟨rfl, rfl⟩ | ⟨rfl, rfl⟩ <;>
    rcases requestAt_find h' with ⟨rfl, rfl⟩ | ⟨rfl, rfl⟩ | ⟨rfl, rfl⟩ <;>
    first | rfl | cases hhome
  | send =>
    rcases requestAt_send h with ⟨rfl, rfl⟩ | ⟨rfl, rfl⟩ | ⟨rfl, rfl⟩ | ⟨rfl, -, rfl⟩ <;>
    rcases requestAt_send h' with ⟨rfl, rfl⟩ | ⟨rfl, rfl⟩ | ⟨rfl, rfl⟩ | ⟨rfl, -, rfl⟩ <;>
    first | rfl | cases hhome

section Reachable

variable {b : Board} {s : Board.State} (hreach : b.Reachable s)

include hreach

/-- The times of a hop lie inside of those of the hops before it. -/
theorem hopTimes_inside (r : RequestId) {d d' : Nat} (hd : d < d') :
    Inside (hopTimes s r d) (hopTimes s r d') := by
  have hbrackets := (brackets hreach (handler_joins b.build) (handler_closes b.build) ⟨r, d⟩).2
  intro t ht
  obtain ⟨e', he', rfl⟩ := List.mem_map.mp ht
  obtain ⟨hmem', hec'⟩ := mem_history_of_recordsOf he'
  obtain ⟨hfirst, hsecond⟩ := hbrackets e' hmem' (by rw [hec']) (by rw [hec']; exact hd)
  unfold hopTimes
  simp only [List.getElem?_map, Option.map_eq_some_iff]
  constructor
  · rintro _ ⟨e, he, rfl⟩
    have hmem := (mem_history_of_recordsOf (List.mem_of_getElem? he)).1
    exact time_le hreach hmem hmem' (hfirst e he).le
  · rintro _ ⟨e, he, rfl⟩
    have hmem := (mem_history_of_recordsOf (List.mem_of_getElem? he)).1
    exact time_le hreach hmem' hmem (hsecond e he).le

theorem hopTimes_ordered (r : RequestId) (d a c : Nat) (ha : (hopTimes s r d)[0]? = some a)
    (hc : (hopTimes s r d)[1]? = some c) : a ≤ c := by
  have hsorted : (hopTimes s r d).Pairwise (· ≤ ·) := by
    rw [hopTimes, List.pairwise_map]
    refine ((eventsOf_sorted hreach ⟨r, d⟩).filter _).imp_of_mem fun {e e'} he he' hlt => ?_
    exact time_le hreach (mem_history_of_recordsOf he).1
      (mem_history_of_recordsOf he').1 hlt.le
  obtain ⟨h0, rfl⟩ := List.getElem?_eq_some_iff.mp ha
  obtain ⟨h1, rfl⟩ := List.getElem?_eq_some_iff.mp hc
  exact List.pairwise_iff_getElem.mp hsorted 0 1 h0 h1 Nat.one_pos

/-- The times of a `find`, hop by hop. -/
theorem queryTimes_find (hdistinct : b.DistinctUids) {r : RequestId} {clientId : Text}
    {uid : UInt64} (hq : b.query? r = some (.find clientId uid)) :
    queryTimes s r.proc uid = [hopTimes s r 0, hopTimes s r 1, [], hopTimes s r 2] := by
  obtain ⟨h₀, h₁, h₂⟩ := times_of_find hreach hdistinct hq
  have hsanit : times s .sanitizationService uid = [] := by
    refine times_eq_nil hreach hdistinct hq fun d op hop hhome => ?_
    rcases requestAt_find hop with ⟨-, rfl⟩ | ⟨-, rfl⟩ | ⟨-, rfl⟩ <;> cases hhome
  simp only [queryTimes, List.map_cons, List.map_nil, h₀, h₁, h₂, hsanit]
  rfl

/-- The times of a `send`, hop by hop. -/
theorem queryTimes_send (hdistinct : b.DistinctUids) {r : RequestId} {clientId message : Text}
    {uid : UInt64} (hq : b.query? r = some (.send clientId message uid)) :
    queryTimes s r.proc uid = [hopTimes s r 0, hopTimes s r 1, hopTimes s r 2,
      if Regex.regexMatch matchExpr message = false then hopTimes s r 3 else []] := by
  obtain ⟨h₀, h₁, h₂, h₃⟩ := times_of_send hreach hdistinct hq
  simp only [queryTimes, List.map_cons, List.map_nil, h₀, h₁, h₂, h₃]
  rfl

/-- **The times recorded for a query nest**, in every state of a run. -/
theorem times_nested (hdistinct : b.DistinctUids) {r : RequestId} {q : Query}
    (hq : b.query? r = some q) : Nested (queryTimes s r.proc q.uid) := by
  have hin : ∀ d d', d < d' → Inside (hopTimes s r d) (hopTimes s r d') :=
    fun d d' hd => hopTimes_inside hreach r hd
  have hord := hopTimes_ordered hreach r
  have hlast : ∀ d, Nested [hopTimes s r d] := fun d => nested_singleton (hord d)
  cases q with
  | find clientId uid =>
    rw [Query.uid, queryTimes_find hreach hdistinct hq]
    refine .cons ?_ (hord 0) (.cons ?_ (hord 1) (hlast 2).skip)
    · simp [hin, inside_nil]
    · simp [hin, inside_nil]
  | send clientId message uid =>
    rw [Query.uid, queryTimes_send hreach hdistinct hq]
    split
    · refine .cons ?_ (hord 0) (.cons ?_ (hord 1) (.cons ?_ (hord 2) (hlast 3)))
      · simp [hin]
      · simp [hin]
      · simp [hin]
    · refine .cons ?_ (hord 0) (.cons ?_ (hord 1) (.cons ?_ (hord 2) nested_nil.skip))
      · simp [hin, inside_nil]
      · simp [hin, inside_nil]
      · simp [inside_nil]

-- ---------------------------------------------------------------------------
-- How many entries a process makes
-- ---------------------------------------------------------------------------

/-- The entries that a process has made for a query are those of the call that it serves. -/
theorem group_recordedBy {r : RequestId} {q : Query} (hq : b.query? r = some q) {svc : Service}
    {d : Nat} {op : Request} (hop : q.requestAt r.proc d = some op) (hhome : home op = svc) :
    group (fun e => e.call.request) r (recordedBy s svc) = recordsOf s ⟨r, d⟩ := by
  subst hhome
  unfold group recordedBy recordsOf eventsOf
  rw [List.filter_filter, List.filter_filter]
  refine List.filter_congr fun e he => ?_
  obtain ⟨call, hcall, hsvc⟩ := known_reaches hreach e he
  rw [Bool.eq_iff_iff]
  simp only [Bool.and_eq_true, decide_eq_true_eq]
  constructor
  · rintro ⟨hrequest, hrec, hhome⟩
    obtain ⟨⟨r', d'⟩, svc, seq, time, act⟩ := e
    obtain rfl : r' = r := hrequest
    have hop' := requestAt_of_query hreach hq hcall
    obtain rfl : d' = d := depth_of_home hop' hop (hsvc.symm.trans hhome)
    exact ⟨hrec, rfl⟩
  · rintro ⟨hrec, hec⟩
    rw [hec] at hcall ⊢
    obtain rfl := Option.some.inj (hop.symm.trans (requestAt_of_query hreach hq hcall))
    exact ⟨rfl, hrec, hsvc⟩

/-- **Two entries for each query.** -/
theorem length_group_le (svc : Service) (r : RequestId) :
    (group (fun e => e.call.request) r (recordedBy s svc)).length ≤ 2 := by
  cases hgroup : group (fun e => e.call.request) r (recordedBy s svc) with
  | nil => exact Nat.zero_le _
  | cons e es =>
    obtain ⟨he, hrequest⟩ := List.mem_filter.mp (hgroup ▸ List.mem_cons_self :
      e ∈ group (fun e => e.call.request) r (recordedBy s svc))
    obtain rfl : e.call.request = r := of_decide_eq_true hrequest
    obtain ⟨hmem, -, hsvc⟩ := mem_recordedBy.mp he
    obtain ⟨call, hcall, hhome⟩ := known_reaches hreach e hmem
    obtain ⟨q, hq, hop⟩ := requestAt_of_call hreach hcall
    rw [← hgroup, group_recordedBy hreach hq hop (hhome.symm.trans hsvc)]
    exact (brackets hreach (handler_joins b.build) (handler_closes b.build) e.call).1

variable {pid : Nat} (honly : ∀ p, p ≠ pid → b.queries p = [])

include honly

theorem length_recordedBy_le_two (svc : Service) :
    (recordedBy s svc).length ≤ 2 * (b.queries pid).length := by
  have hkeys : ∀ e ∈ recordedBy s svc, e.call.request ∈
      (Finset.range (b.queries pid).length).image fun i => (⟨pid, i⟩ : RequestId) := by
    intro e he
    obtain ⟨i, hi, hrequest⟩ := request_of_event hreach honly (mem_recordedBy.mp he).1
    exact Finset.mem_image.mpr ⟨i, Finset.mem_range.mpr hi, hrequest.symm⟩
  calc (recordedBy s svc).length
      = ∑ r ∈ (Finset.range (b.queries pid).length).image (fun i => (⟨pid, i⟩ : RequestId)),
          (group (fun e => e.call.request) r (recordedBy s svc)).length :=
        length_eq_sum_group _ hkeys
    _ ≤ ((Finset.range (b.queries pid).length).image
          fun i => (⟨pid, i⟩ : RequestId)).card • 2 :=
        Finset.sum_le_card_nsmul _ _ 2 fun r _ => length_group_le hreach svc r
    _ ≤ 2 * (b.queries pid).length := by
        have hcard := Finset.card_image_le (s := Finset.range (b.queries pid).length)
          (f := fun i => (⟨pid, i⟩ : RequestId))
        rw [Finset.card_range] at hcard
        rw [smul_eq_mul]
        omega

end Reachable

-- ---------------------------------------------------------------------------
-- The files of a run
-- ---------------------------------------------------------------------------

/-- The files of the four processes of a run of one client. -/
def filesOf (pid : Nat) (rows : Service → List Entry) : StatsFiles where
  client := rows (.client pid)
  msgserv := rows .messageService
  sanitserv := rows .sanitizationService
  mockdata := rows .mockDatabase

/-- The columns of `all` that have a cell for a query that was answered. -/
def Query.marks : Query → List Bool
  | .find .. => [true, true, false, true, true, false, true, true]
  | .send _ message _ =>
    if Regex.regexMatch matchExpr message then
      [true, true, true, false, false, false, true, true]
    else [true, true, true, true, true, true, true, true]

/-- The times that are read back for a query. -/
theorem timesOf_entries (epoch : Nat → UInt64) (s : Board.State) (svc : Service) (uid : UInt64) :
    timesOf (entries epoch s svc) uid = (times s svc uid).map epoch := by
  unfold timesOf entries recordedBy times
  induction s.history with
  | nil => rfl
  | cons e es ih =>
    obtain ⟨c, svc', seq, time, act⟩ := e
    cases act with
    | record n =>
      by_cases hsvc : svc' = svc
      · by_cases hn : n = uid
        · simpa [recordsUid, Act.isRecord, hsvc, hn] using ih
        · simpa [recordsUid, Act.isRecord, hsvc, hn] using ih
      · simpa [recordsUid, Act.isRecord, hsvc] using ih
    | _ => simpa [recordsUid, Act.isRecord] using ih

section Files

variable {b : Board} {s : Board.State} (hreach : b.Reachable s) {pid : Nat}
  (honly : ∀ p, p ≠ pid → b.queries p = [])
  {epoch : Nat → UInt64} (hclock : ∀ t t', t ≤ t' → epoch t ≤ epoch t')

include hreach honly

/-- No ring rotates. -/
theorem length_entries_le (hfew : (b.queries pid).length ≤ 16384) (epoch : Nat → UInt64)
    (svc : Service) : (entries epoch s svc).length ≤ 32768 := by
  have hle := length_recordedBy_le_two hreach honly svc
  rw [length_entries]
  omega

include hclock

/-- The client's smallest time is the smallest of all. -/
theorem start_le {start : UInt64}
    (hstart : ∀ x ∈ entries epoch s (.client pid), start ≤ x.epochTime) {svc : Service}
    (hsvc : svc ∈ Service.client pid :: backends) {e : Event sig} (he : e ∈ recordedBy s svc) :
    start ≤ epoch e.time := by
  obtain ⟨hmem, -, rfl⟩ := mem_recordedBy.mp he
  obtain ⟨e₀, he₀, hle⟩ : ∃ e₀ ∈ recordedBy s (.client pid), e₀.seq ≤ e.seq := by
    rcases List.mem_cons.mp hsvc with hclient | hbackend
    · exact ⟨e, hclient ▸ he, le_rfl⟩
    · obtain ⟨e₀, he₀, hlt⟩ := client_first hreach hmem (ne_client_of_mem_backends hbackend)
      obtain ⟨i, -, hrequest⟩ := request_of_event hreach honly hmem
      rw [hrequest] at he₀
      exact ⟨e₀, he₀, hlt.le⟩
  obtain ⟨x, hx, htime⟩ := exists_entry epoch he₀
  have hbefore := time_le hreach (mem_recordedBy.mp he₀).1 hmem hle
  exact UInt64.le_trans (htime ▸ hstart x hx) (hclock _ _ hbefore)

/-- The times that are read back for a query nest. -/
theorem relative_nested [LE τ] (hdistinct : b.DistinctUids) {i : Nat} {q : Query}
    (hq : (b.queries pid)[i]? = some q) {start : UInt64}
    (hstart : ∀ x ∈ entries epoch s (.client pid), start ≤ x.epochTime) {scale : UInt64 → τ}
    (hscale : ∀ t t', t ≤ t' → scale t ≤ scale t') :
    Nested ((queryTimes s pid q.uid).map (List.map fun t => scale (epoch t - start))) := by
  refine (times_nested hreach hdistinct (r := ⟨pid, i⟩) hq).map ?_
  intro ts hts ts' hts' t ht t' ht' hle
  have hlate : ∀ ts ∈ queryTimes s pid q.uid, ∀ t ∈ ts, start ≤ epoch t := by
    intro ts hts t ht
    obtain ⟨svc, hsvc, rfl⟩ := List.mem_map.mp hts
    obtain ⟨e, he, rfl⟩ := List.mem_map.mp ht
    obtain ⟨hmem, hrec⟩ := List.mem_filter.mp he
    obtain ⟨hesvc, hact⟩ := recordsUid_iff.mp hrec
    have hrecorded : e ∈ recordedBy s svc :=
      mem_recordedBy.mpr ⟨hmem, Act.isRecord_iff.mpr ⟨_, hact⟩, hesvc⟩
    exact start_le hreach honly hclock hstart hsvc hrecorded
  have hfirst := hlate ts hts t ht
  refine hscale _ _ ?_
  have hmono := hclock _ _ hle
  rw [UInt64.le_iff_toNat_le] at hmono ⊢
  rw [UInt64.toNat_sub_of_le _ _ hfirst, UInt64.toNat_sub_of_le _ _ (hlate ts' hts' t' ht')]
  exact Nat.sub_le_sub_right hmono _

omit honly hclock in
/-- An answered query has all its times. -/
theorem marks_of_answered (hdistinct : b.DistinctUids) {i : Nat} {q : Query}
    (hq : (b.queries pid)[i]? = some q) {call : Call sig} {v : Value}
    (hcall : s.calls ⟨⟨pid, i⟩, 0⟩ = some call) (hanswered : call.phase = .returned (.value v))
    (f : Nat → τ) :
    (spread ((queryTimes s pid q.uid).map (List.map f))).map Option.isSome = q.marks := by
  have hq' : b.query? ⟨pid, i⟩ = some q := hq
  have hop : call.op = .query pid q :=
    (Option.some.inj (requestAt_of_query hreach hq' hcall)).symm
  have hends := ends_of_returned hreach hcall hanswered
  have hspan := spanned_of_returned hreach hcall hanswered (by rw [hop]; exact id)
  obtain ⟨c, c', hc, -⟩ := spanned_times hreach hspan
  rw [hop] at hends
  change hopTimes s ⟨pid, i⟩ 0 = [c, c'] at hc
  cases q with
  | find clientId uid =>
    obtain ⟨hspan₁, hspan₂⟩ := find_spanned hreach (r := ⟨pid, i⟩) hends
    obtain ⟨m, m', hm, -⟩ := spanned_times hreach hspan₁
    obtain ⟨k, k', hk, -⟩ := spanned_times hreach hspan₂
    change hopTimes s ⟨pid, i⟩ 1 = [m, m'] at hm
    change hopTimes s ⟨pid, i⟩ 2 = [k, k'] at hk
    have htimes := queryTimes_find hreach hdistinct hq'
    rw [hc, hm, hk] at htimes
    exact congrArg (fun chain => (spread (chain.map (List.map f))).map Option.isSome) htimes
  | send clientId message uid =>
    obtain ⟨ok, -, hspan₁, hbelow⟩ := send_spanned hreach (r := ⟨pid, i⟩) hends
    obtain ⟨m, m', hm, -⟩ := spanned_times hreach hspan₁
    change hopTimes s ⟨pid, i⟩ 1 = [m, m'] at hm
    have htimes := queryTimes_send hreach hdistinct hq'
    rw [hc, hm] at htimes
    rw [Query.marks]
    rcases hbelow with ⟨hpass, -, hspan₂, hspan₃⟩ | ⟨hmatch, -, e, hone, -⟩
    · obtain ⟨n, n', hn, -⟩ := spanned_times hreach hspan₂
      obtain ⟨k, k', hk, -⟩ := spanned_times hreach hspan₃
      change hopTimes s ⟨pid, i⟩ 2 = [n, n'] at hn
      change hopTimes s ⟨pid, i⟩ 3 = [k, k'] at hk
      rw [if_pos hpass, hn, hk] at htimes
      rw [if_neg (by simp [hpass])]
      exact congrArg (fun chain => (spread (chain.map (List.map f))).map Option.isSome) htimes
    · have hn : hopTimes s ⟨pid, i⟩ 2 = [e.time] := by rw [hopTimes, hone]; rfl
      rw [if_neg (by simp [hmatch]), hn] at htimes
      rw [if_pos hmatch]
      exact congrArg (fun chain => (spread (chain.map (List.map f))).map Option.isSome) htimes

omit honly hclock hreach in
/-- The queries of the files are those that have been recorded. -/
theorem has_iff {order : Service → List Entry}
    (horder : ∀ svc, (order svc).Perm (entries epoch s svc)) {uid : UInt64} :
    (filesOf pid order).Has uid ↔
      ∃ e ∈ s.history, e.act = .record uid ∧ e.svc ∈ Service.client pid :: backends := by
  have hchain : (filesOf pid order).chain = (Service.client pid :: backends).map order := rfl
  unfold StatsFiles.Has
  rw [hchain]
  constructor
  · rintro ⟨df, hdf, x, hx, rfl⟩
    obtain ⟨svc, hsvc, rfl⟩ := List.mem_map.mp hdf
    obtain ⟨e, he, hact, -⟩ := mem_entries.mp ((horder svc).mem_iff.mp hx)
    obtain ⟨hmem, -, rfl⟩ := mem_recordedBy.mp he
    exact ⟨e, hmem, hact, hsvc⟩
  · rintro ⟨e, he, hact, hsvc⟩
    have hrecorded := mem_recordedBy.mpr ⟨he, Act.isRecord_iff.mpr ⟨_, hact⟩, rfl⟩
    exact ⟨order e.svc, List.mem_map_of_mem hsvc, ⟨uid, epoch e.time⟩,
      (horder _).mem_iff.mpr (mem_entries.mpr ⟨e, hrecorded, hact, rfl⟩), rfl⟩

omit honly hclock in
/-- What has been recorded for a query, the client has recorded it before. -/
theorem recorded_iff (hdistinct : b.DistinctUids) {i : Nat} {q : Query}
    (hq : (b.queries pid)[i]? = some q) :
    (∃ e ∈ s.history, e.act = .record q.uid ∧ e.svc ∈ Service.client pid :: backends) ↔
      recordsOf s ⟨⟨pid, i⟩, 0⟩ ≠ [] := by
  have hq' : b.query? ⟨pid, i⟩ = some q := hq
  constructor
  · rintro ⟨e, he, hact, -⟩
    obtain ⟨hrequest, -⟩ := request_of_record hreach hdistinct hq' he
      (recordsUid_iff.mpr ⟨rfl, hact⟩)
    obtain ⟨e₁, he₁, hec₁⟩ : ∃ e₁ ∈ s.history, e₁.call = ⟨⟨pid, i⟩, 0⟩ := by
      rcases Nat.eq_zero_or_pos e.call.depth with hdepth | hdepth
      · exact ⟨e, he, by rw [← hrequest, ← hdepth]⟩
      · obtain ⟨e₁, he₁, hec₁, -⟩ := after_start hreach (c := ⟨⟨pid, i⟩, 0⟩) he hrequest hdepth
        exact ⟨e₁, he₁, hec₁⟩
    obtain ⟨e₀, he₀, hec₀, -⟩ := exists_first_record hreach he₁
    obtain ⟨hmem, hrec, -⟩ := mem_recordedBy.mp he₀
    exact List.ne_nil_of_mem (List.mem_filter.mpr
      ⟨mem_eventsOf.mpr ⟨hmem, hec₀.trans hec₁⟩, hrec⟩)
  · intro hne
    obtain ⟨e, he⟩ := List.exists_mem_of_ne_nil _ hne
    obtain ⟨hmem, hec⟩ := mem_history_of_recordsOf he
    obtain ⟨n, hact⟩ := Act.isRecord_iff.mp (List.mem_filter.mp he).2
    obtain ⟨q', hquery, rfl⟩ := record_origin hreach hmem hact
    rw [hec, hq'] at hquery
    cases hquery
    have hsvc := svc_of_root hreach hmem (by rw [hec])
    rw [hec] at hsvc
    exact ⟨e, hmem, hact, hsvc ▸ List.mem_cons_self⟩

end Files

/-- **The merged frame of a run**, in whatever order the entries of the processes have
got into the files, if those for one query are in theirs. -/
theorem traces_of_order [LE τ] {merge : MergeOp QueryKey τ} {select : SelectOp QueryKey τ}
    (hmerge : OuterMerge QueryKey.le merge) (hselect : Selection select) {b : Board}
    {s : Board.State} (hreach : b.Reachable s) {pid : Nat}
    (honly : ∀ p, p ≠ pid → b.queries p = []) (hdistinct : b.DistinctUids)
    (hstarted : recordedBy s (.client pid) ≠ [])
    {epoch : Nat → UInt64} (hclock : ∀ t t', t ≤ t' → epoch t ≤ epoch t')
    {scale : UInt64 → τ} (hscale : ∀ t t', t ≤ t' → scale t ≤ scale t')
    {order : Service → List Entry} (horder : ∀ svc, (order svc).Perm (entries epoch s svc))
    (hqueries : ∀ svc uid, timesOf (order svc) uid = timesOf (entries epoch s svc) uid) :
    ∃ f, all merge select scale (filesOf pid order) = some f ∧ f.columns = allColumns ∧
      (∀ row ∈ f.rows, (∃ q ∈ b.queries pid, row.1 = queryKey q.uid) ∧
        row.2.reduceOption.Pairwise (· ≤ ·)) ∧
      ∀ (i : Nat) (q : Query), (b.queries pid)[i]? = some q →
        (queryKey q.uid ∈ f.index ↔ recordsOf s ⟨⟨pid, i⟩, 0⟩ ≠ []) ∧
        ∀ call v, s.calls ⟨⟨pid, i⟩, 0⟩ = some call → call.phase = .returned (.value v) →
          ∃ cells, f.under (queryKey q.uid) = [cells] ∧ cells.map Option.isSome = q.marks := by
  have hnonempty : order (.client pid) ≠ [] := by
    intro hnil
    have hlen := (horder (.client pid)).length_eq
    rw [hnil, length_entries] at hlen
    exact hstarted (List.length_eq_zero_iff.mp hlen.symm)
  obtain ⟨start, hmin, -, hle⟩ := exists_minEpochTime hnonempty
  have hstart : ∀ x ∈ entries epoch s (.client pid), start ≤ x.epochTime :=
    fun x hx => hle x ((horder _).mem_iff.mpr hx)
  obtain ⟨f, hf, hcols, -, hholds⟩ := all_holds hmerge hselect scale
    (show minEpochTime (filesOf pid order).client = some start from hmin)
  have htimes : ∀ uid, (filesOf pid order).timesOf scale start uid =
      (queryTimes s pid uid).map (List.map fun t => scale (epoch t - start)) := by
    intro uid
    simp only [StatsFiles.timesOf, StatsFiles.chain, queryTimes, filesOf, List.map_cons,
      List.map_nil, hqueries, timesOf_entries, List.map_map]
    rfl
  have hhas : ∀ (i : Nat) (q : Query), (b.queries pid)[i]? = some q →
      ((filesOf pid order).Has q.uid ↔ recordsOf s ⟨⟨pid, i⟩, 0⟩ ≠ []) :=
    fun i q hq => (has_iff horder).trans (recorded_iff hreach hdistinct hq)
  have hquery : ∀ uid, (filesOf pid order).Has uid → ∃ (i : Nat) (q : Query),
      (b.queries pid)[i]? = some q ∧ uid = q.uid := by
    intro uid huid
    obtain ⟨e, he, hact, -⟩ := (has_iff horder).mp huid
    obtain ⟨q, hq, rfl⟩ := record_origin hreach he hact
    obtain ⟨i, -, hrequest⟩ := request_of_event hreach honly he
    rw [hrequest] at hq
    exact ⟨i, q, hq, rfl⟩
  refine ⟨f, hf, hcols, fun row hrow => ?_,
    fun i q hq => ⟨(mem_index_iff hholds).trans (hhas i q hq), fun call v hcall hanswered => ?_⟩⟩
  · obtain ⟨uid, huid, hkey⟩ := (hholds.mem_index _).mp (List.mem_map_of_mem hrow)
    obtain ⟨i, q, hq, rfl⟩ := hquery uid huid
    refine ⟨⟨q, List.mem_of_getElem? hq, hkey.symm⟩, ?_⟩
    have hunder := (under_query hholds q.uid).1 huid
    rw [groupTimes_chain, htimes] at hunder
    have hcells : row.2 ∈ f.under (queryKey q.uid) := Frame.mem_under.mpr (hkey ▸ hrow)
    rw [hunder, List.mem_singleton] at hcells
    rw [hcells]
    exact spread_sorted (relative_nested hreach honly hclock hdistinct hq hstart hscale)
  · have hspan := spanned_of_returned hreach hcall hanswered (by
      rw [← Option.some.inj (requestAt_of_query hreach (r := ⟨pid, i⟩) hq hcall)]
      exact id)
    obtain ⟨e₁, e₂, hrecords, -⟩ := hspan
    have huid : (filesOf pid order).Has q.uid :=
      (hhas i q hq).mpr (hrecords ▸ List.cons_ne_nil _ _)
    have hunder := (under_query hholds q.uid).1 huid
    rw [groupTimes_chain, htimes] at hunder
    exact ⟨_, hunder, marks_of_answered hreach hdistinct hq hcall hanswered _⟩

end MockMessageBoard
