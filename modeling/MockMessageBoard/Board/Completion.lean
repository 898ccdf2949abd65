import MockMessageBoard.Board.Serving
import MockMessageBoard.Lib.Groups
import MockMessageBoard.Lib.Rpc.Layers

/-!
# MockMessageBoard — every run comes to an end

A handler blocks its worker thread while the service below works. Whatever the
number of workers, the board never locks up: a run takes a bounded number of
steps, and where it cannot go on every query has ended.

* `board_bounded`       — the steps that a run takes, at most;
* `board_deadlock_free` — where nothing can happen, nothing is under way;
* `board_completes`     — where no call fails, every query has its answer by then.
-/

namespace MockMessageBoard

open TextFile Rpc State Transition Groups

-- ---------------------------------------------------------------------------
-- How many steps a query takes
-- ---------------------------------------------------------------------------

/-- The steps of the handler of a request, at most. -/
def Request.steps (build : Build) : Request → Nat
  | .query .. => 6
  | .findLastMessage .. | .sendMessage .. | .sanitizeMessage .. =>
    match build with
    | .sync => 8
    | .async => 6
  | .mockFindLastMessage .. => 6
  | .storeMessage .. => 5

theorem remoteTask_takes {build : Build} {target : Service} {op : Request}
    {k : Value → Prog sig} (hk : ∀ v, (k v).Takes 2) :
    (remoteTask build target op k).Takes (match build with | .sync => 7 | .async => 5) := by
  cases build with
  | async => exact hk
  | sync =>
    intro found
    cases found with
    | true => exact fun v => (hk v).mono (Nat.le_succ 2)
    | false => exact hk

theorem handler_takes (build : Build) (op : Request) :
    (handler build op).Takes (op.steps build) := by
  have hremote : ∀ {target : Service} {op : Request} {k : Value → Prog sig} {u : UInt64},
      (∀ v, (k v).Takes 2) → (Prog.record (σ := sig) u (remoteTask build target op k)).Takes
        (match build with | .sync => 8 | .async => 6) := by
    intro target op k u hk
    cases build with
    | sync => exact remoteTask_takes hk
    | async => exact remoteTask_takes hk
  cases op with
  | query pid q =>
    cases q with
    | find =>
      intro v
      cases v with
      | message => exact fun _ => trivial
      | _ => exact trivial
    | send =>
      intro v
      cases v with
      | status => exact fun _ => trivial
      | _ => exact trivial
  | findLastMessage | sendMessage =>
    refine hremote fun v => ?_
    cases v <;> exact trivial
  | sanitizeMessage clientId message uid =>
    simp only [handler, SanitizationHandler.sanitizeMessage]
    split
    · cases build <;> exact trivial
    · refine hremote fun v => ?_
      cases v <;> exact trivial
  | mockFindLastMessage clientId uid =>
    simp only [handler, MockDatabaseHandler.findLastMessage, Request.steps]
    intro w
    dsimp only
    split
    · exact fun _ => trivial
    · exact trivial
  | storeMessage => exact fun _ => trivial

/-- The steps that are taken for a query, at most: its client issues it, and each
service on its way takes the request, runs its handler and replies. -/
def Query.steps (build : Build) : Query → Nat
  | .find .. =>
    match build with
    | .sync => 25
    | .async => 23
  | .send .. =>
    match build with
    | .sync => 34
    | .async => 30

/-- The steps that are taken for a query `d` hops away from its client, at most. -/
def Query.stepsAt (build : Build) (pid : Nat) (q : Query) (d : Nat) : Nat :=
  match q.requestAt pid d with
  | some op => op.steps build + if d = 0 then 0 else 2
  | none => 0

theorem stepsAt_le (build : Build) (pid : Nat) (q : Query) :
    ∑ d ∈ Finset.range 4, q.stepsAt build pid d + 1 ≤ q.steps build := by
  simp only [Finset.sum_range_succ, Finset.sum_range_zero]
  cases q with
  | find => cases build <;> exact le_rfl
  | send clientId message uid =>
    have hlast : (Query.send clientId message uid).stepsAt build pid 3 ≤ 7 := by
      rw [Query.stepsAt, requestAt_send_three]
      by_cases hmatch : Regex.regexMatch matchExpr message
      · rw [if_pos hmatch]
        exact Nat.zero_le _
      · rw [if_neg hmatch]
        exact le_rfl
    cases build with
    | sync => exact Nat.succ_le_succ (Nat.add_le_add (le_refl 26) hlast)
    | async => exact Nat.succ_le_succ (Nat.add_le_add (le_refl 22) hlast)

section Bounds

variable {b : Board} {s : Board.State} {ls : List Label}
  (hrun : run b.deployment.step b.deployment.init ls = some s)

include hrun

/-- The part of a run that a query takes up after it was issued. -/
theorem query_le {r : RequestId} {q : Query} (hq : b.query? r = some q) :
    ∑ d ∈ Finset.range 4, (work ls).count ⟨r, d⟩ + 1 ≤ q.steps b.build := by
  refine (Nat.succ_le_succ (Finset.sum_le_sum fun d _ => ?_)).trans (stepsAt_le b.build r.proc q)
  cases hcall : s.calls ⟨r, d⟩ with
  | none =>
    have hspent := spent_of_run (handler_takes b.build) hrun ⟨r, d⟩
    rw [hcall] at hspent
    exact hspent ▸ Nat.zero_le _
  | some call =>
    rw [Query.stepsAt, requestAt_of_query ⟨ls, hrun⟩ hq hcall]
    exact work_le (handler_takes b.build) hrun hcall

/-- What is served are the hops of the queries. -/
theorem query_of_work {c : CallId} (hc : c ∈ work ls) :
    c.request.index < (b.queries c.request.proc).length ∧ c.depth < 4 := by
  obtain ⟨r, d⟩ := c
  obtain ⟨call, hcall⟩ := calls_of_mem_work (handler_takes b.build) hrun hc
  obtain ⟨q, hq, hop⟩ := requestAt_of_call ⟨ls, hrun⟩ hcall
  refine ⟨(List.getElem?_eq_some_iff.mp hq).1, ?_⟩
  cases q with
  | find =>
    rcases requestAt_find hop with ⟨rfl, -⟩ | ⟨rfl, -⟩ | ⟨rfl, -⟩ <;> simp
  | send =>
    rcases requestAt_send hop with ⟨rfl, -⟩ | ⟨rfl, -⟩ | ⟨rfl, -⟩ | ⟨rfl, -⟩ <;> simp

/-- The part of a run that a client's queries take up after they were issued. -/
theorem client_le (pid : Nat) :
    (group (fun c : CallId => c.request.proc) pid (work ls)).length +
      (b.queries pid).length ≤ ((b.queries pid).map (Query.steps b.build)).sum := by
  set own := group (fun c : CallId => c.request.proc) pid (work ls) with hown
  have hmem : ∀ c ∈ own, c ∈ work ls ∧ c.request.proc = pid := by
    intro c hc
    simpa [hown, group] using hc
  have hcount : ∀ i d, (work ls).count ⟨⟨pid, i⟩, d⟩ =
      (group CallId.depth d (group (fun c : CallId => c.request.index) i own)).length := by
    intro i d
    rw [length_group_eq_count (a := ⟨⟨pid, i⟩, d⟩)]
    · rw [hown, group, group, List.count_filter (by simp), List.count_filter (by simp)]
    · intro c hc
      obtain ⟨⟨p, j⟩, d'⟩ := c
      obtain ⟨hc, hj⟩ := List.mem_filter.mp hc
      obtain rfl : p = pid := (hmem _ hc).2
      obtain rfl : j = i := by simpa using hj
      simp
  have hsum : own.length = ∑ i ∈ Finset.range (b.queries pid).length,
      ∑ d ∈ Finset.range 4, (work ls).count ⟨⟨pid, i⟩, d⟩ := by
    have hindex : ∀ c ∈ own, c.request.index ∈ Finset.range (b.queries pid).length := by
      intro c hc
      obtain ⟨hwork, hpid⟩ := hmem c hc
      exact Finset.mem_range.mpr (hpid ▸ (query_of_work hrun hwork).1)
    rw [length_eq_sum_group (fun c : CallId => c.request.index) hindex]
    refine Finset.sum_congr rfl fun i _ => ?_
    have hdepth : ∀ c ∈ group (fun c : CallId => c.request.index) i own,
        c.depth ∈ Finset.range 4 := fun c hc =>
      Finset.mem_range.mpr (query_of_work hrun (hmem c (List.mem_of_mem_filter hc)).1).2
    rw [length_eq_sum_group CallId.depth hdepth]
    exact Finset.sum_congr rfl fun d _ => (hcount i d).symm
  have hqueries := sum_range_le_sum_map (l := b.queries pid)
    (f := fun i => ∑ d ∈ Finset.range 4, (work ls).count ⟨⟨pid, i⟩, d⟩ + 1)
    (g := Query.steps b.build) fun i q hq => query_le hrun (r := ⟨pid, i⟩) hq
  rw [Finset.sum_add_distrib, Finset.sum_const, Finset.card_range, smul_eq_mul, mul_one] at hqueries
  omega

end Bounds

/--
**Every run comes to an end**, time apart: a run of finitely many clients takes at
most 34 steps for each `send` and 25 for each `find`, and fewer where the services
are not built with `SYNC`.
-/
theorem board_bounded {b : Board} {s : Board.State} {ls : List Label} {clients : Nat}
    (hclients : ∀ pid, clients ≤ pid → b.queries pid = [])
    (hrun : run b.deployment.step b.deployment.init ls = some s) :
    busySteps ls ≤
      ∑ pid ∈ Finset.range clients, ((b.queries pid).map (Query.steps b.build)).sum := by
  have hclient : ∀ {pid i : Nat}, i < (b.queries pid).length → pid ∈ Finset.range clients := by
    intro pid i hi
    rw [Finset.mem_range]
    by_contra hpid
    rw [hclients pid (Nat.le_of_not_lt hpid)] at hi
    cases hi
  have hissues : ∀ pid ∈ issues ls, pid ∈ Finset.range clients := by
    intro pid hpid
    obtain ⟨hcount, hle⟩ := count_issues hrun pid
    have hpos := List.count_pos_iff.mpr hpid
    refine hclient (i := 0) ?_
    change _ ≤ ((b.queries pid).map (Request.query pid)).length at hle
    rw [List.length_map] at hle
    omega
  have hwork : ∀ c ∈ work ls, c.request.proc ∈ Finset.range clients :=
    fun c hc => hclient (query_of_work hrun hc).1
  rw [busySteps_eq, length_eq_sum_group id hissues,
    length_eq_sum_group (fun c : CallId => c.request.proc) hwork, ← Finset.sum_add_distrib]
  refine Finset.sum_le_sum fun pid _ => ?_
  have hissued : (group id pid (issues ls)).length ≤ (b.queries pid).length := by
    obtain ⟨hcount, hle⟩ := count_issues hrun pid
    change _ ≤ ((b.queries pid).map (Request.query pid)).length at hle
    rw [List.length_map, ← hcount] at hle
    rwa [length_group_eq_count id (a := pid) fun _ _ => Iff.rfl]
  have hserved := client_le hrun pid
  omega

theorem oneSender_finite (message : Text) (pid : Nat) (hpid : 1 ≤ pid) :
    (oneSender message).queries pid = [] := if_neg (Nat.one_le_iff_ne_zero.mp hpid)

theorem oneSender_query {message : Text} {r : RequestId} {q : Query}
    (hq : (oneSender message).query? r = some q) : r = ⟨0, 0⟩ := by
  obtain ⟨pid, i⟩ := r
  by_cases hpid : 1 ≤ pid
  · have hnone : ((oneSender message).queries pid)[i]? = some q := hq
    rw [oneSender_finite _ _ hpid] at hnone
    cases hnone
  · obtain rfl : pid = 0 := by omega
    obtain ⟨hlt, -⟩ := List.getElem?_eq_some_iff.mp hq
    obtain rfl : i = 0 := Nat.lt_one_iff.mp hlt
    rfl

/-- The run of a single short message takes as many steps as it may. -/
theorem board_bounded_hi :
    busySteps (sendToFilter ⟨0, 0⟩ ++ filterToDatabase ⟨0, 0⟩ ++ databaseToClient ⟨0, 0⟩) = 30 ∧
      busySteps (sendToFilter ⟨0, 0⟩ ++ filterToDatabase ⟨0, 0⟩ ++ databaseToClient ⟨0, 0⟩) ≤
        30 :=
  ⟨by decide, @board_bounded (oneSender "hi".toList) _ _ 1 (oneSender_finite _) rfl⟩

-- ---------------------------------------------------------------------------
-- No deadlock
-- ---------------------------------------------------------------------------

/-- The services stand in layers. -/
theorem rank_of_home {op op' : Request} (h : home op = home op') : op.rank = op'.rank := by
  cases op <;> cases op' <;> first | rfl | cases h

/-- An iteration of the client ends after it has made its call only. -/
theorem iteration_sends {pid : Nat} {q : Query} {t : List (Act sig)} {o : Outcome sig}
    (h : Ends (Client.iteration pid q) t o) : ∃ op, .start op ∈ t := by
  obtain ⟨u, op, k, hshape, -⟩ := iteration_shape pid q
  rw [hshape, ends_record] at h
  obtain ⟨t', rfl, h⟩ := h
  obtain ⟨t'', rfl, -⟩ := ends_start.mp h
  exact ⟨op, by simp⟩

section Stalled

variable {b : Board} {s : Board.State} {workers : Service → Nat}

theorem script_sends (pid : Nat) (op : Request) (hop : op ∈ b.deployment.script pid)
    (t : List (Act sig)) (o : Outcome sig) (h : Ends (b.deployment.code op) t o) :
    ∃ op', .start op' ∈ t := by
  obtain ⟨q, -, rfl⟩ := List.mem_map.mp hop
  exact iteration_sends h

theorem stalled_returned (hworkers : ∀ svc, 0 < workers svc) (hreach : b.Reachable s)
    (hstalled : Stalled b.deployment workers s) (c : CallId) (call : Call sig)
    (hcall : s.calls c = some call) : ∃ o, call.phase = .returned o :=
  hstalled.returned (handler_behaves b.build) (fun _ _ => rank_of_home) hworkers hreach hcall

/--
**No deadlock.** Let each service have at least one worker. Where nothing can happen
any more, whatever has failed on the way, no call is under way, and every query has
ended; or its client waits for each reply and has stopped at an earlier query, whose
call has raised.
-/
theorem board_deadlock_free (hworkers : ∀ svc, 0 < workers svc) (hreach : b.Reachable s)
    (hstalled : Stalled b.deployment workers s) :
    (∀ c call, s.calls c = some call → ∃ o, call.phase = .returned o) ∧
      ∀ pid i q, b.query? ⟨pid, i⟩ = some q →
        (∃ call o, s.calls ⟨⟨pid, i⟩, 0⟩ = some call ∧ call.phase = .returned o) ∨
          (b.clientSync pid = true ∧ ∃ j < i, ∃ call, s.calls ⟨⟨pid, j⟩, 0⟩ = some call ∧
            call.phase = .returned .raised) := by
  have hreturned := stalled_returned hworkers hreach hstalled
  refine ⟨hreturned, fun pid i q hq => ?_⟩
  by_cases hi : i < s.issued pid
  · obtain ⟨call, hcall⟩ := issued_reaches hreach hi
    obtain ⟨o, hphase⟩ := hreturned _ call hcall
    exact .inl ⟨call, o, hcall, hphase⟩
  · have hlt : i < ((b.queries pid).map (Request.query pid)).length := by
      rw [List.length_map]
      exact (List.getElem?_eq_some_iff.mp hq).1
    rcases hstalled.issued hreach hreturned script_sends pid with
      hall | ⟨hsync, j, call, hj, hcall, hphase⟩
    · exact absurd (hlt.trans_le hall) hi
    · exact .inr ⟨hsync, j, by omega, call, hcall, hphase⟩

end Stalled

/-- With one worker for each service, the run of a short message ends. -/
theorem board_deadlock_free_hi :
    ∃ s, (oneSender "hi".toList).Reachable s ∧
      Stalled (oneSender "hi".toList).deployment (fun _ => 1) s ∧
      ∃ call o, s.calls ⟨⟨0, 0⟩, 0⟩ = some call ∧ call.phase = .returned o := by
  obtain ⟨s, hreach, hstalled⟩ := exists_stalled (D := (oneSender "hi".toList).deployment)
    (fun _ => 1) (fun _ _ => board_bounded (oneSender_finite _)) (.refl _)
  have hplain := reaches_of_reliable hreach
  obtain ⟨-, hquery⟩ := board_deadlock_free (fun _ => Nat.one_pos) hplain hstalled
  rcases hquery 0 0 _ rfl with h | ⟨hsync, -⟩
  · exact ⟨s, hplain, hstalled, h⟩
  · cases hsync

-- ---------------------------------------------------------------------------
-- Where no call fails
-- ---------------------------------------------------------------------------

/-- The answer to a query: under its own uid, and for a `send` what the filter
says about its message. -/
def Query.AnsweredWith : Query → Value → Prop
  | .find _ uid, v => ∃ message, v = .message ⟨message, uid.toInt64⟩
  | .send _ message uid, v => v = .status ⟨!Regex.regexMatch matchExpr message, uid.toInt64⟩

/-- What a client has been answered is an answer to its query. -/
theorem answeredWith_of_returned {b : Board} {s : Board.State} (hreach : b.Reachable s)
    {r : RequestId} {q : Query} (hq : b.query? r = some q) {call : Call sig} {v : Value}
    (hcall : s.calls ⟨r, 0⟩ = some call) (hphase : call.phase = .returned (.value v)) :
    q.AnsweredWith v := by
  have hends := ends_of_finish hreach hq rfl (finish_of_returned hreach hcall hphase)
  cases q with
  | find clientId uid =>
    obtain ⟨resp, w, rfl, htrail⟩ := iteration_find_value hends
    obtain ⟨callee, -, -, -, hends'⟩ := callee_of_await hreach ⟨r, 0⟩
      (.findLastMessage clientId uid.toInt64) (.message resp) (by rw [htrail]; simp)
      (by rw [htrail]; simp)
    obtain ⟨result, hv, -⟩ := find_answered hreach hends'
    exact ⟨result, hv⟩
  | send clientId message uid =>
    obtain ⟨resp, w, rfl, htrail⟩ := iteration_send_value hends
    obtain ⟨callee, -, -, -, hends'⟩ := callee_of_await hreach ⟨r, 0⟩
      (.sendMessage clientId message uid.toInt64) (.status resp) (by rw [htrail]; simp)
      (by rw [htrail]; simp)
    obtain ⟨res, hv, -, hbelow⟩ := send_answered hreach hends'
    rcases hbelow with ⟨hmatch, rfl, -⟩ | ⟨hmatch, rfl, -⟩
    · rw [Query.AnsweredWith, hmatch]
      exact hv
    · rw [Query.AnsweredWith, hmatch]
      exact hv

/--
**Every query gets its answer** where no call fails and each service has at least one
worker. Whatever has been done so far, the board can be brought to a state in which
nothing can happen any more; and however it gets to such a state, each query has been
answered, a `send` with what the filter says about its message.
-/
theorem board_completes {b : Board} {s : Board.State} {workers : Service → Nat} {clients : Nat}
    (hclients : ∀ pid, clients ≤ pid → b.queries pid = []) (hworkers : ∀ svc, 0 < workers svc)
    (hreach : Reaches (b.deployment.stepReliable workers) b.deployment.init s) :
    (∃ t, Reaches (b.deployment.stepReliable workers) s t ∧ Stalled b.deployment workers t) ∧
      ∀ t, Reaches (b.deployment.stepReliable workers) s t → Stalled b.deployment workers t →
        ∀ pid i q, b.query? ⟨pid, i⟩ = some q →
          ∃ call v, t.calls ⟨⟨pid, i⟩, 0⟩ = some call ∧ call.phase = .returned (.value v) ∧
            q.AnsweredWith v := by
  refine ⟨exists_stalled workers (fun _ _ => board_bounded hclients) (reaches_of_reliable hreach),
    fun t hst hstalled pid i q hq => ?_⟩
  have ht := hreach.trans hst
  have hscript : (b.deployment.script pid)[i]? = some (.query pid q) := by
    show ((b.queries pid).map (Request.query pid))[i]? = _
    rw [List.getElem?_map]
    exact congrArg (Option.map _) hq
  obtain ⟨call, v, hcall, -, hphase, -⟩ := hstalled.answered (handler_behaves b.build) ht
    (fun _ _ => rank_of_home) hworkers script_sends hscript
  exact ⟨call, v, hcall, hphase,
    answeredWith_of_returned (reaches_of_reliable ht) hq hcall hphase⟩

/-- A short message is acknowledged in the end. -/
theorem board_completes_hi :
    ∃ s call, (oneSender "hi".toList).Reachable s ∧
      s.calls ⟨⟨0, 0⟩, 0⟩ = some call ∧ call.phase = .returned (.value (.status ⟨true, 0⟩)) := by
  obtain ⟨⟨t, hst, hstalled⟩, hall⟩ := board_completes (b := oneSender "hi".toList)
    (oneSender_finite _) (fun _ => Nat.one_pos) (.refl _)
  obtain ⟨call, v, hcall, hphase, rfl⟩ := hall t hst hstalled 0 0 _ rfl
  exact ⟨t, call, reaches_of_reliable hst, hcall, hphase⟩

end MockMessageBoard
