import MockMessageBoard.Board.Serving
import MockMessageBoard.Board.Summary
import MockMessageBoard.Board.Tracing

/-!
# MockMessageBoard — who records what, and when

Every handler records its query first. So whatever a service records for a query,
the client has recorded the query before; and the client records a query once
more when it has the reply, but not earlier.

* `exists_first_record` — a handler begins with an entry;
* `client_first`        — the client's entry is the first one of all;
* `length_recordedBy_le`, `length_recordedBy_inFlight`, `length_recordedBy_returned`
  — how many entries the client has recorded;
* `mem_of_inFlight`     — when a query waits for its reply the services are done with it.
-/

namespace MockMessageBoard

open TextFile Rpc State Transition

/-- The calls of `add_entry` in the process `svc`. -/
def recordedBy (s : Board.State) (svc : Service) : List (Event sig) :=
  s.history.filter fun e => e.act.isRecord && e.svc = svc

theorem mem_recordedBy {s : Board.State} {svc : Service} {e : Event sig} :
    e ∈ recordedBy s svc ↔ e ∈ s.history ∧ e.act.isRecord = true ∧ e.svc = svc := by
  simp [recordedBy]

/-- Every handler begins with an entry. -/
theorem handler_head (build : Build) (op : Request) : ∃ p, handler build op = .record op.uid p := by
  cases op with
  | query pid q => cases q <;> exact ⟨_, rfl⟩
  | _ => exact ⟨_, rfl⟩

-- ---------------------------------------------------------------------------
-- The entries of an iteration
-- ---------------------------------------------------------------------------

theorem countP_records_call {u : UInt64} {op : Request} {k : Value → Prog sig} {t : List (Act sig)}
    (h : Upto (.record u (.start op (.await k))) t)
    (hk : ∀ v t', Upto (k v) t' → t'.countP Act.isRecord ≤ 1) :
    t.countP Act.isRecord ≤ if (awaited t).isSome then 2 else 1 := by
  simp only [upto_record, upto_start, upto_await] at h
  obtain rfl | ⟨_, rfl, rfl | ⟨_, rfl, rfl | rfl | ⟨v, t', rfl, ht'⟩⟩⟩ := h
  · exact Nat.zero_le _
  · exact le_rfl
  · exact le_rfl
  · exact le_rfl
  · have hcallback := hk v t' ht'
    simp only [List.countP_cons, Act.isRecord, awaited, List.findSome?_cons, Option.isSome_some,
      if_true, Bool.false_eq_true, if_false]
    omega

theorem countP_records_callback {u : UInt64} {a : Access} {v : Value} {t : List (Act sig)}
    (h : Upto (.access a fun _ => .record u (.ret v)) t) : t.countP Act.isRecord ≤ 1 := by
  simp only [upto_access, upto_record, upto_ret] at h
  obtain rfl | ⟨w, _, rfl, rfl | ⟨_, rfl, rfl | rfl⟩⟩ := h
  · exact Nat.zero_le _
  · exact Nat.zero_le _
  · exact le_rfl
  · exact le_rfl

/-- An iteration records once, and once more when it has its reply. -/
theorem countP_records_iteration {pid : Nat} {q : Query} {t : List (Act sig)}
    (h : Upto (Client.iteration pid q) t) :
    t.countP Act.isRecord ≤ if (awaited t).isSome then 2 else 1 := by
  have hthrow : ∀ t', Upto (.throw : Prog sig) t' → t'.countP Act.isRecord ≤ 1 := by
    intro t' ht'
    rcases upto_throw.mp ht' with rfl | rfl
    · exact Nat.zero_le _
    · exact Nat.zero_le _
  cases q with
  | find clientId uid =>
    refine countP_records_call h fun v t' ht' => ?_
    cases v with
    | message resp => exact countP_records_callback ht'
    | _ => exact hthrow t' ht'
  | send clientId message uid =>
    refine countP_records_call h fun v t' ht' => ?_
    cases v with
    | status resp => exact countP_records_callback ht'
    | _ => exact hthrow t' ht'

section Reachable

variable {b : Board} {s : Board.State} (hreach : b.Reachable s)

include hreach

-- ---------------------------------------------------------------------------
-- The first entry
-- ---------------------------------------------------------------------------

/-- A handler that has done anything has begun with an entry. -/
theorem exists_first_record {e : Event sig} (he : e ∈ s.history) :
    ∃ e₀ ∈ recordedBy s e.svc, e₀.call = e.call ∧ e₀.seq ≤ e.seq := by
  obtain ⟨call, hcall, hsvc⟩ := known_reaches hreach e he
  have hupto := upto_of_call hreach hcall
  obtain ⟨p, hp⟩ := handler_head b.build call.op
  rw [show b.deployment.code call.op = _ from hp, upto_record] at hupto
  have hmem : e ∈ s.eventsOf e.call := mem_eventsOf.mpr ⟨he, rfl⟩
  have hsorted := eventsOf_sorted hreach e.call
  unfold trail at hupto
  cases hevents : s.eventsOf e.call with
  | nil =>
    rw [hevents] at hmem
    cases hmem
  | cons e₀ es =>
    rw [hevents] at hupto hmem hsorted
    obtain ⟨t', hcons, -⟩ := hupto.resolve_left (List.cons_ne_nil _ _)
    have hact : e₀.act = .record call.op.uid := (List.cons.inj hcons).1
    obtain ⟨he₀, hec₀⟩ := mem_eventsOf.mp (hevents ▸ List.mem_cons_self : e₀ ∈ s.eventsOf e.call)
    obtain ⟨call₀, hcall₀, hsvc₀⟩ := known_reaches hreach e₀ he₀
    rw [hec₀, hcall] at hcall₀
    cases hcall₀
    have hrec := Act.isRecord_iff.mpr ⟨_, hact⟩
    refine ⟨e₀, mem_recordedBy.mpr ⟨he₀, hrec, hsvc₀.trans hsvc.symm⟩, hec₀, ?_⟩
    rcases List.mem_cons.mp hmem with rfl | htail
    · exact le_rfl
    · exact ((List.pairwise_cons.mp hsorted).1 e htail).le

/-- The roots are the client's. -/
theorem svc_of_root {e : Event sig} (he : e ∈ s.history) (hdepth : e.call.depth = 0) :
    e.svc = .client e.call.request.proc := by
  obtain ⟨call, hcall, hsvc⟩ := known_reaches hreach e he
  obtain ⟨⟨r, d⟩, svc, seq, time, act⟩ := e
  obtain rfl : d = 0 := hdepth
  obtain ⟨q, -, hop⟩ := requestAt_of_call hreach hcall
  rw [hsvc, ← Option.some.inj hop]
  rfl

/-- Whatever a service does for a query, the client has recorded the query before. -/
theorem client_first {e : Event sig} (he : e ∈ s.history) (hsvc : ∀ pid, e.svc ≠ .client pid) :
    ∃ e₀ ∈ recordedBy s (.client e.call.request.proc), e₀.seq < e.seq := by
  have hdepth : e.call.depth ≠ 0 := fun h => hsvc _ (svc_of_root hreach he h)
  obtain ⟨e₁, he₁, hec₁, -, hlt⟩ := after_start hreach (c := ⟨e.call.request, 0⟩) he rfl
    (Nat.pos_of_ne_zero hdepth)
  obtain ⟨e₀, he₀, -, hle⟩ := exists_first_record hreach he₁
  rw [svc_of_root hreach he₁ (by rw [hec₁]), hec₁] at he₀
  exact ⟨e₀, he₀, by omega⟩

-- ---------------------------------------------------------------------------
-- How many entries the client has recorded
-- ---------------------------------------------------------------------------

/-- The client's entries, iteration by iteration. -/
theorem length_recordedBy_eq (pid : Nat) :
    (recordedBy s (.client pid)).length =
      ∑ i ∈ Finset.range (b.queries pid).length, (s.trail ⟨⟨pid, i⟩, 0⟩).countP Act.isRecord := by
  have hroot : ∀ e ∈ s.history, (e.act.isRecord && e.svc = .client pid) = true →
      ∃ i < (b.queries pid).length, e.call = ⟨⟨pid, i⟩, 0⟩ := by
    intro e he hrec
    obtain ⟨call, hcall, hsvc⟩ := known_reaches hreach e he
    have hclient : home call.op = .client pid := by
      rw [Bool.and_eq_true, decide_eq_true_eq] at hrec
      exact hsvc.symm.trans hrec.2
    cases hop : call.op with
    | query p q =>
      rw [hop] at hclient
      cases hclient
      exact root_of_query hreach hcall hop
    | _ =>
      rw [hop] at hclient
      cases hclient
  unfold recordedBy
  rw [← List.countP_eq_length_filter, countP_roots_eq hroot]
  refine Finset.sum_congr rfl fun i _ => ?_
  unfold trail
  rw [List.countP_map]
  refine List.countP_congr fun e he => ?_
  obtain ⟨he', hec⟩ := mem_eventsOf.mp he
  have hsvc := svc_of_root hreach he' (by rw [hec])
  rw [hec] at hsvc
  simp [hsvc]

theorem records_root_le (pid i : Nat) :
    (s.trail ⟨⟨pid, i⟩, 0⟩).countP Act.isRecord ≤
      if (replyTo s pid i).isSome then 2 else 1 := by
  cases hcall : s.calls ⟨⟨pid, i⟩, 0⟩ with
  | none =>
    rw [trail_eq_nil hreach hcall]
    exact Nat.zero_le _
  | some call =>
    have hupto := upto_of_call hreach hcall
    obtain ⟨q, -, hop⟩ := requestAt_of_call hreach hcall
    rw [← Option.some.inj hop] at hupto
    exact countP_records_iteration hupto

/-- Two entries for each iteration, at most. -/
theorem length_recordedBy_le (pid : Nat) :
    (recordedBy s (.client pid)).length ≤ 2 * (b.queries pid).length := by
  rw [length_recordedBy_eq hreach, Nat.mul_comm]
  calc ∑ i ∈ Finset.range (b.queries pid).length, (s.trail ⟨⟨pid, i⟩, 0⟩).countP Act.isRecord
      ≤ (Finset.range (b.queries pid).length).card • 2 := by
        refine Finset.sum_le_card_nsmul _ _ _ fun i _ => ?_
        have hle := records_root_le hreach pid i
        split at hle <;> omega
    _ = (b.queries pid).length * 2 := by rw [Finset.card_range, smul_eq_mul]

/-- Nobody has the reply to a query under way. -/
theorem replyTo_inFlight {pid i : Nat} (hflight : InFlight s pid i) : replyTo s pid i = none := by
  obtain ⟨op, op', tid, k, v, -, hchild, -⟩ := hflight
  cases hreply : replyTo s pid i with
  | none => rfl
  | some w =>
    obtain ⟨call, hcall, htold⟩ := awaited_reaches hreach _ w (mem_of_awaited hreply)
    rw [show (⟨⟨pid, i⟩, 0⟩ : CallId).child = ⟨⟨pid, i⟩, 1⟩ from rfl, hchild] at hcall
    cases hcall
    cases htold

/-- One entry for each query under way, at most. -/
theorem length_recordedBy_inFlight {pid : Nat}
    (hflight : ∀ i < (b.queries pid).length, InFlight s pid i) :
    (recordedBy s (.client pid)).length ≤ (b.queries pid).length := by
  rw [length_recordedBy_eq hreach]
  calc ∑ i ∈ Finset.range (b.queries pid).length, (s.trail ⟨⟨pid, i⟩, 0⟩).countP Act.isRecord
      ≤ (Finset.range (b.queries pid).length).card • 1 := by
        refine Finset.sum_le_card_nsmul _ _ _ fun i hi => ?_
        have hle := records_root_le hreach pid i
        rw [replyTo_inFlight hreach (hflight i (Finset.mem_range.mp hi))] at hle
        exact hle
    _ = (b.queries pid).length := by rw [Finset.card_range, smul_eq_mul, Nat.mul_one]

/-- Two entries for each iteration that has had its reply. -/
theorem records_root_returned {pid i : Nat} (hreturned : Returned s pid i) :
    (s.trail ⟨⟨pid, i⟩, 0⟩).countP Act.isRecord = 2 := by
  obtain ⟨call, v, hcall, hphase⟩ := hreturned
  have hends := ends_of_returned hreach hcall hphase
  obtain ⟨q, -, hop⟩ := requestAt_of_call hreach hcall
  rw [← Option.some.inj hop] at hends
  cases q with
  | find =>
    obtain ⟨resp, w, -, htrail⟩ := iteration_find_value hends
    rw [htrail]
    rfl
  | send =>
    obtain ⟨resp, w, -, htrail⟩ := iteration_send_value hends
    rw [htrail]
    rfl

theorem length_recordedBy_returned {pid : Nat}
    (hreturned : ∀ i < (b.queries pid).length, Returned s pid i) :
    (recordedBy s (.client pid)).length = 2 * (b.queries pid).length := by
  rw [length_recordedBy_eq hreach, Finset.sum_congr rfl fun i hi =>
    records_root_returned hreach (hreturned i (Finset.mem_range.mp hi)), Finset.sum_const,
    Finset.card_range, smul_eq_mul, Nat.mul_comm]

-- ---------------------------------------------------------------------------
-- What the services have done
-- ---------------------------------------------------------------------------

/-- When the reply to a query is under way the services are done with the query. -/
theorem mem_of_inFlight {t : Board.State} (hst : Reaches b.deployment.step s t) {pid i : Nat}
    (hflight : InFlight s pid i) {e : Event sig} (he : e ∈ t.history)
    (hrequest : e.call.request = ⟨pid, i⟩) (hdepth : e.call.depth ≠ 0) : e ∈ s.history := by
  obtain ⟨op, op', tid, k, v, -, hchild, -⟩ := hflight
  obtain ⟨f, hf, hfc, hact⟩ := mem_trail.mp (finish_of_returned hreach hchild rfl)
  obtain ⟨-, es, hsplit, -⟩ := history_extends hst
  have hf' : f ∈ t.history := hsplit ▸ List.mem_append_left _ hf
  have hreach' := hreach.trans hst
  have hle : e.seq ≤ f.seq := by
    rcases Nat.eq_or_lt_of_le (Nat.one_le_iff_ne_zero.mpr hdepth) with hone | hlt
    · refine finishLast_reaches hreach' f hf' e he _ hact ?_
      rw [hfc, ← hrequest, hone]
    · obtain ⟨e₁, -, -, -, hlt₁, hle₁⟩ := before_finish hreach' (handler_joins b.build) hf' he hact
        (by rw [hfc, hrequest]) (by rw [hfc]; exact hlt)
      omega
  exact mem_of_seq_lt hreach' hsplit he (hle.trans_lt (seq_lt hreach hf))

/-- And MessageService has recorded it. -/
theorem recorded_of_inFlight {pid i : Nat} (hflight : InFlight s pid i) :
    ∃ e, e ∈ recordedBy s .messageService := by
  obtain ⟨op, op', tid, k, v, -, hchild, -⟩ := hflight
  obtain ⟨f, hf, hfc, -⟩ := mem_trail.mp (finish_of_returned hreach hchild rfl)
  obtain ⟨e₀, he₀, -⟩ := exists_first_record hreach hf
  obtain ⟨call, hcall, hsvc⟩ := known_reaches hreach f hf
  rw [hfc, hchild] at hcall
  cases hcall
  obtain ⟨q, -, hop⟩ := requestAt_of_call hreach hchild
  have hhome : f.svc = .messageService := by
    rw [hsvc]
    cases q <;> cases hop <;> rfl
  exact ⟨e₀, hhome ▸ he₀⟩

end Reachable

end MockMessageBoard
