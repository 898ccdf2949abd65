import MockMessageBoard.Board.Tracing

/-!
# MockMessageBoard — spans

The entries that a service has recorded under the uid of a query are those of
the one invocation that served the query there, if uids are distinct, and the
clock stamps them in causal order. So the spans of an answered query nest along
its chain of calls, however the services are built and the clients wait.

* `record_origin` — whatever is recorded under a uid serves the query of that uid;
* `times_eq`      — the times a service has recorded for a query;
* `spans_nest`    — the spans of an answered query.
-/

namespace MockMessageBoard

open TextFile Rpc State Transition

/-- The action records an entry for `uid` with the manager of `svc`. -/
def recordsUid (svc : Service) (uid : UInt64) (e : Event sig) : Bool :=
  match e.act with
  | .record n => e.svc = svc ∧ n = uid
  | _ => false

/-- The times that the manager of `svc` has received with `uid`, in order. -/
def times (s : Board.State) (svc : Service) (uid : UInt64) : List Nat :=
  (s.history.filter (recordsUid svc uid)).map Event.time

/-- No two queries have the same uid. -/
def Board.DistinctUids (b : Board) : Prop :=
  ∀ r r' q q', b.query? r = some q → b.query? r' = some q' → q.uid = q'.uid → r = r'

theorem recordsUid_iff {svc : Service} {uid : UInt64} {e : Event sig} :
    recordsUid svc uid e = true ↔ e.svc = svc ∧ e.act = .record uid := by
  obtain ⟨c, svc', seq, time, act⟩ := e
  cases act with
  | record n => simp [recordsUid]
  | _ => simp [recordsUid]

/-- The hops of a query carry its uid. -/
theorem uid_of_requestAt {pid d : Nat} {q : Query} {op : Request}
    (h : q.requestAt pid d = some op) : op.uid = q.uid := by
  cases q with
  | find => rcases requestAt_find h with ⟨-, rfl⟩ | ⟨-, rfl⟩ | ⟨-, rfl⟩ <;> rfl
  | send =>
    rcases requestAt_send h with ⟨-, rfl⟩ | ⟨-, rfl⟩ | ⟨-, rfl⟩ | ⟨-, -, rfl⟩ <;> rfl

/-- A client records its query first, and nothing else before the reply. -/
theorem call_records {u n : UInt64} {op : Request} {k : Value → Prog sig} {t : List (Act sig)}
    (h : Upto (.record u (.start op (.await k))) t) (hmem : .record n ∈ t) :
    n = u ∨ ∃ v t', t = .record u :: .start op :: .await v :: t' ∧ Upto (k v) t' ∧
      .record n ∈ t' := by
  simp only [upto_record, upto_start, upto_await] at h
  rcases h with rfl | ⟨_, rfl, rfl | ⟨_, rfl, rfl | rfl | ⟨v, t', rfl, hk⟩⟩⟩
  · cases hmem
  · exact .inl (by simpa using hmem)
  · exact .inl (by simpa using hmem)
  · exact .inl (by simpa using hmem)
  · rcases (by simpa using hmem : n = u ∨ .record n ∈ t') with rfl | hmem'
    · exact .inl rfl
    · exact .inr ⟨v, t', rfl, hk, hmem'⟩

/-- What a callback records. -/
theorem reply_records {u n : UInt64} {a : Access} {v : Value} {t : List (Act sig)}
    (h : Upto (.access a fun _ => .record u (.ret v)) t) (hmem : .record n ∈ t) : n = u := by
  simp only [upto_access, upto_record, upto_ret] at h
  rcases h with rfl | ⟨w, _, rfl, rfl | ⟨_, rfl, rfl | rfl⟩⟩
  · cases hmem
  · simp at hmem
  · simpa using hmem
  · simpa using hmem

theorem throw_records {n : UInt64} {t : List (Act sig)} (h : Upto (.throw : Prog sig) t) :
    .record n ∉ t := by
  rcases upto_throw.mp h with rfl | rfl
  · exact List.not_mem_nil
  · simp

/-- What the client records is the uid of its query or of the reply. -/
theorem iteration_records {pid : Nat} {q : Query} {t : List (Act sig)} {n : UInt64}
    (h : Upto (Client.iteration pid q) t) (hmem : .record n ∈ t) :
    n = q.uid ∨
      (∃ clientId resp, .start (.findLastMessage clientId q.uid.toInt64) ∈ t ∧
        .await (.message resp) ∈ t ∧ n = resp.queryUid.toUInt64) ∨
      ∃ clientId message resp, .start (.sendMessage clientId message q.uid.toInt64) ∈ t ∧
        .await (.status resp) ∈ t ∧ n = resp.queryUid.toUInt64 := by
  cases q with
  | find clientId uid =>
    rcases call_records h hmem with rfl | ⟨v, t', rfl, hk, hmem'⟩
    · exact .inl rfl
    · cases v with
      | message resp =>
        obtain rfl := reply_records hk hmem'
        exact .inr (.inl ⟨clientId, resp, by simp [Query.uid], by simp, rfl⟩)
      | _ => exact absurd hmem' (throw_records hk)
  | send clientId message uid =>
    rcases call_records h hmem with rfl | ⟨v, t', rfl, hk, hmem'⟩
    · exact .inl rfl
    · cases v with
      | status resp =>
        obtain rfl := reply_records hk hmem'
        exact .inr (.inr ⟨clientId, message, resp, by simp [Query.uid], by simp, rfl⟩)
      | _ => exact absurd hmem' (throw_records hk)

section Reachable

variable {b : Board} {s : Board.State} (hreach : b.Reachable s)

include hreach

/-- Whatever is recorded is the uid of the query that the call serves. -/
theorem record_origin {e : Event sig} {n : UInt64} (he : e ∈ s.history)
    (hact : e.act = .record n) : ∃ q, b.query? e.call.request = some q ∧ n = q.uid := by
  obtain ⟨call, hcall, -⟩ := known_reaches hreach e he
  obtain ⟨q, hq, hop⟩ := requestAt_of_call hreach hcall
  refine ⟨q, hq, ?_⟩
  rw [← uid_of_requestAt hop]
  have hmem : .record n ∈ s.trail e.call := mem_trail.mpr ⟨e, he, rfl, hact⟩
  have hallows := allows_of_mem hreach hcall hmem
  have hupto := upto_of_call hreach hcall
  generalize call.op = op at hallows hupto
  cases op with
  | query pid q =>
    rcases iteration_records hupto hmem with rfl | ⟨clientId, resp, hstart, hawait, rfl⟩ |
      ⟨clientId, message, resp, hstart, hawait, rfl⟩
    · rfl
    · exact uid_of_message hreach clientId q.uid resp hstart hawait
    · exact uid_of_status hreach clientId message q.uid resp hstart hawait
  | _ => exact hallows

variable (hdistinct : b.DistinctUids) {r : RequestId} {q : Query} (hq : b.query? r = some q)

include hdistinct hq

/-- An entry with the uid of a query serves that query. -/
theorem request_of_record {svc : Service} {e : Event sig} (he : e ∈ s.history)
    (hrec : recordsUid svc q.uid e = true) :
    e.call.request = r ∧ ∃ op, q.requestAt r.proc e.call.depth = some op ∧ home op = svc := by
  obtain ⟨rfl, hact⟩ := recordsUid_iff.mp hrec
  obtain ⟨q', hq', huid⟩ := record_origin hreach he hact
  obtain rfl := hdistinct _ _ _ _ hq hq' huid
  rw [hq] at hq'
  cases hq'
  obtain ⟨call, hcall, hsvc⟩ := known_reaches hreach e he
  exact ⟨rfl, call.op, requestAt_of_query hreach hq hcall, hsvc.symm⟩

/-- The times that a service has recorded for a query are those of the one
invocation that served the query there. -/
theorem times_eq {svc : Service} {d : Nat} {op : Request}
    (hop : q.requestAt r.proc d = some op) (hhome : home op = svc)
    (honly : ∀ d' op', q.requestAt r.proc d' = some op' → home op' = svc → d' = d) :
    times s svc q.uid = (recordsOf s ⟨r, d⟩).map Event.time := by
  have hcall : ∀ e ∈ s.history, recordsUid svc q.uid e = true → e.call = ⟨r, d⟩ := by
    intro e he hrec
    obtain ⟨hr, op', hop', hhome'⟩ := request_of_record hreach hdistinct hq he hrec
    rw [← hr, ← honly _ _ hop' hhome']
  rw [times, recordsOf, filter_history hcall]
  refine congrArg (List.map Event.time) (List.filter_congr fun e he => ?_)
  obtain ⟨he, hec⟩ := mem_eventsOf.mp he
  obtain ⟨call, hcall', hsvc⟩ := known_reaches hreach e he
  rw [Bool.eq_iff_iff, recordsUid_iff, Act.isRecord_iff]
  constructor
  · rintro ⟨-, hact⟩
    exact ⟨_, hact⟩
  · rintro ⟨n, hact⟩
    obtain ⟨q', hq', hn⟩ := record_origin hreach he hact
    rw [hec] at hcall' hq'
    obtain rfl := Option.some.inj (hq.symm.trans hq')
    obtain rfl := Option.some.inj (hop.symm.trans (requestAt_of_query hreach hq hcall'))
    exact ⟨by rw [hsvc]; exact hhome, by rw [hact, hn]⟩

/-- A service that a query does not reach records nothing for it. -/
theorem times_eq_nil {svc : Service}
    (hnone : ∀ d op, q.requestAt r.proc d = some op → home op ≠ svc) :
    times s svc q.uid = [] := by
  rw [times, List.map_eq_nil_iff, List.filter_eq_nil_iff]
  intro e he hrec
  obtain ⟨-, op, hop, hhome⟩ := request_of_record hreach hdistinct hq he hrec
  exact hnone _ op hop hhome

omit hdistinct hq in
/-- The two entries of a span, in time. -/
theorem spanned_times {c : CallId} {uid : UInt64} (h : Spanned s c uid) :
    ∃ t₁ t₂, (recordsOf s c).map Event.time = [t₁, t₂] ∧ t₁ ≤ t₂ ∧
      ∀ d, c.depth < d → ∀ t ∈ (recordsOf s ⟨c.request, d⟩).map Event.time, t₁ ≤ t ∧ t ≤ t₂ := by
  obtain ⟨e₁, e₂, hrecords, -, -, hdown⟩ := h
  have hmem : ∀ e ∈ recordsOf s c, e ∈ s.history := fun e he =>
    (mem_eventsOf.mp (List.mem_filter.mp he).1).1
  have h₁ := hmem e₁ (by rw [hrecords]; simp)
  have h₂ := hmem e₂ (by rw [hrecords]; simp)
  have hsorted : (recordsOf s c).Pairwise fun e e' => e.seq < e'.seq :=
    (eventsOf_sorted hreach c).filter _
  have hlt : e₁.seq < e₂.seq := by
    rw [hrecords] at hsorted
    exact (List.pairwise_cons.mp hsorted).1 e₂ (List.mem_singleton_self _)
  refine ⟨e₁.time, e₂.time, by rw [hrecords]; rfl, time_le hreach h₁ h₂ hlt.le, ?_⟩
  intro d hd t ht
  obtain ⟨e, he, rfl⟩ := List.mem_map.mp ht
  obtain ⟨hmem', hec⟩ := mem_eventsOf.mp (List.mem_filter.mp he).1
  obtain ⟨hlt₁, hlt₂⟩ := hdown e hmem' (.inr ⟨by rw [hec], by rw [hec]; exact hd⟩)
  exact ⟨time_le hreach h₁ hmem' hlt₁.le, time_le hreach hmem' h₂ hlt₂.le⟩

omit hdistinct hq

/-- Where the entries of a `find` are. -/
theorem times_of_find (hdistinct : b.DistinctUids) {clientId : Text} {uid : UInt64}
    (hq : b.query? r = some (.find clientId uid)) :
    times s (.client r.proc) uid = (recordsOf s ⟨r, 0⟩).map Event.time ∧
      times s .messageService uid = (recordsOf s ⟨r, 1⟩).map Event.time ∧
      times s .mockDatabase uid = (recordsOf s ⟨r, 2⟩).map Event.time := by
  refine ⟨times_eq hreach hdistinct hq rfl rfl fun d op hop hhome => ?_,
    times_eq hreach hdistinct hq rfl rfl fun d op hop hhome => ?_,
    times_eq hreach hdistinct hq rfl rfl fun d op hop hhome => ?_⟩ <;>
  rcases requestAt_find hop with ⟨rfl, rfl⟩ | ⟨rfl, rfl⟩ | ⟨rfl, rfl⟩ <;>
  first | rfl | cases hhome

/-- Where the entries of a `send` are. -/
theorem times_of_send (hdistinct : b.DistinctUids) {clientId message : Text} {uid : UInt64}
    (hq : b.query? r = some (.send clientId message uid)) :
    times s (.client r.proc) uid = (recordsOf s ⟨r, 0⟩).map Event.time ∧
      times s .messageService uid = (recordsOf s ⟨r, 1⟩).map Event.time ∧
      times s .sanitizationService uid = (recordsOf s ⟨r, 2⟩).map Event.time ∧
      times s .mockDatabase uid =
        if Regex.regexMatch matchExpr message = false then
          (recordsOf s ⟨r, 3⟩).map Event.time
        else [] := by
  refine ⟨times_eq hreach hdistinct hq rfl rfl fun d op hop hhome => ?_,
    times_eq hreach hdistinct hq rfl rfl fun d op hop hhome => ?_,
    times_eq hreach hdistinct hq rfl rfl fun d op hop hhome => ?_, ?_⟩
  iterate 3
    rcases requestAt_send hop with ⟨rfl, rfl⟩ | ⟨rfl, rfl⟩ | ⟨rfl, rfl⟩ | ⟨rfl, -, rfl⟩ <;>
    first | rfl | cases hhome
  split
  · rename_i hpass
    refine times_eq hreach hdistinct hq (by rw [requestAt_send_three, if_neg (by simp [hpass])])
      rfl fun d op hop hhome => ?_
    rcases requestAt_send hop with ⟨rfl, rfl⟩ | ⟨rfl, rfl⟩ | ⟨rfl, rfl⟩ | ⟨rfl, -, rfl⟩ <;>
    first | rfl | cases hhome
  · rename_i hmatch
    refine times_eq_nil hreach hdistinct hq fun d op hop hhome => ?_
    rcases requestAt_send hop with ⟨-, rfl⟩ | ⟨-, rfl⟩ | ⟨-, rfl⟩ | ⟨-, hpass, -⟩
    · cases hhome
    · cases hhome
    · cases hhome
    · exact hmatch hpass

/-- Below an answered `find` everything is spanned. -/
theorem find_spanned {clientId : Text} {uid : UInt64} {v : Value}
    (hends : Ends (Client.iteration r.proc (.find clientId uid)) (s.trail ⟨r, 0⟩) (.value v)) :
    Spanned s ⟨r, 1⟩ uid ∧ Spanned s ⟨r, 2⟩ uid := by
  obtain ⟨resp, w, -, htrail⟩ := iteration_find_value hends
  obtain ⟨call₁, hcall₁, hop₁, hphase₁, hends₁⟩ := callee_of_await hreach ⟨r, 0⟩
    (.findLastMessage clientId uid.toInt64) (.message resp) (by rw [htrail]; simp)
    (by rw [htrail]; simp)
  obtain ⟨result, -, htrail₁⟩ := findLastMessage_value hends₁
  obtain ⟨call₂, hcall₂, hop₂, hphase₂, -⟩ := callee_of_await hreach (CallId.child ⟨r, 0⟩)
    (.mockFindLastMessage clientId uid.toInt64) (.string result) (by rw [htrail₁]; simp)
    (by rw [htrail₁]; simp)
  have hspan₁ := spanned_of_returned hreach hcall₁ hphase₁ (by rw [hop₁]; exact id)
  have hspan₂ := spanned_of_returned hreach hcall₂ hphase₂ (by rw [hop₂]; exact id)
  rw [hop₁] at hspan₁
  rw [hop₂] at hspan₂
  exact ⟨hspan₁, hspan₂⟩

/-- Below an answered `send` everything is spanned, or SanitizationService has
recorded its start only. -/
theorem send_spanned {clientId message : Text} {uid : UInt64} {v : Value}
    (hends : Ends (Client.iteration r.proc (.send clientId message uid)) (s.trail ⟨r, 0⟩)
      (.value v)) :
    ∃ ok, v = .status ⟨ok, uid.toInt64⟩ ∧ Spanned s ⟨r, 1⟩ uid ∧
      ((Regex.regexMatch matchExpr message = false ∧ ok = true ∧
          Spanned s ⟨r, 2⟩ uid ∧ Spanned s ⟨r, 3⟩ uid) ∨
        (Regex.regexMatch matchExpr message = true ∧ ok = false ∧ Opened s ⟨r, 2⟩ uid)) := by
  obtain ⟨resp, w, rfl, htrail⟩ := iteration_send_value hends
  obtain ⟨call₁, hcall₁, hop₁, hphase₁, hends₁⟩ := callee_of_await hreach ⟨r, 0⟩
    (.sendMessage clientId message uid.toInt64) (.status resp) (by rw [htrail]; simp)
    (by rw [htrail]; simp)
  have hspan₁ := spanned_of_returned hreach hcall₁ hphase₁ (by rw [hop₁]; exact id)
  rw [hop₁] at hspan₁
  obtain ⟨ok, hv, htrail₁, hbelow⟩ := send_answered hreach hends₁
  cases hv
  refine ⟨ok, rfl, hspan₁, ?_⟩
  obtain ⟨call₂, hcall₂, hop₂, hphase₂, -⟩ := callee_of_await hreach ⟨r, 1⟩
    (.sanitizeMessage clientId message uid.toInt64) (.bool ok) (by rw [htrail₁]; simp)
    (by rw [htrail₁]; simp)
  rcases hbelow with ⟨hmatch, hok, -⟩ | ⟨hpass, rfl, htrail₂, -⟩
  · have hopened := (opened_of_filtered hreach hcall₂ hphase₂ (by rw [hop₂]; exact hmatch)).1
    rw [hop₂] at hopened
    exact .inr ⟨hmatch, hok, hopened⟩
  · obtain ⟨call₃, hcall₃, hop₃, hphase₃, -⟩ := callee_of_await hreach ⟨r, 2⟩
      (.storeMessage clientId message uid.toInt64) (.bool true) (by rw [htrail₂]; simp)
      (by rw [htrail₂]; simp)
    have hspan₂ := spanned_of_returned hreach hcall₂ hphase₂ (by
      rw [hop₂]
      intro hmatch
      cases hpass.symm.trans hmatch)
    have hspan₃ := spanned_of_returned hreach hcall₃ hphase₃ (by rw [hop₃]; exact id)
    rw [hop₂] at hspan₂
    rw [hop₃] at hspan₃
    exact .inl ⟨hpass, rfl, hspan₂, hspan₃⟩

end Reachable

/--
**Spans nest along the chain of calls.** If no two queries have the same uid,
the times recorded for an answered query are nested: the client's span contains
that of MessageService, and so on down to MockDatabase. For a `send` that the
filter has rejected SanitizationService has recorded its start only, and
MockDatabase nothing.
-/
theorem spans_nest {b : Board} {s : Board.State} (hreach : b.Reachable s)
    (hdistinct : b.DistinctUids) {r : RequestId} {call : Call sig} {v : Value}
    (hcall : s.calls ⟨r, 0⟩ = some call) (hanswered : call.phase = .returned (.value v)) :
    ∃ q, b.query? r = some q ∧
      match q with
      | .find _ uid =>
        ∃ startClient startMsg startMock endMock endMsg endClient,
          times s (.client r.proc) uid = [startClient, endClient] ∧
          times s .messageService uid = [startMsg, endMsg] ∧
          times s .mockDatabase uid = [startMock, endMock] ∧
          startClient ≤ startMsg ∧ startMsg ≤ startMock ∧ startMock ≤ endMock ∧
          endMock ≤ endMsg ∧ endMsg ≤ endClient
      | .send _ _ uid =>
        ∃ ok, v = .status ⟨ok, uid.toInt64⟩ ∧
          if ok then
            ∃ startClient startMsg startSanit startMock endMock endSanit endMsg endClient,
              times s (.client r.proc) uid = [startClient, endClient] ∧
              times s .messageService uid = [startMsg, endMsg] ∧
              times s .sanitizationService uid = [startSanit, endSanit] ∧
              times s .mockDatabase uid = [startMock, endMock] ∧
              startClient ≤ startMsg ∧ startMsg ≤ startSanit ∧ startSanit ≤ startMock ∧
              startMock ≤ endMock ∧ endMock ≤ endSanit ∧ endSanit ≤ endMsg ∧
              endMsg ≤ endClient
          else
            ∃ startClient startMsg startSanit endMsg endClient,
              times s (.client r.proc) uid = [startClient, endClient] ∧
              times s .messageService uid = [startMsg, endMsg] ∧
              times s .sanitizationService uid = [startSanit] ∧
              times s .mockDatabase uid = [] ∧
              startClient ≤ startMsg ∧ startMsg ≤ startSanit ∧ startSanit ≤ endMsg ∧
              endMsg ≤ endClient := by
  obtain ⟨q, hq, hop⟩ := requestAt_of_call hreach hcall
  refine ⟨q, hq, ?_⟩
  have hop₀ : call.op = .query r.proc q := (Option.some.inj hop).symm
  have hends := ends_of_returned hreach hcall hanswered
  have hspan := spanned_of_returned hreach hcall hanswered (by rw [hop₀]; exact id)
  obtain ⟨c₀, c₀', hc, hcle, hcin⟩ := spanned_times hreach hspan
  rw [hop₀] at hends
  cases q with
  | find clientId uid =>
    obtain ⟨htimes₀, htimes₁, htimes₂⟩ := times_of_find hreach hdistinct hq
    obtain ⟨hspan₁, hspan₂⟩ := find_spanned hreach hends
    obtain ⟨m, m', hm, -, hmin⟩ := spanned_times hreach hspan₁
    obtain ⟨k, k', hk, hkle, -⟩ := spanned_times hreach hspan₂
    have hcm := hcin 1 (by show 0 < 1; omega)
    have hmk := hmin 2 (by show 1 < 2; omega)
    rw [hm] at hcm
    rw [hk] at hmk
    exact ⟨c₀, m, k, k', m', c₀', htimes₀.trans hc, htimes₁.trans hm, htimes₂.trans hk,
      (hcm m (by simp)).1, (hmk k (by simp)).1, hkle, (hmk k' (by simp)).2, (hcm m' (by simp)).2⟩
  | send clientId message uid =>
    obtain ⟨htimes₀, htimes₁, htimes₂, htimes₃⟩ := times_of_send hreach hdistinct hq
    obtain ⟨ok, hv, hspan₁, hbelow⟩ := send_spanned hreach hends
    refine ⟨ok, hv, ?_⟩
    obtain ⟨m, m', hm, -, hmin⟩ := spanned_times hreach hspan₁
    have hcm := hcin 1 (by show 0 < 1; omega)
    have hms := hmin 2 (by show 1 < 2; omega)
    rw [hm] at hcm
    rcases hbelow with ⟨hpass, rfl, hspan₂, hspan₃⟩ | ⟨hmatch, rfl, e, hone, -⟩
    · obtain ⟨n, n', hn, -, hnin⟩ := spanned_times hreach hspan₂
      obtain ⟨k, k', hk, hkle, -⟩ := spanned_times hreach hspan₃
      have hnk := hnin 3 (by show 2 < 3; omega)
      rw [hn] at hms
      rw [hk] at hnk
      rw [if_pos hpass] at htimes₃
      rw [if_pos rfl]
      exact ⟨c₀, m, n, k, k', n', m', c₀', htimes₀.trans hc, htimes₁.trans hm,
        htimes₂.trans hn, htimes₃.trans hk, (hcm m (by simp)).1, (hms n (by simp)).1,
        (hnk k (by simp)).1, hkle, (hnk k' (by simp)).2, (hms n' (by simp)).2,
        (hcm m' (by simp)).2⟩
    · rw [hone] at hms htimes₂
      rw [if_neg (by simp [hmatch])] at htimes₃
      rw [if_neg (by decide)]
      exact ⟨c₀, m, e.time, m', c₀', htimes₀.trans hc, htimes₁.trans hm, htimes₂, htimes₃,
        (hcm m (by simp)).1, (hms e.time (by simp)).1, (hms e.time (by simp)).2,
        (hcm m' (by simp)).2⟩

/-- The spans of a `send` that is stored. -/
theorem spans_nest_stored :
    ∃ s, (oneSender "hi".toList).Reachable s ∧
      ∃ startClient startMsg startSanit startMock endMock endSanit endMsg endClient,
        times s (.client 0) 0 = [startClient, endClient] ∧
        times s .messageService 0 = [startMsg, endMsg] ∧
        times s .sanitizationService 0 = [startSanit, endSanit] ∧
        times s .mockDatabase 0 = [startMock, endMock] ∧
        startClient ≤ startMsg ∧ startMsg ≤ startSanit ∧ startSanit ≤ startMock ∧
        startMock ≤ endMock ∧ endMock ≤ endSanit ∧ endSanit ≤ endMsg ∧ endMsg ≤ endClient := by
  obtain ⟨s, hs, hcall, -⟩ := hi_answered
  have honly : ∀ r q, (oneSender "hi".toList).query? r = some q → r = ⟨0, 0⟩ := by
    intro r q hq
    obtain ⟨pid, i⟩ := r
    obtain ⟨hlt, -⟩ := List.getElem?_eq_some_iff.mp hq
    by_cases hpid : pid = 0
    · subst hpid
      obtain rfl : i = 0 := Nat.lt_one_iff.mp hlt
      rfl
    · simp [oneSender, oneClient, hpid] at hlt
  have hdistinct : (oneSender "hi".toList).DistinctUids := by
    intro r r' q q' hq hq' _
    rw [honly r q hq, honly r' q' hq']
  obtain ⟨q, hq, hspans⟩ := spans_nest hs hdistinct hcall rfl
  cases hq
  obtain ⟨ok, hok, hspans⟩ := hspans
  cases hok
  rw [if_pos rfl] at hspans
  exact ⟨s, hs, hspans⟩

end MockMessageBoard
