import MockMessageBoard.Board.Chains

/-!
# MockMessageBoard — the client's summary

When a client's loop is over and every query has its reply or its error,
`client_summary` prints two success counters over the numbers of queries. The
counters are bumped by the callbacks, each of which runs once for each reply; the
callback of a `send` bumps its counter whatever the status says.

* `counted_reaches`      — the counters count the bumps;
* `iteration_bumps`      — an iteration bumps once, if it got a reply;
* `findCounter_eq`, `sendCounter_eq` — the counters count the replies;
* `summary_counts_iff`   — when the summary is right about the messages stored.
-/

namespace MockMessageBoard

open TextFile Rpc State Transition

-- ---------------------------------------------------------------------------
-- client_summary
-- ---------------------------------------------------------------------------

/-- The numbers that `client_summary` prints. -/
structure Summary where
  sendSuccessCounter : Nat
  sendIterations : Int
  findSuccessCounter : Nat
  findIterations : Int
  deriving DecidableEq, Repr

/-- `client_summary(elapsed_seconds, iterations)` of process `pid`; the division
of an `int` truncates. -/
def clientSummary (store : Store) (pid : Nat) (iterations : Int) : Summary :=
  let findIterations := iterations.tdiv 2
  { sendSuccessCounter := store.sendSuccessCounter pid
    sendIterations := iterations - findIterations
    findSuccessCounter := store.findSuccessCounter pid
    findIterations := findIterations }

/-- The client has got to its summary: every iteration has ended, with a reply
if the client waits for it (an error ends that client) and with a reply or an
error otherwise. -/
def SummaryRuns (b : Board) (s : Board.State) (pid : Nat) : Prop :=
  ∀ i < (b.queries pid).length, ∃ call o, s.calls ⟨⟨pid, i⟩, 0⟩ = some call ∧
    call.phase = .returned o ∧ (b.clientSync pid = true → o ≠ .raised)

/-- The reply that a program has taken, if any. -/
def awaited (t : List (Act sig)) : Option Value :=
  t.findSome? fun
    | .await v => some v
    | _ => none

/-- A reply that was taken is among the actions. -/
theorem mem_of_awaited {t : List (Act sig)} {v : Value} (h : awaited t = some v) :
    .await v ∈ t := by
  unfold awaited at h
  obtain ⟨a, ha, hv⟩ := List.exists_of_findSome?_eq_some h
  cases a with
  | await v' =>
    cases hv
    exact ha
  | _ => cases hv

/-- The reply to query `i` of process `pid`. -/
def replyTo (s : Board.State) (pid i : Nat) : Option Value := awaited (s.trail ⟨⟨pid, i⟩, 0⟩)

/-- The number of `find`s among the first `n` queries that were answered. -/
def findsAnswered (s : Board.State) (pid n : Nat) : Nat :=
  (List.range n).countP fun i => i % 2 = 1 ∧ (replyTo s pid i).isSome

/-- The reply is a status `ok`. -/
def isStatus (ok : Bool) : Option Value → Bool
  | some (.status resp) => resp.ok = ok
  | _ => false

/-- The number of `send`s among the first `n` queries that were answered with
the status `ok`. -/
def sendsAnswered (s : Board.State) (pid n : Nat) (ok : Bool) : Nat :=
  (List.range n).countP fun i => i % 2 = 0 && isStatus ok (replyTo s pid i)

-- ---------------------------------------------------------------------------
-- Counting
-- ---------------------------------------------------------------------------

/-- Counting by an index below `n`. -/
theorem countP_eq_sum {α : Type} {l : List α} {P : α → Bool} {index : α → Nat} {n : Nat}
    (h : ∀ a ∈ l, P a = true → index a < n) :
    l.countP P = ∑ i ∈ Finset.range n, l.countP fun a => P a && index a = i := by
  induction l with
  | nil => simp
  | cons a l ih =>
    have hrest := ih fun a' ha' => h a' (List.mem_cons_of_mem _ ha')
    have hone : (if P a = true then 1 else 0) =
        ∑ i ∈ Finset.range n, if (P a && index a = i) = true then 1 else 0 := by
      cases hP : P a with
      | false => simp
      | true =>
        have hlt := h a (List.mem_cons_self ..) hP
        simp [hlt]
    simp only [List.countP_cons]
    rw [hrest, hone, Finset.sum_add_distrib]

theorem countP_range (n : Nat) (P : Nat → Bool) :
    (List.range n).countP P = ∑ i ∈ Finset.range n, if P i = true then 1 else 0 := by
  induction n with
  | zero => rfl
  | succ n ih =>
    rw [List.range_succ, List.countP_append, ih, Finset.sum_range_succ]
    simp [List.countP_singleton]

/-- Every second one of the first `n` numbers is odd. -/
theorem countP_odd (n : Nat) : (List.range n).countP (fun i => i % 2 = 1) = n / 2 := by
  induction n with
  | zero => rfl
  | succ n ih =>
    rw [List.range_succ, List.countP_append, ih, List.countP_singleton]
    simp only [decide_eq_true_eq]
    split <;> omega

-- ---------------------------------------------------------------------------
-- The counters count the bumps
-- ---------------------------------------------------------------------------

/-- The action bumps a counter by `a`. -/
def bumps (a : Access) : Act sig → Bool
  | .access a' _ => a' = a
  | _ => false

theorem exec_findSuccessCounter (a : Access) (store : Store) (pid : Nat) :
    (a.exec store).1.findSuccessCounter pid =
      store.findSuccessCounter pid + if a = .bumpFind pid then 1 else 0 := by
  cases a with
  | contains | assign | bumpSend => rfl
  | lookup clientId =>
    simp only [Access.exec]
    split <;> rfl
  | bumpFind p =>
    show Function.update store.findSuccessCounter p (store.findSuccessCounter p + 1) pid = _
    by_cases hp : pid = p
    · subst hp
      simp
    · simp [hp, Ne.symm hp]

theorem exec_sendSuccessCounter (a : Access) (store : Store) (pid : Nat) :
    (a.exec store).1.sendSuccessCounter pid =
      store.sendSuccessCounter pid + if a = .bumpSend pid then 1 else 0 := by
  cases a with
  | contains | assign | bumpFind => rfl
  | lookup clientId =>
    simp only [Access.exec]
    split <;> rfl
  | bumpSend p =>
    show Function.update store.sendSuccessCounter p (store.sendSuccessCounter p + 1) pid = _
    by_cases hp : pid = p
    · subst hp
      simp
    · simp [hp, Ne.symm hp]

/-- The counters are the numbers of bumps in the history. -/
structure Counted (s : Board.State) : Prop where
  find : ∀ pid, s.store.findSuccessCounter pid =
    s.history.countP fun e => bumps (.bumpFind pid) e.act
  send : ∀ pid, s.store.sendSuccessCounter pid =
    s.history.countP fun e => bumps (.bumpSend pid) e.act

section Reachable

variable {b : Board} {s : Board.State} (hreach : b.Reachable s)

include hreach

/-- A counter that one access adds one to, and no other changes, counts that
access. -/
theorem counter_eq_countP {a : Access} (counter : Store → Nat)
    (hinit : counter b.deployment.init.store = 0)
    (hexec : ∀ (a' : Access) store,
      counter (a'.exec store).1 = counter store + if a' = a then 1 else 0) :
    counter s.store = s.history.countP fun e => bumps a e.act := by
  refine hreach.invariant (P := fun s => counter s.store = s.history.countP fun e =>
    bumps a e.act) hinit ?_
  intro t l u _ ih hstep
  cases grows_of_step hstep with
  | same hhistory hstore =>
    rw [hstore, hhistory]
    exact ih
  | @event c call tid p act x _ _ _ hhistory _ _ haccess hstore =>
    rw [hhistory, List.countP_append, List.countP_singleton, ← ih]
    cases act with
    | record | start | await | finish => rw [hstore (by nofun)]; rfl
    | access a' w =>
      have hcounter := hexec a' t.store
      rw [show a'.exec t.store = _ from haccess a' w rfl] at hcounter
      simpa [bumps] using hcounter

theorem counted_reaches : Counted s where
  find := fun pid => counter_eq_countP hreach (fun store => store.findSuccessCounter pid) rfl
    fun a store => exec_findSuccessCounter a store pid
  send := fun pid => counter_eq_countP hreach (fun store => store.sendSuccessCounter pid) rfl
    fun a store => exec_sendSuccessCounter a store pid

end Reachable

-- ---------------------------------------------------------------------------
-- One iteration
-- ---------------------------------------------------------------------------

/-- An iteration that has got no reply has bumped nothing, any other one what
its callback has. -/
theorem call_bumps {u : UInt64} {op : Request} {k : Value → Prog sig} {t : List (Act sig)}
    {o : Outcome sig} (h : Ends (.record u (.start op (.await k))) t o) :
    (awaited t = none ∧ ∀ a, t.countP (bumps a) = 0) ∨
      ∃ v t', awaited t = some v ∧ .start op ∈ t ∧ .await v ∈ t ∧ Ends (k v) t' o ∧
        ∀ a, t.countP (bumps a) = t'.countP (bumps a) := by
  simp only [ends_record, ends_start, ends_await] at h
  obtain ⟨_, rfl, _, rfl, ⟨rfl, -⟩ | ⟨v, t', rfl, hk⟩⟩ := h
  · exact .inl ⟨rfl, fun a => rfl⟩
  · refine .inr ⟨v, t', rfl, by simp, by simp, hk, fun a => ?_⟩
    simp [bumps]

/-- A callback bumps its counter once. -/
theorem callback_bumps {u : UInt64} {a : Access} {v : Value} {t : List (Act sig)}
    {o : Outcome sig} (h : Ends (.access a fun _ => .record u (.ret v)) t o) (a' : Access) :
    t.countP (bumps a') = if a = a' then 1 else 0 := by
  simp only [ends_access, ends_record, ends_ret] at h
  obtain ⟨w, _, rfl, _, rfl, rfl, -⟩ := h
  simp only [List.countP_cons, List.countP_nil, bumps, decide_eq_true_eq, Bool.false_eq_true,
    if_false, Nat.zero_add, Nat.add_zero]

section Reachable

variable {b : Board} {s : Board.State} (hreach : b.Reachable s) {pid i : Nat}

include hreach

/-- A `find` that has ended bumps the find counter once if it was answered. -/
theorem bumps_of_find {clientId : Text} {uid : UInt64} {o : Outcome sig}
    (h : Ends (Client.iteration pid (.find clientId uid)) (s.trail ⟨⟨pid, i⟩, 0⟩) o) :
    (s.trail ⟨⟨pid, i⟩, 0⟩).countP (bumps (.bumpFind pid)) =
        (if (replyTo s pid i).isSome then 1 else 0) ∧
      (s.trail ⟨⟨pid, i⟩, 0⟩).countP (bumps (.bumpSend pid)) = 0 := by
  unfold replyTo
  rcases call_bumps h with ⟨hnone, hcount⟩ | ⟨v, t', hsome, hstart, hawait, hk, hcount⟩
  · rw [hnone, hcount, hcount]
    exact ⟨rfl, rfl⟩
  · obtain ⟨call, -, -, -, hends⟩ := callee_of_await hreach _ _ v hstart hawait
    obtain ⟨result, rfl, -⟩ := findLastMessage_value hends
    rw [hsome, hcount, hcount, callback_bumps hk, callback_bumps hk]
    simp

/-- A `send` that has ended bumps the send counter once if it was answered, and
the answer says whether the filter let the message pass. -/
theorem bumps_of_send {clientId message : Text} {uid : UInt64} {o : Outcome sig}
    (h : Ends (Client.iteration pid (.send clientId message uid)) (s.trail ⟨⟨pid, i⟩, 0⟩) o) :
    (s.trail ⟨⟨pid, i⟩, 0⟩).countP (bumps (.bumpSend pid)) =
        (if (replyTo s pid i).isSome then 1 else 0) ∧
      (s.trail ⟨⟨pid, i⟩, 0⟩).countP (bumps (.bumpFind pid)) = 0 ∧
      ∀ v, replyTo s pid i = some v →
        ∃ resp, v = .status resp ∧ resp.ok = !Regex.regexMatch matchExpr message := by
  unfold replyTo
  rcases call_bumps h with ⟨hnone, hcount⟩ | ⟨v, t', hsome, hstart, hawait, hk, hcount⟩
  · rw [hnone, hcount, hcount]
    exact ⟨rfl, rfl, nofun⟩
  · obtain ⟨call, -, -, -, hends⟩ := callee_of_await hreach _ _ v hstart hawait
    obtain ⟨res, rfl, -, hstored⟩ := send_answered hreach hends
    rw [hsome, hcount, hcount, callback_bumps hk, callback_bumps hk]
    refine ⟨by simp, by simp, fun v' hv' => ⟨_, (Option.some.inj hv').symm, ?_⟩⟩
    rcases hstored with ⟨hmatch, rfl, -⟩ | ⟨hmatch, rfl, -⟩
    · rw [hmatch]
      rfl
    · rw [hmatch]
      rfl

-- ---------------------------------------------------------------------------
-- All iterations
-- ---------------------------------------------------------------------------

/-- Only the iterations of a client bump its counters. -/
theorem root_of_bump {a : Access} (ha : a = .bumpFind pid ∨ a = .bumpSend pid) {e : Event sig}
    (he : e ∈ s.history) (hbump : bumps a e.act = true) :
    ∃ i < (b.queries pid).length, e.call = ⟨⟨pid, i⟩, 0⟩ := by
  obtain ⟨w, hact⟩ : ∃ w, e.act = .access a w := by
    obtain ⟨c, svc, seq, time, act⟩ := e
    cases act with
    | access a' w =>
      obtain rfl : a' = a := by simpa [bumps] using hbump
      exact ⟨w, rfl⟩
    | _ => cases hbump
  obtain ⟨call, hcall, -⟩ := known_reaches hreach e he
  have hallows := allows_of_mem hreach hcall (mem_trail.mpr ⟨e, he, rfl, hact⟩)
  cases hop : call.op with
  | query p q =>
    rw [hop] at hallows
    have hpid : p = pid := by
      rcases ha with rfl | rfl
      · rcases hallows with hallows | hallows <;> cases hallows
        rfl
      · rcases hallows with hallows | hallows <;> cases hallows
        rfl
    exact root_of_query hreach hcall (hpid ▸ hop)
  | storeMessage =>
    rw [hop] at hallows
    rcases ha with rfl | rfl <;> cases hallows
  | mockFindLastMessage =>
    rw [hop] at hallows
    rcases ha with rfl | rfl
    · rcases hallows with hallows | hallows <;> cases hallows
    · rcases hallows with hallows | hallows <;> cases hallows
  | findLastMessage | sendMessage | sanitizeMessage =>
    rw [hop] at hallows
    cases hallows

omit hreach in
/-- Counting actions that only the iterations of a client perform, iteration by
iteration. -/
theorem countP_roots_eq {P : Event sig → Bool} (hroot : ∀ e ∈ s.history, P e = true →
      ∃ i < (b.queries pid).length, e.call = ⟨⟨pid, i⟩, 0⟩) :
    s.history.countP P =
      ∑ i ∈ Finset.range (b.queries pid).length, (s.eventsOf ⟨⟨pid, i⟩, 0⟩).countP P := by
  have hindex : ∀ e ∈ s.history, P e = true →
      e.call.request.index < (b.queries pid).length := by
    intro e he hP
    obtain ⟨i, hi, hcall⟩ := hroot e he hP
    rw [hcall]
    exact hi
  rw [countP_eq_sum hindex]
  refine Finset.sum_congr rfl fun i _ => ?_
  unfold eventsOf
  rw [List.countP_filter]
  refine List.countP_congr fun e he => ?_
  simp only [Bool.and_eq_true, decide_eq_true_eq]
  refine and_congr_right fun hP => ?_
  obtain ⟨j, -, hcall⟩ := hroot e he hP
  rw [hcall]
  simp

/-- A counter, iteration by iteration. -/
theorem countP_bumps_eq {a : Access} (ha : a = .bumpFind pid ∨ a = .bumpSend pid) :
    s.history.countP (fun e => bumps a e.act) =
      ∑ i ∈ Finset.range (b.queries pid).length,
        (s.trail ⟨⟨pid, i⟩, 0⟩).countP (bumps a) := by
  rw [countP_roots_eq fun e he hbump => root_of_bump hreach ha he hbump]
  refine Finset.sum_congr rfl fun i _ => ?_
  unfold trail
  rw [List.countP_map]
  rfl

variable {iterations : Int} {clientUid : UInt64} {clientId message : Text}
  (hqueries : b.queries pid = Client.queries iterations clientUid clientId message)

omit hreach in
include hqueries in
theorem query_of_queries (hi : i < (b.queries pid).length) :
    b.query? ⟨pid, i⟩ = some (Client.query clientUid clientId message i) := by
  show (b.queries pid)[i]? = _
  rw [hqueries] at hi ⊢
  unfold Client.queries at hi ⊢
  rw [List.length_map, List.length_range] at hi
  rw [List.getElem?_map, List.getElem?_range hi]
  rfl

include hqueries

/-- What an iteration has bumped when it has ended. -/
theorem bumps_of_iteration (hi : i < (b.queries pid).length) {call : Call sig} {o : Outcome sig}
    (hcall : s.calls ⟨⟨pid, i⟩, 0⟩ = some call) (hphase : call.phase = .returned o) :
    (s.trail ⟨⟨pid, i⟩, 0⟩).countP (bumps (.bumpFind pid)) =
        (if decide (i % 2 = 1 ∧ (replyTo s pid i).isSome) = true then 1 else 0) ∧
      (s.trail ⟨⟨pid, i⟩, 0⟩).countP (bumps (.bumpSend pid)) =
        (if decide (i % 2 = 0 ∧ (replyTo s pid i).isSome) = true then 1 else 0) ∧
      (i % 2 = 0 → ∀ v, replyTo s pid i = some v →
        ∃ resp, v = .status resp ∧ resp.ok = !Regex.regexMatch matchExpr message) := by
  have hq := query_of_queries hqueries hi
  have hop := Option.some.inj (requestAt_of_query hreach hq hcall)
  have hends := ends_of_returned hreach hcall hphase
  rw [← hop] at hends
  unfold Client.query at hends
  split at hends
  · rename_i hodd
    obtain ⟨hfind, hsend⟩ := bumps_of_find hreach hends
    rw [hfind, hsend]
    simp [hodd]
  · rename_i heven
    have hzero : i % 2 = 0 := by omega
    obtain ⟨hsend, hfind, hreply⟩ := bumps_of_send hreach hends
    rw [hfind, hsend]
    simp only [hzero]
    refine ⟨by simp, by simp, fun _ => hreply⟩

variable (hdone : SummaryRuns b s pid)

include hdone

/-- **The find counter** is the number of answered `find`s. -/
theorem findCounter_eq :
    s.store.findSuccessCounter pid = findsAnswered s pid (b.queries pid).length := by
  unfold findsAnswered
  rw [(counted_reaches hreach).find, countP_bumps_eq hreach (.inl rfl), countP_range]
  refine Finset.sum_congr rfl fun i hi => ?_
  have hlt := Finset.mem_range.mp hi
  obtain ⟨call, o, hcall, hphase, -⟩ := hdone i hlt
  exact (bumps_of_iteration hreach hqueries hlt hcall hphase).1

/-- **The send counter** is the number of answered `send`s, whatever the
answers. -/
theorem sendCounter_eq :
    s.store.sendSuccessCounter pid =
      (List.range (b.queries pid).length).countP fun i => i % 2 = 0 ∧ (replyTo s pid i).isSome := by
  rw [(counted_reaches hreach).send, countP_bumps_eq hreach (.inr rfl), countP_range]
  refine Finset.sum_congr rfl fun i hi => ?_
  have hlt := Finset.mem_range.mp hi
  obtain ⟨call, o, hcall, hphase, -⟩ := hdone i hlt
  exact (bumps_of_iteration hreach hqueries hlt hcall hphase).2.1

/-- The answers to the `send`s all say whether the filter lets the message pass. -/
theorem sendsAnswered_eq (ok : Bool) :
    sendsAnswered s pid (b.queries pid).length ok =
      if Regex.regexMatch matchExpr message = !ok then s.store.sendSuccessCounter pid else 0 := by
  have hstatus : ∀ i < (b.queries pid).length, i % 2 = 0 →
      (isStatus ok (replyTo s pid i) = true ↔
        (replyTo s pid i).isSome ∧ Regex.regexMatch matchExpr message = !ok) := by
    intro i hi heven
    obtain ⟨call, o, hcall, hphase, -⟩ := hdone i hi
    have hreply := (bumps_of_iteration hreach hqueries hi hcall hphase).2.2 heven
    cases hr : replyTo s pid i with
    | none => simp [isStatus]
    | some v =>
      obtain ⟨resp, rfl, hok⟩ := hreply v hr
      show decide (resp.ok = ok) = true ↔ _
      rw [hok, decide_eq_true_eq, Bool.not_eq_eq_eq_not]
      simp
  unfold sendsAnswered
  split
  · rename_i hmatch
    rw [sendCounter_eq hreach hqueries hdone]
    refine List.countP_congr fun i hi => ?_
    rw [List.mem_range] at hi
    simp only [Bool.and_eq_true, decide_eq_true_eq]
    refine and_congr_right fun heven => ?_
    rw [hstatus i hi heven, and_iff_left hmatch]
  · rename_i hmatch
    rw [List.countP_eq_zero]
    intro i hi
    rw [List.mem_range] at hi
    simp only [Bool.and_eq_true, decide_eq_true_eq, not_and]
    intro heven
    rw [hstatus i hi heven]
    exact fun h => hmatch h.2

end Reachable

-- ---------------------------------------------------------------------------
-- The summary
-- ---------------------------------------------------------------------------

/-- The query is a `find_last_message`. -/
def Query.isFind : Query → Bool
  | .find .. => true
  | .send .. => false

/-- The numbers of `find`s and `send`s that the loop issues. -/
theorem countP_isFind {iterations : Int} (hpos : 1 ≤ iterations) (clientUid : UInt64)
    (clientId message : Text) :
    ((Client.queries iterations clientUid clientId message).countP Query.isFind : Int) =
        iterations.tdiv 2 ∧
      ((Client.queries iterations clientUid clientId message).countP (fun q => !q.isFind) : Int) =
        iterations - iterations.tdiv 2 := by
  have hfinds : (Client.queries iterations clientUid clientId message).countP Query.isFind =
      iterations.toNat / 2 := by
    unfold Client.queries
    rw [if_pos (by omega), List.countP_map, ← countP_odd]
    refine List.countP_congr fun i _ => ?_
    show (Client.query clientUid clientId message i).isFind = true ↔ _
    unfold Client.query
    split
    · simp [Query.isFind, *]
    · simp [Query.isFind, *]
  have hlength : (Client.queries iterations clientUid clientId message).length =
      iterations.toNat := by
    unfold Client.queries
    rw [if_pos (by omega), List.length_map, List.length_range]
  have hall := List.length_eq_countP_add_countP Query.isFind
    (l := Client.queries iterations clientUid clientId message)
  rw [hlength, hfinds] at hall
  rw [hfinds, Int.tdiv_eq_ediv_of_nonneg (by omega)]
  simp only [decide_not, Bool.decide_eq_true] at hall ⊢
  omega

/--
**The summary counts what happened**, in every run of either kind of client, if
and only if the filter lets the message of the client pass or none of its `send`s
was answered: the denominators are the numbers of queries, the find counter is
the number of answered `find`s, and the send counter that of messages stored.
-/
theorem summary_counts_iff {b : Board} {s : Board.State} (hreach : b.Reachable s) {pid : Nat}
    {iterations : Int} (hpos : 1 ≤ iterations) {clientUid : UInt64} {clientId message : Text}
    (hqueries : b.queries pid = Client.queries iterations clientUid clientId message)
    (hdone : SummaryRuns b s pid) :
    ((clientSummary s.store pid iterations).findIterations =
          (b.queries pid).countP Query.isFind ∧
        (clientSummary s.store pid iterations).sendIterations =
          (b.queries pid).countP (fun q => !q.isFind) ∧
        (clientSummary s.store pid iterations).findSuccessCounter =
          findsAnswered s pid (b.queries pid).length ∧
        (clientSummary s.store pid iterations).sendSuccessCounter =
          sendsAnswered s pid (b.queries pid).length true) ↔
      (Regex.regexMatch matchExpr message = false ∨
        ∀ i < (b.queries pid).length, i % 2 = 0 → replyTo s pid i = none) := by
  obtain ⟨hfinds, hsends⟩ := countP_isFind hpos clientUid clientId message
  rw [← hqueries] at hfinds hsends
  have hfind := findCounter_eq hreach hqueries hdone
  have hsend := sendsAnswered_eq hreach hqueries hdone true
  unfold clientSummary
  rw [hfinds, hsends, hsend]
  simp only [true_and, Bool.not_true, hfind]
  split
  · rename_i hmatch
    simp [hmatch]
  · rename_i hmatch
    rw [sendCounter_eq hreach hqueries hdone, List.countP_eq_zero, or_iff_right hmatch]
    simp

/-- A client that runs its loop once. -/
def oneIteration (message : Text) : Board :=
  oneClient .async (Client.queries 1 0 albert message)

/-- The way of a rejection from the filter back to the client. -/
def filterToClient (r : RequestId) : List Label :=
  [runs ⟨r, 2⟩ 1, [.reply ⟨r, 1⟩], runs ⟨r, 1⟩ 4, [.reply ⟨r, 0⟩], runs ⟨r, 0⟩ 4].flatten

theorem summaryRuns_oneIteration {message : Text} {s : Board.State} {call : Call sig}
    {o : Outcome sig} (hcall : s.calls ⟨⟨0, 0⟩, 0⟩ = some call)
    (hphase : call.phase = .returned o) : SummaryRuns (oneIteration message) s 0 := by
  intro i hi
  obtain rfl : i = 0 := Nat.lt_one_iff.mp hi
  exact ⟨call, o, hcall, hphase, nofun⟩

/-- One iteration with a message that is stored. -/
theorem summary_counts_iff_hi :
    ∃ s, (oneIteration "hi".toList).Reachable s ∧ SummaryRuns (oneIteration "hi".toList) s 0 ∧
      (((clientSummary s.store 0 1).findIterations =
          ((oneIteration "hi".toList).queries 0).countP Query.isFind ∧
        (clientSummary s.store 0 1).sendIterations =
          ((oneIteration "hi".toList).queries 0).countP (fun q => !q.isFind) ∧
        (clientSummary s.store 0 1).findSuccessCounter =
          findsAnswered s 0 ((oneIteration "hi".toList).queries 0).length ∧
        (clientSummary s.store 0 1).sendSuccessCounter =
          sendsAnswered s 0 ((oneIteration "hi".toList).queries 0).length true) ↔
      (Regex.regexMatch matchExpr "hi".toList = false ∨
        ∀ i < ((oneIteration "hi".toList).queries 0).length, i % 2 = 0 →
          replyTo s 0 i = none)) := by
  obtain ⟨s, hrun, hcall⟩ : ∃ s, run (oneIteration "hi".toList).deployment.step
      (oneIteration "hi".toList).deployment.init
        (sendToFilter ⟨0, 0⟩ ++ filterToDatabase ⟨0, 0⟩ ++ databaseToClient ⟨0, 0⟩) = some s ∧
      s.calls ⟨⟨0, 0⟩, 0⟩ = some ⟨.query 0 (.send albert "hi".toList 0),
        .returned (.value (.status ⟨true, 0⟩)), none⟩ := ⟨_, rfl, rfl⟩
  have hdone : SummaryRuns (oneIteration "hi".toList) s 0 := summaryRuns_oneIteration hcall rfl
  exact ⟨s, ⟨_, hrun⟩, hdone, summary_counts_iff ⟨_, hrun⟩ (by decide) rfl hdone⟩

/-- One rejected `send` is printed as one successful call out of one. -/
theorem rejected_send_counted :
    ¬ ∀ (b : Board) (s : Board.State) (pid : Nat) (iterations : Int) (clientUid : UInt64)
        (clientId message : Text), b.Reachable s → 1 ≤ iterations →
      b.queries pid = Client.queries iterations clientUid clientId message →
      SummaryRuns b s pid →
      (clientSummary s.store pid iterations).sendSuccessCounter =
        sendsAnswered s pid (b.queries pid).length true := by
  intro hcounts
  obtain ⟨s, hrun, hcall, hcounter, hanswered⟩ : ∃ s,
      run (oneIteration "/".toList).deployment.step (oneIteration "/".toList).deployment.init
        (sendToFilter ⟨0, 0⟩ ++ filterToClient ⟨0, 0⟩) = some s ∧
      s.calls ⟨⟨0, 0⟩, 0⟩ = some ⟨.query 0 (.send albert "/".toList 0),
        .returned (.value (.status ⟨false, 0⟩)), none⟩ ∧
      s.store.sendSuccessCounter 0 = 1 ∧ sendsAnswered s 0 1 true = 0 :=
    ⟨_, rfl, rfl, rfl, rfl⟩
  have hequal := hcounts (oneIteration "/".toList) s 0 1 0 albert "/".toList ⟨_, hrun⟩
    (by decide) rfl (summaryRuns_oneIteration hcall rfl)
  have hlength : ((oneIteration "/".toList).queries 0).length = 1 := rfl
  rw [hlength, hanswered] at hequal
  change s.store.sendSuccessCounter 0 = 0 at hequal
  omega

end MockMessageBoard
