import MockMessageBoard.Board.Linear
import MockMessageBoard.Board.Summary
import MockMessageBoard.Lib.Rpc.Sequential

/-!
# MockMessageBoard — the client that waits and the client that does not

With `CLIENT_SYNC` the client waits for each reply before it sends the next
query; without it the queries overlap, and a `find`, which has one hop less to go
than a `send`, can get to the database first.

* `find_reply`          — a `find` is answered with what was stored before it read;
* `stored_of_before`    — what was answered before the `find` was issued is stored;
* `send_before_find`    — with `CLIENT_SYNC` every `find` follows a completed `send`;
* `pipelined_find`      — when the two clients get the same reply.
-/

namespace MockMessageBoard

open TextFile Rpc State Transition

def Query.clientId : Query → Text
  | .find clientId _ => clientId
  | .send clientId _ _ => clientId

/-- The board with client `pid` built with `CLIENT_SYNC` or without it. -/
def Board.withClientSync (b : Board) (pid : Nat) (sync : Bool) : Board :=
  { b with clientSync := Function.update b.clientSync pid sync }

@[simp] theorem withClientSync_queries (b : Board) (pid : Nat) (sync : Bool) :
    (b.withClientSync pid sync).queries = b.queries := rfl

@[simp] theorem withClientSync_query? (b : Board) (pid : Nat) (sync : Bool) :
    (b.withClientSync pid sync).query? = b.query? := rfl

/-- MockDatabase has stored a message of `clientId` before request `r` looked it
up. -/
def StoredBefore (s : Board.State) (clientId : Text) (r : RequestId) : Prop :=
  ∃ e ∈ s.history, ∃ e' ∈ s.history, (∃ message w, e.act = .access (.assign clientId message) w) ∧
    e'.call = ⟨r, 2⟩ ∧ (∃ w, e'.act = .access (.contains clientId) w) ∧ e.seq < e'.seq

section Reachable

variable {b : Board} {s : Board.State} (hreach : b.Reachable s)

include hreach

-- ---------------------------------------------------------------------------
-- What a find is answered with
-- ---------------------------------------------------------------------------

/-- A lookup finds its key exactly if something was stored before. -/
theorem found_iff {clientId : Text} {w : View} {e' : Event sig} (he' : e' ∈ s.history)
    (hact' : e'.act = .access (.contains clientId) w) :
    w.found = true ↔ ∃ e ∈ s.history,
      (∃ message w, e.act = .access (.assign clientId message) w) ∧ e.seq < e'.seq := by
  obtain ⟨pre, post, hsplit⟩ := List.append_of_mem he'
  have hsorted := hsplit ▸ history_sorted hreach
  obtain ⟨-, -, hpre⟩ := List.pairwise_append.mp hsorted
  rw [(coherent_reaches hreach).contains pre e' post hsplit clientId w hact', contents_isSome_iff]
  constructor
  · rintro ⟨e, he, hact⟩
    exact ⟨e, hsplit ▸ List.mem_append_left _ he, hact, hpre e he e' List.mem_cons_self⟩
  · rintro ⟨e, he, hact, hlt⟩
    exact ⟨e, mem_prefix hreach hsplit he hlt, hact⟩

/-- A `find` whose reply was taken was looked up by the database. -/
theorem find_read {r : RequestId} {clientId : Text} {uid : UInt64} {v : Value}
    (hq : b.query? r = some (.find clientId uid)) (hreply : awaited (s.trail ⟨r, 0⟩) = some v) :
    ∃ result, v = .message ⟨result, uid.toInt64⟩ ∧
      Ends (MockDatabaseHandler.findLastMessage clientId uid.toInt64) (s.trail ⟨r, 2⟩)
        (.value (.string result)) := by
  obtain ⟨call, hcall, -, hends⟩ := ends_of_await hreach (mem_of_awaited hreply)
  have hop := Option.some.inj (requestAt_of_query hreach hq (d := 1) hcall)
  rw [← hop] at hends
  obtain ⟨result, hv, -, hread⟩ := find_answered hreach hends
  exact ⟨result, hv, hread⟩

/-- **What a `find` is answered with**: a message stored under its client id, if
there was one when the database looked, and the warning otherwise. -/
theorem find_reply {r : RequestId} {clientId : Text} {uid : UInt64} {v : Value}
    (hq : b.query? r = some (.find clientId uid)) (hreply : awaited (s.trail ⟨r, 0⟩) = some v) :
    (¬StoredBefore s clientId r ∧ v = .message ⟨warning clientId, uid.toInt64⟩) ∨
      (StoredBefore s clientId r ∧ ∃ e ∈ s.history, ∃ message w,
        e.act = .access (.assign clientId message) w ∧ v = .message ⟨message, uid.toInt64⟩) := by
  obtain ⟨result, rfl, hread⟩ := find_read hreach hq hreply
  rcases mockFindLastMessage_value hread with ⟨w, hw, hresult, htrail⟩ |
    ⟨w, w', hw, hresult, htrail⟩
  · left
    cases hresult
    refine ⟨?_, rfl⟩
    rintro ⟨e, he, e', he', hact, hec', ⟨w', hact'⟩, hlt⟩
    -- the handler has looked once, and has found nothing
    have hmem : .access (.contains clientId) w' ∈ s.trail ⟨r, 2⟩ :=
      mem_trail.mpr ⟨e', he', hec', hact'⟩
    obtain rfl : w' = w := by
      rw [htrail] at hmem
      simpa using hmem
    have hfound := (found_iff hreach he' hact').mpr ⟨e, he, hact, hlt⟩
    rw [hw] at hfound
    cases hfound
  · right
    cases hresult
    obtain ⟨e', he', hec', hact'⟩ := mem_trail.mp
      (show .access (.contains clientId) w ∈ s.trail ⟨r, 2⟩ by rw [htrail]; simp)
    obtain ⟨e, he, hact, hlt⟩ := (found_iff hreach he' hact').mp hw
    refine ⟨⟨e, he, e', he', hact, hec', ⟨w, hact'⟩, hlt⟩, ?_⟩
    obtain ⟨x, hx, -, hactx⟩ := mem_trail.mp
      (show .access (.lookup clientId) w' ∈ s.trail ⟨r, 2⟩ by rw [htrail]; simp)
    obtain ⟨pre, post, hsplit⟩ := List.append_of_mem hx
    obtain ⟨e₁, he₁, w₁, hact₁⟩ := exists_store_of_contents
      ((coherent_reaches hreach).lookup pre x post hsplit clientId w' hactx)
    exact ⟨e₁, hsplit ▸ List.mem_append_left _ he₁, _, w₁, hact₁, rfl⟩

-- ---------------------------------------------------------------------------
-- Sends that were answered first
-- ---------------------------------------------------------------------------

/-- An accepted `send` that was answered before a `find` was issued is stored
before the `find` is looked up. -/
theorem stored_of_before {r r' : RequestId} {clientId message : Text} {uid uid' : UInt64}
    {v : Value} (hq : b.query? r = some (.send clientId message uid))
    (hpass : Regex.regexMatch matchExpr message = false)
    (hq' : b.query? r' = some (.find clientId uid'))
    (hreply : awaited (s.trail ⟨r', 0⟩) = some v) (hbefore : (clientHistory b s).before r r') :
    StoredBefore s clientId r' := by
  obtain ⟨v', e, i, hanswer, hissued, hlt⟩ := hbefore
  have hsent := ends_of_finish hreach hq (d := 1) rfl (mem_trail.mpr ⟨e, hanswer⟩)
  obtain ⟨res, -, -, ⟨hmatch, -⟩ | ⟨-, -, -, w, htrail⟩⟩ := send_answered hreach hsent
  · rw [hpass] at hmatch
    cases hmatch
  obtain ⟨e₁, he₁, hec₁, hact₁⟩ := mem_trail.mp
    (show .access (.assign clientId message) w ∈ s.trail ⟨r, 3⟩ by rw [htrail]; simp)
  have hstored := below_lt_answered hreach hanswer he₁ hec₁ (by decide)
  obtain ⟨result, -, hread⟩ := find_read hreach hq' hreply
  obtain ⟨w', hlook⟩ : ∃ w', .access (.contains clientId) w' ∈ s.trail ⟨r', 2⟩ := by
    rcases mockFindLastMessage_value hread with ⟨w', -, -, htrail⟩ | ⟨w', _, -, -, htrail⟩
    · exact ⟨w', by rw [htrail]; simp⟩
    · exact ⟨w', by rw [htrail]; simp⟩
  obtain ⟨e₂, he₂, hec₂, hact₂⟩ := mem_trail.mp hlook
  have hlooked := issued_lt_below hreach hissued he₂ hec₂ (by decide)
  exact ⟨e₁, he₁, e₂, he₂, ⟨message, w, hact₁⟩, hec₂, ⟨w', hact₂⟩, by omega⟩

/-- A query that has returned a value was answered by MessageService first. -/
theorem answered_of_returned {r : RequestId} {v : Value} {e : Event sig} (he : e ∈ s.history)
    (hec : e.call = ⟨r, 0⟩) (hact : e.act = .finish (.value v)) :
    ∃ w e', Answered s r w e' ∧ e'.seq < e.seq := by
  have hmem : .finish (.value v) ∈ s.trail ⟨r, 0⟩ := mem_trail.mpr ⟨e, he, hec, hact⟩
  obtain ⟨call, hcall, hphase⟩ := returned_of_finish hreach hmem
  have hends := ends_of_returned hreach hcall hphase
  obtain ⟨q, -, hop⟩ := requestAt_of_call hreach hcall
  have hquery : call.op = .query r.proc q := (Option.some.inj hop).symm
  rw [hquery] at hends
  obtain ⟨op, hstart⟩ : ∃ op, .start op ∈ s.trail e.call := by
    rw [hec]
    cases q with
    | find clientId uid =>
      obtain ⟨resp, w, -, htrail⟩ := iteration_find_value hends
      exact ⟨.findLastMessage clientId uid.toInt64, by rw [htrail]; simp⟩
    | send clientId message uid =>
      obtain ⟨resp, w, -, htrail⟩ := iteration_send_value hends
      exact ⟨.sendMessage clientId message uid.toInt64, by rw [htrail]; simp⟩
  obtain ⟨e₁, he₁, e₂, he₂, w, hec₁, hact₁, hle, hec₂, hact₂⟩ :=
    joined hreach (handler_joins b.build) he hact hstart
  have hlt := beforeAwait_reaches hreach e₁ he₁ e₂ he₂ w hact₁ (by rw [hec₁, hec₂])
  exact ⟨w, e₂, ⟨he₂, by rw [hec₂, hec]; rfl, hact₂⟩, by omega⟩

/-- With `CLIENT_SYNC` a query is answered before the next one is issued. -/
theorem before_of_sync {pid i : Nat} (hsync : b.clientSync pid = true) {e' : Event sig}
    (hissued : Issued s ⟨pid, i + 1⟩ e') : (clientHistory b s).before ⟨pid, i⟩ ⟨pid, i + 1⟩ := by
  obtain ⟨e, he, v, hec, hact, hlt⟩ :=
    sequential_order hreach hsync hissued.1 (by rw [hissued.2.1])
  obtain ⟨w, e₂, hanswer, hlt₂⟩ := answered_of_returned hreach he hec hact
  exact ⟨w, e₂, e', hanswer, hissued, by omega⟩

-- ---------------------------------------------------------------------------
-- A client with an id of its own
-- ---------------------------------------------------------------------------

variable {pid : Nat} {iterations : Int} {clientUid : UInt64} {clientId message : Text}
  (hqueries : b.queries pid = Client.queries iterations clientUid clientId message)

include hqueries

/-- The calls of a client serve the queries of its loop. -/
theorem query_of_call {i d : Nat} {call : Call sig} (hcall : s.calls ⟨⟨pid, i⟩, d⟩ = some call) :
    b.query? ⟨pid, i⟩ = some (Client.query clientUid clientId message i) := by
  obtain ⟨q, hq, -⟩ := requestAt_of_call hreach hcall
  exact query_of_queries hqueries (List.getElem?_eq_some_iff.mp hq).1

/-- Query `i` of the client, if it has got a reply. -/
theorem query_of_reply {i : Nat} {v : Value} (hreply : replyTo s pid i = some v) :
    b.query? ⟨pid, i⟩ = some (Client.query clientUid clientId message i) := by
  obtain ⟨e, he, hec, -⟩ := mem_trail.mp (mem_of_awaited hreply)
  obtain ⟨call, hcall, -⟩ := known_reaches hreach e he
  exact query_of_call hreach hqueries (hec ▸ hcall)

/-- Query `i` of the client, if it was answered. -/
theorem query_of_answered {i : Nat} {v : Value} {e : Event sig}
    (hanswer : Answered s ⟨pid, i⟩ v e) :
    b.query? ⟨pid, i⟩ = some (Client.query clientUid clientId message i) := by
  obtain ⟨call, hcall, -⟩ := known_reaches hreach e hanswer.1
  exact query_of_call hreach hqueries (hanswer.2.1 ▸ hcall)

/-- Under an id that nobody else uses only the client's message is stored. -/
theorem stored_message (hown : ∀ p, p ≠ pid → ∀ q ∈ b.queries p, q.clientId ≠ clientId)
    {e : Event sig} {m : Text} {w : View} (he : e ∈ s.history)
    (hact : e.act = .access (.assign clientId m) w) : m = message := by
  obtain ⟨uid, hq, -⟩ := store_origin hreach he hact
  obtain ⟨⟨⟨p, i⟩, d⟩, svc, seq, time, act⟩ := e
  by_cases hp : p = pid
  · subst hp
    have hq' := query_of_queries hqueries (List.getElem?_eq_some_iff.mp hq).1
    have hsend := Option.some.inj (hq.symm.trans hq')
    unfold Client.query at hsend
    split at hsend
    · cases hsend
    · cases hsend
      rfl
  · exact absurd rfl (hown p hp _ (List.mem_of_getElem? hq))

variable (hown : ∀ p, p ≠ pid → ∀ q ∈ b.queries p, q.clientId ≠ clientId)
  {i : Nat} (hodd : i % 2 = 1) {v : Value} (hreply : replyTo s pid i = some v)

include hown hodd hreply

/-- A `find` of the client gets its message, if that was stored before the
database looked, and the warning otherwise. -/
theorem own_find_reply :
    (¬StoredBefore s clientId ⟨pid, i⟩ ∧ v = .message ⟨warning clientId,
        (getQueryUid clientUid (UInt64.ofNat i)).toInt64⟩) ∨
      (StoredBefore s clientId ⟨pid, i⟩ ∧ v = .message ⟨message,
        (getQueryUid clientUid (UInt64.ofNat i)).toInt64⟩) := by
  have hq := query_of_reply hreach hqueries hreply
  rw [Client.query, if_pos hodd] at hq
  refine (find_reply hreach hq hreply).imp id ?_
  rintro ⟨hstored, e, he, m, w, hact, rfl⟩
  rw [stored_message hreach hqueries hown he hact]
  exact ⟨hstored, rfl⟩

omit hown in
/-- A `find` that was issued when a `send` of the client had been answered finds
the message. -/
theorem own_stored_of_before (hpass : Regex.regexMatch matchExpr message = false) {j : Nat}
    (heven : j % 2 = 0) (hbefore : (clientHistory b s).before ⟨pid, j⟩ ⟨pid, i⟩) :
    StoredBefore s clientId ⟨pid, i⟩ := by
  have hq := query_of_reply hreach hqueries hreply
  rw [Client.query, if_pos hodd] at hq
  obtain ⟨w, e, e', hanswer, hrest⟩ := hbefore
  have hq' := query_of_answered hreach hqueries hanswer
  rw [Client.query, if_neg (by omega)] at hq'
  exact stored_of_before hreach hq' hpass hq hreply ⟨w, e, e', hanswer, hrest⟩

omit hqueries hown in
/-- With `CLIENT_SYNC` every `find` follows a completed `send`. -/
theorem send_before_find (hsync : b.clientSync pid = true) :
    ∃ j, j % 2 = 0 ∧ (clientHistory b s).before ⟨pid, j⟩ ⟨pid, i⟩ := by
  obtain ⟨j, rfl⟩ : ∃ j, i = j + 1 := ⟨i - 1, by omega⟩
  obtain ⟨call, hcall, -⟩ := ends_of_await hreach (mem_of_awaited hreply)
  obtain ⟨e, he, hec, hact⟩ := mem_trail.mp
    ((started_reaches hreach ⟨⟨pid, j + 1⟩, 0⟩ call.op).mpr ⟨call, hcall, rfl⟩)
  exact ⟨j, by omega, before_of_sync hreach hsync ⟨he, hec, _, hact⟩⟩

end Reachable

/--
**When the two clients get the same reply.** With `CLIENT_SYNC` every `find`
follows a completed `send` and gets the client's message. Without it a `find`
gets that message exactly if a `send` of the client was stored before the
database looked, which is so if one was answered before the `find` was issued;
otherwise it gets the warning.
-/
theorem pipelined_find {b : Board} {pid : Nat} {iterations : Int} {clientUid : UInt64}
    {clientId message : Text}
    (hqueries : b.queries pid = Client.queries iterations clientUid clientId message)
    (hown : ∀ p, p ≠ pid → ∀ q ∈ b.queries p, q.clientId ≠ clientId)
    (hpass : Regex.regexMatch matchExpr message = false) {s s' : Board.State}
    (hasync : (b.withClientSync pid false).Reachable s)
    (hsync : (b.withClientSync pid true).Reachable s') {i : Nat} (hodd : i % 2 = 1)
    {v v' : Value} (hreply : replyTo s pid i = some v) (hreply' : replyTo s' pid i = some v') :
    ((∃ j, j % 2 = 0 ∧ (clientHistory b s').before ⟨pid, j⟩ ⟨pid, i⟩) ∧
      v' = .message ⟨message, (getQueryUid clientUid (UInt64.ofNat i)).toInt64⟩) ∧
    (v = v' ↔ StoredBefore s clientId ⟨pid, i⟩ ∨ message = warning clientId) ∧
    (¬StoredBefore s clientId ⟨pid, i⟩ →
      v = .message ⟨warning clientId, (getQueryUid clientUid (UInt64.ofNat i)).toInt64⟩) ∧
    ∀ j, j % 2 = 0 → (clientHistory b s).before ⟨pid, j⟩ ⟨pid, i⟩ →
      StoredBefore s clientId ⟨pid, i⟩ := by
  obtain ⟨j, heven, hbefore⟩ := send_before_find hsync hodd hreply' (Function.update_self ..)
  have hstored' := own_stored_of_before hsync hqueries hodd hreply' hpass heven hbefore
  obtain ⟨-, rfl⟩ : _ ∧ v' = _ :=
    (own_find_reply hsync hqueries hown hodd hreply').resolve_left fun h => h.1 hstored'
  have hfound := own_find_reply hasync hqueries hown hodd hreply
  refine ⟨⟨⟨j, heven, hbefore⟩, rfl⟩, ?_, ?_, ?_⟩
  · rcases hfound with ⟨hnot, rfl⟩ | ⟨hstored, rfl⟩
    · rw [or_iff_right hnot]
      constructor
      · intro heq
        cases heq
        rfl
      · rintro rfl
        rfl
    · exact ⟨fun _ => .inl hstored, fun _ => rfl⟩
  · intro hnot
    exact (hfound.resolve_right fun h => hnot h.1).2
  · intro j heven hbefore
    exact own_stored_of_before hasync hqueries hodd hreply hpass heven hbefore

/-- A client that runs its loop twice: a `send`, then a `find`. -/
def twoIterations (message : Text) : Board :=
  oneClient .async (Client.queries 2 0 albert message)

theorem twoIterations_own (message : Text) (p : Nat) (hp : p ≠ 0) :
    ∀ q ∈ (twoIterations message).queries p, q.clientId ≠ albert := by
  intro q hq
  simp [twoIterations, oneClient, hp] at hq

/-- The two clients get the same reply if the `send` is back before the `find`
goes out. -/
theorem pipelined_find_prompt :
    ∃ s s' v v', ((twoIterations "hi".toList).withClientSync 0 false).Reachable s ∧
      ((twoIterations "hi".toList).withClientSync 0 true).Reachable s' ∧
      replyTo s 0 1 = some v ∧ replyTo s' 0 1 = some v' ∧
      StoredBefore s albert ⟨0, 1⟩ ∧ v = v' := by
  have hprompt : ∀ sync, ∃ s,
      run ((twoIterations "hi".toList).withClientSync 0 sync).deployment.step
        ((twoIterations "hi".toList).withClientSync 0 sync).deployment.init
        (sendToFilter ⟨0, 0⟩ ++ filterToDatabase ⟨0, 0⟩ ++ databaseToClient ⟨0, 0⟩ ++
          findAndReturn ⟨0, 1⟩) = some s ∧
      replyTo s 0 1 = some (.message ⟨"hi".toList, (getQueryUid 0 1).toInt64⟩) ∧
      s.history[15]? = some ⟨⟨⟨0, 0⟩, 1⟩, .messageService, 15, 4,
        .finish (.value (.status ⟨true, (getQueryUid 0 0).toInt64⟩))⟩ ∧
      s.history[21]? = some ⟨⟨⟨0, 1⟩, 0⟩, .client 0, 21, 5,
        .start (.findLastMessage albert (getQueryUid 0 1).toInt64)⟩ := by
    intro sync
    cases sync with
    | false => exact ⟨_, rfl, rfl, rfl, rfl⟩
    | true => exact ⟨_, rfl, rfl, rfl, rfl⟩
  obtain ⟨s, hrun, hreply, hsent, hissued⟩ := hprompt false
  obtain ⟨s', hrun', hreply', -⟩ := hprompt true
  have hqueries : (twoIterations "hi".toList).queries 0 =
      Client.queries 2 0 albert "hi".toList := rfl
  obtain ⟨-, hsame, -, hstored⟩ := pipelined_find hqueries (twoIterations_own _) (by decide)
    ⟨_, hrun⟩ ⟨_, hrun'⟩ (by decide) hreply hreply'
  have hfirst : StoredBefore s albert ⟨0, 1⟩ := hstored 0 rfl ⟨_, _, _,
    ⟨List.mem_of_getElem? hsent, rfl, rfl⟩, ⟨List.mem_of_getElem? hissued, rfl, _, rfl⟩,
    by decide⟩
  exact ⟨s, s', _, _, ⟨_, hrun⟩, ⟨_, hrun'⟩, hreply, hreply', hfirst, hsame.mpr (.inl hfirst)⟩

/-- The scheduler makes a call fail. -/
def isFail : Label → Bool
  | .fail _ => true
  | _ => false

/-- The state `s` occurs in a run of the board in which no call fails. -/
def Board.ReachableUnfailing (b : Board) (s : Board.State) : Prop :=
  ∃ ls, (∀ l ∈ ls, isFail l = false) ∧ run b.deployment.step b.deployment.init ls = some s

/-- A `find` for an unknown client, from the client and back, while thread 0 of
MessageService is busy. -/
def findUnknown (r : RequestId) : List Label :=
  [[.issue r.proc], runs ⟨r, 0⟩ 2, [.deliver ⟨r, 1⟩ 1], runs ⟨r, 1⟩ 2,
    [.tick, .deliver ⟨r, 2⟩ 0], runs ⟨r, 2⟩ 5, [.reply ⟨r, 1⟩], runs ⟨r, 1⟩ 4,
    [.reply ⟨r, 0⟩], runs ⟨r, 0⟩ 4].flatten

/-- The pipelined `find` overtakes the `send` at the filter and gets the warning. -/
theorem find_overtakes_send :
    ¬ ∀ (b : Board) (pid : Nat) (iterations : Int) (clientUid : UInt64)
        (clientId message : Text) (s s' : Board.State) (i : Nat) (v v' : Value),
      1 ≤ iterations → b.queries pid = Client.queries iterations clientUid clientId message →
      (∀ p, p ≠ pid → ∀ q ∈ b.queries p, q.clientId ≠ clientId) →
      Regex.regexMatch matchExpr message = false →
      (b.withClientSync pid false).ReachableUnfailing s →
      (b.withClientSync pid true).ReachableUnfailing s' → i % 2 = 1 →
      replyTo s pid i = some v → replyTo s' pid i = some v' → v = v' := by
  intro hsame
  obtain ⟨s, hrun, hreply⟩ : ∃ s,
      run ((twoIterations "hi".toList).withClientSync 0 false).deployment.step
        ((twoIterations "hi".toList).withClientSync 0 false).deployment.init
        (sendToFilter ⟨0, 0⟩ ++ findUnknown ⟨0, 1⟩ ++ filterToDatabase ⟨0, 0⟩ ++
          databaseToClient ⟨0, 0⟩) = some s ∧
      replyTo s 0 1 = some (.message ⟨warning albert, (getQueryUid 0 1).toInt64⟩) :=
    ⟨_, rfl, rfl⟩
  obtain ⟨s', hrun', hreply'⟩ : ∃ s,
      run ((twoIterations "hi".toList).withClientSync 0 true).deployment.step
        ((twoIterations "hi".toList).withClientSync 0 true).deployment.init
        (sendToFilter ⟨0, 0⟩ ++ filterToDatabase ⟨0, 0⟩ ++ databaseToClient ⟨0, 0⟩ ++
          findAndReturn ⟨0, 1⟩) = some s ∧
      replyTo s 0 1 = some (.message ⟨"hi".toList, (getQueryUid 0 1).toInt64⟩) :=
    ⟨_, rfl, rfl⟩
  have hequal := hsame (twoIterations "hi".toList) 0 2 0 albert "hi".toList s s' 1 _ _
    (by decide) rfl (twoIterations_own _) (by decide) ⟨_, by decide, hrun⟩ ⟨_, by decide, hrun'⟩
    rfl hreply hreply'
  revert hequal
  decide

end MockMessageBoard
