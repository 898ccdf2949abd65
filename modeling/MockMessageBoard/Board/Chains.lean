import MockMessageBoard.Board.Trails

/-!
# MockMessageBoard — the calls that serve a query

Every call serves one query of one client, and its arguments are those of the
query: a `find` goes from the client through MessageService to MockDatabase, a
`send` through MessageService and SanitizationService, and on to MockDatabase
only if the filter lets its message pass.

* `requestAt_of_call` — the calls of a query, hop by hop;
* `find_answered`, `send_answered` — what has happened when MessageService has answered.
-/

namespace MockMessageBoard

open TextFile Rpc State

/-- The query that request `r` stands for. -/
def Board.query? (b : Board) (r : RequestId) : Option Query := (b.queries r.proc)[r.index]?

/-- The request that reaches the service `d` hops away from the client. -/
def Query.requestAt (pid : Nat) (q : Query) : Nat → Option Request
  | 0 => some (.query pid q)
  | d + 1 => (q.requestAt pid d).bind Request.downstream

theorem requestAt_find_ge (pid : Nat) (clientId : Text) (uid : UInt64) (d : Nat) :
    (Query.find clientId uid).requestAt pid (d + 3) = none := by
  induction d with
  | zero => rfl
  | succ d ih => rw [Query.requestAt, ih, Option.bind_none]

theorem requestAt_send_three (pid : Nat) (clientId message : Text) (uid : UInt64) :
    (Query.send clientId message uid).requestAt pid 3 =
      if Regex.regexMatch matchExpr message then none
      else some (.storeMessage clientId message uid.toInt64) := rfl

theorem requestAt_send_ge (pid : Nat) (clientId message : Text) (uid : UInt64) (d : Nat) :
    (Query.send clientId message uid).requestAt pid (d + 4) = none := by
  induction d with
  | zero =>
    show ((Query.send clientId message uid).requestAt pid 3).bind Request.downstream = none
    rw [requestAt_send_three]
    split <;> rfl
  | succ d ih => rw [Query.requestAt, ih, Option.bind_none]

/-- The hops of a `find`. -/
theorem requestAt_find {pid : Nat} {clientId : Text} {uid : UInt64} {d : Nat} {op : Request}
    (h : (Query.find clientId uid).requestAt pid d = some op) :
    (d = 0 ∧ op = .query pid (.find clientId uid)) ∨
      (d = 1 ∧ op = .findLastMessage clientId uid.toInt64) ∨
      (d = 2 ∧ op = .mockFindLastMessage clientId uid.toInt64) := by
  match d, h with
  | 0, h => exact .inl ⟨rfl, (Option.some.inj h).symm⟩
  | 1, h => exact .inr (.inl ⟨rfl, (Option.some.inj h).symm⟩)
  | 2, h => exact .inr (.inr ⟨rfl, (Option.some.inj h).symm⟩)
  | d + 3, h => rw [requestAt_find_ge] at h; cases h

/-- The hops of a `send`. -/
theorem requestAt_send {pid : Nat} {clientId message : Text} {uid : UInt64} {d : Nat}
    {op : Request} (h : (Query.send clientId message uid).requestAt pid d = some op) :
    (d = 0 ∧ op = .query pid (.send clientId message uid)) ∨
      (d = 1 ∧ op = .sendMessage clientId message uid.toInt64) ∨
      (d = 2 ∧ op = .sanitizeMessage clientId message uid.toInt64) ∨
      (d = 3 ∧ Regex.regexMatch matchExpr message = false ∧
        op = .storeMessage clientId message uid.toInt64) := by
  match d, h with
  | 0, h => exact .inl ⟨rfl, (Option.some.inj h).symm⟩
  | 1, h => exact .inr (.inl ⟨rfl, (Option.some.inj h).symm⟩)
  | 2, h => exact .inr (.inr (.inl ⟨rfl, (Option.some.inj h).symm⟩))
  | 3, h =>
    rw [requestAt_send_three] at h
    split at h
    · cases h
    · rename_i hmatch
      exact .inr (.inr (.inr ⟨rfl, by simpa using hmatch, (Option.some.inj h).symm⟩))
  | d + 4, h => rw [requestAt_send_ge] at h; cases h

section Reachable

variable {b : Board} {s : Board.State} (hreach : b.Reachable s)

include hreach

/-- What a call has done is what its request allows. -/
theorem allows_of_mem {c : CallId} {call : Call sig} {a : Act sig}
    (hcall : s.calls c = some call) (ha : a ∈ s.trail c) : call.op.allows a :=
  handler_only b.build call.op _ (upto_of_call hreach hcall) a ha

/-- Every call serves a query. -/
theorem requestAt_of_call {r : RequestId} {d : Nat} {call : Call sig}
    (hcall : s.calls ⟨r, d⟩ = some call) :
    ∃ q, b.query? r = some q ∧ q.requestAt r.proc d = some call.op := by
  induction d generalizing call with
  | zero =>
    have hscript := scripted_reaches hreach r call hcall
    obtain ⟨q, hq, hop⟩ := List.getElem?_map.symm.trans hscript |> Option.map_eq_some_iff.mp
    exact ⟨q, hq, congrArg some hop⟩
  | succ d ih =>
    have hstart := (started_reaches hreach ⟨r, d⟩ call.op).mpr ⟨call, hcall, rfl⟩
    obtain ⟨e, he, hec, -⟩ := mem_trail.mp hstart
    obtain ⟨parent, hparent, -⟩ := known_reaches hreach e he
    rw [hec] at hparent
    obtain ⟨q, hq, hop⟩ := ih hparent
    refine ⟨q, hq, ?_⟩
    rw [Query.requestAt, hop]
    exact allows_of_mem hreach hparent hstart

/-- The calls of a request serve the query that it stands for. -/
theorem requestAt_of_query {r : RequestId} {d : Nat} {q : Query} {call : Call sig}
    (hq : b.query? r = some q) (hcall : s.calls ⟨r, d⟩ = some call) :
    q.requestAt r.proc d = some call.op := by
  obtain ⟨q', hq', hop⟩ := requestAt_of_call hreach hcall
  obtain rfl := Option.some.inj (hq.symm.trans hq')
  exact hop

/-- The iterations of the clients are the calls at the roots. -/
theorem root_of_query {c : CallId} {call : Call sig} {pid : Nat} {q : Query}
    (hcall : s.calls c = some call) (hop : call.op = .query pid q) :
    ∃ i < (b.queries pid).length, c = ⟨⟨pid, i⟩, 0⟩ := by
  obtain ⟨⟨p, i⟩, d⟩ := c
  obtain ⟨q', hq, hat⟩ := requestAt_of_call hreach hcall
  rw [hop] at hat
  have hroot : d = 0 ∧ p = pid := by
    cases q' with
    | find =>
      rcases requestAt_find hat with ⟨hd, h⟩ | ⟨-, h⟩ | ⟨-, h⟩ <;> cases h
      exact ⟨hd, rfl⟩
    | send =>
      rcases requestAt_send hat with ⟨hd, h⟩ | ⟨-, h⟩ | ⟨-, h⟩ | ⟨-, -, h⟩ <;> cases h
      exact ⟨hd, rfl⟩
  obtain ⟨rfl, rfl⟩ := hroot
  exact ⟨i, (List.getElem?_eq_some_iff.mp hq).1, rfl⟩

/-- A call whose reply was taken performed a complete path of the handler of the
request that was sent to it. -/
theorem callee_of_await (c : CallId) (op : Request) (v : Value)
    (hstart : .start op ∈ s.trail c) (hawait : .await v ∈ s.trail c) :
    ∃ call, s.calls c.child = some call ∧ call.op = op ∧
      call.phase = .returned (.value v) ∧
      Ends (handler b.build op) (s.trail c.child) (.value v) := by
  obtain ⟨call, hcall, rfl⟩ := (started_reaches hreach c op).mp hstart
  obtain ⟨call', hcall', hphase, hends⟩ := ends_of_await hreach hawait
  rw [hcall] at hcall'
  cases hcall'
  exact ⟨call, hcall, rfl, hphase, hends⟩

variable {r : RequestId} {clientId message : Text} {uid : Int64} {v : Value}

/-- A hop of a query that has ended performed a complete path of the handler of
the request that reached it. -/
theorem ends_of_finish {q : Query} (hq : b.query? r = some q) {d : Nat} {op : Request}
    (hop : q.requestAt r.proc d = some op) {o : Outcome sig}
    (hmem : .finish o ∈ s.trail ⟨r, d⟩) :
    Ends (handler b.build op) (s.trail ⟨r, d⟩) o := by
  obtain ⟨call, hcall, hphase⟩ := returned_of_finish hreach hmem
  obtain rfl := Option.some.inj (hop.symm.trans (requestAt_of_query hreach hq hcall))
  exact ends_of_returned hreach hcall hphase

/-- What has happened when MessageService has answered a `find`. -/
theorem find_answered
    (h : Ends (MessageServiceHandler.findLastMessage b.build clientId uid) (s.trail ⟨r, 1⟩)
      (.value v)) :
    ∃ result, v = .message ⟨result, uid⟩ ∧
      s.trail ⟨r, 1⟩ = [.record uid.toUInt64, .start (.mockFindLastMessage clientId uid),
        .await (.string result), .record uid.toUInt64, .finish (.value v)] ∧
      Ends (MockDatabaseHandler.findLastMessage clientId uid) (s.trail ⟨r, 2⟩)
        (.value (.string result)) := by
  obtain ⟨result, hv, htrail⟩ := findLastMessage_value h
  obtain ⟨call, -, -, -, hends⟩ := callee_of_await hreach ⟨r, 1⟩
    (.mockFindLastMessage clientId uid) (.string result)
    (by rw [htrail]; simp) (by rw [htrail]; simp)
  exact ⟨result, hv, htrail, hends⟩

/-- What has happened when MessageService has answered a `send`: either the
filter has matched the message and nothing was stored, or it was stored. -/
theorem send_answered
    (h : Ends (MessageServiceHandler.sendMessage b.build clientId message uid) (s.trail ⟨r, 1⟩)
      (.value v)) :
    ∃ res, v = .status ⟨res, uid⟩ ∧
      s.trail ⟨r, 1⟩ = [.record uid.toUInt64, .start (.sanitizeMessage clientId message uid),
        .await (.bool res), .record uid.toUInt64, .finish (.value v)] ∧
      ((Regex.regexMatch matchExpr message = true ∧ res = false ∧
          s.trail ⟨r, 2⟩ = [.record uid.toUInt64, .finish (.value (.bool res))]) ∨
        (Regex.regexMatch matchExpr message = false ∧ res = true ∧
          s.trail ⟨r, 2⟩ = [.record uid.toUInt64, .start (.storeMessage clientId message uid),
            .await (.bool true), .record uid.toUInt64, .finish (.value (.bool res))] ∧
          ∃ w, s.trail ⟨r, 3⟩ = [.record uid.toUInt64, .access (.assign clientId message) w,
            .record uid.toUInt64, .finish (.value (.bool true))])) := by
  obtain ⟨res, hv, htrail⟩ := sendMessage_value h
  obtain ⟨call, -, -, -, hends⟩ := callee_of_await hreach ⟨r, 1⟩
    (.sanitizeMessage clientId message uid) (.bool res)
    (by rw [htrail]; simp) (by rw [htrail]; simp)
  refine ⟨res, hv, htrail, ?_⟩
  rcases sanitizeMessage_value hends with ⟨hmatch, hres, htrail'⟩ | ⟨hmatch, stored, hres, htrail'⟩
  · cases hres
    exact .inl ⟨hmatch, rfl, htrail'⟩
  · cases hres
    obtain ⟨call', -, -, -, hends'⟩ := callee_of_await hreach ⟨r, 2⟩
      (.storeMessage clientId message uid) (.bool res)
      (by rw [show (⟨r, 2⟩ : CallId) = CallId.child ⟨r, 1⟩ from rfl, htrail']; simp)
      (by rw [show (⟨r, 2⟩ : CallId) = CallId.child ⟨r, 1⟩ from rfl, htrail']; simp)
    obtain ⟨w, hstored, htrail''⟩ := storeMessage_value hends'
    cases hstored
    exact .inr ⟨hmatch, rfl, htrail', w, htrail''⟩

end Reachable

end MockMessageBoard
