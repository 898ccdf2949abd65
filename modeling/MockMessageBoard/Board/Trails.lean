import MockMessageBoard.Board.Handlers
import MockMessageBoard.Lib.Rpc.Causality

/-!
# MockMessageBoard — what each handler does

One specification for each handler: the actions of an invocation that returns
a value (`*_value`), what an invocation left by an exception has recorded
(`handler_raised`), and what any invocation may record, send on and access
(`handler_only`). They hold for both builds, which differ only inside
`remoteTask`.
-/

namespace MockMessageBoard

open TextFile Rpc

variable {build : Build} {t : List (Act sig)} {v : Value}

-- ---------------------------------------------------------------------------
-- Remote tasks
-- ---------------------------------------------------------------------------

/-- A remote task starts its call and waits for it, in either build. -/
theorem ends_remoteTask {target : Service} {op : Request} {k : Value → Prog sig}
    {o : Outcome sig} :
    Ends (remoteTask build target op k) t o ↔
      (t = [.start op, .finish .raised] ∧ o = .raised) ∨
        ∃ v t', t = .start op :: .await v :: t' ∧ Ends (k v) t' o := by
  cases build with
  | async =>
    simp only [remoteTask, ends_start, ends_sleep, ends_await]
    constructor
    · rintro ⟨t', rfl, ⟨rfl, rfl⟩ | ⟨v, t'', rfl, hk⟩⟩
      · exact .inl ⟨rfl, rfl⟩
      · exact .inr ⟨v, t'', rfl, hk⟩
    · rintro (⟨rfl, rfl⟩ | ⟨v, t'', rfl, hk⟩)
      · exact ⟨_, rfl, .inl ⟨rfl, rfl⟩⟩
      · exact ⟨_, rfl, .inr ⟨v, t'', rfl, hk⟩⟩
  | sync =>
    have hcall : ∀ found : Bool, Ends (if found = true then
        Prog.start op (.await fun v => .sleep (k v))
        else .newClient target (.start op (.await fun v => .sleep (k v)))) t o ↔
        Ends (.start op (.await fun v => .sleep (k v)) : Prog sig) t o := by
      intro found
      cases found <;> simp
    simp only [remoteTask, ends_findClient, hcall, exists_const, ends_start, ends_sleep,
      ends_await]
    constructor
    · rintro ⟨t', rfl, ⟨rfl, rfl⟩ | ⟨v, t'', rfl, hk⟩⟩
      · exact .inl ⟨rfl, rfl⟩
      · exact .inr ⟨v, t'', rfl, hk⟩
    · rintro (⟨rfl, rfl⟩ | ⟨v, t'', rfl, hk⟩)
      · exact ⟨_, rfl, .inl ⟨rfl, rfl⟩⟩
      · exact ⟨_, rfl, .inr ⟨v, t'', rfl, hk⟩⟩

-- ---------------------------------------------------------------------------
-- Invocations that return
-- ---------------------------------------------------------------------------

section Value

/-- An invocation that returns has the value of the call it waited for. -/
theorem remoteTask_value {target : Service} {op : Request} {k : Value → Prog sig}
    (h : Ends (remoteTask build target op k) t (.value v)) :
    ∃ reply t', t = .start op :: .await reply :: t' ∧ Ends (k reply) t' (.value v) := by
  rcases ends_remoteTask.mp h with ⟨-, hraised⟩ | hreturned
  · cases hraised
  · exact hreturned

theorem call_value {op : Request} {k : Value → Prog sig}
    (h : Ends (.start op (.await k)) t (.value v)) :
    ∃ reply t', t = .start op :: .await reply :: t' ∧ Ends (k reply) t' (.value v) := by
  obtain ⟨_, rfl, hawait⟩ := ends_start.mp h
  rcases ends_await.mp hawait with ⟨-, hraised⟩ | ⟨reply, t', rfl, hk⟩
  · cases hraised
  · exact ⟨reply, t', rfl, hk⟩

variable {clientId message : Text} {uid : Int64}

theorem mockFindLastMessage_value
    (h : Ends (MockDatabaseHandler.findLastMessage clientId uid) t (.value v)) :
    (∃ w : View, w.found = false ∧ v = .string (warning clientId) ∧
      t = [.record uid.toUInt64, .access (.contains clientId) w, .record uid.toUInt64,
        .finish (.value v)]) ∨
    ∃ w w' : View, w.found = true ∧ v = .string w'.message ∧
      t = [.record uid.toUInt64, .access (.contains clientId) w, .access (.lookup clientId) w',
        .record uid.toUInt64, .finish (.value v)] := by
  simp only [MockDatabaseHandler.findLastMessage, ends_record, ends_sleep, ends_access] at h
  obtain ⟨_, rfl, w, _, rfl, h⟩ := h
  cases hw : w.found with
  | false =>
    simp only [hw, Bool.false_eq_true, if_false, ends_record, ends_ret] at h
    obtain ⟨_, rfl, rfl, hv⟩ := h
    cases hv
    exact .inl ⟨w, hw, rfl, rfl⟩
  | true =>
    simp only [hw, if_true, ends_access, ends_record, ends_ret] at h
    obtain ⟨w', _, rfl, _, rfl, rfl, hv⟩ := h
    cases hv
    exact .inr ⟨w, w', hw, rfl, rfl⟩

theorem storeMessage_value
    (h : Ends (MockDatabaseHandler.storeMessage clientId message uid) t (.value v)) :
    ∃ w, v = .bool true ∧
      t = [.record uid.toUInt64, .access (.assign clientId message) w, .record uid.toUInt64,
        .finish (.value v)] := by
  simp only [MockDatabaseHandler.storeMessage, ends_record, ends_sleep, ends_access,
    ends_ret] at h
  obtain ⟨_, rfl, w, _, rfl, _, rfl, rfl, hv⟩ := h
  cases hv
  exact ⟨w, rfl, rfl⟩

theorem sanitizeMessage_value
    (h : Ends (SanitizationHandler.sanitizeMessage build clientId message uid) t (.value v)) :
    (Regex.regexMatch matchExpr message = true ∧ v = .bool false ∧
      t = [.record uid.toUInt64, .finish (.value v)]) ∨
    (Regex.regexMatch matchExpr message = false ∧ ∃ res, v = .bool res ∧
      t = [.record uid.toUInt64, .start (.storeMessage clientId message uid), .await (.bool res),
        .record uid.toUInt64, .finish (.value v)]) := by
  simp only [SanitizationHandler.sanitizeMessage, ends_record] at h
  obtain ⟨t', rfl, h⟩ := h
  cases hmatch : Regex.regexMatch matchExpr message with
  | true =>
    simp only [hmatch, if_true, ends_ret] at h
    obtain ⟨rfl, hv⟩ := h
    cases hv
    exact .inl ⟨rfl, rfl, rfl⟩
  | false =>
    simp only [hmatch, Bool.false_eq_true, if_false] at h
    obtain ⟨reply, t'', rfl, hk⟩ := remoteTask_value h
    cases reply with
    | bool res =>
      simp only [ends_record, ends_ret] at hk
      obtain ⟨_, rfl, rfl, hv⟩ := hk
      cases hv
      exact .inr ⟨rfl, res, rfl, rfl⟩
    | _ => cases (ends_throw.mp hk).2

theorem findLastMessage_value
    (h : Ends (MessageServiceHandler.findLastMessage build clientId uid) t (.value v)) :
    ∃ result, v = .message ⟨result, uid⟩ ∧
      t = [.record uid.toUInt64, .start (.mockFindLastMessage clientId uid),
        .await (.string result), .record uid.toUInt64, .finish (.value v)] := by
  simp only [MessageServiceHandler.findLastMessage, ends_record] at h
  obtain ⟨t', rfl, h⟩ := h
  obtain ⟨reply, t'', rfl, hk⟩ := remoteTask_value h
  cases reply with
  | string result =>
    simp only [ends_record, ends_ret] at hk
    obtain ⟨_, rfl, rfl, hv⟩ := hk
    cases hv
    exact ⟨result, rfl, rfl⟩
  | _ => cases (ends_throw.mp hk).2

theorem sendMessage_value
    (h : Ends (MessageServiceHandler.sendMessage build clientId message uid) t (.value v)) :
    ∃ res, v = .status ⟨res, uid⟩ ∧
      t = [.record uid.toUInt64, .start (.sanitizeMessage clientId message uid),
        .await (.bool res), .record uid.toUInt64, .finish (.value v)] := by
  simp only [MessageServiceHandler.sendMessage, ends_record] at h
  obtain ⟨t', rfl, h⟩ := h
  obtain ⟨reply, t'', rfl, hk⟩ := remoteTask_value h
  cases reply with
  | bool res =>
    simp only [ends_record, ends_ret] at hk
    obtain ⟨_, rfl, rfl, hv⟩ := hk
    cases hv
    exact ⟨res, rfl, rfl⟩
  | _ => cases (ends_throw.mp hk).2

variable {pid : Nat} {queryUid : UInt64}

theorem iteration_find_value
    (h : Ends (Client.iteration pid (.find clientId queryUid)) t (.value v)) :
    ∃ resp w, v = .message resp ∧
      t = [.record queryUid, .start (.findLastMessage clientId queryUid.toInt64),
        .await (.message resp), .access (.bumpFind pid) w, .record resp.queryUid.toUInt64,
        .finish (.value v)] := by
  simp only [Client.iteration, ends_record] at h
  obtain ⟨_, rfl, h⟩ := h
  obtain ⟨reply, t', rfl, hk⟩ := call_value h
  cases reply with
  | message resp =>
    simp only [Client.onFindReply, ends_access, ends_record, ends_ret] at hk
    obtain ⟨w, _, rfl, _, rfl, rfl, hv⟩ := hk
    cases hv
    exact ⟨resp, w, rfl, rfl⟩
  | _ => cases (ends_throw.mp hk).2

theorem iteration_send_value
    (h : Ends (Client.iteration pid (.send clientId message queryUid)) t (.value v)) :
    ∃ resp w, v = .status resp ∧
      t = [.record queryUid, .start (.sendMessage clientId message queryUid.toInt64),
        .await (.status resp), .access (.bumpSend pid) w, .record resp.queryUid.toUInt64,
        .finish (.value v)] := by
  simp only [Client.iteration, ends_record] at h
  obtain ⟨_, rfl, h⟩ := h
  obtain ⟨reply, t', rfl, hk⟩ := call_value h
  cases reply with
  | status resp =>
    simp only [Client.onSendReply, ends_access, ends_record, ends_ret] at hk
    obtain ⟨w, _, rfl, _, rfl, rfl, hv⟩ := hk
    cases hv
    exact ⟨resp, w, rfl, rfl⟩
  | _ => cases (ends_throw.mp hk).2

end Value

/-- A handler that returns a value has waited for the call it has started. -/
theorem handler_joins (build : Build) (op : Request) : Joins (handler build op) := by
  intro t v op' hends hstart
  cases op with
  | query pid q =>
    cases q with
    | find =>
      obtain ⟨resp, w, -, rfl⟩ := iteration_find_value hends
      exact ⟨.message resp, by simp⟩
    | send =>
      obtain ⟨resp, w, -, rfl⟩ := iteration_send_value hends
      exact ⟨.status resp, by simp⟩
  | findLastMessage =>
    obtain ⟨result, -, rfl⟩ := findLastMessage_value hends
    exact ⟨.string result, by simp⟩
  | sendMessage =>
    obtain ⟨res, -, rfl⟩ := sendMessage_value hends
    exact ⟨.bool res, by simp⟩
  | sanitizeMessage =>
    rcases sanitizeMessage_value hends with ⟨-, -, rfl⟩ | ⟨-, res, -, rfl⟩
    · simp at hstart
    · exact ⟨.bool res, by simp⟩
  | mockFindLastMessage =>
    rcases mockFindLastMessage_value hends with ⟨w, -, -, rfl⟩ | ⟨w, w', -, -, rfl⟩
    · simp at hstart
    · simp at hstart
  | storeMessage =>
    obtain ⟨w, -, rfl⟩ := storeMessage_value hends
    simp at hstart

-- ---------------------------------------------------------------------------
-- Everything a handler can do
-- ---------------------------------------------------------------------------

/-- The request that the handler of a request sends on, if any. -/
def Request.downstream : Request → Option Request
  | .query _ (.find clientId queryUid) => some (.findLastMessage clientId queryUid.toInt64)
  | .query _ (.send clientId message queryUid) =>
    some (.sendMessage clientId message queryUid.toInt64)
  | .findLastMessage clientId queryUid => some (.mockFindLastMessage clientId queryUid)
  | .sendMessage clientId message queryUid => some (.sanitizeMessage clientId message queryUid)
  | .sanitizeMessage clientId message queryUid =>
    if Regex.regexMatch matchExpr message then none
    else some (.storeMessage clientId message queryUid)
  | .mockFindLastMessage .. | .storeMessage .. => none

/-- The accesses to shared state that serve a request. -/
def Request.mayAccess : Request → Access → Prop
  | .query pid _, a => a = .bumpFind pid ∨ a = .bumpSend pid
  | .mockFindLastMessage clientId _, a => a = .contains clientId ∨ a = .lookup clientId
  | .storeMessage clientId message _, a => a = .assign clientId message
  | _, _ => False

/-- The uid of the query that a request serves. -/
def Query.uid : Query → UInt64
  | .find _ queryUid => queryUid
  | .send _ _ queryUid => queryUid

def Request.uid : Request → UInt64
  | .query _ q => q.uid
  | .findLastMessage _ queryUid | .sendMessage _ _ queryUid | .sanitizeMessage _ _ queryUid
  | .mockFindLastMessage _ queryUid | .storeMessage _ _ queryUid => queryUid.toUInt64

/-- What the handler of a request may record. The client records the uid of the
reply, which is none of its own. -/
def Request.mayRecord : Request → UInt64 → Prop
  | .query .., _ => True
  | op, n => n = op.uid

/-- What serving a request may do. -/
def Request.allows (op : Request) : Act sig → Prop
  | .record n => op.mayRecord n
  | .start op' => op.downstream = some op'
  | .access a _ => op.mayAccess a
  | _ => True

/-- An invocation whose message the filter matches leaves at once. -/
theorem sanitizeMessage_of_match {clientId message : Text} {uid : Int64} {o : Outcome sig}
    (hmatch : Regex.regexMatch matchExpr message = true)
    (h : Ends (SanitizationHandler.sanitizeMessage build clientId message uid) t o) :
    t = [.record uid.toUInt64, .finish (.value (.bool false))] ∧ o = .value (.bool false) := by
  simp only [SanitizationHandler.sanitizeMessage, hmatch, if_true, ends_record, ends_ret] at h
  obtain ⟨_, rfl, rfl, rfl⟩ := h
  exact ⟨rfl, rfl⟩

/-- A handler that throws when its call fails or returns the wrong kind of
value records nothing after the first entry. -/
theorem raised_of_started (op : Request) {p : Prog sig} {k : Value → Prog sig}
    (hp : Ends p t .raised → t = [.start op, .finish .raised] ∨
      ∃ v t', t = .start op :: .await v :: t' ∧ Ends (k v) t' .raised)
    (hk : ∀ v, NeverRaises (k v) ∨ k v = .throw) (h : Ends p t .raised) :
    ∃ mid, t = mid ++ [.finish .raised] ∧ ∀ n, .record n ∉ mid := by
  rcases hp h with rfl | ⟨v, t', rfl, hends⟩
  · exact ⟨[.start op], rfl, by simp⟩
  · rcases hk v with hsafe | hthrow
    · exact absurd hends (hsafe t')
    · rw [hthrow] at hends
      obtain ⟨rfl, -⟩ := ends_throw.mp hends
      exact ⟨[.start op, .await v], rfl, by simp⟩

theorem remoteTask_raised {target : Service} {op : Request} {k : Value → Prog sig}
    (hk : ∀ v, NeverRaises (k v) ∨ k v = .throw)
    (h : Ends (remoteTask build target op k) t .raised) :
    ∃ mid, t = mid ++ [.finish .raised] ∧ ∀ n, .record n ∉ mid :=
  raised_of_started op (fun h => (ends_remoteTask.mp h).imp And.left id) hk h

theorem call_raised {op : Request} {k : Value → Prog sig}
    (hk : ∀ v, NeverRaises (k v) ∨ k v = .throw)
    (h : Ends (.start op (.await k)) t .raised) :
    ∃ mid, t = mid ++ [.finish .raised] ∧ ∀ n, .record n ∉ mid := by
  refine raised_of_started op (fun h => ?_) hk h
  obtain ⟨_, rfl, hawait⟩ := ends_start.mp h
  rcases ends_await.mp hawait with ⟨rfl, -⟩ | ⟨v, t', rfl, hends⟩
  · exact .inl rfl
  · exact .inr ⟨v, t', rfl, hends⟩

/-- The first entry comes before everything else. -/
theorem raised_of_record {u : UInt64} {p : Prog sig} (h : Ends (.record u p) t .raised)
    (hp : ∀ t', Ends p t' .raised → ∃ mid, t' = mid ++ [.finish .raised] ∧ ∀ n, .record n ∉ mid) :
    ∃ mid, t = .record u :: mid ++ [.finish .raised] ∧ ∀ n, .record n ∉ mid := by
  obtain ⟨t', rfl, h'⟩ := ends_record.mp h
  obtain ⟨mid, rfl, hmid⟩ := hp t' h'
  exact ⟨mid, rfl, hmid⟩

/-- What an invocation left by an exception has recorded. -/
theorem handler_raised {op : Request} (h : Ends (handler build op) t .raised) :
    ∃ mid, t = .record op.uid :: mid ++ [.finish .raised] ∧ ∀ n, .record n ∉ mid := by
  cases op with
  | query pid q =>
    cases q with
    | find =>
      refine raised_of_record h fun t' h' => call_raised (fun v => ?_) h'
      cases v with
      | message resp => exact .inl (.access fun _ => .record .ret)
      | _ => exact .inr rfl
    | send =>
      refine raised_of_record h fun t' h' => call_raised (fun v => ?_) h'
      cases v with
      | status resp => exact .inl (.access fun _ => .record .ret)
      | _ => exact .inr rfl
  | findLastMessage =>
    refine raised_of_record h fun t' h' => remoteTask_raised (fun v => ?_) h'
    cases v with
    | string result => exact .inl (.record .ret)
    | _ => exact .inr rfl
  | sendMessage =>
    refine raised_of_record h fun t' h' => remoteTask_raised (fun v => ?_) h'
    cases v with
    | bool res => exact .inl (.record .ret)
    | _ => exact .inr rfl
  | sanitizeMessage clientId message uid =>
    cases hmatch : Regex.regexMatch matchExpr message with
    | true => cases (sanitizeMessage_of_match hmatch h).2
    | false =>
      simp only [handler, SanitizationHandler.sanitizeMessage, hmatch, Bool.false_eq_true,
        if_false] at h
      refine raised_of_record h fun t' h' => remoteTask_raised (fun v => ?_) h'
      cases v with
      | bool res => exact .inl (.record .ret)
      | _ => exact .inr rfl
  | mockFindLastMessage clientId uid =>
    have hsafe : NeverRaises (MockDatabaseHandler.findLastMessage clientId uid) := by
      refine .record (.sleep (.access fun w => ?_))
      split
      · exact .access fun _ => .record .ret
      · exact .record .ret
    exact absurd h (hsafe t)
  | storeMessage clientId message uid =>
    have hsafe : NeverRaises (MockDatabaseHandler.storeMessage clientId message uid) :=
      .record (.sleep (.access fun _ => .record .ret))
    exact absurd h (hsafe t)

theorem only_remoteTask {P : Act sig → Prop} {target : Service} {op : Request}
    {k : Value → Prog sig} (hraised : P (.finish .raised)) (hop : P (.start op))
    (hv : ∀ v, P (.await v)) (hk : ∀ v, Only P (k v)) :
    Only P (remoteTask build target op k) := by
  cases build with
  | async => exact .start hop (.sleep (.await hraised hv hk))
  | sync =>
    have hcall : Only P (.start op (.await fun v => .sleep (k v))) :=
      .start hop (.await hraised hv fun v => .sleep (hk v))
    refine .findClient fun found => ?_
    cases found with
    | true => exact hcall
    | false => exact .newClient hcall

theorem handler_only (build : Build) (op : Request) : Only op.allows (handler build op) := by
  cases op with
  | query pid q =>
    cases q with
    | find clientId queryUid =>
      refine .record trivial (.start rfl (.await trivial (fun _ => trivial) fun v => ?_))
      cases v with
      | message resp => exact .access (fun _ => .inl rfl) fun _ => .record trivial (.ret trivial)
      | _ => exact .throw trivial
    | send clientId message queryUid =>
      refine .record trivial (.start rfl (.await trivial (fun _ => trivial) fun v => ?_))
      cases v with
      | status resp => exact .access (fun _ => .inr rfl) fun _ => .record trivial (.ret trivial)
      | _ => exact .throw trivial
  | findLastMessage clientId queryUid =>
    refine .record rfl (only_remoteTask trivial rfl (fun _ => trivial) fun v => ?_)
    cases v with
    | string result => exact .record rfl (.ret trivial)
    | _ => exact .throw trivial
  | sendMessage clientId message queryUid =>
    refine .record rfl (only_remoteTask trivial rfl (fun _ => trivial) fun v => ?_)
    cases v with
    | bool res => exact .record rfl (.ret trivial)
    | _ => exact .throw trivial
  | sanitizeMessage clientId message queryUid =>
    refine .record rfl ?_
    split
    · exact .ret trivial
    · rename_i hmatch
      have hstart : (Request.sanitizeMessage clientId message queryUid).downstream =
          some (.storeMessage clientId message queryUid) := if_neg hmatch
      refine only_remoteTask trivial hstart (fun _ => trivial) fun v => ?_
      cases v with
      | bool res => exact .record rfl (.ret trivial)
      | _ => exact .throw trivial
  | mockFindLastMessage clientId queryUid =>
    refine .record rfl (.sleep (.access (fun _ => .inl rfl) fun w => ?_))
    split
    · exact .access (fun _ => .inr rfl) fun _ => .record rfl (.ret trivial)
    · exact .record rfl (.ret trivial)
  | storeMessage clientId message queryUid =>
    exact .record rfl (.sleep (.access (fun _ => rfl) fun _ => .record rfl (.ret trivial)))

end MockMessageBoard
