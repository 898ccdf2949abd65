import MockMessageBoard.Board.Database
import MockMessageBoard.Lib.Linearizability

/-!
# MockMessageBoard — linearizability

The message board answers as if it served one request at a time. A `find` takes
effect when MockDatabase reads its key, or fails to find it; a `send` when
MockDatabase assigns its message, or when the filter turns it away.

* `effect`             — the request that takes effect in an action;
* `contents_eq_state`  — the database, after a prefix of a run, is that of a
  sequential message board that has served the requests in effect;
* `find_point`, `send_point` — what an answer says about the moment of effect;
* `board_linearizable` — the order in which requests take effect.

A request whose answer is an exception may take effect or not, and may do so
after the exception; it counts as unanswered.
-/

namespace MockMessageBoard

open TextFile Rpc State Transition Linearizability

-- ---------------------------------------------------------------------------
-- A message board that serves one request at a time
-- ---------------------------------------------------------------------------

def messageBoard : Object (Text → Option Text) Query Value where
  init := fun _ => none
  apply
    | .find clientId uid, last =>
      (last, .message ⟨(last clientId).getD (warning clientId), uid.toInt64⟩)
    | .send clientId message uid, last =>
      if Regex.regexMatch matchExpr message then (last, .status ⟨false, uid.toInt64⟩)
      else (Function.update last clientId (some message), .status ⟨true, uid.toInt64⟩)

/-- The message that an accepted `send` leaves for the client id. -/
def Query.accepted (clientId : Text) : Query → Option Text
  | .find .. => none
  | .send clientId' message _ =>
    if clientId' = clientId ∧ Regex.regexMatch matchExpr message = false then some message
    else none

/-- The message of the latest accepted `send` for the client id. -/
def latest (clientId : Text) (qs : List Query) : Option Text :=
  lastWrite Query.accepted clientId qs

theorem accepted_iff {clientId message : Text} {q : Query} :
    q.accepted clientId = some message ↔
      ∃ uid, q = .send clientId message uid ∧ Regex.regexMatch matchExpr message = false := by
  cases q with
  | find => simp [Query.accepted]
  | send clientId' message' uid =>
    simp only [Query.accepted]
    split
    · rename_i h
      obtain ⟨rfl, hpass⟩ := h
      constructor
      · rintro ⟨⟩
        exact ⟨uid, rfl, hpass⟩
      · rintro ⟨uid', ⟨⟩, -⟩
        rfl
    · rename_i h
      constructor
      · nofun
      · rintro ⟨uid', ⟨⟩, hpass⟩
        exact absurd ⟨rfl, hpass⟩ h

theorem state_eq_latest (clientId : Text) (qs : List Query) :
    messageBoard.state qs clientId = latest clientId qs := by
  refine state_eq_lastWrite (fun _ => rfl) (fun q last c => ?_) qs clientId
  cases q with
  | find => rfl
  | send clientId' message uid =>
    cases hmatch : Regex.regexMatch matchExpr message with
    | true => simp [messageBoard, Query.accepted, hmatch]
    | false =>
      by_cases hc : clientId' = c
      · subst hc
        simp [messageBoard, Query.accepted, hmatch]
      · simp [messageBoard, Query.accepted, hmatch, hc, Function.update_of_ne (Ne.symm hc)]

-- ---------------------------------------------------------------------------
-- Where a query takes effect
-- ---------------------------------------------------------------------------

/-- A query takes effect with this action of the handler `d` hops away from the
client. -/
def Query.takesEffect (q : Query) (d : Nat) (a : Act sig) : Bool :=
  match q, a with
  | .find .., .access (.contains _) w => !w.found
  | .find .., .access (.lookup _) _ => true
  | .send _ message _, .finish _ => d = 2 ∧ Regex.regexMatch matchExpr message = true
  | .send .., .access (.assign ..) _ => true
  | _, _ => false

/-- How far away from the client that is. -/
def Query.effectDepth : Query → Nat
  | .find .. => 2
  | .send _ message _ => if Regex.regexMatch matchExpr message then 2 else 3

theorem two_le_effectDepth (q : Query) : 2 ≤ q.effectDepth := by
  cases q with
  | find => exact le_rfl
  | send =>
    simp only [Query.effectDepth]
    split <;> omega

/-- The request that takes effect in the action, if any. -/
def effect (b : Board) (e : Event sig) : Option RequestId :=
  if (b.query? e.call.request).any fun q => q.takesEffect e.call.depth e.act then
    some e.call.request
  else none

theorem effect_eq_some {b : Board} {e : Event sig} {r : RequestId} :
    effect b e = some r ↔
      e.call.request = r ∧ ∃ q, b.query? r = some q ∧ q.takesEffect e.call.depth e.act = true := by
  unfold effect
  split
  · rename_i h
    rw [Option.any_eq_true] at h
    constructor
    · rintro ⟨⟩
      exact ⟨rfl, h⟩
    · rintro ⟨rfl, -⟩
      rfl
  · rename_i h
    rw [Option.any_eq_true] at h
    constructor
    · nofun
    · rintro ⟨rfl, hq⟩
      exact absurd hq h

/-- Nothing else that serves the query is its effect. -/
theorem takesEffect_eq_false {q : Query} {pid d : Nat} {op : Request} {a : Act sig}
    (hop : q.requestAt pid d = some op) (hallows : op.allows a) (hd : d ≠ q.effectDepth) :
    q.takesEffect d a = false := by
  cases a with
  | record | start | await => cases q <;> rfl
  | finish o =>
    cases q with
    | find => rfl
    | send clientId message uid =>
      refine decide_eq_false ?_
      rintro ⟨rfl, hmatch⟩
      exact hd (if_pos hmatch).symm
  | access a w =>
    cases q with
    | find =>
      rcases requestAt_find hop with ⟨rfl, rfl⟩ | ⟨rfl, rfl⟩ | ⟨rfl, rfl⟩
      · rcases hallows with rfl | rfl <;> rfl
      · cases hallows
      · exact absurd rfl hd
    | send clientId message uid =>
      rcases requestAt_send hop with ⟨rfl, rfl⟩ | ⟨rfl, rfl⟩ | ⟨rfl, rfl⟩ | ⟨rfl, hpass, rfl⟩
      · rcases hallows with rfl | rfl <;> rfl
      · cases hallows
      · cases hallows
      · exact absurd (if_neg (by simp [hpass])).symm hd

/-- An invocation has at most one effect. -/
theorem countP_takesEffect_le {build : Build} {q : Query} {pid : Nat} {op : Request}
    {t : List (Act sig)} (hop : q.requestAt pid q.effectDepth = some op)
    (h : Upto (handler build op) t) : t.countP (q.takesEffect q.effectDepth) ≤ 1 := by
  cases q with
  | find clientId uid =>
    cases hop
    simp only [handler, MockDatabaseHandler.findLastMessage, upto_record, upto_sleep,
      upto_access] at h
    rcases h with rfl | ⟨_, rfl, rfl | rfl | ⟨w, _, rfl, h⟩⟩
    · exact Nat.zero_le _
    · exact Nat.zero_le _
    · exact Nat.zero_le _
    · cases hw : w.found with
      | true =>
        simp only [hw, if_true, upto_access, upto_record, upto_ret] at h
        rcases h with rfl | ⟨w', _, rfl, rfl | ⟨_, rfl, rfl | rfl⟩⟩ <;>
          simp [Query.takesEffect, List.countP_cons, hw]
      | false =>
        simp only [hw, Bool.false_eq_true, if_false, upto_record, upto_ret] at h
        rcases h with rfl | ⟨_, rfl, rfl | rfl⟩ <;> simp [Query.takesEffect, hw]
  | send clientId message uid =>
    cases hmatch : Regex.regexMatch matchExpr message with
    | true =>
      have hdepth : (Query.send clientId message uid).effectDepth = 2 := if_pos hmatch
      rw [hdepth] at hop ⊢
      cases hop
      simp only [handler, SanitizationHandler.sanitizeMessage, hmatch, if_true, upto_record,
        upto_ret] at h
      rcases h with rfl | ⟨_, rfl, rfl | rfl⟩ <;> simp [Query.takesEffect, hmatch]
    | false =>
      have hdepth : (Query.send clientId message uid).effectDepth = 3 := if_neg (by simp [hmatch])
      rw [hdepth] at hop ⊢
      rw [requestAt_send_three, hmatch] at hop
      cases hop
      simp only [handler, MockDatabaseHandler.storeMessage, upto_record, upto_sleep, upto_access,
        upto_ret] at h
      rcases h with rfl | ⟨_, rfl, rfl | rfl | ⟨w, _, rfl, rfl | ⟨_, rfl, rfl | rfl⟩⟩⟩ <;>
        simp [Query.takesEffect, List.countP_cons]

-- ---------------------------------------------------------------------------
-- What clients see
-- ---------------------------------------------------------------------------

/-- The client sends request `r` to MessageService. -/
def Issued (s : Board.State) (r : RequestId) (e : Event sig) : Prop :=
  e ∈ s.history ∧ e.call = ⟨r, 0⟩ ∧ ∃ op, e.act = .start op

/-- MessageService answers request `r` with `v`. -/
def Answered (s : Board.State) (r : RequestId) (v : Value) (e : Event sig) : Prop :=
  e ∈ s.history ∧ e.call = ⟨r, 1⟩ ∧ e.act = .finish (.value v)

def clientHistory (b : Board) (s : Board.State) : History RequestId Query Value where
  op := b.query?
  answer := fun r v => ∃ e, Answered s r v e
  before := fun r r' => ∃ v e e', Answered s r v e ∧ Issued s r' e' ∧ e.seq < e'.seq

section Reachable

variable {b : Board} {s : Board.State} (hreach : b.Reachable s)

include hreach

-- ---------------------------------------------------------------------------
-- Every request takes effect once
-- ---------------------------------------------------------------------------

theorem effect_depth {e : Event sig} {r : RequestId} (he : e ∈ s.history)
    (heff : effect b e = some r) :
    ∃ q call, b.query? r = some q ∧ s.calls ⟨r, q.effectDepth⟩ = some call ∧
      q.requestAt r.proc q.effectDepth = some call.op ∧ e.call = ⟨r, q.effectDepth⟩ ∧
      q.takesEffect q.effectDepth e.act = true := by
  obtain ⟨rfl, q, hq, htakes⟩ := effect_eq_some.mp heff
  obtain ⟨call, hcall, -⟩ := known_reaches hreach e he
  have hop := requestAt_of_query hreach hq hcall
  have hallows := allows_of_mem hreach hcall (mem_trail.mpr ⟨e, he, rfl, rfl⟩)
  have hdepth : e.call.depth = q.effectDepth := by
    by_contra hne
    rw [takesEffect_eq_false hop hallows hne] at htakes
    cases htakes
  have hec : e.call = ⟨e.call.request, q.effectDepth⟩ := by rw [← hdepth]
  rw [hdepth] at htakes hop
  exact ⟨q, call, hq, hec ▸ hcall, hop, hec, htakes⟩

theorem eq_of_effect {e e' : Event sig} {r : RequestId} (he : e ∈ s.history)
    (he' : e' ∈ s.history) (heff : effect b e = some r) (heff' : effect b e' = some r) :
    e = e' := by
  obtain ⟨q, call, hq, hcall, hop, hec, htakes⟩ := effect_depth hreach he heff
  obtain ⟨q', _, hq', -, -, hec', htakes'⟩ := effect_depth hreach he' heff'
  rw [hq] at hq'
  cases hq'
  have hcount := countP_takesEffect_le hop (upto_of_call hreach hcall)
  rw [trail, List.countP_map, List.countP_eq_length_filter, Function.comp_def] at hcount
  have hmem : e ∈ (s.eventsOf _).filter fun e => q.takesEffect q.effectDepth e.act :=
    List.mem_filter.mpr ⟨mem_eventsOf.mpr ⟨he, hec⟩, htakes⟩
  have hmem' : e' ∈ (s.eventsOf _).filter fun e => q.takesEffect q.effectDepth e.act :=
    List.mem_filter.mpr ⟨mem_eventsOf.mpr ⟨he', hec'⟩, htakes'⟩
  obtain ⟨x, hx⟩ := List.length_eq_one_iff.mp
    (Nat.le_antisymm hcount (List.length_pos_of_mem hmem))
  rw [hx, List.mem_singleton] at hmem hmem'
  rw [hmem, hmem']

theorem effect_once : (s.history.filterMap (effect b)).Nodup := by
  rw [List.Nodup, List.pairwise_filterMap]
  refine (history_sorted hreach).imp_of_mem fun {e e'} he he' hlt r heff r' heff' hr => ?_
  subst hr
  rw [eq_of_effect hreach he he' heff heff'] at hlt
  exact lt_irrefl _ hlt

-- ---------------------------------------------------------------------------
-- The database is that of the sequential board
-- ---------------------------------------------------------------------------

theorem effect_of_store {e : Event sig} (he : e ∈ s.history) (hstore : isStore e = true) :
    effect b e = some e.call.request := by
  obtain ⟨clientId, message, w, hact⟩ := isStore_iff.mp hstore
  obtain ⟨uid, hq, -⟩ := store_origin hreach he hact
  exact effect_eq_some.mpr ⟨rfl, _, hq, by rw [hact]; rfl⟩

/-- After any part of a run the database is that of the sequential board after
the requests in effect. -/
theorem contents_eq_state (h : List (Event sig)) (hmem : ∀ e ∈ h, e ∈ s.history) :
    contents h = messageBoard.state ((h.filterMap (effect b)).filterMap b.query?) := by
  induction h using List.reverseRecOn with
  | nil => rfl
  | append_singleton h e ih =>
    have he : e ∈ s.history := hmem e (List.mem_append_right _ (List.mem_singleton_self _))
    have hold := ih fun e' he' => hmem e' (List.mem_append_left _ he')
    rw [contents_snoc, hold, List.filterMap_append, List.filterMap_append]
    cases hstore : isStore e with
    | true =>
      obtain ⟨clientId, message, w, hact⟩ := isStore_iff.mp hstore
      obtain ⟨uid, hq, -, -, hpass⟩ := store_origin hreach he hact
      rw [List.filterMap_cons_some (effect_of_store hreach he hstore), List.filterMap_nil,
        List.filterMap_cons_some hq, List.filterMap_nil, Object.state_snoc, assign_of_act hact]
      simp [messageBoard, hpass]
    | false =>
      rw [assign_of_not_store hstore]
      cases heff : effect b e with
      | none => rw [List.filterMap_cons_none heff, List.filterMap_nil, List.filterMap_nil,
          List.append_nil]
      | some r =>
        obtain ⟨-, q, hq, htakes⟩ := effect_eq_some.mp heff
        rw [List.filterMap_cons_some heff, List.filterMap_nil, List.filterMap_cons_some hq,
          List.filterMap_nil, Object.state_snoc]
        cases q with
        | find => rfl
        | send clientId message uid =>
          -- the effect is no assignment, so the filter has turned the message away
          have hmatch : Regex.regexMatch matchExpr message = true := by
            obtain ⟨c, svc, seq, time, act⟩ := e
            cases act with
            | record | start | await => cases htakes
            | finish => exact (of_decide_eq_true htakes).2
            | access a w =>
              cases a with
              | assign => cases hstore
              | _ => cases htakes
          simp [messageBoard, hmatch]

theorem store_eq_latest (clientId : Text) :
    s.store.lastMessages clientId =
      latest clientId ((s.history.filterMap (effect b)).filterMap b.query?) := by
  rw [(coherent_reaches hreach).lastMessages, contents_eq_state hreach s.history fun _ he => he,
    state_eq_latest]

-- ---------------------------------------------------------------------------
-- Answers
-- ---------------------------------------------------------------------------

variable {r : RequestId} {v : Value} {e : Event sig}

omit hreach in
theorem point_of_trail {q : Query} (hq : b.query? r = some q) (d : Nat) (a : Act sig)
    (ha : a ∈ s.trail ⟨r, d⟩) (htakes : q.takesEffect d a = true) :
    ∃ pre e post, s.history = pre ++ e :: post ∧ effect b e = some r ∧ e.act = a := by
  obtain ⟨e, he, hec, rfl⟩ := mem_trail.mp ha
  obtain ⟨pre, post, hsplit⟩ := List.append_of_mem he
  refine ⟨pre, e, post, hsplit, effect_eq_some.mpr ⟨by rw [hec], q, hq, ?_⟩, rfl⟩
  rw [hec]
  exact htakes

/-- A `find` was answered with what the database held when it took effect. -/
theorem find_point {clientId : Text} {uid : UInt64}
    (hq : b.query? r = some (.find clientId uid)) (hanswer : Answered s r v e) :
    ∃ pre e' post, s.history = pre ++ e' :: post ∧ effect b e' = some r ∧
      v = .message ⟨(contents pre clientId).getD (warning clientId), uid.toInt64⟩ := by
  obtain ⟨he, hec, hact⟩ := hanswer
  have hends := ends_of_finish hreach hq (d := 1) rfl (mem_trail.mpr ⟨e, he, hec, hact⟩)
  obtain ⟨result, rfl, -, hends'⟩ := find_answered hreach hends
  have hcoherent := coherent_reaches hreach
  rcases mockFindLastMessage_value hends' with ⟨w, hw, hresult, htrail⟩ |
    ⟨w, w', -, hresult, htrail⟩
  · obtain ⟨pre, e', post, hsplit, heff, hact'⟩ :=
      point_of_trail hq 2 (.access (.contains clientId) w) (by rw [htrail]; simp)
        (by simp [Query.takesEffect, hw])
    have hnone := hcoherent.contains pre e' post hsplit clientId w hact'
    rw [hw] at hnone
    have hnone := Option.isNone_iff_eq_none.mp (Option.isSome_eq_false_iff.mp hnone.symm)
    cases hresult
    exact ⟨pre, e', post, hsplit, heff, by rw [hnone]; rfl⟩
  · obtain ⟨pre, e', post, hsplit, heff, hact'⟩ :=
      point_of_trail hq 2 (.access (.lookup clientId) w') (by rw [htrail]; simp) rfl
    have hsome := hcoherent.lookup pre e' post hsplit clientId w' hact'
    cases hresult
    exact ⟨pre, e', post, hsplit, heff, by rw [hsome]; rfl⟩

/-- A `send` was answered with what the filter says. -/
theorem send_point {clientId message : Text} {uid : UInt64}
    (hq : b.query? r = some (.send clientId message uid)) (hanswer : Answered s r v e) :
    ∃ pre e' post, s.history = pre ++ e' :: post ∧ effect b e' = some r ∧
      v = .status ⟨!Regex.regexMatch matchExpr message, uid.toInt64⟩ := by
  obtain ⟨he, hec, hact⟩ := hanswer
  have hends := ends_of_finish hreach hq (d := 1) rfl (mem_trail.mpr ⟨e, he, hec, hact⟩)
  obtain ⟨res, rfl, -, hbelow⟩ := send_answered hreach hends
  rcases hbelow with ⟨hmatch, rfl, htrail⟩ | ⟨hpass, rfl, -, w, htrail⟩
  · obtain ⟨pre, e', post, hsplit, heff, -⟩ :=
      point_of_trail hq 2 (.finish (.value (.bool false))) (by rw [htrail]; simp)
        (by simp [Query.takesEffect, hmatch])
    exact ⟨pre, e', post, hsplit, heff, by rw [hmatch]; rfl⟩
  · obtain ⟨pre, e', post, hsplit, heff, -⟩ :=
      point_of_trail hq 3 (.access (.assign clientId message) w) (by rw [htrail]; simp) rfl
    exact ⟨pre, e', post, hsplit, heff, by rw [hpass]; rfl⟩

/-- An answer is the one the sequential board gives in the moment of effect. -/
theorem answered_point (hanswer : Answered s r v e) :
    ∃ pre e' post, s.history = pre ++ e' :: post ∧ effect b e' = some r ∧
      ∃ q, b.query? r = some q ∧
        v = messageBoard.result ((pre.filterMap (effect b)).filterMap b.query?) q := by
  obtain ⟨call, hcall, -⟩ := known_reaches hreach e hanswer.1
  rw [hanswer.2.1] at hcall
  obtain ⟨q, hq, -⟩ := requestAt_of_call hreach hcall
  cases q with
  | find clientId uid =>
    obtain ⟨pre, e', post, hsplit, heff, rfl⟩ := find_point hreach hq hanswer
    refine ⟨pre, e', post, hsplit, heff, _, hq, ?_⟩
    rw [contents_eq_state hreach pre fun e he => hsplit ▸ List.mem_append_left _ he]
    rfl
  | send clientId message uid =>
    obtain ⟨pre, e', post, hsplit, heff, rfl⟩ := send_point hreach hq hanswer
    refine ⟨pre, e', post, hsplit, heff, _, hq, ?_⟩
    unfold Object.result
    cases hmatch : Regex.regexMatch matchExpr message with
    | true => simp [messageBoard, hmatch]
    | false => simp [messageBoard, hmatch]

-- ---------------------------------------------------------------------------
-- Real time
-- ---------------------------------------------------------------------------

/-- What the database does for a request comes after the request was issued. -/
theorem issued_lt_below {e' : Event sig} {d : Nat} (hissued : Issued s r e)
    (he' : e' ∈ s.history) (hec' : e'.call = ⟨r, d⟩) (hdepth : 1 < d) : e.seq < e'.seq := by
  obtain ⟨he, hec, op, hact⟩ := hissued
  obtain ⟨e₁, he₁, hec₁, -, hlt⟩ := after_start hreach (c := ⟨r, 1⟩) he' (by rw [hec'])
    (by rw [hec']; exact hdepth)
  have hstart := startBefore_reaches hreach e he e₁ he₁ op hact (by rw [hec₁, hec]; rfl)
  exact hstart.trans hlt

/-- And before it is answered. -/
theorem below_lt_answered {e' : Event sig} {d : Nat} (hanswer : Answered s r v e)
    (he' : e' ∈ s.history) (hec' : e'.call = ⟨r, d⟩) (hdepth : 1 < d) : e'.seq < e.seq := by
  obtain ⟨he, hec, hact⟩ := hanswer
  obtain ⟨e₁, -, -, -, hlt, hle⟩ := before_finish hreach (handler_joins b.build) he he' hact
    (by rw [hec, hec']) (by rw [hec, hec']; exact hdepth)
  omega

/-- A request takes effect after it was issued. -/
theorem issued_lt_effect {e' : Event sig} (hissued : Issued s r e) (he' : e' ∈ s.history)
    (heff : effect b e' = some r) : e.seq < e'.seq := by
  obtain ⟨q, -, -, -, -, hec', -⟩ := effect_depth hreach he' heff
  exact issued_lt_below hreach hissued he' hec' (two_le_effectDepth q)

/-- A request takes effect before it is answered. -/
theorem effect_lt_answered {e' : Event sig} (hanswer : Answered s r v e) (he' : e' ∈ s.history)
    (heff : effect b e' = some r) : e'.seq < e.seq := by
  obtain ⟨q, -, -, -, -, hec', -⟩ := effect_depth hreach he' heff
  exact below_lt_answered hreach hanswer he' hec' (two_le_effectDepth q)

theorem points_reaches : Points messageBoard (clientHistory b s) s.history (effect b) where
  once := effect_once hreach
  answered := by
    rintro r v ⟨e, hanswer⟩
    exact answered_point hreach hanswer
  ordered := by
    rintro r r' ⟨v, e, e', hanswer, hissued, hlt⟩ pre x post hsplit heff
    obtain ⟨pre', y, post', hsplit', heff', -⟩ := answered_point hreach hanswer
    have hx : x ∈ s.history := hsplit ▸ List.mem_append_right _ List.mem_cons_self
    have hy : y ∈ s.history := hsplit' ▸ List.mem_append_right _ List.mem_cons_self
    have hbefore := effect_lt_answered hreach hanswer hy heff'
    have hafter := issued_lt_effect hreach hissued hx heff
    exact List.mem_filterMap.mpr ⟨y, mem_prefix hreach hsplit hy (by omega), heff'⟩

/-- A request that has taken effect was issued. -/
theorem issued_of_effect {e : Event sig} (he : e ∈ s.history) (heff : effect b e = some r) :
    ∃ e', Issued s r e' := by
  obtain ⟨q, -, -, -, -, hec, -⟩ := effect_depth hreach he heff
  have hdepth := two_le_effectDepth q
  obtain ⟨e', he', hec', hact, -⟩ := after_start hreach (c := ⟨r, 0⟩) he (by rw [hec])
    (by rw [hec]; show 0 < q.effectDepth; omega)
  exact ⟨e', he', hec', hact⟩

end Reachable

/--
**The message board is linearizable.** In every reachable state the requests
that have taken effect have one order that respects real time, in which every
answer is the one a sequential board gives: a `find` gets the message of the
latest accepted `send` before it for its client id, or the warning. That
message is what the database holds; rejected `send`s, `find`s and `send`s for
other ids do not count. So a `find` issued after an `ok` reply gets the message
that was accepted or one of a later `send`.
-/
theorem board_linearizable {b : Board} {s : Board.State} (hreach : b.Reachable s) :
    ∃ L : List RequestId, Linearizes messageBoard (clientHistory b s) L ∧
      (∀ r ∈ L, ∃ e, Issued s r e) ∧
      (∀ e ∈ s.history, isStore e = true → e.call.request ∈ L) ∧
      (∀ clientId, s.store.lastMessages clientId = latest clientId (L.filterMap b.query?)) ∧
      (∀ pre r post clientId uid v e, L = pre ++ r :: post →
        b.query? r = some (.find clientId uid) → Answered s r v e →
        v = .message ⟨(latest clientId (pre.filterMap b.query?)).getD (warning clientId),
          uid.toInt64⟩) ∧
      ∀ r r' clientId message uid uid' v' e e' i',
        b.query? r = some (.send clientId message uid) →
        b.query? r' = some (.find clientId uid') →
        Answered s r (.status ⟨true, uid.toInt64⟩) e → Issued s r' i' → e.seq < i'.seq →
        Answered s r' v' e' →
        ∃ r'' message' uid'', b.query? r'' = some (.send clientId message' uid'') ∧
          v' = .message ⟨message', uid'.toInt64⟩ ∧ (r'' = r ∨ [r, r''].Sublist L) := by
  have hlin := (points_reaches hreach).linearizes
  have hfind : ∀ pre r post clientId uid v e,
      s.history.filterMap (effect b) = pre ++ r :: post →
      b.query? r = some (.find clientId uid) → Answered s r v e →
      v = .message ⟨(latest clientId (pre.filterMap b.query?)).getD (warning clientId),
        uid.toInt64⟩ := by
    intro pre r post clientId uid v e hsplit hq hanswer
    obtain ⟨q, hq', rfl⟩ := hlin.legal pre r post hsplit v ⟨e, hanswer⟩
    obtain rfl := Option.some.inj (hq.symm.trans hq')
    rw [← state_eq_latest]
    rfl
  refine ⟨s.history.filterMap (effect b), hlin, ?_, ?_, store_eq_latest hreach, hfind, ?_⟩
  · intro r hr
    obtain ⟨e, he, heff⟩ := List.mem_filterMap.mp hr
    exact issued_of_effect hreach he heff
  · intro e he hstore
    exact List.mem_filterMap.mpr ⟨e, he, effect_of_store hreach he hstore⟩
  · intro r r' clientId message uid uid' v' e e' i' hq hq' hanswer hissued hlt hanswer'
    obtain ⟨pre, mid, post, hsplit⟩ := hlin.split ⟨_, e, i', hanswer, hissued, hlt⟩
      (hlin.complete r' v' ⟨e', hanswer'⟩)
    have hpass : Regex.regexMatch matchExpr message = false := by
      obtain ⟨-, -, -, -, -, hok⟩ := send_point hreach hq hanswer
      cases hmatch : Regex.regexMatch matchExpr message with
      | false => rfl
      | true => rw [hmatch] at hok; cases hok
    -- the latest accepted `send` is this one or one after it
    have haccepts : ((b.query? r).bind (Query.accepted clientId)).isSome = true := by
      simp [hq, Query.accepted, hpass]
    obtain ⟨r'', hr'', message', hmessage, hlatest⟩ :=
      exists_lastWrite (fun r => (b.query? r).bind (Query.accepted clientId)) pre mid haccepts
    obtain ⟨q, hq'', haccepted⟩ := Option.bind_eq_some_iff.mp hmessage
    obtain ⟨uid'', rfl, -⟩ := accepted_iff.mp haccepted
    refine ⟨r'', message', uid'', hq'', ?_, ?_⟩
    · rw [hfind _ _ _ _ _ _ _ hsplit hq' hanswer', latest, lastWrite, List.filterMap_filterMap,
        hlatest]
      rfl
    · rcases List.mem_cons.mp hr'' with rfl | hmid
      · exact .inl rfl
      · right
        rw [hsplit, List.append_assoc]
        refine List.Sublist.trans ?_ (List.sublist_append_right _ _)
        exact (List.singleton_sublist.mpr (List.mem_append_left _ hmid)).cons_cons r

/-- One client sends a message and then asks for it. -/
def sendThenFind : Board := oneClient .async [.send albert "hi".toList 0, .find albert 1]

theorem board_linearizable_read :
    ∃ s L, sendThenFind.Reachable s ∧
      Linearizes messageBoard (clientHistory sendThenFind s) L ∧
      [⟨0, 0⟩, ⟨0, 1⟩].Sublist L ∧
      ∃ v e, Answered s ⟨0, 1⟩ v e ∧ v = .message ⟨"hi".toList, 1⟩ := by
  obtain ⟨s, hs, hsent, hissued, hfound⟩ : ∃ s,
      run sendThenFind.deployment.step sendThenFind.deployment.init
        (sendToFilter ⟨0, 0⟩ ++ filterToDatabase ⟨0, 0⟩ ++ databaseToClient ⟨0, 0⟩ ++
          findAndReturn ⟨0, 1⟩) = some s ∧
      s.history[15]? = some ⟨⟨⟨0, 0⟩, 1⟩, .messageService, 15, 4,
        .finish (.value (.status ⟨true, 0⟩))⟩ ∧
      s.history[21]? = some ⟨⟨⟨0, 1⟩, 0⟩, .client 0, 21, 5, .start (.findLastMessage albert 1)⟩ ∧
      s.history[31]? = some ⟨⟨⟨0, 1⟩, 1⟩, .messageService, 31, 6,
        .finish (.value (.message ⟨"hi".toList, 1⟩))⟩ :=
    ⟨_, rfl, rfl, rfl, rfl⟩
  obtain ⟨L, hlin, -⟩ := board_linearizable ⟨_, hs⟩
  have hanswer : Answered s ⟨0, 1⟩ _ _ := ⟨List.mem_of_getElem? hfound, rfl, rfl⟩
  refine ⟨s, L, ⟨_, hs⟩, hlin, ?_, _, _, hanswer, rfl⟩
  refine hlin.realTime _ _ ⟨_, _, _, ⟨List.mem_of_getElem? hsent, rfl, rfl⟩,
    ⟨List.mem_of_getElem? hissued, rfl, _, rfl⟩, ?_⟩ (hlin.complete _ _ ⟨_, hanswer⟩)
  show 15 < 21
  omega

end MockMessageBoard
