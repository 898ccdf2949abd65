import MockMessageBoard.Board.Database

/-!
# MockMessageBoard — what is stored, and what the senders are told

* `stored_clean_iff`     — which messages keep special characters out of the
  database;
* `send_status_truthful` — the status of a `send` and the store.
-/

namespace MockMessageBoard

open TextFile Rpc State Transition

-- ---------------------------------------------------------------------------
-- Unsanitized text
-- ---------------------------------------------------------------------------

/-- No stored message contains a special character. -/
def Clean (s : Board.State) : Prop :=
  ∀ clientId message, s.store.lastMessages clientId = some message → ¬HasSpecial message

/-- What is stored was sent, and has passed the filter. -/
theorem stored_origin {b : Board} {s : Board.State} (hreach : b.Reachable s)
    {clientId message : Text} (hstored : s.store.lastMessages clientId = some message) :
    ∃ pid uid, Query.send clientId message uid ∈ b.queries pid ∧
      Regex.regexMatch matchExpr message = false := by
  rw [(coherent_reaches hreach).lastMessages] at hstored
  obtain ⟨e, he, w, hact⟩ := exists_store_of_contents hstored
  obtain ⟨uid, hq, -, -, hmatch⟩ := store_origin hreach he hact
  exact ⟨_, uid, List.mem_of_getElem? hq, hmatch⟩

/-- A message that passes the filter reaches the database. -/
theorem oneSender_stores {message : Text}
    (hmatch : Regex.regexMatch matchExpr message = false) :
    ∃ s, (oneSender message).Reachable s ∧
      s.store.lastMessages albert = some message := by
  let r : RequestId := ⟨0, 0⟩
  let D := (oneSender message).deployment
  let afterAssign : View → Prog sig := fun _ => .record 0 (.ret (.bool true))
  -- up to the filter, whose decision is still open
  have hfilter : ∃ s k, run D.step D.init (sendToFilter r) = some s ∧
      s.calls ⟨r, 2⟩ = some ⟨.sanitizeMessage albert message 0,
        .running 0 (if Regex.regexMatch matchExpr message then .ret (.bool false)
          else remoteTask .async .mockDatabase (.storeMessage albert message 0) k), none⟩ ∧
      s.calls ⟨r, 3⟩ = none ∧ s.busy .mockDatabase 0 = false :=
    ⟨_, _, rfl, rfl, rfl, rfl⟩
  obtain ⟨s, k, hs, hcall, hfree, hidle⟩ := hfilter
  rw [hmatch] at hcall
  -- the rest of the way, step by step
  obtain ⟨s₁, h₁, hcall₁, hidle₁⟩ : ∃ s₁, D.step s (.run ⟨r, 2⟩) = some s₁ ∧
      s₁.calls ⟨r, 3⟩ = some ⟨.storeMessage albert message 0, .requested, none⟩ ∧
      s₁.busy .mockDatabase 0 = false :=
    ⟨_, step_of_steps (.run hcall rfl (.start hfree)), rfl, hidle⟩
  obtain ⟨s₂, h₂, hcall₂⟩ : ∃ s₂, D.step s₁ (.deliver ⟨r, 3⟩ 0) = some s₂ ∧
      s₂.calls ⟨r, 3⟩ = some ⟨.storeMessage albert message 0,
        .running 0 (MockDatabaseHandler.storeMessage albert message 0), none⟩ :=
    ⟨_, step_of_steps (.deliver hcall₁ rfl hidle₁), rfl⟩
  obtain ⟨s₃, h₃, hcall₃⟩ : ∃ s₃, D.step s₂ (.run ⟨r, 3⟩) = some s₃ ∧
      s₃.calls ⟨r, 3⟩ = some ⟨.storeMessage albert message 0,
        .running 0 (.sleep (.access (.assign albert message) afterAssign)), none⟩ :=
    ⟨_, step_of_steps (.run hcall₂ rfl .record), rfl⟩
  obtain ⟨s₄, h₄, hcall₄⟩ : ∃ s₄, D.step s₃ (.run ⟨r, 3⟩) = some s₄ ∧
      s₄.calls ⟨r, 3⟩ = some ⟨.storeMessage albert message 0,
        .running 0 (.access (.assign albert message) afterAssign), none⟩ :=
    ⟨_, step_of_steps (.run hcall₃ rfl .sleep), rfl⟩
  have h₅ := step_of_steps (.run hcall₄ rfl (.access (D := D) rfl))
  refine ⟨_, ((((Reaches.tail ⟨_, hs⟩ h₁).tail h₂).tail h₃).tail h₄).tail h₅, ?_⟩
  show Function.update s₄.store.lastMessages albert (some message) albert = some message
  exact Function.update_self ..

/--
**Which messages keep the database clean.** Whatever clients send messages from
`M`, in whatever interleaving, no special character is ever stored exactly if no
message of `M` hides one behind a line break.
-/
theorem stored_clean_iff (M : Set Text) :
    (∀ b : Board,
      (∀ pid clientId message uid, Query.send clientId message uid ∈ b.queries pid → message ∈ M) →
      ∀ s, b.Reachable s → Clean s) ↔ ∀ message ∈ M, ¬Evades message := by
  constructor
  · rintro hclean message hM ⟨hline, hspecial⟩
    have hmatch : Regex.regexMatch matchExpr message = false :=
      regexMatch_eq_false.mpr fun _ => hline
    obtain ⟨s, hs, hstored⟩ := oneSender_stores hmatch
    refine hclean (oneSender message) ?_ s hs _ _ hstored hspecial
    intro pid clientId message' uid hmem
    cases List.mem_singleton.mp (mem_of_mem_queries hmem)
    exact hM
  · intro hM b hsends s hs clientId message hstored hspecial
    obtain ⟨pid, uid, hmem, hmatch⟩ := stored_origin hs hstored
    exact hM message (hsends pid clientId message uid hmem)
      ⟨regexMatch_eq_false.mp hmatch hspecial, hspecial⟩

/-- A line break and a slash are stored as they are. -/
theorem newline_slash_stored :
    ∃ s, (oneSender "\n/".toList).Reachable s ∧
      s.store.lastMessages albert = some "\n/".toList ∧ ¬Clean s := by
  have hrun : ((run (oneSender "\n/".toList).deployment.step
      (oneSender "\n/".toList).deployment.init
      (sendToFilter ⟨0, 0⟩ ++ filterToDatabase ⟨0, 0⟩)).map
      fun s => s.store.lastMessages albert) = some (some "\n/".toList) := by
    decide
  obtain ⟨s, hs, hstored⟩ := Option.map_eq_some_iff.mp hrun
  exact ⟨s, ⟨_, hs⟩, hstored, fun hclean => hclean _ _ hstored (by decide)⟩

-- ---------------------------------------------------------------------------
-- The status of a send
-- ---------------------------------------------------------------------------

/-- The assignments to `last_messages` that serve request `r`. -/
def stores (s : Board.State) (r : RequestId) : List (Event sig) :=
  s.history.filter fun e => e.call.request = r ∧ isStore e = true

section Reachable

variable {b : Board} {s : Board.State} (hreach : b.Reachable s)
  {r : RequestId} {clientId message : Text} {uid : UInt64}

include hreach

/-- Only the call to `store_message` assigns. -/
theorem stores_eq (r : RequestId) : stores s r = (s.eventsOf ⟨r, 3⟩).filter isStore := by
  have honly : ∀ e ∈ s.history, decide (e.call.request = r ∧ isStore e = true) = true →
      e.call = ⟨r, 3⟩ := by
    intro e he hP
    obtain ⟨hr, hstore⟩ := of_decide_eq_true hP
    obtain ⟨c, m, w, hact⟩ := isStore_iff.mp hstore
    obtain ⟨-, -, hdepth, -, -⟩ := store_origin hreach he hact
    rw [← hr, ← hdepth]
  rw [stores, filter_history honly]
  refine List.filter_congr fun e he => ?_
  have hr : e.call.request = r := by rw [(mem_eventsOf.mp he).2]
  simp [hr]

theorem stores_of_trail {c m : Text} {u : UInt64} {w : View} {o : Outcome sig}
    (htrail : s.trail ⟨r, 3⟩ =
      [.record u, .access (.assign c m) w, .record u, .finish o]) :
    ∃ e, stores s r = [e] ∧ e.act = .access (.assign c m) w := by
  rw [stores_eq hreach]
  simp only [trail, List.map_eq_cons_iff, List.map_eq_nil_iff] at htrail
  obtain ⟨e₁, _, hevents, h₁, e₂, _, rfl, h₂, e₃, _, rfl, h₃, e₄, _, rfl, h₄, rfl⟩ := htrail
  refine ⟨e₂, ?_, h₂⟩
  rw [hevents]
  simp [isStore, h₁, h₂, h₃, h₄]

/-- A message that the filter matches never gets to MockDatabase. -/
theorem no_mock_of_match (hsend : b.query? r = some (.send clientId message uid))
    (hmatch : Regex.regexMatch matchExpr message = true) :
    ∀ e ∈ s.history, e.call.request = r → e.svc ≠ .mockDatabase := by
  rintro e he rfl hmock
  obtain ⟨call, hcall, hsvc⟩ := known_reaches hreach e he
  have hop := requestAt_of_query hreach hsend hcall
  rw [hmock] at hsvc
  rcases requestAt_send hop with ⟨-, h⟩ | ⟨-, h⟩ | ⟨-, h⟩ | ⟨-, hpass, -⟩
  · rw [h] at hsvc; cases hsvc
  · rw [h] at hsvc; cases hsvc
  · rw [h] at hsvc; cases hsvc
  · rw [hmatch] at hpass; cases hpass

theorem stores_eq_nil_of_match (hsend : b.query? r = some (.send clientId message uid))
    (hmatch : Regex.regexMatch matchExpr message = true) : stores s r = [] := by
  refine List.filter_eq_nil_iff.mpr fun e he hP => ?_
  obtain ⟨hr, hstore⟩ := of_decide_eq_true hP
  obtain ⟨c, m, w, hact⟩ := isStore_iff.mp hstore
  obtain ⟨-, -, -, hsvc, -⟩ := store_origin hreach he hact
  exact no_mock_of_match hreach hsend hmatch e he hr hsvc

/-- MessageService answers after the assignment. -/
theorem store_before_finish {e e' : Event sig} {v : Value} (he : e ∈ s.history)
    (hcall : e.call = ⟨r, 1⟩) (hact : e.act = .finish (.value v)) (he' : e' ∈ stores s r) :
    e'.svc = .mockDatabase ∧ e'.seq < e.seq := by
  obtain ⟨hmem, hP⟩ := List.mem_filter.mp he'
  obtain ⟨hr, hstore⟩ := of_decide_eq_true hP
  obtain ⟨c, m, w, hact'⟩ := isStore_iff.mp hstore
  obtain ⟨-, -, hdepth, hsvc, -⟩ := store_origin hreach hmem hact'
  obtain ⟨e₁, -, -, -, hlt, hle⟩ := before_finish hreach (handler_joins b.build) he hmem hact
    (by rw [hr, hcall]) (by rw [hcall, hdepth]; show 1 < 3; omega)
  exact ⟨hsvc, by omega⟩

/-- Once MessageService has answered, no call below it can have raised. -/
theorem not_raised_below (hsend : b.query? r = some (.send clientId message uid)) {v : Value}
    (hends : Ends (handler b.build (.sendMessage clientId message uid.toInt64)) (s.trail ⟨r, 1⟩)
      (.value v)) {d : Nat} (hd : 2 ≤ d) :
    (s.calls ⟨r, d⟩).bind Call.outcome ≠ some .raised := by
  intro hraised
  obtain ⟨res, -, htrail, hbelow⟩ := send_answered hreach hends
  obtain ⟨call, hcall, -⟩ := Option.bind_eq_some_iff.mp hraised
  have hop := requestAt_of_query hreach hsend hcall
  rcases requestAt_send hop with ⟨rfl, -⟩ | ⟨rfl, -⟩ | ⟨rfl, -⟩ | ⟨rfl, hpass, -⟩
  · omega
  · omega
  · exact await_notMem_of_raised hreach (c := ⟨r, 1⟩) hraised (.bool res) (by rw [htrail]; simp)
  · rcases hbelow with ⟨hmatch, -⟩ | ⟨-, -, htrail', -⟩
    · rw [hmatch] at hpass
      cases hpass
    · exact await_notMem_of_raised hreach (c := ⟨r, 2⟩) hraised (.bool true)
        (by rw [htrail']; simp)

end Reachable

/--
**The send status tells the truth about the store.** Whenever MessageService has
answered the `send` of a query, the answer carries the query's uid; if it says
`ok`, MockDatabase has executed one assignment for the query, with its client id
and message, before the answer; otherwise the query has not reached MockDatabase
at all. If a call below MessageService has raised, there is no answer.
-/
theorem send_status_truthful {b : Board} {s : Board.State} (hreach : b.Reachable s)
    {r : RequestId} {clientId message : Text} {uid : UInt64}
    (hsend : b.query? r = some (.send clientId message uid)) :
    (∀ e ∈ s.history, e.call = ⟨r, 1⟩ → ∀ v, e.act = .finish (.value v) →
      ∃ resp : StatusResponse, v = .status resp ∧ resp.queryUid = uid.toInt64 ∧
        (resp.ok = true → ∃ e', stores s r = [e'] ∧ e'.svc = .mockDatabase ∧
          (∃ w, e'.act = .access (.assign clientId message) w) ∧ e'.seq < e.seq) ∧
        (resp.ok = false → stores s r = [] ∧
          ∀ e' ∈ s.history, e'.call.request = r → e'.svc ≠ .mockDatabase)) ∧
    ((∃ d, 2 ≤ d ∧ (s.calls ⟨r, d⟩).bind Call.outcome = some .raised) →
      ∀ e ∈ s.history, e.call = ⟨r, 1⟩ → ∀ v, e.act ≠ .finish (.value v)) := by
  have hfinish : ∀ e ∈ s.history, e.call = ⟨r, 1⟩ → ∀ v, e.act = .finish (.value v) →
      Ends (handler b.build (.sendMessage clientId message uid.toInt64)) (s.trail ⟨r, 1⟩)
        (.value v) :=
    fun e he hcall v hact =>
      ends_of_finish hreach hsend rfl (mem_trail.mpr ⟨e, he, hcall, hact⟩)
  constructor
  · intro e he hcall v hact
    obtain ⟨res, rfl, -, hbelow⟩ := send_answered hreach (hfinish e he hcall v hact)
    refine ⟨⟨res, uid.toInt64⟩, rfl, rfl, ?_, ?_⟩
    · rintro rfl
      rcases hbelow with ⟨-, hfalse, -⟩ | ⟨-, -, -, w, htrail⟩
      · cases hfalse
      · obtain ⟨e', hstores, hact'⟩ := stores_of_trail hreach htrail
        obtain ⟨hsvc, hlt⟩ := store_before_finish hreach he hcall hact
          (hstores ▸ List.mem_singleton_self e')
        exact ⟨e', hstores, hsvc, ⟨w, hact'⟩, hlt⟩
    · rintro rfl
      rcases hbelow with ⟨hmatch, -, -⟩ | ⟨-, htrue, -⟩
      · exact ⟨stores_eq_nil_of_match hreach hsend hmatch, no_mock_of_match hreach hsend hmatch⟩
      · cases htrue
  · rintro ⟨d, hd, hraised⟩ e he hcall v hact
    exact not_raised_below hreach hsend (hfinish e he hcall v hact) hd hraised

/-- A stored message, and the answer that says so. -/
theorem send_status_truthful_stored :
    ∃ s e e', (oneSender "hi".toList).Reachable s ∧ e ∈ s.history ∧
      e.call = ⟨⟨0, 0⟩, 1⟩ ∧ e.act = .finish (.value (.status ⟨true, 0⟩)) ∧
      stores s ⟨0, 0⟩ = [e'] ∧ (∃ w, e'.act = .access (.assign albert "hi".toList) w) ∧
      e'.seq < e.seq := by
  obtain ⟨s, hs, -, he⟩ := hi_answered
  have hmem := List.mem_of_getElem? he
  have hsend : (oneSender "hi".toList).query? ⟨0, 0⟩ = some (.send albert "hi".toList 0) := rfl
  obtain ⟨htruth, -⟩ := send_status_truthful hs hsend
  obtain ⟨resp, hresp, -, hok, -⟩ := htruth _ hmem rfl _ rfl
  cases hresp
  obtain ⟨e', hstores, -, hact, hlt⟩ := hok rfl
  exact ⟨s, _, e', hs, hmem, rfl, rfl, hstores, hact, hlt⟩

end MockMessageBoard
