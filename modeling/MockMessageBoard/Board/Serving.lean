import MockMessageBoard.Board.Chains
import MockMessageBoard.Lib.Rpc.Progress

/-!
# MockMessageBoard — the board serves what is asked of it

The handlers of either build behave: each makes at most one call, further down
the chain, and returns a value of its type when that call does. So whatever
else is under way any query can be served, and a client that does not wait can
have all its queries under way, with every reply still to be taken.

* `handler_behaves`   — the handlers behave;
* `issue_and_serve`   — a query can be issued and served up to its reply;
* `all_in_flight`     — so can all of them, before the first reply is taken;
* `all_returned`      — and then the replies can be taken.
-/

namespace MockMessageBoard

open TextFile Rpc State Transition

-- ---------------------------------------------------------------------------
-- Handlers
-- ---------------------------------------------------------------------------

/-- How many hops away from MockDatabase a request is served, at most. -/
def Request.rank : Request → Nat
  | .query .. => 3
  | .findLastMessage .. | .sendMessage .. => 2
  | .sanitizeMessage .. => 1
  | .mockFindLastMessage .. | .storeMessage .. => 0

/-- The value has the type that the request returns. -/
def Request.answers : Request → Value → Prop
  | .query _ (.find ..), .message _ | .query _ (.send ..), .status _ => True
  | .findLastMessage .., .message _ | .sendMessage .., .status _ => True
  | .sanitizeMessage .., .bool _ | .storeMessage .., .bool _ => True
  | .mockFindLastMessage .., .string _ => True
  | _, _ => False

variable {below : Request → Prop} {post : Value → Prop}

theorem behaves_remoteTask {build : Build} {target : Service} {op : Request}
    {k : Value → Prog sig} (hop : below op)
    (hk : ∀ v, op.answers v → (k v).Behaves below Request.answers post .settled) :
    (remoteTask build target op k).Behaves below Request.answers post .unsent := by
  cases build with
  | async => exact ⟨rfl, op, rfl, hop, hk⟩
  | sync =>
    intro found
    cases found with
    | true => exact ⟨rfl, op, rfl, hop, hk⟩
    | false => exact ⟨rfl, op, rfl, hop, hk⟩

/-- **The handlers of either build behave.** -/
theorem handler_behaves (build : Build) (op : Request) :
    (handler build op).Behaves (fun op' : Request => op'.rank < op.rank) Request.answers op.answers
      .unsent := by
  cases op with
  | query pid q =>
    cases q with
    | find =>
      refine ⟨rfl, _, rfl, Nat.lt_succ_self _, fun v hv => ?_⟩
      cases v with
      | message resp => exact fun _ => trivial
      | _ => exact hv.elim
    | send =>
      refine ⟨rfl, _, rfl, Nat.lt_succ_self _, fun v hv => ?_⟩
      cases v with
      | status resp => exact fun _ => trivial
      | _ => exact hv.elim
  | findLastMessage =>
    refine behaves_remoteTask (Nat.succ_pos _) fun v hv => ?_
    cases v with
    | string result => exact trivial
    | _ => exact hv.elim
  | sendMessage =>
    refine behaves_remoteTask (Nat.lt_succ_self _) fun v hv => ?_
    cases v with
    | bool res => exact trivial
    | _ => exact hv.elim
  | sanitizeMessage clientId message uid =>
    simp only [handler, SanitizationHandler.sanitizeMessage, Prog.Behaves]
    split
    · exact trivial
    · refine behaves_remoteTask (Nat.lt_succ_self _) fun v hv => ?_
      cases v with
      | bool res => exact trivial
      | _ => exact hv.elim
  | mockFindLastMessage clientId uid =>
    simp only [handler, MockDatabaseHandler.findLastMessage, Prog.Behaves]
    intro w
    split
    · exact fun _ => trivial
    · exact trivial
  | storeMessage => exact fun _ => trivial

/-- The shape of an iteration of the client's loop: what its callback does, it does
without further calls. -/
theorem iteration_shape (pid : Nat) (q : Query) :
    ∃ u op k, Client.iteration pid q = .record u (.start op (.await k)) ∧
      ∀ v, op.answers v →
        (k v).Behaves (fun _ => False) Request.answers (fun _ => True) .settled := by
  cases q with
  | find clientId uid =>
    refine ⟨_, _, _, rfl, fun v hv => ?_⟩
    cases v with
    | message resp => exact fun _ => trivial
    | _ => exact hv.elim
  | send clientId message uid =>
    refine ⟨_, _, _, rfl, fun v hv => ?_⟩
    cases v with
    | status resp => exact fun _ => trivial
    | _ => exact hv.elim

-- ---------------------------------------------------------------------------
-- Queries under way
-- ---------------------------------------------------------------------------

/-- MessageService has answered query `i`, and the reply has not arrived yet. -/
def InFlight (s : Board.State) (pid i : Nat) : Prop :=
  ∃ op op' tid k v, s.calls ⟨⟨pid, i⟩, 0⟩ = some ⟨op, .running tid (.await k), none⟩ ∧
    s.calls ⟨⟨pid, i⟩, 1⟩ = some ⟨op', .returned (.value v), none⟩ ∧
    (k v).Behaves (fun _ => False) Request.answers (fun _ => True) .settled

/-- Iteration `i` is over, and its callback has had a reply. -/
def Returned (s : Board.State) (pid i : Nat) : Prop :=
  ∃ call v, s.calls ⟨⟨pid, i⟩, 0⟩ = some call ∧ call.phase = .returned (.value v)

theorem InFlight.congr {s t : Board.State} {pid i : Nat} (h : InFlight s pid i)
    (hcalls : ∀ d, t.calls ⟨⟨pid, i⟩, d⟩ = s.calls ⟨⟨pid, i⟩, d⟩) : InFlight t pid i := by
  unfold InFlight
  rw [hcalls, hcalls]
  exact h

variable {b : Board} {s : Board.State} {pid i : Nat}

/-- Issuing the next query starts its iteration, and nothing else. -/
theorem issue_root (hreach : b.Reachable s) (hmay : b.deployment.mayIssue s pid = true)
    {q : Query} (hq : b.query? ⟨pid, s.issued pid⟩ = some q) :
    ∃ t, Reaches b.deployment.step s t ∧ t.now = s.now ∧ t.issued pid = s.issued pid + 1 ∧
      t.calls ⟨⟨pid, s.issued pid⟩, 0⟩ =
        some ⟨.query pid q, .running (s.issued pid) (Client.iteration pid q), none⟩ ∧
      Untouched t ⟨⟨pid, s.issued pid⟩, 0⟩ ∧
      ∀ c, c ≠ ⟨⟨pid, s.issued pid⟩, 0⟩ → t.calls c = s.calls c := by
  have hscript : (b.deployment.script pid)[s.issued pid]? = some (.query pid q) := by
    show ((b.queries pid).map (Request.query pid))[s.issued pid]? = _
    rw [List.getElem?_map]
    exact congrArg (Option.map _) hq
  have hothers : ∀ c, c ≠ ⟨⟨pid, s.issued pid⟩, 0⟩ →
      (b.deployment.issueCall s pid (.query pid q)).calls c = s.calls c :=
    fun c hc => Function.update_of_ne hc ..
  refine ⟨_, .single (step_of_steps (.issue hscript hmay)), rfl, Function.update_self ..,
    Function.update_self .., fun d hrequest hdepth => ?_, hothers⟩
  rw [hothers d (by rintro rfl; exact lt_irrefl _ hdepth)]
  exact untouched_reaches hreach le_rfl hrequest

/-- A query that the client may issue can be issued and served up to its reply. -/
theorem issue_and_serve (hreach : b.Reachable s) (hmay : b.deployment.mayIssue s pid = true)
    {q : Query} (hq : b.query? ⟨pid, s.issued pid⟩ = some q) :
    ∃ t, Reaches b.deployment.step s t ∧ t.now = s.now ∧ t.issued pid = s.issued pid + 1 ∧
      InFlight t pid (s.issued pid) ∧
      ∀ c, c.request ≠ ⟨pid, s.issued pid⟩ → t.calls c = s.calls c := by
  obtain ⟨u, op, k, hshape, hk⟩ := iteration_shape pid q
  obtain ⟨s₁, hreach₁, hnow, hissued, hcall₁, huntouched, hothers⟩ := issue_root hreach hmay hq
  rw [hshape] at hcall₁
  obtain ⟨s₂, hreach₂, hwithin₂, hcall₂, hchild₂, hbelow₂⟩ :=
    send_off (D := b.deployment) hcall₁ huntouched
  have hreaches₂ : Reaches b.deployment.step s s₂ := hreach₁.trans hreach₂
  obtain ⟨s₃, v, hreach₃, hwithin₃, hchild₃, hanswer⟩ :=
    serve (handler_behaves b.build) (hreach.trans hreaches₂) hchild₂ hbelow₂
  have hwithin : Within ⟨⟨pid, s.issued pid⟩, 0⟩ s₁ s₃ := hwithin₂.trans hwithin₃.of_child
  refine ⟨s₃, hreaches₂.trans hreach₃, hwithin.now.trans hnow, ?_, ?_, fun c hc => ?_⟩
  · rw [hwithin.issued, hissued]
  · exact ⟨_, _, _, k, v, hwithin₃.caller.trans hcall₂, hchild₃, hk v hanswer⟩
  · rw [hwithin.calls c fun h => absurd h hc]
    exact hothers c fun h => hc (congrArg CallId.request h)

/-- **All queries under way.** A client that does not wait can have its first
`n` queries answered by MessageService in no time, and not one reply taken. -/
theorem all_in_flight (hasync : b.clientSync pid = false) {n : Nat}
    (hn : n ≤ (b.queries pid).length) :
    ∃ s, b.Reachable s ∧ s.now = 0 ∧ s.issued pid = n ∧ ∀ i < n, InFlight s pid i := by
  induction n with
  | zero => exact ⟨_, .refl _, rfl, rfl, nofun⟩
  | succ n ih =>
    obtain ⟨s, hreach, hnow, hissued, hflight⟩ := ih (by omega)
    have hmay : b.deployment.mayIssue s pid = true := by
      unfold Deployment.mayIssue
      rw [hissued]
      cases n with
      | zero => rfl
      | succ m =>
        obtain ⟨_, _, _, _, _, -, hsent, -⟩ := hflight m (Nat.lt_succ_self m)
        show (if b.clientSync pid then _ else _) = true
        rw [hasync, hsent]
        rfl
    obtain ⟨t, hst, hnow', hissued', hlast, hothers⟩ :=
      issue_and_serve hreach hmay (q := (b.queries pid)[n]) (by
        rw [hissued]
        exact List.getElem?_eq_getElem hn)
    rw [hissued] at hissued' hlast hothers
    refine ⟨t, hreach.trans hst, hnow'.trans hnow, hissued', fun i hi => ?_⟩
    rcases Nat.lt_succ_iff_lt_or_eq.mp hi with hlt | rfl
    · refine (hflight i hlt).congr fun d => hothers _ fun h => ?_
      have hindex : i = n := congrArg RequestId.index h
      omega
    · exact hlast

/-- The reply to a query under way can be taken. -/
theorem take_in_flight (hreach : b.Reachable s) (hflight : InFlight s pid i) :
    ∃ t, Reaches b.deployment.step s t ∧ Within ⟨⟨pid, i⟩, 0⟩ s t ∧ Returned t pid i := by
  obtain ⟨op, op', tid, k, v, hcall, hchild, hk⟩ := hflight
  obtain ⟨t, w, hst, hwithin, hcall', -⟩ := returns_of_reply hreach hcall hchild hk
  exact ⟨t, hst, hwithin, _, w, hcall', rfl⟩

/-- **All replies taken**, one after the other. -/
theorem all_returned (hreach : b.Reachable s) {n : Nat} (hflight : ∀ i < n, InFlight s pid i) :
    ∃ t, Reaches b.deployment.step s t ∧ ∀ i < n, Returned t pid i := by
  suffices ∀ m ≤ n, ∃ t, Reaches b.deployment.step s t ∧ (∀ i < m, Returned t pid i) ∧
      ∀ i < n, m ≤ i → InFlight t pid i by
    obtain ⟨t, hst, hreturned, -⟩ := this n le_rfl
    exact ⟨t, hst, hreturned⟩
  intro m hm
  induction m with
  | zero => exact ⟨s, .refl s, nofun, fun i hi _ => hflight i hi⟩
  | succ m ih =>
    obtain ⟨t, hst, hreturned, hrest⟩ := ih (by omega)
    obtain ⟨u, htu, hwithin, hlast⟩ := take_in_flight (hreach.trans hst) (hrest m hm le_rfl)
    have hsame : ∀ i, i ≠ m → ∀ d, u.calls ⟨⟨pid, i⟩, d⟩ = t.calls ⟨⟨pid, i⟩, d⟩ := by
      intro i hi d
      refine hwithin.calls _ fun h => ?_
      exact absurd (congrArg RequestId.index h) hi
    refine ⟨u, hst.trans htu, fun i hi => ?_, fun i hi hmi => ?_⟩
    · rcases Nat.lt_succ_iff_lt_or_eq.mp hi with hlt | rfl
      · obtain ⟨call, v, hcall, hphase⟩ := hreturned i hlt
        exact ⟨call, v, (hsame i (by omega) 0).trans hcall, hphase⟩
      · exact hlast
    · exact (hrest i hi (by omega)).congr (hsame i (by omega))

end MockMessageBoard
