import MockMessageBoard.Board.Handlers
import MockMessageBoard.Lib.Rpc.Simulation

/-!
# MockMessageBoard — the two builds

With `SYNC` a handler looks up the client of its thread, makes one if there is
none, and works after its downstream call; without it the work overlaps the
call. Both perform the same actions that anyone else can see.

* `sim_handler`       — the handlers of the builds differ in silent steps only;
* `builds_equivalent` — so the builds cannot be told apart.
-/

namespace MockMessageBoard

open Rpc State

-- ---------------------------------------------------------------------------
-- Handlers
-- ---------------------------------------------------------------------------

theorem sim_remoteTask {target : Service} {op : Request} {k k' : Value → Prog sig}
    (hk : ∀ v, Sim (k v) (k' v)) :
    Sim (remoteTask .async target op k) (remoteTask .sync target op k') := by
  have hcall : Sim (.start op (.sleep (.await k))) (.start op (.await fun v => .sleep (k' v))) :=
    .start (.sleepLeft (.await fun v => .sleepRight (hk v)))
  refine .findRight fun found => ?_
  cases found with
  | true => exact hcall
  | false => exact .newRight hcall

/-- Neither build of a handler performs an action that the other does not. -/
theorem sim_handler (op : Request) : Sim (handler .async op) (handler .sync op) := by
  cases op with
  | query pid q =>
    cases q with
    | find =>
      refine .record (.start (.await fun v => ?_))
      cases v with
      | message resp => exact .access fun _ => .record .ret
      | _ => exact .throw
    | send =>
      refine .record (.start (.await fun v => ?_))
      cases v with
      | status resp => exact .access fun _ => .record .ret
      | _ => exact .throw
  | findLastMessage =>
    refine .record (sim_remoteTask fun v => ?_)
    cases v with
    | string message => exact .record .ret
    | _ => exact .throw
  | sendMessage =>
    refine .record (sim_remoteTask fun v => ?_)
    cases v with
    | bool res => exact .record .ret
    | _ => exact .throw
  | sanitizeMessage clientId message uid =>
    refine .record ?_
    -- the filtered exit comes before the two builds part
    split
    · exact .ret
    · refine sim_remoteTask fun v => ?_
      cases v with
      | bool res => exact .record .ret
      | _ => exact .throw
  | mockFindLastMessage =>
    refine .record (.sleepLeft (.sleepRight (.access fun w => ?_)))
    split
    · exact .access fun _ => .record .ret
    · exact .record .ret
  | storeMessage =>
    exact .record (.sleepLeft (.sleepRight (.access fun _ => .record .ret)))

-- ---------------------------------------------------------------------------
-- What can be observed
-- ---------------------------------------------------------------------------

/-- The operations on MockDatabase, with the calls they serve. -/
def databaseOps (s : Board.State) : List (CallId × Access × View) :=
  s.history.filterMap fun e =>
    match e.svc, e.act with
    | .mockDatabase, .access a w => some (e.call, a, w)
    | _, _ => none

/-- How the handler of `c` has ended. -/
def response (s : Board.State) (c : CallId) : Option (Outcome sig) :=
  match (s.calls c).map Call.phase with
  | some (.returned o) => some o
  | _ => none

/-- What the caller of `c` was told. -/
def told (s : Board.State) (c : CallId) : Option (Outcome sig) := (s.calls c).bind Call.outcome

/-- The uids that `svc` has given to `add_entry`. -/
def recorded (s : Board.State) (svc : Service) : Multiset UInt64 :=
  ↑(s.history.filterMap fun e =>
    match e.act with
    | .record uid => if e.svc = svc then some uid else none
    | _ => none)

/-- The states show the same requests and calls, the same operations on
MockDatabase in the same order, the same response or exception for each of
them, and the same entries. -/
structure SameObservations (s t : Board.State) : Prop where
  requests : ∀ c, (s.calls c).map Call.op = (t.calls c).map Call.op
  operations : databaseOps s = databaseOps t
  responses : ∀ c, response s c = response t c
  replies : ∀ c, told s c = told t c
  entries : ∀ svc, recorded s svc = recorded t svc

theorem sameObservations_of_alike {s t : Board.State} (h : Alike s t) :
    SameObservations s t := by
  refine ⟨fun c => (h.calls c).op_eq, ?_, fun c => ?_, fun c => (h.calls c).outcome_eq,
    fun svc => ?_⟩
  · rw [databaseOps, databaseOps, h.history]
  · unfold response
    have hcall := h.calls c
    generalize s.calls c = x at hcall ⊢
    generalize t.calls c = y at hcall ⊢
    cases hcall with
    | absent => rfl
    | @present call ph hphase =>
      simp only [Option.map_some]
      generalize call.phase = ph₀ at hphase
      cases hphase <;> rfl
  · rw [recorded, recorded, h.history]

/--
**The builds cannot be told apart.** Whatever the clients send and however they
wait, every run of the ASYNC build is matched by a run of the SYNC build that
shows the same, and the other way round.
-/
theorem builds_equivalent (queries : Nat → List Query) (clientSync : Nat → Bool) :
    (∀ s, (Board.mk .async queries clientSync).Reachable s →
      ∃ t, (Board.mk .sync queries clientSync).Reachable t ∧ SameObservations s t) ∧
    (∀ t, (Board.mk .sync queries clientSync).Reachable t →
      ∃ s, (Board.mk .async queries clientSync).Reachable s ∧ SameObservations t s) := by
  constructor
  · intro s hs
    obtain ⟨t, ht, halike⟩ := alike_reaches sim_handler hs
    exact ⟨t, ht, sameObservations_of_alike halike⟩
  · intro t ht
    obtain ⟨s, hs, halike⟩ := alike_reaches (fun op => (sim_handler op).symm) ht
    exact ⟨s, hs, sameObservations_of_alike halike⟩

end MockMessageBoard
