import MockMessageBoard.Lib.Rpc.Program
import MockMessageBoard.Lib.Transition

/-!
# Remote procedure calls — the runtime

Processes issue requests; the handler of a request may call another service,
whose handler may call a third one, and so on down the chain. Requests and
replies are in flight until the scheduler delivers them, each at most once and
in any order. A service runs any number of handlers at a time, each on a thread
of its own that is busy until the handler is gone. At any moment before a reply
arrives the caller can be told that the call failed, whatever becomes of the
request.

One clock is common to all processes. Every observable action is appended to
`history`, stamped with the clock and with the number of actions before it.

* `Steps`     — what a step can do, one constructor for each;
* `step_iff`  — `step` does exactly that.
-/

namespace Rpc

/-- The request number `index` of process `proc`. -/
structure RequestId where
  proc : Nat
  index : Nat
  deriving DecidableEq, Repr

/-- The call that serves `request`, `depth` calls away from the process that
issued it. -/
structure CallId where
  request : RequestId
  depth : Nat
  deriving DecidableEq, Repr

/-- The call the handler of `c` makes. -/
def CallId.child (c : CallId) : CallId := { c with depth := c.depth + 1 }

@[simp] theorem CallId.child_request (c : CallId) : c.child.request = c.request := rfl

@[simp] theorem CallId.child_depth (c : CallId) : c.child.depth = c.depth + 1 := rfl

theorem CallId.child_inj {c c' : CallId} : c.child = c'.child ↔ c = c' := by
  constructor
  · intro h
    obtain ⟨r, d⟩ := c
    obtain ⟨r', d'⟩ := c'
    simpa [CallId.child] using h
  · rintro rfl
    rfl

theorem CallId.child_ne (c : CallId) : c.child ≠ c := by
  intro h
  have hdepth := congrArg CallId.depth h
  rw [CallId.child_depth] at hdepth
  omega

variable {σ : Signature}

/-- Where a call is on the side of the service. -/
inductive Phase (σ : Signature) where
  | requested
  | running (tid : Nat) (p : Prog σ)
  | returned (o : Outcome σ)

/-- A call: `outcome` is what its caller has been told, if anything. -/
structure Call (σ : Signature) where
  op : σ.Op
  phase : Phase σ
  outcome : Option (Outcome σ)

/-- The call has returned a value. -/
def Call.answered (call : Call σ) : Bool :=
  match call.phase with
  | .returned (.value _) => true
  | _ => false

/-- The call has ended with an exception. -/
def Call.raised (call : Call σ) : Bool :=
  match call.phase with
  | .returned .raised => true
  | _ => false

theorem Call.raised_iff {call : Call σ} : call.raised = true ↔ call.phase = .returned .raised := by
  unfold Call.raised
  split
  · rename_i h
    exact iff_of_true rfl h
  · rename_i h
    exact iff_of_false Bool.false_ne_true h

/-- An observable action of the handler of `call`, in a process of `svc`. -/
structure Event (σ : Signature) where
  call : CallId
  svc : σ.Svc
  seq : Nat
  time : Nat
  act : Act σ

structure State (σ : Signature) where
  now : Nat
  /-- the number of requests each process has issued -/
  issued : Nat → Nat
  calls : CallId → Option (Call σ)
  /-- the threads that run a handler -/
  busy : σ.Svc → Nat → Bool
  /-- the services for which a thread has a client of its own -/
  clients : σ.Svc → Nat → σ.Svc → Bool
  store : σ.Store
  history : List (Event σ)

/-- The code and the workload of a system. -/
structure Deployment (σ : Signature) where
  code : σ.Op → Prog σ
  /-- the service that serves a request -/
  home : σ.Op → σ.Svc
  exec : σ.Acc → σ.Store → σ.Store × σ.View
  /-- the requests of each process, in the order in which it issues them -/
  script : Nat → List σ.Op
  /-- the processes that wait for each reply before they issue the next request -/
  sequential : Nat → Bool
  store₀ : σ.Store

namespace State

/-- The handler of `c` performs `a`. -/
def emit (s : State σ) (c : CallId) (svc : σ.Svc) (a : Act σ) : State σ :=
  { s with history := s.history ++ [⟨c, svc, s.history.length, s.now, a⟩] }

def setCall (s : State σ) (c : CallId) (call : Call σ) : State σ :=
  { s with calls := Function.update s.calls c (some call) }

/-- The handler of `c` goes on with `p`. -/
def resume (s : State σ) (c : CallId) (call : Call σ) (tid : Nat) (p : Prog σ) : State σ :=
  s.setCall c { call with phase := .running tid p }

/-- The caller of `c` is told that the call ended with `o`. -/
def settle (s : State σ) (c : CallId) (call : Call σ) (o : Outcome σ) : State σ :=
  s.setCall c { call with outcome := some o }

variable [DecidableEq σ.Svc]

def setBusy (s : State σ) (svc : σ.Svc) (tid : Nat) (b : Bool) : State σ :=
  { s with busy := fun svc' tid' => if svc' = svc ∧ tid' = tid then b else s.busy svc' tid' }

def addClient (s : State σ) (svc : σ.Svc) (tid : Nat) (target : σ.Svc) : State σ :=
  { s with clients := fun svc' tid' target' =>
      if svc' = svc ∧ tid' = tid ∧ target' = target then true else s.clients svc' tid' target' }

end State

/-- What the scheduler does next. -/
inductive Label where
  /-- time passes -/
  | tick
  /-- a process issues its next request -/
  | issue (p : Nat)
  /-- a request arrives, and thread `tid` takes it -/
  | deliver (c : CallId) (tid : Nat)
  /-- a handler performs its next action -/
  | run (c : CallId)
  /-- the reply to the call that the handler of `c` has started arrives -/
  | reply (c : CallId)
  /-- that call fails -/
  | fail (c : CallId)

namespace Deployment

variable [DecidableEq σ.Svc]

/-- The state before any request. -/
def init (D : Deployment σ) : State σ where
  now := 0
  issued := fun _ => 0
  calls := fun _ => none
  busy := fun _ _ => false
  clients := fun _ _ _ => false
  store := D.store₀
  history := []

/-- Process `p` has done with its last request what it does before the next
one: a sequential process has its reply, any other has sent it. -/
def mayIssue (D : Deployment σ) (s : State σ) (p : Nat) : Bool :=
  match s.issued p with
  | 0 => true
  | i + 1 =>
    if D.sequential p then (s.calls ⟨⟨p, i⟩, 0⟩).any Call.answered
    else (s.calls ⟨⟨p, i⟩, 1⟩).isSome

/-- The handler of `c` starts on thread `tid`. -/
def spawn (D : Deployment σ) (s : State σ) (c : CallId) (call : Call σ) (tid : Nat) : State σ :=
  (s.resume c call tid (D.code call.op)).setBusy (D.home call.op) tid true

/-- The handler of `c` ends with `o`. -/
def leave (D : Deployment σ) (s : State σ) (c : CallId) (call : Call σ) (tid : Nat)
    (o : Outcome σ) : State σ :=
  ((s.setCall c { call with phase := .returned o }).setBusy (D.home call.op) tid false).emit
    c (D.home call.op) (.finish o)

/-- Process `p` issues `op`. Its side of the request runs on a thread of its
own as well. -/
def issueCall (D : Deployment σ) (s : State σ) (p : Nat) (op : σ.Op) : State σ :=
  let s' := D.spawn s ⟨⟨p, s.issued p⟩, 0⟩ ⟨op, .requested, none⟩ (s.issued p)
  { s' with issued := Function.update s.issued p (s.issued p + 1) }

/-- The next action of a handler that is about to perform the program. -/
def runCall (D : Deployment σ) (s : State σ) (c : CallId) (call : Call σ) (tid : Nat) :
    Prog σ → Option (State σ)
  | .record n k => some ((s.resume c call tid k).emit c (D.home call.op) (.record n))
  | .findClient target k =>
    some (s.resume c call tid (k (s.clients (D.home call.op) tid target)))
  | .newClient target k => some ((s.resume c call tid k).addClient (D.home call.op) tid target)
  | .start op k =>
    match s.calls c.child with
    | none =>
      some (((s.resume c call tid k).setCall c.child ⟨op, .requested, none⟩).emit
        c (D.home call.op) (.start op))
    | some _ => none
  | .sleep k => some (s.resume c call tid k)
  | .await k =>
    match (s.calls c.child).bind Call.outcome with
    | some (.value v) => some ((s.resume c call tid (k v)).emit c (D.home call.op) (.await v))
    | some .raised => some (D.leave s c call tid .raised)
    | none => none
  | .access a k =>
    let (store, w) := D.exec a s.store
    some { (s.resume c call tid (k w)).emit c (D.home call.op) (.access a w) with store := store }
  | .ret v => some (D.leave s c call tid (.value v))
  | .throw => some (D.leave s c call tid .raised)

def step (D : Deployment σ) (s : State σ) : Label → Option (State σ)
  | .tick => some { s with now := s.now + 1 }
  | .issue p =>
    match (D.script p)[s.issued p]?, D.mayIssue s p with
    | some op, true => some (D.issueCall s p op)
    | _, _ => none
  | .deliver c tid =>
    match s.calls c with
    | some call =>
      match call.phase, s.busy (D.home call.op) tid with
      | .requested, false => some (D.spawn s c call tid)
      | _, _ => none
    | none => none
  | .run c =>
    match s.calls c with
    | some call =>
      match call.phase with
      | .running tid p => D.runCall s c call tid p
      | _ => none
    | none => none
  | .reply c =>
    match s.calls c.child with
    | some call =>
      match call.phase, call.outcome with
      | .returned o, none => some (s.settle c.child call o)
      | _, _ => none
    | none => none
  | .fail c =>
    match s.calls c.child with
    | some call =>
      match call.outcome with
      | none => some (s.settle c.child call .raised)
      | some _ => none
    | none => none

end Deployment

open Transition Deployment State

variable [DecidableEq σ.Svc] {D : Deployment σ}

-- ---------------------------------------------------------------------------
-- What a step can do
-- ---------------------------------------------------------------------------

/-- The moves of a handler that is about to perform the program. -/
inductive Moves (D : Deployment σ) (s : State σ) (c : CallId) (call : Call σ) (tid : Nat) :
    Prog σ → State σ → Prop
  | record {n k} :
      Moves D s c call tid (.record n k)
        ((s.resume c call tid k).emit c (D.home call.op) (.record n))
  | findClient {target k} :
      Moves D s c call tid (.findClient target k)
        (s.resume c call tid (k (s.clients (D.home call.op) tid target)))
  | newClient {target k} :
      Moves D s c call tid (.newClient target k)
        ((s.resume c call tid k).addClient (D.home call.op) tid target)
  | start {op k} (hfree : s.calls c.child = none) :
      Moves D s c call tid (.start op k)
        (((s.resume c call tid k).setCall c.child ⟨op, .requested, none⟩).emit
          c (D.home call.op) (.start op))
  | sleep {k} : Moves D s c call tid (.sleep k) (s.resume c call tid k)
  | await {k v} (hreply : (s.calls c.child).bind Call.outcome = some (.value v)) :
      Moves D s c call tid (.await k)
        ((s.resume c call tid (k v)).emit c (D.home call.op) (.await v))
  | abort {k} (hfailed : (s.calls c.child).bind Call.outcome = some .raised) :
      Moves D s c call tid (.await k) (D.leave s c call tid .raised)
  | access {a k store w} (hexec : D.exec a s.store = (store, w)) :
      Moves D s c call tid (.access a k)
        { (s.resume c call tid (k w)).emit c (D.home call.op) (.access a w) with store := store }
  | ret {v} : Moves D s c call tid (.ret v) (D.leave s c call tid (.value v))
  | throw : Moves D s c call tid .throw (D.leave s c call tid .raised)

/-- The steps of the system. -/
inductive Steps (D : Deployment σ) (s : State σ) : Label → State σ → Prop
  | tick : Steps D s .tick { s with now := s.now + 1 }
  | issue {p op} (hop : (D.script p)[s.issued p]? = some op) (hmay : D.mayIssue s p = true) :
      Steps D s (.issue p) (D.issueCall s p op)
  | deliver {c call tid} (hcall : s.calls c = some call) (hphase : call.phase = .requested)
      (hidle : s.busy (D.home call.op) tid = false) :
      Steps D s (.deliver c tid) (D.spawn s c call tid)
  | run {c call tid p s'} (hcall : s.calls c = some call) (hphase : call.phase = .running tid p)
      (hmove : Moves D s c call tid p s') : Steps D s (.run c) s'
  | reply {c call o} (hcall : s.calls c.child = some call) (hphase : call.phase = .returned o)
      (hnone : call.outcome = none) : Steps D s (.reply c) (s.settle c.child call o)
  | fail {c call} (hcall : s.calls c.child = some call) (hnone : call.outcome = none) :
      Steps D s (.fail c) (s.settle c.child call .raised)

theorem runCall_iff {s s' : State σ} {c : CallId} {call : Call σ} {tid : Nat} {p : Prog σ} :
    D.runCall s c call tid p = some s' ↔ Moves D s c call tid p s' := by
  constructor
  · intro h
    cases p with
    | record n k => cases h; exact .record
    | findClient target k => cases h; exact .findClient
    | newClient target k => cases h; exact .newClient
    | sleep k => cases h; exact .sleep
    | access a k => cases h; exact .access rfl
    | ret v => cases h; exact .ret
    | throw => cases h; exact .throw
    | start op k =>
      simp only [runCall] at h
      split at h
      · cases h; exact .start ‹_›
      · cases h
    | await k =>
      simp only [runCall] at h
      split at h
      · cases h; exact .await ‹_›
      · cases h; exact .abort ‹_›
      · cases h
  · intro h
    cases h with
    | record | findClient | newClient | sleep | ret | throw => rfl
    | start hfree => simp only [runCall, hfree]
    | await hreply => simp only [runCall, hreply]
    | abort hfailed => simp only [runCall, hfailed]
    | access hexec => simp only [runCall, hexec]

/-- **`step` has exactly the steps of `Steps`.** -/
theorem step_iff {s s' : State σ} {l : Label} : D.step s l = some s' ↔ Steps D s l s' := by
  constructor
  · intro h
    cases l with
    | tick => cases h; exact .tick
    | issue p =>
      simp only [step] at h
      split at h
      · cases h; exact .issue ‹_› ‹_›
      · cases h
    | deliver c tid =>
      simp only [step] at h
      split at h
      · split at h
        · cases h; exact .deliver ‹_› ‹_› ‹_›
        · cases h
      · cases h
    | run c =>
      simp only [step] at h
      split at h
      · split at h
        · exact .run ‹_› ‹_› (runCall_iff.mp h)
        · cases h
      · cases h
    | reply c =>
      simp only [step] at h
      split at h
      · split at h
        · cases h; exact .reply ‹_› ‹_› ‹_›
        · cases h
      · cases h
    | fail c =>
      simp only [step] at h
      split at h
      · split at h
        · cases h; exact .fail ‹_› ‹_›
        · cases h
      · cases h
  · intro h
    cases h with
    | tick => rfl
    | issue hop hmay => simp only [step, hop, hmay]
    | deliver hcall hphase hidle => simp only [step, hcall, hphase, hidle]
    | run hcall hphase hmove =>
      simp only [step, hcall, hphase]
      exact runCall_iff.mpr hmove
    | reply hcall hphase hnone => simp only [step, hcall, hphase, hnone]
    | fail hcall hnone => simp only [step, hcall, hnone]

theorem step_of_steps {s s' : State σ} {l : Label} (h : Steps D s l s') : D.step s l = some s' :=
  step_iff.mpr h

end Rpc
