import MockMessageBoard.Lib.Rpc.Evolution

/-!
# Remote procedure calls — causality

What holds in every reachable state, whatever the scheduler does: each call
has performed a path of its code, a call is there exactly when its caller has
started it, what a caller goes on with is what the callee returned, and a
callee acts only after it was started and never after its reply has been taken.

* `onCourse_reaches`, `started_reaches`, `awaited_reaches`, … — the invariants;
* `ends_of_await` — a reply is the end of a complete path of the callee;
* `after_start`   — whatever happens below a call happens after its start;
* `before_finish` — a call that has returned a value outlives all calls below it.
-/

namespace Rpc

open Transition Deployment State

variable {σ : Signature} [DecidableEq σ.Svc] {D : Deployment σ} {s s' : State σ} {l : Label}

-- ---------------------------------------------------------------------------
-- The invariant
-- ---------------------------------------------------------------------------

/-- What a call has done is a path of its code to the point where it is. -/
def OnCourse (D : Deployment σ) (call : Call σ) (t : List (Act σ)) : Prop :=
  match call.phase with
  | .requested => t = []
  | .running _ p => Path (.running (D.code call.op)) t (.running p)
  | .returned o => Ends (D.code call.op) t o

/-- Every action is one of a call that is there. -/
def Known (D : Deployment σ) (s : State σ) : Prop :=
  ∀ e ∈ s.history, ∃ call, s.calls e.call = some call ∧ e.svc = D.home call.op

def AllOnCourse (D : Deployment σ) (s : State σ) : Prop :=
  ∀ c call, s.calls c = some call → OnCourse D call (s.trail c)

/-- A call is there exactly when its caller has started it. -/
def Started (s : State σ) : Prop :=
  ∀ c op, .start op ∈ s.trail c ↔ ∃ call, s.calls c.child = some call ∧ call.op = op

/-- The requests are those of the scripts. -/
def Scripted (D : Deployment σ) (s : State σ) : Prop :=
  ∀ r call, s.calls ⟨r, 0⟩ = some call → (D.script r.proc)[r.index]? = some call.op

/-- Who is told a value is told what the call has returned. -/
def Replied (s : State σ) : Prop :=
  ∀ c call v, s.calls c = some call → call.outcome = some (.value v) →
    call.phase = .returned (.value v)

/-- A handler goes on with what it was told. -/
def Awaited (s : State σ) : Prop :=
  ∀ c v, .await v ∈ s.trail c →
    ∃ call, s.calls c.child = some call ∧ call.outcome = some (.value v)

/-- The stamps count the actions. -/
def Numbered (s : State σ) : Prop := ∀ (i : Nat) e, s.history[i]? = some e → e.seq = i

/-- The clock does not go back. -/
def Clocked (s : State σ) : Prop :=
  s.history.Pairwise (fun e e' => e.time ≤ e'.time) ∧ ∀ e ∈ s.history, e.time ≤ s.now

/-- A call acts only after its caller has started it. -/
def StartBefore (s : State σ) : Prop :=
  ∀ e ∈ s.history, ∀ e' ∈ s.history, ∀ op, e.act = .start op → e'.call = e.call.child →
    e.seq < e'.seq

/-- A call does not act any more when its caller has gone on with its reply. -/
def BeforeAwait (s : State σ) : Prop :=
  ∀ e ∈ s.history, ∀ e' ∈ s.history, ∀ v, e.act = .await v → e'.call = e.call.child →
    e'.seq < e.seq

/-- A call does not act any more when it has ended. -/
def FinishLast (s : State σ) : Prop :=
  ∀ e ∈ s.history, ∀ e' ∈ s.history, ∀ o, e.act = .finish o → e'.call = e.call →
    e'.seq ≤ e.seq

section Invariants

variable (hreach : Reaches D.step D.init s)

include hreach

theorem fresh_reaches : Fresh s := by
  refine hreach.invariant ?_ ?_
  · exact fun _ _ _ => rfl
  intro t l u _ hfresh hstep p i hi
  have hsteps := step_iff.mp hstep
  have hnone := hfresh p i ((hsteps.issued_le p).trans hi)
  cases hcall : u.calls ⟨⟨p, i⟩, 0⟩ with
  | none => rfl
  | some call =>
    rcases (hsteps.evolves hfresh _).origin hcall with
      ⟨call₀, hcall₀, -⟩ | ⟨d, hd, -⟩ | ⟨q, hq, -, hissued⟩
    · rw [hnone] at hcall₀
      cases hcall₀
    · exact absurd (congrArg CallId.depth hd) (Nat.succ_ne_zero _).symm
    · cases hq
      omega

/-- Steps out of a reachable state evolve each call. -/
theorem evolves_of_reaches (hstep : D.step s l = some s') (c : CallId) : Evolves D s s' c :=
  (step_iff.mp hstep).evolves (fresh_reaches hreach) c

theorem known_reaches : Known D s := by
  refine hreach.invariant ?_ ?_
  · nofun
  intro t l u ht ih hstep e he
  have hold : ∀ e ∈ t.history, ∃ call, u.calls e.call = some call ∧ e.svc = D.home call.op := by
    intro e he
    obtain ⟨call, hcall, hsvc⟩ := ih e he
    obtain ⟨call', hcall', hop⟩ := (evolves_of_reaches ht hstep e.call).persists hcall
    exact ⟨call', hcall', by rw [hop, hsvc]⟩
  cases grows_of_step hstep with
  | same hhistory => exact hold e (hhistory ▸ he)
  | event hcall _ _ hhistory =>
    rw [hhistory, List.mem_append, List.mem_singleton] at he
    rcases he with he | rfl
    · exact hold e he
    · obtain ⟨call', hcall', hop⟩ := (evolves_of_reaches ht hstep _).persists hcall
      exact ⟨call', hcall', by rw [hop]⟩

theorem trail_eq_nil {c : CallId} (hnone : s.calls c = none) : s.trail c = [] := by
  rw [List.eq_nil_iff_forall_not_mem]
  intro a ha
  obtain ⟨e, he, rfl, -⟩ := mem_trail.mp ha
  obtain ⟨call, hcall, -⟩ := known_reaches hreach e he
  rw [hnone] at hcall
  cases hcall

theorem onCourse_reaches : AllOnCourse D s := by
  refine hreach.invariant ?_ ?_
  · nofun
  intro t l u ht ih hstep c call hcall
  cases evolves_of_reaches ht hstep c with
  | same hcalls htrail => exact htrail ▸ ih c call (hcalls ▸ hcall)
  | created call' hnone hcall' _ hphase _ htrail =>
    rw [hcall'] at hcall
    cases hcall
    rw [htrail, trail_eq_nil ht hnone]
    unfold OnCourse
    rcases hphase with hphase | ⟨tid, hphase⟩
    · rw [hphase]
    · rw [hphase]
      exact .here
  | delivered tid hcall₀ hphase hcall' htrail =>
    rw [hcall'] at hcall
    cases hcall
    have hnil := ih c _ hcall₀
    unfold OnCourse at hnil ⊢
    rw [hphase] at hnil
    rw [htrail, hnil]
    exact .here
  | @settled call₀ o hcall₀ _ _ hcall' htrail =>
    rw [hcall'] at hcall
    cases hcall
    exact htrail ▸ ih c call₀ hcall₀
  | @moved call₀ tid p a x hcall₀ hphase hnext hcall' htrail =>
    rw [hcall'] at hcall
    cases hcall
    have hpath := ih c _ hcall₀
    unfold OnCourse at hpath ⊢
    rw [hphase] at hpath
    rw [htrail]
    cases x with
    | running q => exact hpath.tail hnext
    | returned o => exact hpath.tail hnext

theorem started_reaches : Started s := by
  refine hreach.invariant ?_ ?_
  · exact fun c op => ⟨nofun, nofun⟩
  intro t l u ht ih hstep c op
  have hevolves := evolves_of_reaches ht hstep
  constructor
  · intro hmem
    obtain ⟨e, he, rfl, hact⟩ := mem_trail.mp hmem
    have hold : e ∈ t.history → ∃ call, u.calls e.call.child = some call ∧ call.op = op := by
      intro he
      obtain ⟨call, hcall, hop⟩ := (ih e.call op).mp (mem_trail.mpr ⟨e, he, rfl, hact⟩)
      obtain ⟨call', hcall', hop'⟩ := (hevolves _).persists hcall
      exact ⟨call', hcall', hop'.trans hop⟩
    cases grows_of_step hstep with
    | same hhistory => exact hold (hhistory ▸ he)
    | event hcall _ _ hhistory hstart =>
      rw [hhistory, List.mem_append, List.mem_singleton] at he
      rcases he with he | rfl
      · exact hold he
      · exact ⟨_, (hstart op hact).2, rfl⟩
  · rintro ⟨call, hcall, rfl⟩
    rcases (hevolves _).origin hcall with ⟨call₀, hcall₀, hop⟩ | ⟨d, hd, hmem⟩ | ⟨p, hp, -⟩
    · exact (hevolves c).trail_mono ((ih c call.op).mpr ⟨call₀, hcall₀, hop⟩)
    · exact CallId.child_inj.mp hd ▸ hmem
    · exact absurd (congrArg CallId.depth hp) (Nat.succ_ne_zero _)

theorem scripted_reaches : Scripted D s := by
  refine hreach.invariant ?_ ?_
  · nofun
  intro t l u ht ih hstep r call hcall
  rcases (evolves_of_reaches ht hstep _).origin hcall with
    ⟨call₀, hcall₀, hop⟩ | ⟨d, hd, -⟩ | ⟨p, hp, hscript, -⟩
  · exact hop ▸ ih r call₀ hcall₀
  · exact absurd (congrArg CallId.depth hd) (Nat.succ_ne_zero _).symm
  · cases hp
    exact hscript

theorem replied_reaches : Replied s := by
  refine hreach.invariant ?_ ?_
  · nofun
  intro t l u ht ih hstep c call v hcall hv
  cases evolves_of_reaches ht hstep c with
  | same hcalls => exact ih c call v (hcalls ▸ hcall) hv
  | created call' _ hcall' houtcome =>
    rw [hcall'] at hcall
    cases hcall
    rw [houtcome] at hv
    cases hv
  | delivered tid hcall₀ hphase hcall' =>
    rw [hcall'] at hcall
    cases hcall
    have hreturned := ih c _ v hcall₀ hv
    rw [hphase] at hreturned
    cases hreturned
  | settled o hcall₀ _ hreply hcall' =>
    rw [hcall'] at hcall
    cases hcall
    exact hreply v (Option.some.inj hv)
  | moved hcall₀ hphase _ hcall' =>
    rw [hcall'] at hcall
    cases hcall
    have hreturned := ih c _ v hcall₀ hv
    rw [hphase] at hreturned
    cases hreturned

theorem awaited_reaches : Awaited s := by
  refine hreach.invariant ?_ ?_
  · nofun
  intro t l u ht ih hstep c v hmem
  have hevolves := evolves_of_reaches ht hstep
  obtain ⟨e, he, rfl, hact⟩ := mem_trail.mp hmem
  have hold : e ∈ t.history →
      ∃ call, u.calls e.call.child = some call ∧ call.outcome = some (.value v) := by
    intro he
    obtain ⟨call, hcall, hv⟩ := ih e.call v (mem_trail.mpr ⟨e, he, rfl, hact⟩)
    exact (hevolves _).outcome_persists hcall hv
  cases grows_of_step hstep with
  | same hhistory => exact hold (hhistory ▸ he)
  | event hcall _ _ hhistory _ hawait =>
    rw [hhistory, List.mem_append, List.mem_singleton] at he
    rcases he with he | rfl
    · exact hold he
    · obtain ⟨callee, hcallee, hv⟩ := hawait v hact
      exact (hevolves _).outcome_persists hcallee hv

-- ---------------------------------------------------------------------------
-- The order of the actions
-- ---------------------------------------------------------------------------

theorem seq_reaches : Numbered s := by
  refine hreach.invariant ?_ ?_
  · nofun
  intro t l u ht ih hstep i e he
  cases grows_of_step hstep with
  | same hhistory => exact ih i e (hhistory ▸ he)
  | event _ _ _ hhistory =>
    rw [hhistory] at he
    rcases Nat.lt_or_ge i t.history.length with hi | hi
    · exact ih i e (by rwa [List.getElem?_append_left hi] at he)
    · rw [List.getElem?_append_right hi, List.getElem?_singleton] at he
      split at he
      · cases he
        show t.history.length = i
        omega
      · cases he

theorem clock_reaches : Clocked s := by
  refine hreach.invariant ?_ ?_
  · exact ⟨.nil, nofun⟩
  intro t l u ht ih hstep
  obtain ⟨hsorted, hnow⟩ := ih
  have hle := (step_iff.mp hstep).now_le
  cases grows_of_step hstep with
  | same hhistory =>
    refine ⟨hhistory ▸ hsorted, fun e he => ?_⟩
    exact (hnow e (hhistory ▸ he)).trans hle
  | event _ _ _ hhistory =>
    constructor
    · rw [hhistory]
      refine List.pairwise_append.mpr ⟨hsorted, List.pairwise_singleton .., ?_⟩
      intro e he e' he'
      obtain rfl := List.mem_singleton.mp he'
      exact hnow e he
    · intro e he
      rw [hhistory, List.mem_append, List.mem_singleton] at he
      rcases he with he | rfl
      · exact (hnow e he).trans hle
      · exact hle

theorem seq_lt {e : Event σ} (he : e ∈ s.history) : e.seq < s.history.length := by
  obtain ⟨i, hi⟩ := List.mem_iff_getElem?.mp he
  rw [seq_reaches hreach i e hi]
  exact (List.getElem?_eq_some_iff.mp hi).1

/-- What comes first is stamped no later. -/
theorem time_le {e e' : Event σ} (he : e ∈ s.history) (he' : e' ∈ s.history)
    (hseq : e.seq ≤ e'.seq) : e.time ≤ e'.time := by
  obtain ⟨i, hi⟩ := List.mem_iff_getElem?.mp he
  obtain ⟨j, hj⟩ := List.mem_iff_getElem?.mp he'
  rw [seq_reaches hreach i e hi, seq_reaches hreach j e' hj] at hseq
  obtain ⟨hilt, hie⟩ := List.getElem?_eq_some_iff.mp hi
  obtain ⟨hjlt, hje⟩ := List.getElem?_eq_some_iff.mp hj
  rcases hseq.lt_or_eq with hlt | heq
  · have hsorted := List.pairwise_iff_getElem.mp (clock_reaches hreach).1 i j hilt hjlt hlt
    rwa [hie, hje] at hsorted
  · subst heq
    exact (hie.symm.trans hje) ▸ le_rfl

/-- The history is sorted by its stamps. -/
theorem history_sorted : s.history.Pairwise fun e e' => e.seq < e'.seq := by
  rw [List.pairwise_iff_getElem]
  intro i j hi hj hij
  rw [seq_reaches hreach i _ (List.getElem?_eq_getElem hi),
    seq_reaches hreach j _ (List.getElem?_eq_getElem hj)]
  exact hij

/-- What is stamped earlier stands earlier in the history. -/
theorem mem_prefix {pre post : List (Event σ)} {e e' : Event σ}
    (hsplit : s.history = pre ++ e' :: post) (he : e ∈ s.history) (hlt : e.seq < e'.seq) :
    e ∈ pre := by
  have hsorted := hsplit ▸ history_sorted hreach
  obtain ⟨-, hpost, -⟩ := List.pairwise_append.mp hsorted
  rw [hsplit, List.mem_append, List.mem_cons] at he
  rcases he with he | rfl | he
  · exact he
  · exact absurd hlt (lt_irrefl _)
  · exact absurd ((List.pairwise_cons.mp hpost).1 e he) (by omega)

/-- What is stamped below the length of a prefix stands in it. -/
theorem mem_of_seq_lt {pre post : List (Event σ)} {e : Event σ}
    (hsplit : s.history = pre ++ post) (he : e ∈ s.history) (hlt : e.seq < pre.length) :
    e ∈ pre := by
  obtain ⟨i, hi⟩ := List.mem_iff_getElem?.mp he
  rw [seq_reaches hreach i e hi] at hlt
  rw [hsplit, List.getElem?_append_left hlt] at hi
  exact List.mem_of_getElem? hi

theorem startBefore_reaches : StartBefore s := by
  refine hreach.invariant ?_ ?_
  · nofun
  intro t l u ht ih hstep e he e' he' op hact hchild
  cases grows_of_step hstep with
  | same hhistory => exact ih e (hhistory ▸ he) e' (hhistory ▸ he') op hact hchild
  | event hcall _ _ hhistory hstart =>
    rw [hhistory, List.mem_append, List.mem_singleton] at he he'
    rcases he with he | rfl <;> rcases he' with he' | rfl
    · exact ih e he e' he' op hact hchild
    · exact seq_lt ht he
    · -- a call that has just been started has done nothing yet
      obtain ⟨callee, hcallee, -⟩ := known_reaches ht e' he'
      rw [hchild, (hstart op hact).1] at hcallee
      cases hcallee
    · exact absurd hchild (CallId.child_ne _).symm

theorem beforeAwait_reaches : BeforeAwait s := by
  refine hreach.invariant ?_ ?_
  · nofun
  intro t l u ht ih hstep e he e' he' v hact hchild
  cases grows_of_step hstep with
  | same hhistory => exact ih e (hhistory ▸ he) e' (hhistory ▸ he') v hact hchild
  | event hcall hphase _ hhistory =>
    rw [hhistory, List.mem_append, List.mem_singleton] at he he'
    rcases he with he | rfl <;> rcases he' with he' | rfl
    · exact ih e he e' he' v hact hchild
    · -- a call whose reply was taken has returned
      obtain ⟨callee, hcallee, hv⟩ :=
        awaited_reaches ht e.call v (mem_trail.mpr ⟨e, he, rfl, hact⟩)
      have hreturned := replied_reaches ht _ _ v hcallee hv
      rw [← hchild, hcall] at hcallee
      cases hcallee
      rw [hphase] at hreturned
      cases hreturned
    · exact seq_lt ht he'
    · exact absurd hchild (CallId.child_ne _).symm

theorem finishLast_reaches : FinishLast s := by
  refine hreach.invariant ?_ ?_
  · nofun
  intro t l u ht ih hstep e he e' he' o hact hsame
  cases grows_of_step hstep with
  | same hhistory => exact ih e (hhistory ▸ he) e' (hhistory ▸ he') o hact hsame
  | event hcall hphase _ hhistory =>
    rw [hhistory, List.mem_append, List.mem_singleton] at he he'
    rcases he with he | rfl <;> rcases he' with he' | rfl
    · exact ih e he e' he' o hact hsame
    · -- a running call has not ended
      have hcourse := onCourse_reaches ht _ _ hcall
      unfold OnCourse at hcourse
      rw [hphase] at hcourse
      exact absurd (mem_trail.mpr ⟨e, he, hsame.symm, hact⟩) (hcourse.finish_notMem o)
    · exact (seq_lt ht he').le
    · exact le_rfl

-- ---------------------------------------------------------------------------
-- Calls that have ended
-- ---------------------------------------------------------------------------

/-- A call that has returned performed a complete path of its code. -/
theorem ends_of_returned {c : CallId} {call : Call σ} {o : Outcome σ}
    (hcall : s.calls c = some call) (hphase : call.phase = .returned o) :
    Ends (D.code call.op) (s.trail c) o := by
  have hcourse := onCourse_reaches hreach c call hcall
  unfold OnCourse at hcourse
  rwa [hphase] at hcourse

theorem upto_of_call {c : CallId} {call : Call σ} (hcall : s.calls c = some call) :
    Upto (D.code call.op) (s.trail c) := by
  have hcourse := onCourse_reaches hreach c call hcall
  unfold OnCourse at hcourse
  split at hcourse
  · rw [hcourse]
    exact ⟨_, .here⟩
  · exact ⟨_, hcourse⟩
  · exact hcourse.upto

/-- Only calls that have returned have an end in their trail. -/
theorem returned_of_finish {c : CallId} {o : Outcome σ} (hmem : .finish o ∈ s.trail c) :
    ∃ call, s.calls c = some call ∧ call.phase = .returned o := by
  obtain ⟨e, he, rfl, -⟩ := mem_trail.mp hmem
  obtain ⟨call, hcall, -⟩ := known_reaches hreach e he
  have hcourse := onCourse_reaches hreach _ _ hcall
  unfold OnCourse at hcourse
  split at hcourse
  · rw [hcourse] at hmem
    cases hmem
  · exact absurd hmem (hcourse.finish_notMem o)
  · rename_i o' hphase
    obtain ⟨t', ht', hnot⟩ := hcourse.eq_snoc
    rw [ht', List.mem_append, List.mem_singleton] at hmem
    rcases hmem with hmem | hmem
    · exact absurd hmem (hnot o)
    · cases hmem
      exact ⟨call, hcall, hphase⟩

theorem finish_of_returned {c : CallId} {call : Call σ} {o : Outcome σ}
    (hcall : s.calls c = some call) (hphase : call.phase = .returned o) :
    .finish o ∈ s.trail c := by
  obtain ⟨t', ht', -⟩ := (ends_of_returned hreach hcall hphase).eq_snoc
  rw [ht']
  exact List.mem_append_right _ (List.mem_singleton_self _)

/-- A reply that was taken is what a complete path of the callee's code ended
with. -/
theorem ends_of_await {c : CallId} {v : σ.Val} (hmem : .await v ∈ s.trail c) :
    ∃ call, s.calls c.child = some call ∧ call.phase = .returned (.value v) ∧
      Ends (D.code call.op) (s.trail c.child) (.value v) := by
  obtain ⟨call, hcall, hv⟩ := awaited_reaches hreach c v hmem
  have hphase := replied_reaches hreach _ _ v hcall hv
  exact ⟨call, hcall, hphase, ends_of_returned hreach hcall hphase⟩

/-- Nobody goes on with the reply of a call that failed. -/
theorem await_notMem_of_raised {c : CallId}
    (hraised : (s.calls c.child).bind Call.outcome = some .raised) (v : σ.Val) :
    .await v ∉ s.trail c := by
  intro hmem
  obtain ⟨call, hcall, hv⟩ := awaited_reaches hreach c v hmem
  rw [hcall, Option.bind_some, hv] at hraised
  cases hraised

-- ---------------------------------------------------------------------------
-- Chains of calls
-- ---------------------------------------------------------------------------

/-- Above each call stands the chain of calls that led to it. -/
theorem started_of_below {r : RequestId} {d k : Nat} {call : Call σ}
    (hcall : s.calls ⟨r, d + 1 + k⟩ = some call) :
    ∃ op, .start op ∈ s.trail ⟨r, d⟩ := by
  induction k generalizing call with
  | zero => exact ⟨call.op, (started_reaches hreach ⟨r, d⟩ call.op).mpr ⟨call, hcall, rfl⟩⟩
  | succ k ih =>
    have hstart := (started_reaches hreach ⟨r, d + 1 + k⟩ call.op).mpr ⟨call, hcall, rfl⟩
    obtain ⟨e, he, hec, -⟩ := mem_trail.mp hstart
    obtain ⟨call', hcall', -⟩ := known_reaches hreach e he
    exact ih (hec ▸ hcall')

/-- Before a call acts its caller has started it. -/
theorem start_before {c : CallId} {e' : Event σ} (he' : e' ∈ s.history)
    (hchild : e'.call = c.child) :
    ∃ e ∈ s.history, e.call = c ∧ (∃ op, e.act = .start op) ∧ e.seq < e'.seq := by
  obtain ⟨call, hcall, -⟩ := known_reaches hreach e' he'
  obtain ⟨e, he, hec, hact⟩ := mem_trail.mp
    ((started_reaches hreach c call.op).mpr ⟨call, hchild ▸ hcall, rfl⟩)
  exact ⟨e, he, hec, ⟨_, hact⟩, startBefore_reaches hreach e he e' he' _ hact (hec ▸ hchild)⟩

/-- Whatever happens below a call happens after the call has started it. -/
theorem after_start {c : CallId} {e' : Event σ} (he' : e' ∈ s.history)
    (hrequest : e'.call.request = c.request) (hdepth : c.depth < e'.call.depth) :
    ∃ e ∈ s.history, e.call = c ∧ (∃ op, e.act = .start op) ∧ e.seq < e'.seq := by
  obtain ⟨k, hk⟩ := Nat.exists_eq_add_of_lt hdepth
  induction k generalizing e' with
  | zero =>
    refine start_before hreach he' ?_
    rw [CallId.child, ← hrequest, ← hk]
  | succ k ih =>
    let parent : CallId := ⟨c.request, c.depth + k + 1⟩
    have hchild : e'.call = parent.child := by
      rw [CallId.child, ← hrequest]
      show e'.call = ⟨e'.call.request, c.depth + k + 1 + 1⟩
      rw [← Nat.add_assoc] at hk
      rw [← hk]
    obtain ⟨e₁, he₁, hec₁, -, hlt⟩ := start_before hreach he' hchild
    obtain ⟨e, he, hec, hact, hlt'⟩ :=
      ih he₁ (by rw [hec₁]) (by rw [hec₁]; show _ < c.depth + k + 1; omega) (by rw [hec₁])
    exact ⟨e, he, hec, hact, hlt'.trans hlt⟩

/-- No program returns a value while the call it has started may be running. -/
def Joins (p : Prog σ) : Prop :=
  ∀ t v op, Ends p t (.value v) → .start op ∈ t → ∃ w, .await w ∈ t

/-- A call that has returned a value after starting another one has taken the
reply of that one. -/
theorem joined (hjoins : ∀ op, Joins (D.code op)) {e : Event σ} {v : σ.Val} {op : σ.Op}
    (he : e ∈ s.history) (hact : e.act = .finish (.value v))
    (hstart : .start op ∈ s.trail e.call) :
    ∃ e₁ ∈ s.history, ∃ e₂ ∈ s.history, ∃ w, e₁.call = e.call ∧ e₁.act = .await w ∧
      e₁.seq ≤ e.seq ∧ e₂.call = e.call.child ∧ e₂.act = .finish (.value w) := by
  obtain ⟨call, hcall, hphase⟩ :=
    returned_of_finish hreach (mem_trail.mpr ⟨e, he, rfl, hact⟩)
  obtain ⟨w, hawait⟩ :=
    hjoins _ _ v op (ends_of_returned hreach hcall hphase) hstart
  obtain ⟨callee, hcallee, hreturned, -⟩ := ends_of_await hreach hawait
  obtain ⟨e₁, he₁, hec₁, hact₁⟩ := mem_trail.mp hawait
  obtain ⟨e₂, he₂, hec₂, hact₂⟩ := mem_trail.mp (finish_of_returned hreach hcallee hreturned)
  exact ⟨e₁, he₁, e₂, he₂, w, hec₁, hact₁,
    finishLast_reaches hreach e he e₁ he₁ _ hact hec₁, hec₂, hact₂⟩

/-- **A call that has returned a value outlives everything below it.** -/
theorem before_finish (hjoins : ∀ op, Joins (D.code op)) {e e' : Event σ} {v : σ.Val}
    (he : e ∈ s.history) (he' : e' ∈ s.history) (hact : e.act = .finish (.value v))
    (hrequest : e'.call.request = e.call.request) (hdepth : e.call.depth < e'.call.depth) :
    ∃ e₁ ∈ s.history, e₁.call = e.call ∧ (∃ w, e₁.act = .await w) ∧
      e'.seq < e₁.seq ∧ e₁.seq ≤ e.seq := by
  obtain ⟨k, hk⟩ := Nat.exists_eq_add_of_lt hdepth
  induction k generalizing e v with
  | zero =>
    have hchild : e'.call = e.call.child := by
      rw [CallId.child, ← hrequest, ← hk]
    obtain ⟨call, hcall, -⟩ := known_reaches hreach e' he'
    have hstart := (started_reaches hreach e.call call.op).mpr ⟨call, hchild ▸ hcall, rfl⟩
    obtain ⟨e₁, he₁, -, -, w, hec₁, hact₁, hle, -⟩ := joined hreach hjoins he hact hstart
    refine ⟨e₁, he₁, hec₁, ⟨w, hact₁⟩, ?_, hle⟩
    exact beforeAwait_reaches hreach e₁ he₁ e' he' w hact₁ (hec₁ ▸ hchild)
  | succ k ih =>
    obtain ⟨call, hcall, -⟩ := known_reaches hreach e' he'
    have hid : e'.call = ⟨e.call.request, e.call.depth + 1 + (k + 1)⟩ := by
      rw [← hrequest, show e.call.depth + 1 + (k + 1) = e'.call.depth by omega]
    obtain ⟨op, hstart⟩ := started_of_below hreach (hid ▸ hcall)
    obtain ⟨e₁, he₁, e₂, he₂, w, hec₁, hact₁, hle, hec₂, hact₂⟩ :=
      joined hreach hjoins he hact hstart
    have hdepth₂ : e₂.call.depth = e.call.depth + 1 := by rw [hec₂, CallId.child_depth]
    obtain ⟨e₃, he₃, hec₃, -, hlt, hle'⟩ :=
      ih he₂ hact₂ (by rw [hec₂]; exact hrequest) (by omega) (by omega)
    have hlt' := beforeAwait_reaches hreach e₁ he₁ e₂ he₂ w hact₁ (by rw [hec₁, hec₂])
    exact ⟨e₁, he₁, hec₁, ⟨w, hact₁⟩, by omega, hle⟩

end Invariants

end Rpc
