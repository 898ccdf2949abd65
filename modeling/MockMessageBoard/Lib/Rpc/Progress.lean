import MockMessageBoard.Lib.Rpc.Causality

/-!
# Remote procedure calls — progress

A request can be served whatever else is going on: a scheduler that runs nothing
but its calls brings it to its reply, without a failure and without touching
any other request. This needs handlers that make at most one call of their own,
to handlers further down, and that return a value when that call does.

* `idle_reaches`  — a service always has an idle thread;
* `complete`      — a handler can be run to its end, if what it calls can be served;
* `serve`         — so every request that nobody has worked on can be served;
* `returns_of_reply` — a handler that waits can be run to its end from the reply.
-/

namespace Rpc

open Transition Deployment State

variable {σ : Signature}

-- ---------------------------------------------------------------------------
-- Well-behaved handlers
-- ---------------------------------------------------------------------------

/-- How far a handler has got with the call it makes. -/
inductive Errand (σ : Signature) where
  | unsent
  | sent (op : σ.Op)
  | settled

/-- From `p` on the handler makes at most one call. It may wait for it if the
operation is one `below`, and when the call returns one of its `answers`, the
handler returns a value with `post`. -/
def Prog.Behaves (below : σ.Op → Prop) (answers : σ.Op → σ.Val → Prop) (post : σ.Val → Prop) :
    Prog σ → Errand σ → Prop
  | .record _ k, x => k.Behaves below answers post x
  | .findClient _ k, x => ∀ found, (k found).Behaves below answers post x
  | .newClient _ k, x => k.Behaves below answers post x
  | .start op k, x => x = .unsent ∧ k.Behaves below answers post (.sent op)
  | .sleep k, x => k.Behaves below answers post x
  | .await k, x =>
    ∃ op, x = .sent op ∧ below op ∧
      ∀ v, answers op v → (k v).Behaves below answers post .settled
  | .access _ k, x => ∀ w, (k w).Behaves below answers post x
  | .ret v, _ => post v
  | .throw, _ => False

-- ---------------------------------------------------------------------------
-- What a step may touch
-- ---------------------------------------------------------------------------

/-- From `s` to `s'` nothing has happened but to `c` and the calls below it. -/
structure Within (c : CallId) (s s' : State σ) : Prop where
  now : s'.now = s.now
  issued : s'.issued = s.issued
  calls : ∀ d, (d.request = c.request → d.depth < c.depth) → s'.calls d = s.calls d

namespace Within

variable {c : CallId} {s t u : State σ}

theorem refl (c : CallId) (s : State σ) : Within c s s := ⟨rfl, rfl, fun _ _ => rfl⟩

theorem trans (h : Within c s t) (h' : Within c t u) : Within c s u where
  now := h'.now.trans h.now
  issued := h'.issued.trans h.issued
  calls d hd := (h'.calls d hd).trans (h.calls d hd)

/-- What happens below the callee happens below the caller. -/
theorem of_child (h : Within c.child s t) : Within c s t where
  now := h.now
  issued := h.issued
  calls d hd := h.calls d fun hrequest => (hd hrequest).trans (Nat.lt_succ_self _)

/-- Only `c` has changed. -/
theorem of_update {call : Call σ} (hnow : t.now = s.now) (hissued : t.issued = s.issued)
    (hcalls : t.calls = Function.update s.calls c (some call)) : Within c s t where
  now := hnow
  issued := hissued
  calls d hd := by
    have hne : d ≠ c := by
      rintro rfl
      exact lt_irrefl _ (hd rfl)
    rw [hcalls, Function.update_of_ne hne]

/-- What happens below the callee leaves the caller alone. -/
theorem caller (h : Within c.child s t) : t.calls c = s.calls c :=
  h.calls c fun _ => Nat.lt_succ_self _

end Within

/-- Nothing below `c` is there yet. -/
def Untouched (s : State σ) (c : CallId) : Prop :=
  ∀ d, d.request = c.request → c.depth < d.depth → s.calls d = none

/-- The call that the handler of `c` makes stands at `x`. -/
def ErrandAt (s : State σ) (c : CallId) : Errand σ → Prop
  | .unsent => Untouched s c
  | .sent op => s.calls c.child = some ⟨op, .requested, none⟩ ∧ Untouched s c.child
  | .settled => True

/-- A step of the handler of `c` alone does not change what is below. -/
theorem ErrandAt.of_update {s t : State σ} {c : CallId} {call : Call σ} {x : Errand σ}
    (h : ErrandAt s c x) (hcalls : t.calls = Function.update s.calls c (some call)) :
    ErrandAt t c x := by
  have hbelow : ∀ d, c.depth < d.depth → t.calls d = s.calls d := by
    intro d hd
    have hne : d ≠ c := by
      rintro rfl
      exact lt_irrefl _ hd
    rw [hcalls, Function.update_of_ne hne]
  cases x with
  | unsent => exact fun d hrequest hd => (hbelow d hd).trans (h d hrequest hd)
  | sent op =>
    have hchild : c.depth < c.child.depth := Nat.lt_succ_self _
    refine ⟨(hbelow _ hchild).trans h.1, fun d hrequest hd => ?_⟩
    exact (hbelow d (hchild.trans hd)).trans (h.2 d hrequest hd)
  | settled => trivial

variable [DecidableEq σ.Svc] {D : Deployment σ} {s t : State σ}

-- ---------------------------------------------------------------------------
-- Idle threads
-- ---------------------------------------------------------------------------

/-- Only finitely many threads are busy. -/
def BoundedThreads (s : State σ) : Prop := ∃ n, ∀ svc tid, n ≤ tid → s.busy svc tid = false

theorem boundedThreads_reaches (hreach : Reaches D.step D.init s) : BoundedThreads s := by
  refine hreach.invariant ⟨0, fun _ _ _ => rfl⟩ ?_
  rintro t l u - ⟨n, hn⟩ hstep
  have hset : ∀ svc₀ tid₀ b, ∃ m, ∀ svc tid, m ≤ tid →
      (t.setBusy svc₀ tid₀ b).busy svc tid = false := by
    intro svc₀ tid₀ b
    refine ⟨max n (tid₀ + 1), fun svc tid htid => ?_⟩
    show (if svc = svc₀ ∧ tid = tid₀ then b else t.busy svc tid) = false
    rw [if_neg (by omega), hn svc tid (by omega)]
  cases step_iff.mp hstep with
  | tick | reply | fail => exact ⟨n, hn⟩
  | issue | deliver => exact hset _ _ _
  | run hcall hphase hmove =>
    cases hmove with
    | record | findClient | newClient | start | sleep | await | access => exact ⟨n, hn⟩
    | abort | ret | throw => exact hset _ _ _

/-- A service always has an idle thread. -/
theorem idle_reaches (hreach : Reaches D.step D.init s) (svc : σ.Svc) :
    ∃ tid, s.busy svc tid = false := by
  obtain ⟨n, hn⟩ := boundedThreads_reaches hreach
  exact ⟨n, hn svc n le_rfl⟩

/-- Of a request that was not issued yet there is nothing. -/
theorem untouched_reaches (hreach : Reaches D.step D.init s) {p i : Nat} (hi : s.issued p ≤ i)
    {c : CallId} (hrequest : c.request = ⟨p, i⟩) : s.calls c = none := by
  obtain ⟨r, d⟩ := c
  obtain rfl : r = ⟨p, i⟩ := hrequest
  have hroot := fresh_reaches hreach p i hi
  cases d with
  | zero => exact hroot
  | succ d =>
    cases hcall : s.calls ⟨⟨p, i⟩, d + 1⟩ with
    | none => rfl
    | some call =>
      obtain ⟨op, hstart⟩ :=
        started_of_below hreach (d := 0) (k := d) (by rwa [Nat.add_comm] at hcall)
      rw [trail_eq_nil hreach hroot] at hstart
      cases hstart

-- ---------------------------------------------------------------------------
-- Running a handler to its end
-- ---------------------------------------------------------------------------

/-- From `s` the call `c` of `op` can be brought to return a value with `post`,
and nothing else happens on the way. -/
def Finishes (D : Deployment σ) (c : CallId) (op : σ.Op) (outcome : Option (Outcome σ))
    (post : σ.Val → Prop) (s : State σ) : Prop :=
  ∃ s' v, Reaches D.step s s' ∧ Within c s s' ∧
    s'.calls c = some ⟨op, .returned (.value v), outcome⟩ ∧ post v

variable {c : CallId} {op : σ.Op} {outcome : Option (Outcome σ)} {post : σ.Val → Prop}

theorem Finishes.of_reaches (h : Finishes D c op outcome post t) (hst : Reaches D.step s t)
    (hwithin : Within c s t) : Finishes D c op outcome post s := by
  obtain ⟨s', v, hreach, hwithin', hcall, hpost⟩ := h
  exact ⟨s', v, hst.trans hreach, hwithin.trans hwithin', hcall, hpost⟩

/-- A reply that is there can be delivered and taken. -/
theorem take_reply {tid : Nat} {k : σ.Val → Prog σ} {op' : σ.Op} {v : σ.Val}
    (hcall : s.calls c = some ⟨op, .running tid (.await k), outcome⟩)
    (hchild : s.calls c.child = some ⟨op', .returned (.value v), none⟩) :
    ∃ t, Reaches D.step s t ∧ Within c s t ∧
      t.calls c = some ⟨op, .running tid (k v), outcome⟩ := by
  have hreply := step_of_steps (D := D) (.reply hchild rfl rfl)
  set t := s.settle c.child ⟨op', .returned (.value v), none⟩ (.value v) with ht
  have hcall' : t.calls c = some ⟨op, .running tid (.await k), outcome⟩ := by
    rw [ht, settle, setCall_calls, Function.update_of_ne c.child_ne.symm]
    exact hcall
  have htold : (t.calls c.child).bind Call.outcome = some (.value v) := by
    rw [ht, settle, setCall_calls, Function.update_self]
    rfl
  have hawait := step_of_steps (D := D) (.run hcall' rfl (.await htold))
  refine ⟨_, (Reaches.single hreply).tail hawait, ?_, Function.update_self ..⟩
  have hsettle : Within c s t := .of_child (.of_update rfl rfl rfl)
  exact hsettle.trans (.of_update rfl rfl rfl)

/-- A call can be made when nothing is below yet. -/
theorem start_step {tid : Nat} {op' : σ.Op} {k : Prog σ}
    (hcall : s.calls c = some ⟨op, .running tid (.start op' k), outcome⟩)
    (hbelow : Untouched s c) :
    ∃ t, D.step s (.run c) = some t ∧ Within c s t ∧
      t.calls c = some ⟨op, .running tid k, outcome⟩ ∧ ErrandAt t c (.sent op') := by
  have hfree : s.calls c.child = none := hbelow c.child rfl (Nat.lt_succ_self _)
  have hwithin : Within c s (s.resume c ⟨op, .running tid (.start op' k), outcome⟩ tid k) :=
    .of_update rfl rfl rfl
  have hsend : ∀ t : State σ, Within c.child t
      ((t.setCall c.child ⟨op', .requested, none⟩).emit c (D.home op) (.start op')) :=
    fun _ => .of_update rfl rfl rfl
  refine ⟨_, step_of_steps (.run hcall rfl (.start (D := D) hfree)),
    hwithin.trans (hsend _).of_child, ?_, ?_, fun d hrequest hd => ?_⟩
  · simp [resume, c.child_ne.symm]
  · simp
  · have hdc : d ≠ c := by
      rintro rfl
      exact absurd hd (by simp)
    have hdchild : d ≠ c.child := by
      rintro rfl
      exact lt_irrefl _ hd
    simp only [emit_calls, setCall_calls, resume, Function.update_of_ne hdc,
      Function.update_of_ne hdchild]
    exact hbelow d hrequest ((Nat.lt_succ_self _).trans hd)

section Complete

variable {below : σ.Op → Prop} {answers : σ.Op → σ.Val → Prop}
  (hserve : ∀ op', below op' → ∀ s c, Reaches D.step D.init s →
    s.calls c = some ⟨op', .requested, none⟩ → Untouched s c →
    Finishes D c op' none (answers op') s)

include hserve

/-- **A well-behaved handler can be run to its end**, if the operations `below` can
be served. -/
theorem complete {tid : Nat} {p : Prog σ} {x : Errand σ} (hreach : Reaches D.step D.init s)
    (hcall : s.calls c = some ⟨op, .running tid p, outcome⟩) (herrand : ErrandAt s c x)
    (hp : p.Behaves below answers post x) : Finishes D c op outcome post s := by
  induction p generalizing s x with
  | record n k ih =>
    have hstep := step_of_steps (.run hcall rfl (.record (D := D)))
    exact (ih (hreach.tail hstep) (Function.update_self ..) (herrand.of_update rfl)
      hp).of_reaches (.single hstep) (.of_update rfl rfl rfl)
  | findClient target k ih =>
    have hstep := step_of_steps (.run hcall rfl (.findClient (D := D)))
    exact (ih _ (hreach.tail hstep) (Function.update_self ..) (herrand.of_update rfl)
      (hp _)).of_reaches (.single hstep) (.of_update rfl rfl rfl)
  | newClient target k ih =>
    have hstep := step_of_steps (.run hcall rfl (.newClient (D := D)))
    exact (ih (hreach.tail hstep) (Function.update_self ..) (herrand.of_update rfl)
      hp).of_reaches (.single hstep) (.of_update rfl rfl rfl)
  | sleep k ih =>
    have hstep := step_of_steps (.run hcall rfl (.sleep (D := D)))
    exact (ih (hreach.tail hstep) (Function.update_self ..) (herrand.of_update rfl)
      hp).of_reaches (.single hstep) (.of_update rfl rfl rfl)
  | access a k ih =>
    have hstep := step_of_steps (.run hcall rfl (.access (D := D) rfl))
    exact (ih _ (hreach.tail hstep) (Function.update_self ..) (herrand.of_update rfl)
      (hp _)).of_reaches (.single hstep) (.of_update rfl rfl rfl)
  | start op' k ih =>
    obtain ⟨rfl, hk⟩ := hp
    obtain ⟨t, hstep, hwithin, hcall', hsent⟩ := start_step (D := D) hcall herrand
    exact (ih (hreach.tail hstep) hcall' hsent hk).of_reaches (.single hstep) hwithin
  | await k ih =>
    obtain ⟨op', rfl, hbelow, hk⟩ := hp
    obtain ⟨t, v, hst, hwithin, hchild, hanswer⟩ := hserve op' hbelow s c.child hreach
      herrand.1 herrand.2
    obtain ⟨u, htu, hwithin', hcall'⟩ :=
      take_reply (D := D) (hwithin.caller.trans hcall) hchild
    have hsettled : ErrandAt u c .settled := trivial
    exact (ih v ((hreach.trans hst).trans htu) hcall' hsettled (hk v hanswer)).of_reaches
      (hst.trans htu) (hwithin.of_child.trans hwithin')
  | ret v =>
    have hstep := step_of_steps (.run hcall rfl (.ret (D := D)))
    exact ⟨_, v, .single hstep, .of_update rfl rfl rfl, Function.update_self .., hp⟩
  | throw => exact hp.elim

end Complete

/-- A request that has just arrived, with nothing below it. -/
theorem Finishes.of_requested {below : σ.Op → Prop} {answers : σ.Op → σ.Val → Prop}
    (hserve : ∀ op', below op' → ∀ s c, Reaches D.step D.init s →
      s.calls c = some ⟨op', .requested, none⟩ → Untouched s c →
      Finishes D c op' none (answers op') s)
    (hcode : (D.code op).Behaves below answers post .unsent) (hreach : Reaches D.step D.init s)
    (hcall : s.calls c = some ⟨op, .requested, none⟩) (hbelow : Untouched s c) :
    Finishes D c op none post s := by
  obtain ⟨tid, hidle⟩ := idle_reaches hreach (D.home op)
  have hstep := step_of_steps (D := D) (.deliver hcall rfl hidle)
  have herrand : ErrandAt s c .unsent := hbelow
  refine (complete hserve (hreach.tail hstep) (Function.update_self ..)
    (herrand.of_update rfl) hcode).of_reaches (.single hstep) ?_
  exact .of_update rfl rfl rfl

/--
**Every request can be served.** If the handlers call operations of smaller rank
only, and return answers when they get answers, then a request that nobody has
worked on can be brought to return an answer, whatever else is under way.
-/
theorem serve {rank : σ.Op → Nat} {answers : σ.Op → σ.Val → Prop}
    (hcode : ∀ op, (D.code op).Behaves (fun op' => rank op' < rank op) answers (answers op)
      .unsent) (hreach : Reaches D.step D.init s)
    (hcall : s.calls c = some ⟨op, .requested, none⟩) (hbelow : Untouched s c) :
    Finishes D c op none (answers op) s := by
  induction hrank : rank op using Nat.strong_induction_on generalizing op s c with
  | _ n ih =>
    subst hrank
    exact .of_requested (fun op' hop' s c hreach hcall hbelow => ih _ hop' hreach hcall hbelow rfl)
      (hcode op) hreach hcall hbelow

/-- A handler that records, makes its call and then waits can be run up to there. -/
theorem send_off {tid : Nat} {n : σ.Note} {op' : σ.Op} {k : Prog σ}
    (hcall : s.calls c = some ⟨op, .running tid (.record n (.start op' k)), outcome⟩)
    (hbelow : Untouched s c) :
    ∃ t, Reaches D.step s t ∧ Within c s t ∧
      t.calls c = some ⟨op, .running tid k, outcome⟩ ∧
      t.calls c.child = some ⟨op', .requested, none⟩ ∧ Untouched t c.child := by
  have hrecord := step_of_steps (D := D) (.run hcall rfl .record)
  set t := (s.resume c ⟨op, .running tid (.record n (.start op' k)), outcome⟩ tid
    (.start op' k)).emit c (D.home op) (.record n) with ht
  have hcalls : t.calls = Function.update s.calls c
      (some ⟨op, .running tid (.start op' k), outcome⟩) := rfl
  have hbelow' : ErrandAt t c .unsent := ErrandAt.of_update (x := .unsent) hbelow hcalls
  have hwithin : Within c s t := .of_update rfl rfl hcalls
  have hcall' : t.calls c = some ⟨op, .running tid (.start op' k), outcome⟩ := by
    rw [hcalls, Function.update_self]
  obtain ⟨u, hstep, hwithin', hcall'', hsent⟩ := start_step (D := D) hcall' hbelow'
  exact ⟨u, (Reaches.single hrecord).tail hstep, hwithin.trans hwithin', hcall'', hsent⟩

/-- A handler that waits for a reply that is there can be run to its end, if it
makes no more calls. -/
theorem returns_of_reply {answers : σ.Op → σ.Val → Prop} {tid : Nat} {k : σ.Val → Prog σ}
    {op' : σ.Op} {v : σ.Val} (hreach : Reaches D.step D.init s)
    (hcall : s.calls c = some ⟨op, .running tid (.await k), outcome⟩)
    (hchild : s.calls c.child = some ⟨op', .returned (.value v), none⟩)
    (hk : (k v).Behaves (fun _ => False) answers post .settled) :
    Finishes D c op outcome post s := by
  obtain ⟨t, hst, hwithin, hcall'⟩ := take_reply (D := D) hcall hchild
  refine (complete (x := .settled) ?_ (hreach.trans hst) hcall' trivial hk).of_reaches hst hwithin
  exact fun _ h => h.elim

end Rpc
