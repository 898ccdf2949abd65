import MockMessageBoard.Lib.Rpc.Causality

/-!
# Remote procedure calls — bounds

A handler that takes a bounded number of steps is served in a bounded number of
steps: those, the delivery of its request and the arrival of its reply. So each
call of a run takes up a bounded part of it, whatever the scheduler does.

* `Moves.next`      — a move is a step of the program;
* `spent_of_run`    — what a call has taken up, and what is left to it;
* `work_le`         — the part of a run that a call takes up.
-/

namespace Rpc

open Transition Deployment State

variable {σ : Signature}

/-- `p` takes at most `n` steps to its end. -/
def Prog.Takes : Prog σ → Nat → Prop
  | _, 0 => False
  | .record _ k, n + 1 | .newClient _ k, n + 1 | .start _ k, n + 1 | .sleep k, n + 1 => k.Takes n
  | .findClient _ k, n + 1 => ∀ found, (k found).Takes n
  | .await k, n + 1 => ∀ v, (k v).Takes n
  | .access _ k, n + 1 => ∀ w, (k w).Takes n
  | .ret _, _ + 1 | .throw, _ + 1 => True

theorem Prog.Takes.mono {p : Prog σ} {m n : Nat} (h : p.Takes m) (hle : m ≤ n) : p.Takes n := by
  induction p generalizing m n with
  | ret | throw =>
    cases n with
    | zero =>
      obtain rfl := Nat.le_zero.mp hle
      exact h
    | succ n => trivial
  | record _ k ih | newClient _ k ih | start _ k ih | sleep k ih =>
    cases m with
    | zero => exact h.elim
    | succ m =>
      obtain ⟨n, rfl⟩ := Nat.exists_eq_add_of_le' hle
      exact ih h (Nat.le_add_left m n)
  | findClient _ k ih | await k ih | access _ k ih =>
    cases m with
    | zero => exact h.elim
    | succ m =>
      obtain ⟨n, rfl⟩ := Nat.exists_eq_add_of_le' hle
      exact fun v => ih v (h v) (Nat.le_add_left m n)

/-- A handler at the control point takes at most `n` more steps. -/
def Control.Takes : Control σ → Nat → Prop
  | .running p, n => p.Takes n
  | .returned _, n => n = 0

/-- Each step is one of those. -/
theorem Prog.Takes.next {p : Prog σ} {n : Nat} {a : Option (Act σ)} {x : Control σ}
    (h : p.Takes n) (hnext : Next p a x) : ∃ m, m < n ∧ x.Takes m := by
  cases n with
  | zero => cases hnext <;> exact h.elim
  | succ n =>
    cases hnext with
    | record | newClient | start | sleep => exact ⟨n, n.lt_succ_self, h⟩
    | findClient found => exact ⟨n, n.lt_succ_self, h found⟩
    | await v => exact ⟨n, n.lt_succ_self, h v⟩
    | access w => exact ⟨n, n.lt_succ_self, h w⟩
    | abort | ret | throw => exact ⟨0, n.succ_pos, rfl⟩

-- ---------------------------------------------------------------------------
-- What serves a call
-- ---------------------------------------------------------------------------

/-- The process that a step of the schedule lets issue a request. -/
def Label.issuer : Label → Option Nat
  | .issue p => some p
  | _ => none

/-- The call that a step serves otherwise. -/
def Label.work : Label → Option CallId
  | .tick | .issue _ => none
  | .deliver c _ | .run c => some c
  | .reply c | .fail c => some c.child

/-- The steps of a schedule, in which more happens than that time passes. -/
def busySteps (ls : List Label) : Nat :=
  ls.countP fun l => l.issuer.isSome || l.work.isSome

/-- The processes that issue requests, one after the other. -/
def issues (ls : List Label) : List Nat := ls.filterMap Label.issuer

/-- The calls that are served, one after the other. -/
def work (ls : List Label) : List CallId := ls.filterMap Label.work

theorem busySteps_eq (ls : List Label) :
    busySteps ls = (issues ls).length + (work ls).length := by
  induction ls with
  | nil => rfl
  | cons l ls ih =>
    cases l <;>
      simp [busySteps, issues, work, Label.issuer, Label.work, List.filterMap_cons] at ih ⊢ <;>
      omega

theorem count_filterMap_snoc {α β : Type} [DecidableEq β] (f : α → Option β) (as : List α)
    (a : α) (b : β) : ((as ++ [a]).filterMap f).count b =
      (as.filterMap f).count b + if f a = some b then 1 else 0 := by
  rw [List.filterMap_append, List.count_append]
  cases ha : f a with
  | none => simp [ha]
  | some b' => by_cases hb : b' = b <;> simp [ha, hb]

theorem count_work_self {ls : List Label} {l : Label} {c : CallId} (h : l.work = some c) :
    (work (ls ++ [l])).count c = (work ls).count c + 1 :=
  (count_filterMap_snoc ..).trans (by rw [if_pos h]; rfl)

theorem count_work_other {ls : List Label} {l : Label} {c : CallId} (h : l.work ≠ some c) :
    (work (ls ++ [l])).count c = (work ls).count c :=
  (count_filterMap_snoc ..).trans (by rw [if_neg h]; rfl)

-- ---------------------------------------------------------------------------
-- What is left to a call
-- ---------------------------------------------------------------------------

variable {cost : σ.Op → Nat}

/-- The handler of the call takes at most `n` more steps, with the delivery of its
request if that is still on its way. -/
def Call.Remains (cost : σ.Op → Nat) (call : Call σ) (n : Nat) : Prop :=
  match call.phase with
  | .requested => n = cost call.op + 1
  | .running _ p => p.Takes n
  | .returned _ => n = 0

/-- A caller can still be told how the call has ended. -/
def Call.replyDue (c : CallId) (call : Call σ) : Nat :=
  if c.depth ≠ 0 ∧ call.outcome.isNone then 1 else 0

/-- The steps that serve a call of `op`, at most. The calls at the root are
neither delivered nor replied to. -/
def allowance (cost : σ.Op → Nat) (c : CallId) (op : σ.Op) : Nat :=
  cost op + if c.depth = 0 then 0 else 2

/-- The call has taken up `k` steps, and what is left to it is within its allowance. -/
def Spent (cost : σ.Op → Nat) (c : CallId) (k : Nat) : Option (Call σ) → Prop
  | none => k = 0
  | some call => ∃ n, call.Remains cost n ∧ k + n + call.replyDue c ≤ allowance cost c call.op

namespace Spent

variable {c : CallId} {call : Call σ} {k : Nat}

theorem le (h : Spent cost c k (some call)) : k ≤ allowance cost c call.op := by
  obtain ⟨n, -, hle⟩ := h
  omega

/-- A handler that is there from the beginning. -/
theorem issued {op : σ.Op} {tid : Nat} {p : Prog σ} (hdepth : c.depth = 0)
    (hp : p.Takes (cost op)) : Spent cost c 0 (some ⟨op, .running tid p, none⟩) := by
  refine ⟨cost op, hp, ?_⟩
  simp [Call.replyDue, allowance, hdepth]

theorem requested {op : σ.Op} (hdepth : c.depth ≠ 0) :
    Spent cost c 0 (some ⟨op, .requested, none⟩) := by
  refine ⟨cost op + 1, rfl, ?_⟩
  simp [Call.replyDue, allowance, hdepth]

theorem delivered {tid : Nat} {p : Prog σ} (h : Spent cost c k (some call))
    (hphase : call.phase = .requested) (hp : p.Takes (cost call.op)) :
    Spent cost c (k + 1) (some { call with phase := .running tid p }) := by
  obtain ⟨n, hn, hle⟩ := h
  simp only [Call.Remains, hphase] at hn
  subst hn
  refine ⟨cost call.op, hp, ?_⟩
  change k + 1 + cost call.op + call.replyDue c ≤ allowance cost c call.op
  omega

theorem moved {tid : Nat} {p : Prog σ} {a : Option (Act σ)} {x : Control σ}
    (h : Spent cost c k (some call)) (hphase : call.phase = .running tid p) (hnext : Next p a x) :
    Spent cost c (k + 1) (some { call with phase := x.phase tid }) := by
  obtain ⟨n, hn, hle⟩ := h
  simp only [Call.Remains, hphase] at hn
  obtain ⟨m, hm, hx⟩ := hn.next hnext
  refine ⟨m, ?_, ?_⟩
  · cases x with
    | running q => exact hx
    | returned o => exact hx
  · change k + 1 + m + call.replyDue c ≤ allowance cost c call.op
    omega

theorem settled {o : Outcome σ} (h : Spent cost c k (some call)) (hdepth : c.depth ≠ 0)
    (hnone : call.outcome = none) :
    Spent cost c (k + 1) (some { call with outcome := some o }) := by
  obtain ⟨n, hn, hle⟩ := h
  refine ⟨n, hn, ?_⟩
  simp only [Call.replyDue, hdepth, hnone, ne_eq, not_false_eq_true, Option.isNone_none,
    and_self, if_true] at hle
  simp only [Call.replyDue, Option.isNone_some, Bool.false_eq_true, and_false, if_false]
  omega

end Spent

-- ---------------------------------------------------------------------------
-- Runs
-- ---------------------------------------------------------------------------

variable [DecidableEq σ.Svc] {D : Deployment σ} {s s' : State σ}

/-- A move is a step of the program, and sends at most one request. -/
theorem Moves.next {c : CallId} {call : Call σ} {tid : Nat} {p : Prog σ}
    (h : Moves D s c call tid p s') :
    (∃ a x, Next p a x ∧ s'.calls c = some { call with phase := x.phase tid }) ∧
      ∀ d, d ≠ c → s'.calls d = s.calls d ∨
        (s.calls d = none ∧ d = c.child ∧ ∃ op, s'.calls d = some ⟨op, .requested, none⟩) := by
  have hmoved : ∀ {a : Option (Act σ)} {x : Control σ}, Next p a x →
      s'.calls = Function.update s.calls c (some { call with phase := x.phase tid }) →
      (∃ a x, Next p a x ∧ s'.calls c = some { call with phase := x.phase tid }) ∧
        ∀ d, d ≠ c → s'.calls d = s.calls d ∨
          (s.calls d = none ∧ d = c.child ∧ ∃ op, s'.calls d = some ⟨op, .requested, none⟩) := by
    intro a x hnext hcalls
    refine ⟨⟨a, x, hnext, ?_⟩, fun d hd => .inl ?_⟩
    · rw [hcalls, Function.update_self]
    · rw [hcalls, Function.update_of_ne hd]
  cases h with
  | record => exact hmoved .record rfl
  | @findClient target => exact hmoved (.findClient (s.clients (D.home call.op) tid target)) rfl
  | newClient => exact hmoved .newClient rfl
  | sleep => exact hmoved .sleep rfl
  | @await k v => exact hmoved (.await v) rfl
  | abort => exact hmoved .abort rfl
  | @access a k store w => exact hmoved (.access w) rfl
  | ret => exact hmoved .ret rfl
  | throw => exact hmoved .throw rfl
  | @start op k hfree =>
    refine ⟨⟨_, _, .start, ?_⟩, fun d hd => ?_⟩
    · simp [resume, c.child_ne.symm, Control.phase]
    · by_cases hchild : d = c.child
      · subst hchild
        exact .inr ⟨hfree, rfl, op, Function.update_self ..⟩
      · exact .inl (by simp [resume, hd, hchild])

/-- **What a call has taken up of a run is within its allowance**, and so is what is
left to it. -/
theorem spent_of_run {ls : List Label} (hcost : ∀ op, (D.code op).Takes (cost op))
    (hrun : run D.step D.init ls = some s) (c : CallId) :
    Spent cost c ((work ls).count c) (s.calls c) := by
  refine run_invariant (P := fun ls s => ∀ c, Spent cost c ((work ls).count c) (s.calls c)) hrun
    ?_ ?_ c
  · exact fun c => rfl
  intro ls t l u ht ih hstep c
  have hsame : l.work ≠ some c → u.calls c = t.calls c →
      Spent cost c ((work (ls ++ [l])).count c) (u.calls c) := by
    intro hl hcalls
    rw [count_work_other hl, hcalls]
    exact ih c
  have hnowork : (none : Option CallId) ≠ some c := (Option.some_ne_none c).symm
  have hserved : ∀ {call : Call σ}, t.calls c = some call →
      Spent cost c ((work ls).count c) (some call) := fun hcall => hcall ▸ ih c
  have hfirst : t.calls c = none → (work ls).count c = 0 := by
    intro hnone
    have hspent := ih c
    rwa [hnone] at hspent
  cases step_iff.mp hstep with
  | tick => exact hsame hnowork rfl
  | @issue p op hop hmay =>
    by_cases hc : c = ⟨⟨p, t.issued p⟩, 0⟩
    · subst hc
      have hnone := fresh_reaches ⟨ls, ht⟩ p _ le_rfl
      rw [count_work_other (show Label.work (.issue p) ≠ _ from hnowork), hfirst hnone, issueCall,
        spawn]
      simp only [resume, setBusy, setCall_calls, Function.update_self]
      exact .issued rfl (hcost op)
    · exact hsame hnowork (Function.update_of_ne hc ..)
  | @deliver d call tid hcall hphase =>
    by_cases hc : c = d
    · subst hc
      rw [count_work_self rfl]
      simp only [spawn, resume, setBusy, setCall_calls, Function.update_self]
      exact (hserved hcall).delivered hphase (hcost _)
    · exact hsame (fun h => hc (Option.some.inj h).symm) (Function.update_of_ne hc ..)
  | @run d call tid p _ hcall hphase hmove =>
    obtain ⟨⟨a, x, hnext, hself⟩, hothers⟩ := hmove.next
    by_cases hc : c = d
    · subst hc
      rw [count_work_self rfl, hself]
      exact (hserved hcall).moved hphase hnext
    · have hl : Label.work (.run d) ≠ some c := fun h => hc (Option.some.inj h).symm
      rcases hothers c hc with hold | ⟨hnone, rfl, op, hnew⟩
      · exact hsame hl hold
      · rw [count_work_other hl, hfirst hnone, hnew]
        exact .requested (Nat.succ_ne_zero _)
  | @reply d call o hcall hphase hnone | @fail d call hcall hnone =>
    by_cases hc : c = d.child
    · subst hc
      rw [count_work_self rfl]
      simp only [settle, setCall_calls, Function.update_self]
      exact (hserved hcall).settled (Nat.succ_ne_zero _) hnone
    · exact hsame (fun h => hc (Option.some.inj h).symm) (Function.update_of_ne hc ..)

/-- What a schedule serves is there. -/
theorem calls_of_mem_work {ls : List Label} (hcost : ∀ op, (D.code op).Takes (cost op))
    (hrun : run D.step D.init ls = some s) {c : CallId} (hc : c ∈ work ls) :
    ∃ call, s.calls c = some call := by
  have hspent := spent_of_run hcost hrun c
  cases hcall : s.calls c with
  | some call => exact ⟨call, rfl⟩
  | none =>
    rw [hcall] at hspent
    exact absurd hc (List.count_eq_zero.mp hspent)

/-- Each call takes up a bounded part of a run. -/
theorem work_le {ls : List Label} (hcost : ∀ op, (D.code op).Takes (cost op))
    (hrun : run D.step D.init ls = some s) {c : CallId} {call : Call σ}
    (hcall : s.calls c = some call) : (work ls).count c ≤ allowance cost c call.op := by
  have hspent := spent_of_run hcost hrun c
  rw [hcall] at hspent
  exact hspent.le

/-- A process issues its requests one by one, as many as it has. -/
theorem count_issues {ls : List Label} (hrun : run D.step D.init ls = some s) (p : Nat) :
    (issues ls).count p = s.issued p ∧ s.issued p ≤ (D.script p).length := by
  refine run_invariant (P := fun ls s => (issues ls).count p = s.issued p ∧
    s.issued p ≤ (D.script p).length) hrun ⟨rfl, Nat.zero_le _⟩ ?_
  intro ls t l u ht ih hstep
  obtain ⟨hcount, hle⟩ := ih
  have hsnoc : (issues (ls ++ [l])).count p =
      t.issued p + if l.issuer = some p then 1 else 0 := by
    rw [← hcount]
    exact count_filterMap_snoc ..
  rw [hsnoc]
  cases step_iff.mp hstep with
  | tick | deliver | reply | fail => exact ⟨rfl, hle⟩
  | run hcall hphase hmove => cases hmove <;> exact ⟨rfl, hle⟩
  | @issue q op hop hmay =>
    show _ = Function.update t.issued q (t.issued q + 1) p ∧
      Function.update t.issued q (t.issued q + 1) p ≤ _
    by_cases hq : p = q
    · subst hq
      have hself : (Label.issue p).issuer = some p := rfl
      rw [Function.update_self, if_pos hself]
      exact ⟨rfl, (List.getElem?_eq_some_iff.mp hop).1⟩
    · have hother : (Label.issue q).issuer ≠ some p := fun h => hq (Option.some.inj h).symm
      rw [Function.update_of_ne hq, if_neg hother]
      exact ⟨rfl, hle⟩

end Rpc
