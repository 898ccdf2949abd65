import MockMessageBoard.Lib.Rpc.Progress
import MockMessageBoard.Lib.Rpc.Bounds

/-!
# Remote procedure calls — layers

Services stand in layers: the handlers of a service call only services further
down. A handler blocks its thread while it waits, so a service with few threads
can have all of them taken by handlers that wait. Still nothing is ever stuck,
since who waits waits for a lower layer.

* `behaves_of_running`  — what a handler still has to do, wherever it is;
* `answers_of_returned` — what a call returns answers its request;
* `Stalled.returned`    — **no deadlock**, with one thread for each service;
* `exists_stalled`      — a bounded system gets there;
* `Stalled.answered`    — where no call fails, every request is answered.
-/

namespace Rpc

open Transition Deployment State

variable {σ : Signature}

-- ---------------------------------------------------------------------------
-- How far a handler has got
-- ---------------------------------------------------------------------------

/-- How the call of a handler stands when the handler has gone on with the actions. -/
def Errand.after (x : Errand σ) : List (Act σ) → Errand σ
  | [] => x
  | .start op :: t => Errand.after (.sent op) t
  | .await _ :: t => Errand.after .settled t
  | .record _ :: t | .access _ _ :: t | .finish _ :: t => x.after t

theorem Errand.after_append (x : Errand σ) (t t' : List (Act σ)) :
    x.after (t ++ t') = (x.after t).after t' := by
  induction t generalizing x with
  | nil => rfl
  | cons a t ih => cases a <;> exact ih _

/-- A call that stands as sent was sent. -/
theorem Errand.sent_of_after {x : Errand σ} {t : List (Act σ)} {op : σ.Op}
    (h : x.after t = .sent op) : x = .sent op ∨ .start op ∈ t := by
  induction t generalizing x with
  | nil => exact .inl h
  | cons a t ih =>
    cases a with
    | start op' =>
      rcases ih h with h | h
      · cases h
        exact .inr List.mem_cons_self
      · exact .inr (List.mem_cons_of_mem _ h)
    | await v =>
      rcases ih h with h | h
      · cases h
      · exact .inr (List.mem_cons_of_mem _ h)
    | record | access | finish => exact (ih h).imp_right (List.mem_cons_of_mem _)

/-- A call that stands as unsent was not sent. -/
theorem Errand.unsent_of_after {x : Errand σ} {t : List (Act σ)} (h : x.after t = .unsent) :
    x = .unsent ∧ ∀ op, .start op ∉ t := by
  induction t generalizing x with
  | nil => exact ⟨h, fun _ => List.not_mem_nil⟩
  | cons a t ih =>
    cases a with
    | start op => cases (ih (x := .sent op) h).1
    | await v => cases (ih (x := .settled) h).1
    | record | access | finish =>
      obtain ⟨hx, ht⟩ := ih (x := x) h
      refine ⟨hx, fun op hop => ?_⟩
      rcases List.mem_cons.mp hop with hop | hop
      · cases hop
      · exact ht op hop

/-- A path to an end goes through the program that ends it. -/
theorem Ends.last {p : Prog σ} {t : List (Act σ)} {o : Outcome σ} (h : Ends p t o) :
    ∃ q t', Path (.running p) t' (.running q) ∧ Next q (some (.finish o)) (.returned o) ∧
      t = t' ++ [.finish o] := by
  unfold Ends at h
  generalize hx : Control.running p = x at h
  generalize hy : Control.returned o = y at h
  induction h generalizing p with
  | here => subst hy; cases hx
  | @step p' a z t x hnext htail ih =>
    cases hx
    cases z with
    | running r =>
      obtain ⟨q, t', hpath, hlast, rfl⟩ := ih rfl hy
      exact ⟨q, a.toList ++ t', .step hnext hpath, hlast, (List.append_assoc ..).symm⟩
    | returned o' =>
      obtain ⟨rfl, rfl⟩ := path_returned.mp htail
      cases hy
      obtain rfl := hnext.eq_finish
      exact ⟨_, [], .here, hnext, rfl⟩

section Behaves

variable {below : σ.Op → Prop} {answers : σ.Op → σ.Val → Prop} {post : σ.Val → Prop}
  {p q : Prog σ} {x : Errand σ}

/-- A well-behaved handler goes on behaving, if it goes on with an answer. -/
theorem Next.behaves {a : Option (Act σ)} (h : Next p a (.running q))
    (hp : p.Behaves below answers post x)
    (hanswer : ∀ op v, below op → x = .sent op → a = some (.await v) → answers op v) :
    q.Behaves below answers post (x.after a.toList) := by
  cases h with
  | record | newClient | sleep => exact hp
  | findClient found => exact hp found
  | access w => exact hp w
  | start => exact hp.2
  | await v =>
    obtain ⟨op, rfl, hbelow, hk⟩ := hp
    exact hk v (hanswer op v hbelow rfl rfl)

/-- So it behaves wherever it is, if the replies it has taken are answers. -/
theorem Path.behaves {t : List (Act σ)} (h : Path (.running p) t (.running q))
    (hp : p.Behaves below answers post x)
    (hanswer : ∀ op v, below op → (x = .sent op ∨ .start op ∈ t) → .await v ∈ t →
      answers op v) :
    q.Behaves below answers post (x.after t) := by
  generalize hy : Control.running p = y at h
  generalize hz : Control.running q = z at h
  induction h generalizing p x with
  | here =>
    cases hy.trans hz.symm
    exact hp
  | @step r a y t z hnext htail ih =>
    cases hy
    cases y with
    | returned o =>
      obtain ⟨-, rfl⟩ := path_returned.mp htail
      cases hz
    | running r' =>
      rw [Errand.after_append]
      refine ih (hnext.behaves hp fun op v hbelow hx ha => ?_) (fun op v hbelow hop hv => ?_)
        rfl hz
      · exact hanswer op v hbelow (.inl hx) (ha ▸ List.mem_append_left _ (by simp))
      · refine hanswer op v hbelow ?_ (List.mem_append_right _ hv)
        rcases hop with hop | hop
        · exact (Errand.sent_of_after hop).imp_right (List.mem_append_left _)
        · exact .inr (List.mem_append_right _ hop)

/-- A value that a well-behaved handler returns is as promised. -/
theorem Ends.promised {t : List (Act σ)} {v : σ.Val} (h : Ends p t (.value v))
    (hp : p.Behaves below answers post x)
    (hanswer : ∀ op v, below op → (x = .sent op ∨ .start op ∈ t) → .await v ∈ t →
      answers op v) : post v := by
  obtain ⟨q, t', hpath, hlast, rfl⟩ := h.last
  have hq := hpath.behaves hp fun op v hbelow hop hv =>
    hanswer op v hbelow (hop.imp_right (List.mem_append_left _)) (List.mem_append_left _ hv)
  cases hlast with
  | ret => exact hq

end Behaves

variable {D : Deployment σ} {s t : State σ}

-- ---------------------------------------------------------------------------
-- Threads
-- ---------------------------------------------------------------------------

/-- A handler of the service runs on the thread. -/
def Holds (D : Deployment σ) (s : State σ) (svc : σ.Svc) (tid : Nat) : Prop :=
  ∃ c call p, s.calls c = some call ∧ call.phase = .running tid p ∧ D.home call.op = svc

/-- Replacing a call frees no thread but that of its handler. -/
theorem Holds.update {svc : σ.Svc} {tid : Nat} {c : CallId} {call : Call σ}
    (h : Holds D s svc tid) (hcalls : t.calls = Function.update s.calls c (some call))
    (hkeep : ∀ old p, s.calls c = some old → old.phase = .running tid p → D.home old.op = svc →
      D.home call.op = svc ∧ ∃ p', call.phase = .running tid p') : Holds D t svc tid := by
  obtain ⟨d, old, p, hold, hphase, hhome⟩ := h
  by_cases hd : d = c
  · subst hd
    obtain ⟨hhome', p', hphase'⟩ := hkeep old p hold hphase hhome
    exact ⟨d, call, p', by rw [hcalls, Function.update_self], hphase', hhome'⟩
  · exact ⟨d, old, p, by rw [hcalls, Function.update_of_ne hd, hold], hphase, hhome⟩

variable [DecidableEq σ.Svc]

/-- A thread is busy only while a handler runs on it. -/
theorem busy_reaches (hreach : Reaches D.step D.init s) {svc : σ.Svc} {tid : Nat}
    (hbusy : s.busy svc tid = true) : Holds D s svc tid := by
  suffices ∀ svc tid, s.busy svc tid = true → Holds D s svc tid from this svc tid hbusy
  clear hbusy svc tid
  refine hreach.invariant (P := fun s => ∀ svc tid, s.busy svc tid = true → Holds D s svc tid)
    nofun ?_
  intro t l u ht ih hstep svc tid hbusy
  -- a handler that goes on keeps its thread, one that leaves frees its own
  have hresume : ∀ {c : CallId} {call : Call σ} {tid₀ : Nat} {p : Prog σ} (k : Prog σ),
      t.calls c = some call → call.phase = .running tid₀ p → t.busy svc tid = true →
      Holds D (t.resume c call tid₀ k) svc tid := by
    intro c call tid₀ p k hcall hphase hbusy
    refine (ih svc tid hbusy).update rfl fun old p' hold hphase' hhome => ?_
    cases hcall.symm.trans hold
    cases hphase.symm.trans hphase'
    exact ⟨hhome, k, rfl⟩
  have hleave : ∀ {c : CallId} {call : Call σ} {tid₀ : Nat} {p : Prog σ} (o : Outcome σ),
      t.calls c = some call → call.phase = .running tid₀ p →
      (D.leave t c call tid₀ o).busy svc tid = true →
      Holds D (D.leave t c call tid₀ o) svc tid := by
    intro c call tid₀ p o hcall hphase hbusy
    change (if svc = D.home call.op ∧ tid = tid₀ then false else t.busy svc tid) = true at hbusy
    split at hbusy
    · cases hbusy
    · rename_i hother
      refine (ih svc tid hbusy).update rfl fun old p' hold hphase' hhome => ?_
      cases hcall.symm.trans hold
      cases hphase.symm.trans hphase'
      exact absurd ⟨hhome.symm, rfl⟩ hother
  have hspawn : ∀ {c : CallId} {call : Call σ} {tid₀ : Nat},
      (∀ old p, t.calls c = some old → old.phase ≠ .running tid p) →
      (D.spawn t c call tid₀).busy svc tid = true → Holds D (D.spawn t c call tid₀) svc tid := by
    intro c call tid₀ hidle hbusy
    change (if svc = D.home call.op ∧ tid = tid₀ then true else t.busy svc tid) = true at hbusy
    split at hbusy
    · rename_i hself
      obtain ⟨rfl, rfl⟩ := hself
      exact ⟨c, _, _, Function.update_self .., rfl, rfl⟩
    · exact (ih svc tid hbusy).update rfl fun old p hold hphase => absurd hphase (hidle old p hold)
  cases step_iff.mp hstep with
  | tick => exact ih svc tid hbusy
  | @issue p op =>
    refine hspawn (c := ⟨⟨p, t.issued p⟩, 0⟩) (fun old p' hold => ?_) hbusy
    rw [fresh_reaches ht p _ le_rfl] at hold
    cases hold
  | deliver hcall hphase =>
    refine hspawn (fun old p' hold hphase' => ?_) hbusy
    cases hcall.symm.trans hold
    cases hphase.symm.trans hphase'
  | reply hcall | fail hcall =>
    refine (ih svc tid hbusy).update rfl fun old p hold hphase hhome => ?_
    cases hcall.symm.trans hold
    exact ⟨hhome, p, hphase⟩
  | run hcall hphase hmove =>
    cases hmove with
    | record | findClient | newClient | sleep | await | access =>
      exact hresume _ hcall hphase hbusy
    | abort | ret | throw => exact hleave _ hcall hphase hbusy
    | start hfree =>
      refine (hresume _ hcall hphase hbusy).update rfl fun old p hold => ?_
      rw [resume, setCall_calls, Function.update_of_ne (CallId.child_ne _), hfree] at hold
      cases hold

-- ---------------------------------------------------------------------------
-- Layers of services
-- ---------------------------------------------------------------------------

section Layers

variable {rank : σ.Op → Nat} {answers : σ.Op → σ.Val → Prop}
  (hcode : ∀ op, (D.code op).Behaves (fun op' => rank op' < rank op) answers (answers op)
    .unsent)
  (hreach : Reaches D.step D.init s)

include hcode hreach

/-- **What a call returns answers its request**, whatever has failed on the way. -/
theorem answers_of_returned {c : CallId} {call : Call σ} {v : σ.Val}
    (hcall : s.calls c = some call) (hphase : call.phase = .returned (.value v)) :
    answers call.op v := by
  induction hrank : rank call.op using Nat.strong_induction_on generalizing c call v with
  | _ n ih =>
    subst hrank
    have hends := ends_of_returned hreach hcall hphase
    refine hends.promised (hcode call.op) fun op w hop hstart hw => ?_
    rcases hstart with hstart | hstart
    · cases hstart
    · obtain ⟨callee, hcallee, hreturned, -⟩ := ends_of_await hreach hw
      obtain ⟨callee', hcallee', rfl⟩ := (started_reaches hreach c op).mp hstart
      cases hcallee.symm.trans hcallee'
      exact ih _ hop hcallee hreturned rfl

/-- **Wherever a handler is, it behaves from there on.** -/
theorem behaves_of_running {c : CallId} {call : Call σ} {tid : Nat} {p : Prog σ}
    (hcall : s.calls c = some call) (hphase : call.phase = .running tid p) :
    p.Behaves (fun op' => rank op' < rank call.op) answers (answers call.op)
      (Errand.after .unsent (s.trail c)) := by
  have hpath := onCourse_reaches hreach c call hcall
  unfold OnCourse at hpath
  rw [hphase] at hpath
  refine hpath.behaves (hcode call.op) fun op v hop hstart hv => ?_
  rcases hstart with hstart | hstart
  · cases hstart
  · obtain ⟨callee, hcallee, hreturned, -⟩ := ends_of_await hreach hv
    obtain ⟨callee', hcallee', rfl⟩ := (started_reaches hreach c op).mp hstart
    cases hcallee.symm.trans hcallee'
    exact answers_of_returned hcode hreach hcallee hreturned

/-- A handler can go on unless it waits for a call of smaller rank. -/
theorem runs_or_waits {c : CallId} {call : Call σ} {tid : Nat} {p : Prog σ}
    (hcall : s.calls c = some call) (hphase : call.phase = .running tid p) :
    (∃ s', D.step s (.run c) = some s') ∨
      ∃ callee, s.calls c.child = some callee ∧ callee.outcome = none ∧
        rank callee.op < rank call.op := by
  have hrun : ∀ s', Moves D s c call tid p s' → ∃ s', D.step s (.run c) = some s' :=
    fun s' hmove => ⟨s', step_of_steps (.run hcall hphase hmove)⟩
  have hp := behaves_of_running hcode hreach hcall hphase
  cases p with
  | record => exact .inl (hrun _ .record)
  | findClient => exact .inl (hrun _ .findClient)
  | newClient => exact .inl (hrun _ .newClient)
  | sleep => exact .inl (hrun _ .sleep)
  | access => exact .inl (hrun _ (.access rfl))
  | ret => exact .inl (hrun _ .ret)
  | throw => exact hp.elim
  | start op k =>
    -- a handler that is about to make its call has not made one
    have hunsent := (Errand.unsent_of_after hp.1).2
    cases hchild : s.calls c.child with
    | none => exact .inl (hrun _ (.start hchild))
    | some callee =>
      exact absurd ((started_reaches hreach c callee.op).mpr ⟨callee, hchild, rfl⟩) (hunsent _)
  | await k =>
    obtain ⟨op, hsent, hop, -⟩ := hp
    have hstart : .start op ∈ s.trail c := by
      rcases Errand.sent_of_after hsent with h | h
      · cases h
      · exact h
    obtain ⟨callee, hcallee, rfl⟩ := (started_reaches hreach c op).mp hstart
    cases houtcome : callee.outcome with
    | none => exact .inr ⟨callee, hcallee, houtcome, hop⟩
    | some o =>
      have htold : (s.calls c.child).bind Call.outcome = some o := by
        rw [hcallee, Option.bind_some, houtcome]
      cases o with
      | value v => exact .inl (hrun _ (.await htold))
      | raised => exact .inl (hrun _ (.abort htold))

end Layers

-- ---------------------------------------------------------------------------
-- No deadlock
-- ---------------------------------------------------------------------------

/-- The steps of a system in which no call fails and each service has `threads`
threads for its handlers. -/
def Deployment.stepReliable (D : Deployment σ) (threads : σ.Svc → Nat) (s : State σ) :
    Label → Option (State σ)
  | .fail _ => none
  | .deliver c tid =>
    if (s.calls c).any fun call => tid < threads (D.home call.op) then D.step s (.deliver c tid)
    else none
  | l => D.step s l

/-- Nothing can happen any more but that time passes, or calls fail. -/
def Stalled (D : Deployment σ) (threads : σ.Svc → Nat) (s : State σ) : Prop :=
  ∀ l, l ≠ .tick → D.stepReliable threads s l = none

variable {threads : σ.Svc → Nat}

theorem step_of_reliable {l : Label} (h : D.stepReliable threads s l = some t) :
    D.step s l = some t ∧ ∀ c, l ≠ .fail c := by
  cases l with
  | fail c => cases h
  | tick | issue | run | reply => exact ⟨h, nofun⟩
  | deliver c tid =>
    rw [stepReliable] at h
    split at h
    · exact ⟨h, nofun⟩
    · cases h

theorem reaches_of_reliable (h : Reaches (D.stepReliable threads) D.init s) :
    Reaches D.step D.init s :=
  h.invariant (.refl _) fun _ _ _ _ ht hstep => ht.tail (step_of_reliable hstep).1

/-- Where runs are bounded, a state leads to a stalled one without a failure. -/
theorem exists_stalled {bound : Nat} (threads : σ.Svc → Nat)
    (hbound : ∀ ls s, run D.step D.init ls = some s → busySteps ls ≤ bound)
    (hreach : Reaches D.step D.init s) :
    ∃ t, Reaches (D.stepReliable threads) s t ∧ Stalled D threads t := by
  obtain ⟨ls, hls⟩ := hreach
  induction hleft : bound - busySteps ls using Nat.strong_induction_on generalizing s ls with
  | _ n ih =>
    subst hleft
    by_cases hstalled : Stalled D threads s
    · exact ⟨s, .refl s, hstalled⟩
    · unfold Stalled at hstalled
      push Not at hstalled
      obtain ⟨l, hl, hnone⟩ := hstalled
      obtain ⟨t, hstep⟩ := Option.ne_none_iff_exists'.mp hnone
      have hbusy : (l.issuer.isSome || l.work.isSome) = true := by
        cases l with
        | tick => exact absurd rfl hl
        | issue | deliver | run | reply | fail => rfl
      have hrun : run D.step D.init (ls ++ [l]) = some t := by
        rw [run_append hls, run_cons (step_of_reliable hstep).1, run]
      have hmore : busySteps (ls ++ [l]) = busySteps ls + 1 := by
        simp [busySteps, hbusy]
      have hle := hbound _ _ hrun
      obtain ⟨u, htu, hstalled⟩ := ih _ (by omega) _ hrun rfl
      exact ⟨u, .head hstep htu, hstalled⟩

/-- What does not depend on the threads cannot happen any more. -/
theorem Stalled.stuck (hstalled : Stalled D threads s) {l : Label} (hl : l ≠ .tick)
    (hplain : D.stepReliable threads s l = D.step s l) : D.step s l ≠ some t := by
  rw [← hplain, hstalled l hl]
  exact (Option.some_ne_none t).symm

section Deadlock

variable {rank : σ.Op → Nat} {answers : σ.Op → σ.Val → Prop}
  (hcode : ∀ op, (D.code op).Behaves (fun op' => rank op' < rank op) answers (answers op)
    .unsent)
  (hlayer : ∀ op op', D.home op = D.home op' → rank op = rank op')
  (hthreads : ∀ svc, 0 < threads svc)
  (hreach : Reaches D.step D.init s)

include hcode hlayer hthreads hreach

/-- **No deadlock.** Where nothing can happen any more, no call is under way:
one thread for each service is enough. -/
theorem Stalled.returned (hstalled : Stalled D threads s) {c : CallId} {call : Call σ}
    (hcall : s.calls c = some call) : ∃ o, call.phase = .returned o := by
  induction hrank : rank call.op using Nat.strong_induction_on generalizing c call with
  | _ n ih =>
    subst hrank
    -- a handler of this layer waits for a call that has returned, so it can have the reply
    have hrunning : ∀ d (call' : Call σ) tid p, rank call'.op = rank call.op →
        s.calls d = some call' → call'.phase ≠ .running tid p := by
      intro d call' tid p hrank hcall' hphase
      rcases runs_or_waits hcode hreach hcall' hphase with
        ⟨s', hrun⟩ | ⟨callee, hcallee, hnone, hlt⟩
      · exact absurd hrun (hstalled.stuck nofun rfl)
      · obtain ⟨o, hreturned⟩ := ih _ (hrank ▸ hlt) hcallee rfl
        have hreply := step_of_steps (D := D) (.reply hcallee hreturned hnone)
        exact absurd hreply (hstalled.stuck nofun rfl)
    cases hphase : call.phase with
    | returned o => exact ⟨o, rfl⟩
    | running tid p => exact absurd hphase (hrunning c call tid p rfl hcall)
    | requested =>
      -- the first thread is taken, so by a handler of this layer
      cases hbusy : s.busy (D.home call.op) 0 with
      | false =>
        have hdeliver := step_of_steps (D := D) (.deliver hcall hphase hbusy)
        refine absurd hdeliver (hstalled.stuck nofun ?_)
        rw [stepReliable, hcall, Option.any_some, if_pos (by simpa using hthreads _)]
      | true =>
        obtain ⟨d, call', p, hcall', hphase', hhome⟩ := busy_reaches hreach hbusy
        exact absurd hphase' (hrunning d call' 0 p (hlayer _ _ hhome) hcall')

end Deadlock

-- ---------------------------------------------------------------------------
-- The requests of a process
-- ---------------------------------------------------------------------------

/-- The requests that were issued are there. -/
theorem issued_reaches (hreach : Reaches D.step D.init s) {p i : Nat} (hi : i < s.issued p) :
    ∃ call, s.calls ⟨⟨p, i⟩, 0⟩ = some call := by
  suffices ∀ i, i < s.issued p → ∃ call, s.calls ⟨⟨p, i⟩, 0⟩ = some call from this i hi
  clear hi i
  refine hreach.invariant
    (P := fun s => ∀ i, i < s.issued p → ∃ call, s.calls ⟨⟨p, i⟩, 0⟩ = some call) nofun ?_
  intro t l u ht ih hstep i hi
  have hold : i < t.issued p → ∃ call, u.calls ⟨⟨p, i⟩, 0⟩ = some call := by
    intro hi
    obtain ⟨call, hcall⟩ := ih i hi
    obtain ⟨call', hcall', -⟩ := (evolves_of_reaches ht hstep _).persists hcall
    exact ⟨call', hcall'⟩
  cases step_iff.mp hstep with
  | tick | deliver | reply | fail => exact hold hi
  | run hcall hphase hmove => cases hmove <;> exact hold hi
  | @issue q op =>
    change i < Function.update t.issued q (t.issued q + 1) p at hi
    by_cases hp : p = q
    · subst hp
      rw [Function.update_self] at hi
      rcases Nat.lt_succ_iff_lt_or_eq.mp hi with hi | rfl
      · exact hold hi
      · exact ⟨_, Function.update_self ..⟩
    · rw [Function.update_of_ne hp] at hi
      exact hold hi

/-- Where nothing can happen any more, a process has issued all its requests, or
waits for the answer to one that raised. -/
theorem Stalled.issued (hreach : Reaches D.step D.init s)
    (hstalled : Stalled D threads s)
    (hreturned : ∀ c call, s.calls c = some call → ∃ o, call.phase = .returned o)
    (hsends : ∀ p, ∀ op ∈ D.script p, ∀ t o, Ends (D.code op) t o → ∃ op', .start op' ∈ t)
    (p : Nat) :
    (D.script p).length ≤ s.issued p ∨
      (D.sequential p = true ∧ ∃ i call, s.issued p = i + 1 ∧
        s.calls ⟨⟨p, i⟩, 0⟩ = some call ∧ call.phase = .returned .raised) := by
  by_cases hlen : (D.script p).length ≤ s.issued p
  · exact .inl hlen
  right
  have hop := List.getElem?_eq_getElem (Nat.lt_of_not_le hlen)
  have hmay : D.mayIssue s p = false := by
    cases hmay : D.mayIssue s p with
    | false => rfl
    | true =>
      have hissue := step_of_steps (D := D) (.issue hop hmay)
      exact absurd hissue (hstalled.stuck nofun rfl)
  cases hi : s.issued p with
  | zero =>
    rw [mayIssue, hi] at hmay
    cases hmay
  | succ i =>
    obtain ⟨call, hcall⟩ := issued_reaches hreach (p := p) (i := i) (by omega)
    obtain ⟨o, hphase⟩ := hreturned _ call hcall
    simp only [mayIssue, hi] at hmay
    split at hmay
    · rename_i hseq
      refine ⟨hseq, i, call, rfl, hcall, ?_⟩
      rw [hcall, Option.any_some, Call.answered, hphase] at hmay
      cases o with
      | value v => cases hmay
      | raised => exact hphase
    · -- the handler at the root has made its call before it returned
      have hscript := List.mem_of_getElem? (scripted_reaches hreach ⟨p, i⟩ call hcall)
      obtain ⟨op', hstart⟩ := hsends p _ hscript _ _ (ends_of_returned hreach hcall hphase)
      obtain ⟨callee, hcallee, -⟩ := (started_reaches hreach _ op').mp hstart
      change s.calls ⟨⟨p, i⟩, 1⟩ = some callee at hcallee
      rw [hcallee] at hmay
      cases hmay

-- ---------------------------------------------------------------------------
-- Where no call fails
-- ---------------------------------------------------------------------------

/-- The call has not raised, and nobody was told that it had. -/
def Call.Unfailed (call : Call σ) : Prop :=
  call.phase ≠ .returned .raised ∧ call.outcome ≠ some .raised

def Unfailed (s : State σ) : Prop := ∀ c call, s.calls c = some call → call.Unfailed

omit [DecidableEq σ.Svc] in
theorem Unfailed.update {c : CallId} {call : Call σ} (h : Unfailed s)
    (hcalls : t.calls = Function.update s.calls c (some call)) (hcall : call.Unfailed) :
    Unfailed t := by
  intro d call' hcall'
  rw [hcalls] at hcall'
  by_cases hd : d = c
  · subst hd
    rw [Function.update_self] at hcall'
    cases hcall'
    exact hcall
  · rw [Function.update_of_ne hd] at hcall'
    exact h d call' hcall'

section Reliable

variable {rank : σ.Op → Nat} {answers : σ.Op → σ.Val → Prop}
  (hcode : ∀ op, (D.code op).Behaves (fun op' => rank op' < rank op) answers (answers op)
    .unsent)
  (hreach : Reaches (D.stepReliable threads) D.init s)

include hcode hreach

/-- Where no call fails, none raises. -/
theorem unfailed_reaches : Unfailed s := by
  refine hreach.invariant (P := Unfailed) nofun ?_
  intro t l u ht ih hstep
  obtain ⟨hstep, hl⟩ := step_of_reliable hstep
  have hmoved : ∀ {c : CallId} {call : Call σ} {tid : Nat} (k : Prog σ),
      t.calls c = some call → Unfailed (t.resume c call tid k) := by
    intro c call tid k hcall
    exact ih.update rfl ⟨nofun, (ih c call hcall).2⟩
  cases step_iff.mp hstep with
  | tick => exact ih
  | issue => exact ih.update rfl ⟨nofun, nofun⟩
  | deliver hcall => exact ih.update rfl ⟨nofun, (ih _ _ hcall).2⟩
  | fail => exact absurd rfl (hl _)
  | reply hcall hphase =>
    obtain ⟨hreturned, -⟩ := ih _ _ hcall
    refine ih.update rfl ⟨hreturned, fun ho => hreturned ?_⟩
    rw [hphase, Option.some.inj ho]
  | run hcall hphase hmove =>
    cases hmove with
    | record | findClient | newClient | sleep | await | access => exact hmoved _ hcall
    | start => exact (hmoved _ hcall).update rfl ⟨nofun, nofun⟩
    | ret => exact ih.update rfl ⟨nofun, (ih _ _ hcall).2⟩
    | abort hfailed =>
      obtain ⟨callee, hcallee, hraised⟩ := Option.bind_eq_some_iff.mp hfailed
      exact absurd hraised (ih _ _ hcallee).2
    | throw =>
      exact (behaves_of_running hcode (reaches_of_reliable ht) hcall hphase).elim

/-- **Where no call fails, every request is answered** by the time that nothing can
happen any more, and nothing below it is left. -/
theorem Stalled.answered (hstalled : Stalled D threads s)
    (hlayer : ∀ op op', D.home op = D.home op' → rank op = rank op')
    (hthreads : ∀ svc, 0 < threads svc)
    (hsends : ∀ p, ∀ op ∈ D.script p, ∀ t o, Ends (D.code op) t o → ∃ op', .start op' ∈ t)
    {p i : Nat} {op : σ.Op} (hop : (D.script p)[i]? = some op) :
    ∃ call v, s.calls ⟨⟨p, i⟩, 0⟩ = some call ∧ call.op = op ∧
      call.phase = .returned (.value v) ∧ answers op v := by
  have hplain := reaches_of_reliable hreach
  have hunfailed := unfailed_reaches hcode hreach
  have hreturned : ∀ c call, s.calls c = some call → ∃ o, call.phase = .returned o :=
    fun c call hcall => hstalled.returned hcode hlayer hthreads hplain hcall
  have hi : i < s.issued p := by
    have hlt := (List.getElem?_eq_some_iff.mp hop).1
    rcases hstalled.issued hplain hreturned hsends p with h | ⟨-, j, call, -, hcall, hraised⟩
    · omega
    · exact absurd hraised (hunfailed _ _ hcall).1
  obtain ⟨call, hcall⟩ := issued_reaches hplain hi
  obtain rfl : op = call.op :=
    Option.some.inj (hop.symm.trans (scripted_reaches hplain ⟨p, i⟩ call hcall))
  obtain ⟨o, hphase⟩ := hreturned _ call hcall
  cases o with
  | value v => exact ⟨call, v, hcall, rfl, hphase, answers_of_returned hcode hplain hcall hphase⟩
  | raised => exact absurd hphase (hunfailed _ _ hcall).1

end Reliable

end Rpc
