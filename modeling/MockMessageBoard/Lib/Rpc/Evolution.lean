import MockMessageBoard.Lib.Rpc.Runtime

/-!
# Remote procedure calls — what a step changes

A step touches at most two calls and appends at most one action.

* `Steps.evolves` — what a step does to a given call;
* `Steps.grows`   — what it adds to the history, and when it changes the store;
* `Evolves.persists`, `Evolves.origin`, `Evolves.outcome_persists` — calls and
  what their callers were told are never forgotten, and appear for a reason;
* `history_extends` — a run appends to the history.
-/

namespace Rpc

open Transition Deployment State

variable {σ : Signature}

namespace State

/-- What the handler of `c` has done so far. -/
def eventsOf (s : State σ) (c : CallId) : List (Event σ) :=
  s.history.filter fun e => e.call = c

def trail (s : State σ) (c : CallId) : List (Act σ) := (s.eventsOf c).map Event.act

/-- A property that only actions of `c` have concerns only `eventsOf c`. -/
theorem filter_history {s : State σ} {c : CallId} {P : Event σ → Bool}
    (honly : ∀ e ∈ s.history, P e = true → e.call = c) :
    s.history.filter P = (s.eventsOf c).filter P := by
  rw [eventsOf, List.filter_filter]
  refine List.filter_congr fun e he => ?_
  cases hP : P e with
  | false => rfl
  | true => simp [honly e he hP]

@[simp] theorem emit_calls (s : State σ) (c : CallId) (svc : σ.Svc) (a : Act σ) :
    (s.emit c svc a).calls = s.calls := rfl

@[simp] theorem emit_history (s : State σ) (c : CallId) (svc : σ.Svc) (a : Act σ) :
    (s.emit c svc a).history = s.history ++ [⟨c, svc, s.history.length, s.now, a⟩] := rfl

@[simp] theorem setCall_calls (s : State σ) (c : CallId) (call : Call σ) :
    (s.setCall c call).calls = Function.update s.calls c (some call) := rfl

@[simp] theorem setCall_history (s : State σ) (c : CallId) (call : Call σ) :
    (s.setCall c call).history = s.history := rfl

@[simp] theorem setCall_trail (s : State σ) (c c' : CallId) (call : Call σ) :
    (s.setCall c call).trail c' = s.trail c' := rfl

theorem mem_eventsOf {s : State σ} {c : CallId} {e : Event σ} :
    e ∈ s.eventsOf c ↔ e ∈ s.history ∧ e.call = c := by
  simp [eventsOf]

theorem mem_trail {s : State σ} {c : CallId} {a : Act σ} :
    a ∈ s.trail c ↔ ∃ e ∈ s.history, e.call = c ∧ e.act = a := by
  simp [trail, mem_eventsOf, and_assoc]

theorem trail_emit (s : State σ) (c c' : CallId) (svc : σ.Svc) (a : Act σ) :
    (s.emit c svc a).trail c' = s.trail c' ++ if c = c' then [a] else [] := by
  by_cases hc : c = c'
  · simp [trail, eventsOf, hc]
  · simp [trail, eventsOf, hc]

end State

/-- The phase of a call whose handler is at a control point. -/
def Control.phase (tid : Nat) : Control σ → Phase σ
  | .running p => .running tid p
  | .returned o => .returned o

variable {D : Deployment σ} {s s' : State σ} {l : Label}

-- ---------------------------------------------------------------------------
-- What a step does to one call, and to the history
-- ---------------------------------------------------------------------------

/-- What a step does to the call `c`. -/
inductive Evolves (D : Deployment σ) (s s' : State σ) (c : CallId) : Prop
  | same (hcalls : s'.calls c = s.calls c) (htrail : s'.trail c = s.trail c)
  | created (call : Call σ) (hnone : s.calls c = none) (hcall : s'.calls c = some call)
      (houtcome : call.outcome = none)
      (hphase : call.phase = .requested ∨ ∃ tid, call.phase = .running tid (D.code call.op))
      (horigin : (∃ d, c = d.child ∧ .start call.op ∈ s'.trail d) ∨
        ∃ p, c = ⟨⟨p, s.issued p⟩, 0⟩ ∧ (D.script p)[s.issued p]? = some call.op ∧
          s'.issued p = s.issued p + 1)
      (htrail : s'.trail c = s.trail c)
  | delivered {call} (tid : Nat) (hcall : s.calls c = some call) (hphase : call.phase = .requested)
      (hcall' : s'.calls c = some { call with phase := .running tid (D.code call.op) })
      (htrail : s'.trail c = s.trail c)
  | settled {call} (o : Outcome σ) (hcall : s.calls c = some call) (hnone : call.outcome = none)
      (hreply : ∀ v, o = .value v → call.phase = .returned (.value v))
      (hcall' : s'.calls c = some { call with outcome := some o })
      (htrail : s'.trail c = s.trail c)
  | moved {call tid p a x} (hcall : s.calls c = some call)
      (hphase : call.phase = .running tid p) (hnext : Next p a x)
      (hcall' : s'.calls c = some { call with phase := x.phase tid })
      (htrail : s'.trail c = s.trail c ++ a.toList)

/-- What a step adds to the history, and to the store. -/
inductive Grows (D : Deployment σ) (s s' : State σ) : Prop
  | same (hhistory : s'.history = s.history) (hstore : s'.store = s.store)
  | event {c call tid p a x} (hcall : s.calls c = some call)
      (hphase : call.phase = .running tid p) (hnext : Next p (some a) x)
      (hhistory : s'.history = s.history ++ [⟨c, D.home call.op, s.history.length, s.now, a⟩])
      (hstart : ∀ op, a = .start op →
        s.calls c.child = none ∧ s'.calls c.child = some ⟨op, .requested, none⟩)
      (hawait : ∀ v, a = .await v → ∃ callee, s.calls c.child = some callee ∧
        callee.outcome = some (.value v))
      (haccess : ∀ b w, a = .access b w → D.exec b s.store = (s'.store, w))
      (hstore : (∀ b w, a ≠ .access b w) → s'.store = s.store)

/-- The root of a request that was not issued yet does not exist. -/
def Fresh (s : State σ) : Prop := ∀ p i, s.issued p ≤ i → s.calls ⟨⟨p, i⟩, 0⟩ = none

namespace Evolves

variable {c : CallId}

/-- Calls stay, with their arguments. -/
theorem persists (h : Evolves D s s' c) {call : Call σ} (hcall : s.calls c = some call) :
    ∃ call', s'.calls c = some call' ∧ call'.op = call.op := by
  cases h with
  | same hcalls => exact ⟨call, hcalls.trans hcall, rfl⟩
  | created _ hnone => rw [hnone] at hcall; cases hcall
  | delivered _ hcall₀ _ hcall' | settled _ hcall₀ _ _ hcall' | moved hcall₀ _ _ hcall' =>
    rw [hcall₀] at hcall
    cases hcall
    exact ⟨_, hcall', rfl⟩

/-- A call that is there was there before, or has just been created. -/
theorem origin (h : Evolves D s s' c) {call : Call σ} (hcall : s'.calls c = some call) :
    (∃ call₀, s.calls c = some call₀ ∧ call₀.op = call.op) ∨
      (∃ d, c = d.child ∧ .start call.op ∈ s'.trail d) ∨
      ∃ p, c = ⟨⟨p, s.issued p⟩, 0⟩ ∧ (D.script p)[s.issued p]? = some call.op ∧
        s'.issued p = s.issued p + 1 := by
  cases h with
  | same hcalls => exact .inl ⟨call, hcalls.symm.trans hcall, rfl⟩
  | created _ _ hcall' _ _ horigin =>
    rw [hcall'] at hcall
    cases hcall
    exact .inr horigin
  | delivered _ hcall₀ _ hcall' | settled _ hcall₀ _ _ hcall' | moved hcall₀ _ _ hcall' =>
    rw [hcall'] at hcall
    cases hcall
    exact .inl ⟨_, hcall₀, rfl⟩

/-- What a caller has been told stays. -/
theorem outcome_persists (h : Evolves D s s' c) {call : Call σ} {o : Outcome σ}
    (hcall : s.calls c = some call) (ho : call.outcome = some o) :
    ∃ call', s'.calls c = some call' ∧ call'.outcome = some o := by
  cases h with
  | same hcalls => exact ⟨call, hcalls.trans hcall, ho⟩
  | created _ hnone => rw [hnone] at hcall; cases hcall
  | delivered _ hcall₀ _ hcall' | moved hcall₀ _ _ hcall' =>
    rw [hcall₀] at hcall
    cases hcall
    exact ⟨_, hcall', ho⟩
  | settled _ hcall₀ hnone =>
    rw [hcall₀] at hcall
    cases hcall
    rw [hnone] at ho
    cases ho

theorem trail_mono (h : Evolves D s s' c) {a : Act σ} (ha : a ∈ s.trail c) :
    a ∈ s'.trail c := by
  cases h with
  | same _ htrail | created _ _ _ _ _ _ htrail | delivered _ _ _ _ htrail
  | settled _ _ _ _ _ htrail => exact htrail ▸ ha
  | moved _ _ _ _ htrail => exact htrail ▸ List.mem_append_left _ ha

end Evolves

variable [DecidableEq σ.Svc]

/-- What a move of the handler of `c` does to all calls. -/
theorem Moves.evolves {c : CallId} {call : Call σ} {tid : Nat} {p : Prog σ}
    (h : Moves D s c call tid p s') (hcall : s.calls c = some call)
    (hphase : call.phase = .running tid p) (d : CallId) : Evolves D s s' d := by
  by_cases hd : d = c
  · subst hd
    have hchild : d ≠ d.child := d.child_ne.symm
    cases h with
    | record =>
      exact .moved hcall hphase .record (by simp [resume, Control.phase])
        (by rw [trail_emit, if_pos rfl]; rfl)
    | @findClient target k =>
      exact .moved hcall hphase (.findClient (s.clients (D.home call.op) tid target))
        (by simp [resume, Control.phase])
        (List.append_nil _).symm
    | newClient =>
      exact .moved hcall hphase .newClient (by simp [resume, addClient, Control.phase])
        (List.append_nil _).symm
    | start =>
      exact .moved hcall hphase .start (by simp [resume, Control.phase, hchild])
        (by rw [trail_emit, if_pos rfl]; rfl)
    | sleep =>
      exact .moved hcall hphase .sleep (by simp [resume, Control.phase])
        (List.append_nil _).symm
    | @await k v =>
      exact .moved hcall hphase (.await v) (by simp [resume, Control.phase])
        (by rw [trail_emit, if_pos rfl]; rfl)
    | abort =>
      exact .moved hcall hphase .abort (by simp [leave, setBusy, Control.phase])
        (by rw [leave, trail_emit, if_pos rfl]; rfl)
    | @access a k store w =>
      exact .moved hcall hphase (.access w) (by simp [resume, Control.phase])
        ((trail_emit ..).trans (by rw [if_pos rfl]; rfl))
    | ret =>
      exact .moved hcall hphase .ret (by simp [leave, setBusy, Control.phase])
        (by rw [leave, trail_emit, if_pos rfl]; rfl)
    | throw =>
      exact .moved hcall hphase .throw (by simp [leave, setBusy, Control.phase])
        (by rw [leave, trail_emit, if_pos rfl]; rfl)
  · have hcd : ¬c = d := fun h => hd h.symm
    cases h with
    | record | await =>
      exact .same (by simp [resume, hd])
        (by rw [trail_emit, if_neg hcd, List.append_nil]; rfl)
    | findClient | sleep => exact .same (by simp [resume, hd]) rfl
    | newClient => exact .same (by simp [resume, addClient, hd]) rfl
    | access =>
      exact .same (by simp [resume, hd])
        ((trail_emit ..).trans (by rw [if_neg hcd, List.append_nil]; rfl))
    | abort | ret | throw =>
      exact .same (by simp [leave, setBusy, hd])
        (by rw [leave, trail_emit, if_neg hcd, List.append_nil]; rfl)
    | @start op k hfree =>
      by_cases hchild : d = c.child
      · subst hchild
        exact .created ⟨op, .requested, none⟩ hfree (by simp) rfl (.inl rfl)
          (.inl ⟨c, rfl, by rw [trail_emit, if_pos rfl]; simp⟩)
          (by rw [trail_emit, if_neg hcd, List.append_nil]; rfl)
      · exact .same (by simp [resume, hd, hchild])
          (by rw [trail_emit, if_neg hcd, List.append_nil]; rfl)

theorem Steps.evolves (hfresh : Fresh s) (h : Steps D s l s') (c : CallId) :
    Evolves D s s' c := by
  cases h with
  | tick => exact .same rfl rfl
  | @issue p op hop hmay =>
    by_cases hc : c = ⟨⟨p, s.issued p⟩, 0⟩
    · subst hc
      exact .created ⟨op, .running (s.issued p) (D.code op), none⟩ (hfresh _ _ le_rfl)
        (by simp [issueCall, spawn, resume, setBusy]) rfl (.inr ⟨_, rfl⟩)
        (.inr ⟨p, rfl, hop, by simp [issueCall]⟩) rfl
    · exact .same (by simp [issueCall, spawn, resume, setBusy, hc]) rfl
  | @deliver d call tid hcall hphase hidle =>
    by_cases hc : c = d
    · subst hc
      exact .delivered tid hcall hphase (by simp [spawn, resume, setBusy]) rfl
    · exact .same (by simp [spawn, resume, setBusy, hc]) rfl
  | run hcall hphase hmove => exact hmove.evolves hcall hphase c
  | @reply d call o hcall hphase hnone =>
    by_cases hc : c = d.child
    · subst hc
      exact .settled o hcall hnone (fun v hv => hv ▸ hphase) (by simp [settle]) rfl
    · exact .same (by simp [settle, hc]) rfl
  | @fail d call hcall hnone =>
    by_cases hc : c = d.child
    · subst hc
      exact .settled .raised hcall hnone (by nofun) (by simp [settle]) rfl
    · exact .same (by simp [settle, hc]) rfl

theorem Steps.grows (h : Steps D s l s') : Grows D s s' := by
  cases h with
  | tick | issue | deliver | reply | fail => exact .same rfl rfl
  | run hcall hphase hmove =>
    cases hmove with
    | findClient | newClient | sleep => exact .same rfl rfl
    | record => exact .event hcall hphase .record rfl (by nofun) (by nofun) (by nofun) fun _ => rfl
    | start hfree =>
      refine .event hcall hphase .start rfl ?_ (by nofun) (by nofun) fun _ => rfl
      intro op hop
      cases hop
      exact ⟨hfree, by simp⟩
    | await hreply =>
      refine .event hcall hphase (.await _) rfl (by nofun) ?_ (by nofun) fun _ => rfl
      intro v hv
      cases hv
      exact Option.bind_eq_some_iff.mp hreply
    | abort => exact .event hcall hphase .abort rfl (by nofun) (by nofun) (by nofun) fun _ => rfl
    | access hexec =>
      refine .event hcall hphase (.access _) rfl (by nofun) (by nofun) ?_
        fun hne => absurd rfl (hne _ _)
      intro b w hbw
      cases hbw
      exact hexec
    | ret => exact .event hcall hphase .ret rfl (by nofun) (by nofun) (by nofun) fun _ => rfl
    | throw => exact .event hcall hphase .throw rfl (by nofun) (by nofun) (by nofun) fun _ => rfl

theorem grows_of_step (h : D.step s l = some s') : Grows D s s' := (step_iff.mp h).grows

theorem Steps.now_le (h : Steps D s l s') : s.now ≤ s'.now := by
  cases h with
  | tick => exact Nat.le_succ _
  | issue | deliver | reply | fail => exact le_rfl
  | run hcall hphase hmove => cases hmove <;> exact le_rfl

theorem Steps.issued_le (h : Steps D s l s') (p : Nat) : s.issued p ≤ s'.issued p := by
  cases h with
  | tick | deliver | reply | fail => exact le_rfl
  | @issue q =>
    show s.issued p ≤ Function.update s.issued q (s.issued q + 1) p
    by_cases hp : p = q
    · subst hp
      rw [Function.update_self]
      exact Nat.le_succ _
    · rw [Function.update_of_ne hp]
  | run hcall hphase hmove => cases hmove <;> exact le_rfl

/-- What happens from `s` on is appended to the history, and stamped no earlier
than `s`. -/
def Extends (s s' : State σ) : Prop :=
  s.now ≤ s'.now ∧ ∃ es, s'.history = s.history ++ es ∧ ∀ e ∈ es, s.now ≤ e.time

theorem history_extends (h : Reaches D.step s s') : Extends s s' := by
  refine h.invariant ⟨le_rfl, [], (List.append_nil _).symm, nofun⟩ ?_
  rintro t l u - ⟨hnow, es, hes, htimes⟩ hstep
  refine ⟨hnow.trans (step_iff.mp hstep).now_le, ?_⟩
  cases grows_of_step hstep with
  | same hhistory => exact ⟨es, hhistory.trans hes, htimes⟩
  | @event c call tid p a x _ _ _ hhistory =>
    refine ⟨es ++ [⟨c, D.home call.op, t.history.length, t.now, a⟩], ?_, fun e he => ?_⟩
    · rw [hhistory, ← List.append_assoc, ← hes]
    · rcases List.mem_append.mp he with he | he
      · exact htimes e he
      · obtain rfl := List.mem_singleton.mp he
        exact hnow

end Rpc
