import MockMessageBoard.Lib.Rpc.Evolution

/-!
# Remote procedure calls — programs that differ in silent steps

Two handlers that perform the same observable actions, and differ only in when
they work locally and where they get their clients from, cannot be told apart:
every run of a system with the one is matched by a run of the system with the
other that performs the same actions at the same times on the same threads.

* `Sim`            — programs that differ only in silent steps;
* `Alike.catch_up` — a handler can be run up to its next observable action;
* `Alike.step`     — every step is matched;
* `alike_reaches`  — every run is matched.
-/

namespace Rpc

open Transition Deployment State

variable {σ : Signature}

/-- Two programs that differ only in silent steps. -/
inductive Sim : Prog σ → Prog σ → Prop
  | record {n k k'} (h : Sim k k') : Sim (.record n k) (.record n k')
  | start {op k k'} (h : Sim k k') : Sim (.start op k) (.start op k')
  | await {k k'} (h : ∀ v, Sim (k v) (k' v)) : Sim (.await k) (.await k')
  | access {a k k'} (h : ∀ w, Sim (k w) (k' w)) : Sim (.access a k) (.access a k')
  | ret {v} : Sim (.ret v) (.ret v)
  | throw : Sim .throw .throw
  | sleepLeft {k q} (h : Sim k q) : Sim (.sleep k) q
  | sleepRight {p k} (h : Sim p k) : Sim p (.sleep k)
  | findLeft {target k q} (h : ∀ b, Sim (k b) q) : Sim (.findClient target k) q
  | findRight {target p k} (h : ∀ b, Sim p (k b)) : Sim p (.findClient target k)
  | newLeft {target k q} (h : Sim k q) : Sim (.newClient target k) q
  | newRight {target p k} (h : Sim p k) : Sim p (.newClient target k)

namespace Sim

theorem symm {p q : Prog σ} (h : Sim p q) : Sim q p := by
  induction h with
  | record _ ih => exact .record ih
  | start _ ih => exact .start ih
  | await _ ih => exact .await ih
  | access _ ih => exact .access ih
  | ret => exact .ret
  | throw => exact .throw
  | sleepLeft _ ih => exact .sleepRight ih
  | sleepRight _ ih => exact .sleepLeft ih
  | findLeft _ ih => exact .findRight ih
  | findRight _ ih => exact .findLeft ih
  | newLeft _ ih => exact .newRight ih
  | newRight _ ih => exact .newLeft ih

theorem of_sleep {k q : Prog σ} (h : Sim (.sleep k) q) : Sim k q := by
  generalize hp : Prog.sleep k = p at h
  induction h with
  | sleepLeft h => cases hp; exact h
  | sleepRight _ ih => exact .sleepRight (ih hp)
  | findRight _ ih => exact .findRight fun b => ih b hp
  | newRight _ ih => exact .newRight (ih hp)
  | _ => cases hp

theorem of_findClient {target : σ.Svc} {k : Bool → Prog σ} {q : Prog σ}
    (h : Sim (.findClient target k) q) (b : Bool) : Sim (k b) q := by
  generalize hp : Prog.findClient target k = p at h
  induction h with
  | findLeft h => cases hp; exact h b
  | sleepRight _ ih => exact .sleepRight (ih hp)
  | findRight _ ih => exact .findRight fun b => ih b hp
  | newRight _ ih => exact .newRight (ih hp)
  | _ => cases hp

theorem of_newClient {target : σ.Svc} {k q : Prog σ} (h : Sim (.newClient target k) q) :
    Sim k q := by
  generalize hp : Prog.newClient target k = p at h
  induction h with
  | newLeft h => cases hp; exact h
  | sleepRight _ ih => exact .sleepRight (ih hp)
  | findRight _ ih => exact .findRight fun b => ih b hp
  | newRight _ ih => exact .newRight (ih hp)
  | _ => cases hp

end Sim

/-- Two programs with the same observable action in front. -/
inductive Heads : Prog σ → Prog σ → Prop
  | record {n k k'} (h : Sim k k') : Heads (.record n k) (.record n k')
  | start {op k k'} (h : Sim k k') : Heads (.start op k) (.start op k')
  | await {k k'} (h : ∀ v, Sim (k v) (k' v)) : Heads (.await k) (.await k')
  | access {a k k'} (h : ∀ w, Sim (k w) (k' w)) : Heads (.access a k) (.access a k')
  | ret {v} : Heads (.ret v) (.ret v)
  | throw : Heads .throw .throw

/-- The programs whose next step is silent. -/
def Prog.isSilent : Prog σ → Bool
  | .findClient .. | .newClient .. | .sleep _ => true
  | _ => false

/-- Phases, calls and states that agree but for silent steps. -/
inductive PhaseAlike : Phase σ → Phase σ → Prop
  | requested : PhaseAlike .requested .requested
  | running {tid p q} (h : Sim p q) : PhaseAlike (.running tid p) (.running tid q)
  | returned {o} : PhaseAlike (.returned o) (.returned o)

inductive CallAlike : Option (Call σ) → Option (Call σ) → Prop
  | absent : CallAlike none none
  | present {call : Call σ} {ph} (h : PhaseAlike call.phase ph) :
      CallAlike (some call) (some { call with phase := ph })

structure Alike (s t : State σ) : Prop where
  now : s.now = t.now
  issued : s.issued = t.issued
  calls : ∀ c, CallAlike (s.calls c) (t.calls c)
  busy : s.busy = t.busy
  store : s.store = t.store
  history : s.history = t.history

-- ---------------------------------------------------------------------------
-- Updates keep states alike
-- ---------------------------------------------------------------------------

variable {s t : State σ} {c : CallId} {call : Call σ}

theorem CallAlike.get {x y : Option (Call σ)} (h : CallAlike x y) (hx : x = some call) :
    ∃ ph, y = some { call with phase := ph } ∧ PhaseAlike call.phase ph := by
  subst hx
  cases h with
  | present h => exact ⟨_, rfl, h⟩

theorem CallAlike.outcome_eq {x y : Option (Call σ)} (h : CallAlike x y) :
    x.bind Call.outcome = y.bind Call.outcome := by
  cases h <;> rfl

theorem CallAlike.op_eq {x y : Option (Call σ)} (h : CallAlike x y) :
    x.map Call.op = y.map Call.op := by
  cases h <;> rfl

theorem CallAlike.eq_none {x y : Option (Call σ)} (h : CallAlike x y) (hx : x = none) :
    y = none := by
  subst hx
  cases h
  rfl

theorem CallAlike.isSome_eq {x y : Option (Call σ)} (h : CallAlike x y) :
    x.isSome = y.isSome := by
  cases h <;> rfl

theorem CallAlike.any_answered {x y : Option (Call σ)} (h : CallAlike x y) :
    x.any Call.answered = y.any Call.answered := by
  cases h with
  | absent => rfl
  | @present call ph hphase =>
    simp only [Option.any_some, Call.answered]
    generalize call.phase = ph₀ at hphase
    cases hphase <;> rfl

namespace Alike

theorem setCall (h : Alike s t) {ph ph' : Phase σ} (hph : PhaseAlike ph ph') :
    Alike (s.setCall c { call with phase := ph }) (t.setCall c { call with phase := ph' }) := by
  refine ⟨h.now, h.issued, fun d => ?_, h.busy, h.store, h.history⟩
  show CallAlike (Function.update s.calls c _ d) (Function.update t.calls c _ d)
  by_cases hd : d = c
  · subst hd
    rw [Function.update_self, Function.update_self]
    exact .present hph
  · rw [Function.update_of_ne hd, Function.update_of_ne hd]
    exact h.calls d

/-- The callers of calls that are alike are told the same. -/
theorem setOutcome (h : Alike s t) {ph : Phase σ} (hph : PhaseAlike call.phase ph)
    {o : Option (Outcome σ)} :
    Alike (s.setCall c { call with outcome := o })
      (t.setCall c { call with phase := ph, outcome := o }) :=
  @Alike.setCall σ s t c { call with outcome := o } h _ _ hph

theorem request (h : Alike s t) (op : σ.Op) :
    Alike (s.setCall c ⟨op, .requested, none⟩) (t.setCall c ⟨op, .requested, none⟩) :=
  @Alike.setCall σ s t c ⟨op, .requested, none⟩ h _ _ .requested

theorem emit (h : Alike s t) (svc : σ.Svc) (a : Act σ) :
    Alike (s.emit c svc a) (t.emit c svc a) := by
  refine ⟨h.now, h.issued, h.calls, h.busy, h.store, ?_⟩
  show s.history ++ _ = t.history ++ _
  rw [h.history, h.now]

theorem setStore (h : Alike s t) (store : σ.Store) :
    Alike { s with store := store } { t with store := store } :=
  ⟨h.now, h.issued, h.calls, h.busy, rfl, h.history⟩

theorem setBusy [DecidableEq σ.Svc] (h : Alike s t) (svc : σ.Svc) (tid : Nat) (b : Bool) :
    Alike (s.setBusy svc tid b) (t.setBusy svc tid b) := by
  refine ⟨h.now, h.issued, h.calls, ?_, h.store, h.history⟩
  unfold State.setBusy
  rw [h.busy]

theorem addClient_left [DecidableEq σ.Svc] (h : Alike s t) (svc : σ.Svc) (tid : Nat)
    (target : σ.Svc) : Alike (s.addClient svc tid target) t :=
  ⟨h.now, h.issued, h.calls, h.busy, h.store, h.history⟩

theorem addClient_right [DecidableEq σ.Svc] (h : Alike s t) (svc : σ.Svc) (tid : Nat)
    (target : σ.Svc) : Alike s (t.addClient svc tid target) :=
  ⟨h.now, h.issued, h.calls, h.busy, h.store, h.history⟩

/-- Replacing the program of a running call by one that differs in silent
steps keeps states alike. -/
theorem resume_left (h : Alike s t) {tid : Nat} {p q : Prog σ}
    (ht : t.calls c = some { call with phase := .running tid q }) (hpq : Sim p q) :
    Alike (s.resume c call tid p) t := by
  refine ⟨h.now, h.issued, fun d => ?_, h.busy, h.store, h.history⟩
  show CallAlike (Function.update s.calls c _ d) (t.calls d)
  by_cases hd : d = c
  · subst hd
    rw [Function.update_self, ht]
    exact .present (.running hpq)
  · rw [Function.update_of_ne hd]
    exact h.calls d

theorem resume_right (h : Alike s t) {tid : Nat} {p q : Prog σ}
    (hs : s.calls c = some { call with phase := .running tid p }) (hpq : Sim p q) :
    Alike s (t.resume c call tid q) := by
  refine ⟨h.now, h.issued, fun d => ?_, h.busy, h.store, h.history⟩
  show CallAlike (s.calls d) (Function.update t.calls c _ d)
  by_cases hd : d = c
  · subst hd
    rw [Function.update_self, hs]
    exact .present (.running hpq)
  · rw [Function.update_of_ne hd]
    exact h.calls d

end Alike

-- ---------------------------------------------------------------------------
-- Matching steps
-- ---------------------------------------------------------------------------

variable [DecidableEq σ.Svc] {D : Deployment σ} {code : σ.Op → Prog σ}

/-- The system with its handlers replaced. -/
def Deployment.withCode (D : Deployment σ) (code : σ.Op → Prog σ) : Deployment σ :=
  { D with code := code }

omit [DecidableEq σ.Svc] in
theorem Alike.mayIssue (h : Alike s t) (p : Nat) :
    D.mayIssue s p = (D.withCode code).mayIssue t p := by
  unfold Deployment.mayIssue
  rw [h.issued]
  split
  · rfl
  · rename_i i _
    rw [(h.calls ⟨⟨p, i⟩, 0⟩).any_answered, (h.calls ⟨⟨p, i⟩, 1⟩).isSome_eq]
    rfl

/-- If a handler is about to perform an observable action, its counterpart can
be run until it is about to perform the same one. -/
theorem Alike.catch_up (code : σ.Op → Prog σ) {tid : Nat} {p q : Prog σ} (hpq : Sim p q)
    (hp : p.isSilent = false) (h : Alike s t)
    (hs : s.calls c = some { call with phase := .running tid p })
    (ht : t.calls c = some { call with phase := .running tid q }) :
    ∃ t' q', Reaches (D.withCode code).step t t' ∧ Alike s t' ∧
      t'.calls c = some { call with phase := .running tid q' } ∧ Heads p q' := by
  induction hpq generalizing t with
  | record h' => exact ⟨t, _, .refl t, h, ht, .record h'⟩
  | start h' => exact ⟨t, _, .refl t, h, ht, .start h'⟩
  | await h' => exact ⟨t, _, .refl t, h, ht, .await h'⟩
  | access h' => exact ⟨t, _, .refl t, h, ht, .access h'⟩
  | ret => exact ⟨t, _, .refl t, h, ht, .ret⟩
  | throw => exact ⟨t, _, .refl t, h, ht, .throw⟩
  | sleepLeft | findLeft | newLeft => cases hp
  | @sleepRight p k h' ih =>
    have hmove : (D.withCode code).step t (.run c) = some (t.resume c call tid k) :=
      step_iff.mpr (.run ht rfl .sleep)
    obtain ⟨t', q', hreach, hrest⟩ := ih hp (h.resume_right hs h') hs (by simp [resume])
    exact ⟨t', q', hreach.head hmove, hrest⟩
  | @findRight target p k h' ih =>
    have hmove : (D.withCode code).step t (.run c) =
        some (t.resume c call tid (k (t.clients (D.home call.op) tid target))) :=
      step_iff.mpr (.run ht rfl .findClient)
    obtain ⟨t', q', hreach, hrest⟩ :=
      ih (t.clients (D.home call.op) tid target) hp
        (h.resume_right hs (h' (t.clients (D.home call.op) tid target))) hs (by simp [resume])
    exact ⟨t', q', hreach.head hmove, hrest⟩
  | @newRight target p k h' ih =>
    have hmove : (D.withCode code).step t (.run c) =
        some ((t.resume c call tid k).addClient (D.home call.op) tid target) :=
      step_iff.mpr (.run ht rfl .newClient)
    obtain ⟨t', q', hreach, hrest⟩ :=
      ih hp ((h.resume_right hs h').addClient_right (D.home call.op) tid target) hs
        (by simp [resume, addClient])
    exact ⟨t', q', hreach.head hmove, hrest⟩

variable {s' : State σ} {l : Label}

/-- What a handler does, its counterpart can do. -/
theorem Alike.moves {tid : Nat} {p q : Prog σ} (hpq : Sim p q) (h : Alike s t)
    (hs : s.calls c = some { call with phase := .running tid p })
    (ht : t.calls c = some { call with phase := .running tid q })
    (hmove : Moves D s c { call with phase := .running tid p } tid p s') :
    ∃ t', Reaches (D.withCode code).step t t' ∧ Alike s' t' := by
  cases hsilent : p.isSilent with
  | true =>
    -- the counterpart stays where it is
    cases hmove with
    | findClient => exact ⟨t, .refl t, h.resume_left ht (hpq.of_findClient _)⟩
    | newClient => exact ⟨t, .refl t, (h.resume_left ht hpq.of_newClient).addClient_left ..⟩
    | sleep => exact ⟨t, .refl t, h.resume_left ht hpq.of_sleep⟩
    | _ => cases hsilent
  | false =>
    obtain ⟨t', q', hreach, halike, ht', hheads⟩ :=
      h.catch_up code hpq hsilent hs ht
    have hrun : ∀ t'', Moves (D.withCode code) t' c { call with phase := .running tid q' } tid
        q' t'' → Reaches (D.withCode code).step t t'' :=
      fun t'' hmove' => hreach.tail (step_iff.mpr (.run ht' rfl hmove'))
    have hchild := halike.calls c.child
    have hleave : ∀ o, Alike (D.leave s c { call with phase := .running tid p } tid o)
        ((D.withCode code).leave t' c { call with phase := .running tid q' } tid o) :=
      fun o => ((halike.setCall .returned).setBusy ..).emit ..
    cases hmove with
    | findClient | newClient | sleep => cases hsilent
    | record =>
      obtain ⟨hk⟩ := hheads
      exact ⟨_, hrun _ .record, (halike.setCall (.running hk)).emit ..⟩
    | start hfree =>
      cases hheads with
      | start hk =>
        exact ⟨_, hrun _ (.start (hchild.eq_none hfree)),
          ((halike.setCall (.running hk)).request _).emit ..⟩
    | @await k v hreply =>
      cases hheads with
      | await hk =>
        exact ⟨_, hrun _ (.await (hchild.outcome_eq ▸ hreply)),
          (halike.setCall (.running (hk v))).emit ..⟩
    | abort hfailed =>
      cases hheads with
      | await hk => exact ⟨_, hrun _ (.abort (hchild.outcome_eq ▸ hfailed)), hleave _⟩
    | @access a k store w hexec =>
      cases hheads with
      | access hk =>
        exact ⟨_, hrun _ (.access (halike.store ▸ hexec)),
          ((halike.setCall (.running (hk w))).emit ..).setStore _⟩
    | ret =>
      cases hheads
      exact ⟨_, hrun _ .ret, hleave _⟩
    | throw =>
      cases hheads
      exact ⟨_, hrun _ .throw, hleave _⟩

theorem Alike.spawn (hsim : ∀ op, Sim (D.code op) (code op)) (h : Alike s t) (ph : Phase σ)
    (tid : Nat) :
    Alike (D.spawn s c call tid) ((D.withCode code).spawn t c { call with phase := ph } tid) :=
  (h.setCall (.running (hsim call.op))).setBusy ..

/-- Every step is matched by steps of the other system. -/
theorem Alike.step (hsim : ∀ op, Sim (D.code op) (code op)) (h : Alike s t)
    (hstep : D.step s l = some s') :
    ∃ t', Reaches (D.withCode code).step t t' ∧ Alike s' t' := by
  cases step_iff.mp hstep with
  | tick =>
    refine ⟨{ t with now := t.now + 1 }, .single (a := .tick) rfl, ?_⟩
    exact ⟨congrArg (· + 1) h.now, h.issued, h.calls, h.busy, h.store, h.history⟩
  | @issue p op hop hmay =>
    have hmay' : (D.withCode code).mayIssue t p = true := h.mayIssue p ▸ hmay
    have hop' : ((D.withCode code).script p)[t.issued p]? = some op := h.issued ▸ hop
    refine ⟨_, .single (step_iff.mpr (.issue hop' hmay')), ?_⟩
    have halike : Alike (D.spawn s ⟨⟨p, t.issued p⟩, 0⟩ ⟨op, .requested, none⟩ (t.issued p))
        ((D.withCode code).spawn t ⟨⟨p, t.issued p⟩, 0⟩ ⟨op, .requested, none⟩ (t.issued p)) :=
      h.spawn hsim .requested _
    unfold Deployment.issueCall
    rw [h.issued]
    exact ⟨halike.now, rfl, halike.calls, halike.busy, halike.store, halike.history⟩
  | @deliver c call tid hcall hphase hidle =>
    obtain ⟨ph, ht, hph⟩ := (h.calls c).get hcall
    rw [hphase] at hph
    cases hph
    have hidle' : t.busy (D.home call.op) tid = false := h.busy ▸ hidle
    exact ⟨_, .single (step_iff.mpr (.deliver ht rfl hidle')), h.spawn hsim .requested tid⟩
  | @run c call tid p _ hcall hphase hmove =>
    obtain ⟨ph, ht, hph⟩ := (h.calls c).get hcall
    obtain ⟨op, phase, outcome⟩ := call
    obtain rfl : phase = .running tid p := hphase
    cases hph with
    | running hpq =>
      exact @Alike.moves σ s t c ⟨op, .running tid p, outcome⟩ _ D code s' tid p _ hpq h hcall ht
        hmove
  | @reply c call o hcall hphase hnone =>
    obtain ⟨ph, ht, hph⟩ := (h.calls c.child).get hcall
    obtain ⟨op, phase, outcome⟩ := call
    obtain rfl : phase = .returned o := hphase
    cases hph
    exact ⟨_, .single (step_iff.mpr (.reply ht rfl hnone)), h.setOutcome .returned⟩
  | @fail c call hcall hnone =>
    obtain ⟨ph, ht, hph⟩ := (h.calls c.child).get hcall
    exact ⟨_, .single (step_iff.mpr (.fail ht hnone)), h.setOutcome hph⟩

/--
**Silent steps do not matter.** Every run of a system is matched by a run of
the system with handlers that differ only in silent steps: the same actions,
at the same times, in the same order, and the same calls with the same ends.
-/
theorem alike_reaches (hsim : ∀ op, Sim (D.code op) (code op))
    (hreach : Reaches D.step D.init s) :
    ∃ t, Reaches (D.withCode code).step (D.withCode code).init t ∧ Alike s t := by
  refine hreach.simulate ?_ fun s a s' t (h : Alike s t) hstep => h.step hsim hstep
  exact ⟨rfl, rfl, fun _ => .absent, rfl, rfl, rfl⟩

end Rpc
