import MockMessageBoard.Lib.Rpc.Causality

/-!
# Remote procedure calls — threads and their clients

A thread runs one handler at a time, so what a service keeps for each thread is
touched by one handler at a time, although all handlers share the table. A handler
that looks its thread up before it makes a call finds what the last handler on the
thread has left there.

* `Steps.occupies`   — what a step does to the threads;
* `threaded_reaches` — a thread runs one handler, whose table is as its code needs it;
* `count_creations`  — so no client is made twice.
-/

namespace Rpc

open Transition Deployment State

variable {σ : Signature}

/-- The handler of `c` is on a thread, about to perform `p`. -/
def OnThread (D : Deployment σ) (s : State σ) (c : CallId) (svc : σ.Svc) (tid : Nat)
    (p : Prog σ) : Prop :=
  ∃ call, s.calls c = some call ∧ call.phase = .running tid p ∧ D.home call.op = svc

variable {D : Deployment σ} {s t : State σ}

/-- Replacing a call leaves the other handlers where they are. -/
theorem onThread_update {c d : CallId} {call : Call σ} {svc : σ.Svc} {tid : Nat} {p : Prog σ}
    (hcalls : t.calls = Function.update s.calls c (some call)) (h : OnThread D t d svc tid p) :
    (d = c ∧ call.phase = .running tid p ∧ D.home call.op = svc) ∨
      (d ≠ c ∧ OnThread D s d svc tid p) := by
  obtain ⟨found, hfound, hphase, hhome⟩ := h
  rw [hcalls] at hfound
  by_cases hd : d = c
  · subst hd
    rw [Function.update_self] at hfound
    cases hfound
    exact .inl ⟨rfl, hphase, hhome⟩
  · rw [Function.update_of_ne hd] at hfound
    exact .inr ⟨hd, found, hfound, hphase, hhome⟩

-- ---------------------------------------------------------------------------
-- The table of a thread
-- ---------------------------------------------------------------------------

variable [DecidableEq σ.Svc]

/-- How a handler goes on, and the clients of its thread then. -/
inductive Turns (has : σ.Svc → Bool) : Prog σ → Prog σ → (σ.Svc → Bool) → Prop
  | record {n k} : Turns has (.record n k) k has
  | findClient {target k} : Turns has (.findClient target k) (k (has target)) has
  | newClient {target k} :
      Turns has (.newClient target k) k fun target' =>
        if target' = target then true else has target'
  | start {op k} : Turns has (.start op k) k has
  | sleep {k} : Turns has (.sleep k) k has
  | await {k v} : Turns has (.await k) (k v) has
  | access {a k w} : Turns has (.access a k) (k w) has

/-- The handler makes a client only if the thread has none, and a call only if it has one. -/
def Prog.Equips (home : σ.Op → σ.Svc) (has : σ.Svc → Bool) : Prog σ → Prop
  | .record _ k => k.Equips home has
  | .findClient target k => (k (has target)).Equips home has
  | .newClient target k =>
    has target = false ∧ k.Equips home fun target' => if target' = target then true else has target'
  | .start op k => has (home op) = true ∧ k.Equips home has
  | .sleep k => k.Equips home has
  | .await k => ∀ v, (k v).Equips home has
  | .access _ k => ∀ w, (k w).Equips home has
  | .ret _ => True
  | .throw => True

theorem Turns.equips {home : σ.Op → σ.Svc} {has has' : σ.Svc → Bool} {p q : Prog σ}
    (h : Turns has p q has') (hp : p.Equips home has) : q.Equips home has' := by
  cases h with
  | record | findClient | sleep => exact hp
  | newClient | start => exact hp.2
  | await | access => exact hp _

/-- Clients stay. -/
theorem Turns.mono {has has' : σ.Svc → Bool} {p q : Prog σ} (h : Turns has p q has')
    {target : σ.Svc} (htarget : has target = true) : has' target = true := by
  cases h with
  | newClient =>
    dsimp only
    split
    · rfl
    · exact htarget
  | _ => exact htarget

-- ---------------------------------------------------------------------------
-- What a step does to the threads
-- ---------------------------------------------------------------------------

/-- What a step does to the threads: nothing; or it puts a handler on one, moves one
on, or takes one off. -/
inductive Occupies (D : Deployment σ) (s t : State σ) : Prop
  | same (hon : ∀ d svc tid p, OnThread D t d svc tid p → OnThread D s d svc tid p)
      (hbusy : t.busy = s.busy) (hclients : t.clients = s.clients)
  | spawned {c call tid} (hcall : t.calls c = some call)
      (hphase : call.phase = .running tid (D.code call.op))
      (hfree : s.busy (D.home call.op) tid = false ∨ c.depth = 0 ∧ s.calls c = none)
      (hon : ∀ d svc tid' p, OnThread D t d svc tid' p →
        (d = c ∧ svc = D.home call.op ∧ tid' = tid ∧ p = D.code call.op) ∨
          (d ≠ c ∧ OnThread D s d svc tid' p))
      (hbusy : t.busy = (s.setBusy (D.home call.op) tid true).busy)
      (hclients : t.clients = s.clients)
  | moved {c call tid p q} (hcall : s.calls c = some call) (hphase : call.phase = .running tid p)
      (hturn : Turns (s.clients (D.home call.op) tid) p q (t.clients (D.home call.op) tid))
      (hon : ∀ d svc tid' p', OnThread D t d svc tid' p' →
        (d = c ∧ svc = D.home call.op ∧ tid' = tid ∧ p' = q) ∨ (d ≠ c ∧ OnThread D s d svc tid' p'))
      (hbusy : t.busy = s.busy)
      (hothers : ∀ svc tid', ¬(svc = D.home call.op ∧ tid' = tid) →
        t.clients svc tid' = s.clients svc tid')
  | left {c call tid p} (hcall : s.calls c = some call) (hphase : call.phase = .running tid p)
      (hon : ∀ d svc tid' p', OnThread D t d svc tid' p' → d ≠ c ∧ OnThread D s d svc tid' p')
      (hbusy : t.busy = (s.setBusy (D.home call.op) tid false).busy)
      (hclients : t.clients = s.clients)

/-- A handler that is on no thread is put on one. -/
theorem Occupies.spawn {c : CallId} {call : Call σ} {tid : Nat}
    (hfree : s.busy (D.home call.op) tid = false ∨ c.depth = 0 ∧ s.calls c = none)
    {t : State σ} (hcalls : t.calls = (D.spawn s c call tid).calls)
    (hbusy : t.busy = (D.spawn s c call tid).busy)
    (hclients : t.clients = (D.spawn s c call tid).clients) : Occupies D s t := by
  change t.calls = Function.update s.calls c
    (some { call with phase := .running tid (D.code call.op) }) at hcalls
  have hcall : t.calls c = some { call with phase := .running tid (D.code call.op) } := by
    rw [hcalls, Function.update_self]
  refine .spawned hcall rfl hfree (fun d svc tid' p hon => ?_) hbusy hclients
  rcases onThread_update hcalls hon with ⟨rfl, hphase, rfl⟩ | hold
  · cases hphase
    exact .inl ⟨rfl, rfl, rfl, rfl⟩
  · exact .inr hold

/-- A call that is on no thread is replaced by one that is on none. -/
theorem Occupies.settle {c : CallId} {call : Call σ} {o : Outcome σ}
    (hcall : s.calls c = some call) : Occupies D s (s.settle c call o) := by
  refine .same (fun d svc tid p hon => ?_) rfl rfl
  rcases onThread_update rfl hon with ⟨rfl, hphase, hhome⟩ | ⟨-, hold⟩
  · exact ⟨call, hcall, hphase, hhome⟩
  · exact hold

theorem Moves.occupies {c : CallId} {call : Call σ} {tid : Nat} {p : Prog σ}
    (h : Moves D s c call tid p t) (hcall : s.calls c = some call)
    (hphase : call.phase = .running tid p) : Occupies D s t := by
  have hgoes : ∀ {u : State σ} {q : Prog σ}, Turns (s.clients (D.home call.op) tid) p q
        (u.clients (D.home call.op) tid) →
      u.calls = (s.resume c call tid q).calls → u.busy = s.busy →
      (∀ svc tid', ¬(svc = D.home call.op ∧ tid' = tid) → u.clients svc tid' = s.clients svc tid') →
      Occupies D s u := by
    intro u q hturn hcalls hbusy hothers
    refine .moved hcall hphase hturn (fun d svc tid' p' hon => ?_) hbusy hothers
    rcases onThread_update hcalls hon with ⟨rfl, hphase', rfl⟩ | hold
    · cases hphase'
      exact .inl ⟨rfl, rfl, rfl, rfl⟩
    · exact .inr hold
  have hleaves : ∀ o, Occupies D s (D.leave s c call tid o) := by
    intro o
    refine .left hcall hphase (fun d svc tid' p' hon => ?_) rfl rfl
    rcases onThread_update rfl hon with ⟨rfl, hphase', rfl⟩ | hold
    · cases hphase'
    · exact hold
  cases h with
  | record => exact hgoes .record rfl rfl fun _ _ _ => rfl
  | findClient => exact hgoes .findClient rfl rfl fun _ _ _ => rfl
  | sleep => exact hgoes .sleep rfl rfl fun _ _ _ => rfl
  | await => exact hgoes .await rfl rfl fun _ _ _ => rfl
  | access => exact hgoes .access rfl rfl fun _ _ _ => rfl
  | abort | ret | throw => exact hleaves _
  | @newClient target k =>
    refine hgoes (q := k) ?_ rfl rfl fun svc tid' hother => ?_
    · have hadd : (fun target' => if target' = target then true
          else s.clients (D.home call.op) tid target') =
          ((s.resume c call tid k).addClient (D.home call.op) tid target).clients
            (D.home call.op) tid := by
        funext target'
        simp [addClient, resume, setCall]
      exact hadd ▸ .newClient
    · funext target'
      exact if_neg fun h => hother ⟨h.1, h.2.1⟩
  | @start op k hfree =>
    refine .moved hcall hphase .start (fun d svc tid' p' hon => ?_) rfl fun _ _ _ => rfl
    rcases onThread_update (s := s.resume c call tid k) rfl hon with ⟨-, hphase', -⟩ | ⟨-, hon'⟩
    · cases hphase'
    · rcases onThread_update rfl hon' with ⟨rfl, hphase', rfl⟩ | hold
      · cases hphase'
        exact .inl ⟨rfl, rfl, rfl, rfl⟩
      · exact .inr hold

theorem Steps.occupies {l : Label} (hfresh : Fresh s) (h : Steps D s l t) : Occupies D s t := by
  cases h with
  | tick => exact .same (fun _ _ _ _ hon => hon) rfl rfl
  | issue => exact .spawn (.inr ⟨rfl, hfresh _ _ le_rfl⟩) rfl rfl rfl
  | deliver hcall hphase hidle => exact .spawn (.inl hidle) rfl rfl rfl
  | run hcall hphase hmove => exact hmove.occupies hcall hphase
  | reply hcall | fail hcall => exact .settle hcall

/-- The requests of the processes run on threads of their own from the start. -/
def Rooted (s : State σ) : Prop :=
  ∀ r call, s.calls ⟨r, 0⟩ = some call →
    call.phase ≠ .requested ∧ ∀ tid p, call.phase = .running tid p → tid = r.index

omit [DecidableEq σ.Svc] in
theorem Rooted.update {c : CallId} {call : Call σ} (h : Rooted s)
    (hcalls : t.calls = Function.update s.calls c (some call))
    (hcall : c.depth = 0 → call.phase ≠ .requested ∧
      ∀ tid p, call.phase = .running tid p → tid = c.request.index) : Rooted t := by
  intro r found hfound
  rw [hcalls] at hfound
  by_cases hc : ⟨r, 0⟩ = c
  · subst hc
    rw [Function.update_self] at hfound
    cases hfound
    exact hcall rfl
  · rw [Function.update_of_ne hc] at hfound
    exact h r found hfound

theorem Moves.rooted {c : CallId} {call : Call σ} {tid : Nat} {p : Prog σ}
    (h : Moves D s c call tid p t) (hcall : s.calls c = some call)
    (hphase : call.phase = .running tid p) (hroot : Rooted s) : Rooted t := by
  have htid : c.depth = 0 → tid = c.request.index := by
    intro hdepth
    obtain ⟨r, d⟩ := c
    obtain rfl : d = 0 := hdepth
    exact (hroot r call hcall).2 tid p hphase
  have hgoes : ∀ {u : State σ} {q : Prog σ},
      u.calls = (s.resume c call tid q).calls → Rooted u := by
    intro u q hcalls
    refine hroot.update hcalls fun hdepth => ⟨nofun, fun tid' p' hphase' => ?_⟩
    cases hphase'
    exact htid hdepth
  have hleaves : ∀ o, Rooted (D.leave s c call tid o) :=
    fun o => hroot.update rfl fun _ => ⟨nofun, nofun⟩
  cases h with
  | record | findClient | newClient | sleep | await | access => exact hgoes rfl
  | abort | ret | throw => exact hleaves _
  | start =>
    exact (hgoes (u := s.resume c call tid _) rfl).update rfl
      fun hdepth => absurd hdepth (Nat.succ_ne_zero _)

theorem rooted_reaches (hreach : Reaches D.step D.init s) : Rooted s := by
  refine hreach.invariant (P := Rooted) nofun ?_
  intro s l t _ hroot hstep
  cases step_iff.mp hstep with
  | tick => exact hroot
  | issue =>
    refine hroot.update rfl fun _ => ⟨nofun, fun tid p hphase => ?_⟩
    cases hphase
    rfl
  | @deliver c call tid hcall hphase =>
    refine hroot.update rfl fun hdepth => ?_
    obtain ⟨r, d⟩ := c
    obtain rfl : d = 0 := hdepth
    exact absurd hphase (hroot r call hcall).1
  | run hcall hphase hmove => exact hmove.rooted hcall hphase hroot
  | reply | fail => exact hroot.update rfl fun hdepth => absurd hdepth (Nat.succ_ne_zero _)

-- ---------------------------------------------------------------------------
-- One handler at a time
-- ---------------------------------------------------------------------------

/-- The processes have services of their own, which are not called. -/
def Apart (D : Deployment σ) (owner : σ.Svc → Option Nat) : Prop :=
  ∀ s, Reaches D.step D.init s → ∀ c call, s.calls c = some call →
    owner (D.home call.op) = if c.depth = 0 then some c.request.proc else none

/-- A thread runs one handler; the table of a thread is as its handler needs it, if its
service is one of the `served` ones. -/
structure Threaded (D : Deployment σ) (served : σ.Svc → Prop) (s : State σ) : Prop where
  busy : ∀ c svc tid p, OnThread D s c svc tid p → s.busy svc tid = true
  alone : ∀ c c' svc tid p p', OnThread D s c svc tid p → OnThread D s c' svc tid p' → c = c'
  equipped : ∀ c svc tid p, OnThread D s c svc tid p → served svc →
    p.Equips D.home (s.clients svc tid)

/-- A handler is put on a thread that runs none. -/
theorem idle_of_spawned {served : σ.Svc → Prop} {owner : σ.Svc → Option Nat}
    (hapart : Apart D owner) (hs : Reaches D.step D.init s) (ht : Reaches D.step D.init t)
    (h : Threaded D served s) {c : CallId} {call : Call σ} {tid : Nat}
    (hcall : t.calls c = some call) (hphase : call.phase = .running tid (D.code call.op))
    (hfree : s.busy (D.home call.op) tid = false ∨ c.depth = 0 ∧ s.calls c = none)
    {d : CallId} {p : Prog σ} : ¬OnThread D s d (D.home call.op) tid p := by
  intro hold
  rcases hfree with hidle | ⟨hdepth, hnone⟩
  · rw [h.busy d _ tid p hold] at hidle
    cases hidle
  · obtain ⟨other, hother, hphase', hhome⟩ := hold
    -- both are requests of one process, and have the same number
    have howner := hapart t ht c call hcall
    rw [← hhome, hapart s hs d other hother, if_pos hdepth] at howner
    split at howner
    · rename_i hdepth'
      obtain ⟨⟨proc, index⟩, depth⟩ := c
      obtain ⟨⟨proc', index'⟩, depth'⟩ := d
      obtain rfl : depth = 0 := hdepth
      obtain rfl : depth' = 0 := hdepth'
      obtain rfl : proc' = proc := Option.some.inj howner
      obtain rfl : tid = index := (rooted_reaches ht _ call hcall).2 tid _ hphase
      obtain rfl : tid = index' := (rooted_reaches hs _ other hother).2 tid _ hphase'
      cases hnone.symm.trans hother
    · cases howner

/-- **One step.** -/
theorem threaded_step {served : σ.Svc → Prop} {owner : σ.Svc → Option Nat} {l : Label}
    (hapart : Apart D owner)
    (hcode : ∀ op, served (D.home op) → ∀ has, (D.code op).Equips D.home has)
    (hs : Reaches D.step D.init s) (h : Threaded D served s) (hstep : D.step s l = some t) :
    Threaded D served t := by
  cases (step_iff.mp hstep).occupies (fresh_reaches hs) with
  | same hon hbusy hclients =>
    refine ⟨fun c svc tid p hc => ?_, fun c c' svc tid p p' hc hc' => ?_,
      fun c svc tid p hc hserved => ?_⟩
    · exact hbusy ▸ h.busy c svc tid p (hon _ _ _ _ hc)
    · exact h.alone c c' svc tid p p' (hon _ _ _ _ hc) (hon _ _ _ _ hc')
    · exact hclients ▸ h.equipped c svc tid p (hon _ _ _ _ hc) hserved
  | @spawned c call tid hcall hphase hfree hon hbusy hclients =>
    have hidle : ∀ d p, ¬OnThread D s d (D.home call.op) tid p := fun d p =>
      idle_of_spawned hapart hs (hs.tail hstep) h hcall hphase hfree
    refine ⟨fun d svc tid' p hd => ?_, fun d d' svc tid' p p' hd hd' => ?_,
      fun d svc tid' p hd hserved => ?_⟩
    · rw [hbusy]
      rcases hon _ _ _ _ hd with ⟨-, rfl, rfl, -⟩ | ⟨-, hold⟩
      · exact if_pos ⟨rfl, rfl⟩
      · show (if _ then true else s.busy svc tid') = true
        rw [h.busy d svc tid' p hold, ite_self]
    · rcases hon _ _ _ _ hd with ⟨rfl, rfl, rfl, -⟩ | ⟨-, hold⟩
      · rcases hon _ _ _ _ hd' with ⟨rfl, -⟩ | ⟨-, hold'⟩
        · rfl
        · exact absurd hold' (hidle d' p')
      · rcases hon _ _ _ _ hd' with ⟨rfl, rfl, rfl, -⟩ | ⟨-, hold'⟩
        · exact absurd hold (hidle d p)
        · exact h.alone d d' svc tid' p p' hold hold'
    · rw [hclients]
      rcases hon _ _ _ _ hd with ⟨-, rfl, rfl, rfl⟩ | ⟨-, hold⟩
      · exact hcode call.op hserved _
      · exact h.equipped d svc tid' p hold hserved
  | @moved c call tid p q hcall hphase hturn hon hbusy hothers =>
    have hold : OnThread D s c (D.home call.op) tid p := ⟨call, hcall, hphase, rfl⟩
    have hback : ∀ d svc tid' p', OnThread D t d svc tid' p' →
        ∃ p'', OnThread D s d svc tid' p'' := by
      intro d svc tid' p' hd
      rcases hon _ _ _ _ hd with ⟨rfl, rfl, rfl, -⟩ | ⟨-, hd'⟩
      · exact ⟨p, hold⟩
      · exact ⟨p', hd'⟩
    refine ⟨fun d svc tid' p' hd => ?_, fun d d' svc tid' p' q' hd hd' => ?_,
      fun d svc tid' p' hd hserved => ?_⟩
    · obtain ⟨p'', hd'⟩ := hback _ _ _ _ hd
      exact hbusy ▸ h.busy d svc tid' p'' hd'
    · obtain ⟨p'', hd⟩ := hback _ _ _ _ hd
      obtain ⟨q'', hd'⟩ := hback _ _ _ _ hd'
      exact h.alone d d' svc tid' p'' q'' hd hd'
    · rcases hon _ _ _ _ hd with ⟨rfl, rfl, rfl, rfl⟩ | ⟨hne, hd'⟩
      · exact hturn.equips (h.equipped d _ tid' p hold hserved)
      · rw [hothers svc tid']
        · exact h.equipped d svc tid' p' hd' hserved
        · rintro ⟨rfl, rfl⟩
          exact hne (h.alone d c _ tid' p' p hd' hold)
  | @left c call tid p hcall hphase hon hbusy hclients =>
    have hold : OnThread D s c (D.home call.op) tid p := ⟨call, hcall, hphase, rfl⟩
    refine ⟨fun d svc tid' p' hd => ?_, fun d d' svc tid' p' q' hd hd' => ?_,
      fun d svc tid' p' hd hserved => ?_⟩
    · obtain ⟨hne, hd'⟩ := hon _ _ _ _ hd
      rw [hbusy]
      show (if svc = D.home call.op ∧ tid' = tid then false else s.busy svc tid') = true
      rw [if_neg]
      · exact h.busy d svc tid' p' hd'
      · rintro ⟨rfl, rfl⟩
        exact hne (h.alone d c _ tid' p' p hd' hold)
    · exact h.alone d d' svc tid' p' q' (hon _ _ _ _ hd).2 (hon _ _ _ _ hd').2
    · exact hclients ▸ h.equipped d svc tid' p' (hon _ _ _ _ hd).2 hserved

/-- **Every run.** -/
theorem threaded_reaches (served : σ.Svc → Prop) {owner : σ.Svc → Option Nat}
    (hapart : Apart D owner)
    (hcode : ∀ op, served (D.home op) → ∀ has, (D.code op).Equips D.home has)
    (hs : Reaches D.step D.init s) : Threaded D served s := by
  refine hs.invariant (P := Threaded D served) ⟨?_, ?_, ?_⟩ ?_
  · rintro _ _ _ _ ⟨_, hcall, -⟩
    cases hcall
  · rintro _ _ _ _ _ _ ⟨_, hcall, -⟩
    cases hcall
  · rintro _ _ _ _ ⟨_, hcall, -⟩
    cases hcall
  · exact fun t l u ht h hstep => threaded_step hapart hcode ht h hstep

-- ---------------------------------------------------------------------------
-- What is made once
-- ---------------------------------------------------------------------------

/-- The client that a step makes: of a service, for a thread, to a service. -/
def created (D : Deployment σ) (s : State σ) : Label → Option (σ.Svc × Nat × σ.Svc)
  | .run c =>
    match s.calls c with
    | some ⟨op, .running tid (.newClient target _), _⟩ => some (D.home op, tid, target)
    | _ => none
  | _ => none

omit [DecidableEq σ.Svc] in
theorem onThread_of_created {l : Label} {svc : σ.Svc} {tid : Nat} {target : σ.Svc}
    (h : created D s l = some (svc, tid, target)) :
    ∃ c k, OnThread D s c svc tid (.newClient target k) := by
  unfold created at h
  split at h
  · split at h
    · rename_i c _ op tid₀ target₀ k outcome hcall
      cases h
      exact ⟨c, k, _, hcall, rfl, rfl⟩
    · cases h
  · cases h

/-- The clients that a run makes, in order. -/
def creations (D : Deployment σ) (s : State σ) : List Label → List (σ.Svc × Nat × σ.Svc)
  | [] => []
  | l :: ls => (created D s l).toList ++ ((D.step s l).map fun t => creations D t ls).getD []

theorem creations_append {ls : List Label} (hrun : run D.step s ls = some t) (l : Label) :
    creations D s (ls ++ [l]) = creations D s ls ++ (created D t l).toList := by
  induction ls generalizing s with
  | nil =>
    rw [run, Option.some.injEq] at hrun
    subst hrun
    rw [List.nil_append, creations, creations, List.nil_append]
    cases D.step s l with
    | none => exact List.append_nil _
    | some u => exact List.append_nil _
  | cons l' ls ih =>
    obtain ⟨u, hu, hrest⟩ := Option.bind_eq_some_iff.mp hrun
    rw [List.cons_append, creations, creations, hu, Option.map_some, Option.map_some,
      Option.getD_some, Option.getD_some, ih hrest, List.append_assoc]

/-- The clients after a step are those before, and the one it makes. -/
theorem clients_of_step {l : Label} (hstep : D.step s l = some t) (svc : σ.Svc) (tid : Nat)
    (target : σ.Svc) :
    t.clients svc tid target = true ↔
      s.clients svc tid target = true ∨ created D s l = some (svc, tid, target) := by
  cases step_iff.mp hstep with
  | tick | issue | deliver | reply | fail => exact (or_iff_left nofun).symm
  | @run c call tid₀ p _ hcall hphase hmove =>
    obtain ⟨op, phase, outcome⟩ := call
    obtain rfl : phase = .running tid₀ p := hphase
    cases hmove with
    | @newClient target₀ k =>
      have hmade : created D s (.run c) = some (D.home op, tid₀, target₀) := by
        simp only [created, hcall]
      show (if svc = D.home op ∧ tid = tid₀ ∧ target = target₀ then true
        else s.clients svc tid target) = true ↔ _
      rw [hmade]
      split
      · rename_i hsame
        obtain ⟨rfl, rfl, rfl⟩ := hsame
        exact iff_of_true rfl (.inr rfl)
      · rename_i hother
        refine (or_iff_left fun h => hother ?_).symm
        cases h
        exact ⟨rfl, rfl, rfl⟩
    | _ =>
      have hnone : created D s (.run c) = none := by simp only [created, hcall]
      rw [hnone]
      exact (or_iff_left nofun).symm

/-- **No client is made twice**: those that have been made are those that are there. -/
theorem count_creations (served : σ.Svc → Prop) {owner : σ.Svc → Option Nat}
    (hapart : Apart D owner)
    (hcode : ∀ op, served (D.home op) → ∀ has, (D.code op).Equips D.home has)
    {ls : List Label} (hrun : run D.step D.init ls = some s) {svc : σ.Svc} (hserved : served svc)
    (tid : Nat) (target : σ.Svc) :
    (creations D D.init ls).count (svc, tid, target) =
      if s.clients svc tid target = true then 1 else 0 := by
  refine run_invariant (P := fun ls s => (creations D D.init ls).count (svc, tid, target) =
    if s.clients svc tid target = true then 1 else 0) hrun rfl ?_
  intro ls t l u ht ih hstep
  rw [creations_append ht, List.count_append, ih]
  by_cases hmade : created D t l = some (svc, tid, target)
  · -- the handler that makes it has found none
    have hnone : t.clients svc tid target = false := by
      obtain ⟨c, k, hon⟩ := onThread_of_created hmade
      exact ((threaded_reaches served hapart hcode ⟨ls, ht⟩).equipped c svc tid _ hon hserved).1
    have hsome := (clients_of_step hstep svc tid target).mpr (.inr hmade)
    rw [hmade, hnone, hsome]
    simp
  · have hsame : u.clients svc tid target = t.clients svc tid target := by
      rw [Bool.eq_iff_iff, clients_of_step hstep]
      exact or_iff_left hmade
    have hzero : (created D t l).toList.count (svc, tid, target) = 0 := by
      rw [List.count_eq_zero, Option.mem_toList]
      exact hmade
    rw [hsame, hzero, Nat.add_zero]

end Rpc
