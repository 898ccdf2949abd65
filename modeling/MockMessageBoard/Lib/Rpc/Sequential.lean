import MockMessageBoard.Lib.Rpc.Causality

/-!
# Remote procedure calls — sequential processes

A sequential process issues a request only when it has the answer to the one
before. So its requests do not overlap: nothing is done for a request before
the handler of the one before has ended.

* `previous_answered`  — the request before has been answered;
* `answered_before`    — and was, before the process acted on the next one;
* `sequential_order`   — what is done for a request comes after the answer to the
  one before.
-/

namespace Rpc

open Transition Deployment State

variable {σ : Signature} {D : Deployment σ} {s s' : State σ} {l : Label}

/-- How a call has ended stays. -/
theorem Evolves.returned_persists {c : CallId} (h : Evolves D s s' c) {call : Call σ}
    {o : Outcome σ} (hcall : s.calls c = some call) (hphase : call.phase = .returned o) :
    ∃ call', s'.calls c = some call' ∧ call'.phase = .returned o := by
  cases h with
  | same hcalls => exact ⟨call, hcalls.trans hcall, hphase⟩
  | created _ hnone => rw [hnone] at hcall; cases hcall
  | delivered _ hcall₀ hphase₀ | moved hcall₀ hphase₀ =>
    rw [hcall₀] at hcall
    cases hcall
    rw [hphase₀] at hphase
    cases hphase
  | settled _ hcall₀ _ _ hcall' =>
    rw [hcall₀] at hcall
    cases hcall
    exact ⟨_, hcall', hphase⟩

variable [DecidableEq σ.Svc]

/-- Whoever issues a request may do so. -/
theorem Steps.mayIssue {p : Nat} (h : Steps D s l s') (hissued : s'.issued p = s.issued p + 1) :
    D.mayIssue s p = true := by
  cases h with
  | tick | deliver | reply | fail => exact absurd hissued (Nat.succ_ne_self _).symm
  | @issue q op hop hmay =>
    change Function.update s.issued q (s.issued q + 1) p = s.issued p + 1 at hissued
    by_cases hp : p = q
    · exact hp ▸ hmay
    · rw [Function.update_of_ne hp] at hissued
      exact absurd hissued (Nat.succ_ne_self _).symm
  | run hcall hphase hmove => cases hmove <;> exact absurd hissued (Nat.succ_ne_self _).symm

/-- The process has issued no request before it had the answer to the one
before. -/
def PreviousAnswered (s : State σ) (p : Nat) : Prop :=
  ∀ i call, s.calls ⟨⟨p, i + 1⟩, 0⟩ = some call →
    ∃ call' v, s.calls ⟨⟨p, i⟩, 0⟩ = some call' ∧ call'.phase = .returned (.value v)

/-- Whatever the process has done for a request, the handler of the one before
had ended by then. -/
def AnsweredBefore (s : State σ) (p : Nat) : Prop :=
  ∀ i, ∀ e' ∈ s.history, e'.call = ⟨⟨p, i + 1⟩, 0⟩ →
    ∃ e ∈ s.history, ∃ v, e.call = ⟨⟨p, i⟩, 0⟩ ∧ e.act = .finish (.value v) ∧ e.seq < e'.seq

section Invariants

variable (hreach : Reaches D.step D.init s) {p : Nat} (hseq : D.sequential p = true)

include hreach hseq

theorem previous_answered : PreviousAnswered s p := by
  refine hreach.invariant (P := fun s => PreviousAnswered s p) ?_ ?_
  · nofun
  intro t l u ht ih hstep i call hcall
  have hevolves := evolves_of_reaches ht hstep
  obtain ⟨call', v, hcall', hphase⟩ : ∃ call' v, t.calls ⟨⟨p, i⟩, 0⟩ = some call' ∧
      call'.phase = .returned (.value v) := by
    rcases (hevolves _).origin hcall with ⟨call₀, hcall₀, -⟩ | ⟨d, hd, -⟩ | ⟨q, hq, -, hissued⟩
    · exact ih i call₀ hcall₀
    · exact absurd (congrArg CallId.depth hd) (Nat.succ_ne_zero _).symm
    · -- the request has just been issued, so the process may issue it
      have hpq : p = q := congrArg (fun c => c.request.proc) hq
      have hindex : i + 1 = t.issued q := congrArg (fun c => c.request.index) hq
      subst hpq
      have hmay := (step_iff.mp hstep).mayIssue hissued
      unfold mayIssue at hmay
      rw [← hindex] at hmay
      simp only [hseq, if_true, Option.any_eq_true] at hmay
      obtain ⟨call', hcall', hanswered⟩ := hmay
      unfold Call.answered at hanswered
      split at hanswered
      · rename_i v hphase
        exact ⟨call', v, hcall', hphase⟩
      · cases hanswered
  obtain ⟨call'', hcall'', hphase'⟩ := (hevolves _).returned_persists hcall' hphase
  exact ⟨call'', v, hcall'', hphase'⟩

theorem answered_before : AnsweredBefore s p := by
  refine hreach.invariant (P := fun s => AnsweredBefore s p) ?_ ?_
  · nofun
  intro t l u ht ih hstep i e' he' hec'
  cases grows_of_step hstep with
  | same hhistory =>
    rw [hhistory] at he' ⊢
    exact ih i e' he' hec'
  | @event c call tid q a x hcall _ _ hhistory =>
    rw [hhistory, List.mem_append, List.mem_singleton] at he'
    rcases he' with he' | rfl
    · obtain ⟨e, he, hbefore⟩ := ih i e' he' hec'
      exact ⟨e, hhistory ▸ List.mem_append_left _ he, hbefore⟩
    · -- the process acts, so it has issued the request
      obtain rfl : c = ⟨⟨p, i + 1⟩, 0⟩ := hec'
      obtain ⟨call', v, hcall', hphase⟩ := previous_answered ht hseq i call hcall
      obtain ⟨e, he, hec, hact⟩ := mem_trail.mp (finish_of_returned ht hcall' hphase)
      exact ⟨e, hhistory ▸ List.mem_append_left _ he, v, hec, hact, seq_lt ht he⟩

/-- **A sequential process overlaps nothing with its next request**: whatever is
done for a request, by any handler, comes after the answer to the one before. -/
theorem sequential_order {i : Nat} {e' : Event σ} (he' : e' ∈ s.history)
    (hrequest : e'.call.request = ⟨p, i + 1⟩) :
    ∃ e ∈ s.history, ∃ v, e.call = ⟨⟨p, i⟩, 0⟩ ∧ e.act = .finish (.value v) ∧
      e.seq < e'.seq := by
  by_cases hdepth : e'.call.depth = 0
  · have hroot : e'.call = ⟨⟨p, i + 1⟩, 0⟩ := by
      rw [← hrequest, ← hdepth]
    exact answered_before hreach hseq i e' he' hroot
  · -- the process has sent the request before anyone else acts on it
    obtain ⟨e₁, he₁, hec₁, -, hlt₁⟩ := after_start hreach (c := ⟨⟨p, i + 1⟩, 0⟩) he' hrequest
      (Nat.pos_of_ne_zero hdepth)
    obtain ⟨e, he, v, hec, hact, hlt⟩ := answered_before hreach hseq i e₁ he₁ hec₁
    exact ⟨e, he, v, hec, hact, hlt.trans hlt₁⟩

end Invariants

end Rpc
