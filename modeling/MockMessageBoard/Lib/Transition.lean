import Mathlib.Logic.Basic
import Mathlib.Data.Option.Basic

/-!
# Transition systems — runs, invariants, simulations

A transition system is a partial step function `step : σ → α → Option σ`: in
state `s` the action `a` leads to `s'` when `step s a = some s'`, and is not
enabled when `step s a = none`. Nothing is assumed about which actions a
scheduler picks, so `Reaches` ranges over every interleaving.

* `run_append`        — runs compose;
* `Reaches.invariant` — what one step preserves, every run preserves;
* `run_invariant`     — the same for what relates the run to the state;
* `Reaches.simulate`  — a simulation of single steps is one of whole runs.
-/

namespace Transition

variable {σ τ α β : Type*}

/-- The state after performing the actions `as` one by one, if all of them
are enabled. -/
def run (step : σ → α → Option σ) (s : σ) : List α → Option σ
  | [] => some s
  | a :: as => (step s a).bind fun s' => run step s' as

/-- Some sequence of actions leads from `s` to `s'`. -/
def Reaches (step : σ → α → Option σ) (s s' : σ) : Prop :=
  ∃ as : List α, run step s as = some s'

variable {step : σ → α → Option σ} {step' : τ → β → Option τ}

theorem run_cons {s t : σ} {a : α} (h : step s a = some t) (as : List α) :
    run step s (a :: as) = run step t as := by
  rw [run, h, Option.bind_some]

theorem run_append {s s' : σ} {as bs : List α} (h : run step s as = some s') :
    run step s (as ++ bs) = run step s' bs := by
  induction as generalizing s with
  | nil => rw [run, Option.some.injEq] at h; rw [h, List.nil_append]
  | cons a as ih =>
    obtain ⟨t, ht, hrun⟩ := Option.bind_eq_some_iff.mp h
    rw [List.cons_append, run_cons ht]
    exact ih hrun

theorem Reaches.refl (s : σ) : Reaches step s s := ⟨[], rfl⟩

theorem Reaches.single {s s' : σ} {a : α} (h : step s a = some s') : Reaches step s s' :=
  ⟨[a], run_cons h []⟩

theorem Reaches.trans {s t u : σ} (hst : Reaches step s t) (htu : Reaches step t u) :
    Reaches step s u := by
  obtain ⟨as, has⟩ := hst
  obtain ⟨bs, hbs⟩ := htu
  exact ⟨as ++ bs, by rw [run_append has, hbs]⟩

theorem Reaches.tail {s t u : σ} {a : α} (hst : Reaches step s t)
    (htu : step t a = some u) : Reaches step s u :=
  hst.trans (.single htu)

theorem Reaches.head {s t u : σ} {a : α} (hst : step s a = some t)
    (htu : Reaches step t u) : Reaches step s u :=
  (Reaches.single hst).trans htu

/--
**Invariant rule.** What holds in the first state and is preserved by every
single step out of a reachable state holds in every reachable state.
-/
theorem Reaches.invariant {P : σ → Prop} {s₀ s : σ} (h : Reaches step s₀ s) (h₀ : P s₀)
    (hstep : ∀ t a u, Reaches step s₀ t → P t → step t a = some u → P u) : P s := by
  obtain ⟨as, has⟩ := h
  suffices ∀ t, Reaches step s₀ t → P t → run step t as = some s → P s from
    this s₀ (.refl s₀) h₀ has
  clear has
  induction as with
  | nil =>
    intro t _ ht hrun
    rw [run, Option.some.injEq] at hrun
    exact hrun ▸ ht
  | cons a as ih =>
    intro t hreach ht hrun
    obtain ⟨u, hu, hrest⟩ := Option.bind_eq_some_iff.mp hrun
    exact ih u (hreach.tail hu) (hstep t a u hreach ht hu) hrest

/-- **Invariant rule for runs**, of what relates the actions so far to the state. -/
theorem run_invariant {P : List α → σ → Prop} {s₀ s : σ} {as : List α}
    (h : run step s₀ as = some s) (h₀ : P [] s₀)
    (hstep : ∀ bs t a u, run step s₀ bs = some t → P bs t → step t a = some u →
      P (bs ++ [a]) u) : P as s := by
  suffices ∀ bs t, run step s₀ bs = some t → P bs t → run step t as = some s →
      P (bs ++ as) s from this [] s₀ rfl h₀ h
  clear h
  induction as with
  | nil =>
    intro bs t _ ht hrun
    rw [run, Option.some.injEq] at hrun
    rw [List.append_nil]
    exact hrun ▸ ht
  | cons a as ih =>
    intro bs t hbs ht hrun
    obtain ⟨u, hu, hrest⟩ := Option.bind_eq_some_iff.mp hrun
    rw [List.append_cons]
    exact ih (bs ++ [a]) u (by rw [run_append hbs, run_cons hu, run]) (hstep bs t a u hbs ht hu)
      hrest

/--
**Simulation rule.** If every step of the first system is matched by some run
of the second one from related states to related states, so is every run.
-/
theorem Reaches.simulate {R : σ → τ → Prop} {s s' : σ} {t : τ} (h : Reaches step s s')
    (hR : R s t)
    (hsim : ∀ s a s' t, R s t → step s a = some s' → ∃ t', Reaches step' t t' ∧ R s' t') :
    ∃ t', Reaches step' t t' ∧ R s' t' := by
  refine h.invariant (P := fun s' => ∃ t', Reaches step' t t' ∧ R s' t') ⟨t, .refl t, hR⟩ ?_
  rintro u a u' - ⟨t₁, ht₁, hR₁⟩ hu
  obtain ⟨t₂, ht₂, hR₂⟩ := hsim u a u' t₁ hR₁ hu
  exact ⟨t₂, ht₁.trans ht₂, hR₂⟩

end Transition
