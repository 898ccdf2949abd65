import Mathlib.Data.List.Basic
import Mathlib.Tactic

/-!
# Remote procedure calls — handler programs

The body of an RPC handler as a tree of the actions it performs. A handler
records notes, looks up or creates the client its thread uses for a service,
starts a call to another service, works locally, waits for the call it started,
accesses the store of its own service, and returns or throws.

`Path` says which actions a program can have performed when it has got to some
point. It leaves the environment open: a lookup may find a client or not, a
wait may yield any value or raise.

* `Path.tail`            — a path grows by one action;
* `ends_*`, `upto_*`     — the paths of a program, read off its first action;
* `Only.*`               — what every action of a program satisfies;
* `NeverRaises.*`        — programs that return whatever they see.
-/

namespace Rpc

/-- What the handlers of a system are about. -/
structure Signature where
  /-- services, whose handlers run on threads of their own -/
  Svc : Type
  /-- requests, arguments included -/
  Op : Type
  /-- replies -/
  Val : Type
  /-- accesses to a store, arguments included -/
  Acc : Type
  /-- what an access returns -/
  View : Type
  /-- what a handler can record -/
  Note : Type
  /-- the contents of all stores -/
  Store : Type

variable {σ : Signature}

/-- The body of a handler. -/
inductive Prog (σ : Signature) where
  | record (n : σ.Note) (k : Prog σ)
  | findClient (target : σ.Svc) (k : Bool → Prog σ)
  | newClient (target : σ.Svc) (k : Prog σ)
  | start (op : σ.Op) (k : Prog σ)
  | sleep (k : Prog σ)
  | await (k : σ.Val → Prog σ)
  | access (a : σ.Acc) (k : σ.View → Prog σ)
  | ret (v : σ.Val)
  | throw

/-- How a call ends. -/
inductive Outcome (σ : Signature) where
  | value (v : σ.Val)
  | raised

/-- The observable actions of a handler. -/
inductive Act (σ : Signature) where
  | record (n : σ.Note)
  | start (op : σ.Op)
  | await (v : σ.Val)
  | access (a : σ.Acc) (w : σ.View)
  | finish (o : Outcome σ)

/-- The action makes a record. -/
def Act.isRecord : Act σ → Bool
  | .record _ => true
  | _ => false

theorem Act.isRecord_iff {a : Act σ} : a.isRecord = true ↔ ∃ n, a = .record n := by
  constructor
  · intro h
    cases a with
    | record n => exact ⟨n, rfl⟩
    | _ => cases h
  · rintro ⟨n, rfl⟩
    rfl

/-- Where a handler is: about to perform `p`, or gone. -/
inductive Control (σ : Signature) where
  | running (p : Prog σ)
  | returned (o : Outcome σ)

/-- One step of a program. Lookups, new clients and local work are silent. A
wait for a call that raised lets the exception escape. -/
inductive Next : Prog σ → Option (Act σ) → Control σ → Prop
  | record {n k} : Next (.record n k) (some (.record n)) (.running k)
  | findClient {target k} (found : Bool) : Next (.findClient target k) none (.running (k found))
  | newClient {target k} : Next (.newClient target k) none (.running k)
  | start {op k} : Next (.start op k) (some (.start op)) (.running k)
  | sleep {k} : Next (.sleep k) none (.running k)
  | await {k} (v : σ.Val) : Next (.await k) (some (.await v)) (.running (k v))
  | abort {k} : Next (.await k) (some (.finish .raised)) (.returned .raised)
  | access {a k} (w : σ.View) : Next (.access a k) (some (.access a w)) (.running (k w))
  | ret {v} : Next (.ret v) (some (.finish (.value v))) (.returned (.value v))
  | throw : Next .throw (some (.finish .raised)) (.returned .raised)

/-- From the first control point to the second, performing the actions. -/
inductive Path : Control σ → List (Act σ) → Control σ → Prop
  | here {x} : Path x [] x
  | step {p a y t x} (h : Next p a y) (h' : Path y t x) : Path (.running p) (a.toList ++ t) x

/-- `p` can perform `t` and end with `o`. -/
def Ends (p : Prog σ) (t : List (Act σ)) (o : Outcome σ) : Prop :=
  Path (.running p) t (.returned o)

/-- `p` can have performed `t`. -/
def Upto (p : Prog σ) (t : List (Act σ)) : Prop := ∃ x, Path (.running p) t x

-- ---------------------------------------------------------------------------
-- Paths
-- ---------------------------------------------------------------------------

theorem Path.tail {x : Control σ} {t : List (Act σ)} {q : Prog σ} {a : Option (Act σ)}
    {y : Control σ} (h : Path x t (.running q)) (hnext : Next q a y) :
    Path x (t ++ a.toList) y := by
  generalize hz : Control.running q = z at h
  induction h with
  | here =>
    subst hz
    simpa using Path.step hnext .here
  | step hfirst _ ih =>
    rw [List.append_assoc]
    exact .step hfirst (ih hz)

@[simp] theorem path_returned {o : Outcome σ} {t : List (Act σ)} {x : Control σ} :
    Path (.returned o) t x ↔ t = [] ∧ x = .returned o := by
  constructor
  · intro h
    cases h
    exact ⟨rfl, rfl⟩
  · rintro ⟨rfl, rfl⟩
    exact .here

theorem Ends.upto {p : Prog σ} {t : List (Act σ)} {o : Outcome σ} (h : Ends p t o) :
    Upto p t := ⟨_, h⟩

theorem Next.eq_finish {p : Prog σ} {a : Option (Act σ)} {o : Outcome σ}
    (h : Next p a (.returned o)) : a = some (.finish o) := by
  cases h <;> rfl

theorem Next.ne_finish {p q : Prog σ} {a : Option (Act σ)} (h : Next p a (.running q))
    (o : Outcome σ) : .finish o ∉ a.toList := by
  cases h <;> simp

/-- A handler that is still running has not performed an end. -/
theorem Path.finish_notMem {x : Control σ} {t : List (Act σ)} {q : Prog σ}
    (h : Path x t (.running q)) (o : Outcome σ) : .finish o ∉ t := by
  generalize hz : Control.running q = z at h
  induction h with
  | here => exact List.not_mem_nil
  | @step p a y t z hnext htail ih =>
    rw [List.mem_append, not_or]
    cases y with
    | running r => exact ⟨hnext.ne_finish o, ih hz⟩
    | returned o' =>
      obtain ⟨-, rfl⟩ := path_returned.mp htail
      cases hz

/-- A handler that is gone performed its end last. -/
theorem Ends.eq_snoc {p : Prog σ} {t : List (Act σ)} {o : Outcome σ} (h : Ends p t o) :
    ∃ t', t = t' ++ [.finish o] ∧ ∀ o', .finish o' ∉ t' := by
  unfold Ends at h
  generalize hx : Control.running p = x at h
  generalize hy : Control.returned o = y at h
  induction h generalizing p with
  | here => subst hy; cases hx
  | @step q a z t x hnext htail ih =>
    cases z with
    | running r =>
      obtain ⟨t', rfl, hnot⟩ := ih rfl hy
      refine ⟨a.toList ++ t', by rw [List.append_assoc], fun o' => ?_⟩
      rw [List.mem_append, not_or]
      exact ⟨hnext.ne_finish o', hnot o'⟩
    | returned o' =>
      obtain ⟨rfl, rfl⟩ := path_returned.mp htail
      cases hy
      obtain rfl := hnext.eq_finish
      exact ⟨[], rfl, fun _ => List.not_mem_nil⟩

-- ---------------------------------------------------------------------------
-- The paths of a program, read off its first action
-- ---------------------------------------------------------------------------

theorem ends_iff {p : Prog σ} {t : List (Act σ)} {o : Outcome σ} :
    Ends p t o ↔ ∃ a y t', Next p a y ∧ t = a.toList ++ t' ∧ Path y t' (.returned o) := by
  constructor
  · rintro (_ | ⟨hnext, htail⟩)
    exact ⟨_, _, _, hnext, rfl, htail⟩
  · rintro ⟨a, y, t', hnext, rfl, htail⟩
    exact .step hnext htail

theorem upto_iff {p : Prog σ} {t : List (Act σ)} :
    Upto p t ↔ t = [] ∨ ∃ a y t', Next p a y ∧ t = a.toList ++ t' ∧ ∃ x, Path y t' x := by
  constructor
  · rintro ⟨x, _ | ⟨hnext, htail⟩⟩
    · exact .inl rfl
    · exact .inr ⟨_, _, _, hnext, rfl, _, htail⟩
  · rintro (rfl | ⟨a, y, t', hnext, rfl, x, htail⟩)
    · exact ⟨_, .here⟩
    · exact ⟨x, .step hnext htail⟩

@[simp] theorem upto_nil (p : Prog σ) : Upto p [] := ⟨_, .here⟩

variable {t : List (Act σ)} {o : Outcome σ}

@[simp] theorem ends_record {n : σ.Note} {k : Prog σ} :
    Ends (.record n k) t o ↔ ∃ t', t = .record n :: t' ∧ Ends k t' o := by
  rw [ends_iff]
  constructor
  · rintro ⟨a, y, t', ⟨⟩, rfl, htail⟩
    exact ⟨t', rfl, htail⟩
  · rintro ⟨t', rfl, htail⟩
    exact ⟨_, _, t', .record, rfl, htail⟩

@[simp] theorem ends_findClient {target : σ.Svc} {k : Bool → Prog σ} :
    Ends (.findClient target k) t o ↔ ∃ found, Ends (k found) t o := by
  rw [ends_iff]
  constructor
  · rintro ⟨a, y, t', hnext, rfl, htail⟩
    cases hnext with
    | findClient found => exact ⟨found, htail⟩
  · rintro ⟨found, htail⟩
    exact ⟨_, _, t, .findClient found, rfl, htail⟩

@[simp] theorem ends_newClient {target : σ.Svc} {k : Prog σ} :
    Ends (.newClient target k) t o ↔ Ends k t o := by
  rw [ends_iff]
  constructor
  · rintro ⟨a, y, t', ⟨⟩, rfl, htail⟩
    exact htail
  · intro htail
    exact ⟨_, _, t, .newClient, rfl, htail⟩

@[simp] theorem ends_start {op : σ.Op} {k : Prog σ} :
    Ends (.start op k) t o ↔ ∃ t', t = .start op :: t' ∧ Ends k t' o := by
  rw [ends_iff]
  constructor
  · rintro ⟨a, y, t', ⟨⟩, rfl, htail⟩
    exact ⟨t', rfl, htail⟩
  · rintro ⟨t', rfl, htail⟩
    exact ⟨_, _, t', .start, rfl, htail⟩

@[simp] theorem ends_sleep {k : Prog σ} : Ends (.sleep k) t o ↔ Ends k t o := by
  rw [ends_iff]
  constructor
  · rintro ⟨a, y, t', ⟨⟩, rfl, htail⟩
    exact htail
  · intro htail
    exact ⟨_, _, t, .sleep, rfl, htail⟩

@[simp] theorem ends_await {k : σ.Val → Prog σ} :
    Ends (.await k) t o ↔
      (t = [.finish .raised] ∧ o = .raised) ∨ ∃ v t', t = .await v :: t' ∧ Ends (k v) t' o := by
  rw [ends_iff]
  constructor
  · rintro ⟨a, y, t', hnext, rfl, htail⟩
    cases hnext with
    | await v => exact .inr ⟨v, t', rfl, htail⟩
    | abort =>
      obtain ⟨rfl, hy⟩ := path_returned.mp htail
      cases hy
      exact .inl ⟨rfl, rfl⟩
  · rintro (⟨rfl, rfl⟩ | ⟨v, t', rfl, htail⟩)
    · exact ⟨_, _, [], .abort, rfl, .here⟩
    · exact ⟨_, _, t', .await v, rfl, htail⟩

@[simp] theorem ends_access {a : σ.Acc} {k : σ.View → Prog σ} :
    Ends (.access a k) t o ↔ ∃ w t', t = .access a w :: t' ∧ Ends (k w) t' o := by
  rw [ends_iff]
  constructor
  · rintro ⟨a, y, t', hnext, rfl, htail⟩
    cases hnext with
    | access w => exact ⟨w, t', rfl, htail⟩
  · rintro ⟨w, t', rfl, htail⟩
    exact ⟨_, _, t', .access w, rfl, htail⟩

@[simp] theorem ends_ret {v : σ.Val} :
    Ends (.ret v) t o ↔ t = [.finish (.value v)] ∧ o = .value v := by
  rw [ends_iff]
  constructor
  · rintro ⟨a, y, t', ⟨⟩, rfl, htail⟩
    obtain ⟨rfl, hy⟩ := path_returned.mp htail
    cases hy
    exact ⟨rfl, rfl⟩
  · rintro ⟨rfl, rfl⟩
    exact ⟨_, _, [], .ret, rfl, .here⟩

@[simp] theorem ends_throw :
    Ends (.throw : Prog σ) t o ↔ t = [.finish .raised] ∧ o = .raised := by
  rw [ends_iff]
  constructor
  · rintro ⟨a, y, t', ⟨⟩, rfl, htail⟩
    obtain ⟨rfl, hy⟩ := path_returned.mp htail
    cases hy
    exact ⟨rfl, rfl⟩
  · rintro ⟨rfl, rfl⟩
    exact ⟨_, _, [], .throw, rfl, .here⟩

@[simp] theorem upto_record {n : σ.Note} {k : Prog σ} :
    Upto (.record n k) t ↔ t = [] ∨ ∃ t', t = .record n :: t' ∧ Upto k t' := by
  rw [upto_iff]
  refine or_congr_right ⟨?_, ?_⟩
  · rintro ⟨a, y, t', ⟨⟩, rfl, htail⟩
    exact ⟨t', rfl, htail⟩
  · rintro ⟨t', rfl, htail⟩
    exact ⟨_, _, t', .record, rfl, htail⟩

@[simp] theorem upto_findClient {target : σ.Svc} {k : Bool → Prog σ} :
    Upto (.findClient target k) t ↔ t = [] ∨ ∃ found, Upto (k found) t := by
  rw [upto_iff]
  refine or_congr_right ⟨?_, ?_⟩
  · rintro ⟨a, y, t', hnext, rfl, htail⟩
    cases hnext with
    | findClient found => exact ⟨found, htail⟩
  · rintro ⟨found, htail⟩
    exact ⟨_, _, t, .findClient found, rfl, htail⟩

@[simp] theorem upto_newClient {target : σ.Svc} {k : Prog σ} :
    Upto (.newClient target k) t ↔ t = [] ∨ Upto k t := by
  rw [upto_iff]
  refine or_congr_right ⟨?_, ?_⟩
  · rintro ⟨a, y, t', ⟨⟩, rfl, htail⟩
    exact htail
  · intro htail
    exact ⟨_, _, t, .newClient, rfl, htail⟩

@[simp] theorem upto_start {op : σ.Op} {k : Prog σ} :
    Upto (.start op k) t ↔ t = [] ∨ ∃ t', t = .start op :: t' ∧ Upto k t' := by
  rw [upto_iff]
  refine or_congr_right ⟨?_, ?_⟩
  · rintro ⟨a, y, t', ⟨⟩, rfl, htail⟩
    exact ⟨t', rfl, htail⟩
  · rintro ⟨t', rfl, htail⟩
    exact ⟨_, _, t', .start, rfl, htail⟩

@[simp] theorem upto_sleep {k : Prog σ} : Upto (.sleep k) t ↔ t = [] ∨ Upto k t := by
  rw [upto_iff]
  refine or_congr_right ⟨?_, ?_⟩
  · rintro ⟨a, y, t', ⟨⟩, rfl, htail⟩
    exact htail
  · intro htail
    exact ⟨_, _, t, .sleep, rfl, htail⟩

@[simp] theorem upto_await {k : σ.Val → Prog σ} :
    Upto (.await k) t ↔
      t = [] ∨ t = [.finish .raised] ∨ ∃ v t', t = .await v :: t' ∧ Upto (k v) t' := by
  rw [upto_iff]
  refine or_congr_right ⟨?_, ?_⟩
  · rintro ⟨a, y, t', hnext, rfl, x, htail⟩
    cases hnext with
    | await v => exact .inr ⟨v, t', rfl, x, htail⟩
    | abort =>
      obtain ⟨rfl, -⟩ := path_returned.mp htail
      exact .inl rfl
  · rintro (rfl | ⟨v, t', rfl, htail⟩)
    · exact ⟨_, _, [], .abort, rfl, _, .here⟩
    · exact ⟨_, _, t', .await v, rfl, htail⟩

@[simp] theorem upto_access {a : σ.Acc} {k : σ.View → Prog σ} :
    Upto (.access a k) t ↔ t = [] ∨ ∃ w t', t = .access a w :: t' ∧ Upto (k w) t' := by
  rw [upto_iff]
  refine or_congr_right ⟨?_, ?_⟩
  · rintro ⟨a, y, t', hnext, rfl, htail⟩
    cases hnext with
    | access w => exact ⟨w, t', rfl, htail⟩
  · rintro ⟨w, t', rfl, htail⟩
    exact ⟨_, _, t', .access w, rfl, htail⟩

@[simp] theorem upto_ret {v : σ.Val} :
    Upto (.ret v) t ↔ t = [] ∨ t = [.finish (.value v)] := by
  rw [upto_iff]
  refine or_congr_right ⟨?_, ?_⟩
  · rintro ⟨a, y, t', ⟨⟩, rfl, x, htail⟩
    obtain ⟨rfl, -⟩ := path_returned.mp htail
    rfl
  · rintro rfl
    exact ⟨_, _, [], .ret, rfl, _, .here⟩

@[simp] theorem upto_throw :
    Upto (.throw : Prog σ) t ↔ t = [] ∨ t = [.finish .raised] := by
  rw [upto_iff]
  refine or_congr_right ⟨?_, ?_⟩
  · rintro ⟨a, y, t', ⟨⟩, rfl, x, htail⟩
    obtain ⟨rfl, -⟩ := path_returned.mp htail
    rfl
  · rintro rfl
    exact ⟨_, _, [], .throw, rfl, _, .here⟩

-- ---------------------------------------------------------------------------
-- What every action of a program satisfies
-- ---------------------------------------------------------------------------

/-- Every action that `p` can perform satisfies `P`. -/
def Only (P : Act σ → Prop) (p : Prog σ) : Prop := ∀ t, Upto p t → ∀ a ∈ t, P a

namespace Only

variable {P : Act σ → Prop}

theorem record {n : σ.Note} {k : Prog σ} (hn : P (.record n)) (hk : Only P k) :
    Only P (.record n k) := by
  intro t ht a ha
  rcases upto_record.mp ht with rfl | ⟨t', rfl, ht'⟩
  · cases ha
  · rcases List.mem_cons.mp ha with rfl | ha
    · exact hn
    · exact hk t' ht' a ha

theorem findClient {target : σ.Svc} {k : Bool → Prog σ} (hk : ∀ b, Only P (k b)) :
    Only P (.findClient target k) := by
  intro t ht a ha
  rcases upto_findClient.mp ht with rfl | ⟨b, ht'⟩
  · cases ha
  · exact hk b t ht' a ha

theorem newClient {target : σ.Svc} {k : Prog σ} (hk : Only P k) :
    Only P (.newClient target k) := by
  intro t ht a ha
  rcases upto_newClient.mp ht with rfl | ht'
  · cases ha
  · exact hk t ht' a ha

theorem start {op : σ.Op} {k : Prog σ} (hop : P (.start op)) (hk : Only P k) :
    Only P (.start op k) := by
  intro t ht a ha
  rcases upto_start.mp ht with rfl | ⟨t', rfl, ht'⟩
  · cases ha
  · rcases List.mem_cons.mp ha with rfl | ha
    · exact hop
    · exact hk t' ht' a ha

theorem sleep {k : Prog σ} (hk : Only P k) : Only P (.sleep k) := by
  intro t ht a ha
  rcases upto_sleep.mp ht with rfl | ht'
  · cases ha
  · exact hk t ht' a ha

theorem await {k : σ.Val → Prog σ} (hraised : P (.finish .raised))
    (hv : ∀ v, P (.await v)) (hk : ∀ v, Only P (k v)) : Only P (.await k) := by
  intro t ht a ha
  rcases upto_await.mp ht with rfl | rfl | ⟨v, t', rfl, ht'⟩
  · cases ha
  · obtain rfl := List.mem_singleton.mp ha
    exact hraised
  · rcases List.mem_cons.mp ha with rfl | ha
    · exact hv v
    · exact hk v t' ht' a ha

theorem access {b : σ.Acc} {k : σ.View → Prog σ} (hb : ∀ w, P (.access b w))
    (hk : ∀ w, Only P (k w)) : Only P (.access b k) := by
  intro t ht a ha
  rcases upto_access.mp ht with rfl | ⟨w, t', rfl, ht'⟩
  · cases ha
  · rcases List.mem_cons.mp ha with rfl | ha
    · exact hb w
    · exact hk w t' ht' a ha

theorem ret {v : σ.Val} (hv : P (.finish (.value v))) : Only P (.ret v) := by
  intro t ht a ha
  rcases upto_ret.mp ht with rfl | rfl
  · cases ha
  · obtain rfl := List.mem_singleton.mp ha
    exact hv

theorem throw (hraised : P (.finish .raised)) : Only P (.throw : Prog σ) := by
  intro t ht a ha
  rcases upto_throw.mp ht with rfl | rfl
  · cases ha
  · obtain rfl := List.mem_singleton.mp ha
    exact hraised

end Only

-- ---------------------------------------------------------------------------
-- Programs that never raise
-- ---------------------------------------------------------------------------

/-- No path of `p` ends with an exception. -/
def NeverRaises (p : Prog σ) : Prop := ∀ t, ¬Ends p t .raised

namespace NeverRaises

theorem record {n : σ.Note} {k : Prog σ} (hk : NeverRaises k) : NeverRaises (.record n k) := by
  intro t ht
  obtain ⟨t', -, ht'⟩ := ends_record.mp ht
  exact hk t' ht'

theorem sleep {k : Prog σ} (hk : NeverRaises k) : NeverRaises (.sleep k) :=
  fun t ht => hk t (ends_sleep.mp ht)

theorem access {a : σ.Acc} {k : σ.View → Prog σ} (hk : ∀ w, NeverRaises (k w)) :
    NeverRaises (.access a k) := by
  intro t ht
  obtain ⟨w, t', -, ht'⟩ := ends_access.mp ht
  exact hk w t' ht'

theorem ret {v : σ.Val} : NeverRaises (.ret v : Prog σ) := by
  intro t ht
  cases (ends_ret.mp ht).2

end NeverRaises

end Rpc
