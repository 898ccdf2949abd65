import Mathlib.Data.List.Basic
import Mathlib.Data.List.Induction
import Mathlib.Data.List.Nodup

/-!
# Linearizability

A concurrent history linearizes to a sequential object if the requests that
have taken effect can be put in one order, in which the object gives every
answer that was given, and which respects which request was answered before
which was issued.

* `Points.linearizes` — if every request takes effect in one event, at which
  the object would have given its answer, the order of these events is one;
* `state_eq_lastWrite` — what a map holds after a sequence of requests;
* `exists_lastWrite`   — a write is overwritten by later ones only.
-/

namespace Linearizability

variable {St Op Res ι ε K V : Type*}

-- ---------------------------------------------------------------------------
-- Sequential objects
-- ---------------------------------------------------------------------------

structure Object (St Op Res : Type*) where
  init : St
  apply : Op → St → St × Res

namespace Object

variable (O : Object St Op Res)

/-- The state after the operations. -/
def state (ops : List Op) : St := ops.foldl (fun s op => (O.apply op s).1) O.init

/-- The result of `op` after the operations. -/
def result (ops : List Op) (op : Op) : Res := (O.apply op (O.state ops)).2

@[simp] theorem state_nil : O.state [] = O.init := rfl

@[simp] theorem state_snoc (ops : List Op) (op : Op) :
    O.state (ops ++ [op]) = (O.apply op (O.state ops)).1 := by
  rw [state, List.foldl_append]
  rfl

end Object

-- ---------------------------------------------------------------------------
-- Concurrent histories
-- ---------------------------------------------------------------------------

/-- What is known of a run: what each request asks for, what it was answered,
and which request was answered before which was issued. -/
structure History (ι Op Res : Type*) where
  op : ι → Option Op
  answer : ι → Res → Prop
  before : ι → ι → Prop

/-- `L` is a linearization of `H` to `O`. -/
structure Linearizes (O : Object St Op Res) (H : History ι Op Res) (L : List ι) : Prop where
  nodup : L.Nodup
  /-- what was answered has taken effect -/
  complete : ∀ i res, H.answer i res → i ∈ L
  realTime : ∀ i j, H.before i j → j ∈ L → [i, j].Sublist L
  legal : ∀ pre i post, L = pre ++ i :: post → ∀ res, H.answer i res →
    ∃ op, H.op i = some op ∧ res = O.result (pre.filterMap H.op) op

/-- In the run `E` every request takes effect in the event that `point` assigns
to it. -/
structure Points (O : Object St Op Res) (H : History ι Op Res) (E : List ε)
    (point : ε → Option ι) : Prop where
  once : (E.filterMap point).Nodup
  /-- the object would have given the answer then -/
  answered : ∀ i res, H.answer i res → ∃ pre e post, E = pre ++ e :: post ∧ point e = some i ∧
    ∃ op, H.op i = some op ∧ res = O.result ((pre.filterMap point).filterMap H.op) op
  /-- what was answered before has taken effect before -/
  ordered : ∀ i j, H.before i j → ∀ pre e post, E = pre ++ e :: post → point e = some j →
    i ∈ pre.filterMap point

variable {O : Object St Op Res} {H : History ι Op Res} {E : List ε} {point : ε → Option ι}

theorem filterMap_split {pre post : List ε} {e : ε} {i : ι} (he : point e = some i) :
    (pre ++ e :: post).filterMap point =
      pre.filterMap point ++ i :: post.filterMap point := by
  rw [List.filterMap_append, List.filterMap_cons_some he]

/--
**Linearization points.** The order in which requests take effect linearizes
the history.
-/
theorem Points.linearizes (h : Points O H E point) : Linearizes O H (E.filterMap point) where
  nodup := h.once
  complete := by
    intro i res hres
    obtain ⟨pre, e, post, rfl, he, -⟩ := h.answered i res hres
    rw [filterMap_split he]
    exact List.mem_append_right _ List.mem_cons_self
  realTime := by
    intro i j hij hj
    obtain ⟨e, hmem, he⟩ := List.mem_filterMap.mp hj
    obtain ⟨pre, post, rfl⟩ := List.append_of_mem hmem
    have hi := h.ordered i j hij pre e post rfl he
    rw [filterMap_split he]
    exact (List.singleton_sublist.mpr hi).append
      (List.singleton_sublist.mpr List.mem_cons_self)
  legal := by
    intro pre' i post' hsplit res hres
    obtain ⟨pre, e, post, rfl, he, hop⟩ := h.answered i res hres
    have hnodup := h.once
    rw [filterMap_split he] at hsplit hnodup
    obtain ⟨hpre, hpost⟩ := List.nodup_middle.mp hnodup |> List.nodup_cons.mp |>.1
      |> List.mem_append.not.mp |> not_or.mp
    obtain ⟨rfl, -, -⟩ := (List.append_cons_inj_of_notMem hpre hpost).mp hsplit
    exact hop

/-- What comes before, as a split of the order. -/
theorem Linearizes.split {L : List ι} (h : Linearizes O H L) {i j : ι} (hij : H.before i j)
    (hj : j ∈ L) : ∃ pre mid post, L = pre ++ i :: mid ++ j :: post := by
  obtain ⟨r₁, r₂, rfl, hi, hsub⟩ := List.cons_sublist_iff.mp (h.realTime i j hij hj)
  obtain ⟨pre, mid, rfl⟩ := List.append_of_mem hi
  obtain ⟨mid', post, rfl⟩ := List.append_of_mem (List.singleton_sublist.mp hsub)
  exact ⟨pre, mid ++ mid', post, by simp⟩

-- ---------------------------------------------------------------------------
-- Maps
-- ---------------------------------------------------------------------------

/-- The last value written to `k`, where `write k` says what an operation
writes there. -/
def lastWrite (write : K → Op → Option V) (k : K) (ops : List Op) : Option V :=
  (ops.filterMap (write k)).getLast?

/-- A map holds what was last written, if every operation either writes to a
key or leaves it alone. -/
theorem state_eq_lastWrite {O : Object (K → Option V) Op Res} {write : K → Op → Option V}
    (hinit : ∀ k, O.init k = none)
    (happly : ∀ op s k, (O.apply op s).1 k = (write k op).or (s k)) (ops : List Op) (k : K) :
    O.state ops k = lastWrite write k ops := by
  induction ops using List.reverseRecOn with
  | nil => exact hinit k
  | append_singleton ops op ih =>
    rw [Object.state_snoc, happly, ih]
    unfold lastWrite
    rw [List.filterMap_append, List.getLast?_append]
    cases hop : write k op with
    | none => rw [List.filterMap_cons_none hop]; rfl
    | some v => rw [List.filterMap_cons_some hop]; rfl

/-- After a write a key holds what was written then or later. -/
theorem exists_lastWrite (f : ι → Option V) (pre post : List ι) {i : ι}
    (hi : (f i).isSome = true) :
    ∃ j ∈ i :: post, ∃ v, f j = some v ∧ ((pre ++ i :: post).filterMap f).getLast? = some v := by
  obtain ⟨v, hv⟩ := Option.isSome_iff_exists.mp hi
  rw [filterMap_split hv, List.getLast?_append_cons, ← List.filterMap_cons_some hv]
  have hne : (i :: post).filterMap f ≠ [] := by
    rw [List.filterMap_cons_some hv]
    exact List.cons_ne_nil _ _
  obtain ⟨j, hj, hjv⟩ := List.mem_filterMap.mp (List.getLast_mem hne)
  exact ⟨j, hj, _, hjv, List.getLast?_eq_some_getLast hne⟩

end Linearizability
