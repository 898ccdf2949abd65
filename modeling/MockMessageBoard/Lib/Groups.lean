import Mathlib.Data.List.Sort
import Mathlib.Data.List.Dedup
import Mathlib.Data.List.Perm.Basic
import Mathlib.Tactic

/-!
# Groups of rows

A table is a list of rows; `group` selects the rows of one key and keeps their
order, `keys` lists each key once. The second half is about the two smallest
elements of a list.

* `filter_keys_eq`      — a key is listed once if a row has it;
* `length_eq_sum_group` — each row is in one group;
* `leadsSorted_iff`     — a list leads with its two smallest elements exactly
  when sorting leaves its first two places alone;
* `insertionSort_congr` — sorting forgets the order.
-/

namespace Groups

variable {α κ : Type}

-- ---------------------------------------------------------------------------
-- Keys and their rows
-- ---------------------------------------------------------------------------

section Keys

variable [DecidableEq κ] (key : α → κ)

/-- The rows with key `k`, in their order. -/
def group (k : κ) (rows : List α) : List α := rows.filter fun a => key a = k

/-- The keys of the rows, each once. -/
def keys (rows : List α) : List κ := (rows.map key).dedup

theorem mem_keys {k : κ} {rows : List α} : k ∈ keys key rows ↔ ∃ a ∈ rows, key a = k := by
  rw [keys, List.mem_dedup, List.mem_map]

theorem nodup_keys (rows : List α) : (keys key rows).Nodup := List.nodup_dedup _

theorem group_eq_nil_iff {k : κ} {rows : List α} :
    group key k rows = [] ↔ k ∉ keys key rows := by
  rw [group, List.filter_eq_nil_iff, mem_keys]
  simp

/-- A key is listed once if a row has it, and not at all otherwise. -/
theorem filter_keys_eq {l : List κ} {rows : List α} (hperm : l.Perm (keys key rows)) (k : κ) :
    l.filter (fun k' => k' = k) = if group key k rows = [] then [] else [k] := by
  have hnodup : l.Nodup := hperm.nodup_iff.mpr (nodup_keys key rows)
  have hmem : k ∈ l ↔ group key k rows ≠ [] := by
    rw [hperm.mem_iff, Ne, group_eq_nil_iff, not_not]
  by_cases hk : k ∈ l
  · rw [if_neg (hmem.mp hk), List.filter_eq, List.count_eq_one_of_mem hnodup hk]
    rfl
  · rw [if_pos (by_contra fun h => hk (hmem.mpr h)), List.filter_eq, List.count_eq_zero.mpr hk]
    rfl

/-- Rows that stand under distinct keys. -/
theorem group_flatMap {β : Type} {ks : List κ} (hnodup : ks.Nodup) (f : κ → List β) (k : κ) :
    (group Prod.fst k (ks.flatMap fun k' => (f k').map fun b => (k', b))).map Prod.snd =
      if k ∈ ks then f k else [] := by
  induction ks with
  | nil => rfl
  | cons k' ks ih =>
    obtain ⟨hnew, hnodup⟩ := List.nodup_cons.mp hnodup
    have hsplit := ih hnodup
    unfold group at hsplit ⊢
    rw [List.flatMap_cons, List.filter_append, List.map_append, hsplit, List.filter_map,
      List.map_map]
    by_cases hk : k' = k
    · subst hk
      rw [if_neg hnew, if_pos List.mem_cons_self, List.append_nil]
      simp [Function.comp_def]
    · simp [Function.comp_def, hk, Ne.symm hk]

/-- Each row is in one group. -/
theorem length_eq_sum_group {rows : List α} {S : Finset κ} (hkeys : ∀ a ∈ rows, key a ∈ S) :
    rows.length = ∑ k ∈ S, (group key k rows).length := by
  induction rows with
  | nil => simp [group]
  | cons a rows ih =>
    obtain ⟨ha, hrows⟩ := List.forall_mem_cons.mp hkeys
    have hcons : ∀ k, (group key k (a :: rows)).length =
        (if key a = k then 1 else 0) + (group key k rows).length := by
      intro k
      by_cases hk : key a = k <;> simp [group, hk, Nat.add_comm]
    rw [Finset.sum_congr rfl fun k _ => hcons k, Finset.sum_add_distrib, ← ih hrows,
      Finset.sum_ite_eq, if_pos ha, List.length_cons, Nat.add_comm]

/-- A key that tells the rows apart groups equal ones. -/
theorem length_group_eq_count [DecidableEq α] {k : κ} {a : α} {rows : List α}
    (h : ∀ b ∈ rows, key b = k ↔ b = a) : (group key k rows).length = rows.count a := by
  rw [group, ← List.countP_eq_length_filter, List.count]
  refine List.countP_congr fun b hb => ?_
  simp [h b hb]

end Keys

/-- A sum over the places of a list. -/
theorem sum_range_eq_sum_map {l : List α} {f : Nat → Nat} {g : α → Nat}
    (h : ∀ i a, l[i]? = some a → f i = g a) :
    ∑ i ∈ Finset.range l.length, f i = (l.map g).sum := by
  induction l generalizing f with
  | nil => rfl
  | cons a l ih =>
    have htail := ih (f := fun i => f (i + 1)) fun i b hb => h (i + 1) b hb
    rw [List.length_cons, Finset.sum_range_succ', List.map_cons, List.sum_cons, htail, h 0 a rfl,
      Nat.add_comm]

theorem sum_range_le_sum_map {l : List α} {f : Nat → Nat} {g : α → Nat}
    (h : ∀ i a, l[i]? = some a → f i ≤ g a) :
    ∑ i ∈ Finset.range l.length, f i ≤ (l.map g).sum := by
  induction l generalizing f with
  | nil => simp
  | cons a l ih =>
    have htail := ih (f := fun i => f (i + 1)) fun i b hb => h (i + 1) b hb
    have hhead := h 0 a rfl
    rw [List.length_cons, Finset.sum_range_succ', List.map_cons, List.sum_cons]
    omega

-- ---------------------------------------------------------------------------
-- The two smallest elements
-- ---------------------------------------------------------------------------

section Order

variable (r : α → α → Prop)

/-- The list begins with its two smallest elements, in order. -/
def LeadsSorted : List α → Prop
  | x :: y :: rest => r x y ∧ ∀ z ∈ rest, r y z
  | _ => True

/-- The first two elements of such a list are in order. -/
theorem leadsSorted_pair {l : List α} (h : LeadsSorted r l) {x y : α} (hx : l[0]? = some x)
    (hy : l[1]? = some y) : r x y := by
  match l with
  | [] => cases hx
  | [z] => cases hy
  | _ :: _ :: rest =>
    obtain rfl := Option.some.inj hx
    obtain rfl := Option.some.inj hy
    exact h.1

variable [DecidableRel r] [IsTrans α r]

/-- The sorted list, when the two smallest elements lead. -/
theorem insertionSort_of_leads {x y : α} {rest : List α} (h : LeadsSorted r (x :: y :: rest)) :
    (x :: y :: rest).insertionSort r = x :: y :: rest.insertionSort r := by
  obtain ⟨hxy, hy⟩ := h
  have hyrest : (y :: rest).insertionSort r = y :: rest.insertionSort r :=
    List.insertionSort_cons_of_forall_rel r hy
  rw [List.insertionSort_cons_of_forall_rel r, hyrest]
  intro z hz
  rcases List.mem_cons.mp hz with rfl | hz
  · exact hxy
  · exact IsTrans.trans _ _ _ hxy (hy z hz)

variable [Std.Total r]

/-- **A list leads with its two smallest elements** exactly when sorting leaves
its first two places alone. -/
theorem leadsSorted_iff (l : List α) :
    LeadsSorted r l ↔ (l.insertionSort r)[0]? = l[0]? ∧ (l.insertionSort r)[1]? = l[1]? := by
  match l with
  | [] => exact iff_of_true trivial ⟨rfl, rfl⟩
  | [x] => exact iff_of_true trivial ⟨rfl, rfl⟩
  | x :: y :: rest =>
    constructor
    · intro h
      rw [insertionSort_of_leads r h]
      exact ⟨rfl, rfl⟩
    · intro h
      have hsorted := List.pairwise_insertionSort r (x :: y :: rest)
      have hperm := List.perm_insertionSort r (x :: y :: rest)
      generalize (x :: y :: rest).insertionSort r = sorted at h hsorted hperm
      match sorted with
      | [] => simp at h
      | [a] => simp at h
      | a :: b :: rest' =>
        obtain rfl : a = x := by simpa using h.1
        obtain rfl : b = y := by simpa using h.2
        rw [List.pairwise_cons, List.pairwise_cons] at hsorted
        refine ⟨hsorted.1 b (List.mem_cons_self ..), fun z hz => ?_⟩
        have hrest : rest'.Perm rest := hperm.cons_inv.cons_inv
        exact hsorted.2.1 z (hrest.mem_iff.mpr hz)

variable [Std.Antisymm r]

/-- Sorting forgets the order. -/
theorem insertionSort_congr {l l' : List α} (h : l.Perm l') :
    l.insertionSort r = l'.insertionSort r :=
  List.Perm.eq_of_pairwise (fun a b _ _ hab hba => Std.Antisymm.antisymm a b hab hba)
    (List.pairwise_insertionSort r l) (List.pairwise_insertionSort r l')
    ((List.perm_insertionSort r l).trans (h.trans (List.perm_insertionSort r l').symm))

end Order

end Groups
