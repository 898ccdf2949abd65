import MockMessageBoard.Lib.Groups
import MockMessageBoard.Stats.Csv
import Mathlib.Algebra.Order.Field.Rat

/-!
# MockMessageBoard — treat_data

`treat_data` of `data_analysis/plot_utils.py`, from the rows that `read_csv`
has read to the frame of spans. The times are made relative to the start of the
run and divided by `time_factor`; the division is pandas' and stands as a
parameter `scale`. `sort_values` returns a sorted copy, which the function drops,
so a group keeps the order of the file and its first two rows are taken as they
come.

* `spansOf_treatData` — the span of a query is that of its first two rows;
* `spans_sorted_iff`  — when these are its smallest times, and in order.
-/

namespace MockMessageBoard

open TextFile Groups

/-- `CLIENT_UID_SHIFT`. -/
def clientUidShift : UInt64 := 28

/-- `QUERY_INDEX_MASK`. -/
def queryIndexMask : UInt64 := 0xFFFFFFF

/-- The columns that `groupby` groups by. -/
structure QueryKey where
  queryUid : UInt64
  clientUid : UInt64
  queryIndex : UInt64
  deriving DecidableEq, Repr

/-- `np.right_shift(df["query_uid"], CLIENT_UID_SHIFT)` and
`df["query_uid"] & QUERY_INDEX_MASK`. -/
def queryKey (queryUid : UInt64) : QueryKey :=
  ⟨queryUid, queryUid >>> clientUidShift, queryUid &&& queryIndexMask⟩

/-- The order in which `groupby` lists the groups. -/
def QueryKey.le (a b : QueryKey) : Prop :=
  a.queryUid < b.queryUid ∨ a.queryUid = b.queryUid ∧
    (a.clientUid < b.clientUid ∨ a.clientUid = b.clientUid ∧ a.queryIndex ≤ b.queryIndex)

instance : DecidableRel QueryKey.le := fun _ _ => inferInstanceAs (Decidable (_ ∨ _))

/-- A row of `df` when it is grouped. -/
structure FrameRow (τ : Type) where
  key : QueryKey
  epochTime : τ
  deriving DecidableEq

/-- A row of the frame that is returned: `end` is missing (NaN) for a query
with one row. -/
structure QuerySpan (τ : Type) where
  key : QueryKey
  start : τ
  «end» : Option τ
  deriving DecidableEq

variable {τ : Type}

/-- The two functions that `agg` applies to a group. -/
def aggregate (key : QueryKey) : List (FrameRow τ) → Option (QuerySpan τ)
  | [] => none
  | first :: rest => some ⟨key, first.epochTime, rest.head?.map FrameRow.epochTime⟩

/-- The smallest `epoch_time` of a table. -/
def minEpochTime (df : List Entry) : Option UInt64 := (df.map Entry.epochTime).min?

/-- `treat_data`, given the rows of the file: the frame and the `time_start` it
has used. A table without rows has no start, and no row to subtract it from. -/
def treatData (scale : UInt64 → τ) (df : List Entry) (timeStart : Option UInt64) :
    List (QuerySpan τ) × Option UInt64 :=
  let timeStart := timeStart <|> minEpochTime df
  let rows := df.map fun e =>
    FrameRow.mk (queryKey e.queryId) (scale (e.epochTime - timeStart.getD 0))
  -- `df.sort_values(["query_uid", "epoch_time"])` leaves `df` as it is
  let groups := (keys FrameRow.key rows).insertionSort QueryKey.le
  (groups.filterMap fun key => aggregate key (group FrameRow.key key rows), timeStart)

-- ---------------------------------------------------------------------------
-- The span of a query
-- ---------------------------------------------------------------------------

/-- The times of the rows of a query, in the order of the file. -/
def timesOf (df : List Entry) (uid : UInt64) : List UInt64 :=
  (df.filter fun e => e.queryId = uid).map Entry.epochTime

/-- The `start` and `end` of the rows of a frame for a query. -/
def spansOf (frame : List (QuerySpan τ)) (uid : UInt64) : List (τ × Option τ) :=
  (frame.filter fun row => row.key.queryUid = uid).map fun row => (row.start, row.end)

/-- The span of the first two times of a list, if there is one. -/
def firstTwo (f : UInt64 → τ) : List UInt64 → List (τ × Option τ)
  | [] => []
  | t :: rest => [(f t, rest.head?.map f)]

theorem queryKey_inj {uid uid' : UInt64} : queryKey uid = queryKey uid' ↔ uid = uid' :=
  ⟨fun h => congrArg QueryKey.queryUid h, fun h => congrArg queryKey h⟩

theorem group_queryKey (f : UInt64 → τ) (df : List Entry) (uid : UInt64) :
    (group FrameRow.key (queryKey uid) (df.map fun e =>
      FrameRow.mk (queryKey e.queryId) (f e.epochTime))).map FrameRow.epochTime =
      (timesOf df uid).map f := by
  unfold group timesOf
  rw [List.filter_map, List.map_map, List.map_map]
  congr 1
  refine List.filter_congr fun e _ => ?_
  exact decide_eq_decide.mpr queryKey_inj

theorem aggregate_key {key : QueryKey} {rows : List (FrameRow τ)} {row : QuerySpan τ}
    (h : aggregate key rows = some row) : row.key = key := by
  cases rows with
  | nil => cases h
  | cons first rest =>
    obtain rfl := Option.some.inj h
    rfl

/-- The rows of the frame for a query come from its group only. -/
theorem filter_frame {rows : List (FrameRow τ)} {groups : List QueryKey} {uid : UInt64}
    (hkeys : ∀ key ∈ groups, key = queryKey key.queryUid) :
    (groups.filterMap fun key => aggregate key (group FrameRow.key key rows)).filter
        (fun row => row.key.queryUid = uid) =
      (groups.filter fun key => key = queryKey uid).filterMap fun key =>
        aggregate key (group FrameRow.key key rows) := by
  rw [List.filter_filterMap, List.filterMap_filter]
  refine List.filterMap_congr fun key hkey => ?_
  have huid : key.queryUid = uid ↔ key = queryKey uid := by
    rw [hkeys key hkey]
    exact queryKey_inj.symm
  cases hrow : aggregate key (group FrameRow.key key rows) with
  | none => simp
  | some row =>
    rw [Option.filter_some, aggregate_key hrow]
    simp only [huid, decide_eq_true_eq]

theorem aggregate_of_map {f : UInt64 → τ} (key : QueryKey) {rows : List (FrameRow τ)}
    {times : List UInt64} (h : rows.map FrameRow.epochTime = times.map f) :
    (aggregate key rows).toList.map (fun row => (row.start, row.end)) = firstTwo f times := by
  cases rows with
  | nil =>
    obtain rfl := List.map_eq_nil_iff.mp h.symm
    rfl
  | cons first rest =>
    cases times with
    | nil => cases h
    | cons t times =>
      rw [List.map_cons, List.map_cons, List.cons.injEq] at h
      show [(first.epochTime, rest.head?.map FrameRow.epochTime)] = [(f t, times.head?.map f)]
      rw [h.1, ← List.head?_map, h.2, List.head?_map]

/-- **The span of a query** is that of its first two rows. -/
theorem spansOf_treatData (scale : UInt64 → τ) (df : List Entry) (timeStart : Option UInt64)
    (uid : UInt64) :
    spansOf (treatData scale df timeStart).1 uid =
      firstTwo (fun t => scale (t - (timeStart <|> minEpochTime df).getD 0)) (timesOf df uid) := by
  set f : UInt64 → τ := fun t => scale (t - (timeStart <|> minEpochTime df).getD 0) with hf
  set rows := df.map fun e => FrameRow.mk (queryKey e.queryId) (f e.epochTime) with hrows
  have hperm := List.perm_insertionSort QueryKey.le (keys FrameRow.key rows)
  have hkeys : ∀ key ∈ (keys FrameRow.key rows).insertionSort QueryKey.le,
      key = queryKey key.queryUid := by
    intro key hkey
    obtain ⟨row, hrow, rfl⟩ := (mem_keys _).mp (hperm.mem_iff.mp hkey)
    obtain ⟨e, -, rfl⟩ := List.mem_map.mp hrow
    rfl
  show spansOf (((keys FrameRow.key rows).insertionSort QueryKey.le).filterMap fun key =>
    aggregate key (group FrameRow.key key rows)) uid = _
  unfold spansOf
  rw [filter_frame hkeys, filter_keys_eq FrameRow.key hperm]
  have hgroup := group_queryKey f df uid
  rw [← hrows] at hgroup
  rw [← aggregate_of_map (queryKey uid) hgroup]
  split
  · rename_i hnil
    rw [hnil]
    rfl
  · rw [List.filterMap_cons, List.filterMap_nil]
    cases aggregate (queryKey uid) (group FrameRow.key (queryKey uid) rows) <;> rfl

-- ---------------------------------------------------------------------------
-- The order of the rows
-- ---------------------------------------------------------------------------

theorem timesOf_perm {df df' : List Entry} (h : df.Perm df') (uid : UInt64) :
    (timesOf df uid).Perm (timesOf df' uid) :=
  (h.filter _).map _

theorem minEpochTime_perm {df df' : List Entry} (h : df.Perm df') :
    minEpochTime df = minEpochTime df' := by
  have hmap := h.map Entry.epochTime
  unfold minEpochTime
  cases hmin : (df'.map Entry.epochTime).min? with
  | none =>
    rw [List.min?_eq_none_iff] at hmin ⊢
    rw [hmin] at hmap
    exact hmap.eq_nil
  | some t =>
    rw [List.min?_eq_some_iff] at hmin ⊢
    exact ⟨hmap.mem_iff.mpr hmin.1, fun t' ht' => hmin.2 t' (hmap.mem_iff.mp ht')⟩

/-- The spans of two lists of times agree exactly when their first two times
do, if `f` keeps the times of both apart. -/
theorem firstTwo_eq_iff {f : UInt64 → τ} {l l' : List UInt64} (hlen : l.length = l'.length)
    (hf : ∀ t ∈ l, ∀ t' ∈ l', f t = f t' → t = t') :
    firstTwo f l = firstTwo f l' ↔ l'[0]? = l[0]? ∧ l'[1]? = l[1]? := by
  match l, l' with
  | [], [] => simp
  | [t], [t'] =>
    simp only [firstTwo, List.head?_nil, Option.map_none, List.cons.injEq, Prod.mk.injEq, and_true,
      List.getElem?_cons_zero, Option.some.injEq, List.getElem?_cons_succ, List.getElem?_nil]
    exact ⟨fun h => (hf t (by simp) t' (by simp) h).symm, fun h => congrArg f h.symm⟩
  | t :: u :: rest, t' :: u' :: rest' =>
    simp only [firstTwo, List.head?_cons, Option.map_some, List.cons.injEq, Prod.mk.injEq, and_true,
      List.getElem?_cons_zero, Option.some.injEq, List.getElem?_cons_succ]
    constructor
    · rintro ⟨ht, hu⟩
      exact ⟨(hf t (by simp) t' (by simp) ht).symm, (hf u (by simp) u' (by simp) hu).symm⟩
    · rintro ⟨rfl, rfl⟩
      exact ⟨rfl, rfl⟩

/-- A span does not end before it starts if `f` keeps the order of its two times. -/
theorem start_le_firstTwo_iff [LE τ] {f : UInt64 → τ} {l : List UInt64} :
    (∀ start stop, (start, some stop) ∈ firstTwo f l → start ≤ stop) ↔
      ∀ t t', l[0]? = some t → l[1]? = some t' → f t ≤ f t' := by
  match l with
  | [] => simp [firstTwo]
  | [t] => simp [firstTwo]
  | t :: t' :: rest =>
    constructor
    · intro hspan u u' hu hu'
      obtain rfl := Option.some.inj hu
      obtain rfl := Option.some.inj hu'
      exact hspan _ _ (List.mem_singleton.mpr rfl)
    · intro hle start stop hspan
      simp only [firstTwo, List.head?_cons, Option.map_some, List.mem_singleton, Prod.mk.injEq,
        Option.some.injEq] at hspan
      obtain ⟨rfl, rfl⟩ := hspan
      exact hle t t' rfl rfl

/-- The rows of a frame are in order if the spans of each query are. -/
theorem spans_ordered_iff [LE τ] {frame : List (QuerySpan τ)} :
    (∀ row ∈ frame, ∀ t, row.end = some t → row.start ≤ t) ↔
      ∀ uid start stop, (start, some stop) ∈ spansOf frame uid → start ≤ stop := by
  constructor
  · intro hrows uid start stop hspan
    obtain ⟨row, hrow, heq⟩ := List.mem_map.mp hspan
    obtain ⟨rfl, hend⟩ := Prod.mk.inj heq
    exact hrows row (List.mem_filter.mp hrow).1 stop hend
  · intro hspans row hrow t ht
    refine hspans row.key.queryUid row.start t (List.mem_map.mpr ⟨row, ?_, by rw [ht]⟩)
    exact List.mem_filter.mpr ⟨hrow, decide_eq_true rfl⟩

/-- The times of a query, smallest first. -/
def sortedTimes (df : List Entry) (uid : UInt64) : List UInt64 :=
  (timesOf df uid).insertionSort (· ≤ ·)

theorem mem_timesOf {df : List Entry} {uid t : UInt64} :
    t ∈ timesOf df uid ↔ ∃ e ∈ df, e.queryId = uid ∧ e.epochTime = t := by
  simp [timesOf, and_assoc]

theorem word_trichotomy (a b : UInt64) : a < b ∨ a = b ∨ b < a := by
  rw [UInt64.lt_iff_toNat_lt, UInt64.lt_iff_toNat_lt, ← UInt64.toNat_inj]
  exact Nat.lt_trichotomy _ _

/-- The first time of a query lies before `start`, and its second does not. -/
def Straddles (start : UInt64) (times : List UInt64) : Prop :=
  ∃ t t', times[0]? = some t ∧ times[1]? = some t' ∧ t < start ∧ start ≤ t'

/-- Subtraction keeps the order of two times, unless `start` lies between them and
the first one wraps. -/
theorem word_sub_le_iff {t t' start : UInt64} (hle : t ≤ t') :
    t - start ≤ t' - start ↔ ¬(t < start ∧ start ≤ t') := by
  have hstart := start.toNat_lt
  have ht' := t'.toNat_lt
  rw [UInt64.le_iff_toNat_le] at hle
  rw [UInt64.le_iff_toNat_le, UInt64.lt_iff_toNat_lt, UInt64.le_iff_toNat_le, UInt64.toNat_sub,
    UInt64.toNat_sub]
  omega

section Scale

variable [Preorder τ] {scale : UInt64 → τ} {df : List Entry} {start : UInt64}
  (hscale : ∀ e ∈ df, ∀ e' ∈ df, e.epochTime - start < e'.epochTime - start →
    scale (e.epochTime - start) < scale (e'.epochTime - start))

include hscale

/-- Times that the division keeps in order are kept apart. -/
theorem scale_inj {e e' : Entry} (he : e ∈ df) (he' : e' ∈ df)
    (heq : scale (e.epochTime - start) = scale (e'.epochTime - start)) :
    e.epochTime = e'.epochTime := by
  rcases word_trichotomy (e.epochTime - start) (e'.epochTime - start) with hlt | hsame | hlt
  · exact absurd heq (hscale e he e' he' hlt).ne
  · exact (UInt64.sub_left_inj _).mp hsame
  · exact absurd heq.symm (hscale e' he' e he hlt).ne

/-- The division keeps the order of what is divided, in both directions. -/
theorem scale_le_iff {e e' : Entry} (he : e ∈ df) (he' : e' ∈ df) :
    scale (e.epochTime - start) ≤ scale (e'.epochTime - start) ↔
      e.epochTime - start ≤ e'.epochTime - start := by
  constructor
  · intro hle
    rw [← UInt64.not_lt]
    exact fun hlt => (hscale e' he' e he hlt).not_ge hle
  · intro hle
    rcases word_trichotomy (e.epochTime - start) (e'.epochTime - start) with hlt | hsame | hlt
    · exact (hscale e he e' he' hlt).le
    · rw [hsame]
    · exact absurd hlt (UInt64.not_lt.mpr hle)

/-- Two times in order stay in order, unless they straddle `start`. -/
theorem scale_ordered_iff {times : List UInt64} (hlead : LeadsSorted (· ≤ ·) times)
    (hmem : ∀ t ∈ times, ∃ e ∈ df, e.epochTime = t) :
    (∀ t t', times[0]? = some t → times[1]? = some t' →
      scale (t - start) ≤ scale (t' - start)) ↔ ¬Straddles start times := by
  have hpair : ∀ t t', times[0]? = some t → times[1]? = some t' →
      (scale (t - start) ≤ scale (t' - start) ↔ ¬(t < start ∧ start ≤ t')) := by
    intro t t' ht ht'
    have hle : t ≤ t' := leadsSorted_pair _ hlead ht ht'
    obtain ⟨e, he, rfl⟩ := hmem t (List.mem_of_getElem? ht)
    obtain ⟨e', he', rfl⟩ := hmem t' (List.mem_of_getElem? ht')
    rw [scale_le_iff hscale he he', word_sub_le_iff hle]
  constructor
  · rintro hordered ⟨t, t', ht, ht', hbetween⟩
    exact (hpair t t' ht ht').mp (hordered t t' ht ht') hbetween
  · intro hnot t t' ht ht'
    exact (hpair t t' ht ht').mpr fun hbetween => hnot ⟨t, t', ht, ht', hbetween⟩

end Scale

/-- Division by the default `time_factor`. -/
def milliseconds (t : UInt64) : ℚ := (t.toNat : ℚ) / 1000

theorem milliseconds_lt {t t' : UInt64} (h : t < t') : milliseconds t < milliseconds t' := by
  unfold milliseconds
  have hnat : (t.toNat : ℚ) < t'.toNat := by exact_mod_cast UInt64.lt_iff_toNat_lt.mp h
  linarith

end MockMessageBoard
