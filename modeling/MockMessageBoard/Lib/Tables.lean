import MockMessageBoard.Lib.Groups
import MockMessageBoard.Lib.Text
import Mathlib.Data.List.ReduceOption

/-!
# Tables — frames with keys and missing cells

A frame is a table whose rows stand under keys; its columns have distinct names
and its cells may be missing. The operations on frames belong to another library,
so they are arbitrary functions here, of which only what is documented is assumed:

* `OuterMerge` — the full outer join on the keys: each row of one table meets each
  row of the other under the same key, a row that meets none is completed with
  missing cells, and the keys are sorted;
* `Selection`  — the columns with some names;
* `Grouping`   — the rows by a column of their keys.

`fullJoin`, `selectColumns` and `groupRows` are functions that behave so.

* `OuterMerge.holds` — the join of two tables with one row for each key;
* `Selection.holds`  — a selection of the columns of such a table;
* `spread_sorted`    — reading nested spans from the outside in, and out again.
-/

namespace Tables

open TextFile Groups

variable {κ τ : Type}

structure Frame (κ τ : Type) where
  columns : List Text
  rows : List (κ × List (Option τ))
  distinct : columns.Nodup
  width : ∀ row ∈ rows, row.2.length = columns.length

/-- A row of missing cells. -/
def blank (n : Nat) : List (Option τ) := List.replicate n none

namespace Frame

/-- The keys of the rows. -/
def index (f : Frame κ τ) : List κ := f.rows.map Prod.fst

/-- A cell of a row, by the name of its column. -/
def cell (f : Frame κ τ) (row : List (Option τ)) (name : Text) : Option τ :=
  row.getD (f.columns.idxOf name) none

variable [DecidableEq κ]

/-- The rows under a key. -/
def under (f : Frame κ τ) (k : κ) : List (List (Option τ)) :=
  (group Prod.fst k f.rows).map Prod.snd

/-- What a row with the key is joined with. -/
def partners (f : Frame κ τ) (k : κ) : List (List (Option τ)) :=
  match f.under k with
  | [] => [blank f.columns.length]
  | rows => rows

theorem mem_under {f : Frame κ τ} {k : κ} {row : List (Option τ)} :
    row ∈ f.under k ↔ (k, row) ∈ f.rows := by
  simp [under, group]

theorem width_partners {f : Frame κ τ} {k : κ} {row : List (Option τ)}
    (h : row ∈ f.partners k) : row.length = f.columns.length := by
  unfold partners at h
  split at h
  · rw [List.mem_singleton.mp h, blank, List.length_replicate]
  · exact f.width _ (mem_under.mp h)

theorem under_eq_nil_iff {f : Frame κ τ} {k : κ} : f.under k = [] ↔ k ∉ f.index := by
  rw [List.eq_nil_iff_forall_not_mem]
  constructor
  · intro h hk
    obtain ⟨⟨_, row⟩, hrow, rfl⟩ := List.mem_map.mp hk
    exact h row (mem_under.mpr hrow)
  · intro h row hrow
    exact h (List.mem_map.mpr ⟨_, mem_under.mp hrow, rfl⟩)

theorem partners_of_mem {f : Frame κ τ} {k : κ} (h : k ∈ f.index) :
    f.partners k = f.under k := by
  unfold partners
  split
  · rename_i hnil
    exact absurd h (under_eq_nil_iff.mp hnil)
  · rfl

theorem partners_of_not_mem {f : Frame κ τ} {k : κ} (h : k ∉ f.index) :
    f.partners k = [blank f.columns.length] := by
  rw [partners, under_eq_nil_iff.mpr h]

theorem length_under (f : Frame κ τ) (k : κ) : (f.under k).length = f.index.count k := by
  rw [under, group, List.length_map, index, List.count, List.countP_map,
    List.countP_eq_length_filter]
  rfl

/-- One row for each of the keys, with these cells. -/
structure Holds (f : Frame κ τ) (has : κ → Prop) (cells : κ → List (Option τ)) : Prop where
  mem_index : ∀ k, k ∈ f.index ↔ has k
  partners_eq : ∀ k, f.partners k = [cells k]

namespace Holds

variable {f : Frame κ τ} {has : κ → Prop} {cells : κ → List (Option τ)}

theorem under_eq (h : f.Holds has cells) {k : κ} (hk : has k) : f.under k = [cells k] := by
  rw [← partners_of_mem ((h.mem_index k).mpr hk), h.partners_eq]

theorem under_eq_nil (h : f.Holds has cells) {k : κ} (hk : ¬has k) : f.under k = [] :=
  under_eq_nil_iff.mpr (mt (h.mem_index k).mp hk)

theorem cells_eq (h : f.Holds has cells) {k : κ} (hk : ¬has k) :
    cells k = blank f.columns.length := by
  have hpartners := h.partners_eq k
  rw [partners_of_not_mem (mt (h.mem_index k).mp hk)] at hpartners
  exact (List.singleton_inj.mp hpartners).symm

theorem congr (h : f.Holds has cells) {has' : κ → Prop} {cells' : κ → List (Option τ)}
    (hhas : ∀ k, has k ↔ has' k) (hcells : ∀ k, cells k = cells' k) : f.Holds has' cells' where
  mem_index k := (h.mem_index k).trans (hhas k)
  partners_eq k := hcells k ▸ h.partners_eq k

theorem nodup_index (h : f.Holds has cells) : f.index.Nodup := by
  rw [List.nodup_iff_count_le_one]
  intro k
  rw [← length_under]
  by_cases hk : has k
  · rw [h.under_eq hk, List.length_singleton]
  · rw [h.under_eq_nil hk]
    exact Nat.zero_le _

/-- A table holds its rows if no two of them have one key. -/
theorem of_rows {ks : List κ} (hnodup : ks.Nodup) (hrows : f.rows = ks.map fun k => (k, cells k))
    (hblank : ∀ k ∉ ks, cells k = blank f.columns.length) : f.Holds (· ∈ ks) cells := by
  have hindex : f.index = ks := by
    rw [index, hrows, List.map_map]
    exact List.map_id _
  refine ⟨fun k => by rw [hindex], fun k => ?_⟩
  by_cases hk : k ∈ ks
  · have hfilter : ks.filter (fun k' => decide (k' = k)) = [k] := by
      rw [List.filter_eq, List.count_eq_one_of_mem hnodup hk]
      rfl
    rw [partners_of_mem (hindex ▸ hk), under, group, hrows, List.filter_map, List.map_map]
    exact congrArg (List.map cells) hfilter
  · rw [partners_of_not_mem (hindex ▸ hk), hblank k hk]

end Holds

end Frame

open Tables.Frame

/-- The columns with the names, where a table has them. -/
abbrev SelectOp (κ τ : Type) := Frame κ τ → List Text → Option (Frame κ τ)

/-- The join of two tables, and the suffixes for the names that both have. -/
abbrev MergeOp (κ τ : Type) := Frame κ τ → Frame κ τ → Text × Text → Option (Frame κ τ)

/-- A row and its label, the place that it has in its frame. -/
abbrev Labelled (κ τ : Type) := (κ × List (Option τ)) × Nat

/-- The rows for each value of a column. -/
abbrev GroupOp (κ τ β : Type) := Frame κ τ → List (β × List (Labelled κ τ))

-- ---------------------------------------------------------------------------
-- Selections
-- ---------------------------------------------------------------------------

/-- **Selections.** Of a table that has the columns, the cells of each row under their
names, in their order. -/
structure Selection (select : SelectOp κ τ) : Prop where
  selected : ∀ (f : Frame κ τ) (names : List Text), names.Nodup → names ⊆ f.columns →
    ∃ g, select f names = some g ∧ g.columns = names ∧
      g.rows = f.rows.map fun row => (row.1, names.map (f.cell row.2))

theorem cell_blank (f : Frame κ τ) (n : Nat) (name : Text) : f.cell (blank n) name = none := by
  rw [cell, blank, List.getD_eq_getElem?_getD, List.getElem?_replicate]
  split <;> rfl

/-- A selection has the selected cells. -/
theorem Selection.holds [DecidableEq κ] {select : SelectOp κ τ} (h : Selection select)
    {f : Frame κ τ} {has : κ → Prop} {cells : κ → List (Option τ)}
    (hf : f.Holds has cells) {names : List Text} (hnames : names.Nodup)
    (hcolumns : names ⊆ f.columns) :
    ∃ g, select f names = some g ∧ g.columns = names ∧ g.index = f.index ∧
      g.Holds has fun k => names.map (f.cell (cells k)) := by
  obtain ⟨g, hg, hgcols, hrows⟩ := h.selected f names hnames hcolumns
  have hindex : g.index = f.index := by
    rw [index, hrows, List.map_map]
    rfl
  have hunder : ∀ k, g.under k = (f.under k).map fun row => names.map (f.cell row) := by
    intro k
    rw [under, under, group, group, hrows, List.filter_map, List.map_map, List.map_map]
    rfl
  refine ⟨g, hg, hgcols, hindex, fun k => by rw [hindex, hf.mem_index], fun k => ?_⟩
  by_cases hk : has k
  · rw [partners_of_mem (hindex ▸ (hf.mem_index k).mpr hk), hunder, hf.under_eq hk]
    rfl
  · rw [partners_of_not_mem (hindex ▸ mt (hf.mem_index k).mp hk), hgcols, hf.cells_eq hk]
    have hcells : names.map (f.cell (blank f.columns.length)) = blank names.length := by
      refine List.eq_replicate_iff.mpr ⟨List.length_map _, fun c hc => ?_⟩
      obtain ⟨name, -, rfl⟩ := List.mem_map.mp hc
      exact cell_blank f _ name
    rw [hcells]

/-- A selection, cell by cell. -/
def selectColumns (f : Frame κ τ) (names : List Text) : Option (Frame κ τ) :=
  if h : names.Nodup ∧ names ⊆ f.columns then
    some {
      columns := names
      rows := f.rows.map fun row => (row.1, names.map (f.cell row.2))
      distinct := h.1
      width := by
        intro row hrow
        obtain ⟨row', -, rfl⟩ := List.mem_map.mp hrow
        exact List.length_map _ }
  else none

/-- Selections exist. -/
theorem selection_selectColumns : Selection (selectColumns (κ := κ) (τ := τ)) where
  selected _ _ hnames hcolumns := ⟨_, dif_pos ⟨hnames, hcolumns⟩, rfl, rfl⟩

-- ---------------------------------------------------------------------------
-- Outer joins
-- ---------------------------------------------------------------------------

/-- A name with the suffix, if the other table has it too. -/
def suffixed (suffix : Text) (other : List Text) (name : Text) : Text :=
  if name ∈ other then name ++ suffix else name

/-- The names of the columns of a join. -/
def mergeColumns (l r : List Text) (suffixes : Text × Text) : List Text :=
  l.map (suffixed suffixes.1 r) ++ r.map (suffixed suffixes.2 l)

theorem length_mergeColumns (l r : List Text) (suffixes : Text × Text) :
    (mergeColumns l r suffixes).length = l.length + r.length := by
  simp [mergeColumns]

section Merge

variable [DecidableEq κ]

/-- The rows of a full outer join under a key. -/
def joined (l r : Frame κ τ) (k : κ) : List (List (Option τ)) :=
  if k ∈ l.index ∨ k ∈ r.index then
    (l.partners k).flatMap fun a => (r.partners k).map fun b => a ++ b
  else []

theorem length_of_mem_joined {l r : Frame κ τ} {k : κ} {row : List (Option τ)}
    (h : row ∈ joined l r k) : row.length = l.columns.length + r.columns.length := by
  unfold joined at h
  split at h
  · obtain ⟨a, ha, h⟩ := List.mem_flatMap.mp h
    obtain ⟨b, hb, rfl⟩ := List.mem_map.mp h
    rw [List.length_append, width_partners ha, width_partners hb]
  · cases h

/-- **Outer merges.** -/
structure OuterMerge (le : κ → κ → Prop) (merge : MergeOp κ τ) : Prop where
  /-- names that both tables have get a suffix, and no two columns may have one name -/
  columns : ∀ (l r : Frame κ τ) (suffixes : Text × Text),
    (mergeColumns l.columns r.columns suffixes).Nodup →
    ∃ f, merge l r suffixes = some f ∧ f.columns = mergeColumns l.columns r.columns suffixes
  /-- the rows are those of a full outer join -/
  rows : ∀ {l r f : Frame κ τ} {suffixes : Text × Text}, merge l r suffixes = some f →
    ∀ k, (f.under k).Perm (joined l r k)
  /-- the keys are sorted -/
  sorted : ∀ {l r f : Frame κ τ} {suffixes : Text × Text}, merge l r suffixes = some f →
    f.index.Pairwise le

/-- The join of two tables with one row for each key: one row for each key of
either, with the cells of both. -/
theorem OuterMerge.holds {le : κ → κ → Prop} {merge : MergeOp κ τ} (h : OuterMerge le merge)
    {l r : Frame κ τ} {has has' : κ → Prop} {cells cells' : κ → List (Option τ)}
    (hl : l.Holds has cells) (hr : r.Holds has' cells') (suffixes : Text × Text)
    (hnames : (mergeColumns l.columns r.columns suffixes).Nodup) :
    ∃ f, merge l r suffixes = some f ∧
      f.columns = mergeColumns l.columns r.columns suffixes ∧ f.index.Pairwise le ∧
      f.Holds (fun k => has k ∨ has' k) fun k => cells k ++ cells' k := by
  obtain ⟨f, hf, hcols⟩ := h.columns l r suffixes hnames
  have hunder : ∀ k, has k ∨ has' k → f.under k = [cells k ++ cells' k] := by
    intro k hk
    have hperm := h.rows hf k
    rw [joined, if_pos (hk.imp (hl.mem_index k).mpr (hr.mem_index k).mpr), hl.partners_eq,
      hr.partners_eq] at hperm
    exact List.perm_singleton.mp hperm
  have hnone : ∀ k, ¬(has k ∨ has' k) → f.under k = [] := by
    intro k hk
    have hperm := h.rows hf k
    rw [joined, if_neg (mt (Or.imp (hl.mem_index k).mp (hr.mem_index k).mp) hk)] at hperm
    exact hperm.eq_nil
  have hmem : ∀ k, k ∈ f.index ↔ has k ∨ has' k := by
    intro k
    rw [← not_iff_not, ← under_eq_nil_iff]
    refine ⟨fun hnil hk => ?_, hnone k⟩
    rw [hunder k hk] at hnil
    cases hnil
  refine ⟨f, hf, hcols, h.sorted hf, hmem, fun k => ?_⟩
  by_cases hk : has k ∨ has' k
  · rw [partners_of_mem ((hmem k).mpr hk), hunder k hk]
  · obtain ⟨hk₁, hk₂⟩ := not_or.mp hk
    rw [partners_of_not_mem (mt (hmem k).mp hk), hcols, length_mergeColumns, hl.cells_eq hk₁,
      hr.cells_eq hk₂]
    exact congrArg (fun row => [row]) List.replicate_append_replicate.symm

variable (le : κ → κ → Prop) [DecidableRel le]

/-- The elements of two lists, each once, in order. -/
def sortedUnion (ks ks' : List κ) : List κ := (ks ++ ks').dedup.insertionSort le

variable {le} in
theorem mem_sortedUnion {ks ks' : List κ} {k : κ} :
    k ∈ sortedUnion le ks ks' ↔ k ∈ ks ∨ k ∈ ks' := by
  rw [sortedUnion, List.mem_insertionSort, List.mem_dedup, List.mem_append]

theorem nodup_sortedUnion (ks ks' : List κ) : (sortedUnion le ks ks').Nodup :=
  (List.perm_insertionSort le _).nodup_iff.mpr (List.nodup_dedup _)

/-- A full outer join, key by key, that sorts its keys. -/
def fullJoin (l r : Frame κ τ) (suffixes : Text × Text) : Option (Frame κ τ) :=
  if h : (mergeColumns l.columns r.columns suffixes).Nodup then
    some {
      columns := mergeColumns l.columns r.columns suffixes
      rows := (sortedUnion le l.index r.index).flatMap fun k =>
        (joined l r k).map fun row => (k, row)
      distinct := h
      width := by
        intro row hrow
        obtain ⟨k, -, hrow⟩ := List.mem_flatMap.mp hrow
        obtain ⟨_, hjoined, rfl⟩ := List.mem_map.mp hrow
        rw [length_mergeColumns, length_of_mem_joined hjoined] }
  else none

variable {le} in
theorem rows_of_fullJoin {l r f : Frame κ τ} {suffixes : Text × Text}
    (h : fullJoin le l r suffixes = some f) :
    f.rows = (sortedUnion le l.index r.index).flatMap fun k =>
      (joined l r k).map fun row => (k, row) := by
  unfold fullJoin at h
  split at h
  · obtain rfl := Option.some.inj h
    rfl
  · cases h

/-- Outer merges exist. -/
theorem outerMerge_fullJoin [Std.Total le] [IsTrans κ le] :
    OuterMerge le (fullJoin (τ := τ) le) where
  columns _ _ _ hnames := ⟨_, dif_pos hnames, rfl⟩
  rows := by
    intro l r f suffixes hf k
    have hjoined := group_flatMap (nodup_sortedUnion le l.index r.index) (joined l r) k
    rw [under, rows_of_fullJoin hf, hjoined]
    refine .of_eq ?_
    split
    · rfl
    · rename_i hk
      rw [joined, if_neg (mt mem_sortedUnion.mpr hk)]
  sorted := by
    intro l r f suffixes hf
    rw [index, rows_of_fullJoin hf, List.map_flatMap, List.pairwise_flatMap]
    refine ⟨fun k _ => ?_, (List.pairwise_insertionSort le _).imp ?_⟩
    · rw [List.map_map, List.pairwise_map]
      exact List.pairwise_of_forall fun _ _ => or_self_iff.mp (Std.Total.total (r := le) k k)
    · intro k k' hle x hx y hy
      simp only [List.map_map, List.mem_map, Function.comp_apply] at hx hy
      obtain ⟨-, -, rfl⟩ := hx
      obtain ⟨-, -, rfl⟩ := hy
      exact hle

end Merge

-- ---------------------------------------------------------------------------
-- Groupings
-- ---------------------------------------------------------------------------

/-- **Groupings** by a column of the key: the values of the column in order, each with
its rows, which keep their order and their labels. -/
structure Grouping {β : Type} [DecidableEq β] (le : β → β → Prop) (column : κ → β)
    (groupby : GroupOp κ τ β) : Prop where
  sorted : ∀ f, ((groupby f).map Prod.fst).Pairwise le
  nodup : ∀ f, ((groupby f).map Prod.fst).Nodup
  mem : ∀ f c, c ∈ (groupby f).map Prod.fst ↔ ∃ row ∈ f.rows, column row.1 = c
  rows : ∀ f, ∀ g ∈ groupby f, g.2 = f.rows.zipIdx.filter fun row => column row.1.1 = g.1

section Grouping

variable {β : Type} [DecidableEq β] {le : β → β → Prop} {column : κ → β}

theorem Grouping.eq_map {groupby : GroupOp κ τ β} (h : Grouping le column groupby) (f : Frame κ τ) :
    groupby f = ((groupby f).map Prod.fst).map fun c =>
      (c, f.rows.zipIdx.filter fun row => column row.1.1 = c) := by
  rw [List.map_map]
  refine (List.map_id _).symm.trans (List.map_congr_left fun g hg => ?_)
  exact Prod.ext rfl (h.rows f g hg)

variable (le column) [DecidableRel le]

/-- The rows of each value of a column. -/
def groupRows (f : Frame κ τ) : List (β × List (Labelled κ τ)) :=
  ((keys (fun row => column row.1) f.rows).insertionSort le).map fun c =>
    (c, f.rows.zipIdx.filter fun row => column row.1.1 = c)

theorem fst_groupRows (f : Frame κ τ) : (groupRows le column f).map Prod.fst =
    (keys (fun row => column row.1) f.rows).insertionSort le := by
  rw [groupRows, List.map_map]
  exact List.map_id _

/-- Groupings exist. -/
theorem grouping_groupRows [Std.Total le] [IsTrans β le] :
    Grouping le column (groupRows (κ := κ) (τ := τ) le column) where
  sorted f := by
    rw [fst_groupRows]
    exact List.pairwise_insertionSort ..
  nodup f := by
    rw [fst_groupRows]
    exact (List.perm_insertionSort le _).nodup_iff.mpr (nodup_keys ..)
  mem f c := by rw [fst_groupRows, List.mem_insertionSort, mem_keys]
  rows f g hg := by
    obtain ⟨c, -, rfl⟩ := List.mem_map.mp hg
    rfl

end Grouping

-- ---------------------------------------------------------------------------
-- Nested spans
-- ---------------------------------------------------------------------------

/-- The first cells of the lists from the outside in, and the second ones from the
inside out. -/
def spread : List (List τ) → List (Option τ)
  | [] => []
  | ts :: rest => ts[0]? :: (spread rest ++ [ts[1]?])

theorem mem_of_mem_spread {t : τ} {chain : List (List τ)} (h : some t ∈ spread chain) :
    ∃ ts ∈ chain, t ∈ ts := by
  induction chain with
  | nil => cases h
  | cons ts rest ih =>
    rw [spread, List.mem_cons, List.mem_append, List.mem_singleton] at h
    rcases h with h | h | h
    · exact ⟨ts, List.mem_cons_self, List.mem_of_getElem? h.symm⟩
    · obtain ⟨ts', hts', ht⟩ := ih h
      exact ⟨ts', List.mem_cons_of_mem _ hts', ht⟩
    · exact ⟨ts, List.mem_cons_self, List.mem_of_getElem? h.symm⟩

theorem pairwise_toList {r : τ → τ → Prop} (o : Option τ) : o.toList.Pairwise r := by
  cases o with
  | none => exact .nil
  | some t => exact List.pairwise_singleton ..

variable [LE τ]

/-- What lies inside of the first two elements. -/
def Inside (outer inner : List τ) : Prop :=
  ∀ t ∈ inner, (∀ a, outer[0]? = some a → a ≤ t) ∧ ∀ b, outer[1]? = some b → t ≤ b

theorem inside_nil (ts : List τ) : Inside ts [] := nofun

theorem nil_inside (ts : List τ) : Inside [] ts := fun _ _ => ⟨nofun, nofun⟩

/-- Spans, each inside of those before it. -/
structure Nested (chain : List (List τ)) : Prop where
  inside : chain.Pairwise Inside
  ordered : ∀ ts ∈ chain, ∀ a b, ts[0]? = some a → ts[1]? = some b → a ≤ b

theorem nested_nil : Nested ([] : List (List τ)) := ⟨.nil, nofun⟩

theorem Nested.cons {ts : List τ} {rest : List (List τ)} (hinside : ∀ inner ∈ rest, Inside ts inner)
    (hordered : ∀ a b, ts[0]? = some a → ts[1]? = some b → a ≤ b) (h : Nested rest) :
    Nested (ts :: rest) where
  inside := List.pairwise_cons.mpr ⟨hinside, h.inside⟩
  ordered := List.forall_mem_cons.mpr ⟨hordered, h.ordered⟩

theorem nested_singleton {ts : List τ}
    (hordered : ∀ a b, ts[0]? = some a → ts[1]? = some b → a ≤ b) : Nested [ts] :=
  .cons (List.forall_mem_nil _) hordered nested_nil

/-- A span may be missing. -/
theorem Nested.skip {rest : List (List τ)} (h : Nested rest) : Nested ([] :: rest) :=
  .cons (fun _ _ => nil_inside _) nofun h

/-- Spans stay nested under a map that keeps the order of their elements. -/
theorem Nested.map {υ : Type} [LE υ] {chain : List (List τ)} (h : Nested chain) {f : τ → υ}
    (hf : ∀ ts ∈ chain, ∀ ts' ∈ chain, ∀ a ∈ ts, ∀ b ∈ ts', a ≤ b → f a ≤ f b) :
    Nested (chain.map (List.map f)) where
  inside := by
    rw [List.pairwise_map]
    refine h.inside.imp_of_mem fun {outer inner} houter hinner hinside _ hmem => ?_
    obtain ⟨t, ht, rfl⟩ := List.mem_map.mp hmem
    simp only [List.getElem?_map, Option.map_eq_some_iff]
    constructor
    · rintro _ ⟨a, ha, rfl⟩
      exact hf _ houter _ hinner a (List.mem_of_getElem? ha) t ht ((hinside t ht).1 a ha)
    · rintro _ ⟨b, hb, rfl⟩
      exact hf _ hinner _ houter t ht b (List.mem_of_getElem? hb) ((hinside t ht).2 b hb)
  ordered := by
    intro ts hts
    obtain ⟨ts, hmem, rfl⟩ := List.mem_map.mp hts
    simp only [List.getElem?_map, Option.map_eq_some_iff]
    rintro _ _ ⟨a, ha, rfl⟩ ⟨b, hb, rfl⟩
    exact hf _ hmem _ hmem a (List.mem_of_getElem? ha) b (List.mem_of_getElem? hb)
      (h.ordered ts hmem a b ha hb)

/-- Whatever is there of nested spans is sorted. -/
theorem spread_sorted {chain : List (List τ)} (h : Nested chain) :
    (spread chain).reduceOption.Pairwise (· ≤ ·) := by
  obtain ⟨hchain, hspans⟩ := h
  induction chain with
  | nil => exact .nil
  | cons ts rest ih =>
    obtain ⟨hinside, hrest⟩ := List.pairwise_cons.mp hchain
    have hsorted := ih hrest fun ts' hts' => hspans ts' (List.mem_cons_of_mem _ hts')
    have hbetween : ∀ t ∈ (spread rest).reduceOption,
        (∀ a, ts[0]? = some a → a ≤ t) ∧ ∀ b, ts[1]? = some b → t ≤ b := by
      intro t ht
      obtain ⟨ts', hts', ht'⟩ := mem_of_mem_spread (List.reduceOption_mem_iff.mp ht)
      exact hinside ts' hts' t ht'
    have hown := hspans ts List.mem_cons_self
    rw [spread, ← List.singleton_append, List.reduceOption_append, List.reduceOption_append,
      List.reduceOption_singleton, List.reduceOption_singleton]
    refine List.pairwise_append.mpr ⟨pairwise_toList _, List.pairwise_append.mpr
      ⟨hsorted, pairwise_toList _, ?_⟩, ?_⟩
    · intro t ht b hb
      exact (hbetween t ht).2 b (Option.mem_toList.mp hb)
    · intro a ha t ht
      rcases List.mem_append.mp ht with ht | hb
      · exact (hbetween t ht).1 a (Option.mem_toList.mp ha)
      · exact hown a t (Option.mem_toList.mp ha) (Option.mem_toList.mp hb)

end Tables
