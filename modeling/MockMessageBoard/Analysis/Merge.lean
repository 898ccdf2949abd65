import MockMessageBoard.Analysis.TreatData
import MockMessageBoard.Lib.BitFields
import MockMessageBoard.Lib.Tables

/-!
# MockMessageBoard — the frames of four processes

The rest of `data_analysis/plot_utils.py`: the frames of the client and of the
three services are merged on the columns that `treat_data` groups by, the columns
of times are put in the order in which a query passes them, and the rows of each
client are plotted on their own. What the script calls of pandas and matplotlib (`merge`,
the selection of columns, `groupby`, `xlim`) stands as a parameter, of which the results
assume what is documented.

* `all_eq`           — the merged frame has one row for each query, with all its times;
* `one_client_shown` — the loop shows one client at most.
-/

namespace MockMessageBoard

open TextFile Groups Tables

variable {τ : Type}

-- ---------------------------------------------------------------------------
-- The merges
-- ---------------------------------------------------------------------------

/-- The rows of the four files of a run. -/
structure StatsFiles where
  client : List Entry
  msgserv : List Entry
  sanitserv : List Entry
  mockdata : List Entry

/-- The files along the chain of calls. -/
def StatsFiles.chain (files : StatsFiles) : List (List Entry) :=
  [files.client, files.msgserv, files.sanitserv, files.mockdata]

/-- The columns of times of `treat_data`. -/
def spanColumns : List Text := ["start".toList, "end".toList]

/-- What `treat_data` returns, under the columns of `on=`. -/
def spanFrame (spans : List (QuerySpan τ)) : Frame QueryKey τ where
  columns := spanColumns
  rows := spans.map fun row => (row.key, [some row.start, row.end])
  distinct := by decide
  width := by
    intro row hrow
    obtain ⟨span, -, rfl⟩ := List.mem_map.mp hrow
    rfl

/-- The columns of times of `all`. -/
def allColumns : List Text :=
  ["start_client".toList, "start_msg".toList, "start_sanit".toList, "start_mock".toList,
    "end_mock".toList, "end_sanit".toList, "end_msg".toList, "end_client".toList]

section All

variable (merge : MergeOp QueryKey τ) (select : SelectOp QueryKey τ)

/-- The frame `all`, with pandas' `merge` and its selection of columns. A client's file
without rows is left out: there is no smallest time in it. -/
def all (scale : UInt64 → τ) (files : StatsFiles) : Option (Frame QueryKey τ) := do
  let (client, timeStart) := treatData scale files.client none
  let timeStart ← timeStart
  let (msgserv, _) := treatData scale files.msgserv (some timeStart)
  let (sanitserv, _) := treatData scale files.sanitserv (some timeStart)
  let (mockdata, _) := treatData scale files.mockdata (some timeStart)
  let all ← merge (spanFrame client) (spanFrame msgserv) ("_client".toList, "_msg".toList)
  let all ← merge all (spanFrame sanitserv) ([], "_sanit".toList)
  let all ← merge all (spanFrame mockdata) ("_sanit".toList, "_mock".toList)
  select all allColumns

end All

/-- The first two of the times. -/
def pair (ts : List τ) : List (Option τ) := [ts[0]?, ts[1]?]

/-- The rows that `treat_data` groups. -/
def frameRows (f : UInt64 → τ) (df : List Entry) : List (FrameRow τ) :=
  df.map fun e => FrameRow.mk (queryKey e.queryId) (f e.epochTime)

/-- The times of a group. -/
def groupTimes (rows : List (FrameRow τ)) (key : QueryKey) : List τ :=
  (group FrameRow.key key rows).map FrameRow.epochTime

/-- The keys of a file's rows, each once, in order. -/
def fileKeys (df : List Entry) : List QueryKey :=
  (keys id (df.map fun e => queryKey e.queryId)).insertionSort QueryKey.le

theorem mem_fileKeys {df : List Entry} {key : QueryKey} :
    key ∈ fileKeys df ↔ ∃ e ∈ df, queryKey e.queryId = key := by
  rw [fileKeys, List.mem_insertionSort, mem_keys]
  simp

theorem nodup_fileKeys (df : List Entry) : (fileKeys df).Nodup :=
  (List.perm_insertionSort QueryKey.le _).nodup_iff.mpr (nodup_keys ..)

theorem keys_frameRows (f : UInt64 → τ) (df : List Entry) :
    (keys FrameRow.key (frameRows f df)).insertionSort QueryKey.le = fileKeys df := by
  unfold fileKeys frameRows keys
  rw [List.map_map, List.map_map]
  rfl

/-- The frame of a file has one row for each query, with its first two times. -/
theorem spanFrame_holds (scale : UInt64 → τ) (df : List Entry) (timeStart : Option UInt64)
    (start : UInt64) (hstart : (timeStart <|> minEpochTime df).getD 0 = start) :
    (spanFrame (treatData scale df timeStart).1).Holds (· ∈ fileKeys df) fun key =>
      pair (groupTimes (frameRows (fun t => scale (t - start)) df) key) := by
  set rows := frameRows (fun t => scale (t - start)) df with hrows
  have hmem : ∀ key, key ∈ fileKeys df ↔ key ∈ keys FrameRow.key rows := by
    intro key
    rw [← keys_frameRows (fun t => scale (t - start)), List.mem_insertionSort]
  refine .of_rows (nodup_fileKeys df) ?_ fun key hkey => ?_
  · have hspan : ∀ key ∈ fileKeys df, (aggregate key (group FrameRow.key key rows)).map
        (fun row => (row.key, [some row.start, row.end])) =
        some (key, pair (groupTimes rows key)) := by
      intro key hkey
      have hne : group FrameRow.key key rows ≠ [] :=
        fun hnil => (group_eq_nil_iff _).mp hnil ((hmem key).mp hkey)
      unfold groupTimes
      match hgroup : group FrameRow.key key rows, hne with
      | [first], _ => rfl
      | first :: second :: rest, _ => rfl
    subst hstart
    show (((keys FrameRow.key rows).insertionSort QueryKey.le).filterMap fun key =>
      aggregate key (group FrameRow.key key rows)).map _ = _
    rw [keys_frameRows, List.map_filterMap, List.filterMap_congr hspan]
    exact congrFun List.filterMap_eq_map _
  · have hnil : group FrameRow.key key rows = [] :=
      (group_eq_nil_iff _).mpr (mt (hmem key).mpr hkey)
    show pair (groupTimes rows key) = blank 2
    rw [groupTimes, hnil]
    rfl

-- ---------------------------------------------------------------------------
-- The order of the keys
-- ---------------------------------------------------------------------------

theorem word_lt_trans {a b c : UInt64} (h : a < b) (h' : b < c) : a < c := by
  rw [UInt64.lt_iff_toNat_lt] at *
  exact h.trans h'

instance : Std.Total QueryKey.le where
  total a b := by
    unfold QueryKey.le
    rcases word_trichotomy a.queryUid b.queryUid with h | h | h
    · exact .inl (.inl h)
    · rcases word_trichotomy a.clientUid b.clientUid with h' | h' | h'
      · exact .inl (.inr ⟨h, .inl h'⟩)
      · rcases UInt64.le_total a.queryIndex b.queryIndex with h'' | h''
        · exact .inl (.inr ⟨h, .inr ⟨h', h''⟩⟩)
        · exact .inr (.inr ⟨h.symm, .inr ⟨h'.symm, h''⟩⟩)
      · exact .inr (.inr ⟨h.symm, .inl h'⟩)
    · exact .inr (.inl h)

instance : IsTrans QueryKey QueryKey.le where
  trans a b c := by
    unfold QueryKey.le
    rintro (h | ⟨h, h₁⟩) (h' | ⟨h', h₁'⟩)
    · exact .inl (word_lt_trans h h')
    · exact .inl (h' ▸ h)
    · exact .inl (h ▸ h')
    · refine .inr ⟨h.trans h', ?_⟩
      rcases h₁ with h₁ | ⟨h₁, h₂⟩ <;> rcases h₁' with h₁' | ⟨h₁', h₂'⟩
      · exact .inl (word_lt_trans h₁ h₁')
      · exact .inl (h₁' ▸ h₁)
      · exact .inl (h₁ ▸ h₁')
      · exact .inr ⟨h₁.trans h₁', UInt64.le_trans h₂ h₂'⟩

/-- The rows of a query are next to each other in the order of the keys. -/
theorem sorted_queryUid {ks : List QueryKey} (hsorted : ks.Pairwise QueryKey.le)
    (hnodup : ks.Nodup) (hkeys : ∀ key ∈ ks, key = queryKey key.queryUid) :
    ks.Pairwise fun a b => a.queryUid < b.queryUid := by
  refine (hsorted.and hnodup).imp_of_mem fun {a b} ha hb hab => ?_
  obtain ⟨hle, hne⟩ := hab
  rcases hle with h | ⟨h, -⟩
  · exact h
  · exact absurd ((hkeys a ha).trans (h ▸ (hkeys b hb).symm)) hne

-- ---------------------------------------------------------------------------
-- The merged frame
-- ---------------------------------------------------------------------------

/-- The query has a row in a file. -/
def StatsFiles.Has (files : StatsFiles) (uid : UInt64) : Prop :=
  ∃ df ∈ files.chain, ∃ e ∈ df, e.queryId = uid

/-- The times of a query in the files, relative to `start`, from the client on. -/
def StatsFiles.timesOf (scale : UInt64 → τ) (files : StatsFiles) (start uid : UInt64) :
    List (List τ) :=
  files.chain.map fun df => (MockMessageBoard.timesOf df uid).map fun t => scale (t - start)

theorem mem_fileKeys_chain {files : StatsFiles} {key : QueryKey} :
    (∃ df ∈ files.chain, key ∈ fileKeys df) ↔ ∃ uid, files.Has uid ∧ queryKey uid = key := by
  simp only [mem_fileKeys]
  constructor
  · rintro ⟨df, hdf, e, he, rfl⟩
    exact ⟨e.queryId, ⟨df, hdf, e, he, rfl⟩, rfl⟩
  · rintro ⟨uid, ⟨df, hdf, e, he, rfl⟩, rfl⟩
    exact ⟨df, hdf, e, he, rfl⟩

section Merges

variable {merge : MergeOp QueryKey τ} {select : SelectOp QueryKey τ}
  (hmerge : OuterMerge QueryKey.le merge) (hselect : Selection select)

include hmerge hselect

/-- The three merges go through, and keep every row of every file. -/
theorem all_holds (scale : UInt64 → τ) {files : StatsFiles} {start : UInt64}
    (hstart : minEpochTime files.client = some start) :
    ∃ f, all merge select scale files = some f ∧ f.columns = allColumns ∧
      f.index.Pairwise QueryKey.le ∧
      f.Holds (fun key => ∃ uid, files.Has uid ∧ queryKey uid = key) fun key =>
        spread (files.chain.map fun df =>
          groupTimes (frameRows (fun t => scale (t - start)) df) key) := by
  obtain ⟨f₁, hf₁, hcols₁, -, hholds₁⟩ := hmerge.holds
    (spanFrame_holds scale files.client none start (by
      show (minEpochTime files.client).getD 0 = start
      rw [hstart, Option.getD_some]))
    (spanFrame_holds scale files.msgserv (some start) start rfl)
    ("_client".toList, "_msg".toList)
    (show (mergeColumns spanColumns spanColumns _).Nodup by decide)
  change f₁.columns = mergeColumns spanColumns spanColumns _ at hcols₁
  obtain ⟨f₂, hf₂, hcols₂, -, hholds₂⟩ := hmerge.holds hholds₁
    (spanFrame_holds scale files.sanitserv (some start) start rfl) ([], "_sanit".toList)
    (show (mergeColumns f₁.columns spanColumns _).Nodup by rw [hcols₁]; decide)
  change f₂.columns = mergeColumns f₁.columns spanColumns _ at hcols₂
  rw [hcols₁] at hcols₂
  obtain ⟨f₃, hf₃, hcols₃, hsorted, hholds₃⟩ := hmerge.holds hholds₂
    (spanFrame_holds scale files.mockdata (some start) start rfl)
    ("_sanit".toList, "_mock".toList)
    (show (mergeColumns f₂.columns spanColumns _).Nodup by rw [hcols₂]; decide)
  change f₃.columns = mergeColumns f₂.columns spanColumns _ at hcols₃
  rw [hcols₂] at hcols₃
  obtain ⟨f, hf, hcols, hindex, hholds⟩ := hselect.holds hholds₃
    (show allColumns.Nodup by decide) (show allColumns ⊆ f₃.columns by rw [hcols₃]; decide)
  refine ⟨f, ?_, hcols, hindex ▸ hsorted, hholds.congr (fun key => ?_) fun key => ?_⟩
  · have hclient : (treatData scale files.client none).2 = some start := hstart
    simp only [all, Option.bind_eq_bind, hclient, Option.bind_some, hf₁, hf₂, hf₃]
    exact hf
  · rw [← mem_fileKeys_chain]
    simp only [StatsFiles.chain, List.mem_cons, List.not_mem_nil, or_false, exists_eq_or_imp,
      exists_eq_left, or_assoc]
  · -- where the columns of `all` stand in the merged frame
    have hplaces : allColumns.map (fun name => f₃.columns.idxOf name) =
        [0, 2, 4, 6, 7, 5, 3, 1] := by
      rw [hcols₃]
      decide
    have hcell : ∀ row : List (Option τ), allColumns.map (f₃.cell row) =
        (allColumns.map fun name => f₃.columns.idxOf name).map fun i => row.getD i none := by
      intro row
      rw [List.map_map]
      rfl
    rw [hcell, hplaces]
    rfl

end Merges

section Holds

variable {files : StatsFiles} {f : Frame QueryKey τ} {cells : QueryKey → List (Option τ)}
  (h : f.Holds (fun key => ∃ uid, files.Has uid ∧ queryKey uid = key) cells)

include h

theorem mem_index_iff {uid : UInt64} : queryKey uid ∈ f.index ↔ files.Has uid := by
  rw [h.mem_index]
  exact ⟨fun ⟨_, hhas, hkey⟩ => queryKey_inj.mp hkey ▸ hhas, fun hhas => ⟨uid, hhas, rfl⟩⟩

theorem queryKey_of_mem_index {key : QueryKey} (hkey : key ∈ f.index) :
    key = queryKey key.queryUid := by
  obtain ⟨uid, -, rfl⟩ := (h.mem_index key).mp hkey
  rfl

theorem sorted_index (hsorted : f.index.Pairwise QueryKey.le) :
    f.index.Pairwise fun a b => a.queryUid < b.queryUid :=
  sorted_queryUid hsorted h.nodup_index fun _ => queryKey_of_mem_index h

/-- A query that has a row in a file has one row. -/
theorem under_query (uid : UInt64) :
    (files.Has uid → f.under (queryKey uid) = [cells (queryKey uid)]) ∧
      (¬files.Has uid → f.under (queryKey uid) = []) :=
  ⟨fun hhas => h.under_eq ⟨uid, hhas, rfl⟩,
    fun hnot => Frame.under_eq_nil_iff.mpr (mt (mem_index_iff h).mp hnot)⟩

end Holds

theorem groupTimes_chain (scale : UInt64 → τ) (files : StatsFiles) (start uid : UInt64) :
    (files.chain.map fun df =>
      groupTimes (frameRows (fun t => scale (t - start)) df) (queryKey uid)) =
      files.timesOf scale start uid :=
  List.map_congr_left fun df _ => group_queryKey (fun t => scale (t - start)) df uid

/--
**The merged frame.** Whatever rows the files have, if the client's file has any,
the three merges go through. The frame has one row for each query that has a row in
any file, ordered by uid; its cells are the first two times of the query in each file,
starts from the client down and ends back up, relative to the client's smallest time.
-/
theorem all_eq {merge : MergeOp QueryKey τ} {select : SelectOp QueryKey τ}
    (hmerge : OuterMerge QueryKey.le merge) (hselect : Selection select) (scale : UInt64 → τ)
    {files : StatsFiles} {start : UInt64} (hstart : minEpochTime files.client = some start) :
    ∃ f, all merge select scale files = some f ∧ f.columns = allColumns ∧
      (f.index.Pairwise fun a b => a.queryUid < b.queryUid) ∧
      (∀ key, key ∈ f.index ↔ ∃ uid, files.Has uid ∧ queryKey uid = key) ∧
      ∀ uid, (files.Has uid → f.under (queryKey uid) = [spread (files.timesOf scale start uid)]) ∧
        (¬files.Has uid → f.under (queryKey uid) = []) := by
  obtain ⟨f, hf, hcols, hsorted, hholds⟩ := all_holds hmerge hselect scale hstart
  refine ⟨f, hf, hcols, sorted_index hholds hsorted, hholds.mem_index, fun uid => ?_⟩
  rw [← groupTimes_chain]
  exact under_query hholds uid

/-- A query that the filter has rejected, and one of another client under way. -/
def twoQueries : StatsFiles where
  client := [⟨7, 1000⟩, ⟨268435456, 5000⟩, ⟨7, 9000⟩]
  msgserv := [⟨7, 2000⟩, ⟨7, 8000⟩]
  sanitserv := [⟨7, 3000⟩]
  mockdata := []

theorem all_eq_two :
    ∃ f, all (fullJoin QueryKey.le) selectColumns UInt64.toNat twoQueries = some f ∧
      f.under (queryKey 7) =
        [[some 0, some 1000, some 2000, none, none, none, some 7000, some 8000]] ∧
      f.under (queryKey 268435456) = [[some 4000, none, none, none, none, none, none, none]] := by
  obtain ⟨f, hf, -, -, -, hunder⟩ := all_eq (outerMerge_fullJoin QueryKey.le)
    selection_selectColumns UInt64.toNat
    (show minEpochTime twoQueries.client = some 1000 from rfl)
  refine ⟨f, hf, ?_, ?_⟩
  · exact (hunder 7).1 ⟨twoQueries.client, List.mem_cons_self, ⟨7, 1000⟩, by decide⟩
  · exact (hunder 268435456).1 ⟨twoQueries.client, List.mem_cons_self, ⟨268435456, 5000⟩,
      by decide⟩

-- ---------------------------------------------------------------------------
-- The loop over the clients
-- ---------------------------------------------------------------------------

/-- A figure that was shown: the rows that were drawn for a client, and the time from
which the limits of its axis are taken. -/
structure Figure (τ : Type) where
  clientUid : UInt64
  rows : List (QueryKey × List (Option τ))
  endMax : Option τ

/-- How the loop ends: behind the last client, with a `KeyError` at a label, or with the
exception of `plt.xlim`. -/
inductive LoopEnd where
  | finished
  | keyError
  | limitsError
  deriving DecidableEq

/-- `end_client` of a row of `all`. -/
def endClient (row : QueryKey × List (Option τ)) : Option τ :=
  row.2.getD (allColumns.idxOf "end_client".toList) none

section Plot

variable [Max τ] (xlim : Option τ → Bool)

/-- `df.end_client.max()`: the missing ends do not count. -/
def endMax (rows : List (QueryKey × List (Option τ))) : Option τ :=
  (rows.filterMap endClient).max?

/-- The loop over the groups: the figures it shows, and how it ends. After a client's
rows are drawn `df.start_client[0]` is printed, which raises `KeyError` where no row of
the client has the label 0; then `plt.xlim` gets its limits from `df.end_client.max()`,
and says with `xlim` whether it takes them; only then is the figure shown. -/
def plotGroups : List (UInt64 × List (Labelled QueryKey τ)) → List (Figure τ) × LoopEnd
  | [] => ([], .finished)
  | (clientUid, queries) :: groups =>
    if clientUid = 0 then plotGroups groups
    else if queries.any fun row => row.2 = 0 then
      let df := queries.map Prod.fst
      if xlim (endMax df) then
        let (figures, loopEnd) := plotGroups groups
        (⟨clientUid, df, endMax df⟩ :: figures, loopEnd)
      else ([], .limitsError)
    else ([], .keyError)

/-- `all.groupby("client_uid")`, with pandas' `groupby`, and the loop. -/
def plotClients (groupby : GroupOp QueryKey τ UInt64) (f : Frame QueryKey τ) :
    List (Figure τ) × LoopEnd :=
  plotGroups xlim (groupby f)

/-- The rows of a client. -/
def clientRows (f : Frame QueryKey τ) (clientUid : UInt64) : List (QueryKey × List (Option τ)) :=
  f.rows.filter fun row => row.1.clientUid = clientUid

/-- Clients without the row that has the label 0 are not shown. -/
theorem plotGroups_unlabelled {groups : List (UInt64 × List (Labelled QueryKey τ))}
    (hclient : ∀ g ∈ groups, g.1 ≠ 0) (hlabel : ∀ g ∈ groups, ∀ row ∈ g.2, row.2 ≠ 0) :
    plotGroups xlim groups = ([], if groups.isEmpty then .finished else .keyError) := by
  cases groups with
  | nil => rfl
  | cons g rest =>
    have hnone : ¬(g.2.any fun row => row.2 = 0) = true := by
      rw [List.any_eq_true]
      rintro ⟨row, hrow, hzero⟩
      exact hlabel _ List.mem_cons_self row hrow (of_decide_eq_true hzero)
    rw [plotGroups, if_neg (hclient _ List.mem_cons_self), if_neg hnone]
    rfl

end Plot

/-- Client uids are in the order of query uids. -/
theorem clientUid_mono {uid uid' : UInt64} (h : uid < uid') :
    (queryKey uid).clientUid ≤ (queryKey uid').clientUid := by
  have hshift : (28 : UInt64).toNat < 64 := by decide
  rw [UInt64.le_iff_toNat_le]
  show (uid >>> 28).toNat ≤ (uid' >>> 28).toNat
  rw [BitFields.toNat_shiftRight hshift, BitFields.toNat_shiftRight hshift]
  exact Nat.div_le_div_right (UInt64.lt_iff_toNat_lt.mp h).le

section Loop

variable {groupby : GroupOp QueryKey τ UInt64}
  (hgroupby : Grouping (· ≤ ·) QueryKey.clientUid groupby) {f : Frame QueryKey τ}
  (hsorted : f.index.Pairwise fun a b => a.queryUid < b.queryUid)
  (hkeys : ∀ key ∈ f.index, key = queryKey key.queryUid)
  {first : QueryKey × List (Option τ)} {rest : List (QueryKey × List (Option τ))}
  (hrows : f.rows = first :: rest)

include hsorted hkeys hrows

/-- The first row is one of the client with the smallest uid. -/
theorem first_client_le : ∀ row ∈ f.rows, first.1.clientUid ≤ row.1.clientUid := by
  intro row hrow
  have hindex : f.index = first.1 :: rest.map Prod.fst := by
    rw [Frame.index, hrows, List.map_cons]
  rw [hrows, List.mem_cons] at hrow
  rcases hrow with rfl | hrow
  · exact UInt64.le_refl _
  · have hmem : row.1 ∈ rest.map Prod.fst := List.mem_map_of_mem hrow
    rw [hindex] at hsorted hkeys
    have hlt := (List.pairwise_cons.mp hsorted).1 _ hmem
    rw [hkeys first.1 List.mem_cons_self, hkeys row.1 (List.mem_cons_of_mem _ hmem)]
    exact clientUid_mono hlt

include hgroupby

/-- So its client comes first in the loop, and no other has the uid 0. -/
theorem clients_eq : ∃ others, (groupby f).map Prod.fst = first.1.clientUid :: others ∧
    (∀ c ∈ others, c ≠ first.1.clientUid ∧ c ≠ 0) ∧
    ∀ c, c ∈ others ↔ c ≠ first.1.clientUid ∧ ∃ row ∈ f.rows, row.1.clientUid = c := by
  have hfirst := first_client_le hsorted hkeys hrows
  have hmem := hgroupby.mem f
  have hordered := hgroupby.sorted f
  have hnodup := hgroupby.nodup f
  have hthere : first.1.clientUid ∈ (groupby f).map Prod.fst :=
    (hmem _).mpr ⟨first, by rw [hrows]; exact List.mem_cons_self, rfl⟩
  generalize (groupby f).map Prod.fst = clients at hmem hordered hnodup hthere ⊢
  cases clients with
  | nil => cases hthere
  | cons c others =>
    obtain ⟨hle, -⟩ := List.pairwise_cons.mp hordered
    obtain ⟨hnew, -⟩ := List.nodup_cons.mp hnodup
    obtain rfl : c = first.1.clientUid := by
      rcases List.mem_cons.mp hthere with h | h
      · exact h.symm
      · obtain ⟨row, hrow, hc⟩ := (hmem c).mp List.mem_cons_self
        exact UInt64.le_antisymm (hle _ h) (hc ▸ hfirst row hrow)
    refine ⟨others, rfl, fun c hc => ?_, fun c => ?_⟩
    · have hne : c ≠ first.1.clientUid := fun h => hnew (h ▸ hc)
      refine ⟨hne, ?_⟩
      rintro rfl
      exact hne (UInt64.le_antisymm (UInt64.le_iff_toNat_le.mpr (Nat.zero_le _)) (hle _ hc))
    · rw [← hmem c, List.mem_cons]
      constructor
      · exact fun hc => ⟨fun h => hnew (h ▸ hc), .inr hc⟩
      · rintro ⟨hne, h | h⟩
        · exact absurd h hne
        · exact h

/--
**The loop gets to one client only.** It draws the rows of the client with the smallest
uid, unless that uid is 0, and shows them if it finds limits for them; and it raises
`KeyError` at the next client, if it gets there.
-/
theorem plotClients_eq [Max τ] (xlim : Option τ → Bool) :
    ∃ next, (next = .keyError ↔ ∃ row ∈ f.rows, row.1.clientUid ≠ first.1.clientUid) ∧
      next ≠ .limitsError ∧ plotClients xlim groupby f =
        if first.1.clientUid = 0 then ([], next)
        else if xlim (endMax (clientRows f first.1.clientUid)) then
          ([⟨first.1.clientUid, clientRows f first.1.clientUid,
            endMax (clientRows f first.1.clientUid)⟩], next)
        else ([], .limitsError) := by
  obtain ⟨others, hclients, hothers, hmem⟩ := clients_eq hgroupby hsorted hkeys hrows
  have hlabel : ∀ row ∈ f.rows.zipIdx, row.2 = 0 → row.1 = first := by
    intro row hrow hzero
    have hplace := List.mem_zipIdx_iff_getElem?.mp hrow
    rw [hzero, hrows] at hplace
    exact (Option.some.inj hplace).symm
  have hrest : plotGroups xlim (others.map fun c =>
      (c, f.rows.zipIdx.filter fun row => row.1.1.clientUid = c)) =
      ([], if others.isEmpty then .finished else .keyError) := by
    rw [plotGroups_unlabelled, List.isEmpty_map]
    · intro g hg
      obtain ⟨c, hc, rfl⟩ := List.mem_map.mp hg
      exact (hothers c hc).2
    · intro g hg row hrow hzero
      obtain ⟨c, hc, rfl⟩ := List.mem_map.mp hg
      obtain ⟨hrow, hclient⟩ := List.mem_filter.mp hrow
      refine (hothers c hc).1 ?_
      rw [← of_decide_eq_true hclient, hlabel row hrow hzero]
  refine ⟨if others.isEmpty then .finished else .keyError, ?_, ?_, ?_⟩
  · cases others with
    | nil =>
      refine ⟨nofun, ?_⟩
      rintro ⟨row, hrow, hne⟩
      exact absurd ((hmem _).mpr ⟨hne, row, hrow, rfl⟩) List.not_mem_nil
    | cons c others =>
      obtain ⟨hne, row, hrow, rfl⟩ := (hmem c).mp List.mem_cons_self
      exact ⟨fun _ => ⟨row, hrow, hne⟩, fun _ => rfl⟩
  · split <;> decide
  rw [plotClients, hgroupby.eq_map, hclients, List.map_cons, plotGroups, hrest]
  split
  · rfl
  · have hzero : (f.rows.zipIdx.filter fun row => row.1.1.clientUid = first.1.clientUid).any
        (fun row => row.2 = 0) = true := by
      refine List.any_eq_true.mpr ⟨(first, 0), List.mem_filter.mpr ⟨?_, ?_⟩, rfl⟩
      · exact List.mk_mem_zipIdx_iff_getElem?.mpr (by rw [hrows]; rfl)
      · exact decide_eq_true rfl
    have hdrawn : (f.rows.zipIdx.filter fun row =>
        row.1.1.clientUid = first.1.clientUid).map Prod.fst =
        clientRows f first.1.clientUid := by
      conv_rhs => rw [clientRows, ← List.zipIdx_map_fst 0 f.rows, List.filter_map]
      rfl
    rw [if_pos hzero, hdrawn]

end Loop

-- ---------------------------------------------------------------------------
-- What the script shows
-- ---------------------------------------------------------------------------

/-- A query of the client has two rows in the client's file. -/
def StatsFiles.Ended (files : StatsFiles) (clientUid : UInt64) : Prop :=
  ∃ uid, (queryKey uid).clientUid = clientUid ∧
    2 ≤ (MockMessageBoard.timesOf files.client uid).length

theorem has_of_two_le {files : StatsFiles} {uid : UInt64}
    (h : 2 ≤ (MockMessageBoard.timesOf files.client uid).length) : files.Has uid := by
  obtain ⟨t, ht⟩ := List.exists_mem_of_length_pos (Nat.lt_of_lt_of_le Nat.two_pos h)
  obtain ⟨e, he, huid, -⟩ := mem_timesOf.mp ht
  exact ⟨files.client, List.mem_cons_self, e, he, huid⟩

/-- The last column of `all` has the second time in the client's file. -/
theorem endClient_spread (scale : UInt64 → τ) (files : StatsFiles) (start uid : UInt64) :
    endClient (queryKey uid, spread (files.timesOf scale start uid)) =
      (MockMessageBoard.timesOf files.client uid)[1]?.map fun t => scale (t - start) :=
  List.getElem?_map ..

section Shown

variable {scale : UInt64 → τ} {files : StatsFiles} {start : UInt64} {f : Frame QueryKey τ}
  (h : f.Holds (fun key => ∃ uid, files.Has uid ∧ queryKey uid = key) fun key =>
    spread (files.chain.map fun df =>
      groupTimes (frameRows (fun t => scale (t - start)) df) key))

include h

theorem mem_rows_iff {row : QueryKey × List (Option τ)} :
    row ∈ f.rows ↔ ∃ uid, files.Has uid ∧
      row = (queryKey uid, spread (files.timesOf scale start uid)) := by
  have hcells : ∀ uid, files.Has uid → ∀ cells, (queryKey uid, cells) ∈ f.rows ↔
      cells = spread (files.timesOf scale start uid) := by
    intro uid hhas cells
    rw [← Frame.mem_under, (under_query h uid).1 hhas, groupTimes_chain, List.mem_singleton]
  constructor
  · intro hrow
    obtain ⟨uid, hhas, hkey⟩ := (h.mem_index _).mp (List.mem_map_of_mem hrow)
    obtain ⟨key, cells⟩ := row
    obtain rfl : queryKey uid = key := hkey
    exact ⟨uid, hhas, Prod.ext rfl ((hcells uid hhas cells).mp hrow)⟩
  · rintro ⟨uid, hhas, rfl⟩
    exact (hcells uid hhas _).mpr rfl

/-- A client has a last end if it has any. -/
theorem isSome_endMax_iff [Max τ] (clientUid : UInt64) :
    (endMax (clientRows f clientUid)).isSome = true ↔ files.Ended clientUid := by
  rw [endMax, List.isSome_max?_iff, Ne, List.filterMap_eq_nil_iff]
  simp only [clientRows, List.mem_filter, mem_rows_iff h, decide_eq_true_eq]
  push Not
  constructor
  · rintro ⟨_, ⟨⟨uid, -, rfl⟩, hclient⟩, hend⟩
    refine ⟨uid, hclient, ?_⟩
    rw [endClient_spread] at hend
    by_contra hlt
    rw [List.getElem?_eq_none (by omega)] at hend
    exact hend rfl
  · rintro ⟨uid, hclient, hlen⟩
    refine ⟨_, ⟨⟨uid, has_of_two_le hlen, rfl⟩, hclient⟩, ?_⟩
    rw [endClient_spread, List.getElem?_eq_getElem hlen]
    exact Option.some_ne_none _

end Shown

/--
**The script shows one client at most.** Whatever rows the files have, the loop first
gets to the client with the smallest uid among all queries. If this uid is not 0 and a
query of the client has ended, the loop shows all rows of the client; if no query of it
has ended, there are no limits for the figure, and the script ends with that exception.
Otherwise it ends with a `KeyError` if there is a query of any other client.
-/
theorem one_client_shown [Max τ] {merge : MergeOp QueryKey τ} {select : SelectOp QueryKey τ}
    {groupby : GroupOp QueryKey τ UInt64} {xlim : Option τ → Bool}
    (hmerge : OuterMerge QueryKey.le merge) (hselect : Selection select)
    (hgroupby : Grouping (· ≤ ·) QueryKey.clientUid groupby)
    (hxlim : ∀ m, xlim m = m.isSome) (scale : UInt64 → τ)
    {files : StatsFiles} {start : UInt64} (hstart : minEpochTime files.client = some start) :
    ∃ f c, all merge select scale files = some f ∧
      (∃ uid, files.Has uid ∧ (queryKey uid).clientUid = c) ∧
      (∀ uid, files.Has uid → c ≤ (queryKey uid).clientUid) ∧
      (c ≠ 0 ∧ files.Ended c → (plotClients xlim groupby f).1 =
        [⟨c, clientRows f c, endMax (clientRows f c)⟩]) ∧
      (¬(c ≠ 0 ∧ files.Ended c) → (plotClients xlim groupby f).1 = []) ∧
      ((plotClients xlim groupby f).2 = .limitsError ↔ c ≠ 0 ∧ ¬files.Ended c) ∧
      ((plotClients xlim groupby f).2 = .keyError ↔ (c = 0 ∨ files.Ended c) ∧
        ∃ uid, files.Has uid ∧ (queryKey uid).clientUid ≠ c) := by
  obtain ⟨f, hf, -, hordered, hholds⟩ := all_holds hmerge hselect scale hstart
  have hsorted := sorted_index hholds hordered
  have hkeys : ∀ key ∈ f.index, key = queryKey key.queryUid :=
    fun key => queryKey_of_mem_index hholds
  have hothers : ∀ c, (∃ row ∈ f.rows, row.1.clientUid ≠ c) ↔
      ∃ uid, files.Has uid ∧ (queryKey uid).clientUid ≠ c := by
    intro c
    constructor
    · rintro ⟨row, hrow, hne⟩
      obtain ⟨uid, hhas, rfl⟩ := (mem_rows_iff hholds).mp hrow
      exact ⟨uid, hhas, hne⟩
    · rintro ⟨uid, hhas, hne⟩
      exact ⟨_, (mem_rows_iff hholds).mpr ⟨uid, hhas, rfl⟩, hne⟩
  cases hrows : f.rows with
  | nil =>
    -- the client's file has a row
    cases hempty : files.client with
    | nil =>
      rw [hempty] at hstart
      cases hstart
    | cons e rest =>
      have hhas : files.Has e.queryId :=
        ⟨files.client, List.mem_cons_self, e, hempty ▸ List.mem_cons_self, rfl⟩
      have hrow := (mem_rows_iff hholds).mpr ⟨_, hhas, rfl⟩
      rw [hrows] at hrow
      cases hrow
  | cons first rest =>
    obtain ⟨uid, hhas, hfirst⟩ := (mem_rows_iff hholds).mp (hrows ▸ List.mem_cons_self)
    obtain ⟨next, hnext, hlimits, hplot⟩ := plotClients_eq hgroupby hsorted hkeys hrows xlim
    rw [hothers] at hnext
    have hended := isSome_endMax_iff hholds first.1.clientUid
    rw [← hxlim] at hended
    refine ⟨f, first.1.clientUid, hf, ⟨uid, hhas, by rw [hfirst]⟩, fun uid' hhas' => ?_, ?_⟩
    · exact first_client_le hsorted hkeys hrows _ ((mem_rows_iff hholds).mpr ⟨uid', hhas', rfl⟩)
    · rw [hplot, ← hended, ← hnext]
      by_cases hzero : first.1.clientUid = 0
      · simp [hzero, hlimits]
      · by_cases htaken : xlim (endMax (clientRows f first.1.clientUid)) = true
        · simp [hzero, htaken, hlimits]
        · simp [hzero, htaken]

/-- One query under way. -/
def oneQuery : StatsFiles := ⟨[⟨268435456, 1000⟩], [], [], []⟩

/-- There are no limits for a figure of a client of which no query has ended. -/
theorem one_client_shown_started :
    ∃ f, all (fullJoin QueryKey.le) selectColumns UInt64.toNat oneQuery = some f ∧
      plotClients Option.isSome (groupRows (· ≤ ·) QueryKey.clientUid) f = ([], .limitsError) := by
  obtain ⟨f, c, hf, ⟨uid, ⟨df, hdf, e, he, rfl⟩, rfl⟩, -, -, hnone, hlimits, -⟩ :=
    one_client_shown (outerMerge_fullJoin QueryKey.le) selection_selectColumns
      (grouping_groupRows (· ≤ ·) QueryKey.clientUid) (fun _ => rfl) UInt64.toNat
      (show minEpochTime oneQuery.client = some 1000 from rfl)
  have hended : ¬oneQuery.Ended (queryKey e.queryId).clientUid := by
    rintro ⟨uid, -, hlen⟩
    have hle := List.length_filter_le (fun e => decide (e.queryId = uid)) oneQuery.client
    rw [timesOf, List.length_map] at hlen
    exact absurd (hlen.trans hle) (by decide)
  have hzero : (queryKey e.queryId).clientUid ≠ 0 := by
    simp only [oneQuery, StatsFiles.chain, List.mem_cons, List.not_mem_nil, or_false] at hdf
    rcases hdf with rfl | rfl | rfl | rfl
    · obtain rfl := List.mem_singleton.mp he
      decide
    · cases he
    · cases he
    · cases he
  exact ⟨f, hf, Prod.ext (hnone fun h => hended h.2) (hlimits.mpr ⟨hzero, hended⟩)⟩

end MockMessageBoard
