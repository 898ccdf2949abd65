import MockMessageBoard.Stats.Session

/-!
# MockMessageBoard — sessions that invent and repeat nothing

Each line of the file comes from a slot that a dump has read. A dump that finds
the cursor below the end reads slots of this round's future as well, which are as
the constructor or an earlier round left them; and a second dump before the next
rotation, or the destructor, reads the same slots again. So the only place for a
dump is between the entry that fills a buffer and the next one, where the
commented-out call in `add_entry` would make it.

* `Faithful.after`         — the ledger has the lines of the file;
* `genuine_of_spaced`, `spaced_of_genuine` — which sessions write only entries of
  the current round, and none of them twice;
* `subperm_of_genuine`     — their lines are among the entries;
* `dumps_genuine_iff`      — so with the lines of the file.
-/

namespace MockMessageBoard

open TextFile ServerStatsManager Transition

/-- No line is invented and none is repeated: every line is a slot of the current
round, and no call has written two of them. -/
structure Genuine (ls : List FileLine) : Prop where
  current : ∀ l ∈ ls, l.Current
  once : (ls.map fun l => l.stamp.map Stamp.index).Nodup

/-- Every dump comes just after a buffer has been filled and just before an entry
that will go to the next one; `n` entries have been recorded before. -/
def Spaced (entryCount : Nat) : Nat → List StatsCall → Prop
  | _, [] => True
  | n, .addEntry _ :: calls => Spaced entryCount (n + 1) calls
  | n, .dumpServerStats :: calls =>
    (1 ≤ n ∧ entryCount ∣ n) ∧ (∃ e rest, calls = .addEntry e :: rest) ∧
      Spaced entryCount n calls

-- ---------------------------------------------------------------------------
-- Genuine lines
-- ---------------------------------------------------------------------------

/-- The lines are of calls before number `k`. -/
def Before (k : Nat) (ls : List FileLine) : Prop :=
  ∀ x ∈ ls, ∀ stamp, x.stamp = some stamp → stamp.index < k

theorem Before.mono {k k' : Nat} {ls : List FileLine} (h : Before k ls) (hle : k ≤ k') :
    Before k' ls :=
  fun x hx stamp hstamp => (h x hx stamp hstamp).trans_le hle

theorem Genuine.beginning {ls hs : List FileLine} (h : Genuine hs) (hbegin : ls <+: hs) :
    Genuine ls where
  current := fun x hx => h.current x (hbegin.subset hx)
  once := h.once.sublist (hbegin.sublist.map _)

/-- Lines of earlier calls and lines of later ones. -/
theorem Genuine.append {k : Nat} {ls hs : List FileLine} (hls : Genuine ls) (hhs : Genuine hs)
    (hlow : Before k ls) (hhigh : ∀ x ∈ hs, ∀ stamp, x.stamp = some stamp → k ≤ stamp.index) :
    Genuine (ls ++ hs) where
  current := fun x hx => (List.mem_append.mp hx).elim (hls.current x) (hhs.current x)
  once := by
    rw [List.map_append]
    refine List.nodup_append.mpr ⟨hls.once, hhs.once, ?_⟩
    intro i hi j hj heq
    obtain ⟨x, hx, rfl⟩ := List.mem_map.mp hi
    obtain ⟨y, hy, rfl⟩ := List.mem_map.mp hj
    obtain ⟨sx, hsx, -⟩ := hls.current x hx
    obtain ⟨sy, hsy, -⟩ := hhs.current y hy
    have hlt := hlow x hx sx hsx
    have hge := hhigh y hy sy hsy
    rw [hsx, hsy, Option.map_some, Option.map_some, Option.some.injEq] at heq
    omega

/-- **Lines that are genuine are among the entries**, each at most as often as it
was recorded. -/
theorem subperm_of_genuine {es : List Entry} {ls : List FileLine} (h : Genuine ls)
    (hrec : ∀ x ∈ ls, ∀ stamp, x.stamp = some stamp → es[stamp.index]? = some stamp.entry) :
    (ls.map FileLine.text).Subperm (es.map StreamStatsManager.entryLine) := by
  -- both sides are read off numbers of calls
  let numbered : Option Nat → Text := fun k =>
    ((k.bind fun i => es[i]?).map StreamStatsManager.entryLine).getD []
  have hlines : ls.map FileLine.text =
      (ls.map fun l => l.stamp.map Stamp.index).map numbered := by
    rw [List.map_map]
    refine List.map_congr_left fun x hx => ?_
    obtain ⟨stamp, hstamp, -⟩ := h.current x hx
    simp only [FileLine.text, Function.comp_apply, numbered, hstamp, slotRow, Option.map_some,
      Option.bind_some, hrec x hx stamp hstamp, Option.getD_some, rowLine_row]
  have hentries : es.map StreamStatsManager.entryLine =
      ((List.range es.length).map some).map numbered := by
    refine List.ext_getElem? fun i => ?_
    rw [List.map_map, List.getElem?_map, List.getElem?_map]
    by_cases hi : i < es.length
    · simp only [List.getElem?_range hi, List.getElem?_eq_getElem hi, Option.map_some,
        Function.comp_apply, numbered, Option.bind_some, Option.getD_some]
    · rw [List.getElem?_eq_none (not_lt.mp hi), List.getElem?_eq_none (by simpa using hi)]
      rfl
  have hsub : (ls.map fun l => l.stamp.map Stamp.index) ⊆ (List.range es.length).map some := by
    intro k hk
    obtain ⟨x, hx, rfl⟩ := List.mem_map.mp hk
    obtain ⟨stamp, hstamp, -⟩ := h.current x hx
    have hlt := (List.getElem?_eq_some_iff.mp (hrec x hx stamp hstamp)).1
    exact List.mem_map.mpr ⟨stamp.index, List.mem_range.mpr hlt, by rw [hstamp]; rfl⟩
  obtain ⟨ks, hperm, hsublist⟩ := h.once.subperm hsub
  rw [hlines, hentries]
  exact ⟨ks.map numbered, hperm.map numbered, hsublist.map numbered⟩

-- ---------------------------------------------------------------------------
-- The file
-- ---------------------------------------------------------------------------

section Runs

variable {filename : Path} {entryCount bufferCount : UInt32}

/-- The ledger is right about the slots, and has the lines of the file. -/
structure Faithful (filename : Path) (entryCount bufferCount : UInt32) (a : Audit) : Prop where
  stamped : Stamped filename entryCount bufferCount a.session.manager a.ledger
  dumped : ∀ x ∈ a.ledger.dumped, ∀ stamp, x.stamp = some stamp →
    a.ledger.entries[stamp.index]? = some stamp.entry
  file : a.session.files filename = some (unlines (a.ledger.dumped.map FileLine.text))

theorem faithful_start (hname : filename ≠ []) (entryCount bufferCount : UInt32)
    (fs : FileSystem) :
    Faithful filename entryCount bufferCount (.start filename entryCount bufferCount fs) where
  stamped := stamped_init filename entryCount bufferCount
  dumped := nofun
  file := eraseFile_same fs hname

theorem le_defaultUntil (n : UInt32) : n.toNat ≤ defaultUntil.toNat := by
  have hlt := n.toNat_lt
  rw [show defaultUntil.toNat = 2 ^ 32 - 1 from rfl]
  omega

/-- A default dump reads every slot of the active buffer. -/
theorem dumped_note {m : ServerStatsManager} {l : Ledger}
    (h : Stamped filename entryCount bufferCount m l) :
    (l.note m .dumpServerStats).dumped = l.dumped ++ l.activeLines m entryCount.toNat := by
  show l.dumped ++ l.activeLines m (min defaultUntil.toNat m.entryCount.toNat) = _
  rw [h.entryCount_eq, Nat.min_eq_right (le_defaultUntil entryCount)]

theorem recorded_activeLines {m : ServerStatsManager} {l : Ledger}
    (h : Stamped filename entryCount bufferCount m l) {n : Nat} :
    ∀ x ∈ l.activeLines m n, ∀ stamp, x.stamp = some stamp →
      l.entries[stamp.index]? = some stamp.entry := by
  intro x hx stamp hstamp
  obtain ⟨j, -, rfl⟩ := List.mem_map.mp hx
  exact (h.recorded _ _ stamp hstamp).1

/-- The lines of the file are of recorded entries, and so are those of the next dump. -/
theorem Faithful.recorded {a : Audit} (h : Faithful filename entryCount bufferCount a) (n : Nat) :
    ∀ x ∈ a.ledger.dumped ++ a.ledger.activeLines a.session.manager n, ∀ stamp,
      x.stamp = some stamp → a.ledger.entries[stamp.index]? = some stamp.entry := by
  intro x hx
  rcases List.mem_append.mp hx with hx | hx
  · exact h.dumped x hx
  · exact recorded_activeLines h.stamped x hx

variable {a : Audit} (hC : 1 ≤ entryCount.toNat) (hB : 1 ≤ bufferCount.toNat)

include hC hB

/-- **A dump to the manager's own file** appends the lines that the ledger has for
its slots. -/
theorem Faithful.dump (hname : filename ≠ []) (h : Faithful filename entryCount bufferCount a)
    {p : Path} (hp : a.session.manager.dumpTarget p = filename) (untilRow : UInt32) :
    ∃ fs', a.session.manager.dumpServerStats p untilRow a.session.files = some fs' ∧
      fs' filename = some (unlines ((a.ledger.dumped ++ a.ledger.activeLines a.session.manager
        (min untilRow.toNat entryCount.toNat)).map FileLine.text)) := by
  have hcount : 1 ≤ a.session.manager.entryCount.toNat := by rwa [h.stamped.entryCount_eq]
  have hbuffers : 1 ≤ a.session.manager.bufferCount.toNat := by rwa [h.stamped.bufferCount_eq]
  have hoverwrite : a.session.manager.overwrite = false := h.stamped.settings.overwrite
  have hretains := h.stamped.retains
  obtain ⟨data, hdata, -⟩ := hretains.take_active hcount hbuffers
  have hlen : data.length = entryCount.toNat := by
    rw [hretains.sized.rows data (List.mem_of_getElem? hdata), h.stamped.entryCount_eq]
  have hrows : (data.take untilRow.toNat).map rowLine = (a.ledger.activeLines a.session.manager
      (min untilRow.toNat entryCount.toNat)).map FileLine.text := by
    rw [← h.stamped.take_active hB hdata (Nat.min_le_right ..)]
    exact congrArg (List.map rowLine) (List.take_eq_take_iff.mpr (by omega))
  refine ⟨_, dumpServerStats_eq hretains.sized hcount hdata p untilRow _, ?_⟩
  rw [hp, hoverwrite, hrows]
  refine (writeText_app_same _ hname _).trans ?_
  rw [h.file, Option.getD_some, ← unlines_append, ← List.map_append]

/-- **The destructor** appends the slots below the cursor. -/
theorem Faithful.destroy (hname : filename ≠ [])
    (h : Faithful filename entryCount bufferCount a) :
    ∃ fs', a.session.manager.destroy a.session.files = some fs' ∧
      fs' filename = some (unlines (a.fileLines.map FileLine.text)) := by
  have hown : a.session.manager.filename = filename := h.stamped.settings.filename
  have htarget : a.session.manager.dumpTarget a.session.manager.filename = filename := by
    rw [hown]
    exact dumpTarget_of_ne hname
  obtain ⟨fs', hdump, hfile⟩ := h.dump hC hB hname htarget a.session.manager.entryCursor
  rw [Nat.min_eq_left (h.stamped.cursor_le hC)] at hfile
  exact ⟨fs', hdump, hfile⟩

theorem Faithful.addEntry (h : Faithful filename entryCount bufferCount a) (e : Entry) :
    ∃ m', Wrote a.session.manager.testAndRotate e m' ∧
      a.step (.addEntry e) =
        some ⟨⟨m', a.session.files⟩, a.ledger.note a.session.manager (.addEntry e)⟩ ∧
      Faithful filename entryCount bufferCount
        ⟨⟨m', a.session.files⟩, a.ledger.note a.session.manager (.addEntry e)⟩ := by
  obtain ⟨m', hadd, hw, hstamped⟩ := h.stamped.addEntry hC hB e
  refine ⟨m', hw, Audit.step_addEntry hadd, hstamped, fun x hx stamp hstamp => ?_, h.file⟩
  exact getElem?_snoc (h.dumped x hx stamp hstamp) e

theorem Faithful.dumpServerStats (hname : filename ≠ [])
    (h : Faithful filename entryCount bufferCount a) :
    ∃ fs', a.step .dumpServerStats = some ⟨⟨a.session.manager, fs'⟩,
        a.ledger.note a.session.manager .dumpServerStats⟩ ∧
      Faithful filename entryCount bufferCount ⟨⟨a.session.manager, fs'⟩,
        a.ledger.note a.session.manager .dumpServerStats⟩ := by
  have hsync : a.session.manager.asyncDumping = false := h.stamped.settings.asyncDumping
  have htarget : a.session.manager.dumpTarget [] = filename := by
    unfold dumpTarget
    rw [hsync]
    exact h.stamped.settings.filename
  obtain ⟨fs', hdump, hfile⟩ := h.dump hC hB hname htarget defaultUntil
  refine ⟨fs', Audit.step_dumpServerStats hdump, h.stamped.dumpServerStats, ?_, ?_⟩
  · intro x hx
    change x ∈ (a.ledger.note a.session.manager .dumpServerStats).dumped at hx
    rw [dumped_note h.stamped] at hx
    exact h.recorded _ x hx
  · rw [Nat.min_eq_right (le_defaultUntil entryCount)] at hfile
    show fs' filename = some (unlines
      ((a.ledger.note a.session.manager .dumpServerStats).dumped.map FileLine.text))
    rw [dumped_note h.stamped]
    exact hfile

/-- **Every sequence of calls** goes through, with its entries in the ledger. -/
theorem Faithful.after (hname : filename ≠ [])
    (h : Faithful filename entryCount bufferCount a) (calls : List StatsCall) :
    ∃ a', run Audit.step a calls = some a' ∧ Faithful filename entryCount bufferCount a' ∧
      a'.ledger.entries = a.ledger.entries ++ calls.filterMap StatsCall.entry? := by
  induction calls generalizing a with
  | nil => exact ⟨a, rfl, h, (List.append_nil _).symm⟩
  | cons c calls ih =>
    cases c with
    | addEntry e =>
      obtain ⟨m', -, hstep, hnext⟩ := h.addEntry hC hB e
      obtain ⟨a', hrun, hfaithful, hentries⟩ := ih hnext
      refine ⟨a', ?_, hfaithful, hentries.trans ?_⟩
      · rw [run_cons hstep, hrun]
      · exact List.append_assoc a.ledger.entries [e] _
    | dumpServerStats =>
      obtain ⟨fs', hstep, hnext⟩ := h.dumpServerStats hC hB hname
      obtain ⟨a', hrun, hfaithful, hentries⟩ := ih hnext
      refine ⟨a', ?_, hfaithful, hentries⟩
      rw [run_cons hstep, hrun]

end Runs

-- ---------------------------------------------------------------------------
-- The slots of the current round
-- ---------------------------------------------------------------------------

section Slots

variable {filename : Path} {entryCount bufferCount : UInt32} {m : ServerStatsManager}
  {l : Ledger} (h : Stamped filename entryCount bufferCount m l)

include h

/-- The slots below the cursor are written by different calls of this round. -/
theorem genuine_activeLines {n : Nat} (hn : n ≤ m.entryCursor.toNat) :
    Genuine (l.activeLines m n) where
  current := by
    intro x hx
    obtain ⟨j, hj, rfl⟩ := List.mem_map.mp hx
    exact (h.current_iff j).mpr ((List.mem_range.mp hj).trans_le hn)
  once := by
    unfold Ledger.activeLines
    rw [List.map_map]
    refine List.nodup_range.map_on fun i hi j hj heq => ?_
    obtain ⟨si, hsi, -, hindexi⟩ := h.fresh i ((List.mem_range.mp hi).trans_le hn)
    obtain ⟨sj, hsj, -, hindexj⟩ := h.fresh j ((List.mem_range.mp hj).trans_le hn)
    simp only [Function.comp_apply, hsi, hsj, Option.map_some, Option.some.injEq] at heq
    omega

/-- They are the last calls. -/
theorem le_index_activeLines {n : Nat} (hn : n ≤ m.entryCursor.toNat) :
    ∀ x ∈ l.activeLines m n, ∀ stamp, x.stamp = some stamp →
      l.entries.length - m.entryCursor.toNat ≤ stamp.index := by
  intro x hx stamp hstamp
  obtain ⟨j, hj, rfl⟩ := List.mem_map.mp hx
  obtain ⟨s, hs, -, hindex⟩ := h.fresh j ((List.mem_range.mp hj).trans_le hn)
  obtain rfl : s = stamp := Option.some.inj (hs.symm.trans hstamp)
  omega

theorem before_activeLines (n : Nat) : Before l.entries.length (l.activeLines m n) :=
  fun x hx stamp hstamp =>
    (List.getElem?_eq_some_iff.mp (recorded_activeLines h x hx stamp hstamp)).1

/-- A dump beyond the cursor reads a slot that is not of this round. -/
theorem le_cursor_of_genuine {ls : List FileLine} {n : Nat}
    (hgenuine : Genuine (ls ++ l.activeLines m n)) : n ≤ m.entryCursor.toNat := by
  rcases Nat.eq_zero_or_pos n with rfl | hn
  · exact Nat.zero_le _
  · have hlast : n - 1 < n := Nat.sub_one_lt_of_lt hn
    have hcurrent := hgenuine.current _
      (List.mem_append_right ls (List.mem_map.mpr ⟨n - 1, List.mem_range.mpr hlast, rfl⟩))
    have hlt := (h.current_iff (n - 1)).mp hcurrent
    omega

omit h in
/-- Two dumps of one round have its first slot twice. -/
theorem not_genuine_twice {ls : List FileLine} {n k : Nat} (hn : 1 ≤ n) (hk : 1 ≤ k) :
    ¬ Genuine (ls ++ l.activeLines m n ++ l.activeLines m k) := by
  intro hgenuine
  have honce := hgenuine.once
  rw [List.map_append, List.map_append] at honce
  have hfirst : ∀ i, 1 ≤ i → (l.stamps m.activeBuffer.toNat 0).map Stamp.index ∈
      (l.activeLines m i).map fun x => x.stamp.map Stamp.index := fun i hi =>
    List.mem_map_of_mem (List.mem_map.mpr ⟨0, List.mem_range.mpr hi, rfl⟩)
  exact (List.nodup_append.mp honce).2.2 _ (List.mem_append_right _ (hfirst n hn)) _
    (hfirst k hk) rfl

end Slots

-- ---------------------------------------------------------------------------
-- Where dumps may stand
-- ---------------------------------------------------------------------------

/-- A dump takes nothing back. -/
theorem dumped_grows {a a' : Audit} {calls : List StatsCall}
    (h : run Audit.step a calls = some a') : a.ledger.dumped <+: a'.ledger.dumped := by
  refine Reaches.invariant (P := fun t => a.ledger.dumped <+: t.ledger.dumped) ⟨calls, h⟩
    (List.prefix_refl _) ?_
  rintro t c u - ht hstep
  obtain ⟨s, -, heq⟩ := Option.bind_eq_some_iff.mp hstep
  obtain rfl := Option.some.inj heq
  cases c with
  | addEntry e => exact ht
  | dumpServerStats => exact ht.trans (List.prefix_append ..)

/-- The lines so far leave the slots alone that are read next: those of this
round, or of the next one when the buffer is full and an entry follows. -/
def Clear (a : Audit) (calls : List StatsCall) : Prop :=
  Before (a.ledger.entries.length - a.session.manager.entryCursor.toNat) a.ledger.dumped ∨
    a.session.manager.entryCount ≤ a.session.manager.entryCursor ∧
      Before a.ledger.entries.length a.ledger.dumped ∧ ∃ e rest, calls = .addEntry e :: rest

section Sessions

variable {filename : Path} {entryCount bufferCount : UInt32} {a a' : Audit}
  {calls : List StatsCall}

theorem Clear.addEntry {e : Entry} {m' : ServerStatsManager} (h : Clear a (.addEntry e :: calls))
    (hw : Wrote a.session.manager.testAndRotate e m') :
    Clear ⟨⟨m', a.session.files⟩, a.ledger.note a.session.manager (.addEntry e)⟩ calls := by
  refine .inl ?_
  show Before ((a.ledger.entries ++ [e]).length - m'.entryCursor.toNat) a.ledger.dumped
  rw [List.length_append, List.length_singleton, hw.cursor, Nat.add_sub_add_right]
  by_cases hlt : a.session.manager.entryCursor < a.session.manager.entryCount
  · rw [testAndRotate_of_lt hlt]
    rcases h with h | ⟨hge, -, -⟩
    · exact h
    · exact absurd hge (UInt32.not_le.mpr hlt)
  · -- a new round starts with this call
    rw [testAndRotate_of_ge (UInt32.not_lt.mp hlt)]
    rcases h with h | ⟨-, h, -⟩
    · exact h.mono (Nat.sub_le ..)
    · exact h

theorem Clear.before (h : Clear a (.dumpServerStats :: calls)) :
    Before (a.ledger.entries.length - a.session.manager.entryCursor.toNat) a.ledger.dumped := by
  rcases h with h | ⟨-, -, e, rest, heq⟩
  · exact h
  · cases heq

variable (hC : 1 ≤ entryCount.toNat) (hB : 1 ≤ bufferCount.toNat) (hname : filename ≠ [])
  (h : Faithful filename entryCount bufferCount a) (hrun : run Audit.step a calls = some a')

include hC hB hname h hrun

/-- **Dumps of full buffers**, each with an entry after it, are enough. -/
theorem genuine_of_spaced (hspaced : Spaced entryCount.toNat a.ledger.entries.length calls)
    (hgenuine : Genuine a.ledger.dumped) (hclear : Clear a calls) : Genuine a'.fileLines := by
  induction calls generalizing a with
  | nil =>
    obtain rfl := Option.some.inj hrun
    rcases hclear with hclear | ⟨-, -, e, rest, heq⟩
    · exact hgenuine.append (genuine_activeLines h.stamped le_rfl) hclear
        (le_index_activeLines h.stamped le_rfl)
    · cases heq
  | cons c calls ih =>
    cases c with
    | addEntry e =>
      obtain ⟨m', hw, hstep, hnext⟩ := h.addEntry hC hB e
      rw [run_cons hstep] at hrun
      refine ih hnext hrun ?_ hgenuine (hclear.addEntry hw)
      show Spaced entryCount.toNat (a.ledger.entries ++ [e]).length calls
      rw [List.length_append]
      exact hspaced
    | dumpServerStats =>
      obtain ⟨hfull, hadd, hspaced⟩ := hspaced
      have hcursor := (h.stamped.cursor_eq_iff hC).mpr hfull
      obtain ⟨fs', hstep, hnext⟩ := h.dumpServerStats hC hB hname
      rw [run_cons hstep] at hrun
      have hnote := dumped_note h.stamped
      refine ih hnext hrun hspaced ?_ (.inr ⟨?_, ?_, hadd⟩)
      · show Genuine (a.ledger.note a.session.manager .dumpServerStats).dumped
        rw [hnote]
        exact hgenuine.append (genuine_activeLines h.stamped hcursor.ge) hclear.before
          (le_index_activeLines h.stamped hcursor.ge)
      · show a.session.manager.entryCount ≤ a.session.manager.entryCursor
        rw [UInt32.le_iff_toNat_le, h.stamped.entryCount_eq, hcursor]
      · show Before a.ledger.entries.length
          (a.ledger.note a.session.manager .dumpServerStats).dumped
        rw [hnote]
        intro x hx
        rcases List.mem_append.mp hx with hx | hx
        · exact hclear.before.mono (Nat.sub_le ..) x hx
        · exact before_activeLines h.stamped _ x hx

/-- **And nothing less is**: a dump elsewhere invents a line or repeats one. -/
theorem spaced_of_genuine (hgenuine : Genuine a'.fileLines) :
    Spaced entryCount.toNat a.ledger.entries.length calls := by
  induction calls generalizing a with
  | nil => trivial
  | cons c calls ih =>
    cases c with
    | addEntry e =>
      obtain ⟨m', -, hstep, hnext⟩ := h.addEntry hC hB e
      rw [run_cons hstep] at hrun
      have hspaced := ih hnext hrun
      change Spaced entryCount.toNat (a.ledger.entries ++ [e]).length calls at hspaced
      rw [List.length_append] at hspaced
      exact hspaced
    | dumpServerStats =>
      have hnote := dumped_note h.stamped
      obtain ⟨fs', hstep, hnext⟩ := h.dumpServerStats hC hB hname
      rw [run_cons hstep] at hrun
      have hlines : (a.ledger.note a.session.manager .dumpServerStats).dumped <+: a'.fileLines :=
        (dumped_grows hrun).trans (List.prefix_append ..)
      rw [hnote] at hlines
      have hcursor : a.session.manager.entryCursor.toNat = entryCount.toNat :=
        (h.stamped.cursor_le hC).antisymm
          (le_cursor_of_genuine h.stamped (hgenuine.beginning hlines))
      have hspaced := ih hnext hrun
      refine ⟨(h.stamped.cursor_eq_iff hC).mp hcursor, ?_, hspaced⟩
      -- whatever else comes next reads the same slots again
      cases calls with
      | nil =>
        obtain rfl := Option.some.inj hrun
        change Genuine ((a.ledger.note a.session.manager .dumpServerStats).dumped ++
          a.ledger.activeLines a.session.manager a.session.manager.entryCursor.toNat) at hgenuine
        rw [hnote, hcursor] at hgenuine
        exact absurd hgenuine (not_genuine_twice hC hC)
      | cons c rest =>
        cases c with
        | addEntry e => exact ⟨e, rest, rfl⟩
        | dumpServerStats =>
          obtain ⟨fs'', hstep', -⟩ := hnext.dumpServerStats hC hB hname
          rw [run_cons hstep'] at hrun
          have hagain : ((a.ledger.note a.session.manager .dumpServerStats).note
              a.session.manager .dumpServerStats).dumped <+: a'.fileLines :=
            (dumped_grows hrun).trans (List.prefix_append ..)
          rw [dumped_note hnext.stamped, hnote] at hagain
          exact absurd (hgenuine.beginning hagain) (not_genuine_twice hC hC)

end Sessions

-- ---------------------------------------------------------------------------
-- The file of a session
-- ---------------------------------------------------------------------------

/--
**A session's file has entries only, none of them too often, exactly when its
dumps are spaced.** Then every line is a slot of the current round, no call has
two lines, and the lines are among the entries.
-/
theorem dumps_genuine_iff {entryCount bufferCount : UInt32} (hC : 1 ≤ entryCount.toNat)
    (hB : 1 ≤ bufferCount.toNat) {filename : Path} (hname : filename ≠ [])
    (calls : List StatsCall) (fs : FileSystem) :
    ∃ a fs' text, run Audit.step (.start filename entryCount bufferCount fs) calls = some a ∧
      Session.record filename entryCount bufferCount calls fs = some fs' ∧
      fs' filename = some text ∧ lines text = a.fileLines.map FileLine.text ∧
      ((lines text).Subperm
          ((calls.filterMap StatsCall.entry?).map StreamStatsManager.entryLine) ∧
        Genuine a.fileLines ↔ Spaced entryCount.toNat 0 calls) := by
  have hstart := faithful_start hname entryCount bufferCount fs
  obtain ⟨a, hrun, ha, hentries⟩ := hstart.after hC hB hname calls
  obtain ⟨fs', hdestroy, htext⟩ := ha.destroy hC hB hname
  have hrecord : Session.record filename entryCount bufferCount calls fs = some fs' := by
    rw [Session.record, show Session.start filename entryCount bufferCount fs =
      (Audit.start filename entryCount bufferCount fs).session from rfl, Audit.run_session hrun]
    exact hdestroy
  have hlines : lines (unlines (a.fileLines.map FileLine.text)) =
      a.fileLines.map FileLine.text := by
    refine lines_unlines fun x hx => ?_
    obtain ⟨l, -, rfl⟩ := List.mem_map.mp hx
    exact newline_notMem_rowLine _
  refine ⟨a, fs', _, hrun, hrecord, htext, hlines, ?_⟩
  rw [hlines]
  constructor
  · intro h
    exact spaced_of_genuine hC hB hname hstart hrun h.2
  · intro hspaced
    have hgenuine : Genuine a.fileLines :=
      genuine_of_spaced hC hB hname hstart hrun hspaced ⟨nofun, List.nodup_nil⟩ (.inl nofun)
    refine ⟨?_, hgenuine⟩
    rw [show calls.filterMap StatsCall.entry? = a.ledger.entries from hentries.symm]
    exact subperm_of_genuine hgenuine (ha.recorded _)

/-- A dump of a full buffer, before the entry that goes to the other one. -/
theorem dumps_genuine_iff_full :
    ∃ a fs' text, run Audit.step (.start ['f'] 1 2 fun _ => none)
        [.addEntry ⟨7, 1⟩, .dumpServerStats, .addEntry ⟨8, 2⟩] = some a ∧
      Session.record ['f'] 1 2 [.addEntry ⟨7, 1⟩, .dumpServerStats, .addEntry ⟨8, 2⟩]
        (fun _ => none) = some fs' ∧
      fs' ['f'] = some text ∧
      (lines text).Subperm ([⟨7, 1⟩, ⟨8, 2⟩].map StreamStatsManager.entryLine) ∧
      Genuine a.fileLines := by
  obtain ⟨a, fs', text, hrun, hrecord, htext, -, hiff⟩ := dumps_genuine_iff
    (show 1 ≤ (1 : UInt32).toNat by decide) (show 1 ≤ (2 : UInt32).toNat by decide)
    (show ['f'] ≠ [] by decide) [.addEntry ⟨7, 1⟩, .dumpServerStats, .addEntry ⟨8, 2⟩]
    fun _ => none
  exact ⟨a, fs', text, hrun, hrecord, htext,
    hiff.mpr ⟨⟨by decide, by decide⟩, ⟨_, _, rfl⟩, trivial⟩⟩

/-- One entry and one dump, with room for two entries: the dump writes the slot
that has not been used as well, and the destructor the entry again. -/
theorem dump_invents_and_repeats :
    ∃ fs' text, Session.record ['f'] 2 1 [.addEntry ⟨7, 1⟩, .dumpServerStats] (fun _ => none) =
        some fs' ∧
      fs' ['f'] = some text ∧
      lines text = [['7', ',', '1'], ['0', ',', '0'], ['7', ',', '1']] ∧
      ¬ (lines text).Subperm ([⟨7, 1⟩].map StreamStatsManager.entryLine) :=
  ⟨_, _, rfl, rfl, by decide, by decide⟩

end MockMessageBoard
