import MockMessageBoard.Lib.Transition
import MockMessageBoard.Stats.Versions

/-!
# MockMessageBoard — dumps between the entries

`dump_server_stats()` may be called at any time between `add_entry` calls. Its
default `until` is a `uint32_t` of -1, so it writes the whole active buffer,
wherever the cursor stands; the destructor writes the rows below the cursor. To
say where each line of the file comes from, a ledger is kept beside the manager:
each slot is stamped by the call that writes it, and a dump notes the stamps of
the slots it reads. Nothing in the manager depends on the ledger.

* `Stamped`             — the stamps say what is in the slots;
* `Stamped.addEntry`    — one more entry keeps them right;
* `Stamped.current_iff` — the slots of the current round are those below the cursor.
-/

namespace MockMessageBoard

open TextFile ServerStatsManager Transition

-- ---------------------------------------------------------------------------
-- Sessions
-- ---------------------------------------------------------------------------

/-- A call of a public operation. `dump_server_stats` has its default arguments. -/
inductive StatsCall where
  | addEntry (e : Entry)
  | dumpServerStats
  deriving DecidableEq, Repr

/-- `uint32_t until=-1`. -/
def defaultUntil : UInt32 := -1

/-- A manager and the files, between two calls. -/
structure Session where
  manager : ServerStatsManager
  files : FileSystem

/-- The entry that a call records, if any. -/
def StatsCall.entry? : StatsCall → Option Entry
  | .addEntry e => some e
  | .dumpServerStats => none

namespace Session

/-- A new manager that dumps synchronously, appends, and has erased its file. -/
def start (filename : Path) (entryCount bufferCount : UInt32) (fs : FileSystem) : Session :=
  let (m, fs) := new filename false entryCount bufferCount false true fs
  ⟨m, fs⟩

/-- One call. -/
def step (s : Session) : StatsCall → Option Session
  | .addEntry e => do
    let m ← s.manager.addEntry e
    some { s with manager := m }
  | .dumpServerStats => do
    let fs ← s.manager.dumpServerStats [] defaultUntil s.files
    some { s with files := fs }

/-- Construct, make the calls, destroy: the files left behind. -/
def record (filename : Path) (entryCount bufferCount : UInt32) (calls : List StatsCall)
    (fs : FileSystem) : Option FileSystem := do
  let s ← run step (start filename entryCount bufferCount fs) calls
  s.manager.destroy s.files

end Session

-- ---------------------------------------------------------------------------
-- The ledger
-- ---------------------------------------------------------------------------

/-- The call that wrote a slot: how often the ring had been rotated, the number
of the call and what it recorded. -/
structure Stamp where
  round : Nat
  index : Nat
  entry : Entry
  deriving DecidableEq, Repr

/-- A line of the file: how often the ring had been rotated when it was written,
and the stamp of its slot. A slot without a stamp is as the constructor made it. -/
structure FileLine where
  round : Nat
  stamp : Option Stamp
  deriving DecidableEq, Repr

/-- What is known about a session besides its state. -/
structure Ledger where
  round : Nat
  entries : List Entry
  stamps : Nat → Nat → Option Stamp
  dumped : List FileLine

/-- A session and its ledger. -/
structure Audit where
  session : Session
  ledger : Ledger

namespace Ledger

def blank : Ledger := ⟨0, [], fun _ _ => none, []⟩

/-- The first `n` slots of the active buffer of `m`, as lines of a file. -/
def activeLines (l : Ledger) (m : ServerStatsManager) (n : Nat) : List FileLine :=
  (List.range n).map fun j => ⟨l.round, l.stamps m.activeBuffer.toNat j⟩

/-- What a call on `m` adds. `add_entry` writes the slot that it finds after its
test. -/
def note (l : Ledger) (m : ServerStatsManager) : StatsCall → Ledger
  | .addEntry e =>
    let round := if m.entryCursor ≥ m.entryCount then l.round + 1 else l.round
    let target := m.testAndRotate
    { l with
      round := round
      entries := l.entries ++ [e]
      stamps := fun i j =>
        if i = target.activeBuffer.toNat ∧ j = target.entryCursor.toNat then
          some ⟨round, l.entries.length, e⟩
        else l.stamps i j }
  | .dumpServerStats =>
    { l with dumped := l.dumped ++ l.activeLines m (min defaultUntil.toNat m.entryCount.toNat) }

end Ledger

namespace Audit

def start (filename : Path) (entryCount bufferCount : UInt32) (fs : FileSystem) : Audit :=
  ⟨.start filename entryCount bufferCount fs, .blank⟩

/-- One call, noted in the ledger. -/
def step (a : Audit) (c : StatsCall) : Option Audit := do
  let s ← a.session.step c
  some ⟨s, a.ledger.note a.session.manager c⟩

/-- The lines of the file after the destructor: those of the dumps, and the slots
below the cursor. -/
def fileLines (a : Audit) : List FileLine :=
  a.ledger.dumped ++
    a.ledger.activeLines a.session.manager a.session.manager.entryCursor.toNat

theorem step_addEntry {a : Audit} {e : Entry} {m' : ServerStatsManager}
    (h : a.session.manager.addEntry e = some m') : a.step (.addEntry e) =
      some ⟨⟨m', a.session.files⟩, a.ledger.note a.session.manager (.addEntry e)⟩ := by
  simp only [step, Session.step, h, Option.bind_eq_bind, Option.bind_some]

theorem step_dumpServerStats {a : Audit} {fs' : FileSystem}
    (h : a.session.manager.dumpServerStats [] defaultUntil a.session.files = some fs') :
    a.step .dumpServerStats = some ⟨⟨a.session.manager, fs'⟩,
      a.ledger.note a.session.manager .dumpServerStats⟩ := by
  simp only [step, Session.step, h, Option.bind_eq_bind, Option.bind_some]

/-- The calls of an audited run are those of the session. -/
theorem run_session {a a' : Audit} {calls : List StatsCall} (h : run step a calls = some a') :
    run Session.step a.session calls = some a'.session := by
  induction calls generalizing a with
  | nil =>
    rw [run, Option.some.injEq] at h
    rw [run, h]
  | cons c calls ih =>
    obtain ⟨t, ht, hrun⟩ := Option.bind_eq_some_iff.mp h
    obtain ⟨s, hs, heq⟩ := Option.bind_eq_some_iff.mp ht
    obtain rfl := Option.some.inj heq
    rw [run_cons hs]
    exact ih hrun

end Audit

/-- The row of a slot. -/
def slotRow : Option Stamp → List UInt64
  | none => [0, 0]
  | some stamp => stamp.entry.row

/-- The text of a line. -/
def FileLine.text (l : FileLine) : Text := rowLine (slotRow l.stamp)

/-- The slot had been written in the round of the dump: it is neither an initial
slot nor a stale one. -/
def FileLine.Current (l : FileLine) : Prop :=
  ∃ stamp, l.stamp = some stamp ∧ stamp.round = l.round

-- ---------------------------------------------------------------------------
-- The stamps are right
-- ---------------------------------------------------------------------------

section Stamps

variable {filename : Path} {entryCount bufferCount : UInt32}

/-- The ledger says what is in the slots of `m`, and which slots of the active
buffer were written in this round: those below the cursor, in the order of the
calls. -/
structure Stamped (filename : Path) (entryCount bufferCount : UInt32) (m : ServerStatsManager)
    (l : Ledger) : Prop where
  retains : m.Retains l.entries
  settings : SameSettings (init filename false entryCount bufferCount false) m
  recorded : ∀ i j stamp, l.stamps i j = some stamp →
    l.entries[stamp.index]? = some stamp.entry ∧ stamp.round ≤ l.round
  fresh : ∀ j < m.entryCursor.toNat, ∃ stamp, l.stamps m.activeBuffer.toNat j = some stamp ∧
    stamp.round = l.round ∧ stamp.index + m.entryCursor.toNat = l.entries.length + j
  stale : ∀ j stamp, m.entryCursor.toNat ≤ j →
    l.stamps m.activeBuffer.toNat j = some stamp → stamp.round ≠ l.round
  slot : ∀ i < bufferCount.toNat, ∀ j < entryCount.toNat,
    m.slot i j = some (slotRow (l.stamps i j))

theorem slot_init (filename : Path) (entryCount bufferCount : UInt32) {i j : Nat}
    (hi : i < bufferCount.toNat) (hj : j < entryCount.toNat) :
    (init filename false entryCount bufferCount false).slot i j = some [0, 0] := by
  unfold slot init
  rw [List.getElem?_replicate_of_lt hi, Option.bind_some, List.getElem?_replicate_of_lt hj]
  rfl

theorem stamped_init (filename : Path) (entryCount bufferCount : UInt32) :
    Stamped filename entryCount bufferCount (init filename false entryCount bufferCount false)
      .blank where
  retains := retains_init ..
  settings := .refl _
  recorded := nofun
  fresh := fun _ hj => absurd hj (Nat.not_lt_zero _)
  stale := nofun
  slot := fun _ hi _ hj => slot_init filename entryCount bufferCount hi hj

/-- An entry that was recorded stays recorded. -/
theorem getElem?_snoc {es : List Entry} {k : Nat} {x : Entry} (h : es[k]? = some x) (e : Entry) :
    (es ++ [e])[k]? = some x := by
  rw [List.getElem?_append_left (List.getElem?_eq_some_iff.mp h).1, h]

variable {m m' : ServerStatsManager} {l : Ledger} {e : Entry}

theorem round_note_of_lt (hlt : m.entryCursor < m.entryCount) :
    (l.note m (.addEntry e)).round = l.round :=
  if_neg (UInt32.not_le.mpr hlt)

theorem round_note_of_ge (hge : m.entryCount ≤ m.entryCursor) :
    (l.note m (.addEntry e)).round = l.round + 1 :=
  if_pos hge

theorem round_le_note : l.round ≤ (l.note m (.addEntry e)).round := by
  by_cases hlt : m.entryCursor < m.entryCount
  · rw [round_note_of_lt hlt]
  · rw [round_note_of_ge (UInt32.not_lt.mp hlt)]
    exact Nat.le_succ _

/-- The stamp of a slot after one more entry. -/
theorem stamps_note (i j : Nat) :
    (l.note m (.addEntry e)).stamps i j =
      if i = m.testAndRotate.activeBuffer.toNat ∧ j = m.testAndRotate.entryCursor.toNat then
        some ⟨(l.note m (.addEntry e)).round, l.entries.length, e⟩
      else l.stamps i j := rfl

theorem fresh_note (h : Stamped filename entryCount bufferCount m l)
    (hw : Wrote m.testAndRotate e m') {j : Nat} (hj : j < m'.entryCursor.toNat) :
    ∃ stamp, (l.note m (.addEntry e)).stamps m'.activeBuffer.toNat j = some stamp ∧
      stamp.round = (l.note m (.addEntry e)).round ∧
      stamp.index + m'.entryCursor.toNat = l.entries.length + 1 + j := by
  rw [hw.cursor] at hj
  rw [hw.active, hw.cursor, stamps_note]
  by_cases hlast : j = m.testAndRotate.entryCursor.toNat
  · rw [if_pos ⟨rfl, hlast⟩, hlast]
    exact ⟨_, rfl, rfl, by simp only; omega⟩
  · -- the slots before it were written in this round as well
    have hlt : m.entryCursor < m.entryCount := by
      by_contra hge
      rw [testAndRotate_of_ge (UInt32.not_lt.mp hge)] at hj hlast
      exact hlast (Nat.lt_one_iff.mp hj)
    rw [if_neg fun h => hlast h.2, round_note_of_lt hlt]
    rw [testAndRotate_of_lt hlt] at hj hlast ⊢
    obtain ⟨stamp, hstamp, hround, hindex⟩ := h.fresh j (by omega)
    exact ⟨stamp, hstamp, hround, by omega⟩

theorem stale_note (h : Stamped filename entryCount bufferCount m l)
    (hw : Wrote m.testAndRotate e m') {j : Nat} {stamp : Stamp} (hj : m'.entryCursor.toNat ≤ j)
    (hstamp : (l.note m (.addEntry e)).stamps m'.activeBuffer.toNat j = some stamp) :
    stamp.round ≠ (l.note m (.addEntry e)).round := by
  rw [hw.cursor] at hj
  rw [hw.active, stamps_note, if_neg (by omega)] at hstamp
  by_cases hlt : m.entryCursor < m.entryCount
  · rw [testAndRotate_of_lt hlt] at hj hstamp
    rw [round_note_of_lt hlt]
    exact h.stale j stamp (by omega) hstamp
  · -- the round is new
    rw [round_note_of_ge (UInt32.not_lt.mp hlt)]
    exact (Nat.lt_succ_of_le (h.recorded _ _ stamp hstamp).2).ne

theorem Stamped.entryCount_eq (h : Stamped filename entryCount bufferCount m l) :
    m.entryCount = entryCount := h.settings.entryCount

theorem Stamped.bufferCount_eq (h : Stamped filename entryCount bufferCount m l) :
    m.bufferCount = bufferCount := h.settings.bufferCount

variable (hC : 1 ≤ entryCount.toNat) (hB : 1 ≤ bufferCount.toNat)

include hC in
theorem Stamped.cursor_le (h : Stamped filename entryCount bufferCount m l) :
    m.entryCursor.toNat ≤ entryCount.toNat := by
  have hcursor := h.retains.cursor
  rw [h.entryCount_eq] at hcursor
  rw [hcursor]
  split
  · exact Nat.zero_le _
  · exact Nat.mod_lt _ (by omega)

include hC in
/-- The cursor stands at the end of a buffer once the last entry has filled it. -/
theorem Stamped.cursor_eq_iff (h : Stamped filename entryCount bufferCount m l) :
    m.entryCursor.toNat = entryCount.toNat ↔
      1 ≤ l.entries.length ∧ entryCount.toNat ∣ l.entries.length := by
  have hcursor := h.retains.cursor
  rw [h.entryCount_eq] at hcursor
  rw [hcursor]
  by_cases hes : l.entries = []
  · rw [if_pos hes, hes]
    exact ⟨fun h0 => by omega, fun h1 => absurd h1.1 (Nat.not_succ_le_zero 0)⟩
  · have hpos : 1 ≤ l.entries.length := List.length_pos_iff.mpr hes
    rw [if_neg hes, Nat.dvd_iff_mod_eq_zero]
    obtain ⟨n, hn⟩ := Nat.exists_eq_add_of_le' hpos
    obtain ⟨c, hc⟩ := Nat.exists_eq_add_of_le' hC
    rw [hn, hc, Nat.add_sub_cancel, Nat.succ_mod_succ_eq_zero_iff, Nat.add_right_cancel_iff]
    exact ⟨fun hmod => ⟨Nat.le_add_left 1 n, hmod⟩, And.right⟩

include hB in
theorem Stamped.active_lt (h : Stamped filename entryCount bufferCount m l) :
    m.activeBuffer.toNat < bufferCount.toNat := by
  rw [h.retains.active, h.bufferCount_eq]
  exact Nat.mod_lt _ (by omega)

include hC hB in
/-- **One more entry.** -/
theorem Stamped.addEntry (h : Stamped filename entryCount bufferCount m l) (e : Entry) :
    ∃ m', m.addEntry e = some m' ∧ Wrote m.testAndRotate e m' ∧
      Stamped filename entryCount bufferCount m' (l.note m (.addEntry e)) := by
  have hcount : 1 ≤ m.entryCount.toNat := by rwa [h.entryCount_eq]
  have hbuffers : 1 ≤ m.bufferCount.toNat := by rwa [h.bufferCount_eq]
  have hactive : m.activeBuffer < m.bufferCount := by
    rw [UInt32.lt_iff_toNat_lt, h.bufferCount_eq]
    exact h.active_lt hB
  obtain ⟨m', hadd, hretains, hset⟩ := retains_addEntry h.retains hcount hbuffers e
  obtain ⟨m'', hwrite, hw⟩ := lockedWrite_wrote h.retains.sized.testAndRotate
    (inBounds_testAndRotate hcount hactive) e
  obtain rfl : m'' = m' := Option.some.inj (hwrite.symm.trans hadd)
  refine ⟨m'', hadd, hw, hretains, h.settings.trans hset, ?_, ?_, ?_, ?_⟩
  · intro i j stamp hstamp
    rw [stamps_note] at hstamp
    split at hstamp
    · obtain rfl := Option.some.inj hstamp
      exact ⟨List.getElem?_concat_length .., le_rfl⟩
    · obtain ⟨hentry, hround⟩ := h.recorded i j stamp hstamp
      exact ⟨getElem?_snoc hentry e, hround.trans round_le_note⟩
  · intro j hj
    rw [show (l.note m (.addEntry e)).entries = l.entries ++ [e] from rfl, List.length_append,
      List.length_singleton]
    exact fresh_note h hw hj
  · exact fun j stamp hj hstamp => stale_note h hw hj hstamp
  · intro i hi j hj
    rw [hw.slot, stamps_note]
    split
    · rfl
    · rw [slot_testAndRotate]
      exact h.slot i hi j hj

/-- A dump leaves the slots and the stamps alone. -/
theorem Stamped.dumpServerStats (h : Stamped filename entryCount bufferCount m l) :
    Stamped filename entryCount bufferCount m (l.note m .dumpServerStats) :=
  ⟨h.retains, h.settings, h.recorded, h.fresh, h.stale, h.slot⟩

include hB in
/-- The slots of the active buffer, as a dump writes them and as the ledger has
them. -/
theorem Stamped.take_active (h : Stamped filename entryCount bufferCount m l) {data : Matrix}
    (hdata : m.dataBuffers[m.activeBuffer.toNat]? = some data) {n : Nat}
    (hn : n ≤ entryCount.toNat) :
    (data.take n).map rowLine = (l.activeLines m n).map FileLine.text := by
  unfold Ledger.activeLines
  rw [List.map_map]
  refine List.ext_getElem? fun j => ?_
  rw [List.getElem?_map, List.getElem?_take, List.getElem?_map]
  by_cases hj : j < n
  · have hslot := h.slot _ (h.active_lt hB) j (hj.trans_le hn)
    unfold ServerStatsManager.slot at hslot
    rw [hdata, Option.bind_some] at hslot
    rw [if_pos hj, hslot, List.getElem?_range hj]
    rfl
  · rw [if_neg hj, List.getElem?_eq_none (by simpa using hj)]
    rfl

/-- A slot of the active buffer is of the current round exactly below the cursor. -/
theorem Stamped.current_iff (h : Stamped filename entryCount bufferCount m l) (j : Nat) :
    FileLine.Current ⟨l.round, l.stamps m.activeBuffer.toNat j⟩ ↔ j < m.entryCursor.toNat := by
  constructor
  · rintro ⟨stamp, hstamp, hround⟩
    by_contra hj
    exact h.stale j stamp (not_lt.mp hj) hstamp hround
  · intro hj
    obtain ⟨stamp, hstamp, hround, -⟩ := h.fresh j hj
    exact ⟨stamp, hstamp, hround⟩

end Stamps

end MockMessageBoard
