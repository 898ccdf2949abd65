import MockMessageBoard.Stats.Dump

/-!
# MockMessageBoard — the ring of buffers

What `ServerStatsManager` holds after any number of `add_entry` calls made one
after the other. The cursor wraps only at the *next* call, so after exactly
`C`, `2C`, … calls the active buffer is full and its cursor stands at the end;
`Retains` states the contents relative to the whole call history with that
boundary included.

* `lockedWrite_wrote`     — the locked half writes one slot and nothing else;
* `retains_addEntry`      — one call preserves `Retains`;
* `retains_foldlM`        — every sequence of calls reaches a retaining state.
-/

namespace MockMessageBoard

open TextFile

/-- The matrix row an entry occupies. -/
def Entry.row (e : Entry) : List UInt64 := [e.queryId, e.epochTime]

theorem rowLine_row (e : Entry) : rowLine e.row = StreamStatsManager.entryLine e := rfl

namespace ServerStatsManager

-- ---------------------------------------------------------------------------
-- Shapes and slots
-- ---------------------------------------------------------------------------

/-- `data_buffers[i][j]`. -/
def slot (m : ServerStatsManager) (i j : Nat) : Option (List UInt64) :=
  (m.dataBuffers[i]?).bind fun buffer => buffer[j]?

/-- `data_buffers` still has the sizes the constructor gave it. -/
structure Sized (m : ServerStatsManager) : Prop where
  buffers : m.dataBuffers.length = m.bufferCount.toNat
  rows : ∀ buffer ∈ m.dataBuffers, buffer.length = m.entryCount.toNat
  cols : ∀ buffer ∈ m.dataBuffers, ∀ row ∈ buffer, row.length = 2

/-- `m'` differs from `m` in its buffers and cursors at most. -/
structure SameSettings (m m' : ServerStatsManager) : Prop where
  filename : m'.filename = m.filename
  overwrite : m'.overwrite = m.overwrite
  asyncDumping : m'.asyncDumping = m.asyncDumping
  entryCount : m'.entryCount = m.entryCount
  bufferCount : m'.bufferCount = m.bufferCount

/-- The locked write has a slot to write to. -/
def InBounds (m : ServerStatsManager) : Prop :=
  m.activeBuffer < m.bufferCount ∧ m.entryCursor < m.entryCount

instance (m : ServerStatsManager) : Decidable m.InBounds :=
  inferInstanceAs (Decidable (_ ∧ _))

theorem SameSettings.refl (m : ServerStatsManager) : SameSettings m m :=
  ⟨rfl, rfl, rfl, rfl, rfl⟩

theorem SameSettings.trans {m m' m'' : ServerStatsManager} (h : SameSettings m m')
    (h' : SameSettings m' m'') : SameSettings m m'' :=
  ⟨h'.filename.trans h.filename, h'.overwrite.trans h.overwrite,
    h'.asyncDumping.trans h.asyncDumping, h'.entryCount.trans h.entryCount,
    h'.bufferCount.trans h.bufferCount⟩

theorem sized_init (filename : Path) (asyncDumping : Bool) (entryCount bufferCount : UInt32)
    (overwrite : Bool) :
    (init filename asyncDumping entryCount bufferCount overwrite).Sized := by
  refine ⟨by simp [init], ?_, ?_⟩
  · intro buffer hbuffer
    rw [List.eq_of_mem_replicate hbuffer, List.length_replicate]
    rfl
  · intro buffer hbuffer row hrow
    rw [List.eq_of_mem_replicate hbuffer] at hrow
    rw [List.eq_of_mem_replicate hrow, List.length_replicate]

/-- A slot inside the bounds exists. -/
theorem Sized.exists_slot {m : ServerStatsManager} (hm : m.Sized) {i j : Nat}
    (hi : i < m.bufferCount.toNat) (hj : j < m.entryCount.toNat) :
    ∃ buffer row, m.dataBuffers[i]? = some buffer ∧ buffer[j]? = some row ∧
      buffer ∈ m.dataBuffers ∧ row ∈ buffer := by
  have hilen : i < m.dataBuffers.length := by rw [hm.buffers]; exact hi
  have hmem : m.dataBuffers[i] ∈ m.dataBuffers := List.getElem_mem hilen
  have hjlen : j < m.dataBuffers[i].length := by rw [hm.rows _ hmem]; exact hj
  exact ⟨m.dataBuffers[i], m.dataBuffers[i][j], List.getElem?_eq_getElem hilen,
    List.getElem?_eq_getElem hjlen, hmem, List.getElem_mem hjlen⟩

-- ---------------------------------------------------------------------------
-- The locked half
-- ---------------------------------------------------------------------------

/-- Everything the locked half of `add_entry` does to `m`. -/
structure Wrote (m : ServerStatsManager) (e : Entry) (m' : ServerStatsManager) : Prop where
  sized : m'.Sized
  settings : SameSettings m m'
  active : m'.activeBuffer = m.activeBuffer
  cursor : m'.entryCursor.toNat = m.entryCursor.toNat + 1
  slot : ∀ i j, m'.slot i j =
    if i = m.activeBuffer.toNat ∧ j = m.entryCursor.toNat then some e.row else m.slot i j

theorem writeRow_eq {row : List UInt64} (h : row.length = 2) (e : Entry) :
    writeRow row e = some e.row := by
  obtain ⟨a, b, rfl⟩ := List.length_eq_two.mp h
  rfl

/-- A slot of a nested list after one of its rows was replaced. -/
private theorem getElem?_set_set {bufs : List Matrix} {a c i j : Nat} {buffer : Matrix}
    {row : List UInt64} (ha : bufs[a]? = some buffer) (hc : c < buffer.length) :
    ((bufs.set a (buffer.set c row))[i]?).bind (fun b => b[j]?) =
      if i = a ∧ j = c then some row else (bufs[i]?).bind fun b => b[j]? := by
  obtain ⟨halt, hget⟩ := List.getElem?_eq_some_iff.mp ha
  by_cases hia : i = a
  · subst hia
    by_cases hjc : j = c
    · subst hjc
      simp [halt, hc]
    · simp [halt, hget, hjc, List.getElem?_set_ne (Ne.symm hjc)]
  · simp [hia, List.getElem?_set_ne (Ne.symm hia)]

/-- **The locked half, inside the bounds.** -/
theorem lockedWrite_wrote {m : ServerStatsManager} (hm : m.Sized) (hin : m.InBounds)
    (e : Entry) : ∃ m', m.lockedWrite e = some m' ∧ Wrote m e m' := by
  obtain ⟨hactive, hcursor⟩ := hin
  rw [UInt32.lt_iff_toNat_lt] at hactive hcursor
  obtain ⟨buffer, row, hbuf, hrow, hbufMem, hrowMem⟩ := hm.exists_slot hactive hcursor
  have hrow2 := hm.cols buffer hbufMem row hrowMem
  have hclen : m.entryCursor.toNat < buffer.length := (List.getElem?_eq_some_iff.mp hrow).1
  have hnowrap : (m.entryCursor + 1).toNat = m.entryCursor.toNat + 1 := by
    have hlt := m.entryCount.toNat_lt
    rw [UInt32.toNat_add, show (1 : UInt32).toNat = 1 from rfl]
    omega
  refine ⟨_, by simp [lockedWrite, hbuf, hrow, writeRow_eq hrow2]; rfl, ?_⟩
  refine ⟨⟨?_, ?_, ?_⟩, ⟨rfl, rfl, rfl, rfl, rfl⟩, rfl, hnowrap, ?_⟩
  · simpa using hm.buffers
  · intro b hb
    rcases List.mem_or_eq_of_mem_set hb with hb | rfl
    · exact hm.rows b hb
    · rw [List.length_set]
      exact hm.rows buffer hbufMem
  · intro b hb r hr
    rcases List.mem_or_eq_of_mem_set hb with hb | rfl
    · exact hm.cols b hb r hr
    · rcases List.mem_or_eq_of_mem_set hr with hr | rfl
      · exact hm.cols buffer hbufMem r hr
      · rfl
  · intro i j
    exact getElem?_set_set hbuf hclen

/-- Outside the bounds the locked half indexes a `std::vector` out of range. -/
theorem lockedWrite_eq_none {m : ServerStatsManager} (hm : m.Sized) (hin : ¬ m.InBounds)
    (e : Entry) : m.lockedWrite e = none := by
  rw [InBounds, UInt32.lt_iff_toNat_lt, UInt32.lt_iff_toNat_lt, not_and_or] at hin
  cases hbuf : m.dataBuffers[m.activeBuffer.toNat]? with
  | none => simp [lockedWrite, hbuf]
  | some buffer =>
    have hlen := (List.getElem?_eq_some_iff.mp hbuf).1
    have hrows := hm.rows buffer (List.mem_of_getElem? hbuf)
    have hout : buffer.length ≤ m.entryCursor.toNat := by
      have := hm.buffers
      omega
    simp [lockedWrite, hbuf, List.getElem?_eq_none hout]

-- ---------------------------------------------------------------------------
-- The unlocked half
-- ---------------------------------------------------------------------------

theorem testAndRotate_of_lt {m : ServerStatsManager} (h : m.entryCursor < m.entryCount) :
    m.testAndRotate = m := by
  rw [testAndRotate, if_neg (UInt32.not_le.mpr h)]

theorem testAndRotate_of_ge {m : ServerStatsManager} (h : m.entryCount ≤ m.entryCursor) :
    m.testAndRotate =
      { m with entryCursor := 0, activeBuffer := (m.activeBuffer + 1) % m.bufferCount } := by
  rw [testAndRotate, if_pos h]

theorem sameSettings_testAndRotate (m : ServerStatsManager) :
    SameSettings m m.testAndRotate := by
  unfold testAndRotate
  split
  · exact ⟨rfl, rfl, rfl, rfl, rfl⟩
  · exact .refl m

@[simp] theorem dataBuffers_testAndRotate (m : ServerStatsManager) :
    m.testAndRotate.dataBuffers = m.dataBuffers := by
  unfold testAndRotate
  split <;> rfl

theorem slot_testAndRotate (m : ServerStatsManager) (i j : Nat) :
    m.testAndRotate.slot i j = m.slot i j := by
  unfold slot
  rw [dataBuffers_testAndRotate]

theorem Sized.testAndRotate {m : ServerStatsManager} (hm : m.Sized) :
    m.testAndRotate.Sized := by
  have hset := sameSettings_testAndRotate m
  refine ⟨?_, ?_, ?_⟩
  · rw [dataBuffers_testAndRotate, hset.bufferCount]
    exact hm.buffers
  · rw [dataBuffers_testAndRotate, hset.entryCount]
    exact hm.rows
  · rw [dataBuffers_testAndRotate]
    exact hm.cols

/-- The increment of a buffer index below a `uint32_t` count does not wrap. -/
theorem toNat_succ_mod {a b : UInt32} (h : a < b) :
    ((a + 1) % b).toNat = (a.toNat + 1) % b.toNat := by
  have hlt := b.toNat_lt
  rw [UInt32.lt_iff_toNat_lt] at h
  rw [UInt32.toNat_mod, UInt32.toNat_add, show (1 : UInt32).toNat = 1 from rfl]
  congr 1
  omega

/-- A caller that takes the lock right after its own test is inside the
bounds. -/
theorem inBounds_testAndRotate {m : ServerStatsManager} (hC : 1 ≤ m.entryCount.toNat)
    (hactive : m.activeBuffer < m.bufferCount) : m.testAndRotate.InBounds := by
  by_cases hlt : m.entryCursor < m.entryCount
  · rw [testAndRotate_of_lt hlt]
    exact ⟨hactive, hlt⟩
  · rw [testAndRotate_of_ge (UInt32.not_lt.mp hlt)]
    refine ⟨UInt32.lt_iff_toNat_lt.mpr ?_, UInt32.lt_iff_toNat_lt.mpr hC⟩
    show ((m.activeBuffer + 1) % m.bufferCount).toNat < m.bufferCount.toNat
    rw [UInt32.lt_iff_toNat_lt] at hactive
    rw [UInt32.toNat_mod]
    exact Nat.mod_lt _ (by omega)

-- ---------------------------------------------------------------------------
-- Arithmetic of blocks
-- ---------------------------------------------------------------------------

/-- Counting one further inside a block of `c`. -/
private theorem succ_in_block {n c : Nat} (h : n % c + 1 < c) :
    (n + 1) % c = n % c + 1 ∧ (n + 1) / c = n / c := by
  have hdm := Nat.div_add_mod n c
  have := (Nat.div_mod_unique (a := n + 1) (d := n / c) (c := n % c + 1)
    (by omega : 0 < c)).mpr ⟨by omega, h⟩
  exact ⟨this.2, this.1⟩

/-- Counting one past the end of a block of `c`. -/
private theorem succ_next_block {n c : Nat} (hc : 1 ≤ c) (h : n % c + 1 = c) :
    (n + 1) % c = 0 ∧ (n + 1) / c = n / c + 1 := by
  have hdm := Nat.div_add_mod n c
  have := (Nat.div_mod_unique (a := n + 1) (d := n / c + 1) (c := 0) (by omega : 0 < c)).mpr
    ⟨by rw [Nat.mul_add]; omega, by omega⟩
  exact ⟨this.2, this.1⟩

/-- Two block numbers less than `b` apart agree modulo `b` only when equal. -/
private theorem eq_of_mod_eq_of_lt {x y b : Nat} (hle : x ≤ y) (hlt : y < x + b)
    (h : x % b = y % b) : x = y := by
  have hdvd : b ∣ y - x := (Nat.modEq_iff_dvd' hle).mp h
  rcases Nat.eq_zero_or_pos (y - x) with h0 | hpos
  · omega
  · have := Nat.le_of_dvd hpos hdvd
    omega

-- ---------------------------------------------------------------------------
-- Retention
-- ---------------------------------------------------------------------------

/--
The contents of `m` after the calls `es`: with blocks of `entry_count` calls,
call `k` is in row `k % entry_count` of buffer `(k / entry_count) %
buffer_count`, unless `buffer_count` later blocks were started since.
-/
structure Retains (m : ServerStatsManager) (es : List Entry) : Prop where
  sized : m.Sized
  cursor : m.entryCursor.toNat =
    if es = [] then 0 else (es.length - 1) % m.entryCount.toNat + 1
  active : m.activeBuffer.toNat =
    (es.length - 1) / m.entryCount.toNat % m.bufferCount.toNat
  slot : ∀ k e, es[k]? = some e →
    (es.length - 1) / m.entryCount.toNat < k / m.entryCount.toNat + m.bufferCount.toNat →
    m.slot (k / m.entryCount.toNat % m.bufferCount.toNat) (k % m.entryCount.toNat) = some e.row

theorem retains_init (filename : Path) (asyncDumping : Bool) (entryCount bufferCount : UInt32)
    (overwrite : Bool) :
    (init filename asyncDumping entryCount bufferCount overwrite).Retains [] where
  sized := sized_init ..
  cursor := rfl
  active := by simp [init]
  slot := by simp

/-- Where the cursors stand once the unlocked half has run: on the slot of the
next call. -/
theorem retains_testAndRotate {m : ServerStatsManager} {es : List Entry} (h : m.Retains es)
    (hC : 1 ≤ m.entryCount.toNat) (hB : 1 ≤ m.bufferCount.toNat) :
    m.testAndRotate.entryCursor.toNat = es.length % m.entryCount.toNat ∧
      m.testAndRotate.activeBuffer.toNat =
        es.length / m.entryCount.toNat % m.bufferCount.toNat := by
  have hcur := h.cursor
  have hact := h.active
  by_cases hes : es = []
  · subst hes
    rw [if_pos rfl] at hcur
    have hlt : m.entryCursor < m.entryCount := by
      rw [UInt32.lt_iff_toNat_lt]
      omega
    rw [testAndRotate_of_lt hlt, hcur, hact]
    simp
  · rw [if_neg hes] at hcur
    have hlen : es.length = es.length - 1 + 1 := by
      have := List.length_pos_iff.mpr hes
      omega
    have hmod := Nat.mod_lt (es.length - 1) (by omega : m.entryCount.toNat > 0)
    by_cases hfull : (es.length - 1) % m.entryCount.toNat + 1 = m.entryCount.toNat
    · -- the last call filled the buffer: rotate
      have hge : m.entryCount ≤ m.entryCursor := by
        rw [UInt32.le_iff_toNat_le]
        omega
      have hactlt : m.activeBuffer < m.bufferCount := by
        rw [UInt32.lt_iff_toNat_lt, hact]
        exact Nat.mod_lt _ (by omega)
      obtain ⟨hzero, hdiv⟩ := succ_next_block hC hfull
      rw [testAndRotate_of_ge hge, hlen, hzero, hdiv]
      refine ⟨rfl, ?_⟩
      show ((m.activeBuffer + 1) % m.bufferCount).toNat = _
      rw [toNat_succ_mod hactlt, hact, Nat.mod_add_mod]
    · have hlt : m.entryCursor < m.entryCount := by
        rw [UInt32.lt_iff_toNat_lt]
        omega
      obtain ⟨hsucc, hdiv⟩ := succ_in_block (by omega :
        (es.length - 1) % m.entryCount.toNat + 1 < m.entryCount.toNat)
      rw [testAndRotate_of_lt hlt, hlen, hsucc, hdiv]
      exact ⟨hcur, hact⟩

/-- **One call.** -/
theorem retains_addEntry {m : ServerStatsManager} {es : List Entry} (h : m.Retains es)
    (hC : 1 ≤ m.entryCount.toNat) (hB : 1 ≤ m.bufferCount.toNat) (e : Entry) :
    ∃ m', m.addEntry e = some m' ∧ m'.Retains (es ++ [e]) ∧ SameSettings m m' := by
  obtain ⟨hcur, hact⟩ := retains_testAndRotate h hC hB
  have hset := sameSettings_testAndRotate m
  have hin : m.testAndRotate.InBounds := by
    rw [InBounds, UInt32.lt_iff_toNat_lt, UInt32.lt_iff_toNat_lt, hset.bufferCount,
      hset.entryCount, hcur, hact]
    exact ⟨Nat.mod_lt _ (by omega), Nat.mod_lt _ (by omega)⟩
  obtain ⟨m', hm', hw⟩ := lockedWrite_wrote h.sized.testAndRotate hin e
  have hset' := hset.trans hw.settings
  have hlen : (es ++ [e]).length - 1 = es.length := by simp
  refine ⟨m', hm', ⟨hw.sized, ?_, ?_, ?_⟩, hset'⟩
  · rw [hw.cursor, hcur, if_neg (by simp), hlen, hset'.entryCount]
  · rw [hw.active, hact, hlen, hset'.entryCount, hset'.bufferCount]
  · intro k x hk hrecent
    rw [hset'.entryCount, hset'.bufferCount, hlen] at hrecent
    rw [hset'.entryCount, hset'.bufferCount, hw.slot, hcur, hact]
    by_cases hkn : k = es.length
    · subst hkn
      rw [if_pos ⟨rfl, rfl⟩]
      simp at hk
      rw [hk]
    · have hklt : k < es.length := by
        have := (List.getElem?_eq_some_iff.mp hk).1
        simp at this
        omega
      rw [List.getElem?_append_left hklt] at hk
      have hblock : k / m.entryCount.toNat ≤ es.length / m.entryCount.toNat :=
        Nat.div_le_div_right (by omega)
      rw [if_neg]
      · have hold : (es.length - 1) / m.entryCount.toNat ≤ es.length / m.entryCount.toNat :=
          Nat.div_le_div_right (by omega)
        rw [slot_testAndRotate]
        exact h.slot k x hk (by omega)
      · -- the same row of the same buffer would be the same call
        rintro ⟨hbuf, hrow⟩
        have hdiv := eq_of_mod_eq_of_lt hblock hrecent hbuf
        apply hkn
        rw [← Nat.div_add_mod k m.entryCount.toNat, hdiv, hrow, Nat.div_add_mod]

/-- **Every sequence of calls** stays inside the buffers and retains its last
blocks. -/
theorem retains_foldlM {m : ServerStatsManager} (h : m.Retains [])
    (hC : 1 ≤ m.entryCount.toNat) (hB : 1 ≤ m.bufferCount.toNat) (es : List Entry) :
    ∃ m', es.foldlM addEntry m = some m' ∧ m'.Retains es ∧ SameSettings m m' := by
  induction es using List.reverseRecOn with
  | nil => exact ⟨m, rfl, h, .refl m⟩
  | append_singleton es e ih =>
    obtain ⟨m₁, hrun, hret, hset⟩ := ih
    obtain ⟨m₂, hadd, hret₂, hset₂⟩ := retains_addEntry hret
      (by rw [hset.entryCount]; exact hC) (by rw [hset.bufferCount]; exact hB) e
    refine ⟨m₂, ?_, hret₂, hset.trans hset₂⟩
    rw [List.foldlM_append, hrun]
    simpa using hadd

end ServerStatsManager

end MockMessageBoard
