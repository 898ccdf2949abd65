import MockMessageBoard.Stats.Csv

/-!
# MockMessageBoard — what the ring retains

`Retains` is the ring's state relative to the whole history of calls. Here it
is spelled out for a manager that a single caller fills from the start: where
the cursor and the active buffer stand, which calls every buffer still holds,
and which calls the destructor writes.

* `ring_retention`   — the retention law.
-/

namespace MockMessageBoard

open TextFile ServerStatsManager

/--
**The retention law.** After `n ≥ 1` calls on a fresh manager with `C` entries
in each of `B` buffers, the cursor is `(n - 1) % C + 1` in buffer
`((n - 1) / C) % B`; a call of the last `B` blocks is still in its slot; and the
destructor writes the calls from `C * ((n - 1) / C)` on, one line
each and nothing else, which the reader gets back as their rows.
-/
theorem ring_retention {entryCount bufferCount : UInt32} (hC : 1 ≤ entryCount)
    (hB : 1 ≤ bufferCount) (filename : Path) (asyncDumping overwrite : Bool) {es : List Entry}
    (hne : es ≠ []) :
    ∃ m, es.foldlM addEntry (init filename asyncDumping entryCount bufferCount overwrite) =
        some m ∧
      m.entryCursor.toNat = (es.length - 1) % entryCount.toNat + 1 ∧
      m.activeBuffer.toNat = (es.length - 1) / entryCount.toNat % bufferCount.toNat ∧
      (∀ k e, es[k]? = some e →
        (es.length - 1) / entryCount.toNat < k / entryCount.toNat + bufferCount.toNat →
        m.slot (k / entryCount.toNat % bufferCount.toNat) (k % entryCount.toNat) =
          some e.row) ∧
      (∀ fs, m.destroy fs =
        some (fs.writeText filename (fileMode overwrite) (unlines
          ((es.drop (entryCount.toNat * ((es.length - 1) / entryCount.toNat))).map
            StreamStatsManager.entryLine)))) ∧
      readCsv (unlines ((es.drop (entryCount.toNat * ((es.length - 1) / entryCount.toNat))).map
          StreamStatsManager.entryLine)) =
        some ((es.drop (entryCount.toNat * ((es.length - 1) / entryCount.toNat))).map
          Entry.row) := by
  have hC' : 1 ≤ entryCount.toNat := UInt32.le_iff_toNat_le.mp hC
  have hB' : 1 ≤ bufferCount.toNat := UInt32.le_iff_toNat_le.mp hB
  obtain ⟨m, hrun, hret, hset⟩ :=
    retains_foldlM (retains_init filename asyncDumping entryCount bufferCount overwrite) hC' hB' es
  have hcount : m.entryCount = entryCount := hset.entryCount
  have hbuffers : m.bufferCount = bufferCount := hset.bufferCount
  have hcursor := hret.cursor
  have hactive := hret.active
  have hslot := hret.slot
  rw [if_neg hne, hcount] at hcursor
  rw [hcount, hbuffers] at hactive
  rw [hcount, hbuffers] at hslot
  refine ⟨m, hrun, hcursor, hactive, hslot, ?_, ?_⟩
  · intro fs
    obtain ⟨data, hdata, htake⟩ :=
      hret.take_active (by rw [hcount]; exact hC') (by rw [hbuffers]; exact hB')
    have hdestroy := destroy_eq hret.sized (by rw [hcount]; exact hC') hdata htake fs
    rw [hset.filename, hset.overwrite, hcount] at hdestroy
    exact hdestroy
  · exact readCsv_entryText _

/-- Three calls on a manager with two buffers of two entries. -/
theorem ring_retention_three :
    ∃ m, [⟨7, 1⟩, ⟨8, 2⟩, ⟨9, 3⟩].foldlM addEntry (init ['f'] false 2 2 false) = some m ∧
      m.entryCursor.toNat = 2 % 2 + 1 ∧
      m.activeBuffer.toNat = 2 / 2 % 2 ∧
      (∀ k e, [(⟨7, 1⟩ : Entry), ⟨8, 2⟩, ⟨9, 3⟩][k]? = some e → 2 / 2 < k / 2 + 2 →
        m.slot (k / 2 % 2) (k % 2) = some e.row) ∧
      (∀ fs, m.destroy fs = some (fs.writeText ['f'] (fileMode false) (unlines
        (([⟨7, 1⟩, ⟨8, 2⟩, ⟨9, 3⟩].drop (2 * (2 / 2))).map StreamStatsManager.entryLine)))) ∧
      readCsv (unlines (([⟨7, 1⟩, ⟨8, 2⟩, ⟨9, 3⟩].drop (2 * (2 / 2))).map
          StreamStatsManager.entryLine)) =
        some (([⟨7, 1⟩, ⟨8, 2⟩, ⟨9, 3⟩].drop (2 * (2 / 2))).map Entry.row) :=
  ring_retention (by decide) (by decide) ['f'] false false (by decide)

end MockMessageBoard
