import MockMessageBoard.Lib.Text

/-!
# Text files — tables of decimals

A table without a header: one line a row, the fields of a row separated by
commas, every field an unsigned decimal. `readTable` is a reader that accepts
nothing else.

* `splitOn_rowText`      — the fields of a written row are its decimals;
* `readTable_unlines`    — reading written rows returns them.
-/

namespace TextFile

/-- A row as it is written, without its newline. -/
def rowText (row : List Nat) : Text := List.intercalate [','] (row.map decimal)

/-- One field: a decimal and nothing else. -/
def readField (t : Text) : Option Nat :=
  if t ≠ [] ∧ t.all Char.isDigit then some (ofDecimal t) else none

/-- One line. -/
def readRow (l : Text) : Option (List Nat) := (l.splitOn ',').mapM readField

/-- The rows of a text. -/
def readTable (t : Text) : Option (List (List Nat)) := (lines t).mapM readRow

-- ---------------------------------------------------------------------------
-- One row
-- ---------------------------------------------------------------------------

theorem comma_notMem_decimal (n : Nat) : ',' ∉ decimal n := fun h =>
  absurd (isDigit_of_mem_decimal h) (by decide)

theorem newline_notMem_rowText (row : List Nat) : '\n' ∉ rowText row := by
  induction row with
  | nil => simp [rowText, List.intercalate]
  | cons x row ih =>
    cases row with
    | nil =>
      simpa [rowText, List.intercalate] using newline_notMem_decimal x
    | cons y row =>
      unfold rowText at ih ⊢
      rw [List.map_cons, List.map_cons, List.intercalate_cons_cons, List.mem_append,
        List.mem_append]
      rintro ((h | h) | h)
      · exact newline_notMem_decimal _ h
      · simp at h
      · exact ih h

theorem splitOn_rowText {row : List Nat} (hrow : row ≠ []) :
    (rowText row).splitOn ',' = row.map decimal := by
  unfold rowText
  apply List.splitOn_intercalate
  · intro t ht
    obtain ⟨x, -, rfl⟩ := List.mem_map.mp ht
    exact comma_notMem_decimal x
  · simpa using hrow

theorem readField_decimal (n : Nat) : readField (decimal n) = some n := by
  unfold readField
  rw [if_pos, ofDecimal_decimal]
  refine ⟨decimal_ne_nil n, List.all_eq_true.mpr fun c hc => isDigit_of_mem_decimal hc⟩

/-- Reading back a list of written things, one by one. -/
theorem mapM_map_of_left_inv {α β : Type} {write : α → β} {read : β → Option α} {l : List α}
    (h : ∀ a ∈ l, read (write a) = some a) : (l.map write).mapM read = some l := by
  induction l with
  | nil => rfl
  | cons a l ih =>
    have ha := h a (List.mem_cons_self ..)
    have hl := ih fun b hb => h b (List.mem_cons_of_mem _ hb)
    simp [ha, hl]

/-- **One row** is read back. -/
theorem readRow_rowText {row : List Nat} (hrow : row ≠ []) :
    readRow (rowText row) = some row := by
  unfold readRow
  rw [splitOn_rowText hrow]
  exact mapM_map_of_left_inv fun n _ => readField_decimal n

-- ---------------------------------------------------------------------------
-- Tables
-- ---------------------------------------------------------------------------

/-- **A written table** is read back. -/
theorem readTable_unlines {rows : List (List Nat)} (hrows : ∀ row ∈ rows, row ≠ []) :
    readTable (unlines (rows.map rowText)) = some rows := by
  unfold readTable
  rw [lines_unlines]
  · exact mapM_map_of_left_inv fun row hrow => readRow_rowText (hrows row hrow)
  · intro l hl
    obtain ⟨row, -, rfl⟩ := List.mem_map.mp hl
    exact newline_notMem_rowText row

end TextFile
