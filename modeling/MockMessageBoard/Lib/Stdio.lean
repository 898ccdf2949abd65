import MockMessageBoard.Lib.Text
import Mathlib.Data.List.TakeWhile

/-!
# Reading a pipe line by line

`fgets` into a buffer of a fixed size, and the loop that appends each buffer to a string.
A buffer is a C string: what stands behind a null character in it is lost, up to the end
of the line or of the buffer.

* `drain_append`   — the loop appends what it reads;
* `drain_eq_iff`   — it returns all of the input exactly when that has no null character;
* `drain_sublist`  — it never returns anything else than characters of the input.
-/

namespace TextFile

/-- At most `n` characters, up to the first newline and with it. -/
def takeLine : Nat → Text → Text
  | 0, _ => []
  | _, [] => []
  | n + 1, c :: t => if c = '\n' then [c] else c :: takeLine n t

/-- `fgets(buffer, size, file)`: what is read into the buffer, and the rest of the file;
nothing at its end. -/
def fgets (size : Nat) (file : Text) : Option (Text × Text) :=
  if file = [] then none
  else
    let line := takeLine (size - 1) file
    some (line, file.drop line.length)

/-- The string that a buffer stands for. -/
def cString (buffer : Text) : Text := buffer.takeWhile fun c => c ≠ '\x00'

theorem prefix_takeLine (n : Nat) (t : Text) : takeLine n t <+: t := by
  induction t generalizing n with
  | nil => cases n <;> exact List.nil_prefix
  | cons c t ih =>
    cases n with
    | zero => exact List.nil_prefix
    | succ n =>
      rw [takeLine]
      split
      · exact ⟨t, rfl⟩
      · exact List.cons_prefix_cons.mpr ⟨rfl, ih n⟩

/-- Text without a newline is read as it is, if there is room for it. -/
theorem takeLine_append {l : Text} (hline : '\n' ∉ l) {n : Nat} (hroom : l.length ≤ n) (t : Text) :
    takeLine n (l ++ t) = l ++ takeLine (n - l.length) t := by
  induction l generalizing n with
  | nil => rfl
  | cons c l ih =>
    obtain ⟨hc, hl⟩ := not_or.mp (mt List.mem_cons.mpr hline)
    cases n with
    | zero => cases hroom
    | succ n =>
      rw [List.cons_append, takeLine, if_neg (Ne.symm hc), ih hl (Nat.le_of_succ_le_succ hroom),
        List.length_cons, Nat.add_sub_add_right, List.cons_append]

theorem takeLine_cons (n : Nat) (c : Char) (t : Text) :
    ∃ line, takeLine (n + 1) (c :: t) = c :: line := by
  rw [takeLine]
  split
  · rename_i hc
    exact ⟨[], by rw [hc]⟩
  · exact ⟨_, rfl⟩

/-- What is read and what is left are the file, and something is read. -/
theorem fgets_some {n : Nat} {file line rest : Text} (h : fgets (n + 2) file = some (line, rest)) :
    file = line ++ rest ∧ line ≠ [] := by
  unfold fgets at h
  split at h
  · cases h
  · rename_i hne
    cases h
    refine ⟨(List.prefix_iff_eq_append.mp (prefix_takeLine ..)).symm, ?_⟩
    obtain ⟨c, t, rfl⟩ := List.exists_cons_of_ne_nil hne
    obtain ⟨line, hline⟩ := takeLine_cons n c t
    show takeLine (n + 1) (c :: t) ≠ []
    rw [hline]
    exact List.cons_ne_nil _ _

theorem fgets_none {n : Nat} {file : Text} (h : fgets n file = none) : file = [] := by
  unfold fgets at h
  split at h
  · assumption
  · cases h

theorem fgets_length {n : Nat} {file line rest : Text}
    (h : fgets (n + 2) file = some (line, rest)) : rest.length < file.length := by
  obtain ⟨rfl, hne⟩ := fgets_some h
  have hpos := List.length_pos_iff.mpr hne
  rw [List.length_append]
  omega

/-- `while (fgets(buffer, n + 2, file)) result += buffer;` -/
def drain (n : Nat) (result file : Text) : Text :=
  match _h : fgets (n + 2) file with
  | none => result
  | some (line, rest) => drain n (result ++ cString line) rest
termination_by file.length
decreasing_by exact fgets_length ‹_›

theorem drain_none {n : Nat} {result file : Text} (h : fgets (n + 2) file = none) :
    drain n result file = result := by
  rw [drain]
  split
  · rfl
  · rename_i hsome
    cases h.symm.trans hsome

theorem drain_some {n : Nat} {result file line rest : Text}
    (h : fgets (n + 2) file = some (line, rest)) :
    drain n result file = drain n (result ++ cString line) rest := by
  conv_lhs => rw [drain]
  split
  · rename_i hnone
    cases h.symm.trans hnone
  · rename_i hsome
    cases h.symm.trans hsome
    rfl

/-- Induction over the reads of a file. -/
theorem fgets_induction {P : Text → Prop} (n : Nat) (hnil : P [])
    (hread : ∀ file line rest, fgets (n + 2) file = some (line, rest) → P rest → P file)
    (file : Text) : P file := by
  induction hlen : file.length using Nat.strongRecOn generalizing file with
  | _ len ih =>
    cases hget : fgets (n + 2) file with
    | none => exact fgets_none hget ▸ hnil
    | some p =>
      obtain ⟨line, rest⟩ := p
      exact hread file line rest hget (ih _ (hlen ▸ fgets_length hget) rest rfl)

/-- The loop appends what it reads. -/
theorem drain_append (n : Nat) (file result : Text) :
    drain n result file = result ++ drain n [] file := by
  induction file using fgets_induction n generalizing result with
  | hnil => rw [drain_none rfl, drain_none rfl, List.append_nil]
  | hread file line rest hget ih =>
    rw [drain_some hget, drain_some hget, ih, ih ([] ++ cString line), List.nil_append,
      List.append_assoc]

theorem cString_sublist (buffer : Text) : (cString buffer).Sublist buffer :=
  List.takeWhile_sublist _

theorem cString_eq_iff {buffer : Text} : cString buffer = buffer ↔ '\x00' ∉ buffer := by
  rw [cString, List.takeWhile_eq_self_iff]
  constructor
  · intro h hmem
    simpa using h _ hmem
  · rintro h c hc
    refine decide_eq_true ?_
    rintro rfl
    exact h hc

/-- Text without a null character is kept as it is. -/
theorem cString_append {l : Text} (hl : '\x00' ∉ l) (t : Text) :
    cString (l ++ t) = l ++ cString t := by
  refine List.takeWhile_append_of_pos fun c hc => decide_eq_true ?_
  rintro rfl
  exact hl hc

theorem null_notMem_cString (buffer : Text) : '\x00' ∉ cString buffer := by
  intro h
  simpa using List.mem_takeWhile_imp h

/-- What is returned are characters of the file, in their order. -/
theorem drain_sublist (n : Nat) (file : Text) : (drain n [] file).Sublist file := by
  induction file using fgets_induction n with
  | hnil => rw [drain_none rfl]
  | hread file line rest hget ih =>
    obtain ⟨rfl, -⟩ := fgets_some hget
    rw [drain_some hget, drain_append]
    exact (cString_sublist line).append ih

theorem null_notMem_drain (n : Nat) (file : Text) : '\x00' ∉ drain n [] file := by
  induction file using fgets_induction n with
  | hnil => rw [drain_none rfl]; exact List.not_mem_nil
  | hread file line rest hget ih =>
    rw [drain_some hget, drain_append, List.nil_append, List.mem_append, not_or]
    exact ⟨null_notMem_cString line, ih⟩

/-- Text at the front of a file that has neither a newline nor a null character, and is
shorter than the buffer, is what the result begins with. -/
theorem drain_front {n : Nat} {l : Text} (hne : l ≠ []) (hline : '\n' ∉ l) (hnull : '\x00' ∉ l)
    (hroom : l.length ≤ n) {t : Text} (ht : t.head? ≠ some '\x00') :
    ∃ rest, drain n [] (l ++ t) = l ++ rest ∧ rest.head? = t.head? := by
  obtain ⟨m, hm⟩ : ∃ m, n + 1 - l.length = m + 1 := ⟨n - l.length, by omega⟩
  have hread : takeLine (n + 1) (l ++ t) = l ++ takeLine (m + 1) t := by
    rw [takeLine_append hline (by omega), hm]
  have hget : fgets (n + 2) (l ++ t) =
      some (l ++ takeLine (m + 1) t, (l ++ t).drop (l ++ takeLine (m + 1) t).length) := by
    rw [fgets, if_neg (List.append_ne_nil_of_left_ne_nil hne t)]
    show some (takeLine (n + 1) (l ++ t), (l ++ t).drop (takeLine (n + 1) (l ++ t)).length) = _
    rw [hread]
  rw [drain_some hget, drain_append, List.nil_append, cString_append hnull, List.append_assoc]
  refine ⟨_, rfl, ?_⟩
  cases t with
  | nil =>
    have hrest : (l ++ []).drop (l ++ takeLine (m + 1) []).length = [] := by
      rw [List.drop_eq_nil_iff]
      exact Nat.le_of_eq rfl
    rw [hrest, drain_none rfl]
    rfl
  | cons c t =>
    obtain ⟨line, hline⟩ := takeLine_cons m c t
    have hc : c ≠ '\x00' := fun h => ht (by rw [h]; rfl)
    have hkept : cString (c :: line) = c :: cString line :=
      List.takeWhile_cons_of_pos (decide_eq_true hc)
    rw [hline, hkept]
    rfl

/-- **The loop returns the whole file** exactly when it has no null character. -/
theorem drain_eq_iff (n : Nat) (file : Text) : drain n [] file = file ↔ '\x00' ∉ file := by
  induction file using fgets_induction n with
  | hnil => exact iff_of_true (drain_none rfl) List.not_mem_nil
  | hread file line rest hget ih =>
    obtain ⟨rfl, -⟩ := fgets_some hget
    rw [drain_some hget, drain_append, List.nil_append, List.mem_append, not_or,
      ← cString_eq_iff, ← ih]
    constructor
    · intro h
      have hlen := congrArg List.length h
      rw [List.length_append, List.length_append] at hlen
      have hline := (cString_sublist line).length_le
      have hrest := (drain_sublist n rest).length_le
      exact ⟨(cString_sublist line).eq_of_length (by omega),
        (drain_sublist n rest).eq_of_length (by omega)⟩
    · rintro ⟨hline, hrest⟩
      rw [hline, hrest]

end TextFile
