import Mathlib.Data.List.Basic

/-!
# Text files — decimals and lines

Character-level facts that every text file of decimal rows relies on:
`decimal` is what an output stream writes for an unsigned integer, `unlines`
terminates every line with `'\n'`, and `lines` reads them back.

* `ofDecimal_decimal` — reading a written number returns it;
* `lines_unlines`     — reading written lines returns them;
* `count_newline_unlines` — a file of written lines has one `'\n'` a line.
-/

namespace TextFile

/-- The characters of a file, a stream or a C++ `std::string`. -/
abbrev Text := List Char

/-- What `operator<<` writes for an unsigned integer. -/
def decimal (n : Nat) : Text := Nat.toDigits 10 n

/-- The number a run of decimal digits stands for. -/
def ofDecimal (t : Text) : Nat := Nat.ofDigitChars 10 t 0

/-- Every line of `ls`, each ended by a newline. -/
def unlines (ls : List Text) : Text := ls.flatMap (· ++ ['\n'])

/-- The lines of a text; the last one need not be ended by a newline. -/
def lines : Text → List Text
  | [] => []
  | c :: t =>
    if c = '\n' then [] :: lines t
    else match lines t with
      | [] => [[c]]
      | l :: ls => (c :: l) :: ls

-- ---------------------------------------------------------------------------
-- Decimals
-- ---------------------------------------------------------------------------

theorem ofDecimal_decimal (n : Nat) : ofDecimal (decimal n) = n :=
  Nat.ofDigitChars_ten_toDigits

theorem isDigit_of_mem_decimal {n : Nat} {c : Char} (hc : c ∈ decimal n) :
    c.isDigit = true :=
  Nat.isDigit_of_mem_toDigits (by omega) (by omega) hc

theorem decimal_ne_nil (n : Nat) : decimal n ≠ [] := Nat.toDigits_ne_nil

theorem newline_notMem_decimal (n : Nat) : '\n' ∉ decimal n := fun h =>
  absurd (isDigit_of_mem_decimal h) (by decide)

-- ---------------------------------------------------------------------------
-- Lines
-- ---------------------------------------------------------------------------

@[simp] theorem unlines_nil : unlines [] = [] := rfl

@[simp] theorem unlines_cons (l : Text) (ls : List Text) :
    unlines (l :: ls) = l ++ '\n' :: unlines ls := by
  simp [unlines]

theorem unlines_append (ls ls' : List Text) :
    unlines (ls ++ ls') = unlines ls ++ unlines ls' := by
  simp [unlines]

theorem unlines_eq_nil_iff {ls : List Text} : unlines ls = [] ↔ ls = [] := by
  cases ls with
  | nil => simp
  | cons l ls => simp

/-- Reading up to the first newline. -/
theorem lines_append_newline {l : Text} (hl : '\n' ∉ l) (t : Text) :
    lines (l ++ '\n' :: t) = l :: lines t := by
  induction l with
  | nil => simp [lines]
  | cons c l ih =>
    have hc : c ≠ '\n' := fun h => hl (by simp [h])
    have hrest : '\n' ∉ l := fun h => hl (List.mem_cons_of_mem _ h)
    simp [lines, hc, ih hrest]

theorem lines_unlines {ls : List Text} (h : ∀ l ∈ ls, '\n' ∉ l) :
    lines (unlines ls) = ls := by
  induction ls with
  | nil => rfl
  | cons l ls ih =>
    rw [unlines_cons, lines_append_newline (h l (List.mem_cons_self ..)),
      ih fun l' hl' => h l' (List.mem_cons_of_mem _ hl')]

theorem count_newline_unlines {ls : List Text} (h : ∀ l ∈ ls, '\n' ∉ l) :
    (unlines ls).count '\n' = ls.length := by
  induction ls with
  | nil => rfl
  | cons l ls ih =>
    have hl : l.count '\n' = 0 := List.count_eq_zero.mpr (h l (List.mem_cons_self ..))
    have hrest := ih fun l' hl' => h l' (List.mem_cons_of_mem _ hl')
    rw [unlines_cons, List.count_append, List.count_cons_self, hl, hrest, List.length_cons]
    omega

end TextFile
