import MockMessageBoard.Lib.Regex

/-!
# MockMessageBoard — the filter

The pattern of `sanitize_message` and the messages it matches: those that are
a single line and contain a special character. A message with a line break in
it is never matched, because `.` matches no line terminator and `$` holds only
at the end of the message, so it passes the filter whatever else it contains.

* `parse_matchExpr`     — the pattern the source text denotes;
* `regexMatch_matchExpr` — the messages it matches.
-/

namespace MockMessageBoard

open Regex

/-- The characters of the filter's class. Inside it `\/` is an escaped `/`. -/
def specials : List Char := ['/', '*', '$', '^']

/-- `regex match_expr("^.*[\\/*$^].*$")`. -/
def matchExprText : Text := "^.*[\\/*$^].*$".toList

def matchExpr : Pattern :=
  .seq .bol (.seq (.star .any) (.seq (.cls false specials) (.seq (.star .any) (.seq .eol .empty))))

theorem parse_matchExpr : parse matchExprText = some matchExpr := by decide

/-- The message contains a special character. -/
def HasSpecial (message : Text) : Prop := ∃ c ∈ message, c ∈ specials

/-- The message contains a line break. -/
def HasLineBreak (message : Text) : Prop := ∃ c ∈ message, isLineTerminator c = true

/-- The message contains a special character, and a line break that hides it. -/
def Evades (message : Text) : Prop := HasLineBreak message ∧ HasSpecial message

instance (message : Text) : Decidable (HasSpecial message) :=
  List.decidableBEx (fun c => c ∈ specials) message

instance (message : Text) : Decidable (HasLineBreak message) :=
  List.decidableBEx (fun c => isLineTerminator c = true) message

instance (message : Text) : Decidable (Evades message) :=
  inferInstanceAs (Decidable (HasLineBreak message ∧ HasSpecial message))

theorem isLineTerminator_of_special {c : Char} (hc : c ∈ specials) :
    isLineTerminator c = false := by
  simp only [specials, List.mem_cons, List.not_mem_nil, or_false] at hc
  rcases hc with rfl | rfl | rfl | rfl <;> rfl

/--
**What the filter matches.** Exactly the messages without a line break that
contain a special character.
-/
theorem regexMatch_matchExpr (message : Text) :
    regexMatch matchExpr message = true ↔ ¬HasLineBreak message ∧ HasSpecial message := by
  have hline : ¬HasLineBreak message ↔ ∀ c ∈ message, isLineTerminator c = false := by
    simp [HasLineBreak]
  have hspecial : ∀ c, inClass false specials c = true ↔ c ∈ specials := by
    intro c
    simp [inClass]
  rw [regexMatch_iff, hline]
  constructor
  · intro h
    obtain ⟨m₀, m₁, hm, hbol, h⟩ := matches_seq.mp h
    obtain ⟨m₂, m₃, rfl, hany, h⟩ := matches_seq.mp h
    obtain ⟨m₄, m₅, rfl, hcls, h⟩ := matches_seq.mp h
    obtain ⟨m₆, m₇, rfl, hany', h⟩ := matches_seq.mp h
    obtain ⟨m₈, m₉, rfl, heol, hempty⟩ := matches_seq.mp h
    obtain ⟨-, rfl⟩ := matches_bol.mp hbol
    obtain ⟨c, rfl, hc⟩ := matches_cls.mp hcls
    obtain ⟨rfl, -⟩ := matches_eol.mp heol
    obtain rfl := matches_empty.mp hempty
    have hcspecial := (hspecial c).mp hc
    subst hm
    refine ⟨fun d hd => ?_, c, by simp, hcspecial⟩
    simp only [List.nil_append, List.append_nil, List.mem_append, List.mem_singleton] at hd
    rcases hd with hd | rfl | hd
    · exact matches_star_any.mp hany d hd
    · exact isLineTerminator_of_special hcspecial
    · exact matches_star_any.mp hany' d hd
  · rintro ⟨hall, c, hc, hcspecial⟩
    obtain ⟨before, after, rfl⟩ := List.append_of_mem hc
    have hbefore : ∀ d ∈ before, isLineTerminator d = false := fun d hd =>
      hall d (List.mem_append_left _ hd)
    have hafter : ∀ d ∈ after, isLineTerminator d = false := fun d hd =>
      hall d (List.mem_append_right _ (List.mem_cons_of_mem _ hd))
    refine matches_seq.mpr ⟨[], _, rfl, .bol, ?_⟩
    refine matches_seq.mpr ⟨before, c :: after, rfl, matches_star_any.mpr hbefore, ?_⟩
    refine matches_seq.mpr ⟨[c], after, rfl, .cls ((hspecial c).mpr hcspecial), ?_⟩
    refine matches_seq.mpr ⟨after, [], by simp, matches_star_any.mpr hafter, ?_⟩
    exact matches_seq.mpr ⟨[], [], rfl, .eol, .empty⟩

/-- A message that passes the filter is clean, or a line break hides what it
contains. -/
theorem regexMatch_eq_false {message : Text} :
    regexMatch matchExpr message = false ↔ HasSpecial message → HasLineBreak message := by
  rw [← Bool.not_eq_true, regexMatch_matchExpr]
  tauto

end MockMessageBoard
