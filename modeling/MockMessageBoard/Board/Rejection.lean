import MockMessageBoard.Board.Trails

/-!
# MockMessageBoard — what the filter rejects

The bracket of the pattern `"^.*[\\/*$^].*$"` shows a backslash, and the test
client of the service sends `"Test mess\\age"` beside messages with `$` and `*`.
But the literal is `[\/*$^]` to the regex, where `\/` is an escaped `/`: no
backslash is in the class, and a message with no other listed character is passed
on and stored.

* `turnsDown_of_match`, `passesOn_of_no_match` — the two ways through
  `sanitize_message`;
* `rejects_listed_iff` — when it rejects exactly the messages with a listed
  character.
-/

namespace MockMessageBoard

open TextFile Rpc

/-- The characters that the bracket of the pattern shows in the source. -/
def listed : List Char := '\\' :: specials

/-- The message contains a listed character. -/
def HasListed (message : Text) : Prop := ∃ c ∈ message, c ∈ listed

/-- The call that an action starts. -/
def startedCall : Act sig → Option Request
  | .start op => some op
  | _ => none

/-- Every invocation returns false and calls nobody. -/
def TurnsDown (p : Prog sig) : Prop :=
  (∃ t, Ends p t (.value (.bool false))) ∧
    ∀ t o, Ends p t o → o = .value (.bool false) ∧ t.filterMap startedCall = []

/-- Every invocation calls `op`, once, and nobody else; whatever the call
returns is returned, and nothing else is. -/
def PassesOn (p : Prog sig) (op : Request) : Prop :=
  (∀ res, ∃ t, Ends p t (.value (.bool res)) ∧ .await (.bool res) ∈ t) ∧
    ∀ t o, Ends p t o → t.filterMap startedCall = [op] ∧
      (∀ res, .await (.bool res) ∈ t → o = .value (.bool res)) ∧
      ∀ v, o = .value v → .await v ∈ t

theorem hasListed_iff (message : Text) :
    HasListed message ↔ '\\' ∈ message ∨ HasSpecial message := by
  unfold HasListed HasSpecial listed
  simp only [List.mem_cons]
  constructor
  · rintro ⟨c, hc, rfl | hspecial⟩
    · exact .inl hc
    · exact .inr ⟨c, hc, hspecial⟩
  · rintro (hc | ⟨c, hc, hspecial⟩)
    · exact ⟨_, hc, .inl rfl⟩
    · exact ⟨c, hc, .inr hspecial⟩

theorem not_turnsDown_of_passesOn {p : Prog sig} {op : Request} (h : PassesOn p op) :
    ¬ TurnsDown p := by
  rintro ⟨-, hdown⟩
  obtain ⟨t, hends, -⟩ := h.1 true
  have hvalue := (hdown t _ hends).1
  cases hvalue

section Invocations

variable {build : Build} {clientId message : Text} {uid : Int64}

/-- A matched message is turned down. -/
theorem turnsDown_of_match (hmatch : Regex.regexMatch matchExpr message = true) :
    TurnsDown (SanitizationHandler.sanitizeMessage build clientId message uid) := by
  constructor
  · refine ⟨[.record uid.toUInt64, .finish (.value (.bool false))], ?_⟩
    unfold SanitizationHandler.sanitizeMessage
    simp [hmatch]
  · intro t o hends
    obtain ⟨rfl, rfl⟩ := sanitizeMessage_of_match hmatch hends
    exact ⟨rfl, rfl⟩

/-- The invocations of a message that is not matched. -/
theorem sanitizeMessage_of_no_match (hmatch : Regex.regexMatch matchExpr message = false)
    {t : List (Act sig)} {o : Outcome sig} :
    Ends (SanitizationHandler.sanitizeMessage build clientId message uid) t o ↔
      (t = [.record uid.toUInt64, .start (.storeMessage clientId message uid),
          .finish .raised] ∧ o = .raised) ∨
      (∃ res, t = [.record uid.toUInt64, .start (.storeMessage clientId message uid),
          .await (.bool res), .record uid.toUInt64, .finish (.value (.bool res))] ∧
        o = .value (.bool res)) ∨
      ∃ v, (∀ res, v ≠ .bool res) ∧ t = [.record uid.toUInt64,
          .start (.storeMessage clientId message uid), .await v, .finish .raised] ∧
        o = .raised := by
  unfold SanitizationHandler.sanitizeMessage
  rw [hmatch, if_neg Bool.false_ne_true, ends_record]
  constructor
  · rintro ⟨t', rfl, hends⟩
    rcases ends_remoteTask.mp hends with ⟨rfl, rfl⟩ | ⟨v, t'', rfl, hk⟩
    · exact .inl ⟨rfl, rfl⟩
    · cases v with
      | bool res =>
        simp only [ends_record, ends_ret] at hk
        obtain ⟨_, rfl, rfl, rfl⟩ := hk
        exact .inr (.inl ⟨res, rfl, rfl⟩)
      | _ =>
        obtain ⟨rfl, rfl⟩ := ends_throw.mp hk
        refine .inr (.inr ⟨_, fun res heq => ?_, rfl, rfl⟩)
        cases heq
  · rintro (⟨rfl, rfl⟩ | ⟨res, rfl, rfl⟩ | ⟨v, hv, rfl, rfl⟩)
    · exact ⟨_, rfl, ends_remoteTask.mpr (.inl ⟨rfl, rfl⟩)⟩
    · refine ⟨_, rfl, ends_remoteTask.mpr (.inr ⟨_, _, rfl, ?_⟩)⟩
      simp
    · refine ⟨_, rfl, ends_remoteTask.mpr (.inr ⟨_, _, rfl, ?_⟩)⟩
      cases v with
      | bool res => exact absurd rfl (hv res)
      | _ => exact ends_throw.mpr ⟨rfl, rfl⟩

/-- Any other message is passed on. -/
theorem passesOn_of_no_match (hmatch : Regex.regexMatch matchExpr message = false) :
    PassesOn (SanitizationHandler.sanitizeMessage build clientId message uid)
      (.storeMessage clientId message uid) := by
  constructor
  · intro res
    exact ⟨_, (sanitizeMessage_of_no_match hmatch).mpr (.inr (.inl ⟨res, rfl, rfl⟩)), by simp⟩
  · intro t o hends
    rcases (sanitizeMessage_of_no_match hmatch).mp hends with
      ⟨rfl, rfl⟩ | ⟨res, rfl, rfl⟩ | ⟨v, hv, rfl, rfl⟩
    · exact ⟨rfl, by simp, nofun⟩
    · refine ⟨rfl, fun res' hres => ?_, fun v hv => ?_⟩
      · simp at hres
        rw [hres]
      · cases hv
        simp
    · refine ⟨rfl, fun res hres => ?_, nofun⟩
      exact absurd (by simpa using hres) (hv res).symm

end Invocations

/--
**The filter rejects exactly the listed characters** in a message without line
breaks if and only if the message contains no backslash or one of the other
characters as well: then `sanitize_message` returns false and calls nobody when a
listed character occurs, and calls `store_message` once and returns its result
when none does.
-/
theorem rejects_listed_iff (build : Build) (clientId : Text) (uid : Int64) {message : Text}
    (hline : ¬ HasLineBreak message) :
    ((TurnsDown (SanitizationHandler.sanitizeMessage build clientId message uid) ↔
        HasListed message) ∧
      (¬ HasListed message →
        PassesOn (SanitizationHandler.sanitizeMessage build clientId message uid)
          (.storeMessage clientId message uid))) ↔
      ('\\' ∈ message → HasSpecial message) := by
  rw [hasListed_iff]
  by_cases hspecial : HasSpecial message
  · have hmatch := (regexMatch_matchExpr message).mpr ⟨hline, hspecial⟩
    refine iff_of_true ⟨iff_of_true (turnsDown_of_match hmatch) (.inr hspecial), ?_⟩
      fun _ => hspecial
    exact fun hnone => absurd (.inr hspecial) hnone
  · have hmatch := regexMatch_eq_false.mpr fun h => absurd h hspecial
    have hpasses : PassesOn (SanitizationHandler.sanitizeMessage build clientId message uid)
        (.storeMessage clientId message uid) := passesOn_of_no_match hmatch
    by_cases hslash : '\\' ∈ message
    · refine iff_of_false (fun h => ?_) fun h => hspecial (h hslash)
      exact not_turnsDown_of_passesOn hpasses (h.1.mpr (.inl hslash))
    · refine iff_of_true ⟨iff_of_false (not_turnsDown_of_passesOn hpasses) ?_, fun _ => hpasses⟩
        fun h => absurd h hslash
      exact not_or.mpr ⟨hslash, hspecial⟩

/-- `Test messa$ge`, which the test client sends. -/
theorem rejects_listed_iff_dollar :
    ((TurnsDown (SanitizationHandler.sanitizeMessage .async "client-1".toList
          "Test messa$ge".toList 0) ↔ HasListed "Test messa$ge".toList) ∧
      (¬ HasListed "Test messa$ge".toList →
        PassesOn (SanitizationHandler.sanitizeMessage .async "client-1".toList
          "Test messa$ge".toList 0) (.storeMessage "client-1".toList "Test messa$ge".toList 0))) ↔
      ('\\' ∈ "Test messa$ge".toList → HasSpecial "Test messa$ge".toList) :=
  rejects_listed_iff .async _ 0 (by decide)

/-- `Test mess\age`, which it sends as well, is not turned down. -/
theorem backslash_passes :
    ¬ ∀ (build : Build) (clientId message : Text) (uid : Int64), ¬ HasLineBreak message →
      (TurnsDown (SanitizationHandler.sanitizeMessage build clientId message uid) ↔
        HasListed message) := by
  intro hrejects
  have hmatch : Regex.regexMatch matchExpr "Test mess\\age".toList = false :=
    regexMatch_eq_false.mpr fun h => absurd h (by decide)
  have hdown := (hrejects .async "client-1".toList "Test mess\\age".toList 0 (by decide)).mpr
    ⟨'\\', by decide, by decide⟩
  exact not_turnsDown_of_passesOn (passesOn_of_no_match hmatch) hdown

end MockMessageBoard
