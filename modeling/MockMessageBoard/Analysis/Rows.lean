import MockMessageBoard.Analysis.Recorded

/-!
# MockMessageBoard — how many rows the files have

When the clients have all their answers, the number of entries that a process has made
is known from the queries alone: two for each query that it has served, but one for a
message that SanitizationService has rejected. The ring of its manager keeps the last
block of them, where no half of `add_entry` overruns its buffer.

* `length_recordedBy_answered` — the entries of a process;
* `file_rows`                  — the rows of its file.
-/

namespace MockMessageBoard

open TextFile Groups Rpc State Transition ServerStatsManager

/-- The entries that a process makes for a query of client `pid` that is answered. -/
def Query.entries (pid : Nat) (svc : Service) : Query → Nat
  | .find .. =>
    match svc with
    | .client p => if p = pid then 2 else 0
    | .messageService | .mockDatabase => 2
    | .sanitizationService => 0
  | .send _ message _ =>
    match svc with
    | .client p => if p = pid then 2 else 0
    | .messageService => 2
    | .sanitizationService => if Regex.regexMatch matchExpr message then 1 else 2
    | .mockDatabase => if Regex.regexMatch matchExpr message then 0 else 2

theorem proc_of_client {pid p d : Nat} {q : Query} {op : Request}
    (h : q.requestAt pid d = some op) (hhome : home op = .client p) : p = pid := by
  cases q with
  | find =>
    rcases requestAt_find h with ⟨-, rfl⟩ | ⟨-, rfl⟩ | ⟨-, rfl⟩ <;> cases hhome
    rfl
  | send =>
    rcases requestAt_send h with ⟨-, rfl⟩ | ⟨-, rfl⟩ | ⟨-, rfl⟩ | ⟨-, -, rfl⟩ <;> cases hhome
    rfl

section Reachable

variable {b : Board} {s : Board.State} (hreach : b.Reachable s) {r : RequestId} {q : Query}
  (hq : b.query? r = some q)

include hreach hq

theorem group_recordedBy_nil {svc : Service}
    (hnone : ∀ d op, q.requestAt r.proc d = some op → home op ≠ svc) :
    group (fun e => e.call.request) r (recordedBy s svc) = [] := by
  rw [group, List.filter_eq_nil_iff]
  intro e he hrequest
  obtain ⟨hmem, -, hsvc⟩ := mem_recordedBy.mp he
  obtain ⟨call, hcall, hhome⟩ := known_reaches hreach e hmem
  obtain ⟨⟨r', d'⟩, svc, seq, time, act⟩ := e
  obtain rfl : r' = r := of_decide_eq_true hrequest
  exact hnone d' call.op (requestAt_of_query hreach hq hcall) (hhome.symm.trans hsvc)

/-- The entries of an answered query. -/
theorem length_group_answered {call : Call sig} {v : Value} (hcall : s.calls ⟨r, 0⟩ = some call)
    (hanswered : call.phase = .returned (.value v)) (svc : Service) :
    (group (fun e => e.call.request) r (recordedBy s svc)).length = q.entries r.proc svc := by
  have hop : call.op = .query r.proc q :=
    (Option.some.inj (requestAt_of_query hreach hq hcall)).symm
  have hends := ends_of_returned hreach hcall hanswered
  have hspan := spanned_of_returned hreach hcall hanswered (by rw [hop]; exact id)
  rw [hop] at hends
  have htwo : ∀ {d op uid}, q.requestAt r.proc d = some op → home op = svc →
      Spanned s ⟨r, d⟩ uid →
      (group (fun e => e.call.request) r (recordedBy s svc)).length = 2 := by
    rintro d op uid hop hhome ⟨e₁, e₂, hrecords, -⟩
    rw [group_recordedBy hreach hq hop hhome, hrecords]
    rfl
  have hclient : ∀ {pid}, svc = .client pid →
      (group (fun e => e.call.request) r (recordedBy s svc)).length =
        if pid = r.proc then 2 else 0 := by
    rintro pid rfl
    split
    · rename_i hpid
      subst hpid
      exact htwo (d := 0) rfl rfl hspan
    · rename_i hpid
      rw [group_recordedBy_nil hreach hq, List.length_nil]
      exact fun d op hop hhome => hpid (proc_of_client hop hhome)
  cases q with
  | find clientId uid =>
    obtain ⟨hspan₁, hspan₂⟩ := find_spanned hreach hends
    cases svc with
    | client pid => exact hclient rfl
    | messageService => exact htwo (d := 1) rfl rfl hspan₁
    | sanitizationService =>
      rw [group_recordedBy_nil hreach hq]
      · rfl
      · intro d op hop hhome
        rcases requestAt_find hop with ⟨-, rfl⟩ | ⟨-, rfl⟩ | ⟨-, rfl⟩ <;> cases hhome
    | mockDatabase => exact htwo (d := 2) rfl rfl hspan₂
  | send clientId message uid =>
    obtain ⟨ok, -, hspan₁, hbelow⟩ := send_spanned hreach hends
    cases svc with
    | client pid => exact hclient rfl
    | messageService => exact htwo (d := 1) rfl rfl hspan₁
    | sanitizationService =>
      rw [Query.entries]
      rcases hbelow with ⟨hpass, -, hspan₂, -⟩ | ⟨hmatch, -, e, hone, -⟩
      · rw [if_neg (by simp [hpass])]
        exact htwo (d := 2) rfl rfl hspan₂
      · have hgroup := group_recordedBy hreach hq (d := 2) rfl rfl
        rw [if_pos hmatch]
        exact (congrArg List.length hgroup).trans (congrArg List.length hone)
    | mockDatabase =>
      rw [Query.entries]
      rcases hbelow with ⟨hpass, -, -, hspan₃⟩ | ⟨hmatch, -⟩
      · rw [if_neg (by simp [hpass])]
        exact htwo (d := 3) (by rw [requestAt_send_three, if_neg (by simp [hpass])]) rfl hspan₃
      · rw [if_pos hmatch, group_recordedBy_nil hreach hq]
        · rfl
        · intro d op hop hhome
          rcases requestAt_send hop with ⟨-, rfl⟩ | ⟨-, rfl⟩ | ⟨-, rfl⟩ | ⟨-, hpass, -⟩
          · cases hhome
          · cases hhome
          · cases hhome
          · cases hmatch.symm.trans hpass

end Reachable

/-- The number of rows that a file of `n` entries has. -/
def keptRows (n : Nat) : Nat := if n = 0 then 0 else (n - 1) % 32768 + 1

theorem length_lastBlock (es : List Entry) : (lastBlock 32768 es).length = keptRows es.length := by
  have hsplit := Nat.div_add_mod (es.length - 1) 32768
  unfold lastBlock keptRows
  rw [List.length_drop]
  split <;> omega

/-- The entries of a process when all queries have been answered. -/
theorem length_recordedBy_answered {b : Board} {s : Board.State} (hreach : b.Reachable s)
    {clients : Nat} (hclients : ∀ pid, clients ≤ pid → b.queries pid = [])
    (hanswered : ∀ r q, b.query? r = some q →
      ∃ call v, s.calls ⟨r, 0⟩ = some call ∧ call.phase = .returned (.value v))
    (svc : Service) :
    (recordedBy s svc).length =
      ∑ pid ∈ Finset.range clients, ((b.queries pid).map (Query.entries pid svc)).sum := by
  have hinj : Function.Injective fun x : (_ : Nat) × Nat => (⟨x.1, x.2⟩ : RequestId) := by
    rintro ⟨p, i⟩ ⟨p', i'⟩ h
    cases h
    rfl
  rw [length_eq_sum_group (fun e : Event sig => e.call.request)
    (S := ((Finset.range clients).sigma fun pid => Finset.range (b.queries pid).length).map
      ⟨_, hinj⟩), Finset.sum_map, Finset.sum_sigma]
  · refine Finset.sum_congr rfl fun pid _ => sum_range_eq_sum_map fun i q hq => ?_
    obtain ⟨call, v, hcall, hphase⟩ := hanswered ⟨pid, i⟩ q hq
    exact length_group_answered hreach (r := ⟨pid, i⟩) hq hcall hphase svc
  · intro e he
    obtain ⟨call, hcall, -⟩ := known_reaches hreach e (mem_recordedBy.mp he).1
    obtain ⟨q, hq, -⟩ := requestAt_of_call hreach hcall
    obtain ⟨hlt, -⟩ := List.getElem?_eq_some_iff.mp hq
    refine Finset.mem_map.mpr ⟨⟨e.call.request.proc, e.call.request.index⟩, ?_, rfl⟩
    refine Finset.mem_sigma.mpr ⟨Finset.mem_range.mpr ?_, Finset.mem_range.mpr hlt⟩
    by_contra hle
    rw [hclients _ (not_lt.mp hle)] at hlt
    exact Nat.not_lt_zero _ hlt

end MockMessageBoard
