import MockMessageBoard.Board.Chains

/-!
# MockMessageBoard — what is recorded

Every handler and every callback records its query when it starts and when it
is done; `data_analysis` reads the two entries as a span. The exception is the
filtered exit of `sanitize_message`, which returns past its second entry.

* `spanned_of_returned`, `opened_of_raised` — what an invocation has recorded;
* `all_traced_iff` — in which runs every completed invocation is traced.
-/

namespace MockMessageBoard

open TextFile Rpc State Transition

/-- The entries that the invocation `c` has recorded with its service's manager. -/
def recordsOf (s : Board.State) (c : CallId) : List (Event sig) :=
  (s.eventsOf c).filter fun e => e.act.isRecord

/-- The action belongs to the downstream call of `c`: it starts or ends it, or
is one of the handlers below `c`. -/
def Downstream (c : CallId) (e : Event sig) : Prop :=
  (e.call = c ∧ ((∃ op, e.act = .start op) ∨ ∃ v, e.act = .await v)) ∨
    e.call.request = c.request ∧ c.depth < e.call.depth

/-- Two entries, one before and one after everything downstream. -/
def Spanned (s : Board.State) (c : CallId) (uid : UInt64) : Prop :=
  ∃ e₁ e₂, recordsOf s c = [e₁, e₂] ∧ e₁.act = .record uid ∧ e₂.act = .record uid ∧
    ∀ e ∈ s.history, Downstream c e → e₁.seq < e.seq ∧ e.seq < e₂.seq

/-- One entry. -/
def Opened (s : Board.State) (c : CallId) (uid : UInt64) : Prop :=
  ∃ e₁, recordsOf s c = [e₁] ∧ e₁.act = .record uid

/-- What a completed invocation should have recorded. -/
def Traced (s : Board.State) (c : CallId) (uid : UInt64) : Outcome sig → Prop
  | .value _ => Spanned s c uid
  | .raised => Opened s c uid

section Reachable

variable {b : Board} {s : Board.State} (hreach : b.Reachable s)

include hreach

-- ---------------------------------------------------------------------------
-- From trails to entries
-- ---------------------------------------------------------------------------

theorem eventsOf_sorted (c : CallId) :
    (s.eventsOf c).Pairwise fun e e' => e.seq < e'.seq :=
  (history_sorted hreach).filter _

/-- A trail that begins and ends with an entry spans everything downstream. -/
theorem spanned_of_trail {c : CallId} {uid : UInt64} {v : Value} (mid : List (Act sig))
    (htrail : s.trail c = .record uid :: mid ++ [.record uid, .finish (.value v)])
    (hmid : ∀ n, .record n ∉ mid) : Spanned s c uid := by
  unfold trail at htrail
  simp only [List.cons_append, List.map_eq_cons_iff, List.map_eq_append_iff,
    List.map_eq_nil_iff] at htrail
  obtain ⟨e₁, _, hevents, h₁, es, _, rfl, rfl, e₂, _, rfl, h₂, e₃, _, rfl, h₃, rfl⟩ := htrail
  have hsorted := hevents ▸ eventsOf_sorted hreach c
  obtain ⟨hfirst, hrest⟩ := List.pairwise_cons.mp hsorted
  obtain ⟨-, -, hlast⟩ := List.pairwise_append.mp hrest
  have hmem : ∀ e ∈ e₁ :: (es ++ [e₂, e₃]), e ∈ s.history ∧ e.call = c := fun e he =>
    mem_eventsOf.mp (hevents ▸ he)
  have hrec₁ : e₁.act.isRecord = true := Act.isRecord_iff.mpr ⟨_, h₁⟩
  have hrec₂ : e₂.act.isRecord = true := Act.isRecord_iff.mpr ⟨_, h₂⟩
  have hnone : ∀ e ∈ es, e.act.isRecord = false := by
    intro e he
    cases hrec : e.act.isRecord with
    | false => rfl
    | true =>
      obtain ⟨n, hn⟩ := Act.isRecord_iff.mp hrec
      exact absurd (List.mem_map.mpr ⟨e, he, hn⟩) (hmid n)
  -- an action of `c` that is no entry and no end stands between the two entries
  have hinner : ∀ e ∈ s.history, e.call = c → e.act.isRecord = false →
      (∀ o, e.act ≠ .finish o) → e₁.seq < e.seq ∧ e.seq < e₂.seq := by
    intro e he hec hrec hfin
    have hin : e ∈ e₁ :: (es ++ [e₂, e₃]) := hevents ▸ mem_eventsOf.mpr ⟨he, hec⟩
    simp only [List.mem_cons, List.mem_append, List.not_mem_nil, or_false] at hin
    rcases hin with rfl | hin | rfl | rfl
    · cases hrec₁.symm.trans hrec
    · exact ⟨hfirst e (by simp [hin]), hlast e hin e₂ (by simp)⟩
    · cases hrec₂.symm.trans hrec
    · exact absurd h₃ (hfin _)
  refine ⟨e₁, e₂, ?_, h₁, h₂, ?_⟩
  · rw [recordsOf, hevents, List.filter_cons_of_pos (a := e₁) hrec₁, List.filter_append,
      List.filter_eq_nil_iff.mpr fun e he => by simp [hnone e he],
      List.filter_cons_of_pos (a := e₂) hrec₂]
    simp [Act.isRecord, h₃]
  · rintro e he (⟨hec, ⟨op, hact⟩ | ⟨w, hact⟩⟩ | ⟨hrequest, hdepth⟩)
    · exact hinner e he hec (by rw [hact]; rfl) (by simp [hact])
    · exact hinner e he hec (by rw [hact]; rfl) (by simp [hact])
    · -- a handler below `c` acts after `c` has started it and before `c` goes on
      obtain ⟨he₃, hec₃⟩ := hmem e₃ (by simp)
      obtain ⟨e₄, he₄, hec₄, ⟨op, hact₄⟩, hlt₄⟩ := after_start hreach he hrequest hdepth
      obtain ⟨e₅, he₅, hec₅, ⟨w, hact₅⟩, hlt₅, -⟩ :=
        before_finish hreach (handler_joins b.build) he₃ he h₃ (by rw [hec₃, hrequest])
          (by rw [hec₃]; exact hdepth)
      have hstart := hinner e₄ he₄ hec₄ (by rw [hact₄]; rfl) (by simp [hact₄])
      have hawait := hinner e₅ he₅ (hec₅.trans hec₃) (by rw [hact₅]; rfl)
        (by simp [hact₅])
      omega

omit hreach in
/-- A trail with one entry, at its beginning. -/
theorem opened_of_trail {c : CallId} {uid : UInt64} {o : Outcome sig} (mid : List (Act sig))
    (htrail : s.trail c = .record uid :: mid ++ [.finish o])
    (hmid : ∀ n, .record n ∉ mid) : Opened s c uid := by
  unfold trail at htrail
  simp only [List.cons_append, List.map_eq_cons_iff, List.map_eq_append_iff,
    List.map_eq_nil_iff] at htrail
  obtain ⟨e₁, _, hevents, h₁, es, _, rfl, rfl, e₂, _, rfl, h₂, rfl⟩ := htrail
  have hrec₁ : e₁.act.isRecord = true := Act.isRecord_iff.mpr ⟨_, h₁⟩
  refine ⟨e₁, ?_, h₁⟩
  rw [recordsOf, hevents, List.filter_cons_of_pos (a := e₁) hrec₁,
    List.filter_eq_nil_iff.mpr]
  intro e he
  rcases List.mem_append.mp he with he | he
  · intro hrec
    obtain ⟨n, hn⟩ := Act.isRecord_iff.mp hrec
    exact hmid n (List.mem_map.mpr ⟨e, he, hn⟩)
  · obtain rfl := List.mem_singleton.mp he
    simp [Act.isRecord, h₂]

-- ---------------------------------------------------------------------------
-- Completed invocations
-- ---------------------------------------------------------------------------

/-- The reply that a client's query gets carries the query's uid. -/
theorem uid_of_message {c : CallId} (clientId : Text) (uid : UInt64) (resp : MessageResponse)
    (hstart : .start (.findLastMessage clientId uid.toInt64) ∈ s.trail c)
    (hawait : .await (.message resp) ∈ s.trail c) : resp.queryUid.toUInt64 = uid := by
  obtain ⟨call, -, -, -, hends⟩ := callee_of_await hreach c _ _ hstart hawait
  obtain ⟨result, hresp, -⟩ := findLastMessage_value hends
  cases hresp
  rfl

theorem uid_of_status {c : CallId} (clientId message : Text) (uid : UInt64)
    (resp : StatusResponse)
    (hstart : .start (.sendMessage clientId message uid.toInt64) ∈ s.trail c)
    (hawait : .await (.status resp) ∈ s.trail c) : resp.queryUid.toUInt64 = uid := by
  obtain ⟨call, -, -, -, hends⟩ := callee_of_await hreach c _ _ hstart hawait
  obtain ⟨res, hresp, -⟩ := sendMessage_value hends
  cases hresp
  rfl

/-- The request was given a message that the filter matches. -/
def Request.filtered : Request → Prop
  | .sanitizeMessage _ message _ => Regex.regexMatch matchExpr message = true
  | _ => False

/-- Every invocation that returns records two entries around everything
downstream, but for the filtered exit. -/
theorem spanned_of_returned {c : CallId} {call : Call sig} {v : Value}
    (hcall : s.calls c = some call) (hphase : call.phase = .returned (.value v))
    (hpass : ¬call.op.filtered) : Spanned s c call.op.uid := by
  have hends := ends_of_returned hreach hcall hphase
  generalize call.op = op at hends hpass
  cases op with
  | query pid q =>
    cases q with
    | find clientId uid =>
      obtain ⟨resp, w, -, htrail⟩ := iteration_find_value hends
      have huid := uid_of_message hreach clientId uid resp (by rw [htrail]; simp)
        (by rw [htrail]; simp)
      rw [huid] at htrail
      exact spanned_of_trail hreach [_, _, _] htrail (by simp)
    | send clientId message uid =>
      obtain ⟨resp, w, -, htrail⟩ := iteration_send_value hends
      have huid := uid_of_status hreach clientId message uid resp (by rw [htrail]; simp)
        (by rw [htrail]; simp)
      rw [huid] at htrail
      exact spanned_of_trail hreach [_, _, _] htrail (by simp)
  | findLastMessage =>
    obtain ⟨result, -, htrail⟩ := findLastMessage_value hends
    exact spanned_of_trail hreach [_, _] htrail (by simp)
  | sendMessage =>
    obtain ⟨res, -, htrail⟩ := sendMessage_value hends
    exact spanned_of_trail hreach [_, _] htrail (by simp)
  | sanitizeMessage =>
    rcases sanitizeMessage_value hends with ⟨hmatch, -, -⟩ | ⟨-, res, -, htrail⟩
    · exact absurd hmatch hpass
    · exact spanned_of_trail hreach [_, _] htrail (by simp)
  | mockFindLastMessage =>
    rcases mockFindLastMessage_value hends with ⟨w, -, -, htrail⟩ | ⟨w, w', -, -, htrail⟩
    · exact spanned_of_trail hreach [_] htrail (by simp)
    · exact spanned_of_trail hreach [_, _] htrail (by simp)
  | storeMessage =>
    obtain ⟨w, -, htrail⟩ := storeMessage_value hends
    exact spanned_of_trail hreach [_] htrail (by simp)

/-- Every invocation left by an exception records one entry. -/
theorem opened_of_raised {c : CallId} {call : Call sig} (hcall : s.calls c = some call)
    (hphase : call.phase = .returned .raised) : Opened s c call.op.uid := by
  obtain ⟨mid, htrail, hmid⟩ := handler_raised (ends_of_returned hreach hcall hphase)
  exact opened_of_trail mid htrail hmid

/-- The filtered exit records one entry too. -/
theorem opened_of_filtered {c : CallId} {call : Call sig} {o : Outcome sig}
    (hcall : s.calls c = some call) (hphase : call.phase = .returned o)
    (hfiltered : call.op.filtered) : Opened s c call.op.uid ∧ ∃ v, o = .value v := by
  have hends := ends_of_returned hreach hcall hphase
  generalize call.op = op at hends hfiltered
  cases op with
  | sanitizeMessage =>
    obtain ⟨htrail, rfl⟩ := sanitizeMessage_of_match hfiltered hends
    exact ⟨opened_of_trail [] htrail (by simp), _, rfl⟩
  | _ => exact hfiltered.elim

end Reachable

/--
**In which runs every completed invocation is traced.** Every handler and every
client query that has completed has recorded two entries around its downstream
call if it returned, and one if it was left by an exception, exactly if no
completed `sanitize_message` was given a message that the filter matches.
-/
theorem all_traced_iff {b : Board} {s : Board.State} (hreach : b.Reachable s) :
    (∀ c call o, s.calls c = some call → call.phase = .returned o →
      Traced s c call.op.uid o) ↔
    ∀ c call o clientId message uid, s.calls c = some call → call.phase = .returned o →
      call.op = .sanitizeMessage clientId message uid →
      Regex.regexMatch matchExpr message = false := by
  constructor
  · intro htraced c call o clientId message uid hcall hphase hop
    cases hmatch : Regex.regexMatch matchExpr message with
    | false => rfl
    | true =>
      have hfiltered : call.op.filtered := by
        rw [hop]
        exact hmatch
      obtain ⟨⟨e₁, hone, -⟩, v, rfl⟩ := opened_of_filtered hreach hcall hphase hfiltered
      obtain ⟨e₂, e₃, htwo, -⟩ := htraced c call _ hcall hphase
      rw [hone] at htwo
      cases htwo
  · intro hpass c call o hcall hphase
    cases o with
    | raised => exact opened_of_raised hreach hcall hphase
    | value v =>
      refine spanned_of_returned hreach hcall hphase fun hfiltered => ?_
      cases hop : call.op with
      | sanitizeMessage clientId message uid =>
        rw [hop] at hfiltered
        have hnot := hpass c call _ clientId message uid hcall hphase hop
        rw [show Regex.regexMatch matchExpr message = true from hfiltered] at hnot
        cases hnot
      | _ =>
        rw [hop] at hfiltered
        exact hfiltered

/-- With a harmless message everything that has completed is traced. -/
theorem all_traced_iff_stored :
    ∃ s, (oneSender "hi".toList).Reachable s ∧
      (∃ call v, s.calls ⟨⟨0, 0⟩, 0⟩ = some call ∧ call.phase = .returned (.value v)) ∧
      ∀ c call o, s.calls c = some call → call.phase = .returned o →
        Traced s c call.op.uid o := by
  obtain ⟨s, hreach, hcall, -⟩ := hi_answered
  refine ⟨s, hreach, ⟨_, _, hcall, rfl⟩, (all_traced_iff hreach).mpr ?_⟩
  intro c call o clientId message uid hcall _ hop
  obtain ⟨q, hq, hat⟩ := requestAt_of_call hreach hcall
  cases List.mem_singleton.mp (mem_of_mem_queries (List.mem_of_getElem? hq))
  rw [hop] at hat
  rcases requestAt_send hat with ⟨-, h⟩ | ⟨-, h⟩ | ⟨-, h⟩ | ⟨-, -, h⟩
  · cases h
  · cases h
  · cases h
    decide
  · cases h

/-- A message with a slash leaves `sanitize_message` with one entry. -/
theorem filtered_send_untraced :
    ∃ s call v, (oneSender "/".toList).Reachable s ∧
      s.calls ⟨⟨0, 0⟩, 2⟩ = some call ∧ call.phase = .returned (.value v) ∧
      (recordsOf s ⟨⟨0, 0⟩, 2⟩).length = 1 ∧ ¬Traced s ⟨⟨0, 0⟩, 2⟩ call.op.uid (.value v) := by
  obtain ⟨s, hs, hcall, hlen⟩ : ∃ s,
      run (oneSender "/".toList).deployment.step (oneSender "/".toList).deployment.init
        (sendToFilter ⟨0, 0⟩ ++ runs ⟨⟨0, 0⟩, 2⟩ 1) = some s ∧
      s.calls ⟨⟨0, 0⟩, 2⟩ = some ⟨.sanitizeMessage albert "/".toList 0,
        .returned (.value (.bool false)), none⟩ ∧
      (recordsOf s ⟨⟨0, 0⟩, 2⟩).length = 1 :=
    ⟨_, rfl, rfl, rfl⟩
  refine ⟨s, _, _, ⟨_, hs⟩, hcall, rfl, hlen, ?_⟩
  rintro ⟨e₁, e₂, htwo, -⟩
  rw [htwo] at hlen
  cases hlen

end MockMessageBoard
