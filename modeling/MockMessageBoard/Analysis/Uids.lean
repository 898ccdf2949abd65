import MockMessageBoard.Analysis.TreatData
import MockMessageBoard.Board.Spans

/-!
# MockMessageBoard — uids from the client to the frame

`get_query_uid` packs the local uid of a client and the number of a query into a
word, and `treat_data` unpacks it with constants of its own. On the way the word
is an `i64` in every request and reply and a `uint64_t` in every `add_entry`.

* `localUid_toNat`, `uid_toNat` — both words as arithmetic;
* `clientUid_uid`, `queryIndex_uid` — what the reader unpacks;
* `uid_decodes`        — encoding and decoding agree end to end;
* `uids_distinct_iff`  — when the queries of a run have uids of their own.
-/

namespace MockMessageBoard

open TextFile Groups

-- ---------------------------------------------------------------------------
-- The fields of a uid
-- ---------------------------------------------------------------------------

/-- The client part of the local uid, below 2 ^ 36. -/
def clientPart (host : HostPart) (rand : UInt64) : Nat :=
  (generateLocalUid host rand >>> clientUidShift).toNat

theorem generateLocalUid_eq (host : HostPart) (rand : UInt64) :
    ∃ ip : UInt64, generateLocalUid host rand = (ip <<< 4 ||| rand % 16) <<< 28 := by
  cases host with
  | threadHash hash => exact ⟨hash, rfl⟩
  | hostname sip => exact ⟨ipOfHostname sip, rfl⟩

theorem getQueryUid_zero (localUid : UInt64) : getQueryUid localUid 0 = localUid := by
  unfold getQueryUid
  rw [show (0 : UInt64) <<< 36 >>> 36 = 0 by decide, UInt64.or_zero]

/-- The uid of a query: the client part above the low 28 bits of its number. -/
theorem uid_toNat (host : HostPart) (rand n : UInt64) :
    (getQueryUid (generateLocalUid host rand) n).toNat =
      clientPart host rand * 2 ^ 28 + n.toNat % 2 ^ 28 := by
  obtain ⟨ip, hip⟩ := generateLocalUid_eq host rand
  have hlocal := queryUid_toNat ip rand 0
  rw [getQueryUid_zero, ← hip, show (0 : UInt64).toNat = 0 from rfl, Nat.zero_mod,
    Nat.add_zero] at hlocal
  have huid := queryUid_toNat ip rand n
  rw [← hip] at huid
  unfold clientPart
  rw [huid, BitFields.toNat_shiftRight (by decide), hlocal]
  show _ = _ / 2 ^ 28 * 2 ^ 28 + _
  rw [Nat.mul_div_cancel _ (Nat.two_pow_pos _)]

/-- The local uid is the uid of query 0. -/
theorem localUid_toNat (host : HostPart) (rand : UInt64) :
    (generateLocalUid host rand).toNat = clientPart host rand * 2 ^ 28 := by
  have huid := uid_toNat host rand 0
  rwa [getQueryUid_zero, show (0 : UInt64).toNat = 0 from rfl, Nat.zero_mod, Nat.add_zero] at huid

/-- The client that the reader unpacks. -/
theorem clientUid_uid (host : HostPart) (rand n : UInt64) :
    (queryKey (getQueryUid (generateLocalUid host rand) n)).clientUid =
      generateLocalUid host rand >>> clientUidShift := by
  have hmod := Nat.mod_lt n.toNat (Nat.two_pow_pos 28)
  apply UInt64.toNat_inj.mp
  show (getQueryUid (generateLocalUid host rand) n >>> clientUidShift).toNat = clientPart host rand
  rw [BitFields.toNat_shiftRight (by decide), uid_toNat]
  show (_ * 2 ^ 28 + _) / 2 ^ 28 = _
  omega

/-- The index that the reader unpacks. -/
theorem queryIndex_uid (host : HostPart) (rand n : UInt64) :
    (queryKey (getQueryUid (generateLocalUid host rand) n)).queryIndex.toNat =
      n.toNat % 2 ^ 28 := by
  show (getQueryUid (generateLocalUid host rand) n &&& queryIndexMask).toNat = _
  rw [BitFields.toNat_and_mask (k := 28) rfl, uid_toNat, Nat.mul_add_mod_of_lt]
  exact Nat.mod_lt _ (Nat.two_pow_pos 28)

/-- Two uids of one client agree exactly when the numbers agree in their low
28 bits. -/
theorem uid_eq_iff (host : HostPart) (rand n n' : UInt64) :
    getQueryUid (generateLocalUid host rand) n = getQueryUid (generateLocalUid host rand) n' ↔
      n.toNat % 2 ^ 28 = n'.toNat % 2 ^ 28 := by
  rw [← UInt64.toNat_inj, uid_toNat, uid_toNat]
  omega

/-- Local uids are determined by the client that the reader unpacks. -/
theorem localUid_eq_iff (host host' : HostPart) (rand rand' : UInt64) :
    generateLocalUid host rand >>> clientUidShift =
        generateLocalUid host' rand' >>> clientUidShift ↔
      generateLocalUid host rand = generateLocalUid host' rand' := by
  refine ⟨fun h => ?_, fun h => congrArg (· >>> clientUidShift) h⟩
  have hpart : clientPart host rand = clientPart host' rand' := congrArg UInt64.toNat h
  apply UInt64.toNat_inj.mp
  rw [localUid_toNat, localUid_toNat, hpart]

-- ---------------------------------------------------------------------------
-- End to end
-- ---------------------------------------------------------------------------

/-- A uid as an `i64` argument, and back in `add_entry`. -/
def hop (uid : UInt64) : UInt64 := uid.toInt64.toUInt64

theorem hop_eq_id : hop = id := funext fun uid => UInt64.toUInt64_toInt64 uid

/--
**Encoding and decoding agree.** The uid of a query is recorded unchanged after
any number of hops, and so is every uid in every run of the board; the reader
unpacks the client part of the local uid and the number of the query modulo
2 ^ 28. For numbers below 2 ^ 28 the unpacked pair and the packed pair determine
each other, and rows have the same key exactly when they have the same uid.
-/
theorem uid_decodes (host : HostPart) (rand n : UInt64) :
    (∀ hops, hop^[hops] (getQueryUid (generateLocalUid host rand) n) =
      getQueryUid (generateLocalUid host rand) n) ∧
    (∀ (b : Board) (s : Board.State), b.Reachable s → ∀ e ∈ s.history, ∀ uid q,
      e.act = .record uid → b.query? e.call.request = some q →
      q.uid = getQueryUid (generateLocalUid host rand) n →
      uid = getQueryUid (generateLocalUid host rand) n) ∧
    (queryKey (getQueryUid (generateLocalUid host rand) n)).clientUid =
      generateLocalUid host rand >>> 28 ∧
    (queryKey (getQueryUid (generateLocalUid host rand) n)).queryIndex.toNat =
      n.toNat % 2 ^ 28 ∧
    (∀ (host' : HostPart) (rand' n' : UInt64), n.toNat < 2 ^ 28 → n'.toNat < 2 ^ 28 →
      ((queryKey (getQueryUid (generateLocalUid host rand) n)).clientUid =
          (queryKey (getQueryUid (generateLocalUid host' rand') n')).clientUid ∧
        (queryKey (getQueryUid (generateLocalUid host rand) n)).queryIndex =
          (queryKey (getQueryUid (generateLocalUid host' rand') n')).queryIndex ↔
      generateLocalUid host rand = generateLocalUid host' rand' ∧ n = n')) ∧
    ∀ uid uid', queryKey uid = queryKey uid' ↔ uid = uid' := by
  refine ⟨?_, ?_, clientUid_uid host rand n, queryIndex_uid host rand n, ?_,
    fun _ _ => queryKey_inj⟩
  · intro hops
    rw [hop_eq_id, Function.iterate_id]
    rfl
  · intro b s hreach e he uid q hact hq huid
    obtain ⟨q', hq', hn⟩ := record_origin hreach he hact
    obtain rfl := Option.some.inj (hq.symm.trans hq')
    exact hn.trans huid
  · intro host' rand' n' hn hn'
    rw [clientUid_uid, clientUid_uid, localUid_eq_iff]
    refine and_congr_right fun _ => ?_
    rw [← UInt64.toNat_inj, queryIndex_uid, queryIndex_uid, Nat.mod_eq_of_lt hn,
      Nat.mod_eq_of_lt hn', UInt64.toNat_inj]

-- ---------------------------------------------------------------------------
-- The queries of one run
-- ---------------------------------------------------------------------------

/-- How often the client's loop runs. -/
def loopCount (iterations : Int) : Nat := (if iterations > 0 then iterations else 10).toNat

theorem length_queries (iterations : Int) (clientUid : UInt64) (clientId message : Text) :
    (Client.queries iterations clientUid clientId message).length = loopCount iterations := by
  unfold Client.queries loopCount
  rw [List.length_map, List.length_range]

/-- The uids of the queries, in the order of the loop. -/
theorem uids_queries (iterations : Int) (clientUid : UInt64) (clientId message : Text) :
    (Client.queries iterations clientUid clientId message).map Query.uid =
      (List.range (loopCount iterations)).map fun i => getQueryUid clientUid (UInt64.ofNat i) := by
  unfold Client.queries loopCount
  rw [List.map_map]
  refine List.map_congr_left fun i _ => ?_
  show (Client.query clientUid clientId message i).uid = _
  unfold Client.query
  split <;> rfl

/-- Iterations `i` and `j` share a uid exactly when they agree modulo 2 ^ 28. -/
theorem iteration_uid_eq_iff (host : HostPart) (rand : UInt64) (i j : Nat) :
    getQueryUid (generateLocalUid host rand) (UInt64.ofNat i) =
        getQueryUid (generateLocalUid host rand) (UInt64.ofNat j) ↔
      i % 2 ^ 28 = j % 2 ^ 28 := by
  rw [uid_eq_iff, UInt64.toNat_ofNat', UInt64.toNat_ofNat']
  omega

theorem loopCount_le_iff (iterations : Int) :
    loopCount iterations ≤ 2 ^ 28 ↔ iterations ≤ 2 ^ 28 := by
  unfold loopCount
  split <;> omega

/--
**The uids of a run** are pairwise distinct if and only if the loop runs at most
2 ^ 28 times: the number of a query has 28 bits, the loop counter 31.
-/
theorem uids_distinct_iff (host : HostPart) (rand : UInt64) (iterations : Int)
    (clientId message : Text) :
    ((Client.queries iterations (generateLocalUid host rand) clientId message).map
      Query.uid).Nodup ↔ iterations ≤ 2 ^ 28 := by
  rw [uids_queries, List.nodup_map_iff_inj_on List.nodup_range, ← loopCount_le_iff]
  constructor
  · intro hinj
    by_contra hmany
    have hfirst := hinj 0 (List.mem_range.mpr (by omega)) (2 ^ 28) (List.mem_range.mpr (by omega))
      ((iteration_uid_eq_iff host rand _ _).mpr (by decide))
    omega
  · intro hle i hi j hj heq
    rw [List.mem_range] at hi hj
    have hmod := (iteration_uid_eq_iff host rand i j).mp heq
    rwa [Nat.mod_eq_of_lt (by omega), Nat.mod_eq_of_lt (by omega)] at hmod

/-- A loop of 2 ^ 28 + 1 iterations gives the first and the last query one uid. -/
theorem uids_repeat :
    ¬ ∀ (host : HostPart) (rand : UInt64) (iterations : Int), 0 < iterations →
      iterations < 2 ^ 31 → ∀ i j : Nat, (i : Int) < iterations → (j : Int) < iterations → i ≠ j →
        getQueryUid (generateLocalUid host rand) (UInt64.ofNat i) ≠
          getQueryUid (generateLocalUid host rand) (UInt64.ofNat j) := by
  intro hdistinct
  exact hdistinct (.threadHash 1) 0 (2 ^ 28 + 1) (by decide) (by decide) 0 (2 ^ 28) (by decide)
    (by decide) (by decide) ((iteration_uid_eq_iff _ _ _ _).mpr (by decide))

end MockMessageBoard
