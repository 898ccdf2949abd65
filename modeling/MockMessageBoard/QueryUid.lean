import MockMessageBoard.Lib.BitFields
import MockMessageBoard.Lib.Text

/-!
# MockMessageBoard — query uids

Executable model of `generate_local_uid` and `get_query_uid` of
`shared/Utils.cpp`. The local uid has the host in its upper 32 bits, a random
nibble below and 28 zero bits for the query number.

* `queryUid_toNat`     — the packing, as arithmetic;
* `scanLongs_text`     — what `sscanf` reads from a dotted quad;
* `ipOfHostname_toNat` — the host part: the first octet three times and the last
  one, the two octets in between are not used;
* `queryUid_ne_iff`    — when two hosts have disjoint uids.
-/

namespace MockMessageBoard

open TextFile

-- ---------------------------------------------------------------------------
-- The source functions
-- ---------------------------------------------------------------------------

/-- `isspace` in the C locale. -/
def isSpace (c : Char) : Bool := [' ', '\t', '\n', '\x0b', '\x0c', '\r'].contains c

/-- The optional sign of a number: whether it is negative, and the rest. -/
def scanSign : Text → Bool × Text
  | '-' :: t => (true, t)
  | '+' :: t => (false, t)
  | t => (false, t)

/-- `strtol` keeps a number that does not fit at the nearest bound of `long`. -/
def saturate (x : Int) : Int := max (-2 ^ 63) (min x (2 ^ 63 - 1))

/-- One `%ld` conversion of `sscanf`: the number and the rest of the input. -/
def scanLong (t : Text) : Option (Int × Text) :=
  let (negative, t) := scanSign (t.dropWhile isSpace)
  let digits := t.takeWhile Char.isDigit
  if digits = [] then none
  else
    let x : Int := ofDecimal digits
    some (saturate (if negative then -x else x), t.dropWhile Char.isDigit)

/-- The arguments `sscanf` stores for `n` conversions `%ld` separated by `.`;
it stops at the first input that does not fit the format. -/
def scanLongs : Nat → Text → List UInt64
  | 0, _ => []
  | n + 1, t =>
    match scanLong t with
    | none => []
    | some (x, rest) =>
      UInt64.ofInt x :: if rest.head? = some '.' then scanLongs n rest.tail else []

/-- `ip` outside `LOCALHOST` builds: `sip` is the output of `hostname -i`,
its numbers are stored to `is[3]`, `is[2]`, `is[1]`, `is[0]`. -/
def ipOfHostname (sip : Text) : UInt64 :=
  let stored := scanLongs 4 sip
  let is3 := stored[0]?.getD 0
  let is0 := stored[3]?.getD 0
  (is3 <<< 24) ||| (is3 <<< 16) ||| (is3 <<< 8) ||| is0

/-- Where `generate_local_uid` takes its host part from. -/
inductive HostPart where
  /-- `LOCALHOST` builds: the hash of the thread id -/
  | threadHash (hash : UInt64)
  /-- other builds: the output of `hostname -i` -/
  | hostname (sip : Text)

/-- `generate_local_uid()`; `rand` is what `rand()` returns. -/
def generateLocalUid (host : HostPart) (rand : UInt64) : UInt64 :=
  let ip : UInt64 := match host with
    | .threadHash hash => hash
    | .hostname sip => ipOfHostname sip
  let random := rand % 16
  (ip <<< 4 ||| random) <<< 28

/-- `get_query_uid(local_uid, query_number)`. -/
def getQueryUid (localUid queryNumber : UInt64) : UInt64 :=
  localUid ||| (queryNumber <<< 36 >>> 36)

-- ---------------------------------------------------------------------------
-- The packing
-- ---------------------------------------------------------------------------

theorem random_lt (rand : UInt64) : (rand % 16).toNat < 2 ^ (4 : UInt64).toNat := by
  rw [UInt64.toNat_mod]
  exact Nat.mod_lt _ (by decide)

/-- The query uid as arithmetic: the nibble and the host above the low 28 bits
of the query number. -/
theorem queryUid_toNat (ip rand queryNumber : UInt64) :
    (getQueryUid ((ip <<< 4 ||| rand % 16) <<< 28) queryNumber).toNat =
      (ip.toNat % 2 ^ 60 * 2 ^ 4 + rand.toNat % 16) % 2 ^ 36 * 2 ^ 28 +
        queryNumber.toNat % 2 ^ 28 := by
  have hnum : (queryNumber <<< 36 >>> 36).toNat = queryNumber.toNat % 2 ^ 28 :=
    BitFields.toNat_shiftLeft_shiftRight (k := 36) (by decide)
  have hlow : (queryNumber <<< 36 >>> 36).toNat < 2 ^ (28 : UInt64).toNat := by
    rw [hnum]
    exact Nat.mod_lt _ (by decide)
  have hhost : (ip <<< 4 ||| rand % 16).toNat = ip.toNat % 2 ^ 60 * 2 ^ 4 + rand.toNat % 16 := by
    rw [BitFields.toNat_shiftLeft_or (by decide) (random_lt rand), UInt64.toNat_mod]
    rfl
  rw [getQueryUid, BitFields.toNat_shiftLeft_or (by decide) hlow, hhost, hnum]
  rfl

-- ---------------------------------------------------------------------------
-- Reading a dotted quad
-- ---------------------------------------------------------------------------

/-- An IPv4 address `a.b.c.d`. -/
structure IPv4 where
  a : UInt8
  b : UInt8
  c : UInt8
  d : UInt8
  deriving DecidableEq, Repr

/-- The dotted-decimal text of an address. -/
def IPv4.text (q : IPv4) : Text :=
  decimal q.a.toNat ++ '.' :: (decimal q.b.toNat ++ '.' ::
    (decimal q.c.toNat ++ '.' :: decimal q.d.toNat))

/-- The output of `hostname -i` starts with the dotted quad of `q`. -/
def IPv4.Heads (q : IPv4) (sip : Text) : Prop :=
  ∃ rest, sip = q.text ++ rest ∧ ∀ c, rest.head? = some c → c.isDigit = false

theorem takeWhile_decimal_append (n : Nat) {rest : Text}
    (hrest : ∀ c, rest.head? = some c → c.isDigit = false) :
    (decimal n ++ rest).takeWhile Char.isDigit = decimal n ∧
      (decimal n ++ rest).dropWhile Char.isDigit = rest := by
  have hall : ∀ c ∈ decimal n, c.isDigit = true := fun c => isDigit_of_mem_decimal
  rw [List.takeWhile_append_of_pos hall, List.dropWhile_append_of_pos hall]
  cases rest with
  | nil => simp
  | cons c rest => simp [hrest c rfl]

/-- A digit is neither white space nor a sign. -/
theorem digit_facts {c : Char} (h : c.isDigit = true) :
    isSpace c = false ∧ c ≠ '-' ∧ c ≠ '+' := by
  refine ⟨?_, ?_, ?_⟩
  · by_contra hspace
    simp only [isSpace, Bool.not_eq_false, List.contains_iff_mem] at hspace
    revert h
    fin_cases hspace <;> decide
  · rintro rfl
    exact absurd h (by decide)
  · rintro rfl
    exact absurd h (by decide)

theorem saturate_eq {x : Int} (h : -2 ^ 63 ≤ x ∧ x < 2 ^ 63) : saturate x = x := by
  unfold saturate
  omega

theorem scanLong_decimal {n : Nat} (hn : n < 2 ^ 63) {rest : Text}
    (hrest : ∀ c, rest.head? = some c → c.isDigit = false) :
    scanLong (decimal n ++ rest) = some ((n : Int), rest) := by
  obtain ⟨htake, hdrop⟩ := takeWhile_decimal_append n hrest
  obtain ⟨c, t, hct⟩ := List.exists_cons_of_ne_nil (decimal_ne_nil n)
  obtain ⟨hspace, hminus, hplus⟩ :=
    digit_facts (isDigit_of_mem_decimal (n := n) (c := c) (by simp [hct]))
  have hskip : (decimal n ++ rest).dropWhile isSpace = decimal n ++ rest := by
    simp [hct, hspace]
  have hsign : scanSign (decimal n ++ rest) = (false, decimal n ++ rest) := by
    rw [hct, List.cons_append]
    unfold scanSign
    split
    · rename_i heq
      exact absurd (List.cons.inj heq).1 hminus
    · rename_i heq
      exact absurd (List.cons.inj heq).1 hplus
    · rfl
  simp only [scanLong, hskip, hsign, htake, hdrop, if_neg (decimal_ne_nil n), ofDecimal_decimal,
    Bool.false_eq_true, if_false]
  rw [saturate_eq (by omega)]

theorem ofInt_natCast (n : Nat) : UInt64.ofInt n = UInt64.ofNat n := by
  apply UInt64.toNat_inj.mp
  rw [UInt64.ofInt, UInt64.toNat_ofNat', UInt64.toNat_ofNat']
  omega

theorem octet_lt (x : UInt8) : x.toNat < 2 ^ 63 := x.toNat_lt.trans (by decide)

theorem scanLongs_dot (x : UInt8) (k : Nat) (rest : Text) :
    scanLongs (k + 1) (decimal x.toNat ++ '.' :: rest) =
      UInt64.ofNat x.toNat :: scanLongs k rest := by
  have hdot : ∀ c, ('.' :: rest).head? = some c → c.isDigit = false := by
    intro c hc
    obtain rfl : '.' = c := Option.some.inj hc
    rfl
  simp [scanLongs, scanLong_decimal (octet_lt x) hdot, ofInt_natCast]

theorem scanLongs_last (x : UInt8) {rest : Text}
    (hrest : ∀ c, rest.head? = some c → c.isDigit = false) :
    scanLongs 1 (decimal x.toNat ++ rest) = [UInt64.ofNat x.toNat] := by
  simp [scanLongs, scanLong_decimal (octet_lt x) hrest, ofInt_natCast]

/-- **`sscanf` on a dotted quad** stores the four octets in order. -/
theorem scanLongs_text {q : IPv4} {sip : Text} (h : q.Heads sip) :
    scanLongs 4 sip = [UInt64.ofNat q.a.toNat, UInt64.ofNat q.b.toNat,
      UInt64.ofNat q.c.toNat, UInt64.ofNat q.d.toNat] := by
  obtain ⟨rest, rfl, hrest⟩ := h
  simp only [IPv4.text, List.append_assoc, List.cons_append, scanLongs_dot,
    scanLongs_last _ hrest]

-- ---------------------------------------------------------------------------
-- The host part
-- ---------------------------------------------------------------------------

theorem octet_toNat (x : UInt8) : (UInt64.ofNat x.toNat).toNat = x.toNat :=
  UInt64.toNat_ofNat_of_lt' (x.toNat_lt.trans (by decide))

/-- **The host part** repeats the first octet where the second and third
belong. -/
theorem ipOfHostname_toNat {q : IPv4} {sip : Text} (h : q.Heads sip) :
    (ipOfHostname sip).toNat =
      q.a.toNat * 2 ^ 24 + q.a.toNat * 2 ^ 16 + q.a.toNat * 2 ^ 8 + q.d.toNat := by
  have ha := q.a.toNat_lt
  have hd := q.d.toNat_lt
  have hshift : ∀ k : UInt64, k.toNat ≤ 24 →
      (UInt64.ofNat q.a.toNat <<< k).toNat = q.a.toNat * 2 ^ k.toNat := by
    intro k hk
    have hle : q.a.toNat * 2 ^ k.toNat ≤ 255 * 2 ^ 24 :=
      Nat.mul_le_mul (by omega) (Nat.pow_le_pow_right (by omega) hk)
    rw [UInt64.toNat_shiftLeft, octet_toNat, Nat.mod_eq_of_lt (by omega : k.toNat < 64),
      Nat.shiftLeft_eq, Nat.mod_eq_of_lt (by omega)]
  rw [ipOfHostname, scanLongs_text h]
  simp only [List.getElem?_cons_zero, List.getElem?_cons_succ, Option.getD_some,
    UInt64.toNat_or, octet_toNat]
  rw [hshift 24 (by decide), hshift 16 (by decide), hshift 8 (by decide)]
  show q.a.toNat * 2 ^ 24 ||| q.a.toNat * 2 ^ 16 ||| q.a.toNat * 2 ^ 8 ||| q.d.toNat = _
  rw [BitFields.mul_two_pow_or (by omega : q.a.toNat * 2 ^ 16 < 2 ^ 24),
    show q.a.toNat * 2 ^ 24 + q.a.toNat * 2 ^ 16 = (q.a.toNat * 2 ^ 8 + q.a.toNat) * 2 ^ 16 by
      omega,
    BitFields.mul_two_pow_or (by omega : q.a.toNat * 2 ^ 8 < 2 ^ 16),
    show (q.a.toNat * 2 ^ 8 + q.a.toNat) * 2 ^ 16 + q.a.toNat * 2 ^ 8 =
      (q.a.toNat * 2 ^ 16 + q.a.toNat * 2 ^ 8 + q.a.toNat) * 2 ^ 8 by omega,
    BitFields.mul_two_pow_or (by omega : q.d.toNat < 2 ^ 8)]

/-- The query uid of a host that is known by its address. -/
theorem hostUid_toNat {q : IPv4} {sip : Text} (h : q.Heads sip) (rand n : UInt64) :
    (getQueryUid (generateLocalUid (.hostname sip) rand) n).toNat =
      ((q.a.toNat * 2 ^ 24 + q.a.toNat * 2 ^ 16 + q.a.toNat * 2 ^ 8 + q.d.toNat) * 2 ^ 4 +
        rand.toNat % 16) * 2 ^ 28 + n.toNat % 2 ^ 28 := by
  have ha := q.a.toNat_lt
  have hd := q.d.toNat_lt
  rw [generateLocalUid, queryUid_toNat, ipOfHostname_toNat h]
  omega

/-- Bits 32 to 63 of the local uid are the host part. -/
theorem localUid_upper {q : IPv4} {sip : Text} (h : q.Heads sip) (rand : UInt64) :
    (generateLocalUid (.hostname sip) rand >>> 32).toNat =
      q.a.toNat * 2 ^ 24 + q.a.toNat * 2 ^ 16 + q.a.toNat * 2 ^ 8 + q.d.toNat := by
  have huid := hostUid_toNat h rand 0
  rw [getQueryUid, show (0 : UInt64) <<< 36 >>> 36 = 0 by decide, UInt64.or_zero] at huid
  rw [UInt64.toNat_shiftRight, huid, Nat.shiftRight_eq_div_pow]
  show _ / 2 ^ 32 = _
  have hzero : (0 : UInt64).toNat = 0 := rfl
  omega

-- ---------------------------------------------------------------------------
-- Different hosts
-- ---------------------------------------------------------------------------

/-- Equal host parts come from equal first and last octets. -/
theorem hostPart_eq_iff (q q' : IPv4) :
    q.a.toNat * 2 ^ 24 + q.a.toNat * 2 ^ 16 + q.a.toNat * 2 ^ 8 + q.d.toNat =
      q'.a.toNat * 2 ^ 24 + q'.a.toNat * 2 ^ 16 + q'.a.toNat * 2 ^ 8 + q'.d.toNat ↔
    q.a = q'.a ∧ q.d = q'.d := by
  have ha := q.a.toNat_lt
  have hd := q.d.toNat_lt
  have ha' := q'.a.toNat_lt
  have hd' := q'.d.toNat_lt
  rw [← UInt8.toNat_inj, ← UInt8.toNat_inj]
  omega

/--
**Uids of different hosts.** Whatever the random parts and the query numbers
below `2 ^ 28`, two hosts never produce the same query uid if and only if their
addresses differ in the first or the last octet; and exactly then bits 32 to 63
of their local uids tell them apart.
-/
theorem queryUid_ne_iff {q q' : IPv4} {sip sip' : Text} (h : q.Heads sip) (h' : q'.Heads sip') :
    ((∀ rand rand' n n' : UInt64, n.toNat < 2 ^ 28 → n'.toNat < 2 ^ 28 →
      getQueryUid (generateLocalUid (.hostname sip) rand) n ≠
        getQueryUid (generateLocalUid (.hostname sip') rand') n') ↔
      (q.a ≠ q'.a ∨ q.d ≠ q'.d)) ∧
    ((∀ rand rand' : UInt64, generateLocalUid (.hostname sip) rand >>> 32 ≠
        generateLocalUid (.hostname sip') rand' >>> 32) ↔
      (q.a ≠ q'.a ∨ q.d ≠ q'.d)) := by
  have hparts : (q.a ≠ q'.a ∨ q.d ≠ q'.d) ↔ ¬ (q.a = q'.a ∧ q.d = q'.d) := by
    rw [not_and_or]
  rw [hparts, ← hostPart_eq_iff]
  refine ⟨⟨?_, ?_⟩, ⟨?_, ?_⟩⟩
  · intro hne hsame
    refine hne 0 0 0 0 (by decide) (by decide) (UInt64.toNat_inj.mp ?_)
    rw [hostUid_toNat h, hostUid_toNat h', hsame]
  · rintro hdiff rand rand' n n' - - heq
    have htoNat := congrArg UInt64.toNat heq
    rw [hostUid_toNat h, hostUid_toNat h'] at htoNat
    have hhost := (BitFields.pack_inj (Nat.mod_lt _ (by decide)) (Nat.mod_lt _ (by decide))
      htoNat).1
    exact hdiff (BitFields.pack_inj (w := 2 ^ 4) (Nat.mod_lt _ (by decide))
      (Nat.mod_lt _ (by decide)) hhost).1
  · intro hne hsame
    refine hne 0 0 (UInt64.toNat_inj.mp ?_)
    rw [localUid_upper h, localUid_upper h', hsame]
  · intro hdiff rand rand' heq
    have htoNat := congrArg UInt64.toNat heq
    rw [localUid_upper h, localUid_upper h'] at htoNat
    exact hdiff htoNat

/-- The output of `hostname -i` on a host with one address. -/
theorem heads_line (q : IPv4) : q.Heads (q.text ++ ['\n']) :=
  ⟨['\n'], rfl, fun c hc => by obtain rfl : '\n' = c := Option.some.inj hc; rfl⟩

/-- `10.0.0.1` and `10.1.0.1`. -/
theorem queryUid_ne_iff_neighbours :
    ((∀ rand rand' n n' : UInt64, n.toNat < 2 ^ 28 → n'.toNat < 2 ^ 28 →
      getQueryUid (generateLocalUid (.hostname ((IPv4.mk 10 0 0 1).text ++ ['\n'])) rand) n ≠
        getQueryUid (generateLocalUid (.hostname ((IPv4.mk 10 1 0 1).text ++ ['\n'])) rand')
          n') ↔
      ((10 : UInt8) ≠ 10 ∨ (1 : UInt8) ≠ 1)) ∧
    ((∀ rand rand' : UInt64,
      generateLocalUid (.hostname ((IPv4.mk 10 0 0 1).text ++ ['\n'])) rand >>> 32 ≠
        generateLocalUid (.hostname ((IPv4.mk 10 1 0 1).text ++ ['\n'])) rand' >>> 32) ↔
      ((10 : UInt8) ≠ 10 ∨ (1 : UInt8) ≠ 1)) :=
  queryUid_ne_iff (heads_line ⟨10, 0, 0, 1⟩) (heads_line ⟨10, 1, 0, 1⟩)

/-- Addresses that differ in the second octet only share their query uids. -/
theorem neighbours_collide :
    ¬ ∀ (q q' : IPv4) (sip sip' : Text), q.Heads sip → q'.Heads sip' → q ≠ q' →
      ∀ rand rand' n n' : UInt64, n.toNat < 2 ^ 28 → n'.toNat < 2 ^ 28 →
        getQueryUid (generateLocalUid (.hostname sip) rand) n ≠
          getQueryUid (generateLocalUid (.hostname sip') rand') n' := by
  intro hdisjoint
  refine hdisjoint ⟨10, 0, 0, 1⟩ ⟨10, 1, 0, 1⟩ _ _ (heads_line _) (heads_line _) (by decide)
    0 0 0 0 (by decide) (by decide) ?_
  decide

end MockMessageBoard
