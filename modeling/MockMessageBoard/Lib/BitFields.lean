import Mathlib.Data.Nat.Basic
import Mathlib.Tactic

/-!
# Packed bit fields

`(a << k) | b` packs a field of `k` bits below another one. As long as `b`
fits its field, packing into a 64-bit word is `a * 2 ^ k + b` up to the bits of
`a` that the shift pushes out, so equal words have equal fields.
-/

namespace BitFields

/-- **Packing.** The low field is kept whole, the high one up to truncation. -/
theorem toNat_shiftLeft_or {a b k : UInt64} (hk : k.toNat < 64) (hb : b.toNat < 2 ^ k.toNat) :
    (a <<< k ||| b).toNat = a.toNat % 2 ^ (64 - k.toNat) * 2 ^ k.toNat + b.toNat := by
  have hpow : 2 ^ 64 = 2 ^ (64 - k.toNat) * 2 ^ k.toNat := by
    rw [← Nat.pow_add]
    congr 1
    omega
  have hshift : (a <<< k).toNat = (a.toNat % 2 ^ (64 - k.toNat)) <<< k.toNat := by
    rw [UInt64.toNat_shiftLeft, Nat.mod_eq_of_lt hk, Nat.shiftLeft_eq, Nat.shiftLeft_eq, hpow,
      Nat.mul_mod_mul_right]
  rw [UInt64.toNat_or, hshift, ← Nat.shiftLeft_add_eq_or_of_lt hb, Nat.shiftLeft_eq]

/-- A shift left and back keeps the bits the left shift did not push out. -/
theorem toNat_shiftLeft_shiftRight {a k : UInt64} (hk : k.toNat < 64) :
    (a <<< k >>> k).toNat = a.toNat % 2 ^ (64 - k.toNat) := by
  have hpow : 2 ^ 64 = 2 ^ (64 - k.toNat) * 2 ^ k.toNat := by
    rw [← Nat.pow_add]
    congr 1
    omega
  rw [UInt64.toNat_shiftRight, UInt64.toNat_shiftLeft, Nat.mod_eq_of_lt hk, Nat.shiftLeft_eq,
    hpow, Nat.mul_mod_mul_right, Nat.shiftRight_eq_div_pow,
    Nat.mul_div_cancel _ (Nat.two_pow_pos _)]

/-- An `or` of a multiple of `2 ^ k` and a number below `2 ^ k` adds them. -/
theorem mul_two_pow_or {x y k : Nat} (hy : y < 2 ^ k) : x * 2 ^ k ||| y = x * 2 ^ k + y := by
  rw [← Nat.shiftLeft_eq, Nat.shiftLeft_add_eq_or_of_lt hy]

/-- Two packed words of `k`-bit low fields are equal only field by field. -/
theorem pack_inj {w x y x' y' : Nat} (hy : y < w) (hy' : y' < w)
    (h : x * w + y = x' * w + y') : x = x' ∧ y = y' := by
  have hmod : y = y' := by
    rw [← Nat.mul_add_mod_of_lt (a := x) hy, h, Nat.mul_add_mod_of_lt hy']
  subst hmod
  have hmul : x * w = x' * w := by omega
  exact ⟨Nat.eq_of_mul_eq_mul_right (by omega) hmul, rfl⟩

/-- A shift right reads the field above the low `k` bits. -/
theorem toNat_shiftRight {q k : UInt64} (hk : k.toNat < 64) :
    (q >>> k).toNat = q.toNat / 2 ^ k.toNat := by
  rw [UInt64.toNat_shiftRight, Nat.mod_eq_of_lt hk, Nat.shiftRight_eq_div_pow]

/-- A mask of `k` ones reads the low `k` bits. -/
theorem toNat_and_mask {q mask : UInt64} {k : Nat} (hmask : mask.toNat = 2 ^ k - 1) :
    (q &&& mask).toNat = q.toNat % 2 ^ k := by
  rw [UInt64.toNat_and, hmask, Nat.and_two_pow_sub_one_eq_mod]

end BitFields
