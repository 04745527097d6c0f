import Mathlib.Data.BitVec
import Mathlib.Tactic

/-!
# Rounding machine words

`ALIGN` and `ALIGN_DOWN` clear the low bits of a word by a mask. Rounding up adds first, in the width of the
word, so that the greatest values are rounded to 0.
-/

namespace Immwrt

variable {w : Nat}

/-- `x & ~(2^k - 1)` -/
def alignDown (k : Nat) (x : BitVec w) : BitVec w := x &&& ~~~ BitVec.ofNat w (2 ^ k - 1)

/-- `(x + (2^k - 1)) & ~(2^k - 1)` -/
def alignUp (k : Nat) (x : BitVec w) : BitVec w := alignDown k (x + BitVec.ofNat w (2 ^ k - 1))

theorem toNat_alignDown (k : Nat) (x : BitVec w) : (alignDown k x).toNat = x.toNat / 2 ^ k * 2 ^ k := by
  apply Nat.eq_of_testBit_eq
  intro i
  rw [BitVec.testBit_toNat, alignDown, BitVec.getLsbD_and, BitVec.getLsbD_not, BitVec.getLsbD_ofNat,
    Nat.testBit_two_pow_sub_one, Nat.testBit_mul_two_pow, Nat.testBit_div_two_pow, BitVec.testBit_toNat]
  by_cases hi : i < w
  · by_cases hk : k ≤ i
    · simp [hi, hk]
    · simp [hi, hk, show i < k by omega]
  · rw [BitVec.getLsbD_of_ge x i (by omega)]
    by_cases hk : k ≤ i
    · simp [hk, BitVec.getLsbD_of_ge x i (by omega)]
    · simp [hk]

theorem toNat_alignUp {k : Nat} (hk : k ≤ w) (x : BitVec w) :
    (alignUp k x).toNat = (x.toNat + (2 ^ k - 1)) % 2 ^ w / 2 ^ k * 2 ^ k := by
  have hmask : 2 ^ k - 1 < 2 ^ w := by
    have := Nat.pow_le_pow_right (show 0 < 2 by omega) hk
    have := Nat.two_pow_pos k
    omega
  rw [alignUp, toNat_alignDown, BitVec.toNat_add, BitVec.toNat_ofNat, Nat.mod_eq_of_lt hmask]

/-- What is left is 0 for no other word. -/
theorem alignUp_eq_zero_iff {k : Nat} (hk : k ≤ w) (x : BitVec w) :
    (alignUp k x).toNat = 0 ↔ x.toNat = 0 ∨ 2 ^ w < x.toNat + 2 ^ k := by
  have hpow := Nat.pow_le_pow_right (show 0 < 2 by omega) hk
  have hpos := Nat.two_pow_pos k
  have hx := x.isLt
  rw [toNat_alignUp hk, Nat.mul_eq_zero, or_iff_left (by omega), Nat.div_eq_zero_iff, or_iff_right (by omega)]
  by_cases hover : x.toNat + (2 ^ k - 1) < 2 ^ w
  · rw [Nat.mod_eq_of_lt hover]
    omega
  · rw [Nat.mod_eq_sub_mod (by omega), Nat.mod_eq_of_lt (by omega)]
    omega

end Immwrt
