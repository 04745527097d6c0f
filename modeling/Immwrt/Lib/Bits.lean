import Immwrt.Lib.Bytes

/-!
# Bit strings in buffers

A buffer in network order is a string of bits: bit `i` is bit `i % 8` of byte `i / 8`, counted from the
most significant one. The numbers a program reads from a buffer and writes to one are big-endian.
-/

namespace Immwrt

/-- A buffer, byte by byte. How many of its bytes there are is up to its owner. -/
abbrev Octets := Nat → Byte

def bitAt (buf : Octets) (i : Nat) : Bool := (buf (i / 8)).getMsbD (i % 8)

/-- Two buffers have the same first `n` bits. -/
def AgreeOn (n : Nat) (buf buf' : Octets) : Prop := ∀ i < n, bitAt buf i = bitAt buf' i

theorem AgreeOn.refl (n : Nat) (buf : Octets) : AgreeOn n buf buf := fun _ _ => rfl

theorem AgreeOn.trans {n : Nat} {buf buf' buf'' : Octets} (h : AgreeOn n buf buf')
    (h' : AgreeOn n buf' buf'') : AgreeOn n buf buf'' :=
  fun i hi => (h i hi).trans (h' i hi)

theorem AgreeOn.mono {m n : Nat} {buf buf' : Octets} (h : AgreeOn n buf buf') (hle : m ≤ n) :
    AgreeOn m buf buf' :=
  fun i hi => h i (lt_of_lt_of_le hi hle)

theorem bitAt_byte (buf : Octets) {j i : Nat} (hi : i < 8) :
    bitAt buf (8 * j + i) = (buf j).getMsbD i := by
  rw [bitAt, Nat.mul_add_div (by decide), Nat.div_eq_of_lt hi, Nat.add_zero, Nat.mul_add_mod,
    Nat.mod_eq_of_lt hi]

/-- Bytes are equal when their bits are. -/
theorem byte_eq_iff {buf buf' : Octets} {j : Nat} :
    buf j = buf' j ↔ ∀ i < 8, bitAt buf (8 * j + i) = bitAt buf' (8 * j + i) := by
  constructor
  · intro h i hi
    rw [bitAt_byte buf hi, bitAt_byte buf' hi, h]
  · intro h
    apply BitVec.eq_of_getMsbD_eq
    intro i hi
    rw [← bitAt_byte buf hi, ← bitAt_byte buf' hi]
    exact h i hi

/-- The bytes of two buffers agree up to `n` when their bits do. -/
theorem agreeOn_bytes_iff {buf buf' : Octets} {n : Nat} :
    AgreeOn (8 * n) buf buf' ↔ ∀ j < n, buf j = buf' j := by
  constructor
  · intro h j hj
    exact byte_eq_iff.mpr fun i hi => h _ (by omega)
  · intro h i hi
    have hj : i / 8 < n := by omega
    rw [bitAt, bitAt, h _ hj]

/-! ### Big-endian numbers -/

/-- The number in the first `n` bytes. -/
def beNat (buf : Octets) : Nat → Nat
  | 0 => 0
  | n + 1 => 2 ^ 8 * beNat buf n + (buf n).toNat

/-- A number in `n` bytes; what does not fit is cut off. -/
def natOctets (v n : Nat) : Octets := fun j => if j < n then BitVec.ofNat 8 (v >>> (8 * (n - 1 - j))) else 0

theorem beNat_lt (buf : Octets) (n : Nat) : beNat buf n < 2 ^ (8 * n) := by
  induction n with
  | zero => exact Nat.one_pos
  | succ n ih =>
      have hbyte := (buf n).isLt
      rw [beNat, Nat.mul_succ, Nat.pow_add, Nat.mul_comm (2 ^ (8 * n))]
      calc 2 ^ 8 * beNat buf n + (buf n).toNat < 2 ^ 8 * beNat buf n + 2 ^ 8 :=
            Nat.add_lt_add_left hbyte _
        _ = 2 ^ 8 * (beNat buf n + 1) := by ring
        _ ≤ 2 ^ 8 * 2 ^ (8 * n) := Nat.mul_le_mul_left _ ih

theorem testBit_beNat (buf : Octets) {n i : Nat} (hi : i < 8 * n) :
    (beNat buf n).testBit (8 * n - 1 - i) = bitAt buf i := by
  induction n with
  | zero => omega
  | succ n ih =>
      rw [beNat, Nat.testBit_two_pow_mul_add _ (buf n).isLt]
      by_cases hlast : i < 8 * n
      · rw [if_neg (by omega), ← ih hlast]
        congr 1
        omega
      · have hbyte : i = 8 * n + (i - 8 * n) := by omega
        rw [if_pos (by omega)]
        conv_rhs => rw [hbyte, bitAt_byte buf (by omega)]
        rw [BitVec.getMsbD_eq_getLsbD, BitVec.getLsbD, show 8 * (n + 1) - 1 - i = 8 - 1 - (i - 8 * n) by omega]
        simp only [show i - 8 * n < 8 by omega, decide_true, Bool.true_and]

/-- A number with a bit is not zero. -/
theorem beNat_ne_zero {buf : Octets} {n i : Nat} (hi : i < 8 * n) (hbit : bitAt buf i = true) : beNat buf n ≠ 0 := by
  intro hzero
  have htest := testBit_beNat buf hi
  rw [hzero, Nat.zero_testBit, hbit] at htest
  exact Bool.noConfusion htest

theorem bitAt_natOctets (v n i : Nat) :
    bitAt (natOctets v n) i = (decide (i < 8 * n) && v.testBit (8 * n - 1 - i)) := by
  rw [bitAt, natOctets]
  by_cases hi : i < 8 * n
  · have hmod : i % 8 < 8 := Nat.mod_lt _ (by decide)
    rw [if_pos (by omega), BitVec.getMsbD_eq_getLsbD, BitVec.getLsbD_ofNat, Nat.testBit_shiftRight,
      show 8 * (n - 1 - i / 8) + (8 - 1 - i % 8) = 8 * n - 1 - i by omega]
    simp only [hmod, hi, show 8 - 1 - i % 8 < 8 by omega, decide_true, Bool.true_and]
  · rw [if_neg (by omega)]
    simp [hi]

/-! ### Fields of bits -/

/-- The number in the `n` bits from `off` on. -/
def bitsNat (buf : Octets) (off : Nat) : Nat → Nat
  | 0 => 0
  | n + 1 => 2 * bitsNat buf off n + (bitAt buf (off + n)).toNat

theorem testBit_bitsNat (buf : Octets) (off : Nat) {n i : Nat} (hi : i < n) :
    (bitsNat buf off n).testBit (n - 1 - i) = bitAt buf (off + i) := by
  induction n with
  | zero => omega
  | succ n ih =>
      have hsplit : bitsNat buf off (n + 1) =
          2 ^ 1 * bitsNat buf off n + (bitAt buf (off + n)).toNat := rfl
      rw [hsplit, Nat.testBit_two_pow_mul_add _ (by cases bitAt buf (off + n) <;> decide)]
      by_cases hlast : i < n
      · rw [if_neg (by omega), ← ih hlast]
        congr 1
        omega
      · rw [if_pos (by omega), show i = n by omega, show n + 1 - 1 - n = 0 by omega]
        cases bitAt buf (off + n) <;> rfl

theorem bitsNat_lt (buf : Octets) (off n : Nat) : bitsNat buf off n < 2 ^ n := by
  induction n with
  | zero => exact Nat.one_pos
  | succ n ih =>
      rw [bitsNat, Nat.pow_succ]
      have hbit : (bitAt buf (off + n)).toNat < 2 := by cases bitAt buf (off + n) <;> decide
      omega

theorem testBit_bitsNat_of_ge (buf : Octets) (off : Nat) {n i : Nat} (hi : n ≤ i) :
    (bitsNat buf off n).testBit i = false :=
  Nat.testBit_lt_two_pow (lt_of_lt_of_le (bitsNat_lt buf off n) (Nat.pow_le_pow_right (by decide) hi))

/-- A field of bits is its first bits and then the others. -/
theorem bitsNat_add (buf : Octets) (off m n : Nat) :
    bitsNat buf off (m + n) = bitsNat buf off m * 2 ^ n + bitsNat buf (off + m) n := by
  induction n with
  | zero => rw [Nat.pow_zero, Nat.mul_one]; rfl
  | succ n ih =>
      calc bitsNat buf off (m + (n + 1)) = 2 * bitsNat buf off (m + n) + (bitAt buf (off + (m + n))).toNat := rfl
        _ = 2 * (bitsNat buf off m * 2 ^ n + bitsNat buf (off + m) n) + (bitAt buf (off + m + n)).toNat := by
            rw [ih, Nat.add_assoc off]
        _ = bitsNat buf off m * 2 ^ (n + 1) + (2 * bitsNat buf (off + m) n + (bitAt buf (off + m + n)).toNat) := by
            ring

/-- Fields are the same number when they have the same bits. -/
theorem bitsNat_eq_iff {buf buf' : Octets} {off off' n : Nat} :
    bitsNat buf off n = bitsNat buf' off' n ↔ ∀ i < n, bitAt buf (off + i) = bitAt buf' (off' + i) := by
  constructor
  · intro heq i hi
    rw [← testBit_bitsNat buf off hi, heq, testBit_bitsNat buf' off' hi]
  · intro hbits
    apply Nat.eq_of_testBit_eq
    intro k
    by_cases hk : k < n
    · have hplace : n - 1 - (n - 1 - k) = k := by omega
      have hleft := testBit_bitsNat buf off (n := n) (i := n - 1 - k) (by omega)
      have hright := testBit_bitsNat buf' off' (n := n) (i := n - 1 - k) (by omega)
      rw [hplace] at hleft hright
      rw [hleft, hright]
      exact hbits _ (by omega)
    · rw [testBit_bitsNat_of_ge _ _ (by omega), testBit_bitsNat_of_ge _ _ (by omega)]

/-- What two bit vectors one behind the other are determines both. -/
theorem append_inj {v w : Nat} {x x' : BitVec v} {y y' : BitVec w} : x ++ y = x' ++ y' ↔ x = x' ∧ y = y' := by
  constructor
  · intro heq
    have hleft := congrArg (BitVec.extractLsb' w v) heq
    have hright := congrArg (BitVec.extractLsb' 0 w) heq
    rw [BitVec.extractLsb'_append_eq_left, BitVec.extractLsb'_append_eq_left] at hleft
    rw [BitVec.extractLsb'_append_eq_right, BitVec.extractLsb'_append_eq_right] at hright
    exact ⟨hleft, hright⟩
  · rintro ⟨rfl, rfl⟩
    rfl

end Immwrt
