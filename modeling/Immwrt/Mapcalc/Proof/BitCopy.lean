import Immwrt.Mapcalc.BitCopy

/-!
# What the bit copies do

Bit by bit: a copy takes the leading bits from one buffer and the rest from the other, and a comparison is
zero when the leading bits agree. They stay in their buffers when the bits they are asked for do.
-/

namespace Immwrt.Mapcalc

open Traced

variable {asize bsize : Nat}

/-! ### Comparing -/

theorem memcmp_eq_zero_iff (a b : Octets) (off n : Nat) :
    memcmp a b off n = 0 ↔ ∀ x, off ≤ x → x < off + n → a x = b x := by
  induction n generalizing off with
  | zero => exact iff_of_true rfl fun x hle hlt => absurd hlt (by omega)
  | succ n ih =>
      rw [memcmp]
      by_cases heq : a off = b off
      · rw [if_pos heq, ih]
        constructor
        · intro h x hle hlt
          rcases Nat.eq_or_lt_of_le hle with rfl | hlt'
          · exact heq
          · exact h x hlt' (by omega)
        · exact fun h x hle hlt => h x (by omega) (by omega)
      · rw [if_neg heq]
        refine iff_of_false (fun hzero => heq ?_) fun h => heq (h off le_rfl (by omega))
        exact BitVec.eq_of_toNat_eq (by omega)

/-- The leading bits of a byte, as the number that is left of it. -/
theorem shiftRight_eq_iff (x y : Byte) {bits : Nat} (hbits : bits ≤ 8) :
    x >>> (8 - bits) = y >>> (8 - bits) ↔ ∀ i < bits, x.getMsbD i = y.getMsbD i := by
  constructor
  · intro h i hi
    have hbit := congrArg (fun z : Byte => z.getLsbD (bits - 1 - i)) h
    simp only [BitVec.getLsbD_ushiftRight] at hbit
    rw [BitVec.getMsbD_eq_getLsbD, BitVec.getMsbD_eq_getLsbD,
      show 8 - 1 - i = 8 - bits + (bits - 1 - i) by omega, hbit]
  · intro h
    apply BitVec.eq_of_getLsbD_eq
    intro i hi
    rw [BitVec.getLsbD_ushiftRight, BitVec.getLsbD_ushiftRight]
    by_cases hlt : i < bits
    · have hbit := h (bits - 1 - i) (by omega)
      rw [BitVec.getMsbD_eq_getLsbD, BitVec.getMsbD_eq_getLsbD,
        show 8 - 1 - (bits - 1 - i) = 8 - bits + i by omega] at hbit
      simpa [show bits - 1 - i < 8 by omega] using hbit
    · rw [BitVec.getLsbD_of_ge _ _ (by omega), BitVec.getLsbD_of_ge _ _ (by omega)]

theorem agreeOn_split (a b : Octets) (bits : Nat) :
    AgreeOn bits a b ↔ (∀ x < bits / 8, a x = b x) ∧
      ∀ i < bits % 8, (a (bits / 8)).getMsbD i = (b (bits / 8)).getMsbD i := by
  have hmod : bits % 8 < 8 := Nat.mod_lt _ (by decide)
  rw [← agreeOn_bytes_iff]
  constructor
  · intro h
    refine ⟨h.mono (by omega), fun i hi => ?_⟩
    rw [← bitAt_byte a (by omega), ← bitAt_byte b (by omega)]
    exact h _ (by omega)
  · rintro ⟨hwhole, hpart⟩ i hi
    by_cases hlt : i < 8 * (bits / 8)
    · exact hwhole i hlt
    · have hbyte := hpart (i - 8 * (bits / 8)) (by omega)
      rw [← bitAt_byte a (by omega), ← bitAt_byte b (by omega),
        show 8 * (bits / 8) + (i - 8 * (bits / 8)) = i by omega] at hbyte
      exact hbyte

theorem bmemcmp_eq_zero_iff (a b : Octets) (bits : Nat) :
    (bmemcmp asize bsize a b bits).val = 0 ↔ AgreeOn bits a b := by
  rw [agreeOn_split]
  have hwhole : memcmp a b 0 (bits / 8) = 0 ↔ ∀ x < bits / 8, a x = b x := by
    rw [memcmp_eq_zero_iff]
    simp
  simp only [bmemcmp, val_bind]
  split
  · next h =>
      have hpart := shiftRight_eq_iff (a (bits / 8)) (b (bits / 8)) (show bits % 8 ≤ 8 by omega)
      rw [← hpart, ← hwhole]
      simp only [val_bind, val_pure]
      constructor
      · exact fun hzero => ⟨h.1, BitVec.eq_of_toNat_eq (by omega)⟩
      · rintro ⟨-, heq⟩
        rw [heq, sub_self]
  · next h =>
      rw [val_pure, ← hwhole]
      constructor
      · intro hzero
        refine ⟨hzero, fun i hi => absurd hi ?_⟩
        have hnone : ¬ bits % 8 > 0 := fun hpos => h ⟨hzero, hpos⟩
        omega
      · exact fun hboth => hboth.1

/-! ### Copying -/

/-- The byte that two buffers share after a copy. -/
theorem getMsbD_merge (x y : Byte) {bits i : Nat} (hbits : bits ≤ 8) (hi : i < 8) :
    ((x &&& ((1 : Byte) <<< (8 - bits) - 1)) ||| (~~~((1 : Byte) <<< (8 - bits) - 1) &&& y)).getMsbD i =
      if i < bits then y.getMsbD i else x.getMsbD i := by
  have hmask : ∀ j < 8, ((1 : Byte) <<< (8 - bits) - 1).getLsbD j = decide (j < 8 - bits) := by
    interval_cases bits <;> decide
  simp only [BitVec.getMsbD_eq_getLsbD, BitVec.getLsbD_or, BitVec.getLsbD_and, BitVec.getLsbD_not,
    hmask (8 - 1 - i) (by omega)]
  by_cases hlt : i < bits
  · have hge : ¬ 8 - 1 - i < 8 - bits := by omega
    simp [hi, hlt, hge, show 8 - 1 - i < 8 by omega]
  · have hlo : 8 - 1 - i < 8 - bits := by omega
    simp [hi, hlt, hlo, show 8 - 1 - i < 8 by omega]

theorem bitAt_bmemcpy (a b : Octets) (bits i : Nat) :
    bitAt (bmemcpy asize bsize a b bits).val i = if i < bits then bitAt b i else bitAt a i := by
  have hmod : i % 8 < 8 := Nat.mod_lt _ (by decide)
  simp only [bmemcpy, val_bind]
  split
  · simp only [val_bind, val_pure]
    by_cases hbyte : i / 8 = bits / 8
    · simp only [bitAt, hbyte, Function.update_self, lt_self_iff_false, if_false]
      rw [getMsbD_merge _ _ (Nat.le_of_lt (Nat.mod_lt bits (by decide))) hmod]
      refine if_congr ?_ rfl rfl
      omega
    · simp only [bitAt, Function.update_of_ne hbyte]
      by_cases hlt : i / 8 < bits / 8
      · rw [if_pos hlt, if_pos (by omega)]
      · rw [if_neg hlt, if_neg (by omega)]
  · simp only [val_pure, bitAt]
    by_cases hlt : i / 8 < bits / 8
    · rw [if_pos hlt, if_pos (by omega)]
    · rw [if_neg hlt, if_neg (by omega)]

/-- The field of bits that `bmemcpys64` copies, if it fits the 64-bit number. -/
theorem bitAt_bmemcpys64 (a b : Octets) {frombits nbits : Nat} (hfits : frombits % 8 + nbits ≤ 64) (i : Nat) :
    bitAt (bmemcpys64 asize bsize a b frombits nbits).val i =
      if i < nbits then bitAt b (frombits + i) else bitAt a i := by
  simp only [bmemcpys64, val_bind]
  rw [bitAt_bmemcpy]
  refine if_ctx_congr Iff.rfl (fun hi => ?_) fun _ => rfl
  rw [bitAt_natOctets, Nat.testBit_mod_two_pow, Nat.testBit_shiftLeft,
    show 8 * 8 - 1 - i - frombits % 8 = 8 * 8 - 1 - (frombits % 8 + i) by omega,
    testBit_beNat _ (by omega)]
  simp only [show i < 8 * 8 by omega, show 8 * 8 - 1 - i < 64 by omega,
    show frombits % 8 ≤ 8 * 8 - 1 - i by omega, decide_true, Bool.true_and, bitAt]
  have hdiv : (frombits % 8 + i) / 8 = (frombits + i) / 8 - frombits / 8 := by omega
  have hin : (frombits + i) / 8 - frombits / 8 < (frombits + nbits) / 8 - frombits / 8 + 1 := by omega
  rw [hdiv, if_pos hin, show frombits / 8 + ((frombits + i) / 8 - frombits / 8) = (frombits + i) / 8 by omega,
    show (frombits % 8 + i) % 8 = (frombits + i) % 8 by omega]

/-! ### Staying in the buffers -/

/-- The bytes that hold the first `bits` bits. -/
def bytesOf (bits : Nat) : Nat := (bits + 7) / 8

theorem safe_bmemcmp {a b : Octets} {bits : Nat} (ha : bytesOf bits ≤ asize) (hb : bytesOf bits ≤ bsize) :
    Safe (bmemcmp asize bsize a b bits) := by
  unfold bytesOf at ha hb
  simp only [Safe, bmemcmp, touch, shift, every_bind, every_emit, Access.Ok]
  refine ⟨by omega, by omega, ?_⟩
  split
  · simp only [every_bind, every_emit, every_pure, Access.Ok]
    refine ⟨by omega, by omega, by omega, trivial⟩
  · exact every_pure _

theorem safe_bmemcpy_iff {a b : Octets} {bits : Nat} :
    Safe (bmemcpy asize bsize a b bits) ↔ bytesOf bits ≤ asize ∧ bytesOf bits ≤ bsize := by
  unfold bytesOf
  simp only [Safe, bmemcpy, touch, shift, every_bind, every_emit, Access.Ok]
  split
  · simp only [every_bind, every_emit, every_pure, Access.Ok, and_true]
    omega
  · simp only [every_pure, and_true]
    omega

theorem safe_bmemcpys64_iff {a b : Octets} {frombits nbits : Nat} :
    Safe (bmemcpys64 asize bsize a b frombits nbits) ↔
      (frombits + nbits) / 8 - frombits / 8 < 8 ∧ (frombits + nbits) / 8 < bsize ∧
        bytesOf nbits ≤ asize := by
  have hcopy : ∀ buf : Octets, Safe (bmemcpy asize 8 a buf nbits) ↔ bytesOf nbits ≤ asize ∧ bytesOf nbits ≤ 8 :=
    fun buf => safe_bmemcpy_iff
  have hmod : frombits % 8 < 8 := Nat.mod_lt _ (by decide)
  simp only [Safe] at hcopy ⊢
  simp only [bmemcpys64, touch, shift, every_bind, every_emit, Access.Ok, hcopy]
  unfold bytesOf
  omega

end Immwrt.Mapcalc
