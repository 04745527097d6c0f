import Immwrt.Lib.Crc
import Mathlib.Dynamics.PeriodicPts.Defs
import Mathlib.Tactic.NormNum.Prime

/-!
# The order of the CRC-32 shift

A word is a polynomial over GF(2) modulo the polynomial of CRC-32, its most significant bit the constant
term, and a shift multiplies by the indeterminate. That polynomial is primitive: a word other than zero comes
back after a multiple of `2 ^ 32 - 1` shifts and no sooner. So a checksum sees every run of zero octets, but
for those whose length is such a multiple, unless the run starts with a checksum of zero.
-/

namespace Immwrt

/-! ### Additive maps of words -/

def Additive (f : Word → Word) : Prop := ∀ a b, f (a ^^^ b) = f a ^^^ f b

theorem Additive.zero {f : Word → Word} (hf : Additive f) : f 0 = 0 := by
  have hself := hf 0 0
  rwa [BitVec.xor_self, BitVec.xor_self] at hself

theorem Additive.comp {f g : Word → Word} (hf : Additive f) (hg : Additive g) : Additive (f ∘ g) := by
  intro a b
  rw [Function.comp_apply, hg, hf]
  rfl

/-- Additive maps that agree on the words of one bit agree. -/
theorem Additive.ext {f g : Word → Word} (hf : Additive f) (hg : Additive g)
    (hbits : ∀ i < 32, f (BitVec.twoPow 32 i) = g (BitVec.twoPow 32 i)) (a : Word) : f a = g a := by
  have hlow : ∀ n ≤ 32, f ((a.setWidth n).setWidth 32) = g ((a.setWidth n).setWidth 32) := by
    intro n hn
    induction n with
    | zero =>
      have hnil : (a.setWidth 0).setWidth 32 = 0 := by
        apply BitVec.eq_of_getLsbD_eq
        intro i hi
        simp
      rw [hnil, hf.zero, hg.zero]
    | succ n ih =>
      have hsplit : (a.setWidth (n + 1)).setWidth 32 =
          (a.setWidth n).setWidth 32 ^^^ (if a.getLsbD n then BitVec.twoPow 32 n else 0) := by
        apply BitVec.eq_of_getLsbD_eq
        intro i hi
        rw [BitVec.getLsbD_xor]
        by_cases heq : i = n
        · subst heq
          cases hbit : a.getLsbD i <;> simp_all [BitVec.getLsbD_eq_getElem]
        · have hlt : i < n + 1 ↔ i < n := by omega
          cases a.getLsbD n <;> simp [hi, hlt, heq]
      rw [hsplit, hf, hg, ih (by omega)]
      cases a.getLsbD n
      · rw [if_neg Bool.false_ne_true, hf.zero, hg.zero]
      · rw [if_pos rfl, hbits n (by omega)]
  have hall := hlow 32 le_rfl
  rwa [BitVec.setWidth_eq, BitVec.setWidth_eq] at hall

theorem crcShift_zero : crcShift 0 = 0 := Additive.zero crcShift_xor

theorem additive_id : Additive id := fun _ _ => rfl

theorem additive_crcShift_iterate (n : Nat) : Additive crcShift^[n] := crcShift_iterate_xor n

/-! ### The product -/

/-- The polynomial 1. -/
def crcUnit : Word := 0x80000000

/-- One term of a product. -/
def crcTerm (bit : Bool) (a : Word) : Word := if bit then a else 0

def crcMulFrom : Nat → Word → Word → Word
  | 0, _, _ => 0
  | n + 1, a, s => crcTerm s.msb a ^^^ crcMulFrom n (crcShift a) (s <<< 1)

/-- The product of two polynomials. -/
def crcMul (a s : Word) : Word := crcMulFrom 32 a s

theorem crcTerm_xor_left (bit : Bool) (a b : Word) :
    crcTerm bit (a ^^^ b) = crcTerm bit a ^^^ crcTerm bit b := by
  cases bit
  · exact BitVec.xor_self.symm
  · rfl

theorem crcTerm_xor_right (p q : Bool) (a : Word) : crcTerm (p ^^ q) a = crcTerm p a ^^^ crcTerm q a := by
  cases p <;> cases q <;> simp [crcTerm]

theorem crcTerm_crcShift (bit : Bool) (a : Word) : crcTerm bit (crcShift a) = crcShift (crcTerm bit a) := by
  cases bit
  · exact crcShift_zero.symm
  · rfl

theorem crcMulFrom_xor_left (n : Nat) (a b s : Word) :
    crcMulFrom n (a ^^^ b) s = crcMulFrom n a s ^^^ crcMulFrom n b s := by
  induction n generalizing a b s with
  | zero => exact BitVec.xor_self.symm
  | succ n ih =>
    rw [crcMulFrom, crcMulFrom, crcMulFrom, crcShift_xor, ih, crcTerm_xor_left]
    ac_rfl

theorem crcMulFrom_xor_right (n : Nat) (a s t : Word) :
    crcMulFrom n a (s ^^^ t) = crcMulFrom n a s ^^^ crcMulFrom n a t := by
  induction n generalizing a s t with
  | zero => exact BitVec.xor_self.symm
  | succ n ih =>
    rw [crcMulFrom, crcMulFrom, crcMulFrom, BitVec.shiftLeft_xor_distrib, ih, BitVec.msb_xor,
      crcTerm_xor_right]
    ac_rfl

theorem crcMulFrom_crcShift (n : Nat) (a s : Word) :
    crcMulFrom n (crcShift a) s = crcShift (crcMulFrom n a s) := by
  induction n generalizing a s with
  | zero => exact crcShift_zero.symm
  | succ n ih => rw [crcMulFrom, crcMulFrom, crcShift_xor, ih (crcShift a), crcTerm_crcShift]

theorem crcMul_xor_left (a b s : Word) : crcMul (a ^^^ b) s = crcMul a s ^^^ crcMul b s :=
  crcMulFrom_xor_left 32 a b s

theorem additive_crcMul_left (s : Word) : Additive fun a => crcMul a s := fun a b => crcMul_xor_left a b s

theorem additive_crcMul (a : Word) : Additive (crcMul a) := crcMulFrom_xor_right 32 a

theorem crcMul_crcShift_iterate_left (n : Nat) (a s : Word) :
    crcMul (crcShift^[n] a) s = crcShift^[n] (crcMul a s) := by
  induction n with
  | zero => rfl
  | succ n ih =>
    rw [Function.iterate_succ_apply', Function.iterate_succ_apply', ← ih]
    exact crcMulFrom_crcShift 32 _ s

theorem crcMul_crcUnit_left (s : Word) : crcMul crcUnit s = s := by
  refine Additive.ext (additive_crcMul crcUnit) additive_id ?_ s
  decide +kernel

theorem crcMul_iterate_crcUnit (n : Nat) (s : Word) : crcMul (crcShift^[n] crcUnit) s = crcShift^[n] s := by
  rw [crcMul_crcShift_iterate_left, crcMul_crcUnit_left]

/-- The words of one bit are the first powers of the indeterminate. -/
theorem twoPow_eq_iterate {i : Nat} (hi : i < 32) : BitVec.twoPow 32 i = crcShift^[31 - i] crcUnit := by
  revert i
  decide +kernel

/-- Additive maps that agree on the powers of the indeterminate agree. -/
theorem Additive.ext_iterate {f g : Word → Word} (hf : Additive f) (hg : Additive g)
    (hpowers : ∀ n, f (crcShift^[n] crcUnit) = g (crcShift^[n] crcUnit)) (a : Word) : f a = g a := by
  refine hf.ext hg (fun i hi => ?_) a
  rw [twoPow_eq_iterate hi]
  exact hpowers _

theorem crcMul_iterate_right (a : Word) (n : Nat) (s : Word) :
    crcMul a (crcShift^[n] s) = crcShift^[n] (crcMul a s) := by
  refine Additive.ext_iterate (additive_crcMul_left _)
    ((additive_crcShift_iterate n).comp (additive_crcMul_left s)) (fun m => ?_) a
  rw [Function.comp_apply, crcMul_iterate_crcUnit, crcMul_iterate_crcUnit, ← Function.iterate_add_apply,
    ← Function.iterate_add_apply, Nat.add_comm]

theorem crcMul_crcUnit (a : Word) : crcMul a crcUnit = a := by
  refine Additive.ext_iterate (additive_crcMul_left _) additive_id (fun n => ?_) a
  exact crcMul_iterate_crcUnit n crcUnit

theorem crcMul_assoc (a b s : Word) : crcMul (crcMul a b) s = crcMul a (crcMul b s) := by
  refine Additive.ext_iterate ((additive_crcMul_left s).comp (additive_crcMul a))
    ((additive_crcMul a).comp (additive_crcMul_left s)) (fun n => ?_) b
  rw [Function.comp_apply, Function.comp_apply, crcMul_iterate_crcUnit, crcMul_iterate_right,
    crcMul_iterate_right, crcMul_crcUnit]
  exact crcMul_crcShift_iterate_left n a s

/-! ### Powers of the indeterminate -/

/-- The power whose exponent has the binary digits `bits`. -/
def crcPow (bits : List Bool) : Word :=
  bits.foldl (fun v bit => if bit then crcShift (crcMul v v) else crcMul v v) crcUnit

def ofBits (bits : List Bool) : Nat := bits.foldl (fun n bit => if bit then 2 * n + 1 else 2 * n) 0

theorem crcPow_eq (bits : List Bool) : crcPow bits = crcShift^[ofBits bits] crcUnit := by
  have hfold : ∀ n, bits.foldl (fun v bit => if bit then crcShift (crcMul v v) else crcMul v v)
      (crcShift^[n] crcUnit) =
        crcShift^[bits.foldl (fun n bit => if bit then 2 * n + 1 else 2 * n) n] crcUnit := by
    induction bits with
    | nil => exact fun n => rfl
    | cons bit bits ih =>
      intro n
      have hsquare : crcMul (crcShift^[n] crcUnit) (crcShift^[n] crcUnit) = crcShift^[2 * n] crcUnit := by
        rw [crcMul_iterate_crcUnit, ← Function.iterate_add_apply, Nat.two_mul]
      rw [List.foldl_cons, List.foldl_cons, hsquare]
      cases bit
      · exact ih (2 * n)
      · rw [if_pos rfl, if_pos rfl, ← Function.iterate_succ_apply' crcShift]
        exact ih (2 * n + 1)
  exact hfold 0

theorem crcShift_iterate_ofBits (bits : List Bool) (s : Word) :
    crcShift^[ofBits bits] s = crcMul (crcPow bits) s := by
  rw [crcPow_eq, crcMul_iterate_crcUnit]

/-- The number of words other than zero. -/
def crcOrder : Nat := 2 ^ 32 - 1

theorem crcShift_iterate_crcOrder (s : Word) : crcShift^[crcOrder] s = s := by
  have hbits : crcOrder = ofBits (List.replicate 32 true) := by decide
  have hpow : crcPow (List.replicate 32 true) = crcUnit := by decide +kernel
  rw [hbits, crcShift_iterate_ofBits, hpow, crcMul_crcUnit_left]

/-- A power other than 1 whose distance from 1 has the inverse `inv` moves every word but zero. -/
theorem eq_zero_of_iterate_eq (bits : List Bool) (inv : Word)
    (hinv : crcMul inv (crcPow bits ^^^ crcUnit) = crcUnit) {s : Word} (hs : crcShift^[ofBits bits] s = s) :
    s = 0 := by
  have hdiff : crcMul (crcPow bits ^^^ crcUnit) s = 0 := by
    rw [crcMul_xor_left, ← crcShift_iterate_ofBits, hs, crcMul_crcUnit_left]
    exact BitVec.xor_self
  calc s = crcMul (crcMul inv (crcPow bits ^^^ crcUnit)) s := by rw [hinv, crcMul_crcUnit_left]
    _ = crcMul inv (crcMul (crcPow bits ^^^ crcUnit) s) := crcMul_assoc _ _ _
    _ = 0 := by rw [hdiff, (additive_crcMul inv).zero]

/-! ### The order -/

/-- The period of `k` ones and `k` zeros, repeated. -/
def onesBits (k repeats : Nat) : List Bool :=
  (List.replicate repeats (List.replicate k false ++ List.replicate k true)).flatten

theorem eq_zero_of_isPeriodicPt_proper {n : Nat} (hdvd : n ∣ crcOrder) (hproper : n ≠ crcOrder) {s : Word}
    (hs : Function.IsPeriodicPt crcShift n s) : s = 0 := by
  obtain ⟨c, hc⟩ := hdvd
  have hc1 : c ≠ 1 := by
    rintro rfl
    exact hproper (by rw [hc, Nat.mul_one])
  obtain ⟨q, hq, hqc⟩ := Nat.exists_prime_and_dvd hc1
  have hqn : n * q ∣ crcOrder := hc ▸ Nat.mul_dvd_mul_left n hqc
  have hfactors : crcOrder = 3 * 5 * 17 * 257 * 65537 := by decide
  have hcases : q = 3 ∨ q = 5 ∨ q = 17 ∨ q = 257 ∨ q = 65537 := by
    have hqdvd : q ∣ 3 * 5 * 17 * 257 * 65537 := hfactors ▸ dvd_trans (Nat.dvd_mul_left q n) hqn
    simp only [hq.dvd_mul] at hqdvd
    simpa only [Nat.prime_dvd_prime_iff_eq hq (by norm_num : Nat.Prime 3),
      Nat.prime_dvd_prime_iff_eq hq (by norm_num : Nat.Prime 5),
      Nat.prime_dvd_prime_iff_eq hq (by norm_num : Nat.Prime 17),
      Nat.prime_dvd_prime_iff_eq hq (by norm_num : Nat.Prime 257),
      Nat.prime_dvd_prime_iff_eq hq (by norm_num : Nat.Prime 65537), or_assoc] using hqdvd
  have hperiod : ∀ bits : List Bool, ofBits bits * q = crcOrder → crcShift^[ofBits bits] s = s := by
    intro bits hbits
    have hmul : n * q ∣ ofBits bits * q := hbits ▸ hqn
    exact hs.trans_dvd (Nat.dvd_of_mul_dvd_mul_right hq.pos hmul)
  rcases hcases with rfl | rfl | rfl | rfl | rfl
  · exact eq_zero_of_iterate_eq (onesBits 1 16) 0xc736eb52 (by decide +kernel)
      (hperiod _ (by decide +kernel))
  · exact eq_zero_of_iterate_eq (onesBits 2 8) 0x3d436701 (by decide +kernel)
      (hperiod _ (by decide +kernel))
  · exact eq_zero_of_iterate_eq (onesBits 4 4) 0xe1a0922e (by decide +kernel)
      (hperiod _ (by decide +kernel))
  · exact eq_zero_of_iterate_eq (onesBits 8 2) 0x3c1c66b1 (by decide +kernel)
      (hperiod _ (by decide +kernel))
  · exact eq_zero_of_iterate_eq (onesBits 16 1) 0xd4e6c8ca (by decide +kernel)
      (hperiod _ (by decide +kernel))

/-- The polynomial of CRC-32 is primitive. -/
theorem crcShift_iterate_eq_self_iff (n : Nat) (s : Word) : crcShift^[n] s = s ↔ s = 0 ∨ crcOrder ∣ n := by
  constructor
  · intro hs
    have hgcd := Function.IsPeriodicPt.gcd (f := crcShift) (x := s) hs (crcShift_iterate_crcOrder s)
    by_cases hproper : n.gcd crcOrder = crcOrder
    · exact Or.inr (Nat.gcd_eq_right_iff_dvd.1 hproper)
    · exact Or.inl (eq_zero_of_isPeriodicPt_proper (Nat.gcd_dvd_right n crcOrder) hproper hgcd)
  · rintro (rfl | hdvd)
    · exact (additive_crcShift_iterate n).zero
    · exact Function.IsPeriodicPt.trans_dvd (crcShift_iterate_crcOrder s) hdvd

/-! ### Checksums -/

theorem crcShift_iterate_injective (n : Nat) : Function.Injective crcShift^[n] := by
  have hone : Function.Injective crcShift := by
    intro a b heq
    have horder : crcOrder = crcOrder - 1 + 1 := by decide
    rw [← crcShift_iterate_crcOrder a, ← crcShift_iterate_crcOrder b, horder,
      Function.iterate_succ_apply, Function.iterate_succ_apply, heq]
  exact hone.iterate n

theorem crcByte_eq (crc : Word) (byte : Byte) : crcByte crc byte = crcShift^[8] (crc ^^^ byte.setWidth 32) := rfl

theorem crc32_injective (data : List Byte) : Function.Injective fun crc => crc32 crc data := by
  induction data with
  | nil => exact fun _ _ heq => heq
  | cons byte data ih =>
    intro a b heq
    have hbyte : crcByte a byte = crcByte b byte := ih heq
    rw [crcByte_eq, crcByte_eq] at hbyte
    exact (BitVec.xor_left_inj _).1 (crcShift_iterate_injective 8 hbyte)

theorem crc32_replicate_zero (crc : Word) (n : Nat) :
    crc32 crc (List.replicate n 0) = crcShift^[8 * n] crc := by
  induction n generalizing crc with
  | zero => rfl
  | succ n ih =>
    rw [List.replicate_succ, Nat.mul_succ, Function.iterate_add_apply, ← ih, crc32, List.foldl_cons,
      crcByte_eq, show crc ^^^ (0 : Byte).setWidth 32 = crc from BitVec.xor_zero, crc32]

theorem crc32_zeros_eq_iff (crc : Word) (n : Nat) :
    crc32 crc (List.replicate n 0) = crc ↔ crc = 0 ∨ crcOrder ∣ n := by
  have hcoprime : Nat.Coprime crcOrder 8 := by decide +kernel
  rw [crc32_replicate_zero, crcShift_iterate_eq_self_iff, hcoprime.dvd_mul_left]

end Immwrt
