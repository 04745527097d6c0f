import Immwrt.Lib.Bytes

/-!
# Counting zero bits

The bits of a memory of bytes, the lowest bit of a byte first. A run of bits begins with a byte and ends
anywhere. What is counted byte by byte or word by word is compared with the number of bits in a set.
-/

namespace Immwrt.BitCount

/-- The first `n` bits from byte `off` on, each as its byte and its place in the byte. -/
def bitRun (off n : Nat) : Finset (Nat × Nat) := (Finset.range n).image fun i => (off + i / 8, i % 8)

/-- How many of the bits are zero. -/
def zeroCount (mem : Nat → Byte) (bits : Finset (Nat × Nat)) : Nat :=
  (bits.filter fun b => (mem b.1).getLsbD b.2 = false).card

/-! ### Runs of bits -/

theorem mem_bitRun {off n x k : Nat} : (x, k) ∈ bitRun off n ↔ k < 8 ∧ off ≤ x ∧ 8 * (x - off) + k < n := by
  rw [bitRun, Finset.mem_image]
  constructor
  · rintro ⟨i, hi, heq⟩
    obtain ⟨rfl, rfl⟩ := Prod.mk.inj heq
    have hlt := Finset.mem_range.mp hi
    omega
  · rintro ⟨hk, hx, hlt⟩
    refine ⟨8 * (x - off) + k, Finset.mem_range.mpr hlt, ?_⟩
    rw [Prod.mk.injEq]
    omega

theorem mem_bytes {off n x k : Nat} (hk : k < 8) : (x, k) ∈ bitRun off (8 * n) ↔ off ≤ x ∧ x < off + n := by
  rw [mem_bitRun]
  omega

@[simp]
theorem bitRun_zero (off : Nat) : bitRun off 0 = ∅ := rfl

/-- A run of bits goes on after its first bytes. -/
theorem bitRun_add (off m n : Nat) : bitRun off (8 * m + n) = bitRun off (8 * m) ∪ bitRun (off + m) n := by
  ext ⟨x, k⟩
  rw [Finset.mem_union, mem_bitRun, mem_bitRun, mem_bitRun]
  omega

theorem disjoint_bitRun {off m off' : Nat} (h : off + m ≤ off') (n : Nat) :
    Disjoint (bitRun off (8 * m)) (bitRun off' n) := by
  rw [Finset.disjoint_left]
  rintro ⟨x, k⟩ hfirst hsecond
  rw [mem_bitRun] at hfirst hsecond
  omega

/-! ### Counts -/

variable (mem : Nat → Byte)

@[simp]
theorem zeroCount_empty : zeroCount mem ∅ = 0 := rfl

theorem zeroCount_union {bits bits' : Finset (Nat × Nat)} (h : Disjoint bits bits') :
    zeroCount mem (bits ∪ bits') = zeroCount mem bits + zeroCount mem bits' := by
  rw [zeroCount, Finset.filter_union]
  exact Finset.card_union_of_disjoint (Finset.disjoint_filter_filter h)

variable {mem} in
theorem zeroCount_congr {mem' : Nat → Byte} {bits : Finset (Nat × Nat)}
    (h : ∀ b ∈ bits, (mem b.1).getLsbD b.2 = (mem' b.1).getLsbD b.2) :
    zeroCount mem bits = zeroCount mem' bits := by
  have hfilter : (bits.filter fun b => (mem b.1).getLsbD b.2 = false)
      = bits.filter fun b => (mem' b.1).getLsbD b.2 = false := by
    apply Finset.filter_congr
    intro b hb
    rw [h b hb]
  rw [zeroCount, hfilter, zeroCount]

variable {mem} in
theorem zeroCount_eq_zero {bits : Finset (Nat × Nat)} :
    zeroCount mem bits = 0 ↔ ∀ b ∈ bits, (mem b.1).getLsbD b.2 = true := by
  rw [zeroCount, Finset.card_eq_zero, Finset.filter_eq_empty_iff]
  simp

theorem zeroCount_run_add (off m n : Nat) :
    zeroCount mem (bitRun off (8 * m + n))
      = zeroCount mem (bitRun off (8 * m)) + zeroCount mem (bitRun (off + m) n) := by
  rw [bitRun_add]
  exact zeroCount_union mem (disjoint_bitRun le_rfl n)

/-- A bit more within one byte. -/
theorem zeroCount_run_succ {n : Nat} (off : Nat) (h : n < 8) :
    zeroCount mem (bitRun off (n + 1))
      = zeroCount mem (bitRun off n) + if (mem off).getLsbD n then 0 else 1 := by
  have hsplit : bitRun off (n + 1) = bitRun off n ∪ {(off, n)} := by
    ext ⟨x, k⟩
    rw [Finset.mem_union, Finset.mem_singleton, Prod.mk.injEq, mem_bitRun, mem_bitRun]
    omega
  have hdisjoint : Disjoint (bitRun off n) {(off, n)} := by
    rw [Finset.disjoint_singleton_right, mem_bitRun]
    omega
  rw [hsplit, zeroCount_union mem hdisjoint]
  congr 1
  rw [zeroCount, Finset.filter_singleton]
  cases (mem off).getLsbD n <;> rfl

theorem zeroCount_run_eq {n : Nat} (off : Nat) (h : n ≤ 8) :
    zeroCount mem (bitRun off n) + (mem off).cpopNatRec n 0 = n := by
  induction n with
  | zero => rfl
  | succ n ih =>
    rw [zeroCount_run_succ mem off h, BitVec.cpopNatRec_succ, BitVec.cpopNatRec_add]
    have hbit : (if (mem off).getLsbD n then 0 else 1) + ((mem off).getLsbD n).toNat = 1 := by
      cases (mem off).getLsbD n <;> rfl
    have := ih (by omega)
    omega

/-- The zero bits of a byte. -/
theorem zeroCount_byte (off : Nat) : zeroCount mem (bitRun off 8) = 8 - (mem off).cpop.toNat := by
  have h := zeroCount_run_eq mem off le_rfl
  rw [BitVec.toNat_cpop]
  omega

theorem zeroCount_bytes_succ (off n : Nat) :
    zeroCount mem (bitRun off (8 * (n + 1)))
      = (8 - (mem off).cpop.toNat) + zeroCount mem (bitRun (off + 1) (8 * n)) := by
  rw [show 8 * (n + 1) = 8 * 1 + 8 * n by ring, zeroCount_run_add, zeroCount_byte]

/-- The zero bits of a word. -/
theorem zeroCount_word (off n : Nat) :
    zeroCount mem (bitRun off (8 * (n + 4)))
      = (32 - (mem (off + 3) ++ mem (off + 2) ++ mem (off + 1) ++ mem off).cpop.toNat)
        + zeroCount mem (bitRun (off + 4) (8 * n)) := by
  rw [zeroCount_bytes_succ, zeroCount_bytes_succ, zeroCount_bytes_succ, zeroCount_bytes_succ,
    BitVec.toNat_cpop_append, BitVec.toNat_cpop_append, BitVec.toNat_cpop_append]
  have h0 := BitVec.toNat_cpop_le (mem off)
  have h1 := BitVec.toNat_cpop_le (mem (off + 1))
  have h2 := BitVec.toNat_cpop_le (mem (off + 2))
  have h3 := BitVec.toNat_cpop_le (mem (off + 3))
  simp only [Nat.add_assoc, Nat.reduceAdd]
  omega

end Immwrt.BitCount
