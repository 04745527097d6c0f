import Immwrt.Lib.Bytes

/-!
# Half words and big-endian words

And what a buffer looks like when a piece of it is read and put back.
-/

namespace Immwrt

abbrev HalfWord := BitVec 16

def u16le (w : HalfWord) : List Byte := [w.extractLsb' 0 8, w.extractLsb' 8 8]

def ofLe16 (bytes : List Byte) : HalfWord := bytes.getD 1 0 ++ bytes.getD 0 0

def u16be (w : HalfWord) : List Byte := [w.extractLsb' 8 8, w.extractLsb' 0 8]

def ofBe16 (bytes : List Byte) : HalfWord := bytes.getD 0 0 ++ bytes.getD 1 0

def wordBe (w : Word) : List Byte :=
  [w.extractLsb' 24 8, w.extractLsb' 16 8, w.extractLsb' 8 8, w.extractLsb' 0 8]

def ofBe (bytes : List Byte) : Word :=
  bytes.getD 0 0 ++ bytes.getD 1 0 ++ bytes.getD 2 0 ++ bytes.getD 3 0

@[simp]
theorem length_wordBe (w : Word) : (wordBe w).length = 4 := rfl

@[simp]
theorem ofBe_wordBe (w : Word) : ofBe (wordBe w) = w := ofLe_u32le w

@[simp]
theorem ofLe16_u16le (w : HalfWord) : ofLe16 (u16le w) = w := by
  apply BitVec.eq_of_getLsbD_eq
  intro i hi
  simp only [ofLe16, u16le, List.getD_cons_zero, List.getD_cons_succ, BitVec.getLsbD_append,
    BitVec.getLsbD_extractLsb']
  by_cases hlow : i < 8
  · simp [hlow]
  · simp [hlow, show i - 8 < 8 by omega, show 8 + (i - 8) = i by omega]

@[simp]
theorem ofBe16_u16be (w : HalfWord) : ofBe16 (u16be w) = w := ofLe16_u16le w

theorem u32le_ofLe {bytes : List Byte} (hlen : bytes.length = 4) : u32le (ofLe bytes) = bytes := by
  obtain ⟨a, b, c, d, rfl⟩ := List.length_eq_four.1 hlen
  simp only [u32le, ofLe, List.getD_cons_zero, List.getD_cons_succ, List.cons.injEq, and_true]
  refine ⟨?_, ?_, ?_, ?_⟩ <;>
  · apply BitVec.eq_of_getLsbD_eq
    intro i hi
    simp only [BitVec.getLsbD_extractLsb', BitVec.getLsbD_append, hi, decide_true, Bool.true_and]
    grind

theorem splice_slice_self {buf : List Byte} (off n : Nat) (hroom : off + n ≤ buf.length) :
    splice buf off (slice buf off n) = buf := by
  apply List.ext_getElem?
  intro i
  have hlen : (slice buf off n).length = n := by
    rw [slice, List.length_take, List.length_drop]
    omega
  rw [getElem?_splice (by omega), hlen]
  split
  · rfl
  · split
    · rw [getElem?_slice, if_pos (by omega)]
      congr 1
      omega
    · rfl

end Immwrt
