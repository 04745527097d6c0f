import Mathlib.Data.ZMod.Basic
import Mathlib.Tactic

/-!
# Ones-complement sums

Addition with end-around carry on words of `w` bits: what leaves the word at the top comes back at the
bottom. Two things determine a ones-complement sum: its residue modulo `2 ^ w - 1`, and whether it is zero,
which it is only when every summand is. Residues are taken in any ring of integers modulo `m` in which
`2 ^ w` is one, so that sums of words of different widths meet in one ring.
-/

namespace Immwrt.OnesComplement

variable {w m : Nat}

/-- Addition with end-around carry. -/
def onesAdd (x y : BitVec w) : BitVec w := if x.toNat + y.toNat < 2 ^ w then x + y else x + y + 1

def onesSum (words : List (BitVec w)) : BitVec w := words.foldl onesAdd 0

theorem toNat_onesAdd (x y : BitVec w) : (onesAdd x y).toNat =
    if x.toNat + y.toNat < 2 ^ w then x.toNat + y.toNat else x.toNat + y.toNat + 1 - 2 ^ w := by
  have hx := x.isLt
  have hy := y.isLt
  unfold onesAdd
  split
  · next hlt => rw [BitVec.toNat_add, Nat.mod_eq_of_lt hlt]
  · next hge =>
    have hwrap : (x.toNat + y.toNat) % 2 ^ w = x.toNat + y.toNat - 2 ^ w := by
      rw [Nat.mod_eq_sub_mod (by omega), Nat.mod_eq_of_lt (by omega)]
    have hone : (x + y + 1).toNat = (x.toNat + y.toNat - 2 ^ w + 1) % 2 ^ w := by
      simp only [BitVec.toNat_add, hwrap, BitVec.ofNat_eq_ofNat, BitVec.toNat_ofNat, Nat.add_mod_mod]
    rw [hone, Nat.mod_eq_of_lt (by omega)]
    omega

theorem onesAdd_eq_zero (x y : BitVec w) : onesAdd x y = 0 ↔ x = 0 ∧ y = 0 := by
  have hx := x.isLt
  have hy := y.isLt
  simp only [← BitVec.toNat_inj, toNat_onesAdd, BitVec.ofNat_eq_ofNat, BitVec.toNat_zero]
  split <;> omega

theorem foldl_onesAdd_eq_zero (words : List (BitVec w)) (x : BitVec w) :
    words.foldl onesAdd x = 0 ↔ x = 0 ∧ ∀ y ∈ words, y = 0 := by
  induction words generalizing x with
  | nil => simp
  | cons y words ih =>
    rw [List.foldl_cons, ih, onesAdd_eq_zero, List.forall_mem_cons, and_assoc]

theorem onesSum_eq_zero (words : List (BitVec w)) : onesSum words = 0 ↔ ∀ y ∈ words, y = 0 := by
  rw [onesSum, foldl_onesAdd_eq_zero]
  simp

section Residues

variable (hm : (2 : ZMod m) ^ w = 1)

include hm

/-- The end-around carry keeps the residue. -/
theorem cast_onesAdd (x y : BitVec w) :
    ((onesAdd x y).toNat : ZMod m) = (x.toNat : ZMod m) + (y.toNat : ZMod m) := by
  rw [toNat_onesAdd]
  split
  · rw [Nat.cast_add]
  · next hge =>
    rw [Nat.cast_sub (by omega)]
    push_cast
    rw [hm, add_sub_cancel_right]

theorem cast_foldl_onesAdd (words : List (BitVec w)) (x : BitVec w) :
    ((words.foldl onesAdd x).toNat : ZMod m)
      = (x.toNat : ZMod m) + (words.map fun y => (y.toNat : ZMod m)).sum := by
  induction words generalizing x with
  | nil => simp
  | cons y words ih =>
    rw [List.foldl_cons, ih, cast_onesAdd hm, List.map_cons, List.sum_cons, add_assoc]

theorem cast_onesSum (words : List (BitVec w)) :
    ((onesSum words).toNat : ZMod m) = (words.map fun y => (y.toNat : ZMod m)).sum := by
  rw [onesSum, cast_foldl_onesAdd hm]
  simp

/-- The complement of a word is its negative. -/
theorem cast_not (x : BitVec w) : ((~~~x).toNat : ZMod m) = -(x.toNat : ZMod m) := by
  have hx := x.isLt
  have hsum : (~~~x).toNat + x.toNat + 1 = 2 ^ w := by
    rw [BitVec.toNat_not]
    omega
  have hcast := congrArg (Nat.cast (R := ZMod m)) hsum
  push_cast at hcast
  rw [hm] at hcast
  linear_combination hcast

end Residues

theorem two_pow_eq_one (w : Nat) : (2 : ZMod (2 ^ w - 1)) ^ w = 1 := by
  have hself : ((2 ^ w - 1 : Nat) : ZMod (2 ^ w - 1)) = 0 := ZMod.natCast_self _
  rw [Nat.cast_sub Nat.one_le_two_pow] at hself
  push_cast at hself
  exact sub_eq_zero.mp hself

/-- All ones is the only word besides zero whose residue is zero. -/
theorem eq_allOnes_iff (hw : 0 < w) (x : BitVec w) :
    x = BitVec.allOnes w ↔ (x.toNat : ZMod (2 ^ w - 1)) = 0 ∧ x ≠ 0 := by
  have hx := x.isLt
  have htwo : 2 ≤ 2 ^ w := Nat.pow_le_pow_right (by norm_num) hw |>.trans' (by norm_num)
  rw [ZMod.natCast_eq_zero_iff]
  simp only [ne_eq, ← BitVec.toNat_inj, BitVec.toNat_allOnes, BitVec.ofNat_eq_ofNat,
    BitVec.toNat_zero]
  constructor
  · intro hones
    exact ⟨dvd_of_eq hones.symm, by omega⟩
  · rintro ⟨hdvd, hne⟩
    have hle := Nat.le_of_dvd (by omega) hdvd
    omega

theorem onesSum_eq_allOnes (hw : 0 < w) (words : List (BitVec w)) :
    onesSum words = BitVec.allOnes w ↔
      (words.map fun y => (y.toNat : ZMod (2 ^ w - 1))).sum = 0 ∧ ∃ y ∈ words, y ≠ 0 := by
  rw [eq_allOnes_iff hw, cast_onesSum (two_pow_eq_one w), ne_eq, onesSum_eq_zero]
  simp

/-! ### Carries detected by comparison -/

theorem add_lt_iff (x y : BitVec w) : x + y < y ↔ 2 ^ w ≤ x.toNat + y.toNat := by
  have hx := x.isLt
  have hy := y.isLt
  rw [BitVec.lt_def, BitVec.toNat_add]
  by_cases hlt : x.toNat + y.toNat < 2 ^ w
  · rw [Nat.mod_eq_of_lt hlt]
    omega
  · rw [Nat.mod_eq_sub_mod (by omega), Nat.mod_eq_of_lt (by omega)]
    omega

theorem onesAdd_eq_of_lt (x y : BitVec w) : (if x + y < y then x + y + 1 else x + y) = onesAdd x y := by
  unfold onesAdd
  by_cases hlt : x.toNat + y.toNat < 2 ^ w
  · rw [if_neg (by rw [add_lt_iff]; omega), if_pos hlt]
  · rw [if_pos (by rw [add_lt_iff]; omega), if_neg hlt]

/-- A sum kept with the carry of its last addition still to be added. -/
def addDeferred (acc : BitVec w × BitVec w) (x : BitVec w) : BitVec w × BitVec w :=
  let sum := acc.1 + acc.2 + x
  (sum, if sum < x then 1 else 0)

theorem add_addDeferred (acc : BitVec w × BitVec w) (x : BitVec w) :
    (addDeferred acc x).1 + (addDeferred acc x).2 = onesAdd (acc.1 + acc.2) x := by
  rw [← onesAdd_eq_of_lt]
  unfold addDeferred
  dsimp only
  split
  · rfl
  · exact BitVec.add_zero _

/-- Deferring the carries does not change the sum. -/
theorem foldl_addDeferred (words : List (BitVec w)) (acc : BitVec w × BitVec w) :
    (words.foldl addDeferred acc).1 + (words.foldl addDeferred acc).2
      = words.foldl onesAdd (acc.1 + acc.2) := by
  induction words generalizing acc with
  | nil => rfl
  | cons x words ih => rw [List.foldl_cons, List.foldl_cons, ih, add_addDeferred]

end Immwrt.OnesComplement
