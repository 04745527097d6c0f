import Immwrt.Nmbm.Instance

/-!
# Block states and walks

Two bits of the bitmap hold the state of a block: setting one block's leaves the others alone. A block
past the end of the bitmap reads as bad. The walks only ever stop at a good block within their limits.
-/

namespace Immwrt.Nmbm

variable {nld : LowerDevice}

/-! ### The bitmap -/

theorem getLsbD_three (i : Nat) : (3 : Word).getLsbD i = decide (i < 2) := by
  by_cases hi : i < 32
  · revert i
    decide
  · rw [BitVec.getLsbD_of_ge _ _ (by omega)]
    simp
    omega

@[simp]
theorem length_setBlockStateRaw (blockState : List Word) (ba : Nat) (state : BlockSt) :
    (setBlockStateRaw blockState ba state).length = blockState.length := by
  simp [setBlockStateRaw]

theorem getBlockStateRaw_set_self {blockState : List Word} {ba : Nat} (state : BlockSt)
    (h : ba / 16 < blockState.length) :
    getBlockStateRaw (setBlockStateRaw blockState ba state) ba = state := by
  unfold getBlockStateRaw setBlockStateRaw
  rw [List.getD_eq_getElem?_getD, List.getElem?_set_self h, Option.getD_some]
  apply BitVec.eq_of_getLsbD_eq
  intro i hi
  have hshift : ba % 16 * 2 + i < 32 := by omega
  simp only [BitVec.getLsbD_extractLsb', BitVec.getLsbD_or, BitVec.getLsbD_and,
    BitVec.getLsbD_not, BitVec.getLsbD_shiftLeft, BitVec.getLsbD_setWidth, getLsbD_three]
  simp [hi, hshift, show i < 32 by omega]

theorem getBlockStateRaw_set_of_ne (blockState : List Word) {ba ba' : Nat} (state : BlockSt)
    (h : ba' ≠ ba) :
    getBlockStateRaw (setBlockStateRaw blockState ba state) ba' = getBlockStateRaw blockState ba' := by
  unfold getBlockStateRaw setBlockStateRaw
  by_cases hword : ba / 16 = ba' / 16
  · by_cases hlen : ba' / 16 < blockState.length
    · rw [hword, List.getD_eq_getElem?_getD, List.getElem?_set_self hlen, Option.getD_some]
      apply BitVec.eq_of_getLsbD_eq
      intro i hi
      have hbit : ba' % 16 * 2 + i < 32 := by omega
      simp only [BitVec.getLsbD_extractLsb', BitVec.getLsbD_or, BitVec.getLsbD_and,
        BitVec.getLsbD_not, BitVec.getLsbD_shiftLeft, BitVec.getLsbD_setWidth, getLsbD_three]
      by_cases hlt : ba' % 16 * 2 + i < ba % 16 * 2
      · simp [hi, hbit, hlt]
      · have hge : 2 ≤ ba' % 16 * 2 + i - ba % 16 * 2 := by omega
        have hout : state.getLsbD (ba' % 16 * 2 + i - ba % 16 * 2) = false :=
          BitVec.getLsbD_of_ge _ _ hge
        simp [hi, hbit, hlt, hout, show ¬ ba' % 16 * 2 + i - ba % 16 * 2 < 2 by omega]
    · rw [List.set_eq_of_length_le (by omega)]
  · rw [List.getD_eq_getElem?_getD, List.getElem?_set_ne hword, List.getD_eq_getElem?_getD]

/-- What a block's state is after another was set. -/
theorem getBlockState_set (ni : Instance) (ba ba' : Nat) (state : BlockSt) :
    (ni.setBlockState ba state).getBlockState ba' = ni.getBlockState ba' ∨
      ba' = ba ∧ (ni.setBlockState ba state).getBlockState ba' = state := by
  by_cases hne : ba' = ba
  · subst hne
    by_cases hlen : ba' / 16 < ni.blockState.length
    · exact .inr ⟨rfl, getBlockStateRaw_set_self state hlen⟩
    · refine .inl ?_
      unfold Instance.getBlockState Instance.setBlockState setBlockStateRaw
      simp only
      rw [List.set_eq_of_length_le (by omega)]
  · exact .inl (getBlockStateRaw_set_of_ne _ state hne)

/-- A block past the bitmap is bad. -/
theorem length_of_getBlockStateRaw {blockState : List Word} {ba : Nat}
    (h : getBlockStateRaw blockState ba ≠ blockStBad) : ba / 16 < blockState.length := by
  by_contra hlen
  apply h
  unfold getBlockStateRaw
  rw [List.getD_eq_getElem?_getD, List.getElem?_eq_none (by omega), Option.getD_none]
  apply BitVec.eq_of_getLsbD_eq
  intro i hi
  simp [blockStBad]

/-! ### Walks -/

theorem walkAsc_some {blockState : List Word} {n ba count nba : Nat}
    (h : walkAsc blockState n ba count = some nba) : ba ≤ nba ∧ nba < ba + n := by
  induction n generalizing ba count with
  | zero => simp [walkAsc] at h
  | succ n ih =>
      unfold walkAsc at h
      split at h
      · cases count with
        | zero =>
            obtain rfl : ba = nba := by simpa using h
            omega
        | succ count =>
            have := ih h
            omega
      · have := ih h
        omega

theorem tryReserveBlocks_some {ni : Instance} {ba limit count nba : Nat}
    (h : tryReserveBlocks nld ni ba limit count = some nba) : ba ≤ nba := by
  induction count with
  | zero => exact (walkAsc_some h).1
  | succ count ih =>
      rw [tryReserveBlocks] at h
      split at h
      · rename_i found
        obtain rfl : _ = nba := by simpa using h
        exact (walkAsc_some found).1
      · exact ih h

theorem clampLimit_le (limit : Nat) : clampLimit nld limit ≤ limit := by
  unfold clampLimit
  split <;> omega

theorem walkDesc_some {blockState : List Word} {n ba count pb : Nat} (hn : n ≤ ba)
    (h : walkDesc blockState n ba count = some pb) :
    ba < pb + n ∧ pb + count ≤ ba ∧ getBlockStateRaw blockState pb = blockStGood := by
  induction n generalizing ba count with
  | zero => simp [walkDesc] at h
  | succ n ih =>
      unfold walkDesc at h
      split at h
      · rename_i hgood
        cases count with
        | zero =>
            obtain rfl : ba = pb := by simpa using h
            exact ⟨by omega, by omega, hgood⟩
        | succ count =>
            obtain ⟨hlo, hhi, hpb⟩ := ih (by omega) h
            exact ⟨by omega, by omega, hpb⟩
      · obtain ⟨hlo, hhi, hpb⟩ := ih (by omega) h
        exact ⟨by omega, by omega, hpb⟩

/-- A walk down that starts at a good block stops there. -/
theorem walkDesc_good {blockState : List Word} {n ba : Nat}
    (h : getBlockStateRaw blockState ba = blockStGood) (hn : 0 < n) :
    walkDesc blockState n ba 0 = some ba := by
  obtain ⟨n, rfl⟩ := Nat.exists_eq_succ_of_ne_zero (by omega : n ≠ 0)
  simp [walkDesc, h]

end Immwrt.Nmbm
