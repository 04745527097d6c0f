import Immwrt.Mtdsplit.Mtd

/-!
# Offsets and the search for a root file system

A scan goes from block to block, and the search looks at its start and at the block boundaries behind it. Past the
last offset of 32 bits both start over.
-/

namespace Immwrt.Mtdsplit

variable {big : Bool} {mtd : Mtd}

theorem readFull_le {off len : Nat} {bytes : List Byte} (h : readFull mtd off len = .ok bytes) :
    off + len ≤ mtd.size := by
  by_contra hlt
  rw [readFull, mtdRead, if_pos (by omega)] at h
  cases h

/-! ### Block boundaries -/

theorem addSize_le (o len : Nat) : addSize o len ≤ o + len := Nat.mod_le _ _

theorem Mtd.lt_next (mtd : Mtd) (o : Nat) : o < o / mtd.erasesize * mtd.erasesize + mtd.erasesize := by
  have hdiv := Nat.div_add_mod o mtd.erasesize
  have hmod := Nat.mod_lt o mtd.erasesize_pos
  rw [Nat.mul_comm] at hdiv
  omega

theorem Mtd.rounddown_dvd {o : Nat} (ho : mtd.erasesize ∣ o) : o / mtd.erasesize * mtd.erasesize = o :=
  Nat.div_mul_cancel ho

theorem Mtd.dvd_next (mtd : Mtd) (o : Nat) :
    mtd.erasesize ∣ o / mtd.erasesize * mtd.erasesize + mtd.erasesize :=
  Dvd.dvd.add (Nat.dvd_mul_left _ _) (Nat.dvd_refl _)

/-- The boundary behind an offset, or a small offset when there is none. -/
theorem mtdNextEb_cases {o : Nat} (ho : o < 2 ^ 32) :
    mtdNextEb mtd o < mtd.erasesize ∨ mtd.erasesize ∣ mtdNextEb mtd o := by
  have he := mtd.erasesize_lt
  have hle : o / mtd.erasesize * mtd.erasesize ≤ o := Nat.div_mul_le_self o mtd.erasesize
  by_cases hlt : o / mtd.erasesize * mtd.erasesize + mtd.erasesize < 2 ^ 32
  · refine .inr ?_
    rw [mtdNextEb, addSize, mtdRounddownToEb, Nat.mod_eq_of_lt hlt]
    exact mtd.dvd_next o
  · refine .inl ?_
    rw [mtdNextEb, addSize, mtdRounddownToEb]
    omega

/-! ### Scans -/

/-- The offset of a turn of a scan over the blocks. -/
def scanOffset (mtd : Mtd) (k : Nat) : Nat := k * mtd.erasesize % 2 ^ 32

theorem scanOffset_succ (mtd : Mtd) (k : Nat) : addSize (scanOffset mtd k) mtd.erasesize = scanOffset mtd (k + 1) := by
  rw [addSize, scanOffset, scanOffset, Nat.mod_add_mod, Nat.succ_mul]

theorem scanOffset_eq {k : Nat} (h : k * mtd.erasesize < 2 ^ 32) : scanOffset mtd k = k * mtd.erasesize :=
  Nat.mod_eq_of_lt h

theorem addSize_scanOffset (mtd : Mtd) (k total : Nat) :
    addSize (scanOffset mtd k) total = (k * mtd.erasesize + total) % 2 ^ 32 := by
  rw [addSize, scanOffset, Nat.mod_add_mod]

theorem scanOffset_lt (mtd : Mtd) (k : Nat) : scanOffset mtd k < 2 ^ 32 := Nat.mod_lt _ (by omega)

/-- A scan that comes to a block boundary again has been there. -/
theorem scanOffset_again {k : Nat} (hdvd : mtd.erasesize ∣ scanOffset mtd k) (hwrap : 2 ^ 32 ≤ k * mtd.erasesize) :
    ∃ j < k, scanOffset mtd j = scanOffset mtd k := by
  have hlt := scanOffset_lt mtd k
  obtain ⟨j, hj⟩ := hdvd
  rw [Nat.mul_comm] at hj
  refine ⟨j, ?_, by rw [scanOffset_eq (by omega), hj]⟩
  by_contra hle
  have := Nat.mul_le_mul_right mtd.erasesize (Nat.le_of_not_lt hle)
  omega

/-! ### What the search looks at -/

def searchOffset (mtd : Mtd) (from' : Nat) : Nat → Nat
  | 0 => from'
  | k + 1 => mtdNextEb mtd (searchOffset mtd from' k)

def HasRootfs (big : Bool) (mtd : Mtd) (offset : Nat) : Prop :=
  ∃ type, mtdCheckRootfsMagic big mtd offset = .ok type

/-- The search goes past an offset. -/
def Passes (big : Bool) (mtd : Mtd) (offset : Nat) : Prop :=
  offset < mtd.size % 2 ^ 32 ∧ ¬ HasRootfs big mtd offset

/-- The `k`-th offset that the search looks at is the first with a root file system. -/
structure MeetsAt (big : Bool) (mtd : Mtd) (from' k : Nat) : Prop where
  inside : searchOffset mtd from' k < mtd.size % 2 ^ 32
  rootfs : HasRootfs big mtd (searchOffset mtd from' k)
  before : ∀ j < k, Passes big mtd (searchOffset mtd from' j)

theorem findRootfsTurn_passes {o : Nat} (h : Passes big mtd o) :
    findRootfsTurn big mtd (mtd.size % 2 ^ 32) o = .inr (mtdNextEb mtd o) := by
  rw [findRootfsTurn, if_pos h.1]
  cases hcheck : mtdCheckRootfsMagic big mtd o with
  | ok type => exact absurd ⟨type, hcheck⟩ h.2
  | error err => rfl

theorem findRootfsTurn_not_passes {o : Nat} (h : ¬ Passes big mtd o) :
    ∃ result, findRootfsTurn big mtd (mtd.size % 2 ^ 32) o = .inl result := by
  rw [findRootfsTurn]
  split
  case isFalse => exact ⟨_, rfl⟩
  case isTrue hlt =>
    cases hcheck : mtdCheckRootfsMagic big mtd o with
    | ok type => exact ⟨_, rfl⟩
    | error err =>
        refine absurd ⟨hlt, ?_⟩ h
        rintro ⟨type, htype⟩
        rw [hcheck] at htype
        cases htype

theorem findRootfsTurn_ok_iff {o r : Nat} {type : PartType} :
    findRootfsTurn big mtd (mtd.size % 2 ^ 32) o = .inl (.ok (r, type)) ↔
      o < mtd.size % 2 ^ 32 ∧ o = r ∧ mtdCheckRootfsMagic big mtd r = .ok type := by
  rw [findRootfsTurn]
  split
  case isFalse hlt =>
    constructor
    · intro h
      cases h
    · rintro ⟨hin, -⟩
      exact absurd hin hlt
  case isTrue hlt =>
    cases hcheck : mtdCheckRootfsMagic big mtd o with
    | ok type' =>
        simp only [Sum.inl.injEq, Except.ok.injEq, Prod.mk.injEq, hlt, true_and]
        constructor
        · rintro ⟨rfl, rfl⟩
          exact ⟨rfl, hcheck⟩
        · rintro ⟨rfl, htype⟩
          rw [hcheck] at htype
          exact ⟨rfl, Except.ok.inj htype⟩
    | error err =>
        simp only [reduceCtorEq, false_iff, not_and]
        rintro - rfl htype
        rw [hcheck] at htype
        cases htype

/-- What the search finds, and when it ends at all. -/
theorem findRootfs_returns_iff {from' : Nat} {result : Except Errno (Nat × PartType)} :
    Loop.Returns (findRootfsTurn big mtd (mtd.size % 2 ^ 32)) from' result ↔
      ∃ k, (∀ j < k, Passes big mtd (searchOffset mtd from' j)) ∧
        findRootfsTurn big mtd (mtd.size % 2 ^ 32) (searchOffset mtd from' k) = .inl result :=
  Loop.returns_iff_of_states (searchOffset mtd from') (fun k => Passes big mtd (searchOffset mtd from' k))
    (fun _ hk => findRootfsTurn_passes hk) fun _ hk => findRootfsTurn_not_passes hk

theorem findRootfs_exists_returns_iff {from' : Nat} :
    (∃ result, Loop.Returns (findRootfsTurn big mtd (mtd.size % 2 ^ 32)) from' result) ↔
      ∃ k, ¬ Passes big mtd (searchOffset mtd from' k) :=
  Loop.exists_returns_iff_of_states (searchOffset mtd from') (fun k => Passes big mtd (searchOffset mtd from' k))
    (fun _ hk => findRootfsTurn_passes hk) fun _ hk => findRootfsTurn_not_passes hk

theorem findRootfs_ok_iff {from' r : Nat} {type : PartType} :
    Loop.Returns (findRootfsTurn big mtd (mtd.size % 2 ^ 32)) from' (.ok (r, type)) ↔
      ∃ k, MeetsAt big mtd from' k ∧ searchOffset mtd from' k = r ∧ mtdCheckRootfsMagic big mtd r = .ok type := by
  rw [findRootfs_returns_iff]
  refine exists_congr fun k => ?_
  rw [findRootfsTurn_ok_iff]
  constructor
  · rintro ⟨hbefore, hlt, rfl, htype⟩
    exact ⟨⟨hlt, ⟨type, htype⟩, hbefore⟩, rfl, htype⟩
  · rintro ⟨hmeets, rfl, htype⟩
    exact ⟨hmeets.before, hmeets.inside, rfl, htype⟩

/-! ### Before and after the search starts over -/

theorem searchOffset_eq {from' k : Nat} (hk : 0 < k)
    (hlt : from' / mtd.erasesize * mtd.erasesize + k * mtd.erasesize < 2 ^ 32) :
    searchOffset mtd from' k = from' / mtd.erasesize * mtd.erasesize + k * mtd.erasesize := by
  obtain ⟨k, rfl⟩ : ∃ n, k = n + 1 := ⟨k - 1, by omega⟩
  induction k with
  | zero =>
      rw [Nat.zero_add, Nat.one_mul] at hlt ⊢
      rw [searchOffset, searchOffset, mtdNextEb, addSize, mtdRounddownToEb, Nat.mod_eq_of_lt hlt]
  | succ k ih =>
      rw [Nat.add_mul (k + 1), Nat.one_mul, ← Nat.add_assoc] at hlt ⊢
      have hdvd : mtd.erasesize ∣ from' / mtd.erasesize * mtd.erasesize + (k + 1) * mtd.erasesize :=
        Dvd.dvd.add (Nat.dvd_mul_left _ _) (Nat.dvd_mul_left _ _)
      rw [searchOffset, ih (by omega) (by omega), mtdNextEb, mtdRounddownToEb, Mtd.rounddown_dvd hdvd, addSize,
        Nat.mod_eq_of_lt hlt]

/-- After starting over, the search finds nothing at or behind its start, the first block apart. -/
theorem MeetsAt.lt_of_wrap {from' k : Nat} (h : MeetsAt big mtd from' k) (hfrom : from' < 2 ^ 32)
    (hwrap : 2 ^ 32 ≤ from' / mtd.erasesize * mtd.erasesize + k * mtd.erasesize) :
    searchOffset mtd from' k < from' ∨ searchOffset mtd from' k < mtd.erasesize := by
  have hle : from' / mtd.erasesize * mtd.erasesize ≤ from' := Nat.div_mul_le_self from' mtd.erasesize
  obtain ⟨n, rfl⟩ : ∃ n, k = n + 1 := by
    refine ⟨k - 1, ?_⟩
    rcases Nat.eq_zero_or_pos k with rfl | hpos
    · omega
    · omega
  have hprior : searchOffset mtd from' n < 2 ^ 32 :=
    (h.before n (Nat.lt_succ_self n)).1.trans (Nat.mod_lt _ (by omega))
  rcases (mtdNextEb_cases hprior : _ < mtd.erasesize ∨ _) with hsmall | hdvd
  · exact .inr hsmall
  · refine .inl ?_
    by_contra hge
    change mtd.erasesize ∣ searchOffset mtd from' (n + 1) at hdvd
    -- a boundary behind the start was looked at before
    obtain ⟨m, hm⟩ : ∃ m, searchOffset mtd from' (n + 1) =
        from' / mtd.erasesize * mtd.erasesize + m * mtd.erasesize := by
      obtain ⟨q, hq⟩ := hdvd
      have hdiv : from' / mtd.erasesize ≤ q := by
        refine Nat.div_le_of_le_mul ?_
        omega
      refine ⟨q - from' / mtd.erasesize, ?_⟩
      rw [hq, ← Nat.add_mul, Nat.add_sub_cancel' hdiv, Nat.mul_comm]
    have hlimit : searchOffset mtd from' (n + 1) < 2 ^ 32 := h.inside.trans (Nat.mod_lt _ (by omega))
    have hearly : m < n + 1 := by
      by_contra hlate
      have := Nat.mul_le_mul_right mtd.erasesize (Nat.le_of_not_lt hlate)
      omega
    have hsame : searchOffset mtd from' m = searchOffset mtd from' (n + 1) := by
      rcases Nat.eq_zero_or_pos m with rfl | hpos
      · rw [Nat.zero_mul] at hm
        rw [searchOffset]
        omega
      · rw [searchOffset_eq hpos (hm ▸ hlimit), hm]
    exact (h.before m hearly).2 (hsame ▸ h.rootfs)

/-! ### Erase sizes -/

theorem erasesize64K_pos : 0 < 0x10000 := by decide

theorem erasesize64K_lt : 0x10000 < 2 ^ 32 := by decide

end Immwrt.Mtdsplit
