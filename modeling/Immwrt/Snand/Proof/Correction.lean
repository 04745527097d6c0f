import Immwrt.Snand.AutoOob
import Immwrt.Snand.Proof.Ecc

/-!
# What a read with error correction gives

The check of a transfer goes from sector to sector. What it returns depends on the transfer only, never on
what was in the page cache before; where it returns no error, every sector is as the controller corrected it
or, if the controller could not, has its protected bits set.
-/

namespace Immwrt.Snand

open BitCount

namespace Geometry

variable {g : Geometry} {base : Nat} {strength : Byte} {t : Transfer} {pageCache : Buf}

/-! ### Sectors of a transfer -/

/-- The sector of a place in the formatted page cache. -/
def sectorOf (g : Geometry) (y : Nat) : Nat :=
  if y < g.writesize then y / g.sectorSize else (y - g.writesize) / g.fdmSize

/-- The page cache when sector `i` is checked. -/
def sectorCache (g : Geometry) (t : Transfer) (i : Nat) : Buf :=
  memcpy (g.readCache t.decoded false fun _ => 0) (g.eccPtr i) t.seen
    (i * g.rawSectorSize + g.sectorSize + g.fdmSize) g.eccBytes

/-- The zero bits of a sector that the controller could not correct. -/
def sectorZeros (g : Geometry) (strength : Byte) (t : Transfer) (i : Nat) : Nat :=
  zeroCount (g.sectorCache t i) (g.protectedBits strength i)

/-- The bits of a sector that are corrected, if they can be. -/
def sectorFlips (g : Geometry) (strength : Byte) (t : Transfer) (i : Nat) : Option Nat :=
  if t.errnum i ≤ strength.toNat then some (t.errnum i)
  else if g.sectorZeros strength t i ≤ strength.toNat then some (g.sectorZeros strength t i)
  else none

/-- The parity of the sector is needed and does not fit the memory it is to be read into. -/
def Unsupported (g : Geometry) (strength : Byte) (t : Transfer) (i : Nat) : Prop :=
  strength.toNat < t.errnum i ∧ snfGpramSize < 4 + g.eccBytes

instance (i : Nat) : Decidable (g.Unsupported strength t i) := inferInstanceAs (Decidable (_ ∧ _))

theorem sectorOf_data {i j : Nat} (hi : i < g.eccSteps) (hj : j < g.sectorSize) :
    g.sectorOf (i * g.sectorSize + j) = i := by
  have hlt : i * g.sectorSize + j < g.writesize := by
    have := Nat.mul_le_mul_right g.sectorSize hi
    rw [Nat.succ_mul] at this
    rw [writesize]
    omega
  rw [sectorOf, if_pos hlt, Nat.mul_comm, Nat.mul_add_div g.sector_pos, Nat.div_eq_of_lt hj, Nat.add_zero]

theorem sectorOf_fdm {i j : Nat} (hj : j < g.fdmSize) : g.sectorOf (g.writesize + (i * g.fdmSize + j)) = i := by
  rw [sectorOf, if_neg (by omega), Nat.add_sub_cancel_left, Nat.mul_comm, Nat.mul_add_div g.fdm_pos,
    Nat.div_eq_of_lt hj, Nat.add_zero]

theorem sectorOf_lt {y : Nat} (hy : y < g.formattedSize) : g.sectorOf y < g.eccSteps := by
  rcases formatted_cases hy with ⟨i, j, hi, hj, -, rfl, -⟩ | ⟨i, j, hi, hj, -, rfl, -⟩
  · rw [sectorOf_data hi hj]
    exact hi
  · rw [sectorOf_fdm hj]
    exact hi

/-- Of the bits that a sector protects, those before the parity are its own. -/
theorem sectorOf_of_mem {i y k : Nat} (hi : i < g.eccSteps) (hy : y < g.formattedSize)
    (hmem : (y, k) ∈ g.protectedBits strength i) : g.sectorOf y = i := by
  have hecc := g.fdmEcc_le
  rw [protectedBits, Finset.mem_union, Finset.mem_union, mem_bitRun, mem_bitRun, mem_bitRun] at hmem
  rcases hmem with (⟨hk, hle, hlt⟩ | ⟨hk, hle, hlt⟩) | ⟨-, hle, -⟩
  · rw [dataPtr] at hle hlt
    obtain ⟨j, rfl⟩ := Nat.exists_eq_add_of_le hle
    exact sectorOf_data hi (by omega)
  · rw [fdmPtr] at hle hlt
    obtain ⟨j, rfl⟩ := Nat.exists_eq_add_of_le hle
    rw [Nat.add_assoc]
    exact sectorOf_fdm (by omega)
  · rw [formattedSize] at hy
    rw [eccPtr] at hle
    omega

/-! ### The check of a sector -/

/-- The sectors that are still to be checked are as the controller handed them on. -/
def Loaded (g : Geometry) (t : Transfer) (sectors : List Nat) (pageCache : Buf) : Prop :=
  ∀ y, y < g.formattedSize → g.sectorOf y ∈ sectors → pageCache y = t.decoded (g.rawPos y)

/-- The sector has been checked, and is right as far as can be. -/
def Corrected (g : Geometry) (strength : Byte) (t : Transfer) (i : Nat) (pageCache : Buf) : Prop :=
  ∀ y, y < g.formattedSize → g.sectorOf y = i → ∀ k, k < 8 → (pageCache y).getLsbD k =
    if strength.toNat < t.errnum i ∧ (y, k) ∈ g.protectedBits strength i then true
    else (t.decoded (g.rawPos y)).getLsbD k

theorem Corrected.congr {i : Nat} {pageCache' : Buf} (h : g.Corrected strength t i pageCache)
    (hsame : ∀ y, y < g.formattedSize → g.sectorOf y = i → pageCache' y = pageCache y) :
    g.Corrected strength t i pageCache' := by
  intro y hy hsector k hk
  rw [hsame y hy hsector]
  exact h y hy hsector k hk

theorem Loaded.corrected {i : Nat} {sectors : List Nat} (h : g.Loaded t (i :: sectors) pageCache)
    (hle : t.errnum i ≤ strength.toNat) : g.Corrected strength t i pageCache := by
  intro y hy hsector k hk
  rw [h y hy (hsector ▸ List.mem_cons_self), if_neg fun hlt => absurd hlt.1 (not_lt.mpr hle)]

theorem Loaded.tail {i : Nat} {sectors : List Nat} (h : g.Loaded t (i :: sectors) pageCache) :
    g.Loaded t sectors pageCache := fun y hy hmem => h y hy (List.mem_cons_of_mem i hmem)

/-- The parity of a sector lies behind the formatted page. -/
theorem readEccParity_formatted (t : Transfer) (i : Nat) (pageCache : Buf) {y : Nat} (hy : y < g.formattedSize) :
    (g.readEccParity t i pageCache).2 y = pageCache y := by
  rw [formattedSize] at hy
  rw [readEccParity]
  split
  · rfl
  · dsimp only
    rw [memcpy, if_neg]
    rw [eccPtr]
    omega

/-- With the parity read, the sector is as its transfer has it. -/
theorem zeroCount_sector (hfits : g.eccBits strength ≤ 8 * g.eccBytes) {i : Nat} (hi : i < g.eccSteps)
    {sectors : List Nat} (h : g.Loaded t (i :: sectors) pageCache) :
    zeroCount (memcpy pageCache (g.eccPtr i) t.seen (i * g.rawSectorSize + g.sectorSize + g.fdmSize) g.eccBytes)
      (g.protectedBits strength i) = g.sectorZeros strength t i := by
  apply zeroCount_congr
  rintro ⟨y, k⟩ hmem
  congr 1
  change memcpy _ _ _ _ _ y = memcpy _ _ _ _ _ y
  rw [memcpy, memcpy]
  split
  · rfl
  · next hparity =>
    have hy : y < g.formattedSize := by
      have hdata := Nat.mul_le_mul_right g.sectorSize hi
      have hfdm := Nat.mul_le_mul_right g.fdmSize hi
      have hecc := g.fdmEcc_le
      rw [Nat.succ_mul] at hdata hfdm
      rw [protectedBits, Finset.mem_union, Finset.mem_union, mem_bitRun, mem_bitRun, mem_bitRun, dataPtr,
        fdmPtr] at hmem
      rw [formattedSize, writesize] at *
      omega
    rw [readCache_rawPos _ _ hy]
    exact h y hy (sectorOf_of_mem hi hy hmem ▸ List.mem_cons_self)

theorem fixup_sector (base : Nat) (hfits : g.eccBits strength ≤ 8 * g.eccBytes) {i : Nat} (hi : i < g.eccSteps)
    {sectors : List Nat} (h : g.Loaded t (i :: sectors) pageCache) (hlt : strength.toNat < t.errnum i) :
    let result := g.fixupEmptySector base strength i
      (memcpy pageCache (g.eccPtr i) t.seen (i * g.rawSectorSize + g.sectorSize + g.fdmSize) g.eccBytes)
    result.1 = checked strength (g.sectorZeros strength t i) ∧
    (∀ y, y < g.formattedSize → g.sectorOf y ≠ i → result.2 y = pageCache y) ∧
    (g.sectorZeros strength t i ≤ strength.toNat → g.Corrected strength t i result.2) := by
  intro result
  have hsame {y : Nat} (hy : y < g.formattedSize) :
      memcpy pageCache (g.eccPtr i) t.seen (i * g.rawSectorSize + g.sectorSize + g.fdmSize) g.eccBytes y
        = pageCache y := by
    rw [memcpy, if_neg]
    rw [formattedSize] at hy
    rw [eccPtr]
    omega
  obtain ⟨herror, hcount⟩ := fixupEmptySector_spec g base strength hi
    (memcpy pageCache (g.eccPtr i) t.seen (i * g.rawSectorSize + g.sectorSize + g.fdmSize) g.eccBytes)
  rw [zeroCount_sector hfits hi h] at herror hcount
  by_cases hle : g.sectorZeros strength t i ≤ strength.toNat
  · obtain ⟨hret, hset⟩ := hcount hle
    refine ⟨hret.trans (checked_of_le hle).symm, ?_, ?_⟩
    · intro y hy hne
      apply BitVec.eq_of_getLsbD_eq
      intro k hk
      rw [hset y k hk, if_neg fun hmem => hne (sectorOf_of_mem hi hy hmem), hsame hy]
    · intro _ y hy hsector k hk
      rw [hset y k hk, hsame hy, h y hy (hsector ▸ List.mem_cons_self)]
      exact if_congr (and_iff_right hlt).symm rfl rfl
  · have hresult : result = (ebadmsg, _) := herror (not_le.mp hle)
    rw [hresult]
    exact ⟨(checked_of_lt (not_le.mp hle)).symm, fun y hy _ => hsame hy, fun hle' => absurd hle' hle⟩

/-! ### The check of all sectors -/

/-- The most bits that were corrected in a sector. -/
def maxFlips (g : Geometry) (strength : Byte) (t : Transfer) (sectors : List Nat) (maxBitflips : Int) : Int :=
  sectors.foldl (fun m i => max m ((g.sectorFlips strength t i).getD 0 : Nat)) maxBitflips

/-- What a check of sectors returns. -/
def checkRet (g : Geometry) (strength : Byte) (t : Transfer) (sectors : List Nat) (ret maxBitflips : Int) : Int :=
  if ∃ i ∈ sectors, g.Unsupported strength t i then enotsupp
  else if ret = ebadmsg ∨ ∃ i ∈ sectors, g.sectorFlips strength t i = none then ebadmsg
  else g.maxFlips strength t sectors maxBitflips

section Ret

variable {i : Nat} {sectors : List Nat} {ret maxBitflips : Int}

theorem checkRet_unsupported (h : g.Unsupported strength t i) :
    g.checkRet strength t (i :: sectors) ret maxBitflips = enotsupp := if_pos ⟨i, List.mem_cons_self, h⟩

/-- A sector that can be corrected. -/
theorem checkRet_some (h : ¬ g.Unsupported strength t i) {n : Nat}
    (hflips : g.sectorFlips strength t i = some n) :
    g.checkRet strength t (i :: sectors) ret maxBitflips =
      g.checkRet strength t sectors ret (max maxBitflips n) := by
  have hmax : g.maxFlips strength t (i :: sectors) maxBitflips =
      g.maxFlips strength t sectors (max maxBitflips n) := by
    rw [maxFlips, List.foldl_cons, hflips, Option.getD_some, maxFlips]
  rw [checkRet, checkRet, hmax]
  simp [h, hflips]

theorem checkRet_none (h : ¬ g.Unsupported strength t i) (hflips : g.sectorFlips strength t i = none) :
    g.checkRet strength t (i :: sectors) ret maxBitflips = g.checkRet strength t sectors ebadmsg maxBitflips := by
  rw [checkRet, checkRet]
  simp [h, hflips]

end Ret

theorem checkRet_ebadmsg_neg (sectors : List Nat) (maxBitflips : Int) :
    g.checkRet strength t sectors ebadmsg maxBitflips < 0 := by
  rw [checkRet]
  split
  · decide
  · rw [if_pos (.inl rfl)]
    decide

/-- A check of sectors returns what the transfer says. Sectors that it does not check stay, and if it returns no
error, the others are corrected. -/
structure Checks (g : Geometry) (strength : Byte) (t : Transfer) (sectors : List Nat) (pageCache : Buf)
    (ret : Int) (result : Int × Buf) : Prop where
  returns : result.1 = ret
  other : ∀ y, y < g.formattedSize → g.sectorOf y ∉ sectors → result.2 y = pageCache y
  corrected : 0 ≤ ret → ∀ i ∈ sectors, g.Corrected strength t i result.2

/-- A sector before the others. -/
theorem Checks.cons {i : Nat} {sectors : List Nat} {pageCache' : Buf} {ret : Int} {result : Int × Buf}
    (h : g.Checks strength t sectors pageCache' ret result) (hi : i ∉ sectors)
    (hother : ∀ y, y < g.formattedSize → g.sectorOf y ≠ i → pageCache' y = pageCache y)
    (hcorrected : 0 ≤ ret → g.Corrected strength t i pageCache') :
    g.Checks strength t (i :: sectors) pageCache ret result := by
  refine ⟨h.returns, ?_, ?_⟩
  · intro y hy hmem
    rw [List.mem_cons, not_or] at hmem
    rw [h.other y hy hmem.2, hother y hy hmem.1]
  · intro hret k hk
    rcases List.mem_cons.mp hk with rfl | hk
    · exact (hcorrected hret).congr fun y hy hsector => h.other y hy (hsector ▸ hi)
    · exact h.corrected hret k hk

theorem checkEccLoop_checks (hfits : g.eccBits strength ≤ 8 * g.eccBytes) {sectors : List Nat}
    (hlt : ∀ i ∈ sectors, i < g.eccSteps) (hnodup : sectors.Nodup) (h : g.Loaded t sectors pageCache)
    {ret maxBitflips : Int} (hret : ret = 0 ∨ ret = ebadmsg) (hmax : 0 ≤ maxBitflips) :
    g.Checks strength t sectors pageCache (g.checkRet strength t sectors ret maxBitflips)
      (g.checkEccLoop base strength t sectors ret maxBitflips pageCache) := by
  induction sectors generalizing ret maxBitflips pageCache with
  | nil =>
    refine ⟨?_, fun _ _ _ => rfl, fun _ i hi => absurd hi List.not_mem_nil⟩
    rcases hret with rfl | rfl
    · simp [checkEccLoop, checkRet, maxFlips, ebadmsg]
    · simp [checkEccLoop, checkRet, ebadmsg]
  | cons i sectors ih =>
    obtain ⟨hi, hlt⟩ := List.forall_mem_cons.mp hlt
    obtain ⟨hnot, hnodup⟩ := List.nodup_cons.mp hnodup
    rw [checkEccLoop, checkDecodeError]
    by_cases hle : t.errnum i ≤ strength.toNat
    · -- the controller has corrected the sector
      have hflips : g.sectorFlips strength t i = some (t.errnum i) := if_pos hle
      have hsupported : ¬ g.Unsupported strength t i := fun h => absurd h.1 (not_lt.mpr hle)
      have hmax' : (if maxBitflips < (t.errnum i : Int) then (t.errnum i : Int) else maxBitflips)
          = max maxBitflips (t.errnum i) := by
        rw [max_def_lt]
      rw [if_pos hle]
      dsimp only
      rw [if_pos (Int.natCast_nonneg _), hmax', checkRet_some hsupported hflips]
      exact (ih hlt hnodup h.tail hret (le_max_of_le_left hmax)).cons hnot (fun _ _ _ => rfl)
        fun _ => h.corrected hle
    · have hfailed := not_le.mp hle
      rw [if_neg hle]
      dsimp only
      rw [if_neg (by decide), readEccParity]
      by_cases hsmall : snfGpramSize < 4 + g.eccBytes
      · rw [if_pos hsmall, checkRet_unsupported ⟨hfailed, hsmall⟩]
        exact ⟨rfl, fun _ _ _ => rfl, fun hret => absurd hret (by decide)⟩
      · have hsupported : ¬ g.Unsupported strength t i := fun h => hsmall h.2
        have hfixup := fixup_sector base hfits hi h hfailed
        rw [if_neg hsmall]
        dsimp only at hfixup ⊢
        rw [if_neg (fun hne => hne rfl)]
        generalize g.fixupEmptySector base strength i _ = result at hfixup ⊢
        obtain ⟨rc, pageCache'⟩ := result
        obtain ⟨hrc, hother, hcorrected⟩ := hfixup
        dsimp only at hrc hother hcorrected ⊢
        have htail : g.Loaded t sectors pageCache' := by
          intro y hy hmem
          rw [hother y hy fun hsector => hnot (hsector ▸ hmem)]
          exact h.tail y hy hmem
        by_cases hzeros : g.sectorZeros strength t i ≤ strength.toNat
        · have hflips : g.sectorFlips strength t i = some (g.sectorZeros strength t i) := by
            rw [sectorFlips, if_neg hle, if_pos hzeros]
          rw [checked_of_le hzeros] at hrc
          rw [if_neg (by omega), checkRet_some hsupported hflips]
          split
          · have hmax' : (if maxBitflips < rc then rc else maxBitflips)
                = max maxBitflips (g.sectorZeros strength t i) := by
              rw [max_def_lt, hrc]
            rw [hmax']
            exact (ih hlt hnodup htail hret (le_max_of_le_left hmax)).cons hnot hother fun _ => hcorrected hzeros
          · next hzero =>
            have hmax' : max maxBitflips (g.sectorZeros strength t i) = maxBitflips := by omega
            rw [hmax']
            exact (ih hlt hnodup htail hret hmax).cons hnot hother fun _ => hcorrected hzeros
        · have hflips : g.sectorFlips strength t i = none := by
            rw [sectorFlips, if_neg hle, if_neg hzeros]
          rw [checked_of_lt (not_le.mp hzeros)] at hrc
          rw [if_pos (hrc ▸ by decide), checkRet_none hsupported hflips]
          exact (ih hlt hnodup htail (.inr rfl) hmax).cons hnot hother
            fun hret => absurd hret (not_le.mpr (checkRet_ebadmsg_neg sectors maxBitflips))

/-! ### Transfers -/

/-- The controller or the driver finds every sector right as it is. -/
def Clean (g : Geometry) (strength : Byte) (t : Transfer) : Prop :=
  ∀ i, i < g.eccSteps → g.sectorFlips strength t i = some 0

instance : Decidable (g.Clean strength t) :=
  inferInstanceAs (Decidable (∀ i, i < g.eccSteps → g.sectorFlips strength t i = some 0))

/-- A sector cannot be corrected, so that the page is read again. -/
def Unreadable (g : Geometry) (strength : Byte) (t : Transfer) : Prop :=
  (∃ i, i < g.eccSteps ∧ g.sectorFlips strength t i = none) ∧
    ¬ ∃ i, i < g.eccSteps ∧ g.Unsupported strength t i

instance : Decidable (g.Unreadable strength t) := inferInstanceAs (Decidable (_ ∧ _))

theorem maxFlips_spec (sectors : List Nat) (maxBitflips : Int) :
    maxBitflips ≤ g.maxFlips strength t sectors maxBitflips ∧
    (0 ≤ maxBitflips → (g.maxFlips strength t sectors maxBitflips = 0 ↔
      maxBitflips = 0 ∧ ∀ i ∈ sectors, (g.sectorFlips strength t i).getD 0 = 0)) := by
  induction sectors generalizing maxBitflips with
  | nil => exact ⟨le_rfl, fun _ => ⟨fun h => ⟨h, fun _ hi => absurd hi List.not_mem_nil⟩, fun h => h.1⟩⟩
  | cons i sectors ih =>
    obtain ⟨hle, hzero⟩ := ih (max maxBitflips ((g.sectorFlips strength t i).getD 0 : Nat))
    refine ⟨(le_max_left _ _).trans hle, fun hmax => ?_⟩
    refine (hzero (hmax.trans (le_max_left _ _))).trans ?_
    rw [List.forall_mem_cons, ← and_assoc]
    apply and_congr_left
    intro _
    omega

theorem readTransfer_checks (base : Nat) (hfits : g.eccBits strength ≤ 8 * g.eccBytes) (t : Transfer)
    (pageCache : Buf) :
    g.Checks strength t (List.range g.eccSteps) (g.readCache t.decoded false pageCache)
      (g.checkRet strength t (List.range g.eccSteps) 0 0) (g.readTransfer base strength t pageCache) :=
  checkEccLoop_checks hfits (fun _ hi => List.mem_range.mp hi) List.nodup_range
    (fun _ hy _ => readCache_rawPos _ _ hy) (.inl rfl) le_rfl

theorem checkRet_ebadmsg :
    g.checkRet strength t (List.range g.eccSteps) 0 0 = ebadmsg ↔ g.Unreadable strength t := by
  have hmax : 0 ≤ g.maxFlips strength t (List.range g.eccSteps) 0 := (maxFlips_spec _ _).1
  rw [checkRet, Unreadable]
  simp only [List.mem_range]
  split
  · next h => exact iff_of_false (by decide) fun hun => hun.2 h
  · next h =>
    rw [and_iff_left h]
    split
    · next hbad => exact iff_of_true rfl (hbad.resolve_left (by decide))
    · next hbad =>
      refine iff_of_false ?_ fun hnone => hbad (.inr hnone)
      intro heq
      rw [heq] at hmax
      exact absurd hmax (by decide)

/-- A transfer that can be read needed no correction if and only if it is clean. -/
theorem checkRet_eq_zero (h : 0 ≤ g.checkRet strength t (List.range g.eccSteps) 0 0) :
    g.checkRet strength t (List.range g.eccSteps) 0 0 = 0 ↔ g.Clean strength t := by
  rw [checkRet] at h ⊢
  split at h
  · exact absurd h (by decide)
  · next hsupported =>
    rw [if_neg hsupported]
    split at h
    · exact absurd h (by decide)
    · next hflips =>
      rw [if_neg hflips, (maxFlips_spec _ _).2 le_rfl, and_iff_right rfl]
      simp only [not_or, not_exists, not_and, List.mem_range] at hflips
      constructor
      · intro hzero i hi
        obtain ⟨n, hn⟩ := Option.ne_none_iff_exists'.mp (hflips.2 i hi)
        have := hzero i (List.mem_range.mpr hi)
        rw [hn, Option.getD_some] at this
        rw [hn, this]
      · intro hclean i hi
        rw [hclean i (List.mem_range.mp hi), Option.getD_some]

/-! ### Retries -/

/-- The transfer that the retries end with. -/
def lastTransfer (g : Geometry) (strength : Byte) (transfers : Nat → Transfer) : Nat → Nat → Transfer
  | 0, retryCnt => transfers retryCnt
  | left + 1, retryCnt =>
    if g.Unreadable strength (transfers retryCnt) then lastTransfer g strength transfers left (retryCnt + 1)
    else transfers retryCnt

/-- The transfer that decides a read. -/
def decisive (g : Geometry) (strength : Byte) (transfers : Nat → Transfer) : Transfer :=
  g.lastTransfer strength transfers 16 0

theorem readRetry_eq (base : Nat) (hfits : g.eccBits strength ≤ 8 * g.eccBytes) (transfers : Nat → Transfer)
    (left retryCnt : Nat) (pageCache : Buf) : ∃ pageCache', g.readRetry base strength transfers left retryCnt pageCache
      = g.readTransfer base strength (g.lastTransfer strength transfers left retryCnt) pageCache' := by
  induction left generalizing retryCnt pageCache with
  | zero => exact ⟨pageCache, rfl⟩
  | succ left ih =>
    have hchecks := readTransfer_checks base hfits (transfers retryCnt) pageCache
    have hbad : (g.readTransfer base strength (transfers retryCnt) pageCache).1 = ebadmsg
        ↔ g.Unreadable strength (transfers retryCnt) := by
      rw [hchecks.returns]
      exact checkRet_ebadmsg
    rw [readRetry, lastTransfer]
    dsimp only
    by_cases h : g.Unreadable strength (transfers retryCnt)
    · rw [if_pos (hbad.mpr h), if_pos h]
      exact ih (retryCnt + 1) _
    · rw [if_neg (mt hbad.mp h), if_neg h]
      exact ⟨pageCache, rfl⟩

/-! ### What the controller promises -/

/-- A transfer of a page that was programmed as `page`, with no more wrong bits in any sector than the engine
corrects, and none that no parity protects. The controller fails only at a sector that it did not encode. -/
structure Faithful (g : Geometry) (strength : Byte) (t : Transfer) (page : Buf) (encoded : Bool) : Prop where
  corrected : ∀ y, y < g.formattedSize → t.errnum (g.sectorOf y) ≤ strength.toNat →
    t.decoded (g.rawPos y) = page (g.rawPos y)
  failed : ∀ y, y < g.formattedSize → strength.toNat < t.errnum (g.sectorOf y) → encoded = false ∧
    ∀ k, k < 8 → (y, k) ∉ g.protectedBits strength (g.sectorOf y) →
      (t.decoded (g.rawPos y)).getLsbD k = (page (g.rawPos y)).getLsbD k

/-- The protected bits of a page are set. -/
def Blank (g : Geometry) (strength : Byte) (page : Buf) : Prop :=
  ∀ y k, y < g.formattedSize → k < 8 → (y, k) ∈ g.protectedBits strength (g.sectorOf y) →
    (page (g.rawPos y)).getLsbD k = true

theorem Faithful.corrected_eq {page : Buf} {encoded : Bool} (h : g.Faithful strength t page encoded)
    (hblank : encoded = false → g.Blank strength page)
    (hcorrected : ∀ i, i < g.eccSteps → g.Corrected strength t i pageCache)
    {y : Nat} (hy : y < g.formattedSize) : pageCache y = page (g.rawPos y) := by
  apply BitVec.eq_of_getLsbD_eq
  intro k hk
  rw [hcorrected (g.sectorOf y) (sectorOf_lt hy) y hy rfl k hk]
  by_cases hlt : strength.toNat < t.errnum (g.sectorOf y)
  · obtain ⟨hencoded, hsame⟩ := h.failed y hy hlt
    by_cases hmem : (y, k) ∈ g.protectedBits strength (g.sectorOf y)
    · rw [if_pos ⟨hlt, hmem⟩, hblank hencoded y k hy hk hmem]
    · rw [if_neg fun h => hmem h.2, hsame k hk hmem]
  · rw [if_neg fun h => hlt h.1, h.corrected y hy (not_lt.mp hlt)]

/-! ### Pages -/

/-- What a read of a page returns depends on its transfers only. -/
def pageRet (g : Geometry) (strength : Byte) (transfers : Nat → Transfer) : Int :=
  g.checkRet strength (g.decisive strength transfers) (List.range g.eccSteps) 0 0

theorem readPage_ret (base : Nat) (hfits : g.eccBits strength ≤ 8 * g.eccBytes) (transfers : Nat → Transfer)
    (buf oob : Option Buf) (pageCache : Buf) :
    (g.readPage base strength transfers buf oob pageCache).1 = g.pageRet strength transfers := by
  obtain ⟨pageCache', hretry⟩ := readRetry_eq base hfits transfers 16 0 pageCache
  have hchecks := readTransfer_checks base hfits (g.decisive strength transfers) pageCache'
  rw [readPage, hretry]
  dsimp only
  split
  · exact hchecks.returns
  · exact hchecks.returns

/-- A read that returns no error fills the buffers with what was programmed, less the swaps. -/
theorem readPage_bufs (base : Nat) (hmark : (g.eccSteps - 1) * g.sparePerSector < g.sectorSize)
    (hfits : g.eccBits strength ≤ 8 * g.eccBytes) {transfers : Nat → Transfer} {page : Buf} {encoded : Bool}
    (h : g.Faithful strength (g.decisive strength transfers) page encoded)
    (hblank : encoded = false → g.Blank strength page) (hret : 0 ≤ g.pageRet strength transfers) (buf : Option Buf)
    (oob pageCache : Buf) :
    ∃ oob', (g.readPage base strength transfers buf (some oob) pageCache).2.1.2 = some oob' ∧
      ∀ x, x < g.eccSteps * g.fdmSize →
        oob' x = g.fdmBmSwap (g.bmSwap fun y => page (g.rawPos y)) (g.writesize + x) := by
  obtain ⟨pageCache', hretry⟩ := readRetry_eq base hfits transfers 16 0 pageCache
  have hchecks := readTransfer_checks base hfits (g.decisive strength transfers) pageCache'
  rw [readPage, hretry]
  dsimp only
  rw [if_neg]
  swap
  · change ¬ ((g.readTransfer base strength (g.decisive strength transfers) pageCache').1 < 0 ∧ _)
    rw [hchecks.returns]
    exact fun hneg => absurd hneg.1 (not_lt.mpr hret)
  refine ⟨_, rfl, ?_⟩
  intro x hx
  change memcpy _ _ _ _ _ x = _
  rw [memcpy, if_pos (by omega), Nat.sub_zero]
  apply fdmBmSwap_congr hmark _ (by unfold formattedSize; omega)
  intro z hz
  apply bmSwap_congr hmark _ hz
  intro w hw
  exact h.corrected_eq hblank (fun i hi => hchecks.corrected hret i (List.mem_range.mpr hi)) hw

end Geometry

end Immwrt.Snand
