import Immwrt.Mtdsplit.Fit
import Immwrt.Mtdsplit.Proof.Rootfs

/-!
# FIT layouts

The kernel partition ends at the first block boundary behind the image, and the search for the root file system
starts at the end of the image itself. What goes wrong goes wrong between the two, or past the last offset of 32
bits, or where there is no image.
-/

namespace Immwrt.Mtdsplit

variable {big : Bool} {mtd : Mtd} {stale : List Byte}

/-! ### Images -/

theorem FitAt.le_size {o total : Nat} (h : FitAt mtd o total) : o + sizeofFdtHeader ≤ mtd.size := by
  obtain ⟨hdr, hread, -⟩ := h
  exact readFull_le hread

theorem FitAt.unique {o total total' : Nat} (h : FitAt mtd o total) (h' : FitAt mtd o total') :
    total = total' := by
  obtain ⟨hdr, hread, -, rfl⟩ := h
  obtain ⟨hdr', hread', -, rfl⟩ := h'
  rw [hread] at hread'
  rw [Except.ok.inj hread']

/-! ### The scan -/

/-- The block at an offset can be read, and no image starts there. -/
def NoImage (mtd : Mtd) (o : Nat) : Prop :=
  ∃ hdr, readFull mtd o sizeofFdtHeader = .ok hdr ∧ ofBe (hdr.take 4) ≠ ofDtHeader

/-- The scan finds no image in its first turns, and it can read all headers. -/
def Clear (mtd : Mtd) (k : Nat) : Prop := ∀ j < k, NoImage mtd (scanOffset mtd j)

/-- The header that was read last before a turn. -/
def headerBefore (mtd : Mtd) (stale : List Byte) : Nat → List Byte
  | 0 => stale
  | k + 1 =>
    match readFull mtd (scanOffset mtd k) sizeofFdtHeader with
    | .ok hdr => hdr
    | .error _ => []

theorem NoImage.not_fitAt {o total : Nat} (h : NoImage mtd o) : ¬ FitAt mtd o total := by
  obtain ⟨hdr, hread, hmagic⟩ := h
  rintro ⟨hdr', hread', hmagic', -⟩
  rw [hread] at hread'
  obtain rfl := Except.ok.inj hread'
  exact hmagic hmagic'

/-- The scan goes past a block without an image. -/
theorem fitTurn_noImage {k : Nat} (hno : NoImage mtd (scanOffset mtd k)) :
    fitTurn mtd (scanOffset mtd k, headerBefore mtd stale k) =
      .inr (scanOffset mtd (k + 1), headerBefore mtd stale (k + 1)) := by
  obtain ⟨hdr, hread, hmagic⟩ := hno
  have hroom : addSize (scanOffset mtd k) sizeofFdtHeader ≤ mtd.size := (addSize_le _ _).trans (readFull_le hread)
  rw [fitTurn, if_pos hroom, hread, headerBefore, hread, ← scanOffset_succ]
  exact if_pos hmagic

/-- A turn leaves the scan at an image, at the end, or at a block that cannot be read. -/
theorem fitTurn_leaves {o : Nat} {hdr : List Byte} (h : ¬ NoImage mtd o) :
    ∃ result, fitTurn mtd (o, hdr) = .inl result := by
  rw [fitTurn]
  split
  case isFalse => exact ⟨_, rfl⟩
  case isTrue =>
    cases hread : readFull mtd o sizeofFdtHeader with
    | error err => exact ⟨_, rfl⟩
    | ok bytes =>
        have hmagic : ofBe (bytes.take 4) = ofDtHeader := by
          by_contra hne
          exact h ⟨bytes, hread, hne⟩
        exact ⟨_, if_neg (not_not.2 hmagic)⟩

/-- The scan ends at an image with a header, or where no header is left and the last one remains. -/
def ScanEnd (mtd : Mtd) (stale : List Byte) (k : Nat) (hdr : List Byte) : Prop :=
  (readFull mtd (scanOffset mtd k) sizeofFdtHeader = .ok hdr ∧ ofBe (hdr.take 4) = ofDtHeader) ∨
    (mtd.size < addSize (scanOffset mtd k) sizeofFdtHeader ∧ hdr = headerBefore mtd stale k)

theorem fitTurn_ok_iff {k o : Nat} {hdr : List Byte} :
    fitTurn mtd (scanOffset mtd k, headerBefore mtd stale k) = .inl (.ok (o, hdr)) ↔
      scanOffset mtd k = o ∧ ScanEnd mtd stale k hdr := by
  rw [fitTurn, ScanEnd]
  split
  case isFalse hroom =>
    have hread : ∀ bytes, readFull mtd (scanOffset mtd k) sizeofFdtHeader ≠ .ok bytes := fun bytes hread =>
      hroom ((addSize_le _ _).trans (readFull_le hread))
    constructor
    · rintro h
      obtain ⟨rfl, rfl⟩ := Prod.mk.inj (Except.ok.inj (Sum.inl.inj h))
      exact ⟨rfl, .inr ⟨by omega, rfl⟩⟩
    · rintro ⟨rfl, ⟨hok, -⟩ | ⟨-, rfl⟩⟩
      · exact absurd hok (hread hdr)
      · rfl
  case isTrue hroom =>
    cases hread : readFull mtd (scanOffset mtd k) sizeofFdtHeader with
    | error err =>
        constructor
        · intro h
          cases h
        · rintro ⟨-, ⟨hok, -⟩ | ⟨hend, -⟩⟩
          · cases hok
          · omega
    | ok bytes =>
        dsimp only
        split
        case isTrue hmagic =>
          constructor
          · intro h
            cases h
          · rintro ⟨-, ⟨hok, hmagic'⟩ | ⟨hend, -⟩⟩
            · exact absurd (Except.ok.inj hok ▸ hmagic') hmagic
            · omega
        case isFalse hmagic =>
          constructor
          · intro h
            obtain ⟨rfl, rfl⟩ := Prod.mk.inj (Except.ok.inj (Sum.inl.inj h))
            exact ⟨rfl, .inl ⟨rfl, not_not.1 hmagic⟩⟩
          · rintro ⟨rfl, ⟨hok, -⟩ | ⟨hend, -⟩⟩
            · rw [Except.ok.inj hok]
            · omega

theorem fitScan_ok_iff {o : Nat} {hdr : List Byte} :
    Loop.Returns (fitTurn mtd) (0, stale) (.ok (o, hdr)) ↔
      ∃ k, Clear mtd k ∧ scanOffset mtd k = o ∧ ScanEnd mtd stale k hdr := by
  have hstart : (0, stale) = (scanOffset mtd 0, headerBefore mtd stale 0) := by
    rw [scanOffset, Nat.zero_mul, headerBefore, Nat.zero_mod]
  rw [hstart, Loop.returns_iff_of_states (fun k => (scanOffset mtd k, headerBefore mtd stale k))
    (fun k => NoImage mtd (scanOffset mtd k)) (fun _ hno => fitTurn_noImage hno) fun _ himage =>
    fitTurn_leaves himage]
  exact exists_congr fun k => and_congr_right fun _ => fitTurn_ok_iff

/-! ### The two partitions -/

abbrev kernelPart (mtd : Mtd) (o total : Nat) : Partition :=
  { name := .kernel, offset := o, size := mtdRounddownToEb mtd total + mtd.erasesize }

abbrev rootfsPart (mtd : Mtd) (r : Nat) : Partition :=
  { name := .rootfs, offset := r, size := (mtd.size - r) % 2 ^ 32 }

theorem rootfsPart_stop_le {r : Nat} (hr : r < mtd.size % 2 ^ 32) : (rootfsPart mtd r).stop ≤ mtd.size := by
  have hmod := Nat.mod_le (mtd.size - r) (2 ^ 32)
  have hle := Nat.mod_le mtd.size (2 ^ 32)
  simp only [Partition.stop]
  omega

theorem lt_kernelPart_size (mtd : Mtd) (o total : Nat) : total < (kernelPart mtd o total).size :=
  mtd.lt_next total

/-- What the parser makes of the end of a scan. -/
theorem fitParse_iff {parts : List Partition} :
    (∃ fuel, mtdsplitFitParse big mtd stale fuel = some (.ok parts)) ↔
      ∃ k hdr n, Clear mtd k ∧ ScanEnd mtd stale k hdr ∧ totalsize hdr ≠ 0 ∧
        MeetsAt big mtd (addSize (scanOffset mtd k) (totalsize hdr)) n ∧
        parts = [kernelPart mtd (scanOffset mtd k) (totalsize hdr),
          rootfsPart mtd (searchOffset mtd (addSize (scanOffset mtd k) (totalsize hdr)) n)] := by
  constructor
  · rintro ⟨fuel, hparse⟩
    rw [mtdsplitFitParse] at hparse
    split at hparse
    · cases hparse
    · cases hparse
    · rename_i o hdr hscan
      split at hparse
      · cases hparse
      rename_i htotal
      split at hparse
      · cases hparse
      · cases hparse
      · rename_i r type hsearch
        obtain ⟨k, hclear, rfl, hend⟩ := fitScan_ok_iff.1 ⟨fuel, hscan⟩
        obtain ⟨n, hmeets, rfl, -⟩ := findRootfs_ok_iff.1 ⟨fuel, hsearch⟩
        exact ⟨k, hdr, n, hclear, hend, htotal, hmeets, (Except.ok.inj (Option.some.inj hparse)).symm⟩
  · rintro ⟨k, hdr, n, hclear, hend, htotal, hmeets, rfl⟩
    obtain ⟨type, htype⟩ := hmeets.rootfs
    obtain ⟨fuel, hscan⟩ := fitScan_ok_iff.2 ⟨k, hclear, rfl, hend⟩
    obtain ⟨fuel', hsearch⟩ := findRootfs_ok_iff.2 ⟨n, hmeets, rfl, htype⟩
    have hscan' := Loop.run_mono hscan (Nat.le_max_left fuel fuel')
    have hsearch' := Loop.run_mono hsearch (Nat.le_max_right fuel fuel')
    refine ⟨max fuel fuel', ?_⟩
    rw [mtdsplitFitParse, hscan']
    dsimp only
    rw [if_neg htotal, mtdFindRootfsFrom, hsearch']

theorem fitSound_iff_forall :
    FitSound big mtd stale ↔ ∀ k hdr n, Clear mtd k → ScanEnd mtd stale k hdr → totalsize hdr ≠ 0 →
      MeetsAt big mtd (addSize (scanOffset mtd k) (totalsize hdr)) n →
      FitLayout big mtd (kernelPart mtd (scanOffset mtd k) (totalsize hdr))
        (rootfsPart mtd (searchOffset mtd (addSize (scanOffset mtd k) (totalsize hdr)) n)) := by
  constructor
  · intro hsound k hdr n hclear hend htotal hmeets
    obtain ⟨fuel, hparse⟩ := fitParse_iff.2 ⟨k, hdr, n, hclear, hend, htotal, hmeets, rfl⟩
    obtain ⟨kernel, rootfs, hparts, hlayout⟩ := hsound fuel _ hparse
    obtain ⟨rfl, hrest⟩ := List.cons.inj hparts
    obtain ⟨rfl, -⟩ := List.cons.inj hrest
    exact hlayout
  · intro hlayout fuel parts hparse
    obtain ⟨k, hdr, n, hclear, hend, htotal, hmeets, rfl⟩ := fitParse_iff.1 ⟨fuel, hparse⟩
    exact ⟨_, _, rfl, hlayout k hdr n hclear hend htotal hmeets⟩

/-! ### When they are right -/

/-- The first root file system that the search meets from the end of an image lies behind the end, and the search
has not started over. -/
def Separated (big : Bool) (mtd : Mtd) (stop : Nat) : Prop :=
  ∀ n, MeetsAt big mtd (stop % 2 ^ 32) n →
    0 < n ∧ stop / mtd.erasesize * mtd.erasesize + n * mtd.erasesize < 2 ^ 32

/-- An image is not found at a block boundary again. -/
theorem lt_of_boundary {k total : Nat} (hclear : Clear mtd k) (hfit : FitAt mtd (scanOffset mtd k) total)
    (hdvd : mtd.erasesize ∣ scanOffset mtd k) : k * mtd.erasesize < 2 ^ 32 := by
  by_contra hwrap
  obtain ⟨j, hjk, hsame⟩ := scanOffset_again hdvd (Nat.le_of_not_lt hwrap)
  exact (hclear j hjk).not_fitAt (hsame ▸ hfit)

theorem separated_of_layout {k : Nat} {hdr : List Byte} (hclear : Clear mtd k) (htotal : totalsize hdr ≠ 0)
    (hfit : FitAt mtd (scanOffset mtd k) (totalsize hdr))
    (hlayout : ∀ n, MeetsAt big mtd (addSize (scanOffset mtd k) (totalsize hdr)) n →
      FitLayout big mtd (kernelPart mtd (scanOffset mtd k) (totalsize hdr))
        (rootfsPart mtd (searchOffset mtd (addSize (scanOffset mtd k) (totalsize hdr)) n))) :
    Separated big mtd (k * mtd.erasesize + totalsize hdr) := by
  rw [addSize_scanOffset] at hlayout
  intro n hmeets
  have hright := hlayout n hmeets
  have hk := lt_of_boundary hclear hfit hright.boundary
  have hr : searchOffset mtd ((k * mtd.erasesize + totalsize hdr) % 2 ^ 32) n < 2 ^ 32 :=
    hmeets.inside.trans (Nat.mod_lt _ (by omega))
  obtain ⟨total, hfit', -, hbehind⟩ := hright.image
  obtain rfl := hfit.unique hfit'
  have hdisjoint := hright.disjoint
  have hsize := lt_kernelPart_size mtd (scanOffset mtd k) (totalsize hdr)
  simp only [Partition.stop, scanOffset_eq hk] at hbehind hdisjoint hsize
  have hstop : k * mtd.erasesize + totalsize hdr < 2 ^ 32 := by omega
  rw [Nat.mod_eq_of_lt hstop] at hbehind hdisjoint hmeets hr
  -- the root file system does not start in the kernel partition
  have hout : k * mtd.erasesize + (mtdRounddownToEb mtd (totalsize hdr) + mtd.erasesize) ≤
      searchOffset mtd (k * mtd.erasesize + totalsize hdr) n := by omega
  constructor
  · by_contra hzero
    obtain rfl : n = 0 := by omega
    rw [searchOffset] at hout
    omega
  · by_contra hwrap
    rcases hmeets.lt_of_wrap (by omega) (by omega) with hbefore | hfirst
    · omega
    · omega

theorem layout_of_separated {k n : Nat} {hdr : List Byte} (hclear : Clear mtd k)
    (hfit : FitAt mtd (scanOffset mtd k) (totalsize hdr))
    (hsep : Separated big mtd (k * mtd.erasesize + totalsize hdr))
    (hmeets : MeetsAt big mtd (addSize (scanOffset mtd k) (totalsize hdr)) n) :
    FitLayout big mtd (kernelPart mtd (scanOffset mtd k) (totalsize hdr))
      (rootfsPart mtd (searchOffset mtd (addSize (scanOffset mtd k) (totalsize hdr)) n)) := by
  rw [addSize_scanOffset] at hmeets ⊢
  obtain ⟨hn, hlt⟩ := hsep n hmeets
  have hstop := mtd.lt_next (k * mtd.erasesize + totalsize hdr)
  have hone : mtd.erasesize ≤ n * mtd.erasesize := Nat.le_mul_of_pos_left _ hn
  rw [Nat.mod_eq_of_lt (by omega)] at hmeets ⊢
  have hk : scanOffset mtd k = k * mtd.erasesize := scanOffset_eq (by omega)
  have hr := searchOffset_eq hn hlt
  have hsum : (k * mtd.erasesize + totalsize hdr) / mtd.erasesize * mtd.erasesize =
      k * mtd.erasesize + mtdRounddownToEb mtd (totalsize hdr) := by
    rw [Nat.mul_comm k, Nat.mul_add_div mtd.erasesize_pos, Nat.add_mul, Nat.mul_comm k, mtdRounddownToEb]
  have hkernel : (kernelPart mtd (scanOffset mtd k) (totalsize hdr)).stop ≤
      searchOffset mtd (k * mtd.erasesize + totalsize hdr) n := by
    simp only [Partition.stop, hk]
    omega
  have hin : searchOffset mtd (k * mtd.erasesize + totalsize hdr) n ≤ mtd.size :=
    hmeets.inside.le.trans (Nat.mod_le _ _)
  exact {
    names := ⟨rfl, rfl⟩
    boundary := hk ▸ Nat.dvd_mul_left _ _
    image := by
      refine ⟨_, hfit, (lt_kernelPart_size mtd _ _).le, ?_⟩
      simp only [hk]
      omega
    lowest := by
      rintro o ⟨j, rfl⟩ hlow total hfit'
      have hlow' : j * mtd.erasesize < k * mtd.erasesize := by
        rw [Nat.mul_comm j, ← hk]
        exact hlow
      have hj : scanOffset mtd j = mtd.erasesize * j := by
        rw [scanOffset_eq (by omega), Nat.mul_comm]
      exact (hclear j (Nat.lt_of_mul_lt_mul_right hlow')).not_fitAt (hj ▸ hfit')
    magic := hmeets.rootfs
    disjoint := .inl hkernel
    inside := ⟨hkernel.trans hin, rootfsPart_stop_le hmeets.inside⟩ }

/-- The layouts are right exactly when the first image is separated from its root file system, and nothing is found
when there is no image. -/
theorem fit_sound_iff (big : Bool) (mtd : Mtd) (stale : List Byte) :
    FitSound big mtd stale ↔ ∀ k, Clear mtd k →
      (∀ total, total ≠ 0 → FitAt mtd (scanOffset mtd k) total →
        Separated big mtd (k * mtd.erasesize + total)) ∧
      (mtd.size < addSize (scanOffset mtd k) sizeofFdtHeader → totalsize (headerBefore mtd stale k) ≠ 0 →
        ∀ n, ¬ MeetsAt big mtd (addSize (scanOffset mtd k) (totalsize (headerBefore mtd stale k))) n) := by
  rw [fitSound_iff_forall]
  constructor
  · intro hlayout k hclear
    constructor
    · rintro total htotal ⟨hdr, hread, hmagic, rfl⟩
      exact separated_of_layout hclear htotal ⟨hdr, hread, hmagic, rfl⟩ fun n hmeets =>
        hlayout k hdr n hclear (.inl ⟨hread, hmagic⟩) htotal hmeets
    · intro hroom htotal n hmeets
      obtain ⟨total, hfit, -⟩ := (hlayout k _ n hclear (.inr ⟨hroom, rfl⟩) htotal hmeets).image
      have hle : scanOffset mtd k + sizeofFdtHeader ≤ mtd.size := hfit.le_size
      have hsum := addSize_le (scanOffset mtd k) sizeofFdtHeader
      omega
  · rintro hcond k hdr n hclear (⟨hread, hmagic⟩ | ⟨hroom, rfl⟩) htotal hmeets
    · have hfit : FitAt mtd (scanOffset mtd k) (totalsize hdr) := ⟨hdr, hread, hmagic, rfl⟩
      exact layout_of_separated hclear hfit ((hcond k hclear).1 _ htotal hfit) hmeets
    · exact absurd hmeets ((hcond k hclear).2 hroom htotal n)

/-- Four blocks with an image that ends in the second one, where a squashfs follows at once. -/
def adjacentMtd : Mtd where
  size := 0x40000
  erasesize := 0x10000
  content
    | 0 => 0xd0
    | 1 => 0x0d
    | 2 => 0xfe
    | 3 => 0xed
    | 5 => 0x01
    | 7 => 0x80
    | 0x10080 => 0x68
    | 0x10081 => 0x73
    | 0x10082 => 0x71
    | 0x10083 => 0x73
    | _ => 0
  outcome _ _ := .done
  erasesize_pos := erasesize64K_pos
  erasesize_lt := erasesize64K_lt

theorem not_fitSound_adjacentMtd : ¬ FitSound false adjacentMtd [] := by
  intro hsound
  have hparse : mtdsplitFitParse false adjacentMtd [] 2 =
      some (.ok [kernelPart adjacentMtd 0 0x10080, rootfsPart adjacentMtd 0x10080]) := by decide +kernel
  obtain ⟨kernel, rootfs, hparts, hlayout⟩ := hsound 2 _ hparse
  obtain ⟨rfl, hrest⟩ := List.cons.inj hparts
  obtain ⟨rfl, -⟩ := List.cons.inj hrest
  have hdisjoint := hlayout.disjoint
  revert hdisjoint
  decide +kernel

end Immwrt.Mtdsplit
