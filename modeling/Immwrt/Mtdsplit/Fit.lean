import Immwrt.Mtdsplit.Mtd

/-!
# Splitting a FIT image

The kernel is a FIT image, found by the magic of a device tree at the start of an erase block, and the root file
system follows it.
-/

namespace Immwrt.Mtdsplit

/-- `OF_DT_HEADER` -/
def ofDtHeader : Word := 0xd00dfeed

def sizeofFdtHeader : Nat := 40

/-- A turn of the scan for the image, which has an offset and the header that was read last. -/
def fitTurn (mtd : Mtd) : Nat × List Byte → Except Errno (Nat × List Byte) ⊕ (Nat × List Byte)
  | (offset, hdr) =>
    if addSize offset sizeofFdtHeader ≤ mtd.size then
      match readFull mtd offset sizeofFdtHeader with
      | .error err => .inl (.error err)
      | .ok hdr =>
        if ofBe (hdr.take 4) ≠ ofDtHeader then .inr (addSize offset mtd.erasesize, hdr)
        else .inl (.ok (offset, hdr))
    else .inl (.ok (offset, hdr))

/-- `totalsize` -/
def totalsize (hdr : List Byte) : Nat := (ofBe (slice hdr 4 4)).toNat

/-- The partitions that `mtdsplit_fit_parse` makes; `stale` is what `hdr` holds before anything is read. -/
def mtdsplitFitParse (big : Bool) (mtd : Mtd) (stale : List Byte) (fuel : Nat) :
    Option (Except Errno (List Partition)) :=
  match Loop.run (fitTurn mtd) fuel (0, stale) with
  | none => none
  | some (.error err) => some (.error err)
  | some (.ok (fitOffset, hdr)) =>
    if totalsize hdr = 0 then some (.error .enodev)
    else
      match mtdFindRootfsFrom big mtd fuel (addSize fitOffset (totalsize hdr)) with
      | none => none
      | some (.error err) => some (.error err)
      | some (.ok (rootfsOffset, _)) =>
        some (.ok [
          { name := .kernel, offset := fitOffset
            size := mtdRounddownToEb mtd (totalsize hdr) + mtd.erasesize },
          { name := .rootfs, offset := rootfsOffset, size := (mtd.size - rootfsOffset) % 2 ^ 32 }])

/-- A FIT image of `total` bytes starts at an offset. -/
def FitAt (mtd : Mtd) (offset total : Nat) : Prop :=
  ∃ hdr, readFull mtd offset sizeofFdtHeader = .ok hdr ∧ ofBe (hdr.take 4) = ofDtHeader ∧ totalsize hdr = total

/-- What the two partitions of a FIT image are to be. -/
structure FitLayout (big : Bool) (mtd : Mtd) (kernel rootfs : Partition) : Prop where
  names : kernel.name = .kernel ∧ rootfs.name = .rootfs
  boundary : mtd.erasesize ∣ kernel.offset
  image : ∃ total, FitAt mtd kernel.offset total ∧ total ≤ kernel.size ∧ kernel.offset + total ≤ rootfs.offset
  lowest : ∀ o, mtd.erasesize ∣ o → o < kernel.offset → ∀ total, ¬ FitAt mtd o total
  magic : ∃ type, mtdCheckRootfsMagic big mtd rootfs.offset = .ok type
  disjoint : kernel.stop ≤ rootfs.offset ∨ rootfs.stop ≤ kernel.offset
  inside : kernel.stop ≤ mtd.size ∧ rootfs.stop ≤ mtd.size

/-- Whenever the parser makes partitions, they are right. -/
def FitSound (big : Bool) (mtd : Mtd) (stale : List Byte) : Prop :=
  ∀ fuel parts, mtdsplitFitParse big mtd stale fuel = some (.ok parts) →
    ∃ kernel rootfs, parts = [kernel, rootfs] ∧ FitLayout big mtd kernel rootfs

end Immwrt.Mtdsplit
