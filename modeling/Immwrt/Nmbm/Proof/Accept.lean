import Immwrt.Nmbm.Proof.Image

/-!
# What a table that was accepted can say

`nmbm_check_info_table_header` compares unsigned differences of offsets that come from the flash, and
`nmbm_check_info_table` bounds a mapping from above only by the signature block, which it excludes
alone. So an offset past the end of the table passes if a difference wraps, and so does a mapping past
the end of the chip.
-/

namespace Immwrt.Nmbm

variable {nld : LowerDevice} {s s' : Sys}

/-- The second difference holds if it does not wrap. -/
theorem mappingTable_inside (hg : Geometry nld) {data : List Byte}
    (h : checkInfoTableHeader nld data = true)
    (hle : (InfoTableHeader.ofBytes data).mappingTableOff.toNat ≤ nld.infoTableSize) :
    (InfoTableHeader.ofBytes data).mappingTableOff.toNat + nld.mappingTableSize
      ≤ nld.infoTableSize := by
  have hfits := hg.fits
  simp only [checkInfoTableHeader, Bool.and_eq_true, decide_eq_true_eq] at h
  have hdiff := h.2
  rw [BitVec.toNat_sub, BitVec.toNat_ofNat, Nat.mod_eq_of_lt hfits] at hdiff
  omega

/-- The same for the first. -/
theorem stateTable_before {data : List Byte} (h : checkInfoTableHeader nld data = true)
    (hle : (InfoTableHeader.ofBytes data).stateTableOff.toNat
      ≤ (InfoTableHeader.ofBytes data).mappingTableOff.toNat) :
    (InfoTableHeader.ofBytes data).stateTableOff.toNat + nld.stateTableSize
      ≤ (InfoTableHeader.ofBytes data).mappingTableOff.toNat := by
  simp only [checkInfoTableHeader, Bool.and_eq_true, decide_eq_true_eq] at h
  have hdiff := h.1.2
  have hlt := (InfoTableHeader.ofBytes data).mappingTableOff.isLt
  rw [BitVec.toNat_sub] at hdiff
  omega

/-- A table on a blank chip of 16 blocks that maps logical block 0 to `target`. -/
def mappedSys (target : Int) : Sys :=
  let s := fresh (smallChip 16 8) (blankDevice [])
  let s := { s with ni := { s.ni with blockMapping := s.ni.blockMapping.set 0 target } }
  let s := (generateInfoTableCache (smallChip 16 8) s).2
  loader (smallChip 16 8) 8 15 (writeInfoTable (smallChip 16 8) 8 14 s).2.dev

theorem smallChip_chip : Chip (smallChip 16 8) := ⟨smallChip_geometry, by decide⟩

/-- A header whose mapping table starts 16 bytes before the end of the address space. -/
def wrappedHeader : InfoTableHeader :=
  ⟨magicInfoTable, version, BitVec.ofNat 32 (smallChip 16 8).infoTableSize, 0, 0, 64, 0xfffffff0, 0⟩

end Immwrt.Nmbm
