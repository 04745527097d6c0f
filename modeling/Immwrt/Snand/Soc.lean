import Immwrt.Snand.Page

/-!
# Controllers and chips

The driver knows four controllers and the page layouts of its list of chips. From these it chooses how many spare
bytes a sector has.
-/

namespace Immwrt.Snand

/-- What `mtk_snand_socs` says of a controller, as far as pages depend on it. -/
structure SocData where
  sectorSize : Nat
  maxSectors : Nat
  fdmSize : Nat
  fdmEccSize : Nat
  bbmSwap : Bool
  spareSizes : List Nat

def mt7622SpareSizes : List Nat := [16, 26, 27, 28]

/-- The spare sizes of MT7981 and MT7986. -/
def mt7981SpareSizes : List Nat :=
  [16, 26, 27, 28, 32, 36, 40, 44, 48, 49, 50, 51, 52, 62, 61, 63, 64, 67, 74]

def mt7622 : SocData :=
  { sectorSize := 512, maxSectors := 8, fdmSize := 8, fdmEccSize := 1, bbmSwap := false
    spareSizes := mt7622SpareSizes }

def mt7629 : SocData := { mt7622 with bbmSwap := true }

def mt7981 : SocData :=
  { sectorSize := 1024, maxSectors := 16, fdmSize := 8, fdmEccSize := 1, bbmSwap := true
    spareSizes := mt7981SpareSizes }

def mt7986 : SocData := mt7981

def mtkSnandSocs : List SocData := [mt7622, mt7629, mt7981, mt7986]

/-- The page and spare sizes of the chips. -/
def memorgs : List (Nat × Nat) := [(2048, 64), (2048, 120), (2048, 128), (4096, 240), (4096, 256)]

/-- `mtk_snand_select_spare_per_sector` -/
def selectSparePerSector (soc : SocData) (oobsize eccSteps : Nat) : Option Nat :=
  let mul := if soc.sectorSize = 1024 then 2 else 1
  (soc.spareSizes.reverse.find? fun spare => spare ≤ oobsize / eccSteps / mul).map (· * mul)

/-- The spare bytes of all sectors are there. -/
theorem selectSparePerSector_le {soc : SocData} {oobsize eccSteps spare : Nat}
    (h : selectSparePerSector soc oobsize eccSteps = some spare) : eccSteps * spare ≤ oobsize := by
  obtain ⟨size, hfind, rfl⟩ := Option.map_eq_some_iff.mp h
  have hle : size ≤ oobsize / eccSteps / (if soc.sectorSize = 1024 then 2 else 1) := by
    simpa using List.find?_some hfind
  calc eccSteps * (size * (if soc.sectorSize = 1024 then 2 else 1))
      ≤ eccSteps * (oobsize / eccSteps) := Nat.mul_le_mul_left _ (Nat.mul_le_of_le_div _ _ _ hle)
    _ ≤ oobsize := Nat.mul_div_le oobsize eccSteps

/-- What `mtk_snand_setup` makes of a controller with a chip. -/
structure Geometry.Of (g : Geometry) (soc : SocData) (org : Nat × Nat) : Prop where
  sectorSize : g.sectorSize = soc.sectorSize
  eccSteps : g.eccSteps = org.1 / soc.sectorSize
  eccSteps_le : g.eccSteps ≤ soc.maxSectors
  fdmSize : g.fdmSize = soc.fdmSize
  fdmEccSize : g.fdmEccSize = soc.fdmEccSize
  bbmSwap : g.bbmSwap = soc.bbmSwap
  oobsize : g.oobsize = org.2
  sparePerSector : selectSparePerSector soc org.2 g.eccSteps = some g.sparePerSector

/-- The place of a chip's bad block mark is in the last data sector. -/
theorem Geometry.Of.mark_lt {g : Geometry} {soc : SocData} {org : Nat × Nat} (h : g.Of soc org)
    (hsoc : soc ∈ mtkSnandSocs) (horg : org ∈ memorgs) :
    (g.eccSteps - 1) * g.sparePerSector < g.sectorSize := by
  have hall : ∀ soc ∈ mtkSnandSocs, ∀ org ∈ memorgs,
      ∀ spare ∈ selectSparePerSector soc org.2 (org.1 / soc.sectorSize),
        (org.1 / soc.sectorSize - 1) * spare < soc.sectorSize := by
    decide
  have hspare := h.sparePerSector
  rw [h.eccSteps] at hspare ⊢
  rw [h.sectorSize]
  exact hall soc hsoc org horg g.sparePerSector hspare

end Immwrt.Snand
