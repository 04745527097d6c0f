import Immwrt.Lib.Bytes

/-!
# Page formats of the MediaTek SPI-NAND controller

In ECC mode the controller interleaves the data sectors of a page with their spare bytes; in raw mode
the driver does it. Controllers with a bad block mark swap put the first spare byte where the chip has
its bad block mark.
-/

namespace Immwrt.Snand

/-- What the driver knows about the chip and the controller. -/
structure Geometry where
  sectorSize : Nat
  eccSteps : Nat
  sparePerSector : Nat
  fdmSize : Nat
  fdmEccSize : Nat
  oobsize : Nat
  bbmSwap : Bool
  sector_pos : 0 < sectorSize
  steps_pos : 0 < eccSteps
  fdm_pos : 0 < fdmSize
  fdm_regs : fdmSize ≤ 8
  fdm_spare : fdmSize ≤ sparePerSector
  fdmEcc_le : fdmEccSize ≤ fdmSize
  spare_oob : eccSteps * sparePerSector ≤ oobsize

abbrev Buf := Nat → Byte

def memset (buf : Buf) (v : Byte) (off n : Nat) : Buf :=
  fun x => if off ≤ x ∧ x < off + n then v else buf x

def memcpy (dst : Buf) (off : Nat) (src : Buf) (start n : Nat) : Buf :=
  fun x => if off ≤ x ∧ x < off + n then src (start + (x - off)) else dst x

def doBmSwap (buf : Buf) (bm1 bm2 : Nat) : Buf :=
  Function.update (Function.update buf bm1 (buf bm2)) bm2 (buf bm1)

namespace Geometry

variable (g : Geometry)

def writesize : Nat := g.eccSteps * g.sectorSize

def rawSectorSize : Nat := g.sectorSize + g.sparePerSector

def eccBytes : Nat := g.sparePerSector - g.fdmSize

/-! ### Bad block mark swaps -/

def bmSwapRaw (pageCache : Buf) : Buf :=
  if !g.bbmSwap || g.eccSteps == 1 then pageCache
  else doBmSwap pageCache ((g.eccSteps - 1) * g.rawSectorSize + g.sectorSize) g.writesize

def bmSwap (pageCache : Buf) : Buf :=
  if !g.bbmSwap || g.eccSteps == 1 then pageCache
  else
    doBmSwap pageCache (g.writesize + (g.eccSteps - 1) * g.fdmSize)
      (g.writesize - (g.eccSteps - 1) * g.sparePerSector)

def fdmBmSwapRaw (pageCache : Buf) : Buf :=
  if !g.bbmSwap || g.eccSteps == 1 then pageCache
  else
    doBmSwap pageCache g.sectorSize ((g.eccSteps - 1) * g.rawSectorSize + g.sectorSize)

def fdmBmSwap (pageCache : Buf) : Buf :=
  if !g.bbmSwap || g.eccSteps == 1 then pageCache
  else doBmSwap pageCache g.writesize (g.writesize + (g.eccSteps - 1) * g.fdmSize)

/-! ### Formatting in the driver -/

/-- Sector `i` of `mtk_snand_to_raw_page`. -/
def toRawSector (buf oob : Option Buf) (emptyEcc : Bool) (i : Nat) (pageCache : Buf) : Buf :=
  let rawSector := i * g.rawSectorSize
  let pageCache := match buf with
    | none => pageCache
    | some buf => memcpy pageCache rawSector buf (i * g.sectorSize) g.sectorSize
  let rawSector := rawSector + g.sectorSize
  match oob with
  | none => pageCache
  | some oob =>
    let pageCache := memcpy pageCache rawSector oob (i * g.fdmSize) g.fdmSize
    let rawSector := rawSector + g.fdmSize
    if emptyEcc then memset pageCache 0xff rawSector g.eccBytes
    else memcpy pageCache rawSector oob (g.eccSteps * g.fdmSize + i * g.eccBytes) g.eccBytes

def toRawPage (buf oob : Option Buf) (emptyEcc : Bool) (pageCache : Buf) : Buf :=
  (List.range g.eccSteps).foldl (fun pageCache i => g.toRawSector buf oob emptyEcc i pageCache)
    (memset pageCache 0xff 0 (g.writesize + g.oobsize))

/-- Sector `i` of `mtk_snand_from_raw_page`; the buffers that are not there stay so. -/
def fromRawSector (pageCache : Buf) (i : Nat) (bufs : Option Buf × Option Buf) :
    Option Buf × Option Buf :=
  let rawSector := i * g.rawSectorSize
  let buf := bufs.1.map fun buf => memcpy buf (i * g.sectorSize) pageCache rawSector g.sectorSize
  let rawSector := rawSector + g.sectorSize
  let oob := bufs.2.map fun oob =>
    let oob := memcpy oob (i * g.fdmSize) pageCache rawSector g.fdmSize
    memcpy oob (g.eccSteps * g.fdmSize + i * g.eccBytes) pageCache (rawSector + g.fdmSize) g.eccBytes
  (buf, oob)

def fromRawPage (pageCache : Buf) (buf oob : Option Buf) : Option Buf × Option Buf :=
  (List.range g.eccSteps).foldl (fun bufs i => g.fromRawSector pageCache i bufs) (buf, oob)

/-! ### The controller -/

/-- The eight bytes of the FDM registers of sector `i`, as `mtk_snand_write_fdm` fills them. -/
def writeFdm (oob : Buf) (i j : Nat) : Byte := if j < g.fdmSize then oob (i * g.fdmSize + j) else 0xff

/-- `mtk_snand_read_fdm`: the registers of all sectors, copied to `off`. -/
def readFdm (regs : Nat → Nat → Byte) (pageCache : Buf) (off : Nat) : Buf :=
  fun x =>
    if off ≤ x ∧ x < off + g.eccSteps * g.fdmSize then
      regs ((x - off) / g.fdmSize) ((x - off) % g.fdmSize)
    else pageCache x

/-- Programming a page: the bytes that the chip gets. In ECC mode the controller takes the data sectors
from the page cache and the FDM bytes from its registers, and adds the parity. -/
def programLoad (parity : Buf → Nat → Nat → Byte) (pageCache : Buf) (raw : Bool) : Buf :=
  if raw then pageCache
  else
    let regs := g.writeFdm fun x => pageCache (g.writesize + x)
    fun x =>
      let i := x / g.rawSectorSize
      let j := x % g.rawSectorSize
      if j < g.sectorSize then pageCache (i * g.sectorSize + j)
      else if j < g.sectorSize + g.fdmSize then regs i (j - g.sectorSize)
      else parity pageCache i (j - g.sectorSize - g.fdmSize)

/-- Reading a page into the page cache. In ECC mode the data sectors come without the spare bytes, and
the FDM bytes through the registers. -/
def readCache (page : Buf) (raw : Bool) (pageCache : Buf) : Buf :=
  if raw then memcpy pageCache 0 page 0 (g.eccSteps * g.rawSectorSize)
  else
    let regs (i j : Nat) := page (i * g.rawSectorSize + g.sectorSize + j)
    g.readFdm regs
      (fun x =>
        if x < g.writesize then page (x / g.sectorSize * g.rawSectorSize + x % g.sectorSize)
        else pageCache x)
      g.writesize

/-! ### Pages -/

def isEmptyPage (buf oob : Option Buf) : Bool :=
  (match buf with
    | none => true
    | some buf => (List.range g.writesize).all fun i => buf i == 0xff) &&
  (match oob with
    | none => true
    | some oob => (List.range g.eccSteps).all fun j =>
        (List.range g.fdmEccSize).all fun i => oob (j * g.fdmSize + i) == 0xff)

/-- The page cache that `mtk_snand_do_write_page` programs, and whether it does so in raw mode. -/
def writeCache (buf oob : Option Buf) (raw format : Bool) (pageCache : Buf) : Buf × Bool :=
  let emptyEcc := !raw && g.isEmptyPage buf oob
  let raw := raw || emptyEcc
  let format := format || emptyEcc
  if raw && format then
    (g.bmSwapRaw (g.fdmBmSwapRaw (g.toRawPage buf oob emptyEcc pageCache)), raw)
  else
    let pageCache := memset pageCache 0xff 0 (g.writesize + g.oobsize)
    let pageCache := match buf with
      | none => pageCache
      | some buf => memcpy pageCache 0 buf 0 g.writesize
    let oobLen := if raw then g.eccSteps * g.sparePerSector else g.eccSteps * g.fdmSize
    let pageCache := match oob with
      | none => pageCache
      | some oob => memcpy pageCache g.writesize oob 0 oobLen
    (if raw then pageCache else g.bmSwap (g.fdmBmSwap pageCache), raw)

/-- The page on the chip after `mtk_snand_do_write_page`. -/
def doWritePage (parity : Buf → Nat → Nat → Byte) (buf oob : Option Buf) (raw format : Bool)
    (pageCache : Buf) : Buf :=
  let (pageCache, raw) := g.writeCache buf oob raw format pageCache
  g.programLoad parity pageCache raw

/-- The buffers after `mtk_snand_do_read_page`. -/
def doReadPage (page : Buf) (buf oob : Option Buf) (raw format : Bool) (pageCache : Buf) :
    Option Buf × Option Buf :=
  let pageCache := g.readCache page raw pageCache
  if raw && format then
    g.fromRawPage (g.fdmBmSwapRaw (g.bmSwapRaw pageCache)) buf oob
  else
    let pageCache := if raw then pageCache else g.fdmBmSwap (g.bmSwap pageCache)
    let oobLen := if raw then g.eccSteps * g.sparePerSector else g.eccSteps * g.fdmSize
    (buf.map fun buf => memcpy buf 0 pageCache 0 g.writesize,
      oob.map fun oob => memcpy (memset oob 0xff 0 g.oobsize) 0 pageCache g.writesize oobLen)

def blockIsbadStd (page : Buf) (bufCache pageCache : Buf) : Bool :=
  ((g.doReadPage page none (some bufCache) true false pageCache).2.getD bufCache) 0 ≠ 0xff

def blockIsbadMtk (page : Buf) (bufCache pageCache : Buf) : Bool :=
  ((g.doReadPage page none (some bufCache) true true pageCache).2.getD bufCache) 0 ≠ 0xff

def blockIsbad (page : Buf) (bufCache pageCache : Buf) : Bool :=
  if g.bbmSwap then g.blockIsbadStd page bufCache pageCache
  else g.blockIsbadMtk page bufCache pageCache

end Geometry

end Immwrt.Snand
