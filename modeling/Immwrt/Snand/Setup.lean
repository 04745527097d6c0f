import Immwrt.Snand.Soc
import Immwrt.Snand.AutoOob

/-!
# Setting up a controller for a chip

`mtk_snand_setup` looks for a page format, for the spare bytes of a sector and for an ECC strength, each in
a table of the controller, from the last entry down. It gets a zeroed instance and the chip's memory
organisation, whatever that is.
-/

namespace Immwrt.Snand

def ebusy : Int := -16

/-- What ends the setup early: an error that it returns, or a step that C leaves undefined. -/
inductive Stop where
  | error (ret : Int)
  | divByZero
  | index
  deriving DecidableEq

/-- `table[i]` -/
def tableEntry {α : Type} (table : List α) (i : Nat) : Except Stop α :=
  match table[i]? with
  | some entry => .ok entry
  | none => .error .index

/-! ### Controllers and chips -/

inductive Soc where
  | mt7622
  | mt7629
  | mt7981
  | mt7986
  deriving DecidableEq

/-- `mtk_snand_socs` -/
def Soc.nfiSoc : Soc → SocData
  | mt7622 => Snand.mt7622
  | mt7629 => Snand.mt7629
  | mt7981 => Snand.mt7981
  | mt7986 => Snand.mt7986

structure EccSocData where
  eccCaps : List Nat
  modeShift : Nat

def mt7622EccCaps : List Nat := [4, 6, 8, 10, 12]

/-- The strengths of MT7981 and MT7986. -/
def mt7981EccCaps : List Nat := [4, 6, 8, 10, 12, 14, 16, 18, 20, 22, 24]

/-- `mtk_ecc_socs` -/
def Soc.eccSoc : Soc → EccSocData
  | mt7622 => { eccCaps := mt7622EccCaps, modeShift := 4 }
  | mt7629 => { eccCaps := mt7622EccCaps, modeShift := 4 }
  | mt7981 => { eccCaps := mt7981EccCaps, modeShift := 5 }
  | mt7986 => { eccCaps := mt7981EccCaps, modeShift := 5 }

structure Opcode where
  opcode : Byte
  dummy : Byte

/-- `__SNAND_IO_MAX` -/
def snandIoMax : Nat := 5

structure IoCap where
  caps : Byte
  opcodes : List Opcode
  length_opcodes : opcodes.length = snandIoMax

/-- The fields of `struct snand_mem_org` that decide about pages; they are 16 bits wide. -/
structure MemOrg where
  pagesize : BitVec 16
  sparesize : BitVec 16
  ndies : BitVec 16

structure FlashInfo where
  memorg : MemOrg
  capRd : IoCap
  capPl : IoCap

/-- How the ECC engine and the dies answer. -/
structure Hardware where
  encIdle : Bool
  decIdle : Bool
  /-- `mtk_snand_ondie_ecc_control(snf, false)` on each die -/
  ondieEccControl : Nat → Int

/-- The fields of `struct mtk_snand` that the setup decides, and the registers that it computes. -/
structure Snf where
  writesize : Nat
  oobsize : Nat
  opcodeRfc : Byte
  dummyRfc : Byte
  modeRfc : Nat
  opcodePl : Byte
  modePl : Nat
  quadSpiOp : Bool
  eccSteps : Nat
  sparePerSector : Nat
  rawSectorSize : Nat
  eccParityBits : Nat
  eccStrength : Nat
  eccBytes : Nat
  nfiPagefmt : Word
  eccEnccnfg : Word
  eccDeccnfg : Word

/-- The instance as it is allocated. -/
def Snf.zeroed : Snf where
  writesize := 0
  oobsize := 0
  opcodeRfc := 0
  dummyRfc := 0
  modeRfc := 0
  opcodePl := 0
  modePl := 0
  quadSpiOp := false
  eccSteps := 0
  sparePerSector := 0
  rawSectorSize := 0
  eccParityBits := 0
  eccStrength := 0
  eccBytes := 0
  nfiPagefmt := 0
  eccEnccnfg := 0
  eccDeccnfg := 0

/-! ### Opcodes -/

/-- `SPI_IO_1_1_1 | SPI_IO_1_1_2 | SPI_IO_1_2_2`, with quad SPI also `SPI_IO_1_1_4 | SPI_IO_1_4_4`. -/
def snfiCaps (quadSpi : Bool) : Byte := if quadSpi then 0b11111 else 0b00111

/-- `mtk_snand_select_opcode`; `none` is `__SNAND_IO_MAX`. -/
def selectOpcode (snfiCaps : Byte) (opCap : IoCap) : Except Stop (Option (Nat × Opcode)) :=
  let i := fls (snfiCaps &&& opCap.caps).toNat
  if i > 0 then (tableEntry opCap.opcodes (i - 1)).map fun op => some (i - 1, op)
  else .ok none

/-- `rfc_modes` -/
def rfcModes : List Nat := [0, 1, 5, 2, 6]

/-- `pl_modes` -/
def plModes : List Nat := [0, 0, 0, 1, 0]

def selectOpcodeRfc (snfiCaps : Byte) (opCap : IoCap) (snf : Snf) : Except Stop Snf := do
  match ← selectOpcode snfiCaps opCap with
  | none => .error (.error enotsupp)
  | some (idx, op) =>
    let mode ← tableEntry rfcModes idx
    .ok { snf with
      opcodeRfc := op.opcode
      dummyRfc := op.dummy
      modeRfc := mode
      quadSpiOp := snf.quadSpiOp || idx == 3 || idx == 4 }

def selectOpcodePl (snfiCaps : Byte) (opCap : IoCap) (snf : Snf) : Except Stop Snf := do
  match ← selectOpcode snfiCaps opCap with
  | none => .error (.error enotsupp)
  | some (idx, op) =>
    let mode ← tableEntry plModes idx
    .ok { snf with
      opcodePl := op.opcode
      modePl := mode
      quadSpiOp := snf.quadSpiOp || idx == 3 }

/-! ### Page format -/

/-- The spare size doubles with the sector size. -/
def SocData.mul (soc : SocData) : Nat := if soc.sectorSize = 1024 then 2 else 1

/-- The loop over the entries below `i`; `none` is `-1`. -/
def spareLoop (spareSizes : List Nat) (sparePerStep : Nat) : Nat → Except Stop (Option (Nat × Nat))
  | 0 => .ok none
  | i + 1 => do
    let size ← tableEntry spareSizes i
    if size ≤ sparePerStep then .ok (some (i, size)) else spareLoop spareSizes sparePerStep i

/-- `mtk_snand_select_spare_per_sector` with the value it returns. -/
def mtkSnandSelectSparePerSector (soc : SocData) (snf : Snf) : Except Stop (Int × Snf) := do
  if snf.eccSteps = 0 then .error .divByZero
  else
    let sparePerStep := snf.oobsize / snf.eccSteps / soc.mul
    match ← spareLoop soc.spareSizes sparePerStep soc.spareSizes.length with
    | some (i, size) => .ok (i, { snf with sparePerSector := size * soc.mul })
    | none => .ok (-1, snf)

/-- The `switch` over page sizes. -/
def pagesizeIdx (sectorSize writesize : Nat) : Option Nat :=
  if writesize = 512 then some 0
  else if writesize = 2048 then some (if sectorSize = 512 then 1 else 0)
  else if writesize = 4096 then some (if sectorSize = 512 then 2 else 1)
  else if writesize = 8192 then some (if sectorSize = 512 then 3 else 2)
  else if writesize = 16384 then some 3
  else none

def pagefmtSetup (soc : SocData) (snf : Snf) : Except Stop Snf := do
  let sectorSize512 : Word := if soc.sectorSize = 512 then 4 else 0
  let spareSizeShift := if soc.sectorSize = 512 then 4 else 16
  match pagesizeIdx soc.sectorSize snf.writesize with
  | none => .error (.error enotsupp)
  | some pagesizeIdx =>
    let (ret, snf) ← mtkSnandSelectSparePerSector soc snf
    -- the index is kept in a `uint32_t`
    let spareSizeIdx := BitVec.ofInt 32 ret
    if spareSizeIdx < (0 : Word) then .error (.error enotsupp)
    else
      .ok { snf with
        rawSectorSize := soc.sectorSize + snf.sparePerSector
        nfiPagefmt := BitVec.ofNat 32 (soc.fdmEccSize <<< 12) ||| BitVec.ofNat 32 (soc.fdmSize <<< 8) |||
          spareSizeIdx <<< spareSizeShift ||| BitVec.ofNat 32 pagesizeIdx ||| sectorSize512 }

/-! ### ECC strength -/

/-- The loop over the strengths from entry `i` down. -/
def capLoop (eccCaps : List Nat) (eccStrength : Nat) : Nat → Except Stop (Nat × Nat)
  | 0 => do
    let cap ← tableEntry eccCaps 0
    -- `i` is unsigned: it is not less than 0 but goes on with entry `0xffffffff`
    if cap ≤ eccStrength then .ok (0, cap) else .error .index
  | i + 1 => do
    let cap ← tableEntry eccCaps (i + 1)
    if cap ≤ eccStrength then .ok (i + 1, cap) else capLoop eccCaps eccStrength i

/-- `mtk_ecc_setup`; the byte counts are of 32 bits. -/
def mtkEccSetup (hw : Hardware) (soc : EccSocData) (maxEccBytes msgSize : Nat) (snf : Snf) :
    Except Stop Snf := do
  let eccParityBits := fls (1 + 8 * msgSize)
  if eccParityBits = 0 then .error .divByZero
  else
    let eccStrength := maxEccBytes * 8 % 2 ^ 32 / eccParityBits
    let (i, cap) ← capLoop soc.eccCaps eccStrength (soc.eccCaps.length - 1)
    if !hw.encIdle then .error (.error ebusy)
    else if !hw.decIdle then .error (.error ebusy)
    else
      let eccMsgBits := msgSize * 8
      let mode := BitVec.ofNat 32 (1 <<< soc.modeShift) ||| BitVec.ofNat 32 i
      .ok { snf with
        eccParityBits := eccParityBits
        eccStrength := cap
        eccBytes := (cap * eccParityBits + 7) / 8
        eccEnccnfg := BitVec.ofNat 32 (eccMsgBits <<< 16) ||| mode
        eccDeccnfg := 0x80000000 ||| BitVec.ofNat 32 ((eccMsgBits + cap * eccParityBits) <<< 16) |||
          0x3000 ||| mode }

/-! ### Setup -/

/-- The loop over the dies. -/
def diesLoop (hw : Hardware) : List Nat → Except Stop Unit
  | [] => .ok ()
  | i :: dies =>
    if hw.ondieEccControl i ≠ 0 then .error (.error (hw.ondieEccControl i)) else diesLoop hw dies

def mtkSnandSetup (soc : Soc) (hw : Hardware) (quadSpi : Bool) (info : FlashInfo) :
    Except Stop Snf := do
  let nfiSoc := soc.nfiSoc
  let writesize := info.memorg.pagesize.toNat
  let snf := { Snf.zeroed with writesize := writesize, oobsize := info.memorg.sparesize.toNat }
  let snf ← selectOpcodeRfc (snfiCaps quadSpi) info.capRd snf
  let snf ← selectOpcodePl (snfiCaps quadSpi) info.capPl snf
  let snf := { snf with eccSteps := writesize / nfiSoc.sectorSize }
  if snf.eccSteps > nfiSoc.maxSectors then .error (.error enotsupp)
  else
    let snf ← pagefmtSetup nfiSoc snf
    let maxEccBytes := (snf.sparePerSector + 2 ^ 32 - nfiSoc.fdmSize) % 2 ^ 32
    let snf ← mtkEccSetup hw soc.eccSoc maxEccBytes (nfiSoc.sectorSize + nfiSoc.fdmEccSize) snf
    diesLoop hw (List.range info.memorg.ndies.toNat)
    .ok snf

end Immwrt.Snand
