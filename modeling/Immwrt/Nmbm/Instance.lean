import Immwrt.Nmbm.Phys

/-!
# The instance

The members of `struct nmbm_instance` that change in a run, the block state bitmap, and the two walks
that count good blocks. The structures stored on flash start with a `struct nmbm_header` whose
checksum covers the whole structure with the checksum field itself taken as zero.

`Sys` is an instance with its device. Its last member records what happened, for the properties: no
function reads it.
-/

namespace Immwrt.Nmbm

/-! ### Headers -/

def magicSignature : Word := 0x304d4d4e
def magicInfoTable : Word := 0x314d4d4e

/-- `NMBM_VER`: major 1 in the low half, minor 0 in the high half. -/
def version : Word := 1

-- offsets of the members of `struct nmbm_header`
def hdrMagic : Nat := 0
def hdrVersion : Nat := 4
def hdrSize : Nat := 8
def hdrChecksum : Nat := 12
def headerSize : Nat := 16

def zeroChecksum (buf : List Byte) : List Byte := splice buf hdrChecksum (u32le 0)

/-- `nmbm_check_header`: the header is summed first, then the rest. -/
def checkHeader (data : List Byte) (size : Nat) : Bool :=
  let hsize := (getU32 data hdrSize).toNat
  if hsize > size then false
  else
    let sum := crc32 0 ((zeroChecksum data).take headerSize)
    let sum := if hsize > headerSize then crc32 sum (slice data headerSize (hsize - headerSize))
      else sum
    getU32 data hdrChecksum = sum

/-- `nmbm_update_checksum`: the structure is summed in one piece. -/
def updateChecksum (buf : List Byte) : List Byte :=
  let cleared := zeroChecksum buf
  splice cleared hdrChecksum (u32le (crc32 0 (cleared.take (getU32 buf hdrSize).toNat)))

/-- `struct nmbm_signature` without its header. -/
structure Signature where
  nandSize : Nat
  blockSize : Nat
  pageSize : Nat
  spareSize : Nat
  mgmtStartPb : Nat
  maxTryCount : Nat
  deriving DecidableEq, Repr

/-- `sizeof(struct nmbm_signature)`: 44 bytes of members, padded to the alignment of `nand_size`. -/
def signatureSize : Nat := 48

def Signature.bytes (sig : Signature) : List Byte :=
  updateChecksum (wordsLe [magicSignature, version, BitVec.ofNat 32 signatureSize, 0,
    BitVec.ofNat 32 sig.nandSize, BitVec.ofNat 32 (sig.nandSize / 2 ^ 32),
    BitVec.ofNat 32 sig.blockSize, BitVec.ofNat 32 sig.pageSize, BitVec.ofNat 32 sig.spareSize,
    BitVec.ofNat 32 sig.mgmtStartPb, BitVec.ofNat 32 (sig.maxTryCount % 256), 0])

def Signature.ofBytes (buf : List Byte) : Signature where
  nandSize := (getU32 buf 16).toNat + 2 ^ 32 * (getU32 buf 20).toNat
  blockSize := (getU32 buf 24).toNat
  pageSize := (getU32 buf 28).toNat
  spareSize := (getU32 buf 32).toNat
  mgmtStartPb := (getU32 buf 36).toNat
  maxTryCount := (getU32 buf 40).toNat % 256

/-- `struct nmbm_info_table_header` -/
structure InfoTableHeader where
  magic : Word
  version : Word
  size : Word
  checksum : Word
  writeCount : Word
  stateTableOff : Word
  mappingTableOff : Word
  padding : Word
  deriving DecidableEq, Repr

def InfoTableHeader.bytes (h : InfoTableHeader) : List Byte :=
  wordsLe [h.magic, h.version, h.size, h.checksum, h.writeCount, h.stateTableOff,
    h.mappingTableOff, h.padding]

def InfoTableHeader.ofBytes (buf : List Byte) : InfoTableHeader where
  magic := getU32 buf 0
  version := getU32 buf 4
  size := getU32 buf 8
  checksum := getU32 buf 12
  writeCount := getU32 buf 16
  stateTableOff := getU32 buf 20
  mappingTableOff := getU32 buf 24
  padding := getU32 buf 28

/-! ### Block states -/

abbrev BlockSt := BitVec 2

def blockStBad : BlockSt := 0
def blockStNeedRemap : BlockSt := 2
def blockStGood : BlockSt := 3

/-- `nmbm_get_block_state_raw` -/
def getBlockStateRaw (blockState : List Word) (ba : Nat) : BlockSt :=
  (blockState.getD (ba / 16) 0).extractLsb' (ba % 16 * 2) 2

def setBlockStateRaw (blockState : List Word) (ba : Nat) (state : BlockSt) : List Word :=
  let shift := ba % 16 * 2
  let uv := blockState.getD (ba / 16) 0 &&& ~~~((3 : Word) <<< shift)
  blockState.set (ba / 16) (uv ||| (state.setWidth 32 <<< shift))

/-! ### Block mapping -/

/-- An `int32_t` as it is stored. -/
def ofInt32 (v : Int) : Word := BitVec.ofInt 32 v

/-- A stored word read as an `int32_t`. -/
def toInt32 (w : Word) : Int := w.toInt

/-- An `int32_t` converted to `uint32_t`, as the comparisons of `nmbm_check_info_table` do. -/
def asUInt32 (v : Int) : Nat := (v % 2 ^ 32).toNat

/-! ### The instance -/

structure Instance where
  signature : Signature
  infoTableCache : List Byte
  infoTable : InfoTableHeader
  blockState : List Word
  blockStateChanged : Nat
  blockMapping : List Int
  blockMappingChanged : Nat
  isProtected : Bool
  dataBlockCount : Nat
  mgmtStartBa : Nat
  mainTableBa : Nat
  backupTableBa : Nat
  mappingBlocksBa : Nat
  mappingBlocksTopBa : Nat
  signatureBa : Nat
  deriving DecidableEq, Repr

def Instance.getBlockState (ni : Instance) (ba : Nat) : BlockSt := getBlockStateRaw ni.blockState ba

/-- `nmbm_set_block_state` -/
def Instance.setBlockState (ni : Instance) (ba : Nat) (state : BlockSt) : Instance :=
  { ni with
    blockState := setBlockStateRaw ni.blockState ba state
    blockStateChanged := if ni.getBlockState ba = state then ni.blockStateChanged
      else ni.blockStateChanged + 1 }

def Instance.mapping (ni : Instance) (lb : Nat) : Int := ni.blockMapping.getD lb (-1)

/-- The tables differ from what was written last. -/
def Instance.changed (ni : Instance) : Bool := ni.blockStateChanged != 0 || ni.blockMappingChanged != 0

/-- `nmbm_init_structure` on zeroed memory. -/
def initStructure (nld : LowerDevice) : Instance where
  signature := ⟨0, 0, 0, 0, 0, 0⟩
  infoTableCache := List.replicate nld.infoTableSize 0
  infoTable := ⟨0, 0, 0, 0, 0, BitVec.ofNat 32 nld.stateTableOff,
    BitVec.ofNat 32 nld.mappingTableOff, 0⟩
  blockState := List.replicate nld.stateWords (BitVec.allOnes 32)
  blockStateChanged := 0
  blockMapping := List.replicate nld.blockCount 0
  blockMappingChanged := 0
  isProtected := false
  dataBlockCount := 0
  mgmtStartBa := 0
  mainTableBa := 0
  backupTableBa := 0
  mappingBlocksBa := 0
  mappingBlocksTopBa := 0
  signatureBa := 0

/-! ### Walks -/

/-- `nmbm_block_walk_asc` from `ba` over `n` blocks: the block reached after `count` good ones. -/
def walkAsc (blockState : List Word) : Nat → Nat → Nat → Option Nat
  | 0, _, _ => none
  | n + 1, ba, count =>
      if getBlockStateRaw blockState ba = blockStGood then
        match count with
        | 0 => some ba
        | count + 1 => walkAsc blockState n (ba + 1) count
      else walkAsc blockState n (ba + 1) count

def clampLimit (nld : LowerDevice) (limit : Nat) : Nat :=
  if limit ≥ nld.blockCount then nld.blockCount - 1 else limit

def blockWalkAsc (nld : LowerDevice) (ni : Instance) (ba count limit : Nat) : Option Nat :=
  walkAsc ni.blockState (clampLimit nld limit - ba) ba count

/-- `nmbm_block_walk_desc` from `ba` down over `n` blocks. -/
def walkDesc (blockState : List Word) : Nat → Nat → Nat → Option Nat
  | 0, _, _ => none
  | n + 1, ba, count =>
      if getBlockStateRaw blockState ba = blockStGood then
        match count with
        | 0 => some ba
        | count + 1 => walkDesc blockState n (ba - 1) count
      else walkDesc blockState n (ba - 1) count

def blockWalkDesc (nld : LowerDevice) (ni : Instance) (ba count limit : Nat) : Option Nat :=
  walkDesc ni.blockState (ba - clampLimit nld limit) ba count

/-- `nmbm_try_reserve_blocks` with `min_count = 0`: skip `count` good blocks, or as many as there
are. -/
def tryReserveBlocks (nld : LowerDevice) (ni : Instance) (ba limit : Nat) : Nat → Option Nat
  | 0 => blockWalkAsc nld ni ba 0 limit
  | count + 1 =>
      match blockWalkAsc nld ni ba (count + 1) limit with
      | some nba => some nba
      | none => tryReserveBlocks nld ni ba limit count

/-! ### Runs -/

/-- The info-table code erased or programmed block `ba` while these were the mapping, the number of
logical blocks and the signature block. -/
structure MgmtAccess where
  ba : Nat
  blockMapping : List Int
  dataBlockCount : Nat
  signatureBa : Nat
  deriving DecidableEq, Repr

/-- What happened in a run. -/
structure History where
  /-- erased or programmed by the info-table code, latest first -/
  mgmt : List MgmtAccess
  /-- at each walk of `nmbm_map_block`: the state of the block at `mapping_blocks_top_ba` -/
  mapTops : List BlockSt
  /-- each logical block set to `-1`, and whether a change was pending when the tables were updated -/
  unmapped : List (Nat × Bool)
  /-- where each completed table starts, and the block after its end -/
  tables : List (Nat × Nat)
  /-- block after the end of the table at `main_table_ba`, and at `backup_table_ba` -/
  mainTableEba : Nat
  backupTableEba : Nat
  /-- blocks the info-table code found bad since the last image was generated -/
  badFound : List Nat
  deriving DecidableEq, Repr

structure Sys where
  ni : Instance
  dev : Device
  hist : History

end Immwrt.Nmbm
