import Immwrt.Lib.Bytes
import Immwrt.Lib.BlockLog

/-!
# The lower NAND device

NMBM sits on a raw NAND device that it reaches through a handful of callbacks. `LowerDevice` has the
device's members and `Flash` what the chip stores. How the device answers is not NMBM's to decide, so
it is a tape: the `i`-th callback of a run is answered by `tape i`, and every result that holds for
all tapes holds for every device. A device that does not fail is a tape of good answers.

A NAND chip is made of whole pages and whole erase blocks, and the instance structure is allocated
with 32-bit sizes, so a chip whose tables do not fit them has no instance at all: both are recorded
with the geometry.
-/

namespace Immwrt.Nmbm

/-! ### Error numbers -/

def eio : Int := 5
def enodev : Int := 19
def einval : Int := 22
def erofs : Int := 30
def ebadmsg : Int := 74

/-! ### Constants of `nmbm-private.h` -/

def mgmtDiv : Nat := 16
def mgmtBlocksMin : Nat := 32
def tryCount : Nat := 3
def spareBlockMulti : Nat := 1
def spareBlockDiv : Nat := 2
def spareBlockMin : Nat := 2

/-- `nmbm_oob_mode` -/
inductive OobMode where
  | placeOob
  | autoOob
  | raw
  deriving DecidableEq, Repr

/-- The members of `struct nmbm_lower_device`. The two optional callbacks are recorded by whether
they are there. -/
structure LowerDevice where
  maxRatio : Nat
  maxReservedBlocks : Nat
  /-- `NMBM_F_CREATE` -/
  create : Bool
  /-- `NMBM_F_EMPTY_PAGE_ECC_OK` -/
  emptyPageEccOk : Bool
  /-- `NMBM_F_READ_ONLY` -/
  readOnly : Bool
  size : Nat
  erasesize : Nat
  writesize : Nat
  oobsize : Nat
  hasIsBadBlock : Bool
  hasMarkBadBlock : Bool
  deriving DecidableEq, Repr

def isPowerOf2 (n : Nat) : Bool := n != 0 && n &&& (n - 1) == 0

/-- `nmbm_check_lower_members`, which also fills in the default ratio. -/
def checkLowerMembers (nld : LowerDevice) : Option LowerDevice :=
  if !isPowerOf2 nld.size then none
  else if !isPowerOf2 nld.erasesize then none
  else if !isPowerOf2 nld.writesize then none
  else if nld.oobsize = 0 then none
  else
    let nld := if nld.maxRatio = 0 then { nld with maxRatio := 1 } else nld
    if nld.maxRatio ≥ mgmtDiv - 1 then none
    else if nld.maxReservedBlocks ≠ 0 ∧ nld.maxReservedBlocks < mgmtBlocksMin then none
    else some nld

/-! ### Sizes computed by `nmbm_init_structure` -/

/-- `NMBM_ALIGN`, for a power of two. -/
def align (v a : Nat) : Nat := (v + a - 1) / a * a

def LowerDevice.blockCount (nld : LowerDevice) : Nat := nld.size / nld.erasesize

/-- Words of the block state bitmap: sixteen blocks to a word. -/
def LowerDevice.stateWords (nld : LowerDevice) : Nat := (nld.blockCount + 15) / 16

def LowerDevice.stateTableSize (nld : LowerDevice) : Nat := nld.stateWords * 4

def LowerDevice.mappingTableSize (nld : LowerDevice) : Nat := nld.blockCount * 4

/-- `sizeof(struct nmbm_info_table_header)` -/
def infoTableHeaderSize : Nat := 32

def LowerDevice.stateTableOff (nld : LowerDevice) : Nat := align infoTableHeaderSize nld.writesize

def LowerDevice.mappingTableOff (nld : LowerDevice) : Nat :=
  nld.stateTableOff + align nld.stateTableSize nld.writesize

def LowerDevice.infoTableSize (nld : LowerDevice) : Nat :=
  nld.mappingTableOff + align nld.mappingTableSize nld.writesize

def LowerDevice.size2blk (nld : LowerDevice) (size : Nat) : Nat :=
  (size + nld.erasesize - 1) / nld.erasesize

/-- Erase blocks of an info table. -/
def LowerDevice.infoTableBlocks (nld : LowerDevice) : Nat := nld.size2blk nld.infoTableSize

/-- `nmbm_get_spare_block_count` -/
def getSpareBlockCount (blockCount : Nat) : Nat :=
  let val := (blockCount + spareBlockDiv / 2) / spareBlockDiv * spareBlockMulti
  if val < spareBlockMin then spareBlockMin else val

def LowerDevice.infoTableSpareBlocks (nld : LowerDevice) : Nat :=
  getSpareBlockCount nld.infoTableBlocks

def LowerDevice.addr2ba (nld : LowerDevice) (addr : Nat) : Nat := addr / nld.erasesize

def LowerDevice.ba2addr (nld : LowerDevice) (ba : Nat) : Nat := ba * nld.erasesize

/-- A 32-bit subtraction. -/
def sub32 (a b : Nat) : Nat := (a + 2 ^ 32 - b) % 2 ^ 32

/-- The geometry of a chip that has an instance: the members passed `nmbm_check_lower_members`, a
block is made of whole pages, the chip of whole blocks, and the tables fit 32-bit sizes. -/
structure Geometry (nld : LowerDevice) : Prop where
  checked : checkLowerMembers nld = some nld
  writesize_dvd : nld.writesize ∣ nld.erasesize
  erasesize_dvd : nld.erasesize ∣ nld.size
  fits : nld.infoTableSize < 2 ^ 32

/-! ### What the chip stores -/

/-- Main area by linear address, spare area by page address and offset. -/
structure Flash where
  mem : Nat → Byte
  oob : Nat → Nat → Byte

/-- What the device answers to one callback, whichever it is. A failed erase leaves the block with the
contents of `torn`, a failed program what it was to program, and a failed read delivers those. -/
structure Answer where
  readRet : Int
  writeRet : Int
  eraseRet : Int
  markRet : Int
  /-- `is_bad_block` contradicts the mark on the block -/
  lie : Bool
  torn : Flash

/-- An answer that reports no failure. -/
def Answer.Ok (a : Answer) : Prop :=
  0 ≤ a.readRet ∧ a.writeRet = 0 ∧ a.eraseRet = 0 ∧ a.markRet = 0 ∧ a.lie = false

/-- The device in a run: the flash, the tape of answers with the number already used, the erase and
program operations so far (latest first), and the page buffer transfers go through. -/
structure Device where
  flash : Flash
  tape : Nat → Answer
  pos : Nat
  ops : List (BlockWrite Flash)
  pageCache : List Byte

def Device.answer (d : Device) : Answer := d.tape d.pos

/-- The device after a callback: one answer is used up. -/
def Device.next (d : Device) : Device := { d with pos := d.pos + 1 }

/-- From here on the device does not fail. -/
def Device.Healthy (d : Device) : Prop := ∀ i, d.pos ≤ i → (d.tape i).Ok

/-- A block carries a bad block mark: the first spare byte of its first page is not `0xff`. -/
def Flash.marked (nld : LowerDevice) (f : Flash) (ba : Nat) : Bool :=
  f.oob (nld.ba2addr ba) 0 != 0xff

/-- `f` with everything of block `ba` taken from `g`. -/
def Flash.withBlock (nld : LowerDevice) (f g : Flash) (ba : Nat) : Flash where
  mem x := if x / nld.erasesize = ba then g.mem x else f.mem x
  oob x := if x / nld.erasesize = ba then g.oob x else f.oob x

def Flash.erased : Flash where
  mem _ := 0xff
  oob _ _ := 0xff

/-- Spare bytes sent with a page program. Automatic placement leaves the mark alone. -/
def programOob (old : Nat → Byte) (oob : List Byte) : OobMode → Nat → Byte
  | .autoOob => store old 1 oob
  | _ => store old 0 oob

/-- `f` with a page programmed. -/
def Flash.program (f : Flash) (addr : Nat) (data oob : Option (List Byte)) (mode : OobMode) :
    Flash where
  mem := match data with
    | some bytes => store f.mem addr bytes
    | none => f.mem
  oob := match oob with
    | some bytes => fun x => if x = addr then programOob (f.oob x) bytes mode else f.oob x
    | none => f.oob

/-! ### The callbacks -/

/-- `read_page`: the return value and the main data. -/
def Device.readPage (nld : LowerDevice) (d : Device) (addr : Nat) :
    (Int × List Byte) × Device :=
  let a := d.answer
  let source := if 0 ≤ a.readRet then d.flash else a.torn
  ((a.readRet, bytesAt source.mem addr nld.writesize), d.next)

/-- A raw read of a page's spare area: the return value and the byte that holds the mark. -/
def Device.readMark (d : Device) (addr : Nat) : (Int × Byte) × Device :=
  let a := d.answer
  let source := if 0 ≤ a.readRet ∨ a.readRet = -ebadmsg then d.flash else a.torn
  ((a.readRet, source.oob addr 0), d.next)

def Device.record (nld : LowerDevice) (d : Device) (addr : Nat) (f : Flash) : Device :=
  { d.next with flash := f, ops := ⟨addr / nld.erasesize, f⟩ :: d.ops }

/-- `write_page` -/
def Device.writePage (nld : LowerDevice) (d : Device) (addr : Nat) (data oob : Option (List Byte))
    (mode : OobMode) : Int × Device :=
  let a := d.answer
  let source := if a.writeRet = 0 then d.flash.program addr data oob mode
    else d.flash.program addr (data.map fun bytes => bytesAt a.torn.mem addr bytes.length)
      (oob.map fun bytes => bytesAt (a.torn.oob addr) 0 bytes.length) mode
  (a.writeRet, d.record nld addr (d.flash.withBlock nld source (addr / nld.erasesize)))

/-- `erase_block` -/
def Device.eraseBlock (nld : LowerDevice) (d : Device) (addr : Nat) : Int × Device :=
  let a := d.answer
  let source := if a.eraseRet = 0 then Flash.erased else a.torn
  (a.eraseRet, d.record nld addr (d.flash.withBlock nld source (addr / nld.erasesize)))

/-- `is_bad_block` -/
def Device.isBadBlock (nld : LowerDevice) (d : Device) (ba : Nat) : Bool × Device :=
  (xor (d.flash.marked nld ba) d.answer.lie, d.next)

/-- `mark_bad_block` -/
def Device.markBadBlock (nld : LowerDevice) (d : Device) (ba : Nat) : Device :=
  let f := if d.answer.markRet = 0 then
      d.flash.program (nld.ba2addr ba) none (some [0]) .raw
    else d.flash
  d.record nld (nld.ba2addr ba) (d.flash.withBlock nld f ba)

end Immwrt.Nmbm
