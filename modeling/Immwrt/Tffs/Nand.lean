import Immwrt.Tffs.Nor

/-!
# A TFFS partition in NAND flash

The value of an entry is in segments, each in a sector of its own and in any order. A segment has a number, the number
of the next one, and a revision; only the highest revision counts. The reader first looks for the sectors that are good,
and then goes through all of them for each id. Pointers have 64 bits, and memory runs out for the array of the segments
only.
-/

namespace Immwrt.Tffs

/-- `TFFS_BLOCK_HEADER_MAGIC` -/
def tffsBlockHeaderMagic : BitVec 64 := 0x41564d5f54464653

/-- `TFFS_ENTRY_HEADER_SIZE` -/
def tffsEntryHeaderSize : Nat := 0x18

/-- `TFFS_SECTOR_SIZE` -/
def tffsSectorSize : Nat := 0x800

/-- `TFFS_MAXIMUM_SEGMENT_SIZE` -/
def tffsMaximumSegmentSize : Nat := tffsSectorSize - tffsEntryHeaderSize

/-- `TFFS_SECTORS_PER_PAGE` -/
def tffsSectorsPerPage : Word := 2

/-- `TFFS_SEGMENT_CLEARED` -/
def tffsSegmentCleared : Word := 0xffffffff

/-- `sizeof(struct tffs_entry_segment)` -/
def segmentSlotSize : Nat := 16

/-- What a reader of NAND flash stops with: an access to what is not there, or a good sector that cannot be read. -/
inductive NandFault where
  | overrun
  | unreadable
  deriving DecidableEq

/-- A device, which sectors of it can be read, the order of the bytes in the CPU, `-b` and `-o`, and the most bytes that
`realloc` returns. -/
structure Nand where
  size : Word
  erasesize : Word
  flash : Nat → Byte
  oob : Nat → Nat → Byte
  readable : Nat → Bool
  oobReadable : Nat → Bool
  bigEndian : Bool
  swapBytes : Bool
  readOobSectorHealth : Bool
  heap : Nat
  erasesize_pos : 0 < erasesize.toNat
  sectorSize_dvd : tffsSectorSize ∣ erasesize.toNat

/-! ### Good sectors -/

/-- A bit for each sector. -/
structure Sectors where
  numSectors : Nat
  bits : List Byte
  deriving DecidableEq

namespace Sectors

variable (sectors : Sectors)

/-- `sector_mark_bad` of a sector that there is. -/
def markBad (num : Int) : Except NandFault Sectors :=
  if 0 ≤ num ∧ num < sectors.numSectors then
    .ok { sectors with bits := sectors.bits.modify (num.toNat / 8) (· &&& ~~~ (0x80#8 >>> (num.toNat % 8))) }
  else .error .overrun

/-- The bit of a sector. -/
def isGood (num : Nat) : Bool := sectors.bits.getD (num / 8) 0 &&& (0x80#8 >>> (num % 8)) ≠ 0

/-- `sector_get_good` of a sector that there is. -/
def getGood (num : Int) : Except NandFault Bool :=
  if 0 ≤ num ∧ num < sectors.numSectors then .ok (sectors.isGood num.toNat) else .error .overrun

end Sectors

namespace Nand

/-- `TFFS_ID_END` -/
def tffsIdEnd : Word := 0xffffffff

/-- `TFFS_ID_TABLE_NAME` -/
def tffsIdTableName : Word := 0x1ff

variable (nand : Nand)

def readUint32 (buf : Nat → Byte) (off : Nat) : Word :=
  if nand.bigEndian || nand.swapBytes then ofBe (bytesAt buf off 4) else ofLe (bytesAt buf off 4)

def readUint64 (buf : Nat → Byte) (off : Nat) : BitVec 64 :=
  if nand.bigEndian || nand.swapBytes then ofBe (bytesAt buf off 4) ++ ofBe (bytesAt buf (off + 4) 4)
  else ofLe (bytesAt buf (off + 4) 4) ++ ofLe (bytesAt buf off 4)

/-- What `readbuf` holds after a sector is read. -/
def sectorBuf (sector : Nat) : Nat → Byte := fun i => nand.flash (sector * tffsSectorSize + i)

/-- The first sector of a block. -/
abbrev IsFirst (sector : Nat) : Prop := sector * tffsSectorSize % nand.erasesize.toNat = 0

def checkSector (sector : Nat) : Bool :=
  !nand.readOobSectorHealth ||
    (nand.oobReadable sector && nand.oob sector 0 == 0xff && nand.oob sector 1 == 0xff)

/-- A sector with the header of a block. -/
abbrev HasHeader (sector : Nat) : Prop :=
  nand.checkSector sector ∧ nand.readable sector ∧
    nand.readUint64 (nand.sectorBuf sector) 0 = tffsBlockHeaderMagic ∧
    nand.readUint32 (nand.sectorBuf sector) 0x0c = tffsSectorsPerPage

/-- The number of a bad sector in the header of a block. -/
def hdrBad (sector i : Nat) : Word :=
  (BitVec.ofNat 64 sector + nand.readUint64 (nand.sectorBuf sector) (0x1c + 8 * i)).setWidth 32

def markHdrBad (sector : Nat) (sectors : Sectors) (i : Nat) : Except NandFault Sectors :=
  sectors.markBad (nand.hdrBad sector i).toInt

/-- `check_block`: whether there is a header, and the sectors. -/
def checkBlock (sectors : Sectors) (sector : Nat) : Except NandFault (Bool × Sectors) :=
  if nand.HasHeader sector then
    -- the number of sectors per page is taken for that of bad sectors
    match (List.range (nand.readUint32 (nand.sectorBuf sector) 0x0c).toNat).foldlM (nand.markHdrBad sector) sectors with
    | .error fault => .error fault
    | .ok sectors => .ok (true, sectors)
  else .ok (false, sectors)

structure ScanState where
  sectors : Sectors
  blockOk : Bool
  validBlocks : Nat

/-- A turn of `scan_mtd`. -/
def scanTurn (s : ScanState) (sector : Nat) : Except NandFault ScanState :=
  if nand.IsFirst sector then
    match nand.checkBlock s.sectors sector with
    | .error fault => .error fault
    | .ok (blockOk, sectors) =>
      match sectors.markBad sector with
      | .error fault => .error fault
      | .ok sectors => .ok ⟨sectors, blockOk, if blockOk then s.validBlocks + 1 else s.validBlocks⟩
  else
    let mark : Except NandFault ScanState :=
      match s.sectors.markBad sector with
      | .error fault => .error fault
      | .ok sectors => .ok { s with sectors }
    if !s.blockOk then mark
    else
      match s.sectors.getGood sector with
      | .error fault => .error fault
      | .ok good => if !good || !nand.checkSector sector then mark else .ok s

/-- The sectors of the device, all of them good. -/
def allSectors : Sectors where
  numSectors := nand.size.toNat / tffsSectorSize
  bits := List.replicate ((nand.size.toNat / tffsSectorSize + 7) / 8) 0xff

/-- `scan_mtd`, which goes on as long as there is a byte left. -/
def scanMtd : Except NandFault ScanState :=
  (List.range ((nand.size.toNat + (tffsSectorSize - 1)) / tffsSectorSize)).foldlM nand.scanTurn ⟨nand.allSectors, false, 0⟩

/-! ### Entries -/

/-- A segment, as it is in its sector. -/
structure Segment where
  rev : Word
  seg : Word
  nextSeg : Word
  val : List Byte
  deriving DecidableEq

/-- The slots of the segments of one revision, empty or with a value. -/
structure Assembly where
  rev : Word
  segments : List (Option (List Byte))

/-- The array with more slots. -/
def grow (segments : List (Option (List Byte))) (count : Nat) : Except NandFault (List (Option (List Byte))) :=
  -- the number of bytes is added to a pointer to slots
  let cleared := segments.length * segmentSlotSize
  if count * segmentSlotSize ≤ nand.heap ∧ cleared + (count - segments.length) ≤ count then
    .ok (segments ++ List.replicate (count - segments.length) none)
  else .error .overrun

/-- `new_num_segs` -/
def Segment.count (segment : Segment) : Nat :=
  (if segment.nextSeg = 0 then segment.seg + 1 else segment.nextSeg + 1).toNat

/-- What `find_entry` does with a segment of the id. -/
def takeSegment (s : Assembly) (segment : Segment) : Except NandFault Assembly :=
  if segment.rev < s.rev then .ok s
  else
    let s := if s.rev < segment.rev then ⟨segment.rev, []⟩ else s
    if segment.seg = tffsSegmentCleared then .ok s
    else
      match (if s.segments.length < segment.count then nand.grow s.segments segment.count else .ok s.segments) with
      | .error fault => .error fault
      | .ok segments =>
        if segment.seg.toNat < segments.length then
          .ok { s with segments := segments.set segment.seg.toNat (some segment.val) }
        else .error .overrun

/-- What there is in a good sector for an id. -/
inductive Look where
  | unreadable
  | nothing
  | endMarker
  | segment (segment : Segment)

def segmentAt (sector : Nat) : Segment where
  rev := nand.readUint32 (nand.sectorBuf sector) 0x0c
  seg := nand.readUint32 (nand.sectorBuf sector) 0x10
  nextSeg := nand.readUint32 (nand.sectorBuf sector) 0x14
  val := bytesAt (nand.sectorBuf sector) tffsEntryHeaderSize (nand.readUint32 (nand.sectorBuf sector) 0x04).toNat

/-- With `-o`, the metadata of a sector must be the same in its OOB data. -/
abbrev Consistent (sector : Nat) : Prop :=
  nand.readOobSectorHealth →
    nand.readUint32 (nand.oob sector) 0x02 = nand.readUint32 (nand.sectorBuf sector) 0x00 ∧
    nand.readUint32 (nand.oob sector) 0x06 = nand.readUint32 (nand.sectorBuf sector) 0x04 ∧
    nand.readUint32 (nand.oob sector) 0x0a = nand.readUint32 (nand.sectorBuf sector) 0x0c

def look (id : Word) (sector : Nat) : Look :=
  if ¬ (nand.oobReadable sector ∧ nand.readable sector) then .unreadable
  else if ¬ nand.Consistent sector then .nothing
  else
    let readId := nand.readUint32 (nand.sectorBuf sector) 0x00
    if readId = tffsIdEnd then .endMarker
    else if tffsMaximumSegmentSize < (nand.readUint32 (nand.sectorBuf sector) 0x04).toNat then .nothing
    else if readId = id then .segment (nand.segmentAt sector)
    else .nothing

structure FindState where
  blockEnd : Bool
  assembly : Assembly

/-- A turn of `find_entry`. -/
def findTurn (sectors : Sectors) (id : Word) (s : FindState) (sector : Nat) : Except NandFault FindState :=
  if s.blockEnd then .ok { s with blockEnd := ¬ nand.IsFirst sector }
  else
    match sectors.getGood sector with
    | .error fault => .error fault
    | .ok false => .ok s
    | .ok true =>
      match nand.look id sector with
      | .unreadable => .error .unreadable
      | .nothing => .ok s
      | .endMarker => .ok { s with blockEnd := true }
      | .segment segment =>
        match nand.takeSegment s.assembly segment with
        | .error fault => .error fault
        | .ok assembly => .ok { s with assembly }

/-- The value of an entry, if there are segments and none of them is missing. -/
def Assembly.value (s : Assembly) : Option (List Byte) :=
  if s.segments.length = 0 then none else (s.segments.mapM id).map List.flatten

def findEntry (sectors : Sectors) (id : Word) : Except NandFault (Option (List Byte)) :=
  match (List.range sectors.numSectors).foldlM (nand.findTurn sectors id) ⟨false, 0, []⟩ with
  | .error fault => .error fault
  | .ok s => .ok s.assembly.value

/-! ### Names -/

/-- The name table, whose names have an id. -/
def namesTurn (table : List Byte) : Word × List (Word × List Byte) →
    Except NandFault (List (Word × List Byte)) ⊕ (Word × List (Word × List Byte))
  | (pos, items) =>
    if pos.toNat + 4 ≤ table.length then
      let id := nand.readUint32 (table.getD · 0) pos.toNat
      let rest := table.drop (pos + 4).toNat
      if 0 ∈ rest then
        let name := rest.takeWhile (· ≠ 0)
        let next := pos + 4 + Nor.walkSize (BitVec.ofNat 32 (name.length + 1))
        if next < BitVec.ofNat 32 table.length then .inr (next, items ++ [(id, name)])
        else .inl (.ok (items ++ [(id, name)]))
      else .inl (.error .overrun)
    else .inl (.error .overrun)

/-- `parse_key_names` -/
def parseKeyNames (table : List Byte) (fuel : Nat) : Option (Except NandFault (List (Word × List Byte))) :=
  Loop.run (nand.namesTurn table) fuel (0, [])

/-! ### What the reader is to do -/

/-- Whatever is in the flash, the reader uses bits of sectors, slots of the array and bytes of the name table only. -/
structure Robust : Prop where
  scans : ∃ s, nand.scanMtd = .ok s
  finds : ∀ s id, nand.scanMtd = .ok s → nand.findEntry s.sectors id ≠ .error .overrun
  names : ∀ s table, nand.scanMtd = .ok s → nand.findEntry s.sectors tffsIdTableName = .ok (some table) →
    ∃ fuel items, nand.parseKeyNames table fuel = some (.ok items)

/-- Sectors that can be read, and no first ones of a block. -/
structure Usable (sectors : Sectors) : Prop where
  first : ∀ sector < sectors.numSectors, nand.IsFirst sector → sectors.isGood sector = false
  readable : ∀ sector < sectors.numSectors, sectors.isGood sector → nand.oobReadable sector ∧ nand.readable sector

/-- The block of a sector has no entries behind it. -/
abbrev EndsBlock (sectors : Sectors) (sector : Nat) : Prop :=
  sectors.isGood sector ∧ nand.Consistent sector ∧ nand.readUint32 (nand.sectorBuf sector) 0x00 = tffsIdEnd

/-- A good sector with a segment of an id, and no end marker before it in its block. -/
abbrev HasSegment (sectors : Sectors) (id : Word) (sector : Nat) : Prop :=
  sectors.isGood sector ∧
    (∀ before < sector,
      before * tffsSectorSize / nand.erasesize.toNat = sector * tffsSectorSize / nand.erasesize.toNat →
        ¬ nand.EndsBlock sectors before) ∧
    nand.Consistent sector ∧ id ≠ tffsIdEnd ∧ nand.readUint32 (nand.sectorBuf sector) 0x00 = id ∧
    (nand.readUint32 (nand.sectorBuf sector) 0x04).toNat ≤ tffsMaximumSegmentSize

/-- The segments of an id. -/
def segmentsOf (sectors : Sectors) (id : Word) : List Segment :=
  ((List.range sectors.numSectors).filter fun sector => nand.HasSegment sectors id sector).map nand.segmentAt

end Nand

namespace Nand.Segment

/-- The highest revision. -/
def topRev (segments : List Segment) : Nat := segments.foldl (fun rev segment => max rev segment.rev.toNat) 0

/-- The segments of the highest revision. -/
def newest (segments : List Segment) : List Segment :=
  segments.filter fun segment => segment.rev.toNat = topRev segments

/-- The segments of the highest revision are the parts of a value, each with the number of the next one, but for one
part that may be missing. -/
structure Parts (segments : List Segment) (n : Nat) (missing : Option Nat) : Prop where
  pos : 0 < n
  le : n ≤ tffsSegmentCleared.toNat
  lt : ∀ i, missing = some i → i < n
  uncleared : ∀ segment ∈ newest segments, segment.seg ≠ tffsSegmentCleared
  nodup : ((newest segments).map seg).Nodup
  numbers : ∀ i, (∃ segment ∈ newest segments, segment.seg.toNat = i) ↔ i < n ∧ missing ≠ some i
  links : ∀ segment ∈ newest segments,
    segment.nextSeg.toNat = if segment.seg.toNat + 1 < n then segment.seg.toNat + 1 else 0

/-- The value of the part with a number. -/
def part (segments : List Segment) (i : Nat) : List Byte :=
  ((newest segments).find? fun segment => segment.seg.toNat = i).elim [] val

/-- The value, if no part of it is missing. -/
def joined (segments : List Segment) (n : Nat) : Option Nat → Option (List Byte)
  | none => some ((List.range n).flatMap (part segments))
  | some _ => none

end Nand.Segment

end Immwrt.Tffs
