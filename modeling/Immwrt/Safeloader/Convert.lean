import Immwrt.Safeloader.Image

/-!
# SafeLoader sysupgrade images

A sysupgrade image is a stretch of the flash, from the first partition that an upgrade writes to the last. It
is generated from the contents of the partitions, or converted from a factory image, whose `partition-table`
partition has the flash layout as text.
-/

namespace Immwrt.Safeloader

def maxPartitions : Nat := 32

/-- A name without white space that ends a word or a line. -/
structure IsWord (name : CString) : Prop where
  noSpace : 0x20 ∉ name.bytes
  noNewline : 0x0A ∉ name.bytes

/-- An entry of the board table. The partitions are listed in the order of their places in the flash, where
they do not overlap, and their names are distinct words. -/
structure Board extends DeviceInfo where
  id : CString
  supportList : CString
  partTrail : Nat
  softVer : Option CString
  softVerCompatLevel : Word
  firstSysupgradePartition : CString
  lastSysupgradePartition : CString
  count : partitions.length ≤ maxPartitions
  ordered : partitions.Pairwise fun part next => part.base.toNat + part.size.toNat ≤ next.base.toNat
  distinct : partitions.Pairwise fun part next => part.name ≠ next.name
  words : ∀ part ∈ partitions, IsWord part.name

/-! ### The partitions of an image -/

def metaPartitionShouldPad (padValue : Nat) : Bool := padValue ≤ 0xff

/-- A header with the length, the data, and for some devices one byte more. -/
def initMetaPartitionEntry (name : CString) (data : List Byte) (padValue : Nat) : ImagePartition where
  name := name
  data := u32be data.length ++ u32be 0 ++ data ++
    if metaPartitionShouldPad padValue then [BitVec.ofNat 8 padValue] else []

def flashLine (part : FlashPartition) : List Byte :=
  ofChars "partition " ++ part.name.bytes ++ ofChars " base 0x" ++ printfHex false 5 part.base.toNat ++
    ofChars " size 0x" ++ printfHex false 5 part.size.toNat ++ ofChars "\n"

/-- The loop of `make_partition_table`, with the text that is already there; `none` when the program exits. -/
def putFlashLines : List FlashPartition → List Byte → Option (List Byte)
  | [], text => some text
  | part :: parts, text =>
    let len := 0x800 - (4 + text.length)
    if (flashLine part).length > len - 1 then none else putFlashLines parts (text ++ flashLine part)

/-- The byte after the text is the zero that ends its last line; without a line it is what `malloc` left. -/
def makePartitionTable (malloc : Byte) (flash : List FlashPartition) : Option ImagePartition :=
  (putFlashLines flash []).map fun text =>
    { name := .lit "partition-table"
      data := [0x00, 0x04, 0x00, 0x00] ++ text ++ [if flash = [] then malloc else 0] ++
        List.replicate (0x800 - (4 + text.length + 1)) 0xff }

/-- The date in `struct tm`. -/
structure Tm where
  tmYear : Nat
  tmMon : Nat
  tmMday : Nat

def bcd (v : Byte) : Byte := 0x10 * (v / 10) + v % 10

/-- `struct soft_version`, without the compatibility level when that is zero. -/
def softVersion (tm : Tm) (compatLevel : Word) : List Byte :=
  [0xff, 0, 0, 0, bcd (BitVec.ofNat 8 ((1900 + tm.tmYear) / 100)), bcd (BitVec.ofNat 8 (tm.tmYear % 100)),
    bcd (BitVec.ofNat 8 (tm.tmMon + 1)), bcd (BitVec.ofNat 8 tm.tmMday)] ++ u32be 0 ++
      if compatLevel = 0 then [] else u32be compatLevel.toNat

def Board.makeSoftVersion (board : Board) (tm : Tm) : ImagePartition :=
  initMetaPartitionEntry (.lit "soft-version")
    (match board.softVer with
      | some text => text.bytes ++ [0]
      | none => softVersion tm board.softVerCompatLevel) board.partTrail

def Board.makeSupportList (board : Board) : ImagePartition :=
  initMetaPartitionEntry (.lit "support-list") board.supportList.bytes board.partTrail

def tolower (c : Byte) : Byte := if 0x41 ≤ c ∧ c ≤ 0x5A then c + 0x20 else c

/-- `strcasecmp(s, t) == 0` -/
def strcaseeq (s t : CString) : Bool := s.bytes.map tolower = t.bytes.map tolower

/-- Some devices need the extra-para partition to accept the firmware. -/
def Board.extraPara (board : Board) : Option (List Byte) :=
  if ["ARCHER-A6-V3", "ARCHER-A7-V5", "ARCHER-C2-V3", "ARCHER-C7-V4", "ARCHER-C7-V5", "ARCHER-C25-V1",
      "ARCHER-C59-V2", "ARCHER-C60-V2", "ARCHER-C60-V3", "ARCHER-C6U-V1", "TLWR1043NV5"].any
        fun id => strcaseeq board.id (.lit id) then some [0x01, 0x00]
  else if strcaseeq board.id (.lit "ARCHER-C6-V2") then some [0x00, 0x01]
  else if ["ARCHER-C6-V2-US", "EAP245-V3"].any fun id => strcaseeq board.id (.lit id) then some [0x01, 0x01]
  else none

def Board.makeExtraPara (board : Board) : List ImagePartition :=
  (board.extraPara.map fun data => initMetaPartitionEntry (.lit "extra-para") data board.partTrail).toList

/-- The partitions that `build_image` makes an image from, for a layout without a partition `firmware`;
`kernel` and `rootfs` are what it read. -/
def Board.parts (board : Board) (malloc : Byte) (tm : Tm) (kernel rootfs : List Byte) :
    Option (List ImagePartition) :=
  (makePartitionTable malloc board.partitions).map fun table =>
    [table, board.makeSoftVersion tm, board.makeSupportList, { name := .lit "os-image", data := kernel },
      { name := .lit "file-system", data := rootfs }] ++ board.makeExtraPara

/-! ### Generating -/

/-- The first and the last partition of an upgrade, with their places in the layout. -/
structure Ends where
  first : Option (Nat × FlashPartition)
  last : Option (Nat × FlashPartition)

def Board.findEnds (board : Board) : List FlashPartition → Nat → Ends → Ends
  | [], _, ends => ends
  | part :: parts, i, ends =>
    board.findEnds parts (i + 1)
      (if part.name = board.firstSysupgradePartition then { ends with first := some (i, part) }
      else if part.name = board.lastSysupgradePartition then { ends with last := some (i, part) }
      else ends)

/-- The loop over the flash partitions from the first to the last; `none` when the program exits, or would
write outside the image. -/
def copyPartitions (imageParts : List ImagePartition) (first : Word) :
    List FlashPartition → List Byte → Option (List Byte)
  | [], image => some image
  | part :: parts, image =>
    match imageParts.find? fun imagePart => decide (imagePart.name = part.name) with
    | none => copyPartitions imageParts first parts image
    | some imagePart =>
      if imagePart.data.length > part.size.toNat then none
      else if part.base.toNat < first.toNat ∨
          image.length < part.base.toNat - first.toNat + imagePart.data.length then none
      else copyPartitions imageParts first parts (splice image (part.base.toNat - first.toNat) imagePart.data)

/-- `none` when an assertion fails or the program exits. -/
def Board.generateSysupgradeImage (board : Board) (imageParts : List ImagePartition) : Option (List Byte) :=
  match board.findEnds board.partitions 0 { first := none, last := none } with
  | { first := some (i, first), last := some (j, last) } =>
    if i < j then
      match imageParts.find? fun part => decide (part.name = board.lastSysupgradePartition) with
      | none => none
      | some imageLast =>
        copyPartitions imageParts first.base ((board.partitions.drop i).take (j + 1 - i))
          (List.replicate ((last.base - first.base).toNat + imageLast.data.length) 0xff)
    else none
  | _ => none

/-! ### Converting -/

/-- The loop of `write_ff`, from `offset` on. -/
def writeFfFrom (size : Nat) : Nat → Nat → List Byte
  | 0, _ => []
  | fuel + 1, offset =>
    if offset + 4096 < size then List.replicate 4096 0xff ++ writeFfFrom size fuel (offset + 4096)
    else if offset < size then List.replicate (size - offset) 0xff
    else []

def writeFf (size : Nat) : List Byte := writeFfFrom size (size / 4096 + 1) 0

/-- Writing at a position of a file, which grows by zeros up to it if there is anything to write. -/
def fwriteAt (file : List Byte) (pos : Nat) (data : List Byte) : List Byte :=
  if data = [] then file
  else file.take pos ++ List.replicate (pos - file.length) 0 ++ data ++ file.drop (pos + data.length)

def findPartition (entries : List TableEntry) (name : CString) : Option TableEntry :=
  entries.find? fun entry => decide (entry.name = name)

/-- A table of at most `MAX_PARTITIONS` entries that has to be there. -/
def readTable (bits : Nat) (file : List Byte) (offset : Nat) (type : TableType) : Option (List TableEntry) :=
  match readPartitionTable bits file offset maxPartitions type with
  | some (0, entries) => some entries
  | _ => none

/-- The file that is written; `none` when the program exits. -/
def convertFirmware (bits : Nat) (file : List Byte) : Option (List Byte) :=
  (readTable bits file tableOffset .fwup).bind fun fwup =>
  (findPartition fwup (.lit "os-image")).bind fun fwupOsImage =>
  (findPartition fwup (.lit "file-system")).bind fun fwupFileSystem =>
  (findPartition fwup (.lit "partition-table")).bind fun fwupPartitionTable =>
  (readTable bits file (tableOffset + fwupPartitionTable.base.toNat + 4) .flash).bind fun flash =>
  (findPartition flash (.lit "os-image")).bind fun flashOsImage =>
  (findPartition flash (.lit "file-system")).bind fun flashFileSystem =>
  (writePartition file tableOffset fwupOsImage).bind fun osImage =>
  (writePartition file tableOffset fwupFileSystem).map fun fileSystem =>
    fwriteAt (osImage ++ writeFf (flashOsImage.size - fwupOsImage.size).toNat)
      (flashFileSystem.base - flashOsImage.base).toNat
      (fileSystem ++ writeFf (flashFileSystem.size - fwupFileSystem.size).toNat)

end Immwrt.Safeloader
