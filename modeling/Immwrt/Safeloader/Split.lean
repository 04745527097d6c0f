import Immwrt.Safeloader.Convert

/-!
# Dividing the firmware partition

Where the flash layout of a board has one partition `firmware`, `build_image` makes an `os-image` of the size
of the kernel out of it and a `file-system` of the rest, and moves the entries behind it up by one in the
array they are in.
-/

namespace Immwrt.Safeloader

/-- The partitions of `struct device_info`: the entries behind the last have no name. -/
def slotsOf (layout : List FlashPartition) : List (Option FlashPartition) :=
  layout.map some ++ List.replicate (maxPartitions + 1 - layout.length) none

/-- The entries up to the first without a name; `none` when the array ends before one. -/
def tableOf : List (Option FlashPartition) → Option (List FlashPartition)
  | [] => none
  | none :: _ => some []
  | some part :: slots => (tableOf slots).map fun table => part :: table

/-- The loop that looks for the partition `firmware`, with the index of the last that was found. -/
def findFirmware : List FlashPartition → Nat → Option Nat → Option Nat
  | [], _, index => index
  | part :: parts, i, index =>
    findFirmware parts (i + 1) (if part.name = .lit "firmware" then some i else index)

/-- `ALIGN(x, 0x10000)` -/
def alignBlock (x : Nat) : Nat := (x + 0xffff) >>> 16 <<< 16

/-- The loop that moves the entries from `index + 1` on, the last first. -/
def moveUp (index : Nat) (slots : List (Option FlashPartition)) : List (Option FlashPartition) :=
  (List.range' (index + 1) (maxPartitions - 1 - index)).reverse.foldl
    (fun slots i => slots.set (i + 1) (slots.getD i none)) slots

/-- Where the file system starts. -/
def fileSystemStart (firmware : FlashPartition) (kernelSize : Nat) (sysupgrade : Bool) : Nat :=
  -- Align partition start to erase blocks for factory images only
  if sysupgrade then firmware.base.toNat + kernelSize else alignBlock (firmware.base.toNat + kernelSize)

def fileSystemPartition (firmware : FlashPartition) (kernelSize : Nat) (sysupgrade : Bool) :
    FlashPartition where
  name := .lit "file-system"
  base := BitVec.ofNat 32 (fileSystemStart firmware kernelSize sysupgrade)
  size := firmware.size - BitVec.ofNat 32 (fileSystemStart firmware kernelSize sysupgrade)

def osImagePartition (firmware : FlashPartition) (kernelSize : Nat) : FlashPartition where
  name := .lit "os-image"
  base := firmware.base
  size := BitVec.ofNat 32 kernelSize

/-- The part of `build_image` that divides the firmware partition: the array it leaves, and the place of the
file system if there is one; `none` when the kernel overflows the firmware partition. -/
def splitFirmware (layout : List FlashPartition) (kernelSize : Nat) (sysupgrade : Bool) :
    Option (List (Option FlashPartition) × Option FlashPartition) :=
  match findFirmware layout 0 none with
  | none => some (slotsOf layout, none)
  | some index =>
    match layout[index]? with
    | none => some (slotsOf layout, none)
    | some firmware =>
      if firmware.size.toNat < kernelSize then none
      else
        let fileSystem := fileSystemPartition firmware kernelSize sysupgrade
        let slots := (moveUp index (slotsOf layout)).set (index + 1) (some fileSystem)
        some (slots.set index (some (osImagePartition firmware kernelSize)), some fileSystem)

def jffs2EofMark : List Byte := [0xde, 0xad, 0xc0, 0xde]

/-- `read_file` of a file with the contents `file`; `none` when it cannot be read, being empty. -/
def readFile (name : CString) (file : List Byte) (addJffs2Eof : Bool)
    (fileSystem : Option FlashPartition) : Option ImagePartition :=
  let len :=
    if addJffs2Eof then
      match fileSystem with
      | some part => alignBlock (file.length + part.base.toNat) + jffs2EofMark.length - part.base.toNat
      | none => alignBlock file.length + jffs2EofMark.length
    else file.length
  if file = [] then none
  else if addJffs2Eof then
    some { name, data := file ++ List.replicate (len - file.length - jffs2EofMark.length) 0xff ++ jffs2EofMark }
  else some { name, data := file }

/-! ### What the division should give -/

/-- A layout with a firmware partition. The partitions have other names than the two it becomes. -/
structure FirmwareLayout where
  before : List FlashPartition
  firmware : FlashPartition
  behind : List FlashPartition
  count : before.length + 1 + behind.length ≤ maxPartitions
  named : firmware.name = .lit "firmware"
  others : ∀ part ∈ before ++ behind,
    part.name ≠ .lit "firmware" ∧ part.name ≠ .lit "os-image" ∧ part.name ≠ .lit "file-system"

def FirmwareLayout.partitions (layout : FirmwareLayout) : List FlashPartition :=
  layout.before ++ layout.firmware :: layout.behind

def FlashPartition.stop (part : FlashPartition) : Nat := part.base.toNat + part.size.toNat

/-- The flash of `part` is within that of `whole`. -/
def Inside (part whole : FlashPartition) : Prop :=
  whole.base.toNat ≤ part.base.toNat ∧ part.stop ≤ whole.stop

end Immwrt.Safeloader
