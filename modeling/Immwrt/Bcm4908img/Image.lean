import Immwrt.Lib.Crc
import Immwrt.Lib.Endian
import Immwrt.Lib.File
import Immwrt.Lib.Text

/-!
# BCM4908 images

An image has an optional vendor header, an optional cferom, a bootfs, a rootfs, a tail with a checksum and
an optional vendor tail. `bcm4908img create` writes one, `bcm4908img_parse` finds the parts of one again by
scanning, `bcm4908img extract` copies a part out, and `bcm4908img bootfs mv` renames a file of the bootfs in
place. The host is little-endian.
-/

namespace Immwrt.Bcm4908img

structure Tail where
  crc32 : Word
  version : Word
  chipId : Word
  flashType : Word
  flags : Word

def sizeofTail : Nat := 20

def Tail.bytes (tail : Tail) : List Byte :=
  u32le tail.crc32 ++ u32le tail.version ++ u32le tail.chipId ++ u32le tail.flashType ++ u32le tail.flags

def Tail.read (img : List Byte) (offset : Nat) : Tail where
  crc32 := getU32 img offset
  version := getU32 img (offset + 4)
  chipId := getU32 img (offset + 8)
  flashType := getU32 img (offset + 12)
  flags := getU32 img (offset + 16)

structure Info where
  cferomOffset : Nat
  bootfsOffset : Nat
  paddingOffset : Nat
  rootfsOffset : Nat
  tailOffset : Nat
  crc32 : Word
  tail : Tail

def bcm4908imgCrc32 : Word → List Byte → Word := crc32ByTbl

/-- The checksum of `length` bytes from `offset` on, and how many of them were missing. -/
def checksum (img : List Byte) (offset length : Nat) : Word × Nat :=
  freadUpto 1024 bcm4908imgCrc32 0xffffffff (img.drop offset) length

/-! ### Parse -/

def blockSize : Nat := 0x20000

def jffs2Magic : HalfWord := 0x8519

def ubiEcHdrMagic : Word := 0x55424923

def chkMagic : Word := 0x2a23245e

def linksysMagic : List Byte := ofChars ".LINKSYS."

def sizeofLinksys : Nat := 256

def isAllFf (buf : List Byte) : Bool := buf.all (· = 0xff)

/-- The search for the bootfs, block by block. -/
def findBootfs (img : List Byte) (tailOffset : Nat) : Nat → Nat → Except Errno Nat
  | 0, _ => .error .eproto
  | fuel + 1, offset =>
    if offset < tailOffset then
      let tmp16 := slice img offset 2
      if tmp16.length ≠ 2 then .error .eio
      else if ofBe16 tmp16 = jffs2Magic then .ok offset
      else findBootfs img tailOffset fuel (offset + blockSize)
    else .error .eproto

/-- The search for the rootfs and, before it, for a block that starts with 0xff, the padding. A padding
offset of 0 is one that was not found. -/
def findRootfs (img : List Byte) (tailOffset : Nat) : Nat → Nat → Nat → Except Errno (Nat × Nat)
  | 0, _, _ => .error .eproto
  | fuel + 1, offset, padding =>
    if offset < tailOffset then
      let length := if padding ≠ 0 then 4 else 256
      let buf := slice img offset length
      if buf.length ≠ length then .error .eio
      else
        let padding := if padding = 0 ∧ isAllFf buf then offset else padding
        if ofBe (buf.take 4) = ubiEcHdrMagic then .ok (offset, padding)
        else findRootfs img tailOffset fuel (offset + blockSize) padding
    else .error .eproto

/-- The length of a header of NETGEAR, 0 without one. -/
def vendorHeader (img : List Byte) : Nat :=
  if ofBe (slice img 0 4) = chkMagic then (ofBe (slice img 4 4)).toNat else 0

/-- An image that ends in a tail of Linksys. -/
def hasLinksysTail (img : List Byte) : Bool :=
  slice img (img.length - sizeofLinksys) linksysMagic.length = linksysMagic

def tailOffsetOf (img : List Byte) : Nat :=
  if hasLinksysTail img then img.length - sizeofTail - sizeofLinksys else img.length - sizeofTail

def bcm4908imgParse (img : List Byte) : Except Errno Info :=
  if img.length < 1024 then .error .eio
  else
    let cferomOffset := vendorHeader img
    let tailOffset := tailOffsetOf img
    match findBootfs img tailOffset img.length cferomOffset with
    | .error err => .error err
    | .ok bootfsOffset =>
      match findRootfs img tailOffset img.length bootfsOffset 0 with
      | .error err => .error err
      | .ok (rootfsOffset, paddingOffset) =>
        let (crc, left) := checksum img cferomOffset (tailOffset - cferomOffset)
        if left ≠ 0 then .error .eio
        else if img.length < tailOffset + sizeofTail then .error .eio
        else
          let tail := Tail.read img tailOffset
          if crc ≠ tail.crc32 then .error .eproto
          else
            .ok
              { cferomOffset := cferomOffset
                bootfsOffset := bootfsOffset
                paddingOffset := paddingOffset
                rootfsOffset := rootfsOffset
                tailOffset := tailOffset
                crc32 := crc
                tail := tail }

/-! ### Create -/

inductive CreateOption where
  | f (input : Option (List Byte))
  | a (alignment : Int)
  | A (offset : Int)

structure CreateState where
  out : Cursor
  crc32 : Word

/-- The checksum grows with each piece of the file. -/
def bcm4908imgCreateAppendFile (out : List Byte) (crc : Word) : Option (List Byte) → Appended × Word
  | none => (appendFile 1024 out none, crc)
  | some input => (appendFile 1024 out (some input), freadAll 1024 bcm4908imgCrc32 crc input)

def bcm4908imgCreateAppendZeros : (Nat → Bool) → List Byte → Nat → Appended := appendZeros

def bcm4908imgCreateAlign : (Nat → Bool) → List Byte → Nat → Nat → Appended := appendAlign

/-- One option; `none` when the program divides by zero. -/
def CreateState.option (malloc : Nat → Bool) (state : CreateState) : CreateOption → Option CreateState
  | .f input =>
    let (appended, crc) := bcm4908imgCreateAppendFile state.out.file state.crc32 input
    some { out := state.out.advance appended, crc32 := crc }
  | .a alignment =>
    if alignTraps state.out.offset (toSize alignment) then none
    else
      some { state with
        out := state.out.advance
          (bcm4908imgCreateAlign malloc state.out.file state.out.offset (toSize alignment)) }
  | .A offset =>
    some { state with
      out := state.out.advance (appendUpto malloc state.out.file state.out.offset offset) }

def CreateState.options (malloc : Nat → Bool) : List CreateOption → CreateState → Option CreateState
  | [], state => some state
  | opt :: opts, state =>
    match state.option malloc opt with
    | none => none
    | some state => CreateState.options malloc opts state

def createStart : CreateState where
  out := { file := [], offset := 0 }
  crc32 := 0xffffffff

def wfiVersion : Word := 0x00005732

def wfiNand128Flash : Word := 3

def wfiFlagSupportsBtrm : Word := 0x2

/-- The image of a run, which returns 0. -/
def bcm4908imgCreate (malloc : Nat → Bool) (opts : List CreateOption) : Option (List Byte) :=
  match createStart.options malloc opts with
  | none => none
  | some state =>
    let tail : Tail :=
      { crc32 := state.crc32, version := wfiVersion, chipId := 0x4908, flashType := wfiNand128Flash
        flags := wfiFlagSupportsBtrm }
    some (state.out.file ++ tail.bytes)

/-! ### Extract -/

inductive ExtractType where
  | cferom
  | bootfs
  | rootfs
  | firmware

/-- Where a part starts and how long it is. -/
def Info.part (info : Info) : ExtractType → Except Errno (Nat × Nat)
  | .cferom =>
    let length := info.bootfsOffset - info.cferomOffset
    if length = 0 then .error .enoent else .ok (info.cferomOffset, length)
  | .bootfs =>
    .ok (info.bootfsOffset,
      (if info.paddingOffset ≠ 0 then info.paddingOffset else info.rootfsOffset) - info.bootfsOffset)
  | .rootfs => .ok (info.rootfsOffset, info.tailOffset - info.rootfsOffset)
  | .firmware => .ok (info.bootfsOffset, info.tailOffset - info.bootfsOffset)

/-- The return value and what is written to the standard output. -/
def bcm4908imgExtract (img : List Byte) (type : ExtractType) : Except Errno (List Byte) :=
  match bcm4908imgParse img with
  | .error err => .error err
  | .ok info =>
    match info.part type with
    | .error err => .error err
    | .ok (offset, length) =>
      if length = 0 then .error .einval
      else
        let (out, left) := freadUpto 1024 (fun out buf => out ++ buf) [] (img.drop offset) length
        if left ≠ 0 then .error .eio else .ok out

/-! ### Rename -/

def jffs2MagicBitmask : HalfWord := 0x1985

def jffs2NodetypeDirent : HalfWord := 0xe001

def sizeofNode : Nat := 12

def sizeofDirent : Nat := 40

def filenameMax : Nat := 4096

def direntNameCrc : Nat := 36

/-- The distance to the next node: `totlen` rounded up in 32 bits. -/
def nodeLength (img : List Byte) (offset : Nat) : Nat :=
  ((getU32 img (offset + 4) + 3) &&& ~~~ 3).toNat

def direntNsize (img : List Byte) (offset : Nat) : Nat := (img.getD (offset + 28) 0).toNat

/-- The walk over the nodes for a dirent with the name `oldname`; `none` when it does not end. -/
def findDirent (img : List Byte) (oldname : CString) : Nat → Nat → Option (Except Errno Nat)
  | 0, _ => none
  | fuel + 1, offset =>
    let node := slice img offset sizeofNode
    if node.length ≠ sizeofNode then some (.error .eio)
    else if ofLe16 (node.take 2) ≠ jffs2MagicBitmask then some (.error .enoent)
    else if ofLe16 (slice node 2 2) ≠ jffs2NodetypeDirent then
      findDirent img oldname fuel (offset + nodeLength img offset)
    else if (slice img offset sizeofDirent).length ≠ sizeofDirent then some (.error .eio)
    else
      let nsize := direntNsize img offset
      if nsize + 1 > filenameMax then findDirent img oldname fuel (offset + nodeLength img offset)
      else
        let name := slice img (offset + sizeofDirent) nsize
        if name.length ≠ nsize then some (.error .eio)
        else if CString.ofBytes name ≠ oldname then
          findDirent img oldname fuel (offset + nodeLength img offset)
        else some (.ok offset)

/-- The dirent at `offset` gets a new name and its checksum, and the end of the file the tail with the new
checksum of the image. `newname` is the memory at the new name, as long as the old one needs it. -/
def renameDirent (img : List Byte) (info : Info) (newname : List Byte) (offset : Nat) :
    Except Errno (List Byte) :=
  let crc := bcm4908imgCrc32 0 newname
  let img := splice img (offset + direntNameCrc) (u32le crc)
  let img := splice img (offset + sizeofDirent) newname
  let (crc, left) := checksum img info.cferomOffset (info.tailOffset - info.cferomOffset)
  if left ≠ 0 then .error .eio
  else .ok (splice img (img.length - sizeofTail) { info.tail with crc32 := crc }.bytes)

/-- `bootfs mv` of an image that was parsed. `junk` is what lies behind the terminator of the new name in
memory. -/
def bcm4908imgBootfsMv (img : List Byte) (info : Info) (oldname newname : CString) (junk : Nat → Byte)
    (fuel : Nat) : Option (Except Errno (List Byte)) :=
  if newname.strlen ≠ oldname.strlen then some (.error .einval)
  else
    match findDirent img oldname fuel info.bootfsOffset with
    | none => none
    | some (.error err) => some (.error err)
    | some (.ok offset) =>
      let nsize := direntNsize img offset
      some (renameDirent img info ((newname.bytes ++ 0 :: bytesAt junk 0 nsize).take nsize) offset)

end Immwrt.Bcm4908img
