import Immwrt.Lib.Endian
import Immwrt.Lib.File
import Immwrt.Lib.Loop

/-!
# Splitting an MTD device

What the parsers share: the device, how it is read, and the search for a root file system. A `size_t` has 32 bits,
and a device may be larger. Memory does not run out.
-/

namespace Immwrt.Mtdsplit

/-- How a read of so many bytes at an offset ends: with all bytes, with some of them or with an error. -/
inductive ReadOutcome where
  | done
  | short (bytes : Nat)
  | failed (err : Errno)

structure Mtd where
  size : Nat
  erasesize : Nat
  content : Nat → Byte
  outcome : Nat → Nat → ReadOutcome
  erasesize_pos : 0 < erasesize
  erasesize_lt : erasesize < 2 ^ 32

/-- The bytes that `mtd_read` puts into the buffer. -/
def mtdRead (mtd : Mtd) (off len : Nat) : Except Errno (List Byte) :=
  if mtd.size < off + len then .error .einval
  else
    match mtd.outcome off len with
    | .done => .ok (bytesAt mtd.content off len)
    | .short bytes => .ok (bytesAt mtd.content off (min bytes len))
    | .failed err => .error err

/-- A read that is only used when it is complete. -/
def readFull (mtd : Mtd) (off len : Nat) : Except Errno (List Byte) :=
  match mtdRead mtd off len with
  | .ok bytes => if bytes.length ≠ len then .error .eio else .ok bytes
  | .error err => .error err

/-- A sum in a `size_t`. -/
def addSize (x y : Nat) : Nat := (x + y) % 2 ^ 32

def mtdRounddownToEb (mtd : Mtd) (sz : Nat) : Nat := sz / mtd.erasesize * mtd.erasesize

def mtdNextEb (mtd : Mtd) (offset : Nat) : Nat := addSize (mtdRounddownToEb mtd offset) mtd.erasesize

/-- A pointer into a buffer reads other memory outside of it. -/
def bufferView (buf : List Byte) (outside : Nat → Byte) (i : Nat) : Byte :=
  buf.getD (i % 2 ^ 32) (outside (i % 2 ^ 32))

/-- Words in memory as the CPU reads them. -/
def cpuWord (big : Bool) (bytes : List Byte) : Word := if big then ofBe bytes else ofLe bytes

def cpuHalfWord (big : Bool) (bytes : List Byte) : HalfWord := if big then ofBe16 bytes else ofLe16 bytes

/-! ### The root file system -/

inductive PartType where
  | unk
  | squashfs
  | jffs2
  | ubi
  deriving DecidableEq

/-- `SQUASHFS_MAGIC` -/
def squashfsMagic : Word := 0x73717368

def ubiEcMagic : Word := 0x55424923

def mtdCheckRootfsMagic (big : Bool) (mtd : Mtd) (offset : Nat) : Except Errno PartType :=
  match readFull mtd offset 4 with
  | .error err => .error err
  | .ok magic =>
    if ofLe magic = squashfsMagic then .ok .squashfs
    else if cpuWord big magic = 0x19852003 then .ok .jffs2
    else if ofBe magic = ubiEcMagic then .ok .ubi
    else .error .einval

/-- A turn of the search, which returns the offset and the type. -/
def findRootfsTurn (big : Bool) (mtd : Mtd) (limit offset : Nat) : Except Errno (Nat × PartType) ⊕ Nat :=
  if offset < limit then
    match mtdCheckRootfsMagic big mtd offset with
    | .error _ => .inr (mtdNextEb mtd offset)
    | .ok type => .inl (.ok (offset, type))
  else .inl (.error .enodev)

/-- `mtd_find_rootfs_from` on a device up to its end; `none` when it takes more than `fuel` turns. -/
def mtdFindRootfsFrom (big : Bool) (mtd : Mtd) (fuel from' : Nat) : Option (Except Errno (Nat × PartType)) :=
  Loop.run (findRootfsTurn big mtd (mtd.size % 2 ^ 32)) fuel from'

/-! ### Partitions -/

inductive PartName where
  | kernel
  | rootfs
  | ubi
  | bootfs
  | cferam
  | firmware
  | img1
  | img2
  deriving DecidableEq

def rootfsName : PartType → PartName
  | .ubi => .ubi
  | _ => .rootfs

structure Partition where
  name : PartName
  offset : Nat
  size : Nat
  deriving DecidableEq

def Partition.stop (part : Partition) : Nat := part.offset + part.size

end Immwrt.Mtdsplit
