import Immwrt.Lib.Bytes

/-!
# RedBoot's FIS directory

The directory is one erase block of descriptors of 256 bytes, mapped into memory; the descriptors in use
come first. `fis_remap` replaces the descriptors of some partitions by those of others, in place.
-/

namespace Immwrt.Mtd

abbrev FisName := Fin 16 → Byte

structure FisDesc where
  name : FisName
  flashBase : Word
  memBase : Word
  size : Word
  entryPoint : Word
  dataLength : Word
  pad : Fin 212 → Byte
  crcDesc : Word
  crcFile : Word

structure FisPart where
  name : FisName
  loadaddr : Word
  size : Word
  length : Word
  crc : Word

/-- A slot with every byte `0xff`. -/
def FisDesc.erased : FisDesc :=
  { name := fun _ => 0xff, flashBase := 0xffffffff, memBase := 0xffffffff, size := 0xffffffff
    entryPoint := 0xffffffff, dataLength := 0xffffffff, pad := fun _ => 0xff
    crcDesc := 0xffffffff, crcFile := 0xffffffff }

/-- `!strncmp(left, right, 16)` -/
def sameName (left right : FisName) : Prop :=
  (List.ofFn left).takeWhile (· ≠ 0) = (List.ofFn right).takeWhile (· ≠ 0)

instance (left right : FisName) : Decidable (sameName left right) :=
  inferInstanceAs (Decidable (_ = _))

/-- The descriptor ends the part of the directory that is in use. -/
def FisDesc.unused (desc : FisDesc) : Prop := desc.name 0 = 0 ∨ desc.name 0 = 0xff

instance (desc : FisDesc) : Decidable desc.unused := inferInstanceAs (Decidable (_ ∨ _))

/-- The descriptor carries the name of one of the partitions `old`. -/
def FisDesc.isOld (old : List FisName) (desc : FisDesc) : Prop := ∃ name ∈ old, sameName desc.name name

instance (old : List FisName) (desc : FisDesc) : Decidable (desc.isOld old) :=
  inferInstanceAs (Decidable (∃ name ∈ old, _))

/-! ### Validation -/

/-- The number of descriptors in use that carry one of the names. -/
def countOld (old : List FisName) : List FisDesc → Nat
  | [] => 0
  | desc :: dir =>
    if desc.unused then 0 else (if desc.isOld old then 1 else 0) + countOld old dir

def fisValidate (old : List FisName) (new : List FisPart) (dir : List FisDesc) : Int :=
  if ∃ part ∈ new.dropLast, part.size = 0 then -1
  else if countOld old dir = old.length then 1 else -1

/-! ### Remapping -/

/-- What the first pass collects: the highest flash address, and the first and the last descriptor of an
old partition. -/
structure Scan where
  offset : Word
  first : Option Nat
  last : Option Nat

def scanOld (old : List FisName) : List FisDesc → Nat → Scan → Scan
  | [], _, scan => scan
  | desc :: dir, i, scan =>
    if desc.unused then scan
    else
      let scan := { scan with
        offset := if scan.offset < desc.flashBase then desc.flashBase else scan.offset }
      scanOld old dir (i + 1)
        (if desc.isOld old then { scan with last := some i, first := some (scan.first.getD i) }
        else scan)

/-- The second pass: the lowest flash address above `base`, or else the highest one. -/
def scanEnd (base : Word) : List FisDesc → Word → Word
  | [], offset => offset
  | desc :: dir, offset =>
    if desc.unused then offset
    else
      scanEnd base dir
        (if base < desc.flashBase ∧ desc.flashBase < offset then desc.flashBase else offset)

/-- The descriptors of the new partitions, from the flash address `offset` on, with `size` bytes left. -/
def newDescs : List FisPart → Word → Word → List FisDesc
  | [], _, _ => []
  | part :: parts, offset, size =>
    let descSize := if 0 < part.size then part.size else size
    { name := part.name, flashBase := offset, memBase := part.loadaddr, size := descSize
      entryPoint := part.loadaddr, dataLength := if 0 < part.length then part.length else descSize
      pad := fun _ => 0, crcDesc := 0, crcFile := part.crc } ::
        newDescs parts (offset + descSize) (size - descSize)

/-- Overwrite slots from `start` on; `none` when the write leaves the directory. -/
def writeSlots (dir : List FisDesc) (start : Nat) (descs : List FisDesc) : Option (List FisDesc) :=
  if start + descs.length ≤ dir.length then
    some (dir.take start ++ descs ++ dir.drop (start + descs.length))
  else none

/-- `memset` of `bytes` bytes to `0xff` from a slot on; `none` when it leaves the directory. -/
def eraseSlots (dir : List FisDesc) (start bytes : Nat) : Option (List FisDesc) :=
  if 256 * start + bytes ≤ 256 * dir.length then
    writeSlots dir start (List.replicate (bytes / 256) FisDesc.erased)
  else none

/-- A difference of byte pointers, as a `size_t`. -/
def ptrDiff (left right : Nat) : Nat := (2 ^ 32 + left - right) % 2 ^ 32

/-- Make place for `desc - first` descriptors where there were `last - first`. -/
def moveTail (dir : List FisDesc) (desc last : Nat) : Option (List FisDesc) :=
  if desc = last then some dir
  else
    let tmp := max desc last
    let stop := dir.length
    if stop < tmp then none
    else do
      let dir ← writeSlots dir desc ((dir.drop last).take (stop - tmp))
      if desc < last then
        let tmp := stop - (last - desc)
        eraseSlots dir tmp (ptrDiff (256 * tmp) (256 * stop))
      else
        some dir

/-- The directory after `fis_remap`; `none` when it reads or writes outside of it. -/
def fisRemap (old : List FisName) (new : List FisPart) (dir : List FisDesc) :
    Option (List FisDesc) :=
  let scan := scanOld old dir 0 { offset := 0, first := none, last := none }
  match scan.first, scan.last with
  | some first, some last => do
    let firstDesc ← dir[first]?
    let lastDesc ← dir[last]?
    let (firstFb, lastFb) :=
      if firstDesc.flashBase > lastDesc.flashBase then (lastDesc, firstDesc)
      else (firstDesc, lastDesc)
    let size := scanEnd lastFb.flashBase dir scan.offset - firstFb.flashBase
    let dir ← moveTail dir (first + new.length) (last + 1)
    writeSlots dir first (newDescs new firstFb.flashBase size)
  | _, _ => none

end Immwrt.Mtd
