import Immwrt.Lib.Endian
import Immwrt.Lib.File
import Immwrt.Lib.Scanf

/-!
# osafeloader

The program reads SafeLoader images on the device. `info` checks the digest of an image and lists the
partitions, `extract` copies the contents of one of them to a file. Both read the table with `fscanf` into
`char name[32]` and two `int`; a word that does not fit the buffer is written over what follows it, and then
the model has no result. The arguments are there, and the file that is written takes every byte.
-/

namespace Immwrt.Osafeloader

def md5Salt : List Byte :=
  [0x7a, 0x2b, 0x15, 0xed, 0x9b, 0x98, 0x59, 0x6d, 0xe5, 0x04, 0xab, 0x44, 0xac, 0x2a, 0x9f, 0x4e]

/-! ### The table -/

structure Partition where
  name : CString
  base : Word
  size : Word
  deriving DecidableEq

def lineFormat : List Directive := directives (ofChars "fwup-ptn %s base 0x%x size 0x%x\t\r\n")

/-- One `fscanf`: the partition and the text behind it, if all three values were converted. -/
def scanPartition (text : List Byte) : Option (Option (Partition × List Byte)) :=
  match scan lineFormat text with
  | (.string name :: values, rest) =>
    if name.length > 31 then none
    else
      match values with
      | [.hex base, .hex size] => some (some ({ name := .ofBytes name, base := base, size := size }, rest))
      | _ => some none
  | _ => some none

/-! ### info -/

/-- The partitions that are printed. -/
def listPartitions : Nat → List Byte → Option (List Partition)
  | 0, _ => none
  | fuel + 1, text =>
    (scanPartition text).bind fun scanned =>
      match scanned with
      | none => some []
      | some (part, rest) => (listPartitions fuel rest).map fun parts => part :: parts

/-- What is printed. -/
structure Info where
  imageSize : Word
  md5 : List Byte
  partitions : List Partition

/-- `none` is a file that cannot be opened. -/
def osafeloaderInfo (digest : List Byte → Fin 16 → Byte) :
    Option (List Byte) → Option (Except Errno Info)
  | none => some (.error .eacces)
  | some safeloader =>
    if safeloader.length < 20 then some (.error .eio)
    else
      let imageSize := ofBe (slice safeloader 0 4)
      let data := (freadUpto 1024 (fun data buf => data ++ buf) md5Salt (safeloader.drop 20) imageSize.toNat).1
      let md5 := List.ofFn (digest data)
      if md5 ≠ slice safeloader 4 16 then some (.error .eio)
      else
        (listPartitions (safeloader.length + 1) (safeloader.drop 0x1014)).map fun parts =>
          .ok { imageSize := imageSize, md5 := md5, partitions := parts }

/-! ### extract -/

/-- What is written, and the bytes that are still to be copied: `size` is an `int` that is compared as a
`size_t`. -/
def copyLoop : Nat → List Byte → Word → List Byte → List Byte × Word
  | 0, _, size, out => (out, size)
  | fuel + 1, safeloader, size, out =>
    let buf := safeloader.take (min 1024 (toSize size.toInt))
    if buf.length = 0 then (out, size)
    else
      copyLoop fuel (safeloader.drop buf.length) (size - BitVec.ofNat 32 buf.length) (out ++ buf)

/-- `fseek` to a position; one before the file is refused. -/
def seekSet (file : List Byte) (offset : Int) (current : List Byte) : List Byte :=
  if 0 ≤ offset then file.drop offset.toNat else current

/-- The error and what is written. -/
def extractLoop (safeloader : List Byte) (partitionName : CString) :
    Nat → List Byte → Option (Except Errno Unit × List Byte)
  | 0, _ => none
  | fuel + 1, text =>
    (scanPartition text).bind fun scanned =>
      match scanned with
      | none => some (.error .enoent, [])
      | some (part, rest) =>
        if part.name ≠ partitionName then extractLoop safeloader partitionName fuel rest
        else
          let input := seekSet safeloader (20 + 0x1000 + part.base.toInt) rest
          let (out, size) := copyLoop (input.length + 1) input part.size []
          some (if size ≠ 0 then .error .eio else .ok (), out)

/-- The error and the file that is written; there is none when a file cannot be opened. -/
def osafeloaderExtract (safeloader : Option (List Byte)) (outOpens : Bool) (partitionName : CString) :
    Option (Except Errno Unit × Option (List Byte)) :=
  match safeloader with
  | none => some (.error .eacces, none)
  | some safeloader =>
    if !outOpens then some (.error .eacces, none)
    else if safeloader.length < 20 then some (.error .eio, some [])
    else
      (extractLoop safeloader partitionName (safeloader.length + 1) (safeloader.drop (20 + 0x1000))).map
        fun extracted => (extracted.1, some extracted.2)

end Immwrt.Osafeloader
