import Immwrt.Lib.Text

/-!
# SafeLoader factory images

A factory image has a header, vendor information, a table of partitions as text, and the contents of
the partitions. `put_partitions` writes the last two; `read_partition_table` and `write_partition` take
an image apart again.
-/

namespace Immwrt.Safeloader

structure FlashPartition where
  name : CString
  base : Word
  size : Word

/-- What an image is made from. The vendor information fits the block that the image has for it, and no
partition is larger than the largest flash of the board table. -/
structure DeviceInfo where
  vendor : Option CString
  partitions : List FlashPartition
  vendorFits : ∀ text ∈ vendor, text.strlen ≤ 4092
  flashSize : ∀ part ∈ partitions, part.size.toNat ≤ 0x2000000

structure ImagePartition where
  name : CString
  data : List Byte

def u32be (n : Nat) : List Byte :=
  [BitVec.ofNat 8 (n / 2 ^ 24), BitVec.ofNat 8 (n / 2 ^ 16), BitVec.ofNat 8 (n / 2 ^ 8), BitVec.ofNat 8 n]

/-! ### Writing -/

/-- The line of the image partition table for one partition. -/
def tableLine (name : CString) (base size : Nat) : List Byte :=
  ofChars "fwup-ptn " ++ name.bytes ++ ofChars " base 0x" ++ printfHex false 5 (base % 2 ^ 32) ++
    ofChars " size 0x" ++ printfHex false 5 (size % 2 ^ 32) ++ ofChars "\t\r\n"

/-- The image partition table starts here, and its first 2048 bytes are the text. -/
def tableOffset : Nat := 0x1014

/-- The loop of `put_partitions`, with the place of the next line and that of the next contents in the
table; `none` when the program exits. -/
def putPartitions (flash : List FlashPartition) :
    List ImagePartition → Nat → Nat → List Byte → Option (List Byte)
  | [], _, _, image => some image
  | part :: parts, imagePt, base, image =>
    match flash.find? fun entry => decide (entry.name = part.name) with
    | none => none
    | some entry =>
      if part.data.length > entry.size.toNat then none
      else
        let image := splice image (tableOffset + base) part.data
        let line := tableLine part.name base part.data.length
        let len := 0x800 - imagePt
        if line.length > len - 1 then none
        else
          putPartitions flash parts (imagePt + line.length) (base + part.data.length)
            (splice image (tableOffset + imagePt) (line ++ [0]))

def imageLength (parts : List ImagePartition) : Nat :=
  0x1814 + (parts.map fun part => part.data.length).sum

/-- `md5` is the digest of the salt and the data. -/
def generateFactoryImage (md5 : List Byte → Fin 16 → Byte) (info : DeviceInfo)
    (parts : List ImagePartition) : Option (List Byte) :=
  let len := imageLength parts
  let image := splice (List.replicate len 0xff) 0 (u32be len)
  let image := match info.vendor with
    | none => image
    | some vendor => splice (splice image 0x14 (u32be vendor.strlen)) 0x18 vendor.bytes
  (putPartitions info.partitions parts 0 0x800 image).map fun image =>
    splice image 0x04 (List.ofFn (md5 (image.drop 0x14)))

def md5Salt : List Byte :=
  [0x7a, 0x2b, 0x15, 0xed, 0x9b, 0x98, 0x59, 0x6d, 0xe5, 0x04, 0xab, 0x44, 0xac, 0x2a, 0x9f, 0x4e]

/-- The digest that goes into an image, by way of a plain digest. -/
def putMd5 (digest : List Byte → Fin 16 → Byte) (buffer : List Byte) : Fin 16 → Byte :=
  digest (md5Salt ++ buffer)

/-! ### Reading -/

structure TableEntry where
  name : CString
  base : Word
  size : Word

inductive TableType where
  | fwup
  | flash

def TableType.parthdr : TableType → List Byte
  | .fwup => ofChars "fwup-ptn"
  | .flash => ofChars "partition"

/-- The distance to the first `c` among the `n` bytes at a pointer. -/
def memchr (text : List Byte) (c : Byte) (n : Nat) : Option Nat := (text.take n).findIdx? (· = c)

/-- `none` when there is no free entry. -/
def addFlashPartition (entries : List TableEntry) (maxEntries : Nat) (entry : TableEntry) :
    Option (List TableEntry) :=
  if entries.length = maxEntries then none else some (entries ++ [entry])

/-- The state of the loop over the elements of a line: the text at `ptr`, the distance to the end of the
line, and what was read so far. -/
structure LineState where
  ptr : List Byte
  left : Nat
  name : CString
  base : Nat
  entries : List TableEntry

def LineState.skip (state : LineState) (n : Nat) : LineState :=
  { state with ptr := state.ptr.drop n, left := state.left - n }

/-- The elements `i`, ..., 4 of a line. -/
def readElements (bits maxEntries : Nat) : List Nat → LineState → Option LineState
  | [], state => some state
  | i :: is, state =>
    if state.left = 0 then some state
    else
      match memchr state.ptr 0x20 state.left with
      | none => none
      | some elementLen =>
        let next := state.skip (elementLen + 1)
        if i = 1 then
          readElements bits maxEntries is
            { next with name := .ofBytes (state.ptr.take (min elementLen 31)) }
        else if i = 3 then
          readElements bits maxEntries is { next with base := strtoul bits 16 state.ptr }
        else if i = 4 then
          (addFlashPartition state.entries maxEntries
            { name := state.name, base := BitVec.ofNat 32 state.base
              size := BitVec.ofNat 32 (strtoul bits 16 next.ptr) }).bind fun entries =>
            readElements bits maxEntries is
              { next.skip (next.left + 1) with entries := entries }
        else
          readElements bits maxEntries is next

/-- The loop over the lines of the text at `ptr`. -/
def readLines (bits maxEntries : Nat) (parthdr : List Byte) :
    Nat → List Byte → List TableEntry → Option (List TableEntry)
  | 0, _, entries => some entries
  | fuel + 1, ptr, entries =>
    if parthdr.length < ptr.length ∧ ptr.take parthdr.length = parthdr then
      match memchr ptr 0x0A ptr.length with
      | none => some entries
      | some lineLen =>
        (readElements bits maxEntries [0, 1, 2, 3, 4]
          { ptr := ptr, left := lineLen, name := .ofBytes [], base := 0
            entries := entries }).bind fun state =>
              readLines bits maxEntries parthdr fuel state.ptr state.entries
    else some entries

/-- The return value and the entries; `none` when the program exits. -/
def readPartitionTable (bits : Nat) (file : List Byte) (offset maxEntries : Nat) (type : TableType) :
    Option (Nat × List TableEntry) :=
  let buf := slice file offset 2048
  if buf.length < 2048 then none
  else
    let buf := splice buf 2047 [0]
    if buf.take type.parthdr.length ≠ type.parthdr then some (1, [])
    else (readLines bits maxEntries type.parthdr 2048 buf []).map fun entries => (0, entries)

/-- `fread` of one item of `n` bytes. -/
def fread (input : List Byte) (n : Nat) : Option (List Byte) :=
  if n ≤ input.length then some (input.take n) else none

/-- The chunks of a partition, from `offset` on. -/
def writeChunks (size : Nat) : Nat → List Byte → Nat → List Byte → Option (List Byte)
  | 0, _, _, _ => none
  | fuel + 1, input, offset, output =>
    if 4096 + offset ≤ size then
      (fread input 4096).bind fun chunk =>
        writeChunks size fuel (input.drop 4096) (offset + 4096) (output ++ chunk)
    else if offset < size then
      (fread input (size - offset)).map fun chunk => output ++ chunk
    else some output

def writePartition (file : List Byte) (firmwareOffset : Nat) (entry : TableEntry) :
    Option (List Byte) :=
  writeChunks entry.size.toNat (entry.size.toNat / 4096 + 1)
    (file.drop (entry.base.toNat + firmwareOffset)) 0 []

end Immwrt.Safeloader
