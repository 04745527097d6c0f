import Immwrt.Lib.Crc
import Immwrt.Lib.Endian
import Immwrt.Lib.File

/-!
# TRX images

`otrx create` puts up to three partitions behind a header, with zeros between them as its options ask,
`otrx check` tests the checksum of an image, and `otrx extract` copies a partition out of one. Words are
little-endian, as on the hosts where the conversions of the source are the identity.
-/

namespace Immwrt.Otrx

def trxMagic : Word := 0x30524448

def trxFlagsOffset : Nat := 12

def trxMaxParts : Nat := 3

/-- The partition offsets are those of the partitions recorded so far; the other ones are 0. -/
structure TrxHeader where
  magic : Word
  length : Word
  crc32 : Word
  flags : HalfWord
  version : HalfWord
  offset : Fin 3 → Word

def TrxHeader.bytes (hdr : TrxHeader) : List Byte :=
  u32le hdr.magic ++ u32le hdr.length ++ u32le hdr.crc32 ++ u16le hdr.flags ++ u16le hdr.version ++
    u32le (hdr.offset 0) ++ u32le (hdr.offset 1) ++ u32le (hdr.offset 2)

def sizeofHeader : Nat := 28

/-- `fread(&hdr, 1, sizeof(hdr), trx)` -/
def readHeader (trx : List Byte) : Option TrxHeader :=
  if trx.length < sizeofHeader then none
  else
    some
      { magic := getU32 trx 0
        length := getU32 trx 4
        crc32 := getU32 trx 8
        flags := ofLe16 (slice trx 12 2)
        version := ofLe16 (slice trx 14 2)
        offset := fun i => getU32 trx (16 + 4 * i) }

def otrxCrc32 : Word → List Byte → Word := crc32ByTbl

/-! ### Create -/

inductive CreateOption where
  | f (input : Option (List Byte))
  | A (input : Option (List Byte))
  | a (alignment : Int)
  | b (offset : Int)

/-- How `otrx_create` ends when it does not return 0: with an error, or in a division by zero. -/
inductive Abort where
  | error (err : Errno)
  | trap
  deriving DecidableEq

structure CreateState where
  out : Cursor
  currIdx : Nat
  offset : Fin 3 → Word

def otrxCreateAppendFile : List Byte → Option (List Byte) → Appended := appendFile 1024

def otrxCreateAppendZeros : (Nat → Bool) → List Byte → Nat → Appended := appendZeros

def otrxCreateAlign : (Nat → Bool) → List Byte → Nat → Nat → Appended := appendAlign

/-- The alignment that follows an option, and the final one. -/
def CreateState.align (malloc : Nat → Bool) (state : CreateState) (alignment : Nat) :
    Except Abort CreateState :=
  if alignTraps state.out.offset alignment then .error .trap
  else
    .ok { state with
      out := state.out.advance (otrxCreateAlign malloc state.out.file state.out.offset alignment) }

/-- One option of the command line. -/
def CreateState.option (malloc : Nat → Bool) (state : CreateState) :
    CreateOption → Except Abort CreateState
  | .f input =>
    if hidx : state.currIdx < trxMaxParts then
      match otrxCreateAppendFile state.out.file input with
      | .error _ => state.align malloc 4
      | .ok appended =>
        CreateState.align malloc
          { out := state.out.advance (.ok appended)
            currIdx := state.currIdx + 1
            offset := Function.update state.offset ⟨state.currIdx, hidx⟩
              (BitVec.ofNat 32 state.out.offset) } 4
    else .error (.error .enospc)
  | .A input =>
    CreateState.align malloc
      { state with out := state.out.advance (otrxCreateAppendFile state.out.file input) } 4
  | .a alignment => state.align malloc (toSize alignment)
  | .b offset =>
    .ok { state with out := state.out.advance (appendUpto malloc state.out.file state.out.offset offset) }

def CreateState.options (malloc : Nat → Bool) :
    List CreateOption → CreateState → Except Abort CreateState
  | [], state => .ok state
  | opt :: opts, state =>
    match state.option malloc opt with
    | .error abort => .error abort
    | .ok state => CreateState.options malloc opts state

/-- The header is written, the checksum is taken from the flags on, and the header is written again. -/
def otrxCreateWriteHdr (trx : List Byte) (length : Word) (offset : Fin 3 → Word) : List Byte :=
  let hdr : TrxHeader :=
    { magic := trxMagic, length := length, crc32 := 0, flags := 0, version := 1, offset := offset }
  let trx := splice trx 0 hdr.bytes
  let crc := (freadUpto 1024 otrxCrc32 0xffffffff (trx.drop trxFlagsOffset)
    (length.toNat - trxFlagsOffset)).1
  splice trx 0 { hdr with crc32 := crc }.bytes

/-- The file starts with the room for the header that the first `fseek` leaves. -/
def createStart : CreateState where
  out := { file := List.replicate sizeofHeader 0, offset := sizeofHeader }
  currIdx := 0
  offset := fun _ => 0

/-- The state that the header is made from. -/
def otrxCreateBody (malloc : Nat → Bool) (opts : List CreateOption) : Except Abort CreateState :=
  match createStart.options malloc opts with
  | .error abort => .error abort
  | .ok state => state.align malloc 0x1000

/-- The file of a run that returns 0. -/
def otrxCreate (malloc : Nat → Bool) (opts : List CreateOption) : Except Abort (List Byte) :=
  match otrxCreateBody malloc opts with
  | .error abort => .error abort
  | .ok state =>
    .ok (otrxCreateWriteHdr state.out.file (BitVec.ofNat 32 state.out.offset) state.offset)

/-! ### Check and extract -/

def otrxCheck (trx : List Byte) : Except Errno Unit :=
  match readHeader trx with
  | none => .error .eio
  | some hdr =>
    if hdr.magic ≠ trxMagic then .error .einval
    else if hdr.length.toNat < sizeofHeader then .error .einval
    else
      let (crc, length) := freadUpto 1024 otrxCrc32 0xffffffff (trx.drop trxFlagsOffset)
        (hdr.length.toNat - trxFlagsOffset)
      if length ≠ 0 then .error .eio
      else if crc ≠ hdr.crc32 then .error .einval
      else .ok ()

/-- What is written to the output file; `none` when the bytes are not there. -/
def otrxExtractCopy (trx : List Byte) (offset length : Nat) : Option (List Byte) :=
  let buf := slice trx offset length
  if buf.length ≠ length then none else some buf

/-- The lengths are `size_t`. -/
def sizeSub (a b : Nat) : Nat := toSize (a - b)

/-- Partition `i` of an image, `none` when nothing is extracted. -/
def otrxExtract (trx : List Byte) (i : Fin 3) : Except Errno (Option (List Byte)) :=
  match readHeader trx with
  | none => .error .eio
  | some hdr =>
    if hdr.magic ≠ trxMagic then .error .einval
    else if hdr.offset i = 0 then .ok none
    else
      let next : Word := if h : i.val + 1 < trxMaxParts then hdr.offset ⟨i.val + 1, h⟩ else 0
      let length :=
        if next = 0 then sizeSub hdr.length.toNat (hdr.offset i).toNat
        else sizeSub next.toNat (hdr.offset i).toNat
      .ok (otrxExtractCopy trx (hdr.offset i).toNat length)

end Immwrt.Otrx
