import Immwrt.Lib.Endian
import Immwrt.Lib.File
import Immwrt.Lib.Text

/-!
# Seama entities

`oseama entity` builds an entity: a header, the meta strings, and the image. A container is a seal header
with its own meta data and the entities one after another; `oseama extract` walks over them by the sizes
in their headers and copies one out. The header is big-endian.
-/

namespace Immwrt.Oseama

def seamaMagic : Word := 0x5ea3a417

structure SealHeader where
  magic : Word
  reserved : HalfWord
  metasize : HalfWord
  imagesize : Word

def SealHeader.bytes (hdr : SealHeader) : List Byte :=
  wordBe hdr.magic ++ u16be hdr.reserved ++ u16be hdr.metasize ++ wordBe hdr.imagesize

def sizeofSeal : Nat := 12

structure EntityHeader where
  magic : Word
  reserved : HalfWord
  metasize : HalfWord
  imagesize : Word
  md5 : Fin 16 → Byte

def EntityHeader.bytes (hdr : EntityHeader) : List Byte :=
  wordBe hdr.magic ++ u16be hdr.reserved ++ u16be hdr.metasize ++ wordBe hdr.imagesize ++
    List.ofFn hdr.md5

def sizeofEntity : Nat := 28

/-! ### Entity -/

inductive EntityOption where
  | m (text : CString)
  | f (input : Option (List Byte))
  | b (offset : Int)

structure EntityState where
  out : Cursor
  metasize : Nat
  imagesize : Nat

def oseamaEntityAppendFile : List Byte → Option (List Byte) → Appended := appendFile 128

def oseamaEntityAppendZeros : (Nat → Bool) → List Byte → Nat → Appended := appendZeros

def oseamaEntityAlign : (Nat → Bool) → List Byte → Nat → Nat → Appended := appendAlign

/-- An append that counts as meta data. -/
def EntityState.addMeta (state : EntityState) (appended : Appended) : EntityState where
  out := state.out.advance appended
  metasize := state.metasize + appended.sbytes
  imagesize := state.imagesize

/-- An append that counts as image. -/
def EntityState.addImage (state : EntityState) (appended : Appended) : EntityState where
  out := state.out.advance appended
  metasize := state.metasize
  imagesize := state.imagesize + appended.sbytes

/-- The first pass over the options writes the meta strings, with their terminators, and aligns. -/
def EntityState.metaOption (malloc : Nat → Bool) (state : EntityState) : EntityOption → EntityState
  | .m text =>
    let state := state.addMeta (.ok (state.out.file ++ (text.bytes ++ [0]), text.strlen + 1))
    state.addMeta (oseamaEntityAlign malloc state.out.file state.out.offset 4)
  | .f _ => state
  | .b _ => state

/-- The second pass writes the files and zeros. -/
def EntityState.imageOption (malloc : Nat → Bool) (state : EntityState) : EntityOption → EntityState
  | .m _ => state
  | .f input => state.addImage (oseamaEntityAppendFile state.out.file input)
  | .b offset => state.addImage (appendUpto malloc state.out.file state.out.offset offset)

def entityStart : EntityState where
  out := { file := List.replicate sizeofEntity 0, offset := sizeofEntity }
  metasize := 0
  imagesize := 0

/-- The digest of the image, and the header in front of the file. -/
def oseamaEntityWriteHdr (md5 : List Byte → Fin 16 → Byte) (seama : List Byte)
    (metasize imagesize : Nat) : List Byte :=
  let (image, _) := freadUpto 128 (fun image buf => image ++ buf) []
    (seama.drop (sizeofEntity + metasize)) imagesize
  let hdr : EntityHeader :=
    { magic := seamaMagic, reserved := 0, metasize := BitVec.ofNat 16 metasize
      imagesize := BitVec.ofNat 32 imagesize, md5 := md5 image }
  splice seama 0 hdr.bytes

/-- The file of an entity. -/
def oseamaEntity (md5 : List Byte → Fin 16 → Byte) (malloc : Nat → Bool) (opts : List EntityOption) :
    List Byte :=
  let state := opts.foldl (EntityState.metaOption malloc) entityStart
  let state := opts.foldl (EntityState.imageOption malloc) state
  oseamaEntityWriteHdr md5 state.out.file state.metasize state.imagesize

/-! ### Extract -/

/-- The return value of a command, `none` for 0, and the output file. -/
structure Extracted where
  err : Option Errno
  out : List Byte
  deriving DecidableEq

/-- The walk over the entities from the current position on. -/
def oseamaExtractEntity (entityIdx : Nat) : Nat → List Byte → Nat → Extracted
  | 0, _, _ => { err := none, out := [] }
  | fuel + 1, seama, i =>
    if seama.length < sizeofEntity then { err := none, out := [] }
    else if ofBe (slice seama 0 4) ≠ seamaMagic then { err := some .einval, out := [] }
    else
      let metasize := (ofBe16 (slice seama 6 2)).toNat
      let imagesize := (ofBe (slice seama 8 4)).toNat
      if i ≠ entityIdx then
        oseamaExtractEntity entityIdx fuel (seama.drop (sizeofEntity + (metasize + imagesize))) (i + 1)
      else
        let (out, length) := freadUpto 1024 (fun out buf => out ++ buf) [] seama
          (sizeofEntity + metasize + imagesize)
        { err := if length ≠ 0 then some .eio else none, out := out }

/-- `oseama extract`: what the walk returns is not looked at. -/
def oseamaExtract (seama : List Byte) (entityIdx : Int) : Extracted :=
  if entityIdx < 0 then { err := some .einval, out := [] }
  else if seama.length < sizeofSeal then { err := some .eio, out := [] }
  else
    let metasize := (ofBe16 (slice seama 6 2)).toNat
    let extracted := oseamaExtractEntity entityIdx.toNat (seama.length + 1)
      (seama.drop (sizeofSeal + metasize)) 0
    { err := none, out := extracted.out }

end Immwrt.Oseama
