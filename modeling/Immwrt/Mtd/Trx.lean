import Immwrt.Lib.Traced
import Immwrt.Mtd.Write

/-!
# Fixing the header of a trx image

`mtd_fixtrx` reads the erase block the header is in, takes the checksum of the data behind the header past
the bad blocks, and writes the block back with the length and the checksum of what it found. The data starts
inside the header, and with it inside the block that is written back.
-/

namespace Immwrt.Mtd.Trx

/-- A device as `mtd_check_open` finds it: `mtdsize` is an `int`, and only NAND has a bad block table. -/
structure Flash extends Nand where
  shift : Nat
  nand : Bool
  erasesize_eq : erasesize = 2 ^ shift
  size_lt : toNand.size < 2 ^ 31
  nand_of_bad : ∀ block, bad block = true → nand = true

inductive Exit where
  /-- Offset too large -/
  | offsetTooLarge
  | malloc
  | pread
  /-- No trx magic found -/
  | noMagic
  /-- Failed to get erase block status -/
  | eraseStatus
  /-- Can't erase block -/
  | eraseBlock
  /-- Error writing block -/
  | writing
  deriving DecidableEq

/-- A load or a store in the block buffer. -/
structure Access where
  off : Nat
  len : Nat
  deriving DecidableEq

variable (d : Flash)

/-- `x & (erasesize - 1)` -/
def Flash.inBlock (x : Nat) : Nat := x &&& (d.erasesize - 1)

/-- `x & ~(erasesize - 1)` -/
def Flash.blockOffset (x : Nat) : Nat := x - d.inBlock x

/-- `mtd_block_is_bad` -/
def Flash.blockIsBad (offset : Nat) : Option Bool :=
  if d.nand then d.toNand.blockIsBad offset else some false

/-- What `pread` puts into the buffer. -/
def Flash.pread (cells : Nat → Byte) (count offset : Nat) : List Byte :=
  bytesAt cells offset (min count (d.size - offset))

/-- A field of the header, which is stored little-endian. -/
def field (mem : Nat → Byte) (off : Nat) : Word := ofLe (bytesAt mem off 4)

/-- `TRX_MAGIC` -/
def magic : Word := 0x30524448

/-- `crc32buf` -/
def crc32buf (data : List Byte) : Word := crc32 0xffffffff data

section SizeT

/-! `size_t` has `w` bits. -/

variable {w : Nat}

/-- The amount of data that is read, with the last 16 bytes of the header or, by default, without the first
12 bytes of a block. -/
def Flash.dataSize (data_size : BitVec w) : BitVec w :=
  if data_size ≠ 0 then data_size + 16 else BitVec.ofNat w d.erasesize - 12

variable (w) in
/-- The loop over the blocks of the data; `out` is what `buf` holds so far. Good blocks only are read. -/
def readLoop (cells : Nat → Byte) (dataOffset dataSize : Nat) (out : List Byte) : Except Exit (List Byte) :=
  if _hmore : dataSize = 0 then .ok out
  else
    let readChunk := min (d.erasesize - d.inBlock dataOffset) dataSize
    match d.blockIsBad (d.blockOffset dataOffset) with
    | none => .error .eraseStatus
    | some true => readLoop cells ((dataOffset + readChunk) % 2 ^ w) (dataSize - readChunk) out
    | some false =>
        let res := d.pread cells readChunk dataOffset
        if res.length ≠ readChunk then .error .pread
        else readLoop cells ((dataOffset + readChunk) % 2 ^ w) (dataSize - readChunk) (out ++ res)
termination_by dataSize
decreasing_by
  all_goals
    have hlt : d.inBlock dataOffset < d.erasesize := by
      have := Nat.and_le_right (n := dataOffset) (m := d.erasesize - 1)
      have := d.erasesize_pos
      unfold Flash.inBlock
      omega
    omega

/-- The two fields are compared with what they should be and, unless the header is fixed already, set. -/
def setFields (mem : Nat → Byte) (off : Nat) (buf : List Byte) : Traced Access (Option (Nat → Byte)) := do
  let len := BitVec.ofNat 32 (buf.length + 12)
  Traced.emit ⟨off + 4, 4⟩
  let fixed ←
    if field mem (off + 4) = len then do
      Traced.emit ⟨off + 8, 4⟩
      pure (decide (field mem (off + 8) = crc32buf buf))
    else pure false
  if fixed then pure none
  else do
    Traced.emit ⟨off + 4, 4⟩
    Traced.emit ⟨off + 8, 4⟩
    pure (some (store (store mem (off + 4) (u32le len)) (off + 8) (u32le (crc32buf buf))))

/-- The block is erased and written back. -/
def rewrite (mem : Nat → Byte) (blockOffset : Nat) : Except Exit (List Event) :=
  if ¬ d.eraseBlock blockOffset then .error .eraseBlock
  else if min d.erasesize (d.size - blockOffset) ≠ d.erasesize then .error .writing
  else .ok [.erase 0 d.erasesize (blockOffset / d.erasesize),
    .program 0 blockOffset (bytesAt mem 0 d.erasesize)]

/-- `mtd_fixtrx`: what it does to the device when it returns. The heap holds `heap` from the block buffer on,
and `malloc` says which sizes there is room for. -/
def mtdFixtrx (malloc : Nat → Bool) (heap : Nat → Byte) (cells : Nat → Byte) (offset data_size : BitVec w) :
    Traced Access (Except Exit (List Event)) :=
  let dataOffset := offset + 12
  let dataSize := d.dataSize data_size
  let blockOffset := d.blockOffset offset.toNat
  let off := offset.toNat - blockOffset
  let firstBlock := d.pread cells d.erasesize blockOffset
  let mem := store heap 0 firstBlock
  if d.size < (dataOffset + dataSize).toNat then pure (.error .offsetTooLarge)
  else if ¬ malloc d.erasesize then pure (.error .malloc)
  else if firstBlock.length ≠ d.erasesize then pure (.error .pread)
  else do
    Traced.emit ⟨off, 4⟩
    if field mem off ≠ magic then pure (.error .noMagic)
    else if ¬ malloc dataSize.toNat then pure (.error .malloc)
    else
      match readLoop d w cells dataOffset.toNat dataSize.toNat [] with
      | .error exit => pure (.error exit)
      | .ok buf => do
          match ← setFields mem off buf with
          | none => pure (.ok [])
          | some fixedMem => pure (rewrite d fixedMem blockOffset)

end SizeT

/-! ### What the header should say -/

/-- The byte at `x` lies in a good block of the device. -/
def Flash.isGood (x : Nat) : Bool := x < d.size ∧ d.bad (x / d.erasesize) = false

/-- The bytes of the good blocks among the `count` bytes from `start` on. -/
def goodBytes (cells : Nat → Byte) (start count : Nat) : List Byte :=
  ((List.range' start count).filter d.isGood).map cells

/-- How many bytes behind the first 12 of the header were asked for. -/
def Flash.requested {w : Nat} (data_size : BitVec w) : Nat :=
  if data_size = 0 then d.erasesize - 12 else data_size.toNat + 16

/-- The bytes of the device after the operations `trace`. -/
def after (cells : Nat → Byte) (trace : List Event) : Nat → Byte := replay (fun _ => cells) trace 0

end Immwrt.Mtd.Trx
