import Mathlib.Data.Nat.Count
import Immwrt.Lib.Bytes

/-!
# Writing, dumping and verifying an image on NAND

`mtd_write` copies an image to a list of devices, one erase block at a time, past the blocks that are
marked bad. Two cursors count the bytes erased and written on the current device, a third the bytes
skipped, and the file position of the device moves beside them. `mtd_dump` and `mtd_verify` read a
device back, each with its own position.

A device answers from its bad block table alone, never from what it stores, so a run of `mtd_write` is
its exit and the list of the erase and program operations the device carried out; `replay` says what the
devices hold afterwards.
-/

namespace Immwrt.Mtd

/-! ### The character device -/

/-- A NAND device: `bad` is its bad block table, and `worn` are the blocks that no longer erase though
the table does not list them. -/
structure Nand where
  erasesize : Nat
  blocks : Nat
  bad : Nat → Bool
  worn : Nat → Bool
  erasesize_pos : 0 < erasesize

namespace Nand

variable (d : Nand)

def size : Nat := d.blocks * d.erasesize

/-- `mtd_block_is_bad`. `MEMGETBADBLOCK` refuses an offset outside the device. -/
def blockIsBad (offset : Nat) : Option Bool :=
  if offset < d.size then some (d.bad (offset / d.erasesize)) else none

theorem lt_size_of_blockIsBad {offset : Nat} {bad : Bool} (h : d.blockIsBad offset = some bad) :
    offset < d.size := by
  by_contra hge
  rw [blockIsBad, if_neg hge] at h
  cases h

/-- `mtd_erase_block` succeeds. `MEMERASE` refuses what is not a whole block of the device, and a bad
block. -/
def eraseBlock (offset : Nat) : Bool :=
  offset % d.erasesize = 0 ∧ offset < d.size ∧ ¬ d.bad (offset / d.erasesize) ∧
    ¬ d.worn (offset / d.erasesize)

/-- The file position after `lseek` to `offset`: unchanged when the device ends before it. -/
def lseek (pos offset : Nat) : Nat := if offset ≤ d.size then offset else pos

end Nand

/-- What a device carried out. Devices are numbered in the order they were named. -/
inductive Event where
  | erase (dev erasesize block : Nat)
  | program (dev pos : Nat) (data : List Byte)
  deriving DecidableEq

namespace Event

def Erases (dev x : Nat) : Event → Prop
  | erase i erasesize block => i = dev ∧ x / erasesize = block
  | program .. => False

def Programs (dev x : Nat) : Event → Prop
  | erase .. => False
  | program i pos data => i = dev ∧ pos ≤ x ∧ x < pos + data.length

/-- The bytes of every device after the operation: programming can only clear bits. -/
def apply (cells : Nat → Nat → Byte) : Event → Nat → Nat → Byte
  | erase i erasesize block => fun dev x =>
      if i = dev ∧ x / erasesize = block then 0xff else cells dev x
  | program i pos data => fun dev x =>
      if i = dev ∧ pos ≤ x ∧ x < pos + data.length then cells dev x &&& data.getD (x - pos) 0
      else cells dev x

end Event

def replay (cells : Nat → Nat → Byte) (trace : List Event) : Nat → Nat → Byte :=
  trace.foldl Event.apply cells

/-! ### Writing -/

/-- The block buffer and the image file. `mem` is the heap from `buf` on, `image` what the file still
gives. -/
structure Buffer where
  mem : Nat → Byte
  buflen : Nat
  offset : Nat
  image : List Byte

/-- The buffer is filled up to one block: it may contain data already. -/
def Buffer.fill (erasesize : Nat) (b : Buffer) : Buffer :=
  let data := b.image.take (erasesize - b.buflen)
  { b with
    mem := store b.mem b.buflen data
    buflen := b.buflen + data.length
    image := b.image.drop (erasesize - b.buflen) }

/-- Pad block to eraseblock size. -/
def Buffer.pad (erasesize : Nat) (b : Buffer) : Buffer :=
  if b.buflen < erasesize then
    { b with
      mem := store b.mem b.buflen (List.replicate (erasesize - b.buflen) 0xff)
      buflen := erasesize }
  else b

structure Cursor where
  w : Nat
  e : Nat
  skipBadBlocks : Nat
  pos : Nat
  trace : List Event

/-- `write(fd, buf + offset, n)`; `none` is the result `-1`. -/
def Cursor.write (d : Nand) (dev : Nat) (b : Buffer) (n : Nat) (c : Cursor) : Cursor × Option Nat :=
  if c.pos < d.size then
    let count := min n (d.size - c.pos)
    ({ c with
        pos := c.pos + count
        trace := c.trace ++ [.program dev c.pos (bytesAt b.mem b.offset count)] }, some count)
  else (c, none)

inductive Exit where
  /-- Failed to get erase block status -/
  | eraseStatus
  /-- Failed to erase block -/
  | eraseBlock
  /-- Error writing image. -/
  | writing
  /-- Insufficient space. -/
  | space
  deriving DecidableEq

inductive Erased where
  | exit (e : Exit) (c : Cursor)
  | failed (c : Cursor)
  | ready (c : Cursor)

/-- The erase loop: the next block is erased before data is written to it, bad blocks are passed over. -/
def eraseLoop (d : Nand) (dev partOffset buflen : Nat) (c : Cursor) : Erased :=
  if c.e < c.w + buflen + c.skipBadBlocks then
    match _h : d.blockIsBad c.e with
    | none => .exit .eraseStatus c
    | some true =>
        eraseLoop d dev partOffset buflen
          { c with
            skipBadBlocks := c.skipBadBlocks + d.erasesize
            e := c.e + d.erasesize
            pos := d.lseek c.pos (c.pos + d.erasesize) }
    | some false =>
        if d.eraseBlock (c.e + partOffset) then
          eraseLoop d dev partOffset buflen
            { c with
              e := c.e + d.erasesize
              trace := c.trace ++ [.erase dev d.erasesize ((c.e + partOffset) / d.erasesize)] }
        else .failed c
  else .ready c
termination_by d.size - c.e
decreasing_by
  all_goals
    have := d.erasesize_pos
    have := d.lt_size_of_blockIsBad (by assumption)
    omega

inductive Written where
  | exit (e : Exit) (c : Cursor)
  | failed (b : Buffer) (c : Cursor)
  | done (c : Cursor)

/-- The loop over the blocks of the image, on one device. It is left at the end of the image, at an
error, and when a block does not erase. -/
def writeLoop (d : Nand) (dev partOffset : Nat) (b : Buffer) (c : Cursor) : Written :=
  if (b.fill d.erasesize).buflen = 0 then .done c
  else
    let b' := (b.fill d.erasesize).pad d.erasesize
    match eraseLoop d dev partOffset b'.buflen c with
    | .exit e c => .exit e c
    | .failed c => .failed b' c
    | .ready c =>
        match c.write d dev b' b'.buflen with
        | (c, none) => .exit .writing c
        | (c, some count) =>
            if count < b'.buflen then .exit .space c
            else
              writeLoop d dev partOffset
                { mem := b'.mem, buflen := 0, offset := 0
                  image := b.image.drop (d.erasesize - b.buflen) }
                { c with w := c.w + b'.buflen }
termination_by b.image.length + min b.buflen 1
decreasing_by
  have := d.erasesize_pos
  have hfill : (b.fill d.erasesize).buflen ≠ 0 := by assumption
  simp only [Buffer.fill, List.length_take] at hfill
  simp only [List.length_drop]
  omega

inductive Outcome where
  | exit (e : Exit) (trace : List Event)
  | done (trace : List Event)
  deriving DecidableEq

/-- The devices from `d` on, with `rest` behind it; `dev` is the number of `d`. -/
def writeFrom (partOffset dev : Nat) (d : Nand) (rest : List Nand) (b : Buffer) (skipBadBlocks : Nat)
    (trace : List Event) : Outcome :=
  let pos := if 0 < partOffset then d.lseek 0 partOffset else 0
  match writeLoop d dev partOffset b { w := 0, e := 0, skipBadBlocks, pos, trace } with
  | .exit e c => .exit e c.trace
  | .done c => .done c.trace
  | .failed b c =>
      match rest with
      | [] => .exit .eraseBlock c.trace
      | next :: rest =>
          if c.w < c.e then
            writeFrom partOffset (dev + 1) next rest { b with offset := c.e - c.w } c.skipBadBlocks
              (c.write d dev b (c.e - c.w)).1.trace
          else writeFrom partOffset (dev + 1) next rest b c.skipBadBlocks c.trace

/-- `mtd_write`, with erasing enabled and no jffs2 data to insert. `head` is the part of the image that
`image_check` has read into the buffer already. -/
def mtdWrite (partOffset : Nat) (d : Nand) (rest : List Nand) (mem : Nat → Byte)
    (head image : List Byte) : Outcome :=
  writeFrom partOffset 0 d rest
    { mem := store mem 0 head, buflen := head.length, offset := 0, image } 0 []

/-! ### Dumping and verifying -/

/-- One turn of the loop of `mtd_dump`: the bytes `data` were read at `pos` and passed over, or written
to the output. -/
structure Chunk where
  pos : Nat
  data : List Byte
  skipped : Bool

/-- The loop of `mtd_dump`. The file position is `pos`; `offset` is what the bad block table is asked
about. -/
def dumpLoop (d : Nand) (cells : Nat → Byte) (pos offset size : Nat) : List Chunk :=
  let len := min size d.erasesize
  let rlen := min len (d.size - pos)
  if 0 < rlen ∧ rlen = len then
    match d.blockIsBad offset with
    | none => []
    | some true =>
        { pos, data := bytesAt cells pos len, skipped := true } ::
          dumpLoop d cells (pos + len) (offset + len) size
    | some false =>
        { pos, data := bytesAt cells pos len, skipped := false } ::
          if 0 < size - len then dumpLoop d cells (pos + len) (offset + len) (size - len) else []
  else []
termination_by d.size - pos
decreasing_by all_goals omega

/-- `mtd_dump`: the chunks read from `partOffset` on; a `size` of `0` stands for the whole device. -/
def mtdDump (d : Nand) (cells : Nat → Byte) (partOffset size : Nat) : List Chunk :=
  dumpLoop d cells (if partOffset = 0 then 0 else d.lseek 0 partOffset) 0 (if size = 0 then d.size else size)

/-- The bytes that `mtd_dump` writes to the output. -/
def dumped (chunks : List Chunk) : List Byte :=
  (chunks.filter fun chunk => !chunk.skipped).flatMap (·.data)

/-- The bytes that `mtd_verify` hashes: it reads `size` of them, 256 at a time. -/
def verifyLoop (d : Nand) (cells : Nat → Byte) (pos size : Nat) : List Byte :=
  let len := min size 256
  let rlen := min len (d.size - pos)
  if 0 < rlen then
    bytesAt cells pos rlen ++ (if 0 < size - rlen then verifyLoop d cells (pos + rlen) (size - rlen) else [])
  else []
termination_by size
decreasing_by omega

section

variable {Digest : Type} [DecidableEq Digest] (md5 : List Byte → Digest)

/-- `mtd_verify` returns `0`. -/
def mtdVerify (d : Nand) (cells : Nat → Byte) (file : List Byte) : Bool :=
  md5 file = md5 (verifyLoop d cells 0 file.length)

end

/-! ### What a write is for -/

/-- The good blocks of the device from block `first` on. -/
def Nand.goodBlocks (d : Nand) (first : Nat) : List Nat :=
  (List.range' first (d.blocks - first)).filter fun k => !d.bad k

/-- What a reader finds that goes through the good blocks from `first` on. -/
def Nand.readGood (d : Nand) (first : Nat) (cells : Nat → Byte) : List Byte :=
  (d.goodBlocks first).flatMap fun k => bytesAt cells (k * d.erasesize) d.erasesize

def readDevices (cells : Nat → Nat → Byte) : Nat → List Nand → List Byte
  | _, [] => []
  | dev, d :: rest => d.readGood 0 (cells dev) ++ readDevices cells (dev + 1) rest

/-- The blocks an image of `n` bytes takes. -/
def blockCount (erasesize n : Nat) : Nat := (n + erasesize - 1) / erasesize

/-- The image padded with `0xff` to whole blocks. -/
def padded (erasesize : Nat) (image : List Byte) : List Byte :=
  image ++ List.replicate (blockCount erasesize image.length * erasesize - image.length) 0xff

/-- Every byte programmed had been erased before. -/
def ErasedFirst (trace : List Event) : Prop :=
  ∀ before event after, trace = before ++ event :: after → ∀ dev x, event.Programs dev x →
    ∃ event' ∈ before, event'.Erases dev x

/-- The image is in the good blocks of the devices, from block `first` of the device `d` on, every byte
programmed had been erased before, and no bad block was erased or programmed. -/
structure Placed (d : Nand) (rest : List Nand) (first : Nat) (image : List Byte) (trace : List Event)
    (cells : Nat → Nat → Byte) : Prop where
  content : padded d.erasesize image <+:
    d.readGood first (replay cells trace 0) ++ readDevices (replay cells trace) 1 rest
  erased : ErasedFirst trace
  good : ∀ event ∈ trace, ∀ dev x, event.Erases dev x ∨ event.Programs dev x →
    ∀ device, (d :: rest)[dev]? = some device → device.bad (x / device.erasesize) = false

/-- The first blocks of the device, up to the one that makes `count` good ones, are bad just where the
blocks `first` further on are bad, and those are on the device and erase when good. -/
def Nand.Serves (d : Nand) (first count : Nat) : Prop :=
  ∃ walked, Nat.count (fun k => d.bad k = false) walked = count ∧
    ∀ k < walked, first + k < d.blocks ∧ d.bad (first + k) = d.bad k ∧
      (d.bad (first + k) = false → d.worn (first + k) = false)

end Immwrt.Mtd
