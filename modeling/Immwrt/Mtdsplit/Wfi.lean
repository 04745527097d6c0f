import Immwrt.Mtdsplit.Jffs2

/-!
# Broadcom whole flash images

The boot loader and the kernel are files of a JFFS2 file system, and a UBI image follows. The devices with two
images start the one with the higher boot flag, which is part of a file name or lies on a device of its own. Memory
does not run out.
-/

namespace Immwrt.Mtdsplit

def cferamName : List Byte := ofChars "cferam"

def kernelName : List Byte := ofChars "vmlinux.lz"

/-! ### The root file system -/

def ubifsTurn (mtd : Mtd) (stop : Int) (offs : Nat) : Except Errno Nat ⊕ Nat :=
  if offs < stop then
    match readFull mtd offs 4 with
    | .error _ => .inr (offs + mtd.erasesize)
    | .ok magic => if ofBe magic = ubiEcMagic then .inl (.ok offs) else .inr (offs + mtd.erasesize)
  else .inl (.error .enoent)

def ubifsFind (mtd : Mtd) (fuel offs : Nat) (size : Int) : Option (Except Errno Nat) :=
  Loop.run (ubifsTurn mtd (offs + size)) fuel offs

/-! ### An image -/

/-- What the parsers get to know apart from the flash: the name of the boot loader's file in the device tree and the
memory behind a buffer. -/
structure Board where
  big : Bool
  mtd : Mtd
  cferam : Option (List Byte)
  outside : Nat → Byte

/-- The name of the boot loader's file without its last byte. -/
def Board.cferamPart (board : Board) : List Byte :=
  let name := board.cferam.getD cferamName
  name.take (min name.length 32 - 1)

def Board.search (board : Board) (name : List Byte) (copies : Bool) : Search :=
  { big := board.big, mtd := board.mtd, name := name, copies := copies, outside := board.outside }

/-- Where the boot loader is and where the search for the kernel starts. -/
def findCferam (board : Board) (fuel off size : Nat) (cfePart : Bool) : Option (Except Errno (Nat × Nat)) :=
  if cfePart then
    (jffs2FindFile (board.search board.cferamPart false) fuel off size).map fun
      | .error err => .error err
      | .ok found => .ok (found.offs, found.offs + board.mtd.erasesize)
  else some (.ok (off, off))

def wfiParts (off size cfeOff kernelOff rootfsOff : Nat) (cfePart : Bool) : List Partition :=
  (if cfePart then [{ name := .cferam, offset := cfeOff, size := kernelOff - cfeOff }] else []) ++ [
    { name := .firmware, offset := kernelOff, size := size - (kernelOff - off) },
    { name := .kernel, offset := kernelOff, size := rootfsOff - kernelOff },
    { name := .ubi, offset := rootfsOff, size := size - (rootfsOff - off) }]

def parseBcmWfi (board : Board) (fuel off size : Nat) (cfePart : Bool) : Option (Except Errno (List Partition)) :=
  match findCferam board fuel off size cfePart with
  | none => none
  | some (.error err) => some (.error err)
  | some (.ok (cfeOff, start)) =>
    match jffs2FindFile (board.search kernelName false) fuel start (size - (start - off)) with
    | none => none
    | some (.error err) => some (.error err)
    | some (.ok kernel) =>
      let rootfsStart := kernel.offs + board.mtd.erasesize
      match ubifsFind board.mtd fuel rootfsStart (size - (rootfsStart - off)) with
      | none => none
      | some (.error err) => some (.error err)
      | some (.ok rootfsOff) => some (.ok (wfiParts off size cfeOff kernel.offs rootfsOff cfePart))

/-! ### Two images -/

def cfeMagicPfx : List Byte := ofChars "cferam."

def sercommMagicPfx : List Byte := ofChars "eRcOmM."

/-- `CFE_MAGIC_LEN` and `SERCOMM_MAGIC_LEN`; both names have the same length. -/
def magicLen : Nat := 10

def enoent : Int := -2

def charToNum (c : Byte) : Nat := if 48 ≤ c ∧ c ≤ 57 then c.toNat - 48 else 0

/-- The three digits behind a name of 7 bytes. -/
def flagDigits (name : Nat → Byte) : Nat :=
  charToNum (name 7) * 100 + charToNum (name 8) * 10 + charToNum (name 9) * 1

/-- The memory at a copied name, with the heap behind its end. -/
def copiedName (name : List Byte) (heap : Nat → Byte) (i : Nat) : Byte := (name ++ [0]).getD i (heap i)

/-- `cferam_bootflag_value` for what a search found. -/
def cferamBootflagValue (found : Except Errno Found) (heap : Nat → Byte) : Int :=
  match found with
  | .error _ => enoent
  | .ok found =>
    let name := copiedName found.name.1 heap
    if magicLen ≤ found.name.2 ∧ bytesAt name 0 7 = cfeMagicPfx then flagDigits name else enoent

def sercommTurn (mtd : Mtd) (offs : Nat) : Int ⊕ Nat :=
  if offs < mtd.size then
    match readFull mtd offs magicLen with
    | .error _ => .inr (offs + mtd.erasesize)
    | .ok buf =>
      if buf.take 7 ≠ sercommMagicPfx then .inr (offs + mtd.erasesize)
      else .inl (flagDigits fun i => buf.getD i 0)
  else .inl enoent

def sercommBootflagValue (mtd : Mtd) (fuel : Nat) : Option Int := Loop.run (sercommTurn mtd) fuel 0

/-- What a parser returns, and the partitions that it leaves to its caller. -/
structure ParseReturn where
  ret : Except Errno Nat
  parts : Option (List Partition)

structure Half where
  name : PartName
  off : Nat
  size : Nat

def Half.part (half : Half) : Partition := { name := half.name, offset := half.off, size := half.size }

def img1 (mtd : Mtd) : Half := { name := .img1, off := 0, size := mtd.size / 2 }

def img2 (mtd : Mtd) : Half := { name := .img2, off := mtd.size / 2, size := mtd.size - mtd.size / 2 }

/-- What both parsers do when they have the flags. -/
def parseActive (board : Board) (fuel : Nat) (bf1 bf2 : Int) (cfePart : Bool) : Option ParseReturn :=
  let (active, inactive) :=
    if bf1 ≥ bf2 then (img1 board.mtd, img2 board.mtd) else (img2 board.mtd, img1 board.mtd)
  (parseBcmWfi board fuel active.off active.size cfePart).map fun
    | .ok parts => { ret := .ok (parts.length + 1), parts := some (parts ++ [inactive.part]) }
    | .error err => { ret := .error err, parts := some [(img1 board.mtd).part, (img2 board.mtd).part] }

def mtdsplitParseBcmWfiSplit (board : Board) (heap1 heap2 : Nat → Byte) (fuel : Nat) : Option ParseReturn :=
  let search := board.search cferamName true
  match jffs2FindFile search fuel (img1 board.mtd).off (img1 board.mtd).size,
      jffs2FindFile search fuel (img2 board.mtd).off (img2 board.mtd).size with
  | some found1, some found2 =>
    parseActive board fuel (cferamBootflagValue found1 heap1) (cferamBootflagValue found2 heap2) true
  | _, _ => none

/-- What it returns, and whether it has the second flag erased. The devices with the flags may be missing. -/
def mtdsplitParseSerWfi (board : Board) (mtdBf1 mtdBf2 : Option Mtd) (fuel : Nat) : Option (ParseReturn × Bool) :=
  match mtdBf1, mtdBf2 with
  | some mtdBf1, some mtdBf2 =>
    match sercommBootflagValue mtdBf1 fuel, sercommBootflagValue mtdBf2 fuel with
    | some bf1, some bf2 =>
      if bf1 = bf2 ∧ bf2 ≥ 0 then (parseActive board fuel bf1 enoent false).map (·, true)
      else (parseActive board fuel bf1 bf2 false).map (·, false)
    | _, _ => none
  | _, _ => some ({ ret := .error .enoent, parts := none }, false)

/-! ### What it is to do -/

/-- The half with the higher flag, or the first one, and the other half. -/
def activeHalf (mtd : Mtd) (bf1 bf2 : Int) : Half × Half :=
  if bf1 < bf2 then (img2 mtd, img1 mtd) else (img1 mtd, img2 mtd)

def Parses (board : Board) (half : Half) (cfePart : Bool) (parts : List Partition) : Prop :=
  ∃ fuel, parseBcmWfi board fuel half.off half.size cfePart = some (.ok parts)

/-- The partitions of an image lie in its half, and the kernel and the root file system are the firmware. -/
structure ImageLayout (half : Half) (parts : List Partition) : Prop where
  inside : ∀ part ∈ parts, half.off ≤ part.offset ∧ part.stop ≤ half.off + half.size
  tiles : ∃ front firmware kernel ubi, parts = front ++ [firmware, kernel, ubi] ∧
    (∀ part ∈ front, part.name = .cferam) ∧ firmware.name = .firmware ∧ kernel.name = .kernel ∧ ubi.name = .ubi ∧
    kernel.offset = firmware.offset ∧ kernel.stop = ubi.offset ∧ ubi.stop = firmware.stop

/-- What is to come of two flags. -/
structure Selects (board : Board) (cfePart : Bool) (bf1 bf2 : Int) (result : ParseReturn) : Prop where
  image : ∀ parts, Parses board (activeHalf board.mtd bf1 bf2).1 cfePart parts →
    result = { ret := .ok (parts.length + 1)
               parts := some (parts ++ [(activeHalf board.mtd bf1 bf2).2.part]) } ∧
      ImageLayout (activeHalf board.mtd bf1 bf2).1 parts
  fallback : (∀ parts, ¬ Parses board (activeHalf board.mtd bf1 bf2).1 cfePart parts) →
    result = { ret := .ok 2, parts := some [(img1 board.mtd).part, (img2 board.mtd).part] }

/-- The flag in the name of the boot loader in a half. -/
def CferamFlag (board : Board) (half : Half) (heap : Nat → Byte) (bf : Int) : Prop :=
  ∃ fuel found, jffs2FindFile (board.search cferamName true) fuel half.off half.size = some found ∧
    cferamBootflagValue found heap = bf

def SercommFlag (mtd : Mtd) (bf : Int) : Prop := ∃ fuel, sercommBootflagValue mtd fuel = some bf

def SplitSelects (board : Board) (heap1 heap2 : Nat → Byte) : Prop :=
  ∃ bf1 bf2, CferamFlag board (img1 board.mtd) heap1 bf1 ∧ CferamFlag board (img2 board.mtd) heap2 bf2 ∧
    ∃ fuel result, mtdsplitParseBcmWfiSplit board heap1 heap2 fuel = some result ∧
      Selects board true bf1 bf2 result

def SerSelects (board : Board) (mtdBf1 mtdBf2 : Mtd) : Prop :=
  ∃ bf1 bf2, SercommFlag mtdBf1 bf1 ∧ SercommFlag mtdBf2 bf2 ∧
    ∃ fuel result erases, mtdsplitParseSerWfi board (some mtdBf1) (some mtdBf2) fuel = some (result, erases) ∧
      Selects board false bf1 bf2 result

end Immwrt.Mtdsplit
