import Immwrt.Lib.Crc
import Immwrt.Lib.Text
import Immwrt.Lib.Traced
import Immwrt.Mtdsplit.Mtd

/-!
# Walks through a JFFS2 file system

Two parsers go from node to node, one through each block of a file system in search of a file, the other through the
whole device. A node has its length in its header.
-/

namespace Immwrt.Mtdsplit

/-- `JFFS2_MAGIC_BITMASK`, `JFFS2_NODETYPE_DIRENT` -/
def jffs2MagicBitmask : HalfWord := 0x1985

def jffs2NodetypeDirent : HalfWord := 0xe001

def openwrtName : List Byte := ofChars "1-openwrt"

/-- A read of so many bytes at an offset in a buffer. -/
abbrev Access := Nat × Nat

def readAt (buf : Nat → Byte) (off len : Nat) : Traced Access (List Byte) := do
  Traced.emit (off, len)
  pure (bytesAt buf off len)

/-- `jffs2_dirent_valid`, whose conditions are read one after the other. -/
def jffs2DirentValid (big : Bool) (buf : Nat → Byte) (node : Nat) : Traced Access Bool := do
  let magic ← readAt buf node 2
  if cpuHalfWord big magic = jffs2MagicBitmask then
    let nodetype ← readAt buf (node + 2) 2
    if cpuHalfWord big nodetype = jffs2NodetypeDirent then
      let ino ← readAt buf (node + 20) 4
      if cpuWord big ino ≠ 0 then
        let nodeCrc ← readAt buf (node + 32) 4
        let raw ← readAt buf node 32
        pure (cpuWord big nodeCrc == crc32 0 raw)
      else pure false
    else pure false
  else pure false

/-- The offset behind a node. -/
def nextNode (big : Bool) (buf : Nat → Byte) (blockOffs : Word) : Traced Access Word := do
  let totlen ← readAt buf (blockOffs.toNat + 4) 4
  pure ((blockOffs + cpuWord big totlen + 3) &&& ~~~3)

/-- `kstrndup` of the name of a node, and the length that the node gives. -/
def copyName (buf : Nat → Byte) (node : Nat) : Traced Access (List Byte × Nat) := do
  let nsize ← readAt buf (node + 28) 1
  let len := (nsize.getD 0 0).toNat
  let name := (bytesAt buf (node + 40) len).takeWhile (· ≠ 0)
  let _ ← readAt buf (node + 40) (min (name.length + 1) len)
  pure (name, len)

/-- How the walk through a block ends. -/
inductive WalkEnd where
  | found (name : List Byte × Nat)
  | invalid
  | ended (valid : Bool)

/-- A turn of the walk, which has an offset in the block and whether the file of the system has been seen. The name
that is looked for may be copied. -/
def walkTurn (big : Bool) (erasesize : Nat) (name : List Byte) (copies : Bool) (buf : Nat → Byte) :
    Word × Bool → Traced Access (WalkEnd ⊕ (Word × Bool))
  | (blockOffs, valid) => do
    let node := blockOffs.toNat
    if node < erasesize then
      let direntValid ← jffs2DirentValid big buf node
      if direntValid then
        let start ← readAt buf (node + 40) openwrtName.length
        if start = openwrtName then
          let next ← nextNode big buf blockOffs
          pure (.inr (next, true))
        else
          let start ← readAt buf (node + 40) name.length
          if start = name then
            if valid then
              if copies then
                let copy ← copyName buf node
                pure (.inl (.found copy))
              else pure (.inl (.found ([], 0)))
            else pure (.inl .invalid)
          else
            let next ← nextNode big buf blockOffs
            pure (.inr (next, valid))
      else pure (.inr (blockOffs + 4, valid))
    else pure (.inl (.ended valid))

/-- Where a file was found, and its name if it was copied. -/
structure Found where
  offs : Nat
  name : List Byte × Nat

/-- A search is in front of a block or in the buffer with a block. -/
inductive FindState where
  | block (offs : Nat) (valid : Bool)
  | walk (offs : Nat) (buf : List Byte) (place : Word × Bool)

/-- What is looked for, and the memory behind the buffer. -/
structure Search where
  big : Bool
  mtd : Mtd
  name : List Byte
  copies : Bool
  outside : Nat → Byte

/-- What a turn reads of the buffer. -/
def Search.walkTurn (search : Search) (buf : List Byte) : Word × Bool → Traced Access (WalkEnd ⊕ (Word × Bool)) :=
  Mtdsplit.walkTurn search.big search.mtd.erasesize search.name search.copies (bufferView buf search.outside)

def Search.turn (search : Search) (stop : Int) : FindState → Except Errno Found ⊕ FindState
  | .block offs valid =>
    if offs < stop then
      match readFull search.mtd offs 2 with
      | .error _ => .inr (.block (offs + search.mtd.erasesize) valid)
      | .ok magic =>
        if cpuHalfWord search.big magic ≠ jffs2MagicBitmask then
          .inr (.block (offs + search.mtd.erasesize) valid)
        else
          match mtdRead search.mtd offs search.mtd.erasesize with
          | .error err => .inl (.error err)
          | .ok buf =>
            if buf.length ≠ search.mtd.erasesize then .inl (.error .einval)
            else .inr (.walk offs buf (0, valid))
    else .inl (.error .enoent)
  | .walk offs buf place =>
    match (search.walkTurn buf place).val with
    | .inl (.found name) => .inl (.ok { offs := offs, name := name })
    | .inl .invalid => .inl (.error .einval)
    | .inl (.ended valid) => .inr (.block (offs + search.mtd.erasesize) valid)
    | .inr place => .inr (.walk offs buf place)

def jffs2FindFile (search : Search) (fuel offs : Nat) (size : Int) : Option (Except Errno Found) :=
  Loop.run (search.turn (offs + size)) fuel (.block offs false)

/-- A read lies in the block. -/
def Access.InBlock (erasesize : Nat) (access : Access) : Prop := access.1 + access.2 ≤ erasesize

/-- The search ends, and it reads its buffer only. -/
structure Search.Robust (search : Search) (offs : Nat) (size : Int) : Prop where
  returns : ∃ fuel result, jffs2FindFile search fuel offs size = some result
  reads : ∀ offs' buf place,
    Loop.Reaches (search.turn (offs + size)) (.block offs false) (.walk offs' buf place) →
      Traced.Every (Access.InBlock search.mtd.erasesize) (search.walkTurn buf place)

/-! ### The file system of a boot loader -/

/-- A turn of the walk to the end of the file system. -/
def bootfsTurn (big : Bool) (mtd : Mtd) (offset : Word) : Word ⊕ Word :=
  match readFull mtd offset.toNat 40 with
  | .error _ => .inl offset
  | .ok node =>
    if cpuHalfWord big (node.take 2) ≠ jffs2MagicBitmask then .inl offset
    else
      let next := (offset + cpuWord big (slice node 4 4) + 3) &&& ~~~3
      if next.toNat < mtd.size then .inr next else .inl next

/-- The walk to the end of the file system ends. -/
def BootfsReturns (big : Bool) (mtd : Mtd) : Prop := ∃ fuel stop, Loop.run (bootfsTurn big mtd) fuel 0 = some stop

def mtdsplitCfeBootfsParse (big : Bool) (mtd : Mtd) (name : List Byte) (fuel : Nat) :
    Option (Except Errno (List Partition)) :=
  -- backup partitions are left alone
  if name ≠ ofChars "firmware" then some (.error .einval)
  else
    match Loop.run (bootfsTurn big mtd) fuel 0 with
    | none => none
    | some _ =>
      (mtdFindRootfsFrom big mtd fuel mtd.erasesize).map fun
        | .error err => .error err
        | .ok (rootfsOffset, type) => .ok [
          { name := .bootfs, offset := 0, size := rootfsOffset },
          { name := rootfsName type, offset := rootfsOffset, size := mtd.size - rootfsOffset }]

end Immwrt.Mtdsplit
