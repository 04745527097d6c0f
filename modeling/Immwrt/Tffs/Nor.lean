import Immwrt.Lib.Align
import Immwrt.Lib.Endian
import Immwrt.Lib.Loop

/-!
# A TFFS image in NOR flash

The reader has the whole image in a buffer. It goes from entry to entry in search of an id, and takes the entry with
the names apart. Memory does not run out. What is read outside of the buffer ends the program.
-/

namespace Immwrt.Tffs

/-- A read outside of the buffer. -/
inductive Fault where
  | overrun
  deriving DecidableEq

/-- `TFFS_ID_END` -/
def tffsIdEnd : HalfWord := 0xffff

/-- `TFFS_ID_TABLE_NAME` -/
def tffsIdTableName : HalfWord := 0x01ff

/-- An image, the order of the bytes in the CPU, and `-b`. -/
structure Nor where
  buffer : List Byte
  bigEndian : Bool
  swapBytes : Bool

variable (nor : Nor)

/-- The image that is read from a file; a size of 0 is that of the file. -/
def readTffs (file : List Byte) (size : Nat) : Option (List Byte) :=
  let size := if size = 0 then file.length else size
  if file.length < size then none else some (file.take size)

namespace Nor

def load (off len : Nat) : Except Fault (List Byte) :=
  if off + len ≤ nor.buffer.length then .ok (slice nor.buffer off len) else .error .overrun

/-- A half word as the CPU has it. -/
def cpuHalf (bytes : List Byte) : HalfWord := if nor.bigEndian then ofBe16 bytes else ofLe16 bytes

/-- A half word after `ntohs`, if bytes are to be swapped. -/
def getHalf (bytes : List Byte) : HalfWord := if nor.swapBytes then ofBe16 bytes else nor.cpuHalf bytes

/-- `get_walk_size` -/
def walkSize (entryLen : Word) : Word := alignUp 2 entryLen

/-! ### Entries -/

/-- A turn of `find_entry` at an offset. It returns the offset of the entry, if there is one. -/
def findTurn (id : HalfWord) (pos : Word) : Except Fault (Option Word) ⊕ Word :=
  match nor.load pos.toNat 2 with
  | .error fault => .inl (.error fault)
  | .ok headerId =>
    if nor.getHalf headerId = id then .inl (.ok (some pos))
    else
      match nor.load (pos.toNat + 2) 2 with
      | .error fault => .inl (.error fault)
      | .ok headerLen =>
        let next := pos + 4 + walkSize ((nor.getHalf headerLen).setWidth 32)
        if next.toNat < nor.buffer.length ∧ nor.cpuHalf headerId ≠ tffsIdEnd then .inr next
        else .inl (.ok none)

def findEntry (id : HalfWord) (fuel : Nat) : Option (Except Fault (Option Word)) :=
  Loop.run (nor.findTurn id) fuel 0

/-- `print_entry_value` of the entry at an offset. -/
def printEntryValue (pos : Word) : Except Fault (List Byte) :=
  match nor.load (pos.toNat + 2) 2 with
  | .error fault => .error fault
  | .ok headerLen => nor.load (pos.toNat + 4) (nor.getHalf headerLen).toNat

/-! ### Names -/

/-- The string at an offset. -/
def loadString (off : Nat) : Except Fault (List Byte) :=
  if 0 ∈ nor.buffer.drop off then .ok ((nor.buffer.drop off).takeWhile (· ≠ 0)) else .error .overrun

/-- The offset of the id of a name in the value of the entry, and the name. -/
abbrev NameItem := Word × List Byte

/-- A turn of `parse_key_names`, which has an offset in the value and the names before. -/
def namesTurn (pos : Word) : Word × List NameItem → Except Fault (List NameItem) ⊕ (Word × List NameItem)
  | (at', items) =>
    match nor.loadString (pos.toNat + 4 + (at' + 4).toNat) with
    | .error fault => .inl (.error fault)
    | .ok name =>
      let next := at' + 4 + walkSize (BitVec.ofNat 32 (name.length + 1))
      match nor.load (pos.toNat + 2) 2 with
      | .error fault => .inl (.error fault)
      | .ok headerLen =>
        if next.toNat < (nor.getHalf headerLen).toNat then .inr (next, items ++ [(at', name)])
        else .inl (.ok (items ++ [(at', name)]))

/-- `parse_key_names` of the entry at an offset. -/
def parseKeyNames (pos : Word) (fuel : Nat) : Option (Except Fault (List NameItem)) :=
  Loop.run (nor.namesTurn pos) fuel (0, [])

/-! ### What the reader is to do -/

/-- The id and the length in the header at an offset. -/
def idAt (pos : Nat) : HalfWord := nor.getHalf (slice nor.buffer pos 2)

def lenAt (pos : Nat) : Nat := (nor.getHalf (slice nor.buffer (pos + 2) 2)).toNat

/-- The offset behind an entry, whose value fills whole words. -/
def stop (pos : Nat) : Nat := pos + 4 + (nor.lenAt pos + 3) / 4 * 4

/-- The headers of the image, one behind the other, up to the end marker. -/
inductive InChain : Nat → Prop where
  | start : 4 ≤ nor.buffer.length → InChain 0
  | next {pos : Nat} : InChain pos → nor.idAt pos ≠ tffsIdEnd → nor.stop pos + 4 ≤ nor.buffer.length →
      InChain (nor.stop pos)

/-- An entry with an id. -/
def EntryWith (id : HalfWord) (pos : Nat) : Prop :=
  nor.InChain pos ∧ nor.idAt pos ≠ tffsIdEnd ∧ nor.idAt pos = id

/-- A search returns the first entry with an id, if there is one. -/
def FindRight (id : HalfWord) : Option Word → Prop
  | some pos => nor.EntryWith id pos.toNat ∧ ∀ pos', nor.EntryWith id pos' → pos.toNat ≤ pos'
  | none => ∀ pos, ¬ nor.EntryWith id pos

/-- The reader ends, reads its buffer only, and finds the first entry with an id. -/
structure Sound (id : HalfWord) : Prop where
  finds : ∃ fuel found, nor.findEntry id fuel = some (.ok found) ∧ nor.FindRight id found
  prints : ∀ fuel pos, nor.findEntry id fuel = some (.ok (some pos)) → ∃ value, nor.printEntryValue pos = .ok value
  names : id = tffsIdTableName → ∀ fuel pos, nor.findEntry id fuel = some (.ok (some pos)) →
    ∃ fuel items, nor.parseKeyNames pos fuel = some (.ok items)

end Nor

end Immwrt.Tffs
