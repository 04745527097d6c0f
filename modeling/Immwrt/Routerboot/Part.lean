import Immwrt.Lib.Partial
import Immwrt.Lib.Text
import Immwrt.Routerboot.Config

/-!
# RouterBOOT partitions

The parser looks for the well-known partitions on the whole flash and then lays out the nodes of the device
tree one behind another. A `size_t` has 32 bits.
-/

namespace Immwrt.Routerboot

def rbBlockSize : Nat := 0x1000

/-! ### The flash -/

/-- How a call of `mtd_read` ends: with all bytes, with some of them before what the buffer held, or with an
error. -/
inductive MtdOutcome where
  | done
  | short (bytes : Nat) (stale : Nat → Byte)
  | failed (err : Errno)

/-- The master device. `outcome` has how the calls of `mtd_read` end, in their order. -/
structure Master where
  size : Nat
  content : Nat → Byte
  outcome : Nat → MtdOutcome

/-- The buffer and the number of bytes read after the call number `call`. -/
def mtdRead (master : Master) (call from' len : Nat) : Except Errno (List Byte × Nat) :=
  if master.size < from' + len then .error .einval
  else
    match master.outcome call with
    | .done => .ok (bytesAt master.content from' len, len)
    | .short bytes stale =>
      .ok ((bytesAt master.content from' (min bytes len) ++ bytesAt stale 0 len).take len, min bytes len)
    | .failed err => .error err

/-! ### Well-known partitions -/

structure DynPart where
  name : CString
  magic : Word
  sizeFixup : Bool
  offset : BitVec 32
  size : BitVec 32
  found : Bool

def rbDynparts (big : Bool) : List DynPart :=
  [{ name := .lit "hard_config", magic := 0x64726148, sizeFixup := false, offset := 0, size := 0x1000
     found := false },
   { name := .lit "soft_config", magic := 0x74666f53, sizeFixup := false, offset := 0, size := 0x1000
     found := false },
   { name := .lit "dtb_config", magic := cpuWord big [0xd0, 0x0d, 0xfe, 0xed], sizeFixup := true, offset := 0
     size := 0, found := false }]

def sizeofFdtHeader : Nat := 40

/-- The size of the device tree at `offset`. -/
def routerbootDtbsfixup (master : Master) (call : Nat) (offset : BitVec 32) : Except Errno (BitVec 32) :=
  match mtdRead master call offset.toNat sizeofFdtHeader with
  | .error err => .error err
  | .ok (header, bytesRead) =>
    if bytesRead ≠ sizeofFdtHeader then .error .eio
    else
      let psize := ofBe (slice header 4 4)
      if psize = 0 then .error .einval else .ok psize

/-- How far the search goes on behind a partition that was found, less one block. -/
def skipOf (size : BitVec 32) : BitVec 32 := if 0x1000 < size then alignDown 12 (size - 0x1000) else 0

/-- The partitions, the number of calls and the bytes to skip, when the flash holds `magic` at `offset`. -/
def matchDynparts (master : Master) (offset : BitVec 32) (magic : Word) :
    List DynPart → Nat → List DynPart × Nat × BitVec 32
  | [], calls => ([], calls, 0)
  | part :: parts, calls =>
    if part.found ∨ part.magic ≠ magic then
      let (rest, calls, skip) := matchDynparts master offset magic parts calls
      (part :: rest, calls, skip)
    else
      let part := { part with offset := offset }
      if part.sizeFixup then
        match routerbootDtbsfixup master calls offset with
        | .error _ =>
          let (rest, calls, skip) := matchDynparts master offset magic parts (calls + 1)
          (part :: rest, calls, skip)
        | .ok size => ({ part with size := size, found := true } :: parts, calls + 1, skipOf size)
      else ({ part with found := true } :: parts, calls, skipOf part.size)

/-- Where the search stands. -/
structure Scan where
  offset : BitVec 32
  calls : Nat
  dynparts : List DynPart

def Scan.allfound (scan : Scan) : Bool := scan.dynparts.all DynPart.found

/-- The bytes between the offset of a turn and the next one, when its read has given `buf`. -/
def Scan.advance (big : Bool) (master : Master) (scan : Scan) (buf : List Byte) : BitVec 32 :=
  (matchDynparts master scan.offset (cpuWord big buf) scan.dynparts (scan.calls + 1)).2.2 + 0x1000

/-- One turn of the loop; `none` when it is over. -/
def findTurn (big : Bool) (master : Master) (scan : Scan) : Option Scan :=
  if scan.offset.toNat < master.size then
    match mtdRead master scan.calls scan.offset.toNat 4 with
    | .error _ => some { scan with calls := scan.calls + 1 }
    | .ok (buf, _) =>
      if scan.allfound then none
      else
        let (dynparts, calls, _) :=
          matchDynparts master scan.offset (cpuWord big buf) scan.dynparts (scan.calls + 1)
        some { offset := scan.offset + scan.advance big master buf, calls := calls, dynparts := dynparts }
  else none

/-- The partitions after the search, if it ends within `fuel` turns. -/
def findLoop (big : Bool) (master : Master) : Nat → Scan → Option (List DynPart)
  | 0, _ => none
  | fuel + 1, scan =>
    match findTurn big master scan with
    | none => some scan.dynparts
    | some scan => findLoop big master fuel scan

def Scan.start (dynparts : List DynPart) : Scan where
  offset := 0
  calls := 0
  dynparts := dynparts

def routerbootFindDynparts (big : Bool) (master : Master) (dynparts : List DynPart) (fuel : Nat) :
    Option (List DynPart) := findLoop big master fuel (.start dynparts)

/-! ### Nodes -/

/-- A child of the node of the master, with its properties and the numbers of cells of its parent. -/
structure PartNode where
  label : Option CString
  name : Option CString
  nodeName : CString
  reg : Option (List Byte)
  sizeProp : Option (List Byte)
  addrCells : Nat
  sizeCells : Nat
  readOnly : Bool
  lock : Bool

def PartNode.partname (pp : PartNode) : CString := (pp.label.or pp.name).getD pp.nodeName

/-- `of_read_number` of `cells` cells. -/
def ofReadNumber (prop : List Byte) : Nat → Nat → BitVec 64 → BitVec 64
  | _, 0, r => r
  | ofs, cells + 1, r => ofReadNumber prop (ofs + 4) cells ((r <<< 32) ||| (ofBe (slice prop ofs 4)).setWidth 64)

structure MtdPartition where
  name : CString
  offset : BitVec 64
  size : BitVec 64
  readOnly : Bool
  lock : Bool

/-- The offset and the size of a node, which is fixed or dynamic. -/
def PartNode.place (dynparts : List DynPart) (masterOfs : BitVec 32) (pp : PartNode) :
    Except Errno (BitVec 32 × BitVec 32) :=
  match pp.reg with
  | some reg =>
    if reg.length / 4 ≠ pp.addrCells + pp.sizeCells then .error .einval
    else
      .ok ((ofReadNumber reg 0 pp.addrCells 0).setWidth 32,
        (ofReadNumber reg (4 * pp.addrCells) pp.sizeCells 0).setWidth 32)
  | none =>
    let (offset, size) :=
      match dynparts.find? fun part => part.name = pp.partname ∧ part.found with
      | some part => (part.offset, part.size)
      | none => (masterOfs, 0)
    match pp.sizeProp with
    | none => .ok (offset, size)
    | some sz =>
      if sz.length / 4 ≠ pp.sizeCells then .error .einval
      else .ok (offset, (ofReadNumber sz 0 pp.sizeCells 0).setWidth 32)

/-- The check and the correction of the partition before a node at `offset`. -/
def fixupPrevious (offset : BitVec 32) : List MtdPartition → Except Errno (List MtdPartition)
  | [] => .ok []
  | prev :: parts =>
    if offset.setWidth 64 < prev.offset + prev.size then .error .einval
    else if prev.size = 0 then .ok ({ prev with size := offset.setWidth 64 - prev.offset } :: parts)
    else .ok (prev :: parts)

/-- The partitions of the nodes behind those that are there, the last one first. -/
def layoutNodes (master : Master) (dynparts : List DynPart) :
    List PartNode → List MtdPartition → BitVec 32 → Except Errno (List MtdPartition)
  | [], parts, _ => .ok parts
  | pp :: nodes, parts, masterOfs =>
    match pp.place dynparts masterOfs with
    | .error err => .error err
    | .ok (offset, size) =>
      match fixupPrevious offset parts with
      | .error err => .error err
      | .ok parts =>
        if master.size < (offset + size).toNat then .error .einval
        else
          let part : MtdPartition :=
            { name := pp.partname, offset := offset.setWidth 64, size := size.setWidth 64
              readOnly := pp.readOnly, lock := pp.lock }
          layoutNodes master dynparts nodes (part :: parts) (alignUp 12 (offset + size))

/-- The partitions that the parser registers; `none` when it does not return. `kcalloc` is whether there is
memory. -/
def routerbootPartitionsParse (big : Bool) (master : Master) (dynparts : List DynPart) (nodes : List PartNode)
    (kcalloc : Bool) (fuel : Nat) : Option (Except Errno (List MtdPartition)) :=
  if nodes = [] then some (.ok [])
  else if ¬ kcalloc then some (.error .enomem)
  else
    match routerbootFindDynparts big master dynparts fuel with
    | none => none
    | some dynparts =>
      match layoutNodes master dynparts nodes [] 0 with
      | .error err => some (.error err)
      | .ok parts => some (.ok parts.reverse)

end Immwrt.Routerboot
