import Immwrt.Lib.File
import Immwrt.Mtd.Jffs2
import Immwrt.Mtd.Write

/-!
# Appending a file to a jffs2 partition

`mtd` packs the nodes of a file into a buffer of one erase block and writes the buffer whenever it is full,
past the blocks that are marked bad. `mtd_write_jffs2` does so at the end of a partition that is there,
`mtd_replace_jffs2` in place of the end marker of an image that is being written.
-/

namespace Immwrt.Mtd.Jffs2

/-! ### Nodes -/

section Nodes

variable (big : Bool)

def putHalf (h : HalfWord) : List Byte := if big then u16be h else u16le h

def putWord (w : Word) : List Byte := if big then wordBe w else u32le w

/-- `CLEANMARKER` -/
def cleanmarker : List Byte :=
  if big then [0x19, 0x85, 0x20, 0x03, 0x00, 0x00, 0x00, 0x0c, 0xf0, 0x60, 0xdc, 0x98]
  else [0x85, 0x19, 0x03, 0x20, 0x0c, 0x00, 0x00, 0x00, 0xb1, 0xb0, 0x1e, 0xe4]

/-- `JFFS2_EOF` -/
def eofMarker : List Byte := [0xde, 0xad, 0xc0, 0xde]

/-- The first fields of a node, with their checksum. -/
def unknownNode (nodetype : HalfWord) (totlen : Nat) : List Byte :=
  let start := putHalf big magicBitmask ++ putHalf big nodetype ++ putWord big (BitVec.ofNat 32 totlen)
  start ++ putWord big (crc32 0 start)

/-- `struct jffs2_raw_dirent`, as far as it is not the same for all. -/
structure RawDirent where
  pino : Word
  version : Word
  ino : Word
  type : Byte
  name : List Byte
  deriving DecidableEq

def direntSize : Nat := 40

/-- The entry in memory, with its name. -/
def RawDirent.bytes (de : RawDirent) : List Byte :=
  let fields := unknownNode big nodetypeDirent (direntSize + de.name.length) ++ putWord big de.pino ++
    putWord big de.version ++ putWord big de.ino ++ putWord big 0 ++
    [BitVec.ofNat 8 de.name.length, de.type, 0, 0]
  fields ++ putWord big (crc32 0 fields) ++ putWord big (crc32 0 de.name) ++ de.name

/-- `struct jffs2_raw_inode`, as far as it is not the same for all, with its data. -/
structure RawInode where
  ino : Word
  version : Word
  mode : Word
  isize : Word
  atime : Word
  mtime : Word
  ctime : Word
  offset : Word
  data : List Byte
  deriving DecidableEq

def inodeSize : Nat := 68

/-- The inode in memory, without the data; `dataCrc` is its checksum of the data. -/
def RawInode.bytes (ri : RawInode) (dataCrc : Word) : List Byte :=
  let fields := unknownNode big nodetypeInode (inodeSize + ri.data.length) ++ putWord big ri.ino ++
    putWord big ri.version ++ putWord big ri.mode ++ putHalf big 0 ++ putHalf big 0 ++ putWord big ri.isize ++
    putWord big ri.atime ++ putWord big ri.mtime ++ putWord big ri.ctime ++ putWord big ri.offset ++
    putWord big (BitVec.ofNat 32 ri.data.length) ++ putWord big (BitVec.ofNat 32 ri.data.length) ++
    [0, 0, 0, 0]
  fields ++ putWord big dataCrc ++ putWord big (crc32 0 fields)

end Nodes

/-! ### The device -/

/-- What is behind the file descriptor. -/
structure Disk where
  mtdofs : Nat
  pos : Nat
  trace : List Event
  /-- Failed to get erase block status -/
  exited : Bool

/-- The loop over the bad blocks. -/
def Disk.skipBad (d : Nand) (disk : Disk) : Disk :=
  match _h : d.blockIsBad disk.mtdofs with
  | none => { disk with exited := true }
  | some bad =>
    if bad ∧ disk.mtdofs < d.size then
      Disk.skipBad d { disk with
        mtdofs := disk.mtdofs + d.erasesize
        -- Move the file pointer along over the bad block.
        pos := d.lseek disk.pos (disk.pos + d.erasesize) }
    else disk
termination_by d.size - disk.mtdofs
decreasing_by
  have := d.lt_size_of_blockIsBad _h
  have := d.erasesize_pos
  omega

/-- Erase the next good block and write to it; neither result is looked at. -/
def Disk.put (d : Nand) (disk : Disk) (block : List Byte) : Disk :=
  if disk.exited then disk
  else
    let disk := disk.skipBad d
    if disk.exited then disk
    else
      let disk :=
        if d.eraseBlock disk.mtdofs then
          { disk with trace := disk.trace ++ [.erase 0 d.erasesize (disk.mtdofs / d.erasesize)] }
        else disk
      let count := min block.length (d.size - disk.pos)
      { disk with
        trace := if disk.pos < d.size then disk.trace ++ [.program 0 disk.pos (block.take count)] else disk.trace
        pos := disk.pos + count
        mtdofs := disk.mtdofs + d.erasesize }

/-! ### The block buffer -/

/-- The buffer, how far it is filled, and what `mtd` keeps besides. `buf` is the heap from the buffer on. -/
structure Writer where
  buf : Octets
  ofs : Nat
  globals : Globals
  disk : Disk

section Buffer

variable (big : Bool) (d : Nand)

def pad (size : Nat) (w : Writer) : Writer :=
  if w.ofs % size = 0 ∧ w.ofs < d.erasesize then w
  else
    let w :=
      if w.ofs < d.erasesize then
        { w with
          buf := store w.buf w.ofs (List.replicate (size - w.ofs % size) 0xff)
          ofs := w.ofs + (size - w.ofs % size) }
      else w
    let w := { w with ofs := w.ofs % d.erasesize }
    if w.ofs = 0 then { w with disk := w.disk.put d (bytesAt w.buf 0 d.erasesize) } else w

def rbytes (w : Writer) : Nat := d.erasesize - w.ofs % d.erasesize

/-- `memcpy(buf + ofs, ptr, len); ofs += len` -/
def Writer.copy (data : List Byte) (w : Writer) : Writer :=
  { w with
    buf := store w.buf w.ofs data
    ofs := w.ofs + data.length }

/-- A new block starts with a cleanmarker, for which it always has room. -/
def prepEraseblock (w : Writer) : Writer := if w.ofs > 0 then w else w.copy (cleanmarker big)

def addData (data : List Byte) (w : Writer) : Writer :=
  if w.ofs + data.length > d.erasesize then (prepEraseblock big (pad d d.erasesize w)).copy data
  else w.copy data

/-- `add_dirent`, with the entry that it makes. -/
def addDirent (name : CString) (type : Byte) (parent : Word) (w : Writer) : Writer × RawDirent :=
  let w :=
    if toSize ((w.ofs : Int) - d.erasesize) < direntSize + name.strlen then pad d d.erasesize w else w
  let w := prepEraseblock big w
  let de : RawDirent := {
    pino := parent
    version := w.globals.lastVersion
    ino := w.globals.lastIno + 1
    type := type
    name := name.bytes }
  let w := { w with
    buf := store w.buf w.ofs (de.bytes big)
    ofs := w.ofs + (direntSize + name.strlen % 2 ^ 8)
    globals := { w.globals with
      lastIno := w.globals.lastIno + 2
      lastVersion := w.globals.lastVersion + 1 } }
  (pad d 4 w, de)

/-- `IFTODT(S_IFDIR)` and `IFTODT(S_IFREG)` -/
def dtDir : Byte := 4

def dtReg : Byte := 8

def addDir (name : CString) (parent : Word) (w : Writer) : Writer × RawDirent :=
  let (w, de) := addDirent big d name dtDir parent w
  let w := if rbytes d w < inodeSize then pad d d.erasesize w else w
  let w := prepEraseblock big w
  let ri : RawInode := {
    ino := de.ino
    version := 1
    mode := 0x41ED
    isize := 0
    atime := 0
    mtime := 0
    ctime := 0
    offset := 0
    data := [] }
  (pad d 4 (addData big d (ri.bytes big 0) w), de)

/-- `struct stat` -/
structure Stat where
  mode : Word
  size : Word
  atime : Word
  mtime : Word
  ctime : Word

/-- A file to append: what `stat` says of it, and what can be read from it. -/
structure File where
  path : CString
  stat : Option Stat
  content : Option (List Byte)

/-- The part of a path behind the last slash. -/
def File.fname (file : File) : CString where
  bytes := (file.path.bytes.reverse.takeWhile (· ≠ 0x2F)).reverse
  noNul h := file.path.noNul
    (List.mem_reverse.mp ((List.takeWhile_prefix _).subset (List.mem_reverse.mp h)))

/-- The inner loop of `add_file`: a block that is nearly full is written. With blocks of more than 208 bytes the
next one has room. -/
def makeRoom (w : Writer) : Writer :=
  if (rbytes d w : Int) - inodeSize > 128 then w else prepEraseblock big (pad d d.erasesize w)

/-- The length of the next piece of a file. -/
def pieceLen (w : Writer) : Nat := min (rbytes d w - inodeSize) 4096

/-- The inode node for a piece of a file. -/
def pieceInode (ino version : Word) (stat : Stat) (f_offset : Nat) (data : List Byte) : RawInode where
  ino := ino
  version := version
  mode := stat.mode
  isize := stat.size
  atime := stat.atime
  mtime := stat.mtime
  ctime := stat.ctime
  offset := BitVec.ofNat 32 f_offset
  data := data

/-- The part of the loop of `add_file` behind the `read`. -/
def addPiece (ino : Word) (stat : Stat) (f_offset : Nat) (data : List Byte) (w : Writer) : Writer :=
  let w := { w with globals := { w.globals with lastVersion := w.globals.lastVersion + 1 } }
  let ri := pieceInode ino w.globals.lastVersion stat f_offset data
  let w := addData big d (ri.bytes big (crc32 0 data)) w
  let w := addData big d data w
  prepEraseblock big (pad d 4 w)

/-- The loop of `add_file` over the pieces of the content; `rest` is what is still to be read. -/
def addPieces (ino : Word) (stat : Stat) (f_offset : Nat) (rest : List Byte) (w : Writer) : Writer :=
  let w := makeRoom big d w
  let data := rest.take (pieceLen d w)
  if _h : data = [] then w
  else
    addPieces ino stat (f_offset + data.length) (rest.drop data.length)
      (addPiece big d ino stat f_offset data w)
termination_by rest.length
decreasing_by
  have hpos : 0 < data.length := List.length_pos_of_ne_nil _h
  have hle : data.length ≤ rest.length := List.length_take_le' _ _
  change (rest.drop data.length).length < rest.length
  rw [List.length_drop]
  omega

/-- `add_file`, with the entry that it makes. -/
def addFile (file : File) (parent : Word) (w : Writer) : Writer × Option RawDirent :=
  match file.stat with
  | none => (w, none)
  | some stat =>
    let (w, de) := addDirent big d file.fname dtReg parent w
    match file.content with
    | none => (w, some de)
    | some content => (addPieces big d de.ino stat 0 content w, some de)

/-- Pad the block and write the end marker in a block of its own. -/
def finish (w : Writer) : Writer :=
  pad d d.erasesize (addData big d eofMarker (pad d d.erasesize w))

/-- `mtd_replace_jffs2`, from where the file descriptor is. -/
def mtdReplaceJffs2 (ofs : Nat) (file : File) (w : Writer) : Writer × Int :=
  let w := { w with
    globals := { w.globals with
      targetIno := 1
      lastIno := if w.globals.lastIno = 0 then 1 else w.globals.lastIno }
    disk := { w.disk with mtdofs := ofs } }
  let w := finish big d (addFile big d file 1 w).1
  (w, (w.disk.mtdofs : Int) - ofs)

/-! ### A partition that is there -/

/-- The loop that reads the blocks of the partition up to the end of the filesystem; `none` if there is none,
or the loop over the nodes of a block does not end. -/
def findEnd (dir : CString) (w : Writer) : List (List Byte) → Option Writer
  | [] => none
  | block :: flash =>
    let w := { w with
      buf := store w.buf 0 block
      disk := { w.disk with mtdofs := w.disk.mtdofs + d.erasesize, pos := w.disk.pos + d.erasesize } }
    let magic := half big (bytesAt w.buf 0 2)
    if magic = 0x8519 then none
    else if magic ≠ magicBitmask then some w
    else
      match mtdParseJffs2data big d.erasesize w.buf dir w.globals with
      | none => none
      | some globals => findEnd dir { w with globals := globals } flash

/-- `mtd_write_jffs2` once the end is found: the directory that it makes, if any, and the entry of the
file. -/
def appendAtEnd (dir : CString) (file : File) (w : Writer) :
    Writer × Option RawDirent × Option RawDirent :=
  let w := { w with
    ofs := 0
    globals := { w.globals with lastIno := if w.globals.lastIno = 0 then 1 else w.globals.lastIno }
    disk := { w.disk with
      mtdofs := w.disk.mtdofs - d.erasesize
      pos := d.lseek w.disk.pos (w.disk.mtdofs - d.erasesize) } }
  let (w, made) :=
    if w.globals.targetIno = 0 then
      let (w, de) := addDir big d dir 1 w
      ({ w with globals := { w.globals with targetIno := de.ino } }, some de)
    else (w, none)
  let (w, de) := addFile big d file w.globals.targetIno w
  (finish big d w, made, de)

/-- `mtd_write_jffs2`, where `flash` is the partition block by block. -/
def mtdWriteJffs2 (dir : CString) (file : File) (flash : List (List Byte)) (w : Writer) :
    Option (Writer × Option RawDirent × Option RawDirent) :=
  let w := if dir.bytes = [] then { w with globals := { w.globals with targetIno := 1 } } else w
  (findEnd big d dir w flash).map (appendAtEnd big d dir file)

end Buffer

end Immwrt.Mtd.Jffs2
