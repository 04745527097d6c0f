import Immwrt.Lib.Bits
import Immwrt.Lib.Endian
import Immwrt.Lib.Partial
import Immwrt.Lib.Text
import Immwrt.Lib.Traced

/-!
# Reading a jffs2 erase block

Before `mtd` appends a file to a jffs2 partition it looks through the blocks that are there: for the
directory that the file goes to, and for the highest inode number and version. A block is a chain of nodes,
each of which says how long it is. What lies behind the block in memory is arbitrary.
-/

namespace Immwrt.Mtd.Jffs2

open Traced

/-- `n` bytes of memory from `off` on. -/
structure Read where
  off : Nat
  n : Nat
  deriving DecidableEq

/-- `JFFS2_MAGIC_BITMASK` -/
def magicBitmask : HalfWord := 0x1985

/-- `JFFS2_NODETYPE_DIRENT` and `JFFS2_NODETYPE_INODE` -/
def nodetypeDirent : HalfWord := 0xE001

def nodetypeInode : HalfWord := 0xE002

/-- `PAD` -/
def pad4 (x : Word) : Word := (x + 3) &&& ~~~3

/-- The variables that the reading and the writing of a partition share. -/
structure Globals where
  lastIno : Word
  lastVersion : Word
  targetIno : Word
  deriving DecidableEq

def Globals.initial : Globals := ⟨0, 0, 0⟩

section Parse

variable (big : Bool) (erasesize : Nat) (mem : Octets) (dir : CString)

/-! ### Fields -/

def half (bytes : List Byte) : HalfWord := if big then ofBe16 bytes else ofLe16 bytes

def word (bytes : List Byte) : Word := if big then ofBe bytes else ofLe bytes

def loadHalf (off : Nat) : Traced Read HalfWord := do
  emit ⟨off, 2⟩
  pure (half big (bytesAt mem off 2))

def loadWord (off : Nat) : Traced Read Word := do
  emit ⟨off, 4⟩
  pure (word big (bytesAt mem off 4))

def loadByte (off : Nat) : Traced Read Byte := do
  emit ⟨off, 1⟩
  pure (mem off)

/-- `!strncmp`, of a name in memory and a string. -/
def strncmp (off : Nat) : List Byte → Nat → Traced Read Bool
  | _, 0 => pure true
  | [], _ + 1 => do
    let c ← loadByte mem off
    pure (c = 0)
  | x :: s, n + 1 => do
    let c ← loadByte mem off
    if c = x then strncmp (off + 1) s n else pure false

/-! ### The nodes of a block -/

/-- Is this the right directory name and is it a subdirectory of `/`? -/
def matchDir (off : Nat) (globals : Globals) : Traced Read Globals :=
  if dir.bytes ≠ [] then do
    let pino ← loadWord big mem (off + 12)
    if pino = 1 then
      let nsize ← loadByte mem (off + 28)
      let same ← strncmp mem (off + 40) dir.bytes nsize.toNat
      if same then
        let ino ← loadWord big mem (off + 20)
        pure { globals with targetIno := ino }
      else pure globals
    else pure globals
  else pure globals

/-- The part of the loop for a directory entry. -/
def parseDirent (off : Nat) (globals : Globals) : Traced Read Globals := do
  let globals ← matchDir big mem dir off globals
  let ino ← loadWord big mem (off + 20)
  let version ← loadWord big mem (off + 16)
  pure { globals with
    lastIno := if globals.lastIno < ino then ino else globals.lastIno
    lastVersion := if globals.lastVersion < version then version else globals.lastVersion }

/-- Where the loop stands. -/
structure Scan where
  ofs : Word
  globals : Globals
  deriving DecidableEq

/-- A turn of the loop of `mtd_parse_jffs2data`; `none` is its end. -/
def parseTurn (s : Scan) : Traced Read (Option Scan) :=
  if s.ofs.toNat < erasesize then do
    let magic ← loadHalf big mem s.ofs.toNat
    if magic = magicBitmask then
      let totlen ← loadWord big mem (s.ofs.toNat + 4)
      let nodetype ← loadHalf big mem (s.ofs.toNat + 2)
      let globals ←
        if nodetype = nodetypeDirent then parseDirent big mem dir s.ofs.toNat s.globals
        else pure s.globals
      pure (some ⟨s.ofs + pad4 totlen, globals⟩)
    else pure none
  else pure none

/-- Where a turn leads. -/
def parseStep (s : Scan) : Option Scan := (parseTurn big erasesize mem dir s).val

/-- Where the loop stands after `n` turns. -/
def parseTurns (n : Nat) (globals : Globals) : Option Scan :=
  Partial.iterate (parseStep big erasesize mem dir) n ⟨0, globals⟩

/-- The loop for as many turns as there are; `none` is a turn too many. -/
def parseLoop : Nat → Scan → Option Globals
  | 0, _ => none
  | n + 1, s =>
    match parseStep big erasesize mem dir s with
    | none => some s.globals
    | some s => parseLoop n s

/-- `mtd_parse_jffs2data`; `none` if it does not end, which is when it takes more turns than a block has
bytes. -/
def mtdParseJffs2data (globals : Globals) : Option Globals :=
  parseLoop big erasesize mem dir (erasesize + 1) ⟨0, globals⟩

end Parse

end Immwrt.Mtd.Jffs2
