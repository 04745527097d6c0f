import Immwrt.Lib.Endian
import Immwrt.Lib.Loop

/-!
# The config partition of JBOOT

`jboot_config_read.c` looks for a STAG header in a partition, checks the CSXF header behind it and collects the data
headers that follow. Pointers are offsets in the buffer, modulo `2 ^ w` where they have `w` bits; half words and words
are read in the byte order of the processor. A run ends with the first access that is outside of the buffer or of the
table.
-/

namespace Immwrt.Jboot

/-- The place of an access that is not allowed. -/
inductive Fault where
  | buffer
  | table
  deriving DecidableEq

/-- Options of the program; the name behind `-e` is not looked at. -/
structure Options where
  startOffset : Word
  macPrint : Bool
  printData : Bool
  verbose : Bool
  ofname : Bool

/-! ### Access to the buffer -/

section Access

variable (big : Bool) (buf : List Byte) (ptr : Nat)

def readBytes (n : Nat) : Except Fault (List Byte) :=
  if ptr + n ≤ buf.length then .ok (slice buf ptr n) else .error .buffer

def half (bytes : List Byte) : HalfWord := if big then ofBe16 bytes else ofLe16 bytes

def word (bytes : List Byte) : Word := if big then ofBe bytes else ofLe bytes

def putHalf (x : HalfWord) : List Byte := if big then u16be x else u16le x

def readByte : Except Fault Byte := (readBytes buf ptr 1).map fun bytes => bytes.getD 0 0

def readHalf : Except Fault HalfWord := (readBytes buf ptr 2).map (half big)

def readWord : Except Fault Word := (readBytes buf ptr 4).map (word big)

def writeHalf (x : HalfWord) : Except Fault (List Byte) :=
  if ptr + 2 ≤ buf.length then .ok (splice buf ptr (putHalf big x)) else .error .buffer

end Access

/-! ### Checksums -/

/-- `while (counter >> 16) counter = (uint16_t) counter + (counter >> 16)`, for some turns. -/
def carry : Nat → Word → Word
  | 0, counter => counter
  | turns + 1, counter =>
    if counter >>> 16 = 0 then counter else carry turns ((counter &&& 0xFFFF#32) + counter >>> 16)

/-- The loop of `jboot_checksum` over some bytes, with the byte that is left. -/
def checksumLoop (big : Bool) : List Byte → Word → Word
  | [], counter => counter
  | [byte], counter => counter + byte.setWidth 32 - 0xFF
  | low :: high :: bytes, counter => checksumLoop big bytes (carry 2 (counter + (half big [low, high]).setWidth 32))

def jbootChecksum (big : Bool) (startVal : HalfWord) (bytes : List Byte) : HalfWord :=
  (carry 2 (checksumLoop big bytes (startVal.setWidth 32))).setWidth 16

/-! ### Headers -/

/-- `tmp_hdr` -/
def tmpHdr : List Byte := [0x02, 0x02, 0x24, 0x2B]

def stagSize : Nat := 16

def csxfSize : Nat := 16

def csxfMagic : HalfWord := 0x5343

def maxDataHeader : Nat := 128

def dataHeaderSize : Nat := 6

def dataHeaderUnknown : HalfWord := 0x8000

def dataHeaderEeprom : Byte := 0xF5

def dataHeaderConfig : Byte := 0x42

def dataHeaderIdCal : Byte := 0x0

/-- What `data_table` points to. -/
structure DataHeader where
  ptr : Nat
  id : Byte
  type : Byte
  length : HalfWord

section Search

variable (w : Nat) (big : Bool) (buf : List Byte)

/-- A STAG header with its checksum. -/
def stagAt (ptr : Nat) : Except Fault Bool := do
  let magic ← readBytes buf ptr 4
  if magic = tmpHdr then
    let tagChecksum ← readHalf big buf (ptr + 14)
    let bytes ← readBytes buf ptr (stagSize - 2)
    pure (tagChecksum == ~~~ jbootChecksum big 0 bytes)
  else pure false

/-- `(uint32_t) tmp_buf - (uint32_t) buf <= buf_size` -/
def Within (ptr : Nat) : Prop := ptr % 2 ^ 32 ≤ buf.length

instance (ptr : Nat) : Decidable (Within buf ptr) := inferInstanceAs (Decidable (_ ≤ _))

/-- A turn of the search for the STAG header; with the pointer behind the loop, whether there is one. -/
def stagTurn (ptr : Nat) : Except Fault (Nat × Bool) ⊕ Nat :=
  if Within buf ptr then
    match stagAt big buf ptr with
    | .error fault => .inl (.error fault)
    | .ok true => .inl (.ok (ptr, true))
    | .ok false => .inr ((ptr + 1) % 2 ^ w)
  else .inl (.ok (ptr, false))

/-- The checks of the CSXF header; the buffer behind them, if they do not fail. -/
def checkCsxf (csxf : Nat) : Except Fault (Option (List Byte)) := do
  let magic ← readHalf big buf csxf
  if magic ≠ csxfMagic then return none
  let checksum ← readHalf big buf (csxf + 2)
  let buf ← writeHalf big buf (csxf + 2) 0
  let rawLength ← readWord big buf (csxf + 12)
  -- the size is an `int`
  let bytes ← readBytes buf csxf (rawLength + BitVec.ofNat 32 csxfSize).toInt.toNat
  let calculated := ~~~ jbootChecksum big 0 bytes
  let buf ← writeHalf big buf (csxf + 2) calculated
  if checksum ≠ calculated then return none
  return some buf

/-- A turn of the search for data headers. -/
def dataTurn (s : Nat × List DataHeader) : Except Fault (List DataHeader) ⊕ (Nat × List DataHeader) :=
  let (ptr, table) := s
  if Within buf ptr then
    match readHalf big buf (ptr + 2) with
    | .error fault => .inl (.error fault)
    | .ok unknown =>
      if unknown ≠ dataHeaderUnknown then .inr ((ptr + 1) % 2 ^ w, table)
      else
        match readByte buf (ptr + 1) with
        | .error fault => .inl (.error fault)
        | .ok type =>
          if type ≠ dataHeaderEeprom ∧ type ≠ dataHeaderConfig then .inr ((ptr + 1) % 2 ^ w, table)
          else if table.length < maxDataHeader then
            match readByte buf ptr, readHalf big buf (ptr + 4) with
            | .ok id, .ok length =>
              .inr ((ptr + (dataHeaderSize + length.toNat)) % 2 ^ w, table ++ [{ ptr, id, type, length }])
            | .error fault, _ => .inl (.error fault)
            | _, .error fault => .inl (.error fault)
          else .inl (.error .table)
  else .inl (.ok table)

/-- What `find_header` returns, the entries that it stored, and which headers it found. -/
structure Found where
  ret : Nat
  table : List DataHeader
  stag : Bool
  csxf : Bool

/-- `find_header`, with fuel for each of its loops. It returns `EXIT_FAILURE` for a CSXF header that is not right. -/
def findHeader (fuel : Nat) (startOffset : Word) : Option (Except Fault Found) :=
  match Loop.run (stagTurn w big buf) fuel startOffset.toNat with
  | none => none
  | some (.error fault) => some (.error fault)
  | some (.ok (ptr, stag)) =>
    let csxf := (ptr + stagSize) % 2 ^ w
    match checkCsxf big buf csxf with
    | .error fault => some (.error fault)
    | .ok none => some (.ok { ret := 1, table := [], stag, csxf := false })
    | .ok (some buf) =>
      (Loop.run (dataTurn w big buf) fuel ((ptr + (stagSize + csxfSize)) % 2 ^ w, [])).map fun table =>
        table.map fun table => { ret := table.length, table, stag, csxf := true }

end Search

/-! ### The program -/

/-- `read_file`: the size of the file is a `uint32_t`. -/
def readFile (file : List Byte) : List Byte := file.take (file.length % 2 ^ 32)

/-- The entries that are looked at by `write_eeprom`. -/
def writeEeprom (table : List DataHeader) (cnt : Nat) : List Nat :=
  List.range (min cnt (table.findIdx (fun entry => entry.type == dataHeaderEeprom && entry.id == dataHeaderIdCal) + 1))

/-- The entries that are looked at by `main`. -/
def used (options : Options) (found : Found) : List Nat :=
  (if options.printData || options.verbose then List.range found.ret else []) ++
    (if options.macPrint then List.range found.ret else []) ++
      if options.ofname then writeEeprom found.table found.ret else []

/-- `main` behind the options: what was found and which entries were used, if `find_header` was called. -/
def main (w : Nat) (big : Bool) (fuel : Nat) (options : Options) (file : List Byte) :
    Option (Except Fault (Option (Found × List Nat))) :=
  let buf := readFile file
  if buf.length = 0 then some (.ok none)
  else
    (findHeader w big buf fuel options.startOffset).map fun found =>
      found.map fun found => some (found, used options found)

/-! ### What it is to do -/

/-- The payload lies in the buffer. -/
def DataHeader.Inside (size : Nat) (entry : DataHeader) : Prop :=
  entry.ptr + dataHeaderSize + entry.length.toNat ≤ size

/-- The program comes to its end without an access that is not allowed; it stores few entries, which lie in the buffer,
and it uses entries only if it found both headers. -/
def Sound (w : Nat) (big : Bool) (options : Options) (file : List Byte) : Prop :=
  ∃ fuel result, main w big fuel options file = some (.ok result) ∧
    ∀ found uses, result = some (found, uses) →
      found.table.length ≤ maxDataHeader ∧ (∀ entry ∈ found.table, entry.Inside (readFile file).length) ∧
        (uses ≠ [] → found.stag = true ∧ found.csxf = true)

/-- No option has the program look at the table. -/
def Options.Quiet (options : Options) : Prop :=
  options.printData = false ∧ options.verbose = false ∧ options.macPrint = false ∧ options.ofname = false

/-- A STAG header with a valid checksum lies at an offset. -/
def IsStag (big : Bool) (buf : List Byte) (ptr : Nat) : Prop :=
  ptr + stagSize ≤ buf.length ∧ slice buf ptr 4 = tmpHdr ∧
    half big (slice buf (ptr + 14) 2) = ~~~ jbootChecksum big 0 (slice buf ptr 14)

/-- Where the CSXF header is looked for: behind the first STAG header, or, if the search starts behind the buffer,
where it started. -/
def CsxfAt (w : Nat) (big : Bool) (buf : List Byte) (startOffset csxf : Nat) : Prop :=
  (∃ ptr, startOffset ≤ ptr ∧ IsStag big buf ptr ∧ (∀ before, startOffset ≤ before → before < ptr → ¬ IsStag big buf before) ∧
      csxf = ptr + stagSize) ∨
    buf.length < startOffset ∧ csxf = (startOffset + stagSize) % 2 ^ w

/-- The bytes that the checksum of a CSXF header is over: its own field is zero. -/
def csxfBytes (big : Bool) (buf : List Byte) (csxf : Nat) : List Byte := splice buf (csxf + 2) (putHalf big 0)

/-- How many bytes the checksum of a CSXF header is over. -/
def csxfLength (big : Bool) (buf : List Byte) (csxf : Nat) : Nat :=
  (word big (slice (csxfBytes big buf csxf) (csxf + 12) 4) + BitVec.ofNat 32 csxfSize).toInt.toNat

/-- A CSXF header that is not right, for its magic, or for its checksum over bytes that lie in the buffer. -/
def Refused (big : Bool) (buf : List Byte) (csxf : Nat) : Prop :=
  csxf + 2 ≤ buf.length ∧ half big (slice buf csxf 2) ≠ csxfMagic ∨
    csxf + csxfSize ≤ buf.length ∧ half big (slice buf csxf 2) = csxfMagic ∧
      csxf + csxfLength big buf csxf ≤ buf.length ∧
        half big (slice buf (csxf + 2) 2) ≠
          ~~~ jbootChecksum big 0 (slice (csxfBytes big buf csxf) csxf (csxfLength big buf csxf))

end Immwrt.Jboot
