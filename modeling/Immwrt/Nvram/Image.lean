import Immwrt.Nvram.Store

/-!
# The NVRAM image

`nvram_commit` writes the variable table into the mapped partition, behind a header of five words that
carries a length and a checksum; `nvram_open` finds the header again and fills a table from what follows
it. Words are little-endian, as the checksum of the header takes them.
-/

namespace Immwrt.Nvram

/-- The character `'='`. -/
def eqChar : Byte := 0x3D

/-- `sprintf` of a number as `0x` and `width` capital hexadecimal digits. -/
def sprintfHex (width n : Nat) : CString := .ofBytes (ofChars "0x" ++ printfHex true width n)

/-! ### CRC8 -/

def crc8Table : List Byte := [
  0x00, 0xF7, 0xB9, 0x4E, 0x25, 0xD2, 0x9C, 0x6B, 0x4A, 0xBD, 0xF3, 0x04, 0x6F, 0x98, 0xD6, 0x21,
  0x94, 0x63, 0x2D, 0xDA, 0xB1, 0x46, 0x08, 0xFF, 0xDE, 0x29, 0x67, 0x90, 0xFB, 0x0C, 0x42, 0xB5,
  0x7F, 0x88, 0xC6, 0x31, 0x5A, 0xAD, 0xE3, 0x14, 0x35, 0xC2, 0x8C, 0x7B, 0x10, 0xE7, 0xA9, 0x5E,
  0xEB, 0x1C, 0x52, 0xA5, 0xCE, 0x39, 0x77, 0x80, 0xA1, 0x56, 0x18, 0xEF, 0x84, 0x73, 0x3D, 0xCA,
  0xFE, 0x09, 0x47, 0xB0, 0xDB, 0x2C, 0x62, 0x95, 0xB4, 0x43, 0x0D, 0xFA, 0x91, 0x66, 0x28, 0xDF,
  0x6A, 0x9D, 0xD3, 0x24, 0x4F, 0xB8, 0xF6, 0x01, 0x20, 0xD7, 0x99, 0x6E, 0x05, 0xF2, 0xBC, 0x4B,
  0x81, 0x76, 0x38, 0xCF, 0xA4, 0x53, 0x1D, 0xEA, 0xCB, 0x3C, 0x72, 0x85, 0xEE, 0x19, 0x57, 0xA0,
  0x15, 0xE2, 0xAC, 0x5B, 0x30, 0xC7, 0x89, 0x7E, 0x5F, 0xA8, 0xE6, 0x11, 0x7A, 0x8D, 0xC3, 0x34,
  0xAB, 0x5C, 0x12, 0xE5, 0x8E, 0x79, 0x37, 0xC0, 0xE1, 0x16, 0x58, 0xAF, 0xC4, 0x33, 0x7D, 0x8A,
  0x3F, 0xC8, 0x86, 0x71, 0x1A, 0xED, 0xA3, 0x54, 0x75, 0x82, 0xCC, 0x3B, 0x50, 0xA7, 0xE9, 0x1E,
  0xD4, 0x23, 0x6D, 0x9A, 0xF1, 0x06, 0x48, 0xBF, 0x9E, 0x69, 0x27, 0xD0, 0xBB, 0x4C, 0x02, 0xF5,
  0x40, 0xB7, 0xF9, 0x0E, 0x65, 0x92, 0xDC, 0x2B, 0x0A, 0xFD, 0xB3, 0x44, 0x2F, 0xD8, 0x96, 0x61,
  0x55, 0xA2, 0xEC, 0x1B, 0x70, 0x87, 0xC9, 0x3E, 0x1F, 0xE8, 0xA6, 0x51, 0x3A, 0xCD, 0x83, 0x74,
  0xC1, 0x36, 0x78, 0x8F, 0xE4, 0x13, 0x5D, 0xAA, 0x8B, 0x7C, 0x32, 0xC5, 0xAE, 0x59, 0x17, 0xE0,
  0x2A, 0xDD, 0x93, 0x64, 0x0F, 0xF8, 0xB6, 0x41, 0x60, 0x97, 0xD9, 0x2E, 0x45, 0xB2, 0xFC, 0x0B,
  0xBE, 0x49, 0x07, 0xF0, 0x9B, 0x6C, 0x22, 0xD5, 0xF4, 0x03, 0x4D, 0xBA, 0xD1, 0x26, 0x68, 0x9F]

def hndcrc8 (pdata : List Byte) (crc : Byte) : Byte :=
  pdata.foldl (fun crc byte => crc8Table.getD (crc ^^^ byte).toNat 0) crc

/-! ### Header -/

def nvramMagic : Word := 0x48534C46

def nvramVersion : Word := 1

def nvramMinSpace : Nat := 0x8000

def nvramCrcStartPosition : Nat := 9

def sdramInit : Word := 0x419

def sdramConfig : Word := 0

def sdramRefresh : Word := (0x40 &&& 0xff) ||| 0x8000

structure Header where
  magic : Word
  len : Word
  crcVerInit : Word
  configRefresh : Word
  configNcdl : Word

def headerSize : Nat := 20

def Header.bytes (hdr : Header) : List Byte :=
  u32le hdr.magic ++ u32le hdr.len ++ u32le hdr.crcVerInit ++ u32le hdr.configRefresh ++
    u32le hdr.configNcdl

def Header.ofBytes (bytes : List Byte) : Header :=
  { magic := getU32 bytes 0, len := getU32 bytes 4, crcVerInit := getU32 bytes 8
    configRefresh := getU32 bytes 12, configNcdl := getU32 bytes 16 }

namespace Handle

def nvramHeader (h : Handle) : Header := .ofBytes (slice h.mmap h.offset.toNat headerSize)

def putHeader (h : Handle) (hdr : Header) : Handle :=
  { h with mmap := splice h.mmap h.offset.toNat hdr.bytes }

/-! ### Reading the image -/

/-- The loop over the lines `name=value` of the image. -/
def rehashLines (tgt : Target) : Nat → List Byte → Handle → Handle
  | 0, _, h => h
  | fuel + 1, bytes, h =>
    let line := (CString.ofBytes bytes).bytes
    if line = [] ∨ eqChar ∉ line then h
    else
      let name := CString.ofBytes (line.takeWhile (· ≠ eqChar))
      let value := CString.ofBytes ((line.dropWhile (· ≠ eqChar)).drop 1)
      rehashLines tgt fuel (bytes.drop (line.length + 1)) (h.nvramSet tgt name value).1

/-- Give a variable that the image lacks its value from the header. -/
def setDefault (tgt : Target) (name value : CString) (h : Handle) : Handle :=
  if (h.nvramGet tgt name).isNone then (h.nvramSet tgt name value).1 else h

def nvramRehash (tgt : Target) (h : Handle) : Handle :=
  let header := h.nvramHeader
  let h := h.nvramFree
  let h := rehashLines tgt h.mmap.length (h.mmap.drop (h.offset.toNat + headerSize)) h
  let h := h.setDefault tgt (.lit "sdram_init") (sprintfHex 4 (header.crcVerInit >>> 16).toNat)
  let h := h.setDefault tgt (.lit "sdram_config")
    (sprintfHex 4 (header.configRefresh &&& 0xffff).toNat)
  let h := h.setDefault tgt (.lit "sdram_refresh")
    (sprintfHex 4 (header.configRefresh >>> 16 &&& 0xffff).toNat)
  h.setDefault tgt (.lit "sdram_ncdl") (sprintfHex 8 header.configNcdl.toNat)

/-! ### Writing the image -/

/-- The header that `nvram_commit` starts from; its length is still the old one. -/
def commitHeader (tgt : Target) (h : Handle) : Header :=
  let crcVerInit := nvramVersion <<< 8
  let word (s : CString) : Word := BitVec.ofNat 32 (strtoul tgt.longBits 0 s.bytes)
  match h.nvramGet tgt (.lit "sdram_init"), h.nvramGet tgt (.lit "sdram_config"),
    h.nvramGet tgt (.lit "sdram_refresh"), h.nvramGet tgt (.lit "sdram_ncdl") with
  | some init, some config, some refresh, some ncdl =>
    { h.nvramHeader with
      magic := nvramMagic
      crcVerInit := crcVerInit ||| (word init &&& 0xffff) <<< 16
      configRefresh := (word config &&& 0xffff) ||| (word refresh &&& 0xffff) <<< 16
      configNcdl := word ncdl }
  | _, _, _, _ =>
    { h.nvramHeader with
      magic := nvramMagic
      crcVerInit := crcVerInit ||| sdramInit <<< 16
      configRefresh := sdramConfig ||| sdramRefresh <<< 16
      configNcdl := 0 }

def encodeTuple (tuple : CString × CString) : List Byte :=
  tuple.1.bytes ++ eqChar :: tuple.2.bytes ++ [0]

/-- The tuples of one bucket, written at `ptr`; the first one that would pass `stop` ends the bucket. -/
def writeBucket (stop : Nat) : List (CString × CString) → List Byte × Nat → List Byte × Nat
  | [], state => state
  | tuple :: tuples, (mem, ptr) =>
    if ptr + tuple.1.strlen + 1 + tuple.2.strlen + 1 > stop then (mem, ptr)
    else
      writeBucket stop tuples
        (splice mem ptr (encodeTuple tuple), ptr + (encodeTuple tuple).length)

/-- `(int)ptr % 4` for the byte at `ptr` of a partition mapped at `addr`. -/
def ptrMod4 (addr ptr : Nat) : Int := (BitVec.ofNat 32 (addr + ptr)).toInt.tmod 4

/-- The zeroes that pad the text to whole words. -/
def padding (addr ptr : Nat) : List Byte :=
  if ptrMod4 addr ptr = 0 then [] else List.replicate (4 - ptrMod4 addr ptr).toNat 0

def nvramRoundup (x y : Nat) : Nat := (x + (y - 1)) / y * y

/-- `none` when the padding is written past the end of the partition. -/
def nvramCommit (tgt : Target) (addr : Nat) (h : Handle) : Option Handle :=
  let offset := h.offset.toNat
  let hdr := h.commitHeader tgt
  let mem := (h.putHeader hdr).mmap
  let area := h.length.toNat - offset - headerSize
  let mem := splice mem (offset + headerSize) (List.replicate area 0xFF)
  let stop := h.length.toNat - 2
  let (mem, ptr) := (List.finRange nvramArraysize).foldl
    (fun state i => writeBucket stop (h.bucketTuples i) state) (mem, offset + headerSize)
  let mem := splice mem ptr [0]
  let pad := padding addr (ptr + 1)
  if ptr + 1 + pad.length > mem.length then none
  else
    let mem := splice mem (ptr + 1) pad
    let hdr := { hdr with len := BitVec.ofNat 32 (nvramRoundup (ptr + 2 - offset) 4) }
    let tmp : Header := { hdr with magic := 0, len := 0 }
    let crc := hndcrc8 (tmp.bytes.drop nvramCrcStartPosition) 0xff
    let crc := hndcrc8 (slice mem (offset + headerSize) (hdr.len.toNat - headerSize)) crc
    let hdr := { hdr with crcVerInit := hdr.crcVerInit ||| crc.zeroExtend 32 }
    some (nvramRehash tgt (Handle.putHeader { h with mmap := mem } hdr))

/-- The checksum as the `info` command computes it. -/
def infoCrc (h : Handle) : Byte :=
  hndcrc8 (slice h.mmap (h.offset.toNat + nvramCrcStartPosition)
    (h.nvramHeader.len.toNat - nvramCrcStartPosition)) 0xff

/-- The checksum that the header carries. -/
def storedCrc (h : Handle) : Byte := (h.nvramHeader.crcVerInit &&& 0xFF).setWidth 8

end Handle

/-- The offset of the first word of the partition that is the magic number; partitions have at least
`nvramMinSpace` bytes. -/
def findMagic (mem : List Byte) : Option Nat :=
  ((List.range ((mem.length - nvramMinSpace) / 4 + 1)).find?
    fun i => getU32 mem (4 * i) = nvramMagic).map (4 * ·)

/-- The handle of a mapped partition before its table is filled. -/
def freshHandle (mem : List Byte) (offset : Nat) : Handle :=
  { mmap := mem, length := BitVec.ofNat 32 mem.length, offset := BitVec.ofNat 32 offset
    nvramHash := fun _ => none, nvramDead := none
    heap := fun _ => ⟨.ofBytes [], .ofBytes [], none⟩, brk := 0 }

def nvramOpen (tgt : Target) (mem : List Byte) (rdonly : Bool) : Option Handle :=
  -- the offset is kept in an `int`
  ((findMagic mem).filter (· < 0x80000000)).bind fun offset =>
    let h := freshHandle mem offset
    let header := h.nvramHeader
    if header.magic = nvramMagic ∧ (rdonly ∨ header.len < h.length - h.offset) then
      some (h.nvramRehash tgt)
    else none

end Immwrt.Nvram
