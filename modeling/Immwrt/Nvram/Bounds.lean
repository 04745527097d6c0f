import Immwrt.Nvram.Image

/-!
# Where the library reads and writes

`nvram_open` follows the strings of a mapped partition, which may hold anything, and writes a terminator behind each name
for a moment. Here a run ends at the first byte outside of the mapping. What `nvram_commit` writes is given as ranges.
-/

namespace Immwrt.Nvram

open Handle

/-! ### Strings in the mapping -/

/-- `strlen` of what is left of the mapping. -/
def strlenIn : List Byte → Option Nat
  | [] => none
  | c :: bytes => if c = 0 then some 0 else (strlenIn bytes).map (· + 1)

/-- `strchr(name, '=')` in what is left of the mapping. -/
def strchrIn : List Byte → Option (Option Nat)
  | [] => none
  | c :: bytes =>
    if c = eqChar then some (some 0)
    else if c = 0 then some none
    else (strchrIn bytes).map (Option.map (· + 1))

namespace Handle

/-- The loop over the lines `name=value`. -/
def rehashLinesIn (tgt : Target) : List Byte → Handle → Option Handle
  | [], _ => none
  | c :: bytes, h =>
    if c = 0 then some h
    else
      match strchrIn (c :: bytes) with
      | none => none
      | some none => some h
      | some (some eq) =>
        match strlenIn ((c :: bytes).drop (eq + 1)) with
        | none => none
        | some len =>
          let name := CString.ofBytes ((c :: bytes).take eq)
          let value := CString.ofBytes (slice (c :: bytes) (eq + 1) len)
          rehashLinesIn tgt ((c :: bytes).drop (eq + 1 + len + 1)) (h.nvramSet tgt name value).1
termination_by bytes => bytes.length
decreasing_by
  rw [List.length_drop, List.length_cons]
  omega

/-- The values that the header gives to the variables of the memory. -/
def sdramDefaults (header : Header) : List (CString × CString) := [
  (.lit "sdram_init", sprintfHex 4 (header.crcVerInit >>> 16).toNat),
  (.lit "sdram_config", sprintfHex 4 (header.configRefresh &&& 0xffff).toNat),
  (.lit "sdram_refresh", sprintfHex 4 (header.configRefresh >>> 16 &&& 0xffff).toNat),
  (.lit "sdram_ncdl", sprintfHex 8 header.configNcdl.toNat)]

/-- Give the variables that the image lacks their values from the header. -/
def setDefaults (tgt : Target) (header : Header) (h : Handle) : Handle :=
  (sdramDefaults header).foldl (fun h default => h.setDefault tgt default.1 default.2) h

/-- `_nvram_rehash`. The header is read once a byte behind it was. -/
def nvramRehashIn (tgt : Target) (h : Handle) : Option Handle :=
  (rehashLinesIn tgt (h.mmap.drop (h.offset.toNat + headerSize)) h.nvramFree).map (setDefaults tgt h.nvramHeader)

end Handle

/-! ### Opening -/

/-- `(nvram_part_size - NVRAM_MIN_SPACE) / sizeof(uint32_t)`, for a `size_t`. -/
def searchBound (tgt : Target) (size : Nat) : Nat :=
  (2 ^ tgt.longBits + size - nvramMinSpace) % 2 ^ tgt.longBits / 4

/-- The loop over some words of the partition, from one on. -/
def searchIn (mem : List Byte) : Nat → Nat → Option (Option Nat)
  | 0, _ => some none
  | n + 1, i =>
    if 4 * i + 4 ≤ mem.length then
      if getU32 mem (4 * i) = nvramMagic then some (some (4 * i)) else searchIn mem n (i + 1)
    else none

/-- `nvram_open` of a mapped partition. -/
def nvramOpenIn (tgt : Target) (mem : List Byte) (rdonly : Bool) : Option (Option Handle) :=
  match searchIn mem (searchBound tgt mem.length + 1) 0 with
  | none => none
  | some none => some none
  | some (some offset) =>
    -- the offset is kept in an `int`
    if 0x80000000 ≤ offset then some none
    else
      let h := freshHandle mem offset
      if rdonly then (h.nvramRehashIn tgt).map some
      else if mem.length < offset + 8 then none
      else if h.nvramHeader.len < h.length - h.offset then (h.nvramRehashIn tgt).map some
      else some none

/-- The first magic number of a partition, as far as it is looked for. -/
structure FirstMagic (tgt : Target) (mem : List Byte) (offset : Nat) : Prop where
  words : offset % 4 = 0
  inside : offset + 4 ≤ mem.length
  bound : offset / 4 ≤ searchBound tgt mem.length
  magic : getU32 mem offset = nvramMagic
  first : ∀ i, 4 * i < offset → getU32 mem (4 * i) ≠ nvramMagic

/-- Some line of a text that ends in it, with a zero, has no `=`: the empty line behind the last variable, for example. -/
def HasEnd (text : List Byte) : Prop := ∃ line ∈ (text.splitOn 0).dropLast, eqChar ∉ line

/-- What a partition needs to be opened. -/
structure Openable (tgt : Target) (mem : List Byte) (rdonly : Bool) : Prop where
  search : nvramMinSpace ≤ mem.length ∨ ∃ offset, FirstMagic tgt mem offset
  header : ∀ offset, FirstMagic tgt mem offset → offset < 0x80000000 → rdonly = false → offset + 8 ≤ mem.length
  text : ∀ offset, FirstMagic tgt mem offset → offset < 0x80000000 →
    (rdonly = true ∨ getU32 mem (offset + 4) < BitVec.ofNat 32 (mem.length - offset)) →
      HasEnd (mem.drop (offset + headerSize))

/-! ### Committing -/

/-- The tuples of a bucket that are written from a place on. -/
def fitting (stop : Nat) : List (CString × CString) → Nat → List (CString × CString)
  | [], _ => []
  | tuple :: tuples, ptr =>
    if ptr + tuple.1.strlen + 1 + tuple.2.strlen + 1 > stop then []
    else tuple :: fitting stop tuples (ptr + (encodeTuple tuple).length)

/-- The tuples of some buckets that are written. -/
def fittingAll (stop : Nat) : List (List (CString × CString)) → Nat → List (CString × CString)
  | [], _ => []
  | tuples :: buckets, ptr =>
    let written := fitting stop tuples ptr
    written ++ fittingAll stop buckets (ptr + (written.flatMap encodeTuple).length)

namespace Handle

/-- The tuples that fit, each bucket up to the first one that does not. -/
def writtenTuples (h : Handle) : List (CString × CString) :=
  fittingAll (h.length.toNat - 2) ((List.finRange nvramArraysize).map h.bucketTuples) (h.offset.toNat + headerSize)

def writtenText (h : Handle) : List Byte := h.writtenTuples.flatMap encodeTuple

/-- Where the text ends. -/
def writtenEnd (h : Handle) : Nat := h.offset.toNat + headerSize + h.writtenText.length

/-- The length that the header gets. -/
def writtenLen (h : Handle) : Word := BitVec.ofNat 32 (nvramRoundup (headerSize + h.writtenText.length + 2) 4)

end Handle

/-- The ranges that the tuples of a bucket are written to. -/
def writeRanges (stop : Nat) : List (CString × CString) → List (Nat × Nat) × Nat → List (Nat × Nat) × Nat
  | [], state => state
  | tuple :: tuples, (ranges, ptr) =>
    if ptr + tuple.1.strlen + 1 + tuple.2.strlen + 1 > stop then (ranges, ptr)
    else writeRanges stop tuples (ranges ++ [(ptr, (encodeTuple tuple).length)], ptr + (encodeTuple tuple).length)

namespace Handle

/-- What `nvram_commit` writes to the partition before it fills the table again: offsets and lengths. -/
def commitRanges (addr : Nat) (h : Handle) : List (Nat × Nat) :=
  let offset := h.offset.toNat
  let start := offset + headerSize
  let (ranges, ptr) := (List.finRange nvramArraysize).foldl
    (fun state i => writeRanges (h.length.toNat - 2) (h.bucketTuples i) state) ([], start)
  [(offset, 4), (offset + 8, 4), (offset + 12, 4), (offset + 16, 4), (start, (h.length - h.offset - 20).toNat)] ++
    ranges ++ [(ptr, 1), (ptr + 1, (padding addr (ptr + 1)).length), (offset + 4, 4), (offset + 8, 4)]

end Handle

/-- `nvram_commit` stays in the partition: what it writes itself, the length that it stores, and what `_nvram_rehash` does
behind it. -/
structure CommitInside (tgt : Target) (addr : Nat) (h : Handle) : Prop where
  ranges : ∀ range ∈ h.commitRanges addr, range.1 + range.2 ≤ h.length.toNat
  len : ∀ h', h.nvramCommit tgt addr = some h' → h'.nvramHeader.len.toNat ≤ h.length.toNat - h.offset.toNat
  rehash : ∀ h', h.nvramCommit tgt addr = some h' → (h'.nvramRehashIn tgt).isSome = true

end Immwrt.Nvram
