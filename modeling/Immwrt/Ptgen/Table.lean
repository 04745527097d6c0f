import Immwrt.Lib.Bytes
import Mathlib.Data.List.ReduceOption

/-!
# Partition tables

`ptgen` places partitions one behind the other on a disk, each a track behind the end of the one before it or
where it is told to, and writes them into a table of the BIOS or a GPT. A GPT also has an entry for the boot
loader, in the gap before the first partition. Positions are sectors of 512 bytes; `long` has 64 bits.
-/

namespace Immwrt.Ptgen

/-- The options; `kbAlign` is the alignment in sectors. -/
structure Config where
  heads : Nat
  sectors : Nat
  kbAlign : Int
  ignoreNull : Bool
  active : Nat
  heads_pos : 0 < heads
  heads_lt : heads < 2 ^ 31
  sectors_pos : 0 < sectors
  sectors_lt : sectors < 2 ^ 31
  kbAlign_ge : -2 ^ 31 ≤ kbAlign
  kbAlign_lt : kbAlign < 2 ^ 31

/-- `struct partinfo`: a size and perhaps a start, in units of 1024 bytes. -/
structure PartInfo where
  start : BitVec 64
  size : BitVec 64
  type : Byte
  deriving DecidableEq

def mbrEntryMax : Nat := 4

def gptEntryMax : Nat := 128

/-! ### Rounding -/

/-- `heads * sectors`, an `int`. -/
def Config.cylSize (cfg : Config) : Int := (BitVec.ofNat 32 (cfg.heads * cfg.sectors)).toInt

/-- `round_to_cyl` -/
def roundToCyl (cfg : Config) (sect : Int) : Int := sect + cfg.cylSize - sect.tmod cfg.cylSize

/-- `round_to_kb` -/
def roundToKb (cfg : Config) (sect : Int) : Int := ((sect - 1).tdiv cfg.kbAlign + 1) * cfg.kbAlign

/-- `to_chs` -/
def toChs (cfg : Config) (sect : BitVec 64) : List Byte :=
  let s := sect.toInt.tmod cfg.sectors + 1
  let track := sect.toInt.tdiv cfg.sectors
  let c := BitVec.ofInt 32 (track.tdiv cfg.heads)
  [BitVec.ofInt 8 (track.tmod cfg.heads), BitVec.ofInt 8 s ||| (c.sshiftRight 2 &&& 0xC0).setWidth 8,
    c.setWidth 8]

/-! ### Placing the partitions -/

/-- What one turn of the loop over `parts` finds: the partition `index` starts at `start`, and `sect` is where
it ends. -/
structure Place where
  index : Nat
  part : PartInfo
  start : BitVec 64
  sect : BitVec 64
  deriving DecidableEq

/-- Where the next partition starts; `none` when it is told to start too early. -/
def placeStart (cfg : Config) (part : PartInfo) (sect : BitVec 64) : Option (BitVec 64) :=
  let start := sect + BitVec.ofNat 64 cfg.sectors
  if part.start ≠ 0 then
    if part.start * 2 < start then none else some (part.start * 2)
  else if cfg.kbAlign ≠ 0 then some (BitVec.ofInt 64 (roundToKb cfg start.toInt))
  else some start

/-- Where it ends; `none` when the size of a cylinder is 0. -/
def placeEnd (cfg : Config) (part : PartInfo) (start : BitVec 64) : Option (BitVec 64) :=
  let sect := start + part.size * 2
  if cfg.kbAlign = 0 then
    if cfg.cylSize = 0 then none else some (BitVec.ofInt 64 (roundToCyl cfg sect.toInt))
  else some sect

/-- The loop that `gen_ptable` and `gen_gptable` both have: what is in each slot, and the last `sect`. -/
def placeLoop (cfg : Config) : Nat → List PartInfo → BitVec 64 → Option (List (Option Place) × BitVec 64)
  | _, [], sect => some ([], sect)
  | i, part :: parts, sect =>
    if part.size = 0 then
      if cfg.ignoreNull then
        (placeLoop cfg (i + 1) parts sect).map fun (slots, last) => (none :: slots, last)
      else none
    else
      (placeStart cfg part sect).bind fun start =>
      (placeEnd cfg part start).bind fun next =>
      (placeLoop cfg (i + 1) parts next).map fun (slots, last) =>
        (some { index := i, part, start, sect := next } :: slots, last)

/-! ### The table of the BIOS -/

/-- `struct pte` -/
structure Pte where
  active : Byte
  chsStart : List Byte
  type : Byte
  chsEnd : List Byte
  start : Word
  length : Word

def pteOf (cfg : Config) (place : Place) : Pte where
  active := if place.index + 1 = cfg.active then 0x80 else 0
  chsStart := toChs cfg place.start
  type := place.part.type
  chsEnd := toChs cfg (place.start + (place.sect - place.start) - 1)
  start := place.start.setWidth 32
  length := (place.sect - place.start).setWidth 32

/-- `(long)x * DISK_SECTOR_SIZE`; `none` when it overflows. -/
def bytesLong (x : BitVec 64) : Option Int :=
  if -2 ^ 63 ≤ x.toInt * 512 ∧ x.toInt * 512 < 2 ^ 63 then some (x.toInt * 512) else none

/-- The entries, and the offsets and lengths that are printed. -/
structure Ptable where
  entries : List (Option Pte)
  printed : List (Option Int × Option Int)

/-- `gen_ptable`, up to writing the table to the file; `none` when it does not get there. -/
def genPtable (cfg : Config) (parts : List PartInfo) : Option Ptable :=
  (placeLoop cfg 0 parts 0).map fun (slots, _) =>
    { entries := slots.map (Option.map (pteOf cfg)) ++ List.replicate (mbrEntryMax - slots.length) none
      printed := slots.reduceOption.map fun place =>
        (bytesLong place.start, bytesLong (place.sect - place.start)) }

/-! ### The GPT -/

inductive GptType where
  | basicData
  | system
  | biosBoot
  deriving DecidableEq

/-- `struct gpte`; `last` is its `end`. -/
structure Gpte where
  type : GptType
  start : BitVec 64
  last : BitVec 64
  deriving DecidableEq

def gpteOf (cfg : Config) (place : Place) : Gpte where
  type := if place.part.type = 0xEF ∨ place.index + 1 = cfg.active then .system else .basicData
  start := place.start
  last := place.sect - 1

/-- The sectors that the entries take: `GPT_ENTRY_SIZE * GPT_ENTRY_MAX / DISK_SECTOR_SIZE`. -/
def gptEntrySectors : Nat := 128 * 128 / 512

/-- The first sector behind the entries, which start at `GPT_FIRST_ENTRY_SECTOR`. -/
def gptFirstUsable : Nat := 2 + gptEntrySectors

/-- Where the first partition starts that is not told where. -/
def Config.firstSector (cfg : Config) : Int :=
  if cfg.kbAlign ≠ 0 then roundToKb cfg cfg.sectors else cfg.sectors

/-- The entry of the boot loader. -/
def biosBoot (cfg : Config) : Gpte where
  type := .biosBoot
  start := BitVec.ofNat 64 gptFirstUsable
  last := BitVec.ofInt 64 cfg.firstSector - 1

/-- The entries, what the header says of the sectors, and the offsets and lengths that are printed. -/
structure Gptable where
  entries : List (Option Gpte)
  firstUsable : BitVec 64
  lastUsable : BitVec 64
  alternate : BitVec 64
  printed : List (Option Int × Option Int)

/-- `gen_gptable`, up to writing the table to the file. -/
def genGptable (cfg : Config) (parts : List PartInfo) : Option Gptable :=
  (placeLoop cfg 0 parts 0).map fun (slots, sect) =>
    let alternate := sect + BitVec.ofNat 64 cfg.sectors - 1
    { entries :=
        (slots.map (Option.map (gpteOf cfg)) ++ List.replicate (gptEntryMax - slots.length) none).set
          (gptEntryMax - 1) (some (biosBoot cfg))
      firstUsable := BitVec.ofNat 64 gptFirstUsable
      lastUsable := alternate - BitVec.ofNat 64 gptEntrySectors - 1
      alternate
      printed := slots.reduceOption.map fun place =>
        (some ((place.start * 512).toNat : Int), some (((place.sect - place.start) * 512).toNat : Int)) }

/-! ### Consistent tables -/

/-- The sectors of an entry. -/
structure Extent where
  start : Nat
  stop : Nat

def Pte.extent (pte : Pte) : Extent where
  start := pte.start.toNat
  stop := pte.start.toNat + pte.length.toNat

def Gpte.extent (gpte : Gpte) : Extent where
  start := gpte.start.toNat
  stop := gpte.last.toNat + 1

def Extent.Disjoint (e e' : Extent) : Prop := e.stop ≤ e'.start ∨ e'.stop ≤ e.start

/-- The entries in use are not empty and do not overlap. -/
structure Sound (extents : List Extent) : Prop where
  nonempty : ∀ e ∈ extents, e.start < e.stop
  disjoint : extents.Pairwise Extent.Disjoint

/-- The entries are for the partitions that were asked for, in their order, and are what is printed. -/
structure Serves (parts : List PartInfo) (extents : List Extent) (printed : List (Option Int × Option Int)) :
    Prop where
  large : List.Forall₂ (fun part e => 2 * part.size.toNat ≤ e.stop - e.start)
    (parts.filter fun part => part.size ≠ 0) extents
  ordered : extents.Pairwise fun e e' => e.start < e'.start
  printed : printed = extents.map fun e =>
    (some (e.start * 512 : Int), some ((e.stop - e.start : Nat) * 512 : Int))

structure Ptable.Consistent (table : Ptable) (parts : List PartInfo) : Prop where
  sound : Sound (table.entries.reduceOption.map Pte.extent)
  serves : Serves parts (table.entries.reduceOption.map Pte.extent) table.printed

/-- In a GPT, the entry in the last slot is not one for a partition. -/
structure Gptable.Consistent (table : Gptable) (parts : List PartInfo) : Prop where
  sound : Sound (table.entries.reduceOption.map Gpte.extent)
  serves : Serves parts ((table.entries.take (gptEntryMax - 1)).reduceOption.map Gpte.extent) table.printed
  usable : ∀ entry ∈ table.entries.reduceOption,
    table.firstUsable.toNat ≤ entry.start.toNat ∧ entry.last.toNat ≤ table.lastUsable.toNat

/-! ### Positions without bounds -/

/-- Where the next partition should start. -/
def idealStart (cfg : Config) (part : PartInfo) (sect : Int) : Int :=
  if part.start ≠ 0 then ((part.start * 2).toNat : Int)
  else if cfg.kbAlign ≠ 0 then roundToKb cfg (sect + cfg.sectors)
  else sect + cfg.sectors

/-- Where it should end. -/
def idealEnd (cfg : Config) (part : PartInfo) (start : Int) : Int :=
  if cfg.kbAlign = 0 then roundToCyl cfg (start + 2 * part.size.toNat) else start + 2 * part.size.toNat

/-- Behind `sect`, no partition starts at or is as long as `bound`, and rounding goes up. -/
def Fits (cfg : Config) (bound : Int) : List PartInfo → Int → Prop
  | [], _ => True
  | part :: parts, sect =>
    if part.size = 0 then Fits cfg bound parts sect
    else
      let start := idealStart cfg part sect
      let stop := idealEnd cfg part start
      (sect ≤ start ∧ start < bound) ∧ (start + 2 * part.size.toNat ≤ stop ∧ stop < start + bound) ∧
        Fits cfg bound parts stop

instance decidableFits (cfg : Config) (bound : Int) :
    (parts : List PartInfo) → (sect : Int) → Decidable (Fits cfg bound parts sect)
  | [], _ => isTrue trivial
  | part :: parts, sect =>
    have := decidableFits cfg bound parts sect
    have := decidableFits cfg bound parts (idealEnd cfg part (idealStart cfg part sect))
    inferInstanceAs (Decidable (if part.size = 0 then _ else (_ ∧ _) ∧ (_ ∧ _) ∧ _))

end Immwrt.Ptgen
