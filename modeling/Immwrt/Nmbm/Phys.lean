import Immwrt.Nmbm.Lower

/-!
# Page and block operations with retry

The "High level NAND chip APIs" of `nmbm-core.c` and the two data loops above them. Every operation is
tried at most `NMBM_TRY_COUNT` times, and nothing here looks at the instance: a failure is only
reported, the caller decides whether the block is bad.
-/

namespace Immwrt.Nmbm

variable (nld : LowerDevice)

/-! ### Pages and blocks -/

/-- Read a page, `n + 1` tries left. -/
def readPhysPageTry (addr : Nat) : Nat → Device → (Int × List Byte) × Device
  | 0, d => d.readPage nld addr
  | n + 1, d =>
      let r := d.readPage nld addr
      if 0 ≤ r.1.1 then r else readPhysPageTry addr n r.2

/-- `nmbm_read_phys_page`, main data only. -/
def readPhysPage (addr : Nat) (d : Device) : (Int × List Byte) × Device :=
  readPhysPageTry nld addr (tryCount - 1) d

def readPhysMarkTry (addr : Nat) : Nat → Device → (Int × Byte) × Device
  | 0, d => d.readMark addr
  | n + 1, d =>
      let r := d.readMark addr
      if 0 ≤ r.1.1 then r else readPhysMarkTry addr n r.2

def writePhysPageTry (addr : Nat) (data oob : Option (List Byte)) (mode : OobMode) :
    Nat → Device → Bool × Device
  | 0, d => (false, d)
  | n + 1, d =>
      let r := d.writePage nld addr data oob mode
      if r.1 = 0 then (true, r.2) else writePhysPageTry addr data oob mode n r.2

/-- `nmbm_write_phys_page` -/
def writePhysPage (addr : Nat) (data oob : Option (List Byte)) (mode : OobMode) (d : Device) :
    Bool × Device :=
  if nld.readOnly then (false, d) else writePhysPageTry nld addr data oob mode tryCount d

def erasePhysBlockTry (addr : Nat) : Nat → Device → Bool × Device
  | 0, d => (false, d)
  | n + 1, d =>
      let r := d.eraseBlock nld addr
      if r.1 = 0 then (true, r.2) else erasePhysBlockTry addr n r.2

/-- `nmbm_erase_phys_block` -/
def erasePhysBlock (addr : Nat) (d : Device) : Bool × Device :=
  if nld.readOnly then (false, d) else erasePhysBlockTry nld addr tryCount d

/-- `nmbm_check_bad_phys_block`: ask the device, or else look at the spare area. An ECC error there
counts as a successful read. -/
def checkBadPhysBlock (ba : Nat) (d : Device) : Bool × Device :=
  if nld.hasIsBadBlock then d.isBadBlock nld ba
  else
    let r := readPhysMarkTry (nld.ba2addr ba) (tryCount - 1) d
    if r.1.1 < 0 ∧ r.1.1 ≠ -ebadmsg then (true, r.2)
    else
      (r.1.2 != 0xff, { r.2 with pageCache := splice r.2.pageCache nld.writesize [r.1.2] })

/-- Program every page of a block with zeros, ignoring failures. -/
def zeroPages (addr : Nat) : Nat → Device → Device
  | 0, d => d
  | n + 1, d =>
      zeroPages (addr + nld.writesize) n
        (writePhysPage nld addr (some (List.replicate nld.writesize 0))
          (some (List.replicate nld.oobsize 0)) .raw d).2

/-- The turns of a loop over the pages of a block: `off = 0`, `writesize`, ... below `erasesize`. -/
def LowerDevice.pagesPerBlock (nld : LowerDevice) : Nat :=
  (nld.erasesize + nld.writesize - 1) / nld.writesize

/-- `nmbm_mark_phys_bad_block` -/
def markPhysBadBlock (ba : Nat) (d : Device) : Device :=
  if nld.readOnly then d
  else if nld.hasMarkBadBlock then d.markBadBlock nld ba
  else
    zeroPages nld (nld.ba2addr ba) nld.pagesPerBlock
      { d with pageCache := List.replicate (nld.writesize + nld.oobsize) 0 }

/-- The read-back loop of `nmbm_erase_block_and_check`: an ECC error in an empty page means too many
bitflips. -/
def checkEmptyPages (addr : Nat) : Nat → Device → Bool × Device
  | 0, d => (true, d)
  | n + 1, d =>
      let r := readPhysPage nld addr d
      let d := { r.2 with pageCache := splice r.2.pageCache 0 r.1.2 }
      if r.1.1 = -ebadmsg then (false, d)
      else checkEmptyPages (addr + nld.writesize) n d

/-- `nmbm_erase_block_and_check` -/
def eraseBlockAndCheck (ba : Nat) (d : Device) : Bool × Device :=
  let r := erasePhysBlock nld (nld.ba2addr ba) d
  if !r.1 then (false, r.2)
  else if !nld.emptyPageEccOk then (true, r.2)
  else checkEmptyPages nld (nld.ba2addr ba) nld.pagesPerBlock r.2

/-! ### Runs of bytes

Both loops cut a run at page boundaries. `size` bounds the number of turns: each takes a byte at
least. -/

/-- Bytes of the current page left from `off` on, at most `size`. -/
def LowerDevice.chunk (nld : LowerDevice) (off size : Nat) : Nat :=
  min (nld.writesize - off % nld.writesize) size

def readDataLoop : Nat → Nat → Nat → Device → (Int × List Byte) × Device
  | 0, _, _, d => ((0, []), d)
  | n + 1, off, size, d =>
      if size = 0 then ((0, []), d)
      else
        let leading := off % nld.writesize
        let chunksize := nld.chunk off size
        let r := readPhysPage nld (off - leading) d
        let d := if chunksize = nld.writesize then r.2
          else { r.2 with pageCache := splice r.2.pageCache 0 r.1.2 }
        if r.1.1 < 0 then ((r.1.1, if chunksize = nld.writesize then r.1.2 else []), d)
        else
          let rest := readDataLoop n (off + chunksize) (size - chunksize) d
          ((rest.1.1, slice r.1.2 leading chunksize ++ rest.1.2), rest.2)

/-- `nmbn_read_data`: the return value and the bytes delivered. -/
def readData (addr size : Nat) (d : Device) : (Int × List Byte) × Device :=
  readDataLoop nld size addr size d

def writeVerifyDataLoop : Nat → Nat → List Byte → Device → Bool × Device
  | 0, _, _, d => (true, d)
  | n + 1, off, data, d =>
      if data.isEmpty then (true, d)
      else
        let leading := off % nld.writesize
        let chunksize := nld.chunk off data.length
        let page := splice (List.replicate nld.writesize 0xff) leading (data.take chunksize)
        let w := writePhysPage nld (off - leading) (some page) none .placeOob
          { d with pageCache := page ++ List.replicate nld.oobsize 0xff }
        if !w.1 then (false, w.2)
        else
          -- verify what has just been written; an ECC error is a failure
          let r := readPhysPage nld (off - leading) w.2
          let d := { r.2 with pageCache := splice r.2.pageCache 0 r.1.2 }
          if r.1.1 < 0 then (false, d)
          else if slice r.1.2 leading chunksize ≠ data.take chunksize then (false, d)
          else writeVerifyDataLoop n (off + chunksize) (data.drop chunksize) d

/-- `nmbn_write_verify_data` -/
def writeVerifyData (addr : Nat) (data : List Byte) (d : Device) : Bool × Device :=
  writeVerifyDataLoop nld data.length addr data d

/-- The page loop of `nmbm_write_repeated_data`. -/
def writeRepeatedLoop (data : List Byte) : Nat → Nat → Device → Bool × Device
  | 0, _, d => (true, d)
  | n + 1, addr, d =>
      let page := data ++ List.replicate (nld.writesize - data.length) 0xff
      let w := writePhysPage nld addr (some page) none .placeOob
        { d with pageCache := page ++ List.replicate nld.oobsize 0xff }
      if !w.1 then (false, w.2)
      else
        let r := readPhysPage nld addr w.2
        let d := { r.2 with pageCache := splice r.2.pageCache 0 r.1.2 }
        if r.1.1 < 0 then (false, d)
        else if r.1.2.take data.length ≠ data then (false, d)
        else writeRepeatedLoop data n (addr + nld.writesize) d

/-- `nmbm_write_repeated_data`: the same data in every page of a block. -/
def writeRepeatedData (ba : Nat) (data : List Byte) (d : Device) : Bool × Device :=
  if data.length > nld.writesize then (false, d)
  else writeRepeatedLoop nld data nld.pagesPerBlock (nld.ba2addr ba) d

end Immwrt.Nmbm
