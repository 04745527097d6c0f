import Immwrt.Nmbm.Attach

/-!
# The public operations

Erasing is where bad blocks are replaced: a logical block whose physical block fails is given a spare
one and erased again, and is unmapped when no spare is left. Writing only notes that a block needs to
be replaced.
-/

namespace Immwrt.Nmbm

variable (nld : LowerDevice)

/-! ### Erasing -/

/-- Set logical block `lb` to `-1`. -/
def unmap (lb : Nat) (s : Sys) : Sys :=
  { s with ni := { s.ni with blockMapping := s.ni.blockMapping.set lb (-1) } }

def logUnmap (lb : Nat) (s : Sys) : Sys :=
  { s with hist := { s.hist with unmapped := (lb, s.ni.changed) :: s.hist.unmapped } }

/-- Note that `pb` is bad, unless it only needs to be replaced. -/
def retire (pb : Nat) (s : Sys) : Sys :=
  if s.ni.getBlockState pb ≠ blockStNeedRemap then s.setBad pb else s

/-- The physical block of `nmbm_erase_logic_block`: whether it was erased. -/
def erasePhys (pb : Nat) (s : Sys) : Bool × Sys :=
  if s.ni.getBlockState pb = blockStBad ∨ s.ni.getBlockState pb = blockStNeedRemap then (false, s)
  else
    let c := checkBadPhysBlock nld pb s.dev
    if c.1 then (false, Sys.setBad { s with dev := c.2 } pb)
    else
      let e := eraseBlockAndCheck nld pb c.2
      if e.1 then (true, { s with dev := e.2 })
      else (false, Sys.setBad { s with dev := markPhysBadBlock nld pb e.2 } pb)

/-- `nmbm_erase_logic_block`, at most `n` times through `retry:`. Every turn takes a spare block, so
a turn for each block of the chip is as good as no bound. -/
def eraseLogicLoop : Nat → Nat → Sys → Int × Sys
  | 0, _, s => (-eio, s)
  | n + 1, lb, s =>
      if s.ni.mapping lb < 0 then (-eio, s)
      else
        let pb := (s.ni.mapping lb).toNat
        let e := erasePhys nld pb s
        if e.1 then (0, e.2)
        else
          let m := mapBlock nld lb e.2
          if !m.1 then (-eio, (updateInfoTable nld (logUnmap lb (retire pb (unmap lb m.2)))).2)
          else eraseLogicLoop n lb (updateInfoTable nld (retire pb m.2)).2

def eraseLogicBlock (lb : Nat) (s : Sys) : Int × Sys :=
  eraseLogicLoop nld (s.ni.mappingBlocksTopBa + 2) lb s

/-- The loop of `nmbm_erase_block_range` over `n` blocks. -/
def eraseBlockRangeLoop : Nat → Nat → Sys → Int × Sys
  | 0, _, s => (0, s)
  | n + 1, ba, s =>
      let r := eraseLogicBlock nld ba s
      if r.1 ≠ 0 then r else eraseBlockRangeLoop n (ba + 1) r.2

/-- `addr + size` runs past the logical blocks; the sum has 64 bits. -/
def beyond (ni : Instance) (addr size : Nat) : Prop :=
  (addr + size) % 2 ^ 64 > nld.ba2addr ni.dataBlockCount

instance (ni : Instance) (addr size : Nat) : Decidable (beyond nld ni addr size) :=
  inferInstanceAs (Decidable (_ > _))

/-- The device must not be written to. -/
def Instance.refuses (ni : Instance) : Bool := ni.isProtected || nld.readOnly

/-- `nmbm_erase_block_range` -/
def eraseBlockRange (addr size : Nat) (s : Sys) : Int × Sys :=
  if s.ni.refuses nld then (-erofs, s)
  else if nld.ba2addr s.ni.dataBlockCount ≤ addr then (-einval, s)
  else if beyond nld s.ni addr size then (-einval, s)
  else if size = 0 then (0, s)
  else
    let startBa := nld.addr2ba addr
    let endBa := nld.addr2ba ((addr + size + 2 ^ 64 - 1) % 2 ^ 64) % 2 ^ 32
    eraseBlockRangeLoop nld (endBa + 1 - startBa) startBa s

/-! ### Reading -/

/-- `nmbm_read_logic_page`: the return value and the main data. -/
def readLogicPage (addr : Nat) (s : Sys) : (Int × List Byte) × Sys :=
  let lb := nld.addr2ba addr
  if s.ni.mapping lb < 0 then ((-eio, []), s)
  else
    let pb := (s.ni.mapping lb).toNat
    if s.ni.getBlockState pb = blockStBad then ((-eio, []), s)
    else
      let r := readPhysPage nld (nld.ba2addr pb + addr % nld.erasesize) s.dev
      (r.1, { s with dev := r.2 })

/-- `nmbm_read_single_page` -/
def readSinglePage (addr : Nat) (s : Sys) : (Int × List Byte) × Sys :=
  if s.ni.isProtected then ((-erofs, []), s)
  else if nld.ba2addr s.ni.dataBlockCount ≤ addr then ((-einval, []), s)
  else readLogicPage nld addr s

/-- The loop of `nmbm_read_range`, after `flips` bitflips at most in a page and perhaps an ECC error:
the return value, the data and the bytes left. A partial page is read through the page cache. -/
def readRangeLoop : Nat → Nat → Nat → Int → Bool → Sys → ((Int × List Byte) × Nat) × Sys
  | 0, _, size, flips, eccErr, s => (((if eccErr then -ebadmsg else flips, []), size), s)
  | n + 1, off, size, flips, eccErr, s =>
      if size = 0 then (((if eccErr then -ebadmsg else flips, []), size), s)
      else
        let leading := off % nld.writesize
        let chunksize := nld.chunk off size
        let r := readLogicPage nld (off - leading) s
        let s := if chunksize = nld.writesize then r.2
          else { r.2 with dev := { r.2.dev with
            pageCache := splice r.2.dev.pageCache 0 r.1.2 } }
        if r.1.1 < 0 ∧ r.1.1 ≠ -ebadmsg then (((r.1.1, []), size), s)
        else
          let rest := readRangeLoop n (off + chunksize) (size - chunksize) (max flips r.1.1)
            (eccErr || r.1.1 == -ebadmsg) s
          (((rest.1.1.1, slice r.1.2 leading chunksize ++ rest.1.1.2), rest.1.2), rest.2)

/-- `nmbm_read_range`: the return value with the data, and `retlen`. -/
def readRange (addr size : Nat) (s : Sys) : ((Int × List Byte) × Nat) × Sys :=
  if s.ni.isProtected then (((-erofs, []), 0), s)
  else if nld.ba2addr s.ni.dataBlockCount ≤ addr then (((-einval, []), 0), s)
  else if beyond nld s.ni addr size then (((-einval, []), 0), s)
  else if size = 0 then (((0, []), 0), s)
  else
    let r := readRangeLoop nld size addr size 0 false s
    ((r.1.1, size - r.1.2), r.2)

/-! ### Writing -/

/-- `nmbm_write_logic_page` -/
def writeLogicPage (addr : Nat) (data oob : Option (List Byte)) (mode : OobMode) (s : Sys) :
    Int × Sys :=
  let lb := nld.addr2ba addr
  if s.ni.mapping lb < 0 then (-eio, s)
  else
    let pb := (s.ni.mapping lb).toNat
    if s.ni.getBlockState pb = blockStBad then (-eio, s)
    else
      let w := writePhysPage nld (nld.ba2addr pb + addr % nld.erasesize) data oob mode s.dev
      let s := { s with dev := w.2 }
      if w.1 then (0, s)
      else
        -- the block is replaced when it is erased
        (-eio, (updateInfoTable nld
          { s with ni := s.ni.setBlockState pb blockStNeedRemap }).2)

/-- `nmbm_write_single_page` -/
def writeSinglePage (addr : Nat) (data oob : Option (List Byte)) (mode : OobMode) (s : Sys) :
    Int × Sys :=
  if s.ni.refuses nld then (-erofs, s)
  else if nld.ba2addr s.ni.dataBlockCount ≤ addr then (-einval, s)
  else writeLogicPage nld addr data oob mode s

/-- The loop of `nmbm_write_range`: the return value and the bytes left. A partial page is sent from
the page cache, of which only the part before the data is cleared. -/
def writeRangeLoop (mode : OobMode) : Nat → Nat → List Byte → Sys → (Int × Nat) × Sys
  | 0, _, data, s => ((0, data.length), s)
  | n + 1, off, data, s =>
      if data.isEmpty then ((0, 0), s)
      else
        let leading := off % nld.writesize
        let chunksize := nld.chunk off data.length
        let w :=
          if chunksize = nld.writesize then
            writeLogicPage nld (off - leading) (some (data.take chunksize)) none mode s
          else
            let cache := splice (splice s.dev.pageCache 0 (List.replicate leading 0xff)) leading
              (data.take chunksize)
            writeLogicPage nld (off - leading) (some (cache.take nld.writesize)) none mode
              { s with dev := { s.dev with pageCache := cache } }
        if w.1 ≠ 0 then ((w.1, data.length), w.2)
        else writeRangeLoop mode n (off + chunksize) (data.drop chunksize) w.2

/-- `nmbm_write_range`: the return value and `retlen`. -/
def writeRange (addr : Nat) (data : List Byte) (mode : OobMode) (s : Sys) : (Int × Nat) × Sys :=
  if s.ni.refuses nld then ((-erofs, 0), s)
  else if nld.ba2addr s.ni.dataBlockCount ≤ addr then ((-einval, 0), s)
  else if beyond nld s.ni addr data.length then ((-einval, 0), s)
  else if data.isEmpty then ((0, 0), s)
  else
    let w := writeRangeLoop nld mode data.length addr data s
    ((w.1.1, data.length - w.1.2), w.2)

/-! ### Bad blocks -/

/-- `nmbm_check_bad_block` -/
def checkBadBlock (addr : Nat) (ni : Instance) : Int :=
  if nld.ba2addr ni.dataBlockCount ≤ addr then -einval
  else
    let m := ni.mapping (nld.addr2ba addr)
    if m < 0 then 1
    else if ni.getBlockState m.toNat = blockStBad then 1
    else 0

/-- `nmbm_mark_bad_block` -/
def markBadBlock (addr : Nat) (s : Sys) : Int × Sys :=
  if s.ni.refuses nld then (-erofs, s)
  else if nld.ba2addr s.ni.dataBlockCount ≤ addr then (-einval, s)
  else
    let lb := nld.addr2ba addr
    if s.ni.mapping lb < 0 then (0, s)
    else
      let pb := (s.ni.mapping lb).toNat
      let s := unmap lb s
      let s := { s with dev := markPhysBadBlock nld pb s.dev }
      (0, (updateInfoTable nld (logUnmap lb (s.setBad pb))).2)

def getAvailSize (ni : Instance) : Nat := nld.ba2addr ni.dataBlockCount

/-! ### Runs -/

/-- A call of a public operation on an attached chip. -/
inductive Op where
  | erase (addr size : Nat)
  | readRange (addr size : Nat)
  | readPage (addr : Nat)
  | writeRange (addr : Nat) (data : List Byte) (mode : OobMode)
  | writePage (addr : Nat) (data oob : Option (List Byte)) (mode : OobMode)
  | markBad (addr : Nat)

def Op.run (s : Sys) : Op → Sys
  | .erase addr size => (eraseBlockRange nld addr size s).2
  | .readRange addr size => (Nmbm.readRange nld addr size s).2
  | .readPage addr => (readSinglePage nld addr s).2
  | .writeRange addr data mode => (Nmbm.writeRange nld addr data mode s).2
  | .writePage addr data oob mode => (writeSinglePage nld addr data oob mode s).2
  | .markBad addr => (markBadBlock nld addr s).2

/-- A sequence of calls. -/
def runOps (ops : List Op) (s : Sys) : Sys := ops.foldl (Op.run nld) s

end Immwrt.Nmbm
