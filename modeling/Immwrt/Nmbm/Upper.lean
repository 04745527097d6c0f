import Immwrt.Nmbm.Ops

/-!
# The MTD device above an instance

`nmbm-mtd.c` exports an attached chip as an MTD device. A request for data alone goes to the range
functions of the instance; a request with a spare buffer goes page by page through a page cache of the
device's own. The size of the device was taken from `data_block_count` when the chip was attached,
which no operation changes.

The writers return the pages that reach `nmbm_write_logic_page` besides what the code returns.
-/

namespace Immwrt.Nmbm

variable (nld : LowerDevice) (oobavail : Nat)

/-! ### Requests -/

/-- `struct mtd_oob_ops`: a buffer that is not given has no bytes. -/
structure OobOps where
  mode : OobMode
  datbuf : Option (List Byte)
  oobbuf : Option (List Byte)
  ooboffs : Nat

def OobOps.data (ops : OobOps) : List Byte := ops.datbuf.getD []

def OobOps.oob (ops : OobOps) : List Byte := ops.oobbuf.getD []

/-- `mtd_oobavail` -/
def mtdOobavail : OobMode → Nat
  | .autoOob => oobavail
  | _ => nld.oobsize

def upperSize (ni : Instance) : Nat := nld.ba2addr ni.dataBlockCount

/-- `addr &= ~nm->lower->writesize_mask`: the mask has 32 bits, so its complement clears the upper half
of the address as well. -/
def maskPage (addr : Nat) : Nat := addr % 2 ^ 32 - addr % 2 ^ 32 % nld.writesize

/-- The data of a request runs past the device; the sum has 64 bits. -/
def OobOps.dataBeyond (ops : OobOps) (ni : Instance) (addr : Nat) : Bool :=
  ops.datbuf.isSome && (addr + ops.data.length) % 2 ^ 64 > upperSize nld ni

/-- The spare bytes of a request start outside a spare area or run past the device. -/
def OobOps.oobBeyond (ops : OobOps) (ni : Instance) (addr : Nat) : Bool :=
  let maxooblen := mtdOobavail nld oobavail ops.mode
  ops.ooboffs ≥ maxooblen || addr ≥ upperSize nld ni ||
    ops.ooboffs + ops.oob.length >
      (upperSize nld ni / nld.writesize - addr / nld.writesize) * maxooblen

/-! ### Writing -/

/-- A page handed to `nmbm_write_logic_page`. -/
structure PageWrite where
  addr : Nat
  data : Option (List Byte)
  oob : Option (List Byte)
  deriving DecidableEq, Repr

/-- `nmbm_write_single_page` passes a page on. -/
def passes (ni : Instance) (addr : Nat) : Bool := !ni.refuses nld && addr < upperSize nld ni

/-- The loop of `nmbm_write_range` with the pages it hands down. -/
def writeRangeLoopSent (mode : OobMode) :
    Nat → Nat → List Byte → Sys → ((Int × Nat) × List PageWrite) × Sys
  | 0, _, data, s => (((0, data.length), []), s)
  | n + 1, off, data, s =>
      if data.isEmpty then (((0, 0), []), s)
      else
        let leading := off % nld.writesize
        let chunksize := nld.chunk off data.length
        let cache := splice (splice s.dev.pageCache 0 (List.replicate leading 0xff)) leading
          (data.take chunksize)
        let page := if chunksize = nld.writesize then data.take chunksize
          else cache.take nld.writesize
        let s := if chunksize = nld.writesize then s
          else { s with dev := { s.dev with pageCache := cache } }
        let w := writeLogicPage nld (off - leading) (some page) none mode s
        let sent := ⟨off - leading, some page, none⟩
        if w.1 ≠ 0 then (((w.1, data.length), [sent]), w.2)
        else
          let rest := writeRangeLoopSent mode n (off + chunksize) (data.drop chunksize) w.2
          ((rest.1.1, sent :: rest.1.2), rest.2)

/-- `nmbm_write_range` with the pages it hands down. -/
def writeRangeSent (addr : Nat) (data : List Byte) (mode : OobMode) (s : Sys) :
    (Int × List PageWrite) × Sys :=
  if s.ni.refuses nld then ((-erofs, []), s)
  else if nld.ba2addr s.ni.dataBlockCount ≤ addr then ((-einval, []), s)
  else if beyond nld s.ni addr data.length then ((-einval, []), s)
  else if data.isEmpty then ((0, []), s)
  else
    let w := writeRangeLoopSent nld mode data.length addr data s
    ((w.1.1.1, w.1.2), w.2)

/-- A cache of `size` bytes after `bytes` were moved to `off`, up to `room`, and the rest was set to
`0xff`. -/
def fillCache (size room off : Nat) (bytes : List Byte) : List Byte :=
  let chklen := min (room - off) bytes.length
  List.replicate off 0xff ++ bytes.take chklen ++ List.replicate (size - off - chklen) 0xff

/-- The loop of `nmbm_mtd_write_data`: `col` and `ooboffs` are where the bytes left of `data` and of
`oob` go in the page. A cache is filled only while there are bytes for it. -/
def mtdWriteDataLoop (mode : OobMode) (maxooblen : Nat) : Nat → Nat → Nat → List Byte → Nat →
    List Byte → Option (List Byte) → Option (List Byte) → Sys → (Int × List PageWrite) × Sys
  | 0, _, _, _, _, _, _, _, s => ((0, []), s)
  | n + 1, addr, col, data, ooboffs, oob, datcache, oobcache, s =>
      if data.isEmpty && oob.isEmpty then ((0, []), s)
      else
        let datcache := if data.isEmpty then datcache
          else some (fillCache nld.writesize nld.writesize col data)
        let oobcache := if oob.isEmpty then oobcache
          else some (fillCache nld.oobsize maxooblen ooboffs oob)
        let w := writeSinglePage nld addr datcache oobcache mode s
        let sent := if passes nld s.ni addr then [⟨addr, datcache, oobcache⟩] else []
        if w.1 ≠ 0 then ((w.1, sent), w.2)
        else
          let rest := mtdWriteDataLoop mode maxooblen n (addr + nld.writesize)
            (if data.isEmpty then col else 0)
            (data.drop (min (nld.writesize - col) data.length))
            (if oob.isEmpty then ooboffs else 0)
            (oob.drop (min (maxooblen - ooboffs) oob.length)) datcache oobcache w.2
          ((rest.1.1, sent ++ rest.1.2), rest.2)

/-- `nmbm_mtd_write_data` with the device's page cache. -/
def mtdWriteData (pageCache : List Byte) (addr : Nat) (ops : OobOps) (s : Sys) :
    (Int × List PageWrite) × Sys :=
  mtdWriteDataLoop nld ops.mode (mtdOobavail nld oobavail ops.mode) (ops.data.length + ops.oob.length)
    (maskPage nld addr) (addr % nld.writesize) ops.data ops.ooboffs ops.oob
    (if ops.data.isEmpty then none else some (pageCache.take nld.writesize))
    (if ops.oob.isEmpty then none else some (pageCache.drop nld.writesize)) s

/-- `nmbm_mtd_write_oob`: the return value and the pages handed down. -/
def mtdWriteOob (pageCache : List Byte) (addr : Nat) (ops : OobOps) (s : Sys) :
    (Int × List PageWrite) × Sys :=
  if ops.datbuf.isNone && ops.oobbuf.isNone then ((0, []), s)
  else if ops.dataBeyond nld s.ni addr then ((-einval, []), s)
  else if ops.oobbuf.isNone then writeRangeSent nld addr ops.data ops.mode s
  else if ops.oobBeyond nld oobavail s.ni addr then ((-einval, []), s)
  else mtdWriteData nld oobavail pageCache addr ops s

/-! ### Reading -/

/-- The spare bytes of a page that a read delivers. -/
def spareBytes (f : Flash) (addr : Nat) : OobMode → List Byte
  | .autoOob => bytesAt (f.oob addr) 1 oobavail
  | _ => bytesAt (f.oob addr) 0 nld.oobsize

/-- `nmbm_read_phys_page` with both buffers, `n + 1` tries left: the spare bytes come with the main
data. -/
def readPhysPageOobTry (addr : Nat) (mode : OobMode) :
    Nat → Device → ((Int × List Byte) × List Byte) × Device
  | 0, d =>
      let r := d.readPage nld addr
      let source := if 0 ≤ r.1.1 then d.flash else d.answer.torn
      ((r.1, spareBytes nld oobavail source addr mode), r.2)
  | n + 1, d =>
      let r := d.readPage nld addr
      if 0 ≤ r.1.1 then ((r.1, spareBytes nld oobavail d.flash addr mode), r.2)
      else readPhysPageOobTry addr mode n r.2

/-- `nmbm_read_logic_page` with both buffers. -/
def readLogicPageOob (addr : Nat) (mode : OobMode) (s : Sys) :
    ((Int × List Byte) × List Byte) × Sys :=
  let lb := nld.addr2ba addr
  if s.ni.mapping lb < 0 then (((-eio, []), []), s)
  else
    let pb := (s.ni.mapping lb).toNat
    if s.ni.getBlockState pb = blockStBad then (((-eio, []), []), s)
    else
      let r := readPhysPageOobTry nld oobavail (nld.ba2addr pb + addr % nld.erasesize) mode
        (tryCount - 1) s.dev
      (r.1, { s with dev := r.2 })

/-- `nmbm_read_single_page` with both buffers. -/
def readSinglePageOob (addr : Nat) (mode : OobMode) (s : Sys) :
    ((Int × List Byte) × List Byte) × Sys :=
  if s.ni.isProtected then (((-erofs, []), []), s)
  else if nld.ba2addr s.ni.dataBlockCount ≤ addr then (((-einval, []), []), s)
  else readLogicPageOob nld oobavail addr mode s

/-- The loop of `nmbm_mtd_read_data` with `len` and `ooblen` bytes to go: the return value, the data
and the spare bytes delivered. -/
def mtdReadDataLoop (mode : OobMode) (maxooblen : Nat) : Nat → Nat → Nat → Nat → Nat → Nat → Int →
    Bool → Sys → ((Int × List Byte) × List Byte) × Sys
  | 0, _, _, _, _, _, flips, eccErr, s => (((if eccErr then -ebadmsg else flips, []), []), s)
  | n + 1, addr, col, len, ooboffs, ooblen, flips, eccErr, s =>
      if len = 0 ∧ ooblen = 0 then (((if eccErr then -ebadmsg else flips, []), []), s)
      else
        let r := readSinglePageOob nld oobavail addr mode s
        if r.1.1.1 < 0 ∧ r.1.1.1 ≠ -ebadmsg then (((r.1.1.1, []), []), r.2)
        else
          let chklen := min (nld.writesize - col) len
          let oobchk := min (maxooblen - ooboffs) ooblen
          let rest := mtdReadDataLoop mode maxooblen n (addr + nld.writesize)
            (if len = 0 then col else 0) (len - chklen) (if ooblen = 0 then ooboffs else 0)
            (ooblen - oobchk) (max flips r.1.1.1) (eccErr || r.1.1.1 == -ebadmsg) r.2
          (((rest.1.1.1, slice r.1.1.2 col chklen ++ rest.1.1.2),
            slice r.1.2 ooboffs oobchk ++ rest.1.2), rest.2)

/-- `nmbm_mtd_read_data` -/
def mtdReadData (addr : Nat) (ops : OobOps) (s : Sys) : ((Int × List Byte) × List Byte) × Sys :=
  mtdReadDataLoop nld oobavail ops.mode (mtdOobavail nld oobavail ops.mode)
    (ops.data.length + ops.oob.length) (maskPage nld addr) (addr % nld.writesize) ops.data.length
    ops.ooboffs ops.oob.length 0 false s

/-- `nmbm_mtd_read_oob`: the return value, the data and the spare bytes. -/
def mtdReadOob (addr : Nat) (ops : OobOps) (s : Sys) : ((Int × List Byte) × List Byte) × Sys :=
  if ops.datbuf.isNone && ops.oobbuf.isNone then (((0, []), []), s)
  else if ops.dataBeyond nld s.ni addr then (((-einval, []), []), s)
  else if ops.oobbuf.isNone then
    let r := Nmbm.readRange nld addr ops.data.length s
    ((r.1.1, []), r.2)
  else if ops.oobBeyond nld oobavail s.ni addr then (((-einval, []), []), s)
  else mtdReadData nld oobavail addr ops s

end Immwrt.Nmbm
