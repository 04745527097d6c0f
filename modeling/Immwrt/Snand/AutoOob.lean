import Immwrt.Snand.Ecc

/-!
# OOB bytes in automatic places

In the automatic mode the OOB bytes of a page are the FDM bytes of its sectors, less the first of each, where
the bad block mark is. They are read with error correction, and the number of bits that were corrected
travels up as a positive return value through three layers.
-/

namespace Immwrt.Snand

def enotsupp : Int := -524

def snfGpramSize : Nat := 160

/-- A page as it comes from the chip once: the page that the chip gives away, in its raw layout, what the
controller makes of it, and the errors it reports for each sector. -/
structure Transfer where
  seen : Buf
  decoded : Buf
  errnum : Nat → Nat

/-- What belongs to the MTD device and the controller: two buffers each. -/
structure Caches where
  pageCache : Buf
  bufCache : Buf
  datcache : Buf
  oobcache : Buf

namespace Geometry

variable (g : Geometry)

/-! ### Error correction -/

section Read

variable (base : Nat) (strength : Byte)

/-- `mtk_ecc_check_decode_error` -/
def checkDecodeError (t : Transfer) (i : Nat) : Int := if t.errnum i ≤ strength.toNat then t.errnum i else -1

/-- `mtk_snand_read_ecc_parity` -/
def readEccParity (t : Transfer) (sect : Nat) (pageCache : Buf) : Int × Buf :=
  if snfGpramSize < 4 + g.eccBytes then (enotsupp, pageCache)
  else
    (0, memcpy pageCache (g.eccPtr sect) t.seen (sect * g.rawSectorSize + g.sectorSize + g.fdmSize) g.eccBytes)

/-- The loop of `mtk_snand_check_ecc_result` over the sectors that are left. -/
def checkEccLoop (t : Transfer) : List Nat → Int → Int → Buf → Int × Buf
  | [], ret, maxBitflips, pageCache => (if ret ≠ 0 then ret else maxBitflips, pageCache)
  | i :: sectors, ret, maxBitflips, pageCache =>
    let bf := checkDecodeError strength t i
    if 0 ≤ bf then checkEccLoop t sectors ret (if maxBitflips < bf then bf else maxBitflips) pageCache
    else
      let (rc, pageCache) := g.readEccParity t i pageCache
      if rc ≠ 0 then (rc, pageCache)
      else
        let (rc, pageCache) := g.fixupEmptySector base strength i pageCache
        if rc < 0 then checkEccLoop t sectors ebadmsg maxBitflips pageCache
        else if rc ≠ 0 then checkEccLoop t sectors ret (if maxBitflips < rc then rc else maxBitflips) pageCache
        else checkEccLoop t sectors ret maxBitflips pageCache

/-- `mtk_snand_check_ecc_result` -/
def checkEccResult (t : Transfer) (pageCache : Buf) : Int × Buf :=
  g.checkEccLoop base strength t (List.range g.eccSteps) 0 0 pageCache

/-- `mtk_snand_read_cache` with error correction. -/
def readTransfer (t : Transfer) (pageCache : Buf) : Int × Buf :=
  g.checkEccResult base strength t (g.readCache t.decoded false pageCache)

/-- The retries of `mtk_snand_do_read_page`, of which there are still `left`. -/
def readRetry (transfers : Nat → Transfer) : Nat → Nat → Buf → Int × Buf
  | 0, retryCnt, pageCache => g.readTransfer base strength (transfers retryCnt) pageCache
  | left + 1, retryCnt, pageCache =>
    let (ret, pageCache) := g.readTransfer base strength (transfers retryCnt) pageCache
    if ret = ebadmsg then readRetry transfers left (retryCnt + 1) pageCache else (ret, pageCache)

/-- `mtk_snand_do_read_page` with error correction: what it returns, the buffers, and the page cache. -/
def readPage (transfers : Nat → Transfer) (buf oob : Option Buf) (pageCache : Buf) :
    Int × (Option Buf × Option Buf) × Buf :=
  let (ret, pageCache) := g.readRetry base strength transfers 16 0 pageCache
  if ret < 0 ∧ ret ≠ ebadmsg then (ret, (buf, oob), pageCache)
  else
    let pageCache := g.fdmBmSwap (g.bmSwap pageCache)
    (ret,
      (buf.map fun buf => memcpy buf 0 pageCache 0 g.writesize,
        oob.map fun oob =>
          memcpy (memset oob 0xff 0 g.oobsize) 0 pageCache g.writesize (g.eccSteps * g.fdmSize)),
      pageCache)

end Read

/-! ### Automatic places -/

/-- The loop of `mtk_snand_fill_oob` and `mtk_snand_transfer_oob` over the steps that are left: `copy` moves
the bytes of one step, whose place among the OOB bytes is `off`. -/
def oobLoop (copy : Nat → Nat → Nat → Buf → Buf) : Nat → Nat → Nat → Nat → Buf → Nat × Buf
  | 0, _, _, len, buf => (len, buf)
  | left + 1, step, off, len, buf =>
    if len = 0 then (len, buf)
    else
      let sectFdmLen := if len < g.fdmSize - 1 then len else g.fdmSize - 1
      oobLoop copy left (step + 1) (off + sectFdmLen) (len - sectFdmLen) (copy step off sectFdmLen buf)

/-- `mtk_snand_fill_oob` -/
def fillOob (oobraw oobbuf : Buf) (ooblen : Nat) : Nat × Buf :=
  g.oobLoop (fun step off n oobraw => memcpy oobraw (step * g.fdmSize + 1) oobbuf off n)
    g.eccSteps 0 0 ooblen oobraw

/-- `mtk_snand_transfer_oob` -/
def transferOob (oobbuf : Buf) (ooblen : Nat) (oobraw : Buf) : Nat × Buf :=
  g.oobLoop (fun step off n oobbuf => memcpy oobbuf off oobraw (step * g.fdmSize + 1) n)
    g.eccSteps 0 0 ooblen oobbuf

/-- The page on the chip after `mtk_snand_write_page_auto_oob`, if it was erased before. -/
def writePageAutoOob (parity : Buf → Nat → Nat → Byte) (buf oob : Option Buf) (ooblen : Nat)
    (pageCache bufCache : Buf) : Buf :=
  match oob with
  | none => g.doWritePage parity buf none false true pageCache
  | some oob =>
    let bufCache := (g.fillOob (memset bufCache 0xff 0 g.oobsize) oob ooblen).2
    g.doWritePage parity buf (some bufCache) false true pageCache

section Read

variable (base : Nat) (strength : Byte)

/-- `mtk_snand_read_page_auto_oob` with the buffers of the MTD device, of which `dat` and `oob` are wanted. -/
def readPageAutoOob (transfers : Nat → Transfer) (dat oob : Bool) (ooblen : Nat) (c : Caches) : Int × Caches :=
  let datcache := if dat then some c.datcache else none
  if oob then
    let (ret, bufs, pageCache) := g.readPage base strength transfers datcache (some c.bufCache) c.pageCache
    let c := { c with
      pageCache
      bufCache := bufs.2.getD c.bufCache
      datcache := bufs.1.getD c.datcache }
    if ret ≠ 0 ∧ ret ≠ ebadmsg then (ret, c)
    else (ret, { c with oobcache := (g.transferOob c.oobcache ooblen c.bufCache).2 })
  else
    let (ret, bufs, pageCache) := g.readPage base strength transfers datcache none c.pageCache
    (ret, { c with pageCache, datcache := bufs.1.getD c.datcache })

end Read

/-! ### The MTD device -/

/-- `mtd->oobavail` -/
def oobavail : Nat := g.eccSteps * (g.fdmSize - 1)

/-- What `mtk_snand_mtd_read_data` still has to read. That the places are within a page is checked by
`mtk_snand_mtd_read_oob`. -/
structure Request where
  col : Nat
  ooboffs : Nat
  len : Nat
  ooblen : Nat
  col_lt : col < g.writesize
  ooboffs_lt : ooboffs < g.oobavail

namespace Request

variable {g : Geometry} (r : Request g)

def chklen : Nat := min (g.writesize - r.col) r.len

def oobChklen : Nat := min (g.oobavail - r.ooboffs) r.ooblen

/-- What is left after a page. -/
def next : Request g where
  col := if r.len = 0 then r.col else 0
  ooboffs := if r.ooblen = 0 then r.ooboffs else 0
  len := r.len - r.chklen
  ooblen := r.ooblen - r.oobChklen
  col_lt := by
    have := r.col_lt
    split
    · assumption
    · omega
  ooboffs_lt := by
    have := r.ooboffs_lt
    split
    · assumption
    · omega

def done : Prop := r.len = 0 ∧ r.ooblen = 0

instance : Decidable r.done := inferInstanceAs (Decidable (_ ∧ _))

theorem next_lt (h : ¬ r.done) : r.next.len + r.next.ooblen < r.len + r.ooblen := by
  have hcol := r.col_lt
  have hoffs := r.ooboffs_lt
  simp only [done] at h
  simp only [next, chklen, oobChklen]
  omega

end Request

/-- What a read gives: what it returns, the data, the OOB bytes, and the buffers it leaves behind. -/
structure ReadResult where
  ret : Int
  datbuf : List Byte
  oobbuf : List Byte
  caches : Caches

section Read

variable (base : Nat) (strength : Byte)

/-- The loop of `mtk_snand_mtd_read_data` in the automatic mode, from a page on. -/
def readLoop (reads : Nat → Nat → Transfer) (dat oob : Bool) (page : Nat) (r : Request g) (eccFailed : Bool)
    (maxBitflips : Int) (c : Caches) : ReadResult :=
  if r.done then { ret := if eccFailed then ebadmsg else maxBitflips, datbuf := [], oobbuf := [], caches := c }
  else
    let (ret, c) := g.readPageAutoOob base strength (reads page) dat oob g.oobavail c
    if ret < 0 ∧ ret ≠ ebadmsg then { ret, datbuf := [], oobbuf := [], caches := c }
    else
      let result := readLoop reads dat oob (page + 1) r.next (eccFailed || ret = ebadmsg)
        (if ret = ebadmsg then maxBitflips else max ret maxBitflips) c
      { result with
        datbuf := bytesAt c.datcache r.col r.chklen ++ result.datbuf
        oobbuf := bytesAt c.oobcache r.ooboffs r.oobChklen ++ result.oobbuf }
termination_by r.len + r.ooblen
decreasing_by exact r.next_lt ‹_›

/-- `mtk_snand_mtd_read_data` in the automatic mode. -/
def mtdReadData (reads : Nat → Nat → Transfer) (page : Nat) (r : Request g) (c : Caches) : ReadResult :=
  g.readLoop base strength reads (r.len ≠ 0) (r.ooblen ≠ 0) page r false 0 c

end Read

end Geometry

end Immwrt.Snand
