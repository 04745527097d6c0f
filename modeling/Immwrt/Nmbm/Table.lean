import Immwrt.Nmbm.Instance

/-!
# Writing the info tables

The tables float in the management region between `mgmt_start_ba` and `mapping_blocks_top_ba`: the
main table first, then some spare blocks, then the backup table, then the pool of unmapped spare
blocks that remapping takes from the top of. A table that meets a bad block moves up past it, which is
what the rebuild, rescue and update procedures below are for.

Tables are written through `writeMgmtRange`, the only writer of the region besides `eraseRange`, which
cleans the gap between the two tables.
-/

namespace Immwrt.Nmbm

variable (nld : LowerDevice)

/-! ### Blocks of the management region -/

def foundBad (ba : Nat) (s : Sys) : Sys :=
  { s with
    ni := s.ni.setBlockState ba blockStBad
    hist := { s.hist with badFound := ba :: s.hist.badFound } }

-- `skip_bad_block:` of the management loops
def skipBadBlock (ba : Nat) (s : Sys) : Sys :=
  foundBad ba { s with dev := markPhysBadBlock nld ba s.dev }

def logAccess (ba : Nat) (s : Sys) : Sys :=
  { s with hist := { s.hist with
      mgmt := ⟨ba, s.ni.blockMapping, s.ni.dataBlockCount, s.ni.signatureBa⟩ :: s.hist.mgmt } }

/-- What every management loop does with a block first: skip it unless it is good, look for a mark set
behind NMBM's back, and erase it. -/
def prepareBlock (ba : Nat) (s : Sys) : Bool × Sys :=
  if s.ni.getBlockState ba ≠ blockStGood then (false, s)
  else
    let r := checkBadPhysBlock nld ba s.dev
    if r.1 then (false, foundBad ba { s with dev := r.2 })
    else
      let e := eraseBlockAndCheck nld ba r.2
      let s := logAccess ba { s with dev := e.2 }
      if e.1 then (true, s) else (false, skipBadBlock nld ba s)

/-- `nmbm_erase_range` over `n` blocks. -/
def eraseRangeLoop : Nat → Nat → Sys → Sys
  | 0, _, s => s
  | n + 1, ba, s => eraseRangeLoop n (ba + 1) (prepareBlock nld ba s).2

def eraseRange (ba limit : Nat) (s : Sys) : Sys := eraseRangeLoop nld (limit - ba) ba s

def writeMgmtBlock (ba : Nat) (chunk : List Byte) (s : Sys) : Bool × Sys :=
  let p := prepareBlock nld ba s
  if !p.1 then (false, p.2)
  else
    let w := writeVerifyData nld (nld.ba2addr ba) chunk p.2.dev
    let s := { p.2 with dev := w.2 }
    if w.1 then (true, s) else (false, skipBadBlock nld ba s)

/-- The loop of `nmbm_write_mgmt_range` over `n` blocks: `rest` is still to be written, `size` was to
be written in all, and `start` is `actual_start_ba`. -/
def writeMgmtLoop (size : Nat) : Nat → Nat → List Byte → Nat → Sys → Option (Nat × Nat) × Sys
  | 0, ba, rest, start, s => (if rest.isEmpty then some (start, ba) else none, s)
  | n + 1, ba, rest, start, s =>
      if rest.isEmpty then (some (start, ba), s)
      else
        let w := writeMgmtBlock nld ba (rest.take nld.erasesize) s
        if w.1 then
          writeMgmtLoop size n (ba + 1) (rest.drop nld.erasesize)
            (if rest.length = size then ba else start) w.2
        else writeMgmtLoop size n (ba + 1) rest start w.2

def writeMgmtRange (ba limit : Nat) (data : List Byte) (s : Sys) : Option (Nat × Nat) × Sys :=
  writeMgmtLoop nld data.length (limit - ba) ba data 0 s

/-! ### The image of a table -/

/-- The image of an info table with this header. -/
def infoTableImage (hdr : InfoTableHeader) (blockState : List Word) (blockMapping : List Int) :
    List Byte :=
  let buf := List.replicate nld.infoTableSize 0xff
  let buf := splice buf hdr.stateTableOff.toNat (wordsLe blockState)
  let buf := splice buf hdr.mappingTableOff.toNat (wordsLe (blockMapping.map ofInt32))
  let buf := splice buf 0 hdr.bytes
  updateChecksum buf

/-- The header `nmbm_generate_info_table_cache` leaves in the instance. -/
def Instance.nextHeader (ni : Instance) : InfoTableHeader :=
  { ni.infoTable with
    magic := magicInfoTable
    version := version
    size := BitVec.ofNat 32 nld.infoTableSize
    writeCount := if ni.changed then ni.infoTable.writeCount + 1 else ni.infoTable.writeCount }

def generateInfoTableCache (s : Sys) : Bool × Sys :=
  let hdr := s.ni.nextHeader nld
  (s.ni.changed,
    { s with
      ni := { s.ni with
        infoTable := hdr
        infoTableCache := infoTableImage nld hdr s.ni.blockState s.ni.blockMapping }
      hist := { s.hist with badFound := [] } })

def logTable (found : Option (Nat × Nat)) (s : Sys) : Sys :=
  { s with hist := { s.hist with tables := found.toList ++ s.hist.tables } }

def writeInfoTable (ba limit : Nat) (s : Sys) : Option (Nat × Nat) × Sys :=
  let w := writeMgmtRange nld ba limit s.ni.infoTableCache s
  (w.1, logTable w.1 w.2)

def markTablesClean (s : Sys) : Sys :=
  { s with ni := { s.ni with blockStateChanged := 0, blockMappingChanged := 0 } }

/-! ### Where the tables are -/

def Sys.recordMain (s : Sys) (start stop : Nat) : Sys :=
  { s with ni := { s.ni with mainTableBa := start }
           hist := { s.hist with mainTableEba := stop } }

def Sys.recordBackup (s : Sys) (start stop : Nat) : Sys :=
  { s with ni := { s.ni with backupTableBa := start }
           hist := { s.hist with backupTableEba := stop } }

def Sys.clearBackup (s : Sys) : Sys := { s with ni := { s.ni with backupTableBa := 0 } }

def Sys.setMappingBlocks (s : Sys) (ba : Nat) : Sys :=
  { s with ni := { s.ni with mappingBlocksBa := ba } }

/-- The backup table becomes the main table. -/
def Sys.promoteBackup (s : Sys) : Sys :=
  (s.recordMain s.ni.backupTableBa s.hist.backupTableEba).clearBackup

/-- `mapping_blocks_top_ba - size2blk(info_table_size)`, the limit for reserving blocks. -/
def Instance.reserveLimit (ni : Instance) : Nat := sub32 ni.mappingBlocksTopBa nld.infoTableBlocks

/-- Try to write a table at `writeBa`, then at every block below it, `n` in all. -/
def writeTableDown : Nat → Nat → Sys → Option (Nat × Nat) × Sys
  | 0, _, s => (none, s)
  | n + 1, writeBa, s =>
      let w := writeInfoTable nld writeBa s.ni.mappingBlocksTopBa s
      if w.1.isSome then w else writeTableDown n (writeBa - 1) w.2

/-! ### Rebuild and rescue -/

/-- `nmbm_rebuild_info_table` -/
def rebuildInfoTable (s : Sys) : Bool × Sys :=
  let top := s.ni.mappingBlocksTopBa
  let s := ((s.recordMain 0 0).clearBackup).setMappingBlocks top
  let w := writeInfoTable nld s.ni.mgmtStartBa top s
  match w.1 with
  | none => (false, { w.2 with ni := { w.2.ni with isProtected := true } })
  | some (start, stop) =>
      let s := markTablesClean ((w.2.recordMain start stop).setMappingBlocks stop)
      match tryReserveBlocks nld s.ni stop (s.ni.reserveLimit nld) nld.infoTableSpareBlocks with
      | none => (true, s)
      | some next =>
          let b := writeInfoTable nld next top s
          match b.1 with
          | none => (true, b.2)
          | some (bstart, bstop) =>
              (true, eraseRange nld stop bstart
                ((b.2.recordBackup bstart bstop).setMappingBlocks bstop))

/-- `nmbm_rescue_single_info_table` -/
def rescueSingleInfoTable (s : Sys) : Bool × Sys :=
  let w := writeInfoTable nld s.ni.mgmtStartBa s.ni.mainTableBa s
  match w.1 with
  | some (start, stop) =>
      -- the new table is in front, the existing one becomes the backup
      let s := w.2.recordBackup w.2.ni.mainTableBa w.2.hist.mainTableEba
      let s := markTablesClean (s.recordMain start stop)
      (true, eraseRange nld stop s.ni.backupTableBa s)
  | none =>
      let s := w.2
      match tryReserveBlocks nld s.ni s.ni.mappingBlocksBa (s.ni.reserveLimit nld)
          nld.infoTableSpareBlocks with
      | none => (false, s)
      | some writeBa =>
          let b := writeTableDown nld (writeBa + 1 - s.ni.mappingBlocksBa) writeBa s
          match b.1 with
          | none => (false, b.2)
          | some (start, stop) =>
              let s := eraseRange nld b.2.ni.mappingBlocksBa start b.2
              (true, markTablesClean ((s.recordBackup start stop).setMappingBlocks stop))

/-- `nmbm_update_single_info_table` -/
def updateSingleInfoTable (updateMainTable : Bool) (s : Sys) : Bool × Sys :=
  if updateMainTable then
    let w := writeInfoTable nld s.ni.mainTableBa s.ni.backupTableBa s
    match w.1 with
    | some (start, stop) => (true, markTablesClean (w.2.recordMain start stop))
    | none => rescueSingleInfoTable nld w.2.promoteBackup
  else
    let w := writeInfoTable nld s.ni.backupTableBa s.ni.mappingBlocksTopBa s
    match w.1 with
    | some (start, stop) =>
        (true, markTablesClean ((w.2.recordBackup start stop).setMappingBlocks stop))
    | none => (false, (w.2.setMappingBlocks w.2.ni.backupTableBa).clearBackup)

/-- The last part of `nmbm_rescue_main_info_table`: the temporary table was overwritten, so write a
new backup table behind the main table that ends at `stop`. -/
def rescueBackup (stop : Nat) (s : Sys) : Bool × Sys :=
  let s := s.setMappingBlocks stop
  match tryReserveBlocks nld s.ni stop (s.ni.reserveLimit nld) nld.infoTableSpareBlocks with
  | none => (true, s.clearBackup)
  | some writeBa =>
      let b := writeTableDown nld (writeBa + 1 - stop) writeBa s
      match b.1 with
      | none => (true, b.2.clearBackup)
      | some (bstart, bstop) =>
          (true, eraseRange nld stop bstart
            ((b.2.recordBackup bstart bstop).setMappingBlocks bstop))

/-- `nmbm_rescue_main_info_table` -/
def rescueMainInfoTable (s : Sys) : Bool × Sys :=
  match tryReserveBlocks nld s.ni s.ni.mappingBlocksBa (s.ni.reserveLimit nld)
      nld.infoTableSpareBlocks with
  | none => (true, s.promoteBackup)
  | some writeBa =>
      let t := writeTableDown nld (writeBa + 1 - s.ni.mappingBlocksBa) writeBa s
      match t.1 with
      | none => (true, t.2.promoteBackup)
      | some (tstart, tstop) =>
          -- a temporary table is in place: the main table may now overwrite the old backup
          let s := t.2.setMappingBlocks tstop
          let w := writeInfoTable nld s.ni.mgmtStartBa tstart s
          match w.1 with
          | none => (true, markTablesClean ((w.2.recordMain tstart tstop).clearBackup))
          | some (start, stop) =>
              let s := markTablesClean (w.2.recordMain start stop)
              if stop ≤ tstart then (true, s.recordBackup tstart tstop)
              else rescueBackup nld stop s

/-! ### Updates -/

/-- The second half of `nmbm_update_info_table_once`, from `write_main_table:` on. -/
def writeMainTable (limit : Nat) (s : Sys) : Bool × Sys :=
  if s.ni.mainTableBa = 0 then rebuildInfoTable nld s
  else
    let w := writeInfoTable nld s.ni.mainTableBa limit s
    match w.1 with
    | none =>
        if w.2.ni.backupTableBa = 0 then rebuildInfoTable nld w.2
        else rescueMainInfoTable nld w.2
    | some (start, stop) =>
        let s := w.2.recordMain start stop
        let s := if s.ni.backupTableBa = 0 then s.setMappingBlocks stop else s
        (true, markTablesClean s)

/-- `nmbm_update_info_table_once` -/
def updateInfoTableOnce (force : Bool) (s : Sys) : Bool × Sys :=
  let g := generateInfoTableCache nld s
  if !g.1 && !force then (true, g.2)
  else
    let s := g.2
    if s.ni.backupTableBa = 0 then writeMainTable nld s.ni.mappingBlocksTopBa s
    else
      let w := writeInfoTable nld s.ni.backupTableBa s.ni.mappingBlocksTopBa s
      match w.1 with
      | none =>
          let s := (w.2.setMappingBlocks w.2.ni.backupTableBa).clearBackup
          writeMainTable nld s.ni.mappingBlocksTopBa s
      | some (start, stop) =>
          let s := markTablesClean ((w.2.recordBackup start stop).setMappingBlocks stop)
          writeMainTable nld start s

/-- The loop of `nmbm_update_info_table`. A round that leaves a change behind has found a bad block,
so `n` above the number of good blocks is as good as no bound. -/
def updateInfoTableLoop : Nat → Sys → Bool × Sys
  | 0, s => (false, s)
  | n + 1, s =>
      if !s.ni.changed then (true, s)
      else
        let r := updateInfoTableOnce nld false s
        if !r.1 then (false, r.2) else updateInfoTableLoop n r.2

def updateInfoTable (s : Sys) : Bool × Sys :=
  if s.ni.isProtected then (true, s) else updateInfoTableLoop nld (nld.blockCount + 2) s

/-! ### Remapping -/

def logMap (s : Sys) : Sys :=
  { s with hist := { s.hist with
      mapTops := s.ni.getBlockState s.ni.mappingBlocksTopBa :: s.hist.mapTops } }

/-- `nmbm_map_block` -/
def mapBlock (lb : Nat) (s : Sys) : Bool × Sys :=
  if s.ni.mappingBlocksBa = s.ni.mappingBlocksTopBa then (false, s)
  else
    let s := logMap s
    match blockWalkDesc nld s.ni s.ni.mappingBlocksTopBa 0 s.ni.mappingBlocksBa with
    | none =>
        let s := (updateInfoTable nld s).2
        (false, { s with ni := { s.ni with mappingBlocksTopBa := s.ni.mappingBlocksBa } })
    | some pb =>
        (true, { s with ni := { s.ni with
          blockMapping := s.ni.blockMapping.set lb pb
          mappingBlocksTopBa := s.ni.mappingBlocksTopBa - 1
          blockMappingChanged := s.ni.blockMappingChanged + 1 } })

end Immwrt.Nmbm
