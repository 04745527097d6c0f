import Immwrt.Nmbm.Table

/-!
# Creating, loading and attaching

`nmbm_attach` looks for a signature from the end of the chip downwards. Without one it may create the
management area from scratch; with one it searches the management region upwards for the first two
info tables that check out and takes the one written last. Everything but the tables themselves is
derived again: the end of the pool from the lowest remapped block, the number of logical blocks from
the highest one that is still mapped.
-/

namespace Immwrt.Nmbm

variable (nld : LowerDevice)

/-! ### Creation -/

def scanBadblocksLoop : Nat → Nat → Sys → Sys
  | 0, _, s => s
  | n + 1, ba, s =>
      let r := checkBadPhysBlock nld ba s.dev
      scanBadblocksLoop n (ba + 1)
        { s with dev := r.2, ni := if r.1 then s.ni.setBlockState ba blockStBad else s.ni }

def scanBadblocks (s : Sys) : Sys := scanBadblocksLoop nld nld.blockCount 0 s

/-- The blocks below `n` that `nmbm_build_mapping_table` maps to, in order. -/
def usableBlocks (blockState : List Word) (n : Nat) : List Nat :=
  (List.range n).filter fun pb => getBlockStateRaw blockState pb ≠ blockStBad

def buildMappingTable (s : Sys) : Sys :=
  let pbs := usableBlocks s.ni.blockState s.ni.mgmtStartBa
  { s with ni := { s.ni with
      blockMapping := pbs.map Int.ofNat ++ List.replicate (nld.blockCount - pbs.length) (-1)
      dataBlockCount := pbs.length } }

/-- `nmbm_write_signature` from `ba` down over `n` blocks. -/
def writeSignatureLoop (signature : List Byte) : Nat → Nat → Sys → Option Nat × Sys
  | 0, _, s => (none, s)
  | n + 1, ba, s =>
      -- the signature is not written by the info-table code
      let p := prepareBlock nld ba s
      let s' := { p.2 with hist := s.hist }
      if !p.1 then writeSignatureLoop signature n (ba - 1) s'
      else
        let w := writeRepeatedData nld ba signature s'.dev
        let s' := { s' with dev := w.2 }
        if w.1 then (some ba, s')
        else writeSignatureLoop signature n (ba - 1) { skipBadBlock nld ba s' with hist := s.hist }

def writeSignature (limit : Nat) (signature : List Byte) (s : Sys) : Option Nat × Sys :=
  writeSignatureLoop nld signature (nld.blockCount - 1 - limit) (nld.blockCount - 1) s

/-- Remap the bad blocks at the end of the data area: `n` logical blocks from `lb` on. -/
def remapTail : Nat → Nat → Sys → Sys
  | 0, _, s => s
  | n + 1, lb, s =>
      let m := mapBlock nld lb s
      if !m.1 then m.2
      else remapTail n (lb + 1)
        { m.2 with ni := { m.2.ni with dataBlockCount := m.2.ni.dataBlockCount + 1 } }

/-- `nmbm_create_info_table` -/
def createInfoTable (s : Sys) : Bool × Sys :=
  match blockWalkDesc nld s.ni s.ni.signatureBa 1 s.ni.mgmtStartBa with
  | none => (false, s)
  | some top =>
      let s := { s with ni := { s.ni with mappingBlocksTopBa := top } }
      let r := rebuildInfoTable nld (generateInfoTableCache nld s).2
      if !r.1 then (false, r.2)
      else
        let s := remapTail nld (r.2.ni.mgmtStartBa - r.2.ni.dataBlockCount)
          r.2.ni.dataBlockCount r.2
        updateInfoTable nld s

def LowerDevice.mgmtStart (nld : LowerDevice) : Nat :=
  let ba := nld.blockCount * (mgmtDiv - nld.maxRatio) % 2 ^ 32 / mgmtDiv
  if nld.maxReservedBlocks ≠ 0 ∧ nld.blockCount - ba > nld.maxReservedBlocks then
    nld.blockCount - nld.maxReservedBlocks
  else ba

def LowerDevice.newSignature (nld : LowerDevice) : Signature :=
  ⟨nld.size, nld.erasesize, nld.writesize, nld.oobsize, nld.mgmtStart, tryCount⟩

/-- `nmbm_create_new` -/
def createNew (s : Sys) : Bool × Sys :=
  let s := { s with ni := { s.ni with mgmtStartBa := nld.mgmtStart } }
  let s := buildMappingTable nld (scanBadblocks nld s)
  let s := { s with ni := { s.ni with signature := nld.newSignature } }
  if nld.readOnly then (true, s)
  else
    let w := writeSignature nld s.ni.mgmtStartBa nld.newSignature.bytes s
    match w.1 with
    | none => (false, w.2)
    | some ba => createInfoTable nld { w.2 with ni := { w.2.ni with signatureBa := ba } }

/-! ### Loading -/

/-- `nmbm_check_info_table_header`; the differences are unsigned. -/
def checkInfoTableHeader (data : List Byte) : Bool :=
  let hdr := InfoTableHeader.ofBytes data
  hdr.magic == magicInfoTable
    && hdr.size == BitVec.ofNat 32 nld.infoTableSize
    && nld.stateTableSize ≤ (hdr.mappingTableOff - hdr.stateTableOff).toNat
    && nld.mappingTableSize ≤ (BitVec.ofNat 32 nld.infoTableSize - hdr.mappingTableOff).toNat

/-- `block_state` of a table image -/
def imageState (data : List Byte) : List Word :=
  getWords data (InfoTableHeader.ofBytes data).stateTableOff.toNat nld.stateWords

/-- `block_mapping` of a table image -/
def imageMapping (data : List Byte) : List Int :=
  (getWords data (InfoTableHeader.ofBytes data).mappingTableOff.toNat nld.blockCount).map toInt32

/-- A mapping a table that ends at `endBa` must not have. -/
def badMapping (ni : Instance) (endBa : Nat) (v : Int) : Bool :=
  (ni.dataBlockCount ≤ asUInt32 v && asUInt32 v < endBa) || asUInt32 v == ni.signatureBa

/-- The lowest block above `endBa` mapped to, or `acc`. -/
def minimumMapping (endBa : Nat) (acc : Nat) (v : Int) : Nat :=
  if endBa ≤ asUInt32 v ∧ asUInt32 v < acc then asUInt32 v else acc

/-- `nmbm_check_info_table`: `mapping_blocks_top_ba`, if the table checks out. -/
def checkInfoTable (ni : Instance) (startBa endBa : Nat) (data : List Byte) : Option Nat :=
  let mapping := (imageMapping nld data).take ni.dataBlockCount
  let state := imageState nld data
  if mapping.any (badMapping ni endBa) then none
  else if (List.range' startBa (endBa - startBa)).any fun ba =>
      ni.getBlockState ba = blockStGood ∧ getBlockStateRaw state ba ≠ blockStGood then none
  else some (mapping.foldl (minimumMapping endBa) ni.signatureBa - 1)

def Sys.setBad (s : Sys) (ba : Nat) : Sys := { s with ni := s.ni.setBlockState ba blockStBad }

/-- The read loop of `nmbm_try_load_info_table` over `n` blocks, `off` bytes read so far: the blocks
where the table starts and ends. Bad blocks are marked in memory only. -/
def readTableLoop : Nat → Nat → Nat → Option Nat → Sys → Option (Nat × Nat) × Sys
  | 0, ba, off, start, s =>
      (if off = nld.infoTableSize then some (start.getD 0, ba) else none, s)
  | n + 1, ba, off, start, s =>
      if off = nld.infoTableSize then (some (start.getD 0, ba), s)
      else if s.ni.getBlockState ba ≠ blockStGood then readTableLoop n (ba + 1) off start s
      else
        let c := checkBadPhysBlock nld ba s.dev
        let s := { s with dev := c.2 }
        if c.1 then readTableLoop n (ba + 1) off start (s.setBad ba)
        else
          let chunksize := min (nld.infoTableSize - off) nld.erasesize
          let r := readData nld (nld.ba2addr ba) chunksize s.dev
          let cache := splice s.ni.infoTableCache off r.1.2
          let s := { s with dev := r.2, ni := { s.ni with infoTableCache := cache } }
          if r.1.1 < 0 then readTableLoop n (ba + 1) off start (s.setBad ba)
          else if r.1.1 > 0 then (none, s)
          else if start.isNone && !checkInfoTableHeader nld (cache.drop off) then (none, s)
          else readTableLoop n (ba + 1) (off + chunksize) (some (start.getD ba)) s

/-- What `nmbm_try_load_info_table` reports about a table. -/
structure Found where
  startBa : Nat
  endBa : Nat
  writeCount : Word
  topBa : Nat
  deriving DecidableEq, Repr

def tryLoadInfoTable (ba : Nat) (tableLoaded : Bool) (s : Sys) : Option Found × Sys :=
  let r := readTableLoop nld nld.infoTableBlocks ba 0 none s
  match r.1 with
  | none => (none, r.2)
  | some (startBa, endBa) =>
      let s := r.2
      let data := s.ni.infoTableCache
      if !checkHeader data nld.infoTableSize then (none, s)
      else
        let hdr := InfoTableHeader.ofBytes data
        match checkInfoTable nld s.ni startBa endBa data with
        | none => (none, s)
        | some top =>
            let s := if !tableLoaded || s.ni.infoTable.writeCount < hdr.writeCount then
                { s with ni := { s.ni with
                    infoTable := hdr
                    blockState := imageState nld data
                    blockMapping := imageMapping nld data } }
              else s
            (some ⟨ba, endBa, hdr.writeCount, top⟩, s)

/-- `nmbm_search_info_table` over `n` blocks. -/
def searchInfoTableLoop (tableLoaded : Bool) : Nat → Nat → Sys → Option Found × Sys
  | 0, _, s => (none, s)
  | n + 1, ba, s =>
      let r := tryLoadInfoTable nld ba tableLoaded s
      if r.1.isSome then r else searchInfoTableLoop tableLoaded n (ba + 1) r.2

def searchInfoTable (ba limit : Nat) (tableLoaded : Bool) (s : Sys) : Option Found × Sys :=
  searchInfoTableLoop nld tableLoaded (sub32 limit nld.infoTableBlocks - ba) ba s

/-- One more than the highest logical block below `n` that is mapped, or `none` if there is none. -/
def highestMapped (ni : Instance) : Nat → Option Nat
  | 0 => none
  | i + 1 => if 0 ≤ ni.mapping i then some (i + 1) else highestMapped ni i

/-- What `nmbm_load_info_table` does when the search is over: `second` is missing if only one table
was found. -/
def finishLoad (first : Found) (second : Option Found) (s : Sys) : Sys :=
  let last := second.getD first
  let newest := if first.writeCount < last.writeCount then last else first
  let ni := { s.ni with
    mainTableBa := first.startBa
    backupTableBa := (second.map Found.startBa).getD 0
    mappingBlocksTopBa := newest.topBa
    mappingBlocksBa := last.endBa }
  let ni := { ni with
    dataBlockCount := (highestMapped ni ni.signature.mgmtStartPb).getD ni.dataBlockCount }
  let hist := { s.hist with mainTableEba := first.endBa, backupTableEba := last.endBa }
  (generateInfoTableCache nld { s with ni := ni, hist := hist }).2

/-- Bring the tables in step: write the missing one, or the one that is behind. -/
def syncTables (first : Found) (second : Option Found) (s : Sys) : Bool × Sys :=
  match second with
  | none => rescueSingleInfoTable nld s
  | some second =>
      if first.writeCount ≠ second.writeCount then
        updateSingleInfoTable nld (first.writeCount < second.writeCount)
          { s with ni := { s.ni with blockStateChanged := 1, blockMappingChanged := 1 } }
      else (true, s)

/-- `nmbm_load_info_table` -/
def loadInfoTable (ba limit : Nat) (s : Sys) : Bool × Sys :=
  let s := { s with ni := { s.ni with
    mainTableBa := 0
    backupTableBa := 0
    infoTable := { s.ni.infoTable with writeCount := 0 }
    mappingBlocksTopBa := s.ni.signatureBa - 1
    dataBlockCount := s.ni.signature.mgmtStartPb } }
  let f := searchInfoTable nld ba limit false s
  match f.1 with
  | none => (false, f.2)
  | some first =>
      let b := searchInfoTable nld first.endBa limit true f.2
      let s := finishLoad nld first b.1 b.2
      if nld.readOnly then (true, s)
      else
        let r := syncTables nld first b.1 s
        let ni := r.2.ni
        (true, { r.2 with ni := { ni with
          isProtected := ni.isProtected || ni.mappingBlocksBa == ni.mappingBlocksTopBa || !r.1 } })

/-- `nmbm_load_existing` -/
def loadExisting (s : Sys) : Bool × Sys :=
  let s := { s with ni := { s.ni with mgmtStartBa := s.ni.signature.mgmtStartPb } }
  let l := loadInfoTable nld s.ni.mgmtStartBa s.ni.signatureBa s
  if l.1 then l
  else if !nld.create then (false, l.2)
  else
    let s := buildMappingTable nld (scanBadblocks nld l.2)
    if nld.readOnly then (true, s) else createInfoTable nld s

/-! ### Finding the signature -/

/-- The pages of a block: the first valid signature among them. -/
def findInPages : Nat → Nat → Device → Option (List Byte) × Device
  | 0, _, d => (none, d)
  | n + 1, addr, d =>
      let r := readData nld addr signatureSize d
      if r.1.1 = 0 ∧ checkHeader r.1.2 signatureSize ∧ getU32 r.1.2 hdrMagic = magicSignature then
        (some r.1.2, r.2)
      else findInPages n (addr + nld.writesize) r.2

/-- How a search that may not come to an end ends. -/
inductive Search (α : Type) where
  | found (a : α)
  | absent
  | running
  deriving DecidableEq, Repr

/-- `block_count` as it is stored, in 32 bits. -/
def LowerDevice.blockCount32 (nld : LowerDevice) : Nat := nld.blockCount % 2 ^ 32

def LowerDevice.signatureLimit (nld : LowerDevice) : Nat :=
  let limit := nld.blockCount32 / mgmtDiv * (mgmtDiv - nld.maxRatio)
  if nld.maxReservedBlocks ≠ 0 ∧ nld.blockCount32 - limit > nld.maxReservedBlocks then
    nld.blockCount32 - nld.maxReservedBlocks
  else limit

/-- `n` turns of the loop of `nmbm_find_signature`; `ba` is unsigned and may pass below zero. -/
def findSignatureLoop : Nat → Nat → Device → Search (Nat × List Byte) × Device
  | 0, _, d => (.running, d)
  | n + 1, ba, d =>
      if ba < nld.signatureLimit then (.absent, d)
      else
        let ba := sub32 ba 1
        let c := checkBadPhysBlock nld ba d
        if c.1 then findSignatureLoop n ba c.2
        else
          let r := findInPages nld nld.pagesPerBlock (nld.ba2addr ba) c.2
          match r.1 with
          | some sig => (.found (ba, sig), r.2)
          | none => findSignatureLoop n ba r.2

def findSignature (d : Device) : Search (Nat × List Byte) × Device :=
  findSignatureLoop nld (nld.blockCount32 + 2) nld.blockCount32 d

/-! ### Attaching -/

/-- An instance in zeroed memory, on a device. -/
def fresh (d : Device) : Sys where
  ni := initStructure nld
  dev := d
  hist := ⟨[], [], [], [], 0, 0, []⟩

/-- `nmbm_attach` on checked members: the return value, or `none` if the signature search does not
come to an end. -/
def attach (d : Device) : Option Int × Sys :=
  let f := findSignature nld d
  match f.1 with
  | .running => (none, fresh nld f.2)
  | .absent =>
      if !nld.create then (some (-enodev), fresh nld f.2)
      else
        let c := createNew nld (fresh nld f.2)
        (some (if c.1 then 0 else -enodev), c.2)
  | .found (ba, bytes) =>
      let sig := Signature.ofBytes bytes
      let s := fresh nld f.2
      let s := { s with ni := { s.ni with signature := sig, signatureBa := ba } }
      if getU32 bytes hdrVersion ≠ version then (some (-einval), s)
      else if sig.nandSize ≠ nld.size ∨ sig.blockSize ≠ nld.erasesize ∨
          sig.pageSize ≠ nld.writesize ∨ sig.spareSize ≠ nld.oobsize then (some (-einval), s)
      else
        let l := loadExisting nld s
        (some (if l.1 then 0 else -enodev), l.2)

/-- `nmbm_detach` -/
def detach (s : Sys) : Sys := if nld.readOnly then s else (updateInfoTable nld s).2

end Immwrt.Nmbm
