import Immwrt.Nmbm.Proof.Steps

/-!
# A chip that was created

Creation scans for bad blocks, writes the signature below the end of the chip, and builds the tables
between the data area and the signature. From there on it takes the same steps as the operations.
-/

namespace Immwrt.Nmbm

variable {nld : LowerDevice} {s s' : Sys}

/-! ### Scanning and signing -/

/-- Between `s` and `s'` only block states and the device changed. -/
structure Scans (s s' : Sys) : Prop where
  rest : s'.ni = { s.ni with
    blockState := s'.ni.blockState, blockStateChanged := s'.ni.blockStateChanged }
  length : s'.ni.blockState.length = s.ni.blockState.length
  hist : s'.hist = s.hist

theorem Scans.refl (s : Sys) : Scans s s := ⟨rfl, rfl, rfl⟩

theorem Scans.trans {s'' : Sys} (h : Scans s s') (h' : Scans s' s'') : Scans s s'' :=
  ⟨by rw [h'.rest, h.rest], h'.length.trans h.length, h'.hist.trans h.hist⟩

theorem scanBadblocksLoop_scans (nld : LowerDevice) (n ba : Nat) (s : Sys) :
    Scans s (scanBadblocksLoop nld n ba s) := by
  induction n generalizing ba s with
  | zero => exact .refl s
  | succ n ih =>
      rw [scanBadblocksLoop]
      refine Scans.trans ?_ (ih _ _)
      split
      · exact ⟨rfl, length_setBlockStateRaw _ _ _, rfl⟩
      · exact ⟨rfl, rfl, rfl⟩

theorem prepareBlock_scans (hg : Geometry nld) (ba : Nat) (s : Sys) :
    Scans s { (prepareBlock nld ba s).2 with hist := s.hist } :=
  have hw := prepareBlock_works hg ba s
  ⟨hw.rest, hw.length, rfl⟩

theorem writeSignatureLoop_scans (hg : Geometry nld) (signature : List Byte) (n ba : Nat) (s : Sys) :
    Scans s (writeSignatureLoop nld signature n ba s).2 := by
  induction n generalizing ba s with
  | zero => exact .refl s
  | succ n ih =>
      rw [writeSignatureLoop]
      have hprep := prepareBlock_scans hg ba s
      dsimp only
      split
      · exact hprep.trans (ih _ _)
      split
      · exact hprep.trans ⟨rfl, rfl, rfl⟩
      · refine hprep.trans (Scans.trans ?_ (ih _ _))
        exact ⟨rfl, length_setBlockStateRaw _ _ _, rfl⟩

theorem writeSignatureLoop_some {signature : List Byte} {n ba sig : Nat} (hn : n ≤ ba)
    (h : (writeSignatureLoop nld signature n ba s).1 = some sig) : ba < sig + n ∧ sig ≤ ba := by
  induction n generalizing ba s with
  | zero => simp [writeSignatureLoop] at h
  | succ n ih =>
      rw [writeSignatureLoop] at h
      dsimp only at h
      split at h
      · have := ih (by omega) h
        omega
      split at h
      · obtain rfl : ba = sig := by simpa using h
        omega
      · have := ih (by omega) h
        omega

/-! ### Building the tables -/

theorem remapTail_steps (hg : Geometry nld) {n lb : Nat} (hr : Regions s)
    (hlb : lb = s.ni.dataBlockCount) : Steps nld s (remapTail nld n lb s) := by
  induction n generalizing lb s with
  | zero => exact .refl
  | succ n ih =>
      subst hlb
      rw [remapTail]
      cases hok : (mapBlock nld s.ni.dataBlockCount s).1 with
      | false =>
          simp only [Bool.not_false, if_true]
          exact .single (.exhaust _ hok)
      | true =>
          simp only [Bool.not_true, Bool.false_eq_true, if_false]
          have hstep : Steps nld s _ := .single (.extend hok)
          refine hstep.trans (ih (hstep.regions hg hr) ?_)
          have hcount : (mapBlock nld s.ni.dataBlockCount s).2.ni.dataBlockCount
              = s.ni.dataBlockCount := by
            rcases mapBlock_cases nld s.ni.dataBlockCount hr with heq | ⟨heq, -⟩ | ⟨pb, heq, -⟩
            · rw [heq]
            · rw [heq] at hok
              cases hok
            · rw [heq]
          simp only [hcount]

/-- Where creation puts the top of the pool. -/
theorem createTop_bounds {top : Nat} (hsig : s.ni.signatureBa < nld.blockCount)
    (h : blockWalkDesc nld s.ni s.ni.signatureBa 1 s.ni.mgmtStartBa = some top) :
    s.ni.mgmtStartBa < top ∧ top < s.ni.signatureBa := by
  obtain ⟨hlo, hhi, -⟩ := walkDesc_some (by omega) h
  have hclamp : clampLimit nld s.ni.mgmtStartBa = s.ni.mgmtStartBa ∨
      clampLimit nld s.ni.mgmtStartBa = nld.blockCount - 1 := by
    unfold clampLimit
    split
    · exact .inr rfl
    · exact .inl rfl
  omega

/-- The state in which creation writes its tables. -/
def beforeTables (nld : LowerDevice) (top : Nat) (s : Sys) : Sys :=
  (generateInfoTableCache nld { s with ni := { s.ni with mappingBlocksTopBa := top } }).2

theorem createInfoTable_cases (hg : Geometry nld) (hsig : s.ni.signatureBa < nld.blockCount) :
    createInfoTable nld s = (false, s) ∨
    ∃ top, s.ni.mgmtStartBa < top ∧ top < s.ni.signatureBa ∧
      Settles nld (beforeTables nld top s) (rebuildInfoTable nld (beforeTables nld top s)) ∧
      (createInfoTable nld s = (false, (rebuildInfoTable nld (beforeTables nld top s)).2) ∨
        (rebuildInfoTable nld (beforeTables nld top s)).1 = true ∧
        Steps nld (rebuildInfoTable nld (beforeTables nld top s)).2 (createInfoTable nld s).2) := by
  unfold createInfoTable
  split
  · exact .inl rfl
  rename_i top htop
  obtain ⟨hlo, hhi⟩ := createTop_bounds hsig htop
  have hsettle : Settles nld (beforeTables nld top s)
      (rebuildInfoTable nld (beforeTables nld top s)) :=
    rebuildInfoTable_settles hg (generate_cache_ne_nil nld _) (by exact hlo.le) hhi
  refine .inr ⟨top, hlo, hhi, hsettle, ?_⟩
  change (if (!(rebuildInfoTable nld (beforeTables nld top s)).1) = true then
    (false, (rebuildInfoTable nld (beforeTables nld top s)).2) else _) = _ ∨ _
  cases hok : (rebuildInfoTable nld (beforeTables nld top s)).1 with
  | false =>
      left
      simp
  | true =>
      right
      refine ⟨rfl, ?_⟩
      have hr := hsettle.regions
      have hmap : Steps nld (rebuildInfoTable nld (beforeTables nld top s)).2
          (remapTail nld ((rebuildInfoTable nld (beforeTables nld top s)).2.ni.mgmtStartBa
            - (rebuildInfoTable nld (beforeTables nld top s)).2.ni.dataBlockCount)
            (rebuildInfoTable nld (beforeTables nld top s)).2.ni.dataBlockCount
            (rebuildInfoTable nld (beforeTables nld top s)).2) := remapTail_steps hg hr rfl
      have hupdate := hmap.tail Step.update
      change Steps nld _ (if (!(rebuildInfoTable nld (beforeTables nld top s)).1) = true then
        (false, (rebuildInfoTable nld (beforeTables nld top s)).2) else _ : Bool × Sys).2
      rw [hok]
      exact hupdate

/-! ### Creation as a whole -/

/-- The state in which creation writes the signature. -/
def beforeSigning (nld : LowerDevice) (s : Sys) : Sys :=
  let s := buildMappingTable nld
    (scanBadblocks nld { s with ni := { s.ni with mgmtStartBa := nld.mgmtStart } })
  { s with ni := { s.ni with signature := nld.newSignature } }

def Sys.setSignature (s : Sys) (ba : Nat) : Sys := { s with ni := { s.ni with signatureBa := ba } }

/-- The end of `createNew`, after the signature was written or not. -/
def afterSigning (nld : LowerDevice) (w : Option Nat × Sys) : Bool × Sys :=
  match w.1 with
  | none => (false, w.2)
  | some ba => createInfoTable nld (w.2.setSignature ba)

theorem beforeSigning_mgmtStartBa (nld : LowerDevice) (s : Sys) :
    (beforeSigning nld s).ni.mgmtStartBa = nld.mgmtStart := by
  have hscan := scanBadblocksLoop_scans nld nld.blockCount 0
    { s with ni := { s.ni with mgmtStartBa := nld.mgmtStart } }
  simp only [beforeSigning, buildMappingTable, scanBadblocks]
  rw [hscan.rest]

theorem createNew_eq (hrw : nld.readOnly = false) (s : Sys) :
    createNew nld s = afterSigning nld
      (writeSignature nld nld.mgmtStart nld.newSignature.bytes (beforeSigning nld s)) := by
  conv_rhs => rw [← beforeSigning_mgmtStartBa nld s]
  unfold createNew
  dsimp only
  rw [if_neg (by simp [hrw])]
  rfl

theorem createNew_cases (hg : Geometry nld) (hrw : nld.readOnly = false) (s : Sys) :
    (∃ t, Scans (beforeSigning nld s) t ∧ createNew nld s = (false, t)) ∨
    ∃ t ba, Scans (beforeSigning nld s) t ∧ nld.mgmtStart < ba ∧ ba < nld.blockCount ∧
      createNew nld s = createInfoTable nld (t.setSignature ba) := by
  have hscans : Scans (beforeSigning nld s) (writeSignature nld nld.mgmtStart
      nld.newSignature.bytes (beforeSigning nld s)).2 := writeSignatureLoop_scans hg _ _ _ _
  rw [createNew_eq hrw, afterSigning]
  split
  · exact .inl ⟨_, hscans, rfl⟩
  · rename_i ba hba
    obtain ⟨hlo, hhi⟩ := writeSignatureLoop_some (by omega) hba
    exact .inr ⟨_, ba, hscans, by omega, by omega, rfl⟩

/-- A chip that was created has its regions in order. -/
theorem createNew_regions (hg : Geometry nld) (hrw : nld.readOnly = false)
    (h : (createNew nld s).1 = true) : Regions (createNew nld s).2 := by
  rcases createNew_cases hg hrw s with ⟨t, -, heq⟩ | ⟨t, ba, -, -, hba, heq⟩
  · rw [heq] at h
    cases h
  rw [heq] at h ⊢
  rcases createInfoTable_cases (s := t.setSignature ba) hg hba with
    hfail | ⟨top, -, -, hsettle, hfail | ⟨-, hsteps⟩⟩
  · rw [hfail] at h
    cases h
  · rw [hfail] at h
    cases h
  · exact hsteps.regions hg hsettle.regions

/-- In every state of a chip that was created, whatever its device does, the main table, the backup
table, the pool and the signature lie in this order above the start of the management region. -/
theorem created_regions_ordered (hg : Geometry nld) (hrw : nld.readOnly = false) (d : Device)
    (hcreated : (createNew nld (fresh nld d)).1 = true) (ops : List Op) :
    let s := runOps nld ops (createNew nld (fresh nld d)).2
    (s.ni.mgmtStartBa ≤ s.ni.mappingBlocksBa ∧
      s.ni.mappingBlocksBa ≤ s.ni.mappingBlocksTopBa ∧
      s.ni.mappingBlocksTopBa < s.ni.signatureBa) ∧
    (s.ni.mainTableBa ≠ 0 → s.ni.backupTableBa ≠ 0 →
      s.hist.mainTableEba ≤ s.ni.backupTableBa) ∧
    (s.ni.mainTableBa ≠ 0 → s.ni.mgmtStartBa ≤ s.ni.mainTableBa ∧
      s.ni.mainTableBa < s.hist.mainTableEba ∧ s.hist.mainTableEba ≤ s.ni.mappingBlocksBa) ∧
    (s.ni.backupTableBa ≠ 0 → s.ni.mgmtStartBa ≤ s.ni.backupTableBa ∧
      s.ni.backupTableBa < s.hist.backupTableEba ∧
      s.hist.backupTableEba ≤ s.ni.mappingBlocksBa) := by
  intro s
  have hr : Regions s :=
    (runOps_steps hg (createNew_regions hg hrw hcreated) ops).regions hg
      (createNew_regions hg hrw hcreated)
  exact ⟨⟨hr.start_le, hr.le_top, hr.top_lt⟩, hr.apart, hr.main, hr.backup⟩

/-! ### A small chip -/

/-- `n` blocks of four pages; an info table takes one block up to 32 blocks. -/
def smallChip (n maxRatio : Nat) : LowerDevice where
  maxRatio := maxRatio
  maxReservedBlocks := 0
  create := true
  emptyPageEccOk := false
  readOnly := false
  size := n * 256
  erasesize := 256
  writesize := 64
  oobsize := 16
  hasIsBadBlock := true
  hasMarkBadBlock := true

def Answer.good : Answer := ⟨0, 0, 0, 0, false, .erased⟩

/-- A blank chip on which these blocks are marked, with a device that does not fail. -/
def blankDevice (marked : List Nat) : Device where
  flash := ⟨fun _ => 0xff, fun addr _ => if addr / 256 ∈ marked then 0 else 0xff⟩
  tape _ := .good
  pos := 0
  ops := []
  pageCache := []

theorem smallChip_geometry : Geometry (smallChip 16 8) :=
  ⟨by decide, by decide, by decide, by decide⟩

set_option maxRecDepth 100000 in
theorem created_regions_ordered_smallChip :
    (createNew (smallChip 16 8) (fresh (smallChip 16 8) (blankDevice []))).1 = true ∧
      let s := runOps (smallChip 16 8) [.markBad 0, .erase 256 256]
        (createNew (smallChip 16 8) (fresh (smallChip 16 8) (blankDevice []))).2
      s.ni.mgmtStartBa ≤ s.ni.mappingBlocksBa ∧ s.hist.mainTableEba ≤ s.ni.backupTableBa := by
  have hcreated : (createNew (smallChip 16 8) (fresh (smallChip 16 8) (blankDevice []))).1 = true := by
    decide +kernel
  have h := created_regions_ordered smallChip_geometry rfl (blankDevice []) hcreated
    [.markBad 0, .erase 256 256]
  exact ⟨hcreated, h.1.1, h.2.1 (by decide +kernel) (by decide +kernel)⟩

/-- On a read-only device `nmbm_create_new` succeeds and leaves no region in place. -/
theorem readOnly_not_ordered :
    Geometry { smallChip 16 8 with readOnly := true } ∧
    let nld := { smallChip 16 8 with readOnly := true }
    (createNew nld (fresh nld (blankDevice []))).1 = true ∧
      let s := runOps nld [] (createNew nld (fresh nld (blankDevice []))).2
      ¬ (s.ni.mgmtStartBa ≤ s.ni.mappingBlocksBa ∧
        s.ni.mappingBlocksBa ≤ s.ni.mappingBlocksTopBa ∧
        s.ni.mappingBlocksTopBa < s.ni.signatureBa) :=
  ⟨⟨by decide, by decide, by decide, by decide⟩, by decide +kernel⟩

end Immwrt.Nmbm
