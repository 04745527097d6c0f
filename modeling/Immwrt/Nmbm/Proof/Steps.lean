import Mathlib.Logic.Relation
import Immwrt.Nmbm.Ops
import Immwrt.Nmbm.Proof.Update

/-!
# What a public operation does, step by step

A public operation is a sequence of a few kinds of steps on the blocks that logical blocks are mapped
to: the device works on such a block, its state gets worse, a logical block is remapped or given up,
and the tables are updated. An invariant of the steps is an invariant of every run.
-/

namespace Immwrt.Nmbm

variable {nld : LowerDevice} {s s' s'' : Sys}

/-- The block logical block `lb` is mapped to. -/
def Sys.target (s : Sys) (lb : Nat) : Nat := (s.ni.mapping lb).toNat

/-! ### Remapping -/

/-- The three ways `nmbm_map_block` can go. -/
theorem mapBlock_cases (nld : LowerDevice) (lb : Nat) (hr : Regions s) :
    mapBlock nld lb s = (false, s) ∨
    (mapBlock nld lb s = (false,
      { (updateInfoTable nld (logMap s)).2 with
        ni := { (updateInfoTable nld (logMap s)).2.ni with
          mappingBlocksTopBa := (updateInfoTable nld (logMap s)).2.ni.mappingBlocksBa } }) ∧
      s.ni.getBlockState s.ni.mappingBlocksTopBa ≠ blockStGood) ∨
    ∃ pb : Nat, mapBlock nld lb s = (true,
      { logMap s with ni := { s.ni with
        blockMapping := s.ni.blockMapping.set lb pb
        mappingBlocksTopBa := s.ni.mappingBlocksTopBa - 1
        blockMappingChanged := s.ni.blockMappingChanged + 1 } }) ∧
      s.ni.mappingBlocksBa < s.ni.mappingBlocksTopBa ∧
      (s.ni.getBlockState s.ni.mappingBlocksTopBa = blockStGood → pb = s.ni.mappingBlocksTopBa) := by
  have hle := hr.le_top
  unfold mapBlock
  split
  · exact .inl rfl
  rename_i hne
  right
  have hclamp : clampLimit nld s.ni.mappingBlocksBa ≤ s.ni.mappingBlocksBa := clampLimit_le _
  have hgood : s.ni.getBlockState s.ni.mappingBlocksTopBa = blockStGood →
      blockWalkDesc nld (logMap s).ni (logMap s).ni.mappingBlocksTopBa 0
        (logMap s).ni.mappingBlocksBa = some s.ni.mappingBlocksTopBa := by
    intro hgood
    refine walkDesc_good hgood ?_
    show 0 < s.ni.mappingBlocksTopBa - clampLimit nld s.ni.mappingBlocksBa
    omega
  dsimp only
  split
  · rename_i hnone
    refine .inl ⟨rfl, fun h => ?_⟩
    rw [hgood h] at hnone
    cases hnone
  · rename_i pb hsome
    refine .inr ⟨pb, rfl, by omega, fun h => ?_⟩
    rw [hgood h] at hsome
    exact (Option.some.inj hsome).symm

/-! ### Steps -/

/-- One step of a public operation. -/
inductive Step (nld : LowerDevice) : Sys → Sys → Prop
  /-- the device is read, or its page cache used -/
  | idle {s : Sys} {d : Device} (htouch : Touches nld ∅ s.dev d) : Step nld s { s with dev := d }
  /-- the device works on the block of a logical block -/
  | work {s : Sys} {d : Device} (lb : Nat) (hlb : 0 ≤ s.ni.mapping lb)
      (htouch : Touches nld {s.target lb} s.dev d) : Step nld s { s with dev := d }
  /-- the block of a logical block is bad, or is to be replaced -/
  | degrade {s : Sys} (lb : Nat) (state : BlockSt) (hlb : 0 ≤ s.ni.mapping lb)
      (hstate : state ≠ blockStGood) :
      Step nld s { s with ni := s.ni.setBlockState (s.target lb) state }
  | remap {s : Sys} (lb : Nat) (hlb : 0 ≤ s.ni.mapping lb) (hok : (mapBlock nld lb s).1 = true) :
      Step nld s (retire (s.target lb) (mapBlock nld lb s).2)
  /-- a logical block is added at the end -/
  | extend {s : Sys} (hok : (mapBlock nld s.ni.dataBlockCount s).1 = true) :
      Step nld s { (mapBlock nld s.ni.dataBlockCount s).2 with
        ni := { (mapBlock nld s.ni.dataBlockCount s).2.ni with
          dataBlockCount := (mapBlock nld s.ni.dataBlockCount s).2.ni.dataBlockCount + 1 } }
  | exhaust {s : Sys} (lb : Nat) (hfail : (mapBlock nld lb s).1 = false) :
      Step nld s (mapBlock nld lb s).2
  | unmap {s t : Sys} (lb : Nat) (hlb : 0 ≤ s.ni.mapping lb)
      (ht : t = unmap lb s ∨ t = (unmap lb s).setBad (s.target lb)) : Step nld s (logUnmap lb t)
  | update {s : Sys} : Step nld s (updateInfoTable nld s).2

/-- Any number of steps. -/
abbrev Steps (nld : LowerDevice) : Sys → Sys → Prop := Relation.ReflTransGen (Step nld)

theorem Steps.single (h : Step nld s s') : Steps nld s s' := Relation.ReflTransGen.single h

theorem setBad_step (lb : Nat) (hlb : 0 ≤ s.ni.mapping lb) :
    Step nld s (s.setBad (s.target lb)) :=
  .degrade lb blockStBad hlb (by decide)

/-! ### The regions stay in order -/

theorem Regions.logMap (hr : Regions s) : Regions (logMap s) :=
  ⟨hr.start_le, hr.le_top, hr.top_lt, hr.main, hr.backup, hr.apart⟩

theorem Regions.setBlockState (hr : Regions s) (ba : Nat) (state : BlockSt) :
    Regions { s with ni := s.ni.setBlockState ba state } :=
  ⟨hr.start_le, hr.le_top, hr.top_lt, hr.main, hr.backup, hr.apart⟩

theorem Regions.setBad (hr : Regions s) (ba : Nat) : Regions (s.setBad ba) := hr.setBlockState ba _

theorem Regions.retire (hr : Regions s) (pb : Nat) : Regions (retire pb s) := by
  unfold Nmbm.retire
  split
  · exact hr.setBad pb
  · exact hr

theorem mapBlock_regions (hg : Geometry nld) (hr : Regions s) (lb : Nat) :
    Regions (mapBlock nld lb s).2 := by
  rcases mapBlock_cases nld lb hr with heq | ⟨heq, -⟩ | ⟨pb, heq, hlt, -⟩
  · rw [heq]
    exact hr
  · have hu := (updateInfoTable_keeps hg hr.logMap).2
    have htop := hu.le_top
    have hsig := hu.top_lt
    rw [heq]
    exact ⟨hu.start_le, le_rfl, lt_of_le_of_lt htop hsig, hu.main, hu.backup, hu.apart⟩
  · have hsig := hr.top_lt
    rw [heq]
    refine ⟨hr.start_le, ?_, ?_, hr.main, hr.backup, hr.apart⟩
    · show s.ni.mappingBlocksBa ≤ s.ni.mappingBlocksTopBa - 1
      omega
    · show s.ni.mappingBlocksTopBa - 1 < s.ni.signatureBa
      omega

theorem Step.regions (hg : Geometry nld) (h : Step nld s s') (hr : Regions s) : Regions s' := by
  cases h with
  | idle _ => exact ⟨hr.start_le, hr.le_top, hr.top_lt, hr.main, hr.backup, hr.apart⟩
  | work _ _ _ => exact ⟨hr.start_le, hr.le_top, hr.top_lt, hr.main, hr.backup, hr.apart⟩
  | degrade _ _ _ _ => exact ⟨hr.start_le, hr.le_top, hr.top_lt, hr.main, hr.backup, hr.apart⟩
  | remap lb _ _ => exact (mapBlock_regions hg hr lb).retire _
  | extend _ =>
      have hr' := mapBlock_regions hg hr s.ni.dataBlockCount
      exact ⟨hr'.start_le, hr'.le_top, hr'.top_lt, hr'.main, hr'.backup, hr'.apart⟩
  | exhaust lb _ => exact mapBlock_regions hg hr lb
  | unmap lb _ ht =>
      rcases ht with rfl | rfl <;>
        exact ⟨hr.start_le, hr.le_top, hr.top_lt, hr.main, hr.backup, hr.apart⟩
  | update => exact (updateInfoTable_keeps hg hr).2

theorem Steps.regions (hg : Geometry nld) (h : Steps nld s s') (hr : Regions s) : Regions s' := by
  induction h with
  | refl => exact hr
  | tail _ hstep ih => exact hstep.regions hg ih

/-! ### The operations are steps -/

theorem erasePhys_steps (hg : Geometry nld) (lb : Nat) (hlb : 0 ≤ s.ni.mapping lb) :
    Steps nld s (erasePhys nld (s.target lb) s).2 ∧
      (erasePhys nld (s.target lb) s).2.ni.mapping lb = s.ni.mapping lb := by
  unfold erasePhys
  split
  · exact ⟨.refl, rfl⟩
  have hcheck : Step nld s { s with dev := (checkBadPhysBlock nld (s.target lb) s.dev).2 } :=
    .idle (checkBadPhysBlock_touches nld _ _ _)
  dsimp only
  split
  · exact ⟨(Steps.single hcheck).tail (setBad_step lb hlb), rfl⟩
  have herase := eraseBlockAndCheck_touches hg.erasesize_pos (s.target lb)
    (checkBadPhysBlock nld (s.target lb) s.dev).2
  split
  · exact ⟨(Steps.single hcheck).tail (.work lb hlb herase), rfl⟩
  · refine ⟨?_, rfl⟩
    have hmark := herase.trans (markPhysBadBlock_touches hg (s.target lb) _)
    exact ((Steps.single hcheck).tail (.work lb hlb hmark)).tail (setBad_step lb hlb)

/-- Noting that a block is bad, after it was taken from its logical block. -/
theorem retire_unmap (lb pb : Nat) (s : Sys) :
    retire pb (unmap lb s) = unmap lb s ∨ retire pb (unmap lb s) = (unmap lb s).setBad pb := by
  unfold retire
  split
  · exact .inr rfl
  · exact .inl rfl

theorem mapBlock_failed_mapping (hg : Geometry nld) (hr : Regions s) (lb : Nat)
    (h : (mapBlock nld lb s).1 = false) :
    (mapBlock nld lb s).2.ni.blockMapping = s.ni.blockMapping := by
  rcases mapBlock_cases nld lb hr with heq | ⟨heq, -⟩ | ⟨pb, heq, -⟩
  · rw [heq]
  · rw [heq]
    simp only
    rw [(updateInfoTable_keeps hg hr.logMap).1.rest]
    rfl
  · rw [heq] at h
    cases h

theorem eraseLogicLoop_steps (hg : Geometry nld) (n lb : Nat) (hr : Regions s) :
    Steps nld s (eraseLogicLoop nld n lb s).2 := by
  induction n generalizing s with
  | zero => exact .refl
  | succ n ih =>
      rw [eraseLogicLoop]
      split
      · exact .refl
      rename_i hneg
      have hlb : 0 ≤ s.ni.mapping lb := by omega
      obtain ⟨hphys, hmap⟩ := erasePhys_steps hg lb hlb
      have hr' := hphys.regions hg hr
      have hlb' : 0 ≤ (erasePhys nld (s.target lb) s).2.ni.mapping lb := hmap ▸ hlb
      have htarget : (erasePhys nld (s.target lb) s).2.target lb = s.target lb := by
        show ((erasePhys nld (s.target lb) s).2.ni.mapping lb).toNat = (s.ni.mapping lb).toNat
        rw [hmap]
      dsimp only
      rw [show (s.ni.mapping lb).toNat = s.target lb from rfl]
      generalize (erasePhys nld (s.target lb) s).2 = e at hphys hr' hlb' htarget ⊢
      split
      · exact hphys
      cases hok : (mapBlock nld lb e).1 with
      | false =>
          have hmap' := mapBlock_failed_mapping hg hr' lb hok
          have hlb'' : 0 ≤ (mapBlock nld lb e).2.ni.mapping lb := by
            unfold Instance.mapping
            rw [hmap']
            exact hlb'
          have htarget' : (mapBlock nld lb e).2.target lb = s.target lb := by
            rw [← htarget]
            unfold Sys.target Instance.mapping
            rw [hmap']
          simp only [Bool.not_false, if_true]
          have hunmap := retire_unmap lb (s.target lb) (mapBlock nld lb e).2
          rw [← htarget'] at hunmap ⊢
          exact ((hphys.tail (.exhaust lb hok)).tail (.unmap lb hlb'' hunmap)).tail .update
      | true =>
          simp only [Bool.not_true, Bool.false_eq_true, if_false]
          have hremap : Step nld e (retire (e.target lb) (mapBlock nld lb e).2) :=
            .remap lb hlb' hok
          rw [htarget] at hremap
          have hsteps : Steps nld s _ := (hphys.tail hremap).tail Step.update
          exact hsteps.trans (ih (hsteps.regions hg hr))

theorem eraseBlockRangeLoop_steps (hg : Geometry nld) (n ba : Nat) (hr : Regions s) :
    Steps nld s (eraseBlockRangeLoop nld n ba s).2 := by
  induction n generalizing s ba with
  | zero => exact .refl
  | succ n ih =>
      rw [eraseBlockRangeLoop]
      have herase : Steps nld s (eraseLogicBlock nld ba s).2 := eraseLogicLoop_steps hg _ ba hr
      split
      · exact herase
      · exact herase.trans (ih _ (herase.regions hg hr))

theorem readLogicPage_step (nld : LowerDevice) (s : Sys) (addr : Nat) : Step nld s (readLogicPage nld addr s).2 := by
  have hidle : Step nld s s := .idle (.refl _ _)
  unfold readLogicPage
  dsimp only
  split
  · exact hidle
  split
  · exact hidle
  · exact .idle (readPhysPage_touches nld _ _ _)

theorem readRangeLoop_steps (n off size : Nat) (flips : Int) (eccErr : Bool) :
    Steps nld s (readRangeLoop nld n off size flips eccErr s).2 := by
  induction n generalizing s off size flips eccErr with
  | zero => exact .refl
  | succ n ih =>
      rw [readRangeLoop]
      split
      · exact .refl
      have hpage := Steps.single (readLogicPage_step nld s (off - off % nld.writesize))
      have hcache := hpage.tail (Step.idle (((Touches.refl ∅ _).cache (splice
        (readLogicPage nld (off - off % nld.writesize) s).2.dev.pageCache 0
        (readLogicPage nld (off - off % nld.writesize) s).1.2))))
      dsimp only
      split <;> split
      · exact hpage
      · exact hcache
      · exact hpage.trans (ih _ _ _ _)
      · exact hcache.trans (ih _ _ _ _)

theorem writeLogicPage_steps (hg : Geometry nld) (addr : Nat) (data oob : Option (List Byte))
    (mode : OobMode) : Steps nld s (writeLogicPage nld addr data oob mode s).2 := by
  unfold writeLogicPage
  dsimp only
  split
  · exact .refl
  rename_i hneg
  split
  · exact .refl
  have hlb : 0 ≤ s.ni.mapping (nld.addr2ba addr) := by omega
  have hblock : (nld.ba2addr (s.ni.mapping (nld.addr2ba addr)).toNat + addr % nld.erasesize)
      / nld.erasesize = s.target (nld.addr2ba addr) := by
    have hmod := Nat.mod_lt addr hg.erasesize_pos
    exact div_eq_of_block (by unfold Sys.target; omega) (by unfold Sys.target; omega)
  have hwrite := writePhysPage_touches nld
    (nld.ba2addr (s.ni.mapping (nld.addr2ba addr)).toNat + addr % nld.erasesize) data oob mode s.dev
  rw [hblock] at hwrite
  have hstep := Steps.single (.work (nld.addr2ba addr) hlb hwrite)
  split
  · exact hstep
  · exact (hstep.tail (.degrade (nld.addr2ba addr) blockStNeedRemap hlb (by decide))).tail .update

theorem writeRangeLoop_steps (hg : Geometry nld) (mode : OobMode) (n off : Nat)
    (data : List Byte) : Steps nld s (writeRangeLoop nld mode n off data s).2 := by
  induction n generalizing s off data with
  | zero => exact .refl
  | succ n ih =>
      rw [writeRangeLoop]
      split
      · exact .refl
      dsimp only
      split
      · have hpage := writeLogicPage_steps (s := s) hg (off - off % nld.writesize)
          (some (data.take (nld.chunk off data.length))) none mode
        split
        · exact hpage
        · exact hpage.trans (ih _ _)
      · generalize splice (splice s.dev.pageCache 0 (List.replicate (off % nld.writesize) 0xff))
          (off % nld.writesize) (data.take (nld.chunk off data.length)) = cache
        have hcache : Step nld s { s with dev := { s.dev with pageCache := cache } } :=
          .idle ((Touches.refl ∅ _).cache cache)
        have hpage := (Steps.single hcache).trans (writeLogicPage_steps hg
          (off - off % nld.writesize) (some (cache.take nld.writesize)) none mode)
        split
        · exact hpage
        · exact hpage.trans (ih _ _)

/-- Every public operation is a sequence of steps. -/
theorem Op.run_steps (hg : Geometry nld) (hr : Regions s) (op : Op) : Steps nld s (op.run nld s) := by
  cases op with
  | erase addr size =>
      simp only [Op.run, eraseBlockRange]
      split
      · exact .refl
      split
      · exact .refl
      split
      · exact .refl
      split
      · exact .refl
      · exact eraseBlockRangeLoop_steps hg _ _ hr
  | readRange addr size =>
      simp only [Op.run, Nmbm.readRange]
      split
      · exact .refl
      split
      · exact .refl
      split
      · exact .refl
      split
      · exact .refl
      · exact readRangeLoop_steps _ _ _ _ _
  | readPage addr =>
      simp only [Op.run, readSinglePage]
      split
      · exact .refl
      split
      · exact .refl
      · exact .single (readLogicPage_step nld s addr)
  | writeRange addr data mode =>
      simp only [Op.run, Nmbm.writeRange]
      split
      · exact .refl
      split
      · exact .refl
      split
      · exact .refl
      split
      · exact .refl
      · exact writeRangeLoop_steps hg _ _ _ _
  | writePage addr data oob mode =>
      simp only [Op.run, writeSinglePage]
      split
      · exact .refl
      split
      · exact .refl
      · exact writeLogicPage_steps hg _ _ _ _
  | markBad addr =>
      simp only [Op.run, markBadBlock]
      split
      · exact .refl
      split
      · exact .refl
      split
      · exact .refl
      rename_i hneg
      have hlb : 0 ≤ s.ni.mapping (nld.addr2ba addr) := by omega
      have hmark := Steps.single (.work (nld.addr2ba addr) hlb
        (markPhysBadBlock_touches hg (s.target (nld.addr2ba addr)) s.dev))
      exact (hmark.tail (.unmap (nld.addr2ba addr) hlb (.inr rfl))).tail .update

/-- A protected chip refuses every operation. -/
theorem Op.run_of_isProtected (hp : s.ni.isProtected = true) (op : Op) : op.run nld s = s := by
  cases op <;>
    simp [Op.run, eraseBlockRange, Nmbm.readRange, readSinglePage, Nmbm.writeRange, writeSinglePage,
      markBadBlock, Instance.refuses, hp]

theorem runOps_of_isProtected (hp : s.ni.isProtected = true) (ops : List Op) :
    runOps nld ops s = s := by
  induction ops with
  | nil => rfl
  | cons op ops ih =>
      rw [runOps, List.foldl_cons, Op.run_of_isProtected hp]
      exact ih

theorem runOps_steps (hg : Geometry nld) (hr : Regions s) (ops : List Op) :
    Steps nld s (runOps nld ops s) := by
  induction ops generalizing s with
  | nil => exact .refl
  | cons op ops ih =>
      have hop := op.run_steps hg hr
      exact hop.trans (ih (hop.regions hg hr))

end Immwrt.Nmbm
