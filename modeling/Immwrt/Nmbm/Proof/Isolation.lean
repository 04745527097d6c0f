import Immwrt.Nmbm.Proof.Mapping

/-!
# Logical blocks are kept apart

What an operation does to the chip it does to the blocks of the logical blocks that it addresses, and to the tables. As
long as the mapping is injective and fenced off (`Mapped`), the block of any other logical block is left alone, whatever
the device answers: a page that was written is the page that is read, until its own block is erased or written again.
-/

namespace Immwrt.Nmbm

variable {nld : LowerDevice} {s t u : Sys} {lb lb' : Nat}

/-- A created chip keeps its mapping injective and clear of the tables for as long as the top of the pool is good when it
is taken. -/
theorem created_mapped (hg : Geometry nld) (hrw : nld.readOnly = false) (d : Device)
    (hcreated : (createNew nld (fresh nld d)).1 = true) (ops : List Op)
    (htops : TopsGood (runOps nld ops (createNew nld (fresh nld d)).2)) :
    Mapped (runOps nld ops (createNew nld (fresh nld d)).2) := by
  have hr := createNew_regions hg hrw hcreated
  have hsteps := runOps_steps hg hr ops
  have hm := createNew_mapped hg hrw d hcreated fun state hmem => htops state ((hsteps.mapTops hg hr).mem hmem)
  exact hsteps.mapped hg hr hm htops

/-! ### A chip with a bad block -/

set_option maxRecDepth 100000 in
/-- On a small chip a block of the data area was bad, so the last logical block lies in the pool. -/
theorem markedChip_created : (createNew (smallChip 16 8) (fresh (smallChip 16 8) (blankDevice [2]))).1 = true := by
  decide +kernel

set_option maxRecDepth 100000 in
/-- A page of that logical block is written, and the first logical block given up. -/
theorem markedChip_topsGood :
    TopsGood (runOps (smallChip 16 8)
      ([] ++ .writePage 1856 (some (List.replicate 64 0xAB)) none .placeOob :: [.markBad 0])
      (createNew (smallChip 16 8) (fresh (smallChip 16 8) (blankDevice [2]))).2) := by
  have hstates : (runOps (smallChip 16 8)
      ([] ++ .writePage 1856 (some (List.replicate 64 0xAB)) none .placeOob :: [.markBad 0])
      (createNew (smallChip 16 8) (fresh (smallChip 16 8) (blankDevice [2]))).2).hist.mapTops = [blockStGood] := by
    decide +kernel
  rw [TopsGood, hstates]
  exact fun state hmem => List.mem_singleton.1 hmem

theorem created_mapped_markedChip :
    Mapped (runOps (smallChip 16 8)
      ([] ++ .writePage 1856 (some (List.replicate 64 0xAB)) none .placeOob :: [.markBad 0])
      (createNew (smallChip 16 8) (fresh (smallChip 16 8) (blankDevice [2]))).2) :=
  created_mapped smallChip_geometry rfl (blankDevice [2]) markedChip_created _ markedChip_topsGood

/-! ### A logical block that is left alone -/

/-- From `s` to `t` nothing happened to a logical block. -/
structure Left (nld : LowerDevice) (lb : Nat) (s t : Sys) : Prop where
  mapping : t.ni.mapping lb = s.ni.mapping lb
  flash : Flash.Same nld (s.target lb) s.dev.flash t.dev.flash
  state : t.ni.getBlockState (s.target lb) = s.ni.getBlockState (s.target lb)
  count : t.ni.dataBlockCount = s.ni.dataBlockCount

theorem Left.target (h : Left nld lb s t) : t.target lb = s.target lb := by
  rw [Sys.target, Sys.target, h.mapping]

theorem Left.refl (s : Sys) : Left nld lb s s := ⟨rfl, (Flash.same_equivalence _).refl _, rfl, rfl⟩

theorem Left.trans (h : Left nld lb s t) (h' : Left nld lb t u) : Left nld lb s u := by
  refine ⟨h'.mapping.trans h.mapping, ?_, ?_, h'.count.trans h.count⟩
  · have hflash := h'.flash
    rw [h.target] at hflash
    exact (Flash.same_equivalence _).trans h.flash hflash
  · have hstate := h'.state
    rw [h.target] at hstate
    exact hstate.trans h.state

section Left

variable (hm : Mapped s) (hlb : 0 ≤ s.ni.mapping lb)

include hm hlb

theorem target_ne (hlb' : 0 ≤ s.ni.mapping lb') (hne : lb' ≠ lb) : s.target lb ≠ s.target lb' := by
  have hinj := hm.injective lb' lb hne hlb' hlb
  unfold Sys.target
  omega

theorem Left.work {d : Device} (hlb' : 0 ≤ s.ni.mapping lb') (hne : lb' ≠ lb)
    (htouch : Touches nld {s.target lb'} s.dev d) : Left nld lb s { s with dev := d } :=
  ⟨rfl, htouch.agreeOff _ (target_ne hm hlb hlb' hne), rfl, rfl⟩

theorem Left.degrade (hlb' : 0 ≤ s.ni.mapping lb') (hne : lb' ≠ lb) (state : BlockSt) :
    Left nld lb s { s with ni := s.ni.setBlockState (s.target lb') state } :=
  ⟨rfl, (Flash.same_equivalence _).refl _, getBlockStateRaw_set_of_ne _ state (target_ne hm hlb hlb' hne), rfl⟩

/-- The tables are written between the data and the pool. -/
theorem Left.keeps (h : Keeps nld s t) : Left nld lb s t := by
  have hfence := hm.fenced lb hlb
  have hout : ¬ (s.ni.mgmtStartBa ≤ s.target lb ∧ s.target lb < s.ni.mappingBlocksTopBa) := by
    unfold Sys.target
    omega
  refine ⟨?_, h.touches.agreeOff _ hout, ?_, ?_⟩
  · unfold Instance.mapping
    rw [h.rest]
  · exact (h.state _).resolve_right fun hstate => hout ⟨hstate.1, hstate.2.1⟩
  · rw [h.rest]

end Left

theorem Left.idle {d : Device} (htouch : Touches nld ∅ s.dev d) : Left nld lb s { s with dev := d } :=
  ⟨rfl, htouch.agreeOff _ (Set.notMem_empty _), rfl, rfl⟩

theorem mapping_set_ne (ni : Instance) (hne : lb' ≠ lb) (v : Int) :
    ({ ni with blockMapping := ni.blockMapping.set lb' v } : Instance).mapping lb = ni.mapping lb := by
  rw [mapping_set, if_neg fun h => hne h.1.symm]

theorem Left.unmap (hne : lb' ≠ lb) : Left nld lb s (Nmbm.unmap lb' s) :=
  ⟨mapping_set_ne s.ni hne (-1), (Flash.same_equivalence _).refl _, rfl, rfl⟩

theorem Left.mapBlock (hg : Geometry nld) (hr : Regions s) (hm : Mapped s) (hlb : 0 ≤ s.ni.mapping lb) (hne : lb' ≠ lb) :
    Left nld lb s (Nmbm.mapBlock nld lb' s).2 := by
  rcases mapBlock_cases nld lb' hr with heq | ⟨heq, -⟩ | ⟨pb, heq, -⟩
  · rw [heq]
    exact .refl s
  · have hm' : Mapped (logMap s) := ⟨hm.fenced, hm.injective, hm.signature, hm.clear⟩
    have hlog : Left nld lb s (logMap s) := ⟨rfl, (Flash.same_equivalence _).refl _, rfl, rfl⟩
    have hkept := Left.keeps hm' hlb (updateInfoTable_keeps hg hr.logMap).1
    rw [heq]
    exact hlog.trans ⟨hkept.mapping, hkept.flash, hkept.state, hkept.count⟩
  · rw [heq]
    exact ⟨mapping_set_ne s.ni hne pb, (Flash.same_equivalence _).refl _, rfl, rfl⟩

/-! ### Runs that leave it alone -/

/-- A run of steps that leaves a mapped block alone, as long as the mapping is sound. -/
structure Leaves (nld : LowerDevice) (lb : Nat) (s t : Sys) : Prop where
  steps : Steps nld s t
  left : Mapped s → TopsGood t → 0 ≤ s.ni.mapping lb → Left nld lb s t

theorem Leaves.refl (s : Sys) : Leaves nld lb s s := ⟨.refl, fun _ _ _ => .refl s⟩

theorem Leaves.step (h : Step nld s t) (hleft : Mapped s → 0 ≤ s.ni.mapping lb → Left nld lb s t) : Leaves nld lb s t :=
  ⟨.single h, fun hm _ hlb => hleft hm hlb⟩

theorem Leaves.trans (hg : Geometry nld) (hr : Regions s) (h : Leaves nld lb s t) (h' : Leaves nld lb t u) :
    Leaves nld lb s u := by
  refine ⟨h.steps.trans h'.steps, fun hm htops hlb => ?_⟩
  have htops' : TopsGood t := fun state hmem =>
    htops state ((h'.steps.mapTops hg (h.steps.regions hg hr)).mem hmem)
  have hfst := h.left hm htops' hlb
  have hsnd := h'.left (h.steps.mapped hg hr hm htops') htops (by rw [hfst.mapping]; exact hlb)
  exact hfst.trans hsnd

theorem Leaves.idle {d : Device} (htouch : Touches nld ∅ s.dev d) : Leaves nld lb s { s with dev := d } :=
  .step (.idle htouch) fun _ _ => .idle htouch

theorem Leaves.update (hg : Geometry nld) (hr : Regions s) : Leaves nld lb s (updateInfoTable nld s).2 :=
  .step .update fun hm hlb => .keeps hm hlb (updateInfoTable_keeps hg hr).1

theorem Leaves.degrade (hlb' : 0 ≤ s.ni.mapping lb') (hne : lb' ≠ lb) {state : BlockSt} (hstate : state ≠ blockStGood) :
    Leaves nld lb s { s with ni := s.ni.setBlockState (s.target lb') state } :=
  .step (.degrade lb' state hlb' hstate) fun hm hlb => .degrade hm hlb hlb' hne state

theorem Leaves.work {d : Device} (hlb' : 0 ≤ s.ni.mapping lb') (hne : lb' ≠ lb)
    (htouch : Touches nld {s.target lb'} s.dev d) : Leaves nld lb s { s with dev := d } :=
  .step (.work lb' hlb' htouch) fun hm hlb => .work hm hlb hlb' hne htouch

/-! ### Erasing -/

theorem erasePhys_leaves (hg : Geometry nld) (hr : Regions s) (hlb' : 0 ≤ s.ni.mapping lb') (hne : lb' ≠ lb) :
    Leaves nld lb s (erasePhys nld (s.target lb') s).2 := by
  unfold erasePhys
  split
  · exact .refl s
  have hbad : blockStBad ≠ blockStGood := by decide
  have hset : ∀ d : Device, Leaves nld lb { s with dev := d } (Sys.setBad { s with dev := d } (s.target lb')) :=
    fun d => .degrade (s := { s with dev := d }) hlb' hne hbad
  have hcheck : Leaves nld lb s { s with dev := (checkBadPhysBlock nld (s.target lb') s.dev).2 } :=
    .idle (checkBadPhysBlock_touches nld _ _ _)
  dsimp only
  split
  · exact hcheck.trans hg hr (hset _)
  have herase := eraseBlockAndCheck_touches hg.erasesize_pos (s.target lb')
    (checkBadPhysBlock nld (s.target lb') s.dev).2
  generalize (checkBadPhysBlock nld (s.target lb') s.dev).2 = c at hcheck herase ⊢
  have hwork : ∀ d : Device, Touches nld {s.target lb'} c d → Leaves nld lb { s with dev := c } { s with dev := d } :=
    fun d htouch => .work (s := { s with dev := c }) hlb' hne htouch
  split
  · exact hcheck.trans hg hr (hwork _ herase)
  · have hmark := hcheck.trans hg hr (hwork _ (herase.trans (markPhysBadBlock_touches hg (s.target lb') _)))
    exact hmark.trans hg hr (hset _)

theorem retire_left (hm : Mapped s) (hlb : 0 ≤ s.ni.mapping lb) (hlb' : 0 ≤ s.ni.mapping lb') (hne : lb' ≠ lb)
    (ht : Left nld lb s t) : Left nld lb s (retire (s.target lb') t) := by
  unfold retire
  split
  · refine ⟨ht.mapping, ht.flash, ?_, ht.count⟩
    exact (getBlockStateRaw_set_of_ne _ _ (target_ne hm hlb hlb' hne)).trans ht.state
  · exact ht

theorem eraseLogicLoop_leaves (hg : Geometry nld) (hne : lb' ≠ lb) (n : Nat) (hr : Regions s) :
    Leaves nld lb s (eraseLogicLoop nld n lb' s).2 := by
  induction n generalizing s with
  | zero => exact .refl s
  | succ n ih =>
      rw [eraseLogicLoop]
      split
      · exact .refl s
      rename_i hneg
      have hlb' : 0 ≤ s.ni.mapping lb' := by omega
      have hphys : Leaves nld lb s (erasePhys nld (s.target lb') s).2 := erasePhys_leaves hg hr hlb' hne
      have hmap := (erasePhys_steps hg lb' hlb').2
      have hr' := hphys.steps.regions hg hr
      dsimp only
      rw [show (s.ni.mapping lb').toNat = s.target lb' from rfl]
      have htarget : (erasePhys nld (s.target lb') s).2.target lb' = s.target lb' := by
        rw [Sys.target, hmap, Sys.target]
      rw [← hmap] at hlb'
      generalize (erasePhys nld (s.target lb') s).2 = e at hphys hmap hr' hlb' htarget ⊢
      split
      · exact hphys
      rw [← htarget]
      cases hok : (mapBlock nld lb' e).1 with
      | false =>
          have hmapping := mapBlock_failed_mapping hg hr' lb' hok
          have hexhaust : Leaves nld lb e (mapBlock nld lb' e).2 :=
            .step (.exhaust lb' hok) fun hm hlb => .mapBlock hg hr' hm hlb hne
          have hr'' := hexhaust.steps.regions hg hr'
          have hlb'' : 0 ≤ (mapBlock nld lb' e).2.ni.mapping lb' := by
            unfold Instance.mapping
            rw [hmapping]
            exact hlb'
          have htarget' : (mapBlock nld lb' e).2.target lb' = e.target lb' := by
            unfold Sys.target Instance.mapping
            rw [hmapping]
          have hunmap : Leaves nld lb (mapBlock nld lb' e).2
              (logUnmap lb' (retire (e.target lb') (Nmbm.unmap lb' (mapBlock nld lb' e).2))) := by
            rw [← htarget']
            refine .step (.unmap lb' hlb'' (retire_unmap lb' _ _)) fun hm hlb => ?_
            have hleft : Left nld lb _ _ := retire_left hm hlb hlb'' hne (.unmap hne)
            exact ⟨hleft.mapping, hleft.flash, hleft.state, hleft.count⟩
          have hgiven := (hphys.trans hg hr hexhaust).trans hg hr hunmap
          exact hgiven.trans hg hr (.update hg (hgiven.steps.regions hg hr))
      | true =>
          have hremap : Leaves nld lb e (retire (e.target lb') (mapBlock nld lb' e).2) :=
            .step (.remap lb' hlb' hok) fun hm hlb =>
              retire_left hm hlb hlb' hne (.mapBlock hg hr' hm hlb hne)
          have hremapped := hphys.trans hg hr hremap
          have hturn := hremapped.trans hg hr (.update hg (hremapped.steps.regions hg hr))
          exact hturn.trans hg hr (ih (hturn.steps.regions hg hr))

theorem eraseBlockRangeLoop_leaves (hg : Geometry nld) (n ba : Nat) (hoff : ∀ i < n, ba + i ≠ lb) (hr : Regions s) :
    Leaves nld lb s (eraseBlockRangeLoop nld n ba s).2 := by
  induction n generalizing s ba with
  | zero => exact .refl s
  | succ n ih =>
      rw [eraseBlockRangeLoop]
      have herase : Leaves nld lb s (eraseLogicBlock nld ba s).2 :=
        eraseLogicLoop_leaves hg (hoff 0 (Nat.succ_pos n)) _ hr
      split
      · exact herase
      · refine herase.trans hg hr (ih (ba + 1) (fun i hi => ?_) (herase.steps.regions hg hr))
        have hnext := hoff (i + 1) (by omega)
        rwa [← Nat.add_assoc, Nat.add_right_comm] at hnext

/-! ### Reading and writing -/

theorem readLogicPage_leaves (nld : LowerDevice) (lb : Nat) (s : Sys) (addr : Nat) :
    Leaves nld lb s (readLogicPage nld addr s).2 := by
  unfold readLogicPage
  dsimp only
  split
  · exact .refl s
  split
  · exact .refl s
  · exact .idle (readPhysPage_touches nld _ _ _)

theorem readRangeLoop_leaves (hg : Geometry nld) (n off size : Nat) (flips : Int) (eccErr : Bool) (hr : Regions s) :
    Leaves nld lb s (readRangeLoop nld n off size flips eccErr s).2 := by
  induction n generalizing s off size flips eccErr with
  | zero => exact .refl s
  | succ n ih =>
      rw [readRangeLoop]
      split
      · exact .refl s
      have hpage := readLogicPage_leaves nld lb s (off - off % nld.writesize)
      have hcache := hpage.trans hg hr (.idle ((Touches.refl ∅ _).cache (splice
        (readLogicPage nld (off - off % nld.writesize) s).2.dev.pageCache 0
        (readLogicPage nld (off - off % nld.writesize) s).1.2)))
      dsimp only
      split <;> split
      · exact hpage
      · exact hcache
      · exact hpage.trans hg hr (ih _ _ _ _ (hpage.steps.regions hg hr))
      · exact hcache.trans hg hr (ih _ _ _ _ (hcache.steps.regions hg hr))

theorem writeLogicPage_leaves (hg : Geometry nld) {addr : Nat} (hne : nld.addr2ba addr ≠ lb)
    (data oob : Option (List Byte)) (mode : OobMode) (hr : Regions s) :
    Leaves nld lb s (writeLogicPage nld addr data oob mode s).2 := by
  unfold writeLogicPage
  dsimp only
  split
  · exact .refl s
  rename_i hneg
  split
  · exact .refl s
  have hlb' : 0 ≤ s.ni.mapping (nld.addr2ba addr) := by omega
  have hblock : (nld.ba2addr (s.ni.mapping (nld.addr2ba addr)).toNat + addr % nld.erasesize) / nld.erasesize
      = s.target (nld.addr2ba addr) := by
    have hmod := Nat.mod_lt addr hg.erasesize_pos
    exact div_eq_of_block (Nat.le_add_right _ _) (Nat.add_lt_add_left hmod _)
  have hwrite := writePhysPage_touches nld
    (nld.ba2addr (s.ni.mapping (nld.addr2ba addr)).toNat + addr % nld.erasesize) data oob mode s.dev
  rw [hblock] at hwrite
  generalize writePhysPage nld (nld.ba2addr (s.ni.mapping (nld.addr2ba addr)).toNat + addr % nld.erasesize) data oob
    mode s.dev = w at hwrite ⊢
  have hpage : Leaves nld lb s { s with dev := w.2 } := .work hlb' hne hwrite
  split
  · exact hpage
  · have hbad : blockStNeedRemap ≠ blockStGood := by decide
    have hset := hpage.trans hg hr (.degrade (s := { s with dev := w.2 }) hlb' hne hbad)
    exact hset.trans hg hr (.update hg (hset.steps.regions hg hr))

theorem writeRangeLoop_leaves (hg : Geometry nld) (mode : OobMode) (n off : Nat) (data : List Byte)
    (hoff : ∀ x, off ≤ x → x < off + data.length → nld.addr2ba x ≠ lb) (hr : Regions s) :
    Leaves nld lb s (writeRangeLoop nld mode n off data s).2 := by
  induction n generalizing s off data with
  | zero => exact .refl s
  | succ n ih =>
      rw [writeRangeLoop]
      split
      · exact .refl s
      rename_i hdata
      have hpos : 0 < data.length := by
        rw [List.length_pos_iff]
        rintro rfl
        exact hdata rfl
      have hne : nld.addr2ba (off - off % nld.writesize) ≠ lb := by
        rw [LowerDevice.addr2ba, hg.page_div]
        exact hoff off (Nat.le_refl off) (by omega)
      have hrest : ∀ x, off + nld.chunk off data.length ≤ x →
          x < off + nld.chunk off data.length + (data.drop (nld.chunk off data.length)).length →
            nld.addr2ba x ≠ lb := by
        intro x hlo hhi
        have hle := nld.chunk_le off data.length
        rw [List.length_drop] at hhi
        exact hoff x (by omega) (by omega)
      dsimp only
      split
      · have hpage := writeLogicPage_leaves (s := s) hg hne (some (data.take (nld.chunk off data.length))) none mode hr
        split
        · exact hpage
        · exact hpage.trans hg hr (ih _ _ hrest (hpage.steps.regions hg hr))
      · generalize splice (splice s.dev.pageCache 0 (List.replicate (off % nld.writesize) 0xff))
          (off % nld.writesize) (data.take (nld.chunk off data.length)) = cache
        have hcache : Leaves nld lb s { s with dev := { s.dev with pageCache := cache } } :=
          .idle ((Touches.refl ∅ _).cache cache)
        have hpage := hcache.trans hg hr (writeLogicPage_leaves hg hne (some (cache.take nld.writesize)) none mode
          (hcache.steps.regions hg hr))
        split
        · exact hpage
        · exact hpage.trans hg hr (ih _ _ hrest (hpage.steps.regions hg hr))

/-! ### Whole runs -/

/-- The logical blocks that an operation may erase, write or give up. -/
def Op.Addresses (nld : LowerDevice) (lb : Nat) : Op → Prop
  | .erase addr size => nld.addr2ba addr ≤ lb ∧ nld.ba2addr lb < addr + size
  | .readRange _ _ => False
  | .readPage _ => False
  | .writeRange addr data _ => nld.addr2ba addr ≤ lb ∧ nld.ba2addr lb < addr + data.length
  | .writePage addr _ _ _ => lb = nld.addr2ba addr
  | .markBad addr => lb = nld.addr2ba addr

/-- An operation leaves the logical blocks alone that it does not address. -/
theorem Op.run_leaves (hg : Geometry nld) (hr : Regions s) (op : Op) (hoff : ¬ op.Addresses nld lb) :
    Leaves nld lb s (op.run nld s) := by
  cases op with
  | erase addr size =>
      simp only [Op.run, eraseBlockRange]
      split
      · exact .refl s
      split
      · exact .refl s
      split
      · exact .refl s
      split
      · exact .refl s
      rename_i hsize
      refine eraseBlockRangeLoop_leaves hg _ _ (fun i hi heq => hoff ?_) hr
      have hlast : nld.addr2ba ((addr + size + 2 ^ 64 - 1) % 2 ^ 64) * nld.erasesize ≤
          (addr + size + 2 ^ 64 - 1) % 2 ^ 64 := Nat.div_mul_le_self _ _
      have hmod := Nat.mod_le (nld.addr2ba ((addr + size + 2 ^ 64 - 1) % 2 ^ 64)) (2 ^ 32)
      have hlb : lb * nld.erasesize ≤ nld.addr2ba ((addr + size + 2 ^ 64 - 1) % 2 ^ 64) * nld.erasesize :=
        Nat.mul_le_mul_right _ (by omega)
      refine ⟨by omega, ?_⟩
      rw [LowerDevice.ba2addr]
      omega
  | readRange addr size =>
      simp only [Op.run, Nmbm.readRange]
      split
      · exact .refl s
      split
      · exact .refl s
      split
      · exact .refl s
      split
      · exact .refl s
      · exact readRangeLoop_leaves hg _ _ _ _ _ hr
  | readPage addr =>
      simp only [Op.run, readSinglePage]
      split
      · exact .refl s
      split
      · exact .refl s
      · exact readLogicPage_leaves nld lb s addr
  | writeRange addr data mode =>
      simp only [Op.run, Nmbm.writeRange]
      split
      · exact .refl s
      split
      · exact .refl s
      split
      · exact .refl s
      split
      · exact .refl s
      refine writeRangeLoop_leaves hg _ _ _ _ (fun x hlo hhi heq => hoff ⟨?_, ?_⟩) hr
      · rw [← heq]
        exact Nat.div_le_div_right hlo
      · rw [← heq]
        exact (Nat.div_mul_le_self x nld.erasesize).trans_lt hhi
  | writePage addr data oob mode =>
      simp only [Op.run, writeSinglePage]
      split
      · exact .refl s
      split
      · exact .refl s
      · exact writeLogicPage_leaves hg (fun heq => hoff heq.symm) data oob mode hr
  | markBad addr =>
      have hne : nld.addr2ba addr ≠ lb := fun heq => hoff heq.symm
      simp only [Op.run, markBadBlock]
      split
      · exact .refl s
      split
      · exact .refl s
      split
      · exact .refl s
      rename_i hneg
      have hlb' : 0 ≤ s.ni.mapping (nld.addr2ba addr) := by omega
      have htouch := markPhysBadBlock_touches hg (s.target (nld.addr2ba addr)) s.dev
      generalize hd : markPhysBadBlock nld (s.target (nld.addr2ba addr)) s.dev = d at htouch
      have hmark : Leaves nld lb s { s with dev := d } := .work hlb' hne htouch
      have hunmap : Leaves nld lb { s with dev := d } (logUnmap (nld.addr2ba addr)
          (Sys.setBad { Nmbm.unmap (nld.addr2ba addr) s with dev := d } (s.target (nld.addr2ba addr)))) := by
        refine .step (.unmap (s := { s with dev := d }) (nld.addr2ba addr) hlb' (.inr rfl)) fun hm hlb => ?_
        have hleft : Left nld lb { s with dev := d } (Nmbm.unmap (nld.addr2ba addr) { s with dev := d }) := .unmap hne
        exact ⟨hleft.mapping, hleft.flash, getBlockStateRaw_set_of_ne _ _ (target_ne hm hlb hlb' hne), rfl⟩
      have hgiven := hmark.trans hg hr hunmap
      have hupdate := hgiven.trans hg hr (.update hg (hgiven.steps.regions hg hr))
      rw [← hd] at hupdate
      exact hupdate

theorem runOps_leaves (hg : Geometry nld) (hr : Regions s) (ops : List Op) (hoff : ∀ op ∈ ops, ¬ op.Addresses nld lb) :
    Leaves nld lb s (runOps nld ops s) := by
  induction ops generalizing s with
  | nil => exact .refl s
  | cons op ops ih =>
      rw [List.forall_mem_cons] at hoff
      have hop := op.run_leaves hg hr hoff.1
      exact hop.trans hg hr (ih (hop.steps.regions hg hr) hoff.2)

/-! ### A page that was written -/

section Page

variable (hg : Geometry nld) {addr : Nat} {data : List Byte} {oob : Option (List Byte)} {mode : OobMode}
  (haligned : nld.writesize ∣ addr) (hlen : data.length = nld.writesize)

include hg haligned

/-- A page that starts in a block ends in it. -/
theorem page_in_block {x : Nat} (hlo : addr ≤ x) (hhi : x < addr + nld.writesize) :
    x / nld.erasesize = addr / nld.erasesize := by
  obtain ⟨k, rfl⟩ := haligned
  have hws := hg.writesize_pos
  have hpage : x - x % nld.writesize = nld.writesize * k := by
    have hdiv : x / nld.writesize = k := by
      apply Nat.div_eq_of_lt_le
      · rwa [Nat.mul_comm]
      · rw [Nat.succ_mul, Nat.mul_comm]
        exact hhi
    have hsum := Nat.div_add_mod x nld.writesize
    rw [hdiv] at hsum
    omega
  rw [← hg.page_div x, hpage]

include hlen

/-- A page that was programmed holds what was sent, whatever happened to its spare area. -/
theorem writePhysPage_bytes {d : Device} (h : (writePhysPage nld addr (some data) oob mode d).1 = true) :
    bytesAt (writePhysPage nld addr (some data) oob mode d).2.flash.mem addr nld.writesize = data := by
  unfold writePhysPage at h ⊢
  split
  · rename_i hro
    rw [if_pos hro] at h
    cases h
  rename_i hro
  rw [if_neg hro] at h
  generalize tryCount = n at h ⊢
  induction n generalizing d with
  | zero => cases h
  | succ n ih =>
      rw [writePhysPageTry] at h ⊢
      split
      · rename_i hret
        simp only [Device.writePage] at hret
        have hsame : bytesAt (d.writePage nld addr (some data) oob mode).2.flash.mem addr nld.writesize =
            bytesAt (store d.flash.mem addr data) addr data.length := by
          rw [hlen]
          refine bytesAt_congr fun x hlo hhi => ?_
          simp only [Device.writePage, Device.record, hret, if_true, Flash.withBlock]
          rw [if_pos (page_in_block hg haligned hlo hhi)]
          rfl
        rw [hsame, bytesAt_store_self]
      · rename_i hret
        rw [if_neg hret] at h
        exact ih h

omit hlen haligned in
/-- Where a page of a logical block is. -/
theorem physAddr_div (pb : Nat) : (nld.ba2addr pb + addr % nld.erasesize) / nld.erasesize = pb :=
  div_eq_of_block (Nat.le_add_right _ _) (Nat.add_lt_add_left (Nat.mod_lt addr hg.erasesize_pos) _)

omit hlen in
theorem physAddr_aligned (pb : Nat) : nld.writesize ∣ nld.ba2addr pb + addr % nld.erasesize :=
  (hg.writesize_dvd.mul_left pb).add ((Nat.dvd_mod_iff hg.writesize_dvd).2 haligned)

end Page

/-- The parts of a page write that succeeds. -/
theorem writeSinglePage_zero {addr : Nat} {data oob : Option (List Byte)} {mode : OobMode}
    (h : (writeSinglePage nld addr data oob mode s).1 = 0) :
    addr < nld.ba2addr s.ni.dataBlockCount ∧ 0 ≤ s.ni.mapping (nld.addr2ba addr) ∧
      s.ni.getBlockState (s.target (nld.addr2ba addr)) ≠ blockStBad ∧
      ∃ w, writePhysPage nld (nld.ba2addr (s.target (nld.addr2ba addr)) + addr % nld.erasesize) data oob mode s.dev =
        (true, w) ∧ (writeSinglePage nld addr data oob mode s).2 = { s with dev := w } := by
  have hrofs : -erofs ≠ 0 := by decide
  have hinval : -einval ≠ 0 := by decide
  have hio : -eio ≠ 0 := by decide
  unfold writeSinglePage at h ⊢
  split at h
  case isTrue => exact absurd h hrofs
  case isFalse href =>
    rw [if_neg href]
    split at h
    case isTrue => exact absurd h hinval
    case isFalse hcount =>
      rw [if_neg hcount]
      unfold writeLogicPage at h ⊢
      dsimp only at h ⊢
      split at h
      case isTrue => exact absurd h hio
      case isFalse hmap =>
        rw [if_neg hmap]
        split at h
        case isTrue => exact absurd h hio
        case isFalse hstate =>
          rw [if_neg hstate]
          split at h
          case isFalse => exact absurd h hio
          case isTrue hwrite =>
            rw [if_pos hwrite]
            exact ⟨Nat.lt_of_not_le hcount, Int.not_lt.1 hmap, hstate, _, Prod.ext hwrite rfl, rfl⟩

/-- A page of a created chip that was written is the page that is read after any run of operations on other blocks,
whatever the device did, and a device that does not fail delivers it. -/
theorem written_page_kept (hg : Geometry nld) (hrw : nld.readOnly = false) (d : Device)
    (hcreated : (createNew nld (fresh nld d)).1 = true) (before after : List Op) {addr : Nat} {data : List Byte}
    {oob : Option (List Byte)} {mode : OobMode} (haligned : nld.writesize ∣ addr) (hlen : data.length = nld.writesize)
    (hwritten : (writeSinglePage nld addr (some data) oob mode
      (runOps nld before (createNew nld (fresh nld d)).2)).1 = 0)
    (hoff : ∀ op ∈ after, ¬ op.Addresses nld (nld.addr2ba addr))
    (htops : TopsGood (runOps nld (before ++ .writePage addr (some data) oob mode :: after)
      (createNew nld (fresh nld d)).2)) :
    let t := runOps nld (before ++ .writePage addr (some data) oob mode :: after) (createNew nld (fresh nld d)).2
    (0 ≤ (readSinglePage nld addr t).1.1 → (readSinglePage nld addr t).1.2 = data) ∧
      (t.ni.isProtected = false → t.dev.Healthy → 0 ≤ (readSinglePage nld addr t).1.1) := by
  intro t
  have hr := createNew_regions hg hrw hcreated
  have hrun : t = runOps nld after (writeSinglePage nld addr (some data) oob mode
      (runOps nld before (createNew nld (fresh nld d)).2)).2 := List.foldl_append
  have hsteps := runOps_steps hg hr before
  have hmapped := createNew_mapped hg hrw d hcreated
  generalize hs : runOps nld before (createNew nld (fresh nld d)).2 = s at hwritten hrun hsteps
  obtain ⟨hcount, hlb, hstate, w, hwrite, hsys⟩ := writeSinglePage_zero hwritten
  have hr' := hsteps.regions hg hr
  rw [hsys] at hrun
  have hwrote : Step nld s { s with dev := w } := by
    refine .work (nld.addr2ba addr) hlb ?_
    have htouch := writePhysPage_touches nld (nld.ba2addr (s.target (nld.addr2ba addr)) + addr % nld.erasesize)
      (some data) oob mode s.dev
    rwa [physAddr_div hg, hwrite] at htouch
  have hr'' := hwrote.regions hg hr'
  have hleaves := runOps_leaves hg hr'' after hoff
  rw [← hrun] at hleaves
  have hrest : Steps nld s t := (Steps.single hwrote).trans hleaves.steps
  have htops' : TopsGood s := fun state hmem => htops state ((hrest.mapTops hg hr').mem hmem)
  have hm : Mapped s := hsteps.mapped hg hr
    (hmapped fun state hmem => htops' state ((hsteps.mapTops hg hr).mem hmem)) htops'
  have hm' : Mapped { s with dev := w } := hwrote.mapped hg hr' hm fun state hmem =>
    htops state ((hleaves.steps.mapTops hg hr'').mem hmem)
  have hleft := hleaves.left hm' htops hlb
  have hread : readSinglePage nld addr t =
      if t.ni.isProtected then ((-erofs, []), t)
      else
        let r := readPhysPage nld (nld.ba2addr (s.target (nld.addr2ba addr)) + addr % nld.erasesize) t.dev
        (r.1, { t with dev := r.2 }) := by
    have htarget : (s.ni.mapping (nld.addr2ba addr)).toNat = s.target (nld.addr2ba addr) := rfl
    have hmapping : t.ni.mapping (nld.addr2ba addr) = s.ni.mapping (nld.addr2ba addr) := hleft.mapping
    have hcount' : t.ni.dataBlockCount = s.ni.dataBlockCount := hleft.count
    have hstate' : t.ni.getBlockState (s.target (nld.addr2ba addr)) ≠ blockStBad := by
      have hsame : t.ni.getBlockState (s.target (nld.addr2ba addr)) = _ := hleft.state
      rw [hsame]
      exact hstate
    rw [readSinglePage, readLogicPage, hcount', hmapping, htarget, if_neg (Nat.not_le.2 hcount)]
    dsimp only
    rw [if_neg (Int.not_lt.2 hlb), if_neg hstate']
  rw [hread]
  cases hprotected : t.ni.isProtected with
  | true =>
      rw [if_pos rfl]
      have hneg : ¬ 0 ≤ -erofs := by decide
      exact ⟨fun hret => absurd hret hneg, fun hopen => Bool.noConfusion hopen⟩
  | false =>
      rw [if_neg Bool.false_ne_true]
      refine ⟨fun hret => ?_, fun _ hd => readPhysPage_healthy nld hd _⟩
      have hbytes := writePhysPage_bytes hg (physAddr_aligned hg haligned (s.target (nld.addr2ba addr))) hlen
        (congrArg Prod.fst hwrite)
      rw [hwrite] at hbytes
      have hdata := readPhysPage_data hret
      refine hdata.trans (Eq.trans ?_ hbytes)
      refine bytesAt_congr fun x hlo hhi => ?_
      have hblock := page_in_block hg (physAddr_aligned hg haligned (s.target (nld.addr2ba addr))) hlo hhi
      rw [physAddr_div hg] at hblock
      exact (hleft.flash x hblock).1.symm

set_option maxRecDepth 100000 in
theorem written_page_kept_markedChip :
    let t := runOps (smallChip 16 8)
      ([] ++ .writePage 1856 (some (List.replicate 64 0xAB)) none .placeOob :: [.markBad 0])
      (createNew (smallChip 16 8) (fresh (smallChip 16 8) (blankDevice [2]))).2
    0 ≤ (readSinglePage (smallChip 16 8) 1856 t).1.1 →
      (readSinglePage (smallChip 16 8) 1856 t).1.2 = List.replicate 64 0xAB := by
  have hwritten : (writeSinglePage (smallChip 16 8) 1856 (some (List.replicate 64 0xAB)) none .placeOob
      (runOps (smallChip 16 8) [] (createNew (smallChip 16 8) (fresh (smallChip 16 8) (blankDevice [2]))).2)).1 = 0 := by
    decide +kernel
  have hblock : (smallChip 16 8).addr2ba 1856 ≠ (smallChip 16 8).addr2ba 0 := by decide
  refine (written_page_kept smallChip_geometry rfl (blankDevice [2]) markedChip_created [] [.markBad 0] (by decide)
    (by decide) hwritten (fun op hmem heq => ?_) markedChip_topsGood).1
  rw [List.mem_singleton.1 hmem] at heq
  exact hblock heq

end Immwrt.Nmbm
