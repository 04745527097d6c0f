import Immwrt.Nmbm.Proof.Create

/-!
# Logical blocks and the pool

Remapping takes the block at the top of the pool, or the next good one below it, and then lowers the
top by one, whichever block it took. While the top is good the two agree: every block that is mapped
lies below the management region or above the top (`Mapped`), so no block is handed out twice and the
tables, which stay below the top, never meet one. Where the top is not good they part.
-/

namespace Immwrt.Nmbm

variable {nld : LowerDevice} {s s' : Sys}

/-- At the time of the access the block was neither mapped nor the signature's. -/
def MgmtAccess.Clear (a : MgmtAccess) : Prop :=
  (∀ lb, a.blockMapping.getD lb (-1) ≠ a.ba) ∧ a.ba ≠ a.signatureBa

/-- The mapping is injective and keeps clear of the tables and the pool. -/
structure Mapped (s : Sys) : Prop where
  fenced : ∀ lb, 0 ≤ s.ni.mapping lb →
    s.ni.mapping lb < s.ni.mgmtStartBa ∨ (s.ni.mappingBlocksTopBa : Int) < s.ni.mapping lb
  injective : ∀ lb lb', lb ≠ lb' → 0 ≤ s.ni.mapping lb → 0 ≤ s.ni.mapping lb' →
    s.ni.mapping lb ≠ s.ni.mapping lb'
  signature : ∀ lb, s.ni.mapping lb ≠ s.ni.signatureBa
  clear : ∀ a ∈ s.hist.mgmt, a.Clear

/-- Whenever a block was remapped, the one at the top of the pool was good. -/
def TopsGood (s : Sys) : Prop := ∀ state ∈ s.hist.mapTops, state = blockStGood

/-! ### Steps -/

/-- An invariant of the mapping needs to look at few members only. -/
theorem Mapped.congr (hm : Mapped s) (hmapping : s'.ni.blockMapping = s.ni.blockMapping)
    (hstart : s'.ni.mgmtStartBa = s.ni.mgmtStartBa)
    (htop : s.ni.mappingBlocksTopBa = s'.ni.mappingBlocksTopBa)
    (hsig : s'.ni.signatureBa = s.ni.signatureBa)
    (hclear : ∀ a ∈ s'.hist.mgmt, a ∈ s.hist.mgmt ∨ a.Clear) : Mapped s' := by
  have hmap : ∀ lb, s'.ni.mapping lb = s.ni.mapping lb := by
    intro lb
    unfold Instance.mapping
    rw [hmapping]
  refine ⟨fun lb hlb => ?_, fun lb lb' hne hlb hlb' => ?_, fun lb => ?_, fun a ha => ?_⟩
  · rw [hmap] at hlb ⊢
    rw [hstart, ← htop]
    exact hm.fenced lb hlb
  · rw [hmap] at hlb hlb' ⊢
    rw [hmap]
    exact hm.injective lb lb' hne hlb hlb'
  · rw [hmap, hsig]
    exact hm.signature lb
  · exact (hclear a ha).elim (hm.clear a) id

/-- The tables stay clear of the mapping. -/
theorem Keeps.mapped (h : Keeps nld s s') (htop : s.ni.mappingBlocksTopBa < s.ni.signatureBa)
    (hm : Mapped s) : Mapped s' := by
  refine hm.congr (by rw [h.rest]) (by rw [h.rest]) (by rw [h.rest]) (by rw [h.rest]) fun a ha => ?_
  refine (h.access a ha).imp_right fun ⟨hlo, hhi, hmapping, _, hsig⟩ => ⟨fun lb heq => ?_, ?_⟩
  · rw [hmapping] at heq
    have hmap : s.ni.mapping lb = a.ba := heq
    have hfence := hm.fenced lb (by omega)
    omega
  · omega

theorem Keeps.mapTops (h : Keeps nld s s') : s'.hist.mapTops = s.hist.mapTops := by rw [h.hist]

theorem Keeps.unmapped (h : Keeps nld s s') : s'.hist.unmapped = s.hist.unmapped := by rw [h.hist]

/-- What a logical block is mapped to after one was set. -/
theorem mapping_set (ni : Instance) (lb lb' : Nat) (v : Int) :
    ({ ni with blockMapping := ni.blockMapping.set lb v } : Instance).mapping lb'
      = if lb' = lb ∧ lb < ni.blockMapping.length then v else ni.mapping lb' := by
  unfold Instance.mapping
  simp only [List.getD_eq_getElem?_getD, List.getElem?_set]
  by_cases heq : lb = lb'
  · subst heq
    by_cases hlen : lb < ni.blockMapping.length
    · simp [hlen]
    · simp [hlen]
  · simp [heq, Ne.symm heq]

theorem mapBlock_mapped (hg : Geometry nld) (hr : Regions s) (hm : Mapped s) (lb : Nat)
    (htops : TopsGood (mapBlock nld lb s).2) : Mapped (mapBlock nld lb s).2 := by
  rcases mapBlock_cases nld lb hr with heq | ⟨heq, hbad⟩ | ⟨pb, heq, hlt, hpb⟩
  · rw [heq]
    exact hm
  · exfalso
    apply hbad
    apply htops
    rw [heq]
    show _ ∈ (updateInfoTable nld (logMap s)).2.hist.mapTops
    rw [(updateInfoTable_keeps hg hr.logMap).1.mapTops]
    exact List.mem_cons_self
  · have hgood : s.ni.getBlockState s.ni.mappingBlocksTopBa = blockStGood := by
      apply htops
      rw [heq]
      exact List.mem_cons_self
    have hstart := hr.start_le
    have hsig := hr.top_lt
    obtain rfl := hpb hgood
    rw [heq]
    have hmap : ∀ lb', Instance.mapping { s.ni with
        blockMapping := s.ni.blockMapping.set lb (s.ni.mappingBlocksTopBa : Int)
        mappingBlocksTopBa := s.ni.mappingBlocksTopBa - 1
        blockMappingChanged := s.ni.blockMappingChanged + 1 } lb' = _ :=
      fun lb' => mapping_set s.ni lb lb' s.ni.mappingBlocksTopBa
    refine ⟨fun lb1 h1 => ?_, fun lb1 lb2 hne h1 h2 => ?_, fun lb1 => ?_, fun a ha => hm.clear a ha⟩
    · simp only [hmap] at h1 ⊢
      split
      · right
        omega
      · rename_i hnew
        rw [if_neg hnew] at h1
        have := hm.fenced lb1 h1
        omega
    · simp only [hmap] at h1 h2 ⊢
      split
      · rename_i hnew
        rw [if_neg (by omega)] at h2 ⊢
        have := hm.fenced lb2 h2
        omega
      · rename_i hnew
        rw [if_neg hnew] at h1
        split
        · have := hm.fenced lb1 h1
          omega
        · rename_i hnew'
          rw [if_neg hnew'] at h2
          exact hm.injective lb1 lb2 hne h1 h2
    · simp only [hmap]
      split
      · show (s.ni.mappingBlocksTopBa : Int) ≠ s.ni.signatureBa
        omega
      · exact hm.signature lb1

theorem Mapped.unmap (hm : Mapped s) (lb : Nat) : Mapped (unmap lb s) := by
  have hmap : ∀ lb', (Nmbm.unmap lb s).ni.mapping lb' = _ := fun lb' => mapping_set s.ni lb lb' (-1)
  refine ⟨fun lb1 h1 => ?_, fun lb1 lb2 hne h1 h2 => ?_, fun lb1 => ?_, fun a ha => hm.clear a ha⟩
  · rw [hmap] at h1 ⊢
    split at h1
    · omega
    · rename_i hold
      rw [if_neg hold]
      exact hm.fenced lb1 h1
  · rw [hmap] at h1 h2 ⊢
    rw [hmap]
    split at h1
    · omega
    split at h2
    · omega
    rename_i hold hold'
    rw [if_neg hold, if_neg hold']
    exact hm.injective lb1 lb2 hne h1 h2
  · rw [hmap]
    split
    · show (-1 : Int) ≠ s.ni.signatureBa
      omega
    · exact hm.signature lb1

theorem mapBlock_mapTops (hg : Geometry nld) (hr : Regions s) (lb : Nat) :
    s.hist.mapTops <:+ (mapBlock nld lb s).2.hist.mapTops := by
  rcases mapBlock_cases nld lb hr with heq | ⟨heq, -⟩ | ⟨pb, heq, -⟩
  · rw [heq]
  · rw [heq]
    show _ <:+ (updateInfoTable nld (logMap s)).2.hist.mapTops
    rw [(updateInfoTable_keeps hg hr.logMap).1.mapTops]
    exact List.suffix_cons _ _
  · rw [heq]
    exact List.suffix_cons _ _

theorem retire_hist (pb : Nat) (s : Sys) : (retire pb s).hist = s.hist := by
  unfold retire
  split <;> rfl

theorem retire_rest (pb : Nat) (s : Sys) : (retire pb s).ni = { s.ni with
    blockState := (retire pb s).ni.blockState
    blockStateChanged := (retire pb s).ni.blockStateChanged } := by
  unfold retire
  split <;> rfl

theorem Step.mapTops (hg : Geometry nld) (h : Step nld s s') (hr : Regions s) :
    s.hist.mapTops <:+ s'.hist.mapTops := by
  cases h with
  | idle _ => exact List.suffix_rfl
  | work _ _ _ => exact List.suffix_rfl
  | degrade _ _ _ _ => exact List.suffix_rfl
  | remap lb _ _ =>
      rw [retire_hist]
      exact mapBlock_mapTops hg hr lb
  | extend _ => exact mapBlock_mapTops hg hr _
  | exhaust lb _ => exact mapBlock_mapTops hg hr lb
  | unmap lb _ ht => rcases ht with rfl | rfl <;> exact List.suffix_rfl
  | update => rw [(updateInfoTable_keeps hg hr).1.mapTops]

theorem Step.mapped (hg : Geometry nld) (h : Step nld s s') (hr : Regions s) (hm : Mapped s)
    (htops : TopsGood s') : Mapped s' := by
  cases h with
  | idle _ => exact ⟨hm.fenced, hm.injective, hm.signature, hm.clear⟩
  | work _ _ _ => exact ⟨hm.fenced, hm.injective, hm.signature, hm.clear⟩
  | degrade _ _ _ _ => exact ⟨hm.fenced, hm.injective, hm.signature, hm.clear⟩
  | remap lb _ _ =>
      have hm' := mapBlock_mapped hg hr hm lb (by
        unfold TopsGood at htops
        rwa [retire_hist] at htops)
      refine hm'.congr ?_ ?_ ?_ ?_ fun a ha => .inl ?_
      · rw [retire_rest]
      · rw [retire_rest]
      · rw [retire_rest]
      · rw [retire_rest]
      · rwa [retire_hist] at ha
  | extend _ =>
      have hm' := mapBlock_mapped hg hr hm _ htops
      exact ⟨hm'.fenced, hm'.injective, hm'.signature, hm'.clear⟩
  | exhaust lb _ => exact mapBlock_mapped hg hr hm lb htops
  | unmap lb _ ht =>
      have hm' := hm.unmap lb
      rcases ht with rfl | rfl <;> exact ⟨hm'.fenced, hm'.injective, hm'.signature, hm'.clear⟩
  | update => exact (updateInfoTable_keeps hg hr).1.mapped hr.top_lt hm

theorem Steps.mapTops (hg : Geometry nld) (h : Steps nld s s') (hr : Regions s) :
    s.hist.mapTops <:+ s'.hist.mapTops := by
  induction h with
  | refl => exact List.suffix_rfl
  | tail hsteps hstep ih => exact ih.trans (hstep.mapTops hg (Steps.regions hg hsteps hr))

/-- While the top of the pool is good at every remapping, the mapping stays injective. -/
theorem Steps.mapped (hg : Geometry nld) (h : Steps nld s s') (hr : Regions s) (hm : Mapped s)
    (htops : TopsGood s') : Mapped s' := by
  induction h with
  | refl => exact hm
  | tail hsteps hstep ih =>
      have hr' := Steps.regions hg hsteps hr
      exact hstep.mapped hg hr' (ih fun state hmem =>
        htops state ((hstep.mapTops hg hr').mem hmem)) htops

/-! ### Creation -/

theorem mem_usableBlocks {blockState : List Word} {n pb : Nat} (h : pb ∈ usableBlocks blockState n) :
    pb < n := by
  simp only [usableBlocks, List.mem_filter, List.mem_range] at h
  exact h.1

theorem buildMappingTable_mapping (s : Sys) (lb : Nat) :
    (buildMappingTable nld s).ni.mapping lb
      = ((usableBlocks s.ni.blockState s.ni.mgmtStartBa)[lb]?.map Int.ofNat).getD (-1) := by
  unfold buildMappingTable Instance.mapping
  simp only [List.getD_eq_getElem?_getD, List.getElem?_append, List.length_map]
  split
  · rw [List.getElem?_map]
  · rename_i hge
    have hnone : (usableBlocks s.ni.blockState s.ni.mgmtStartBa)[lb]? = none :=
      List.getElem?_eq_none (by omega)
    rw [hnone, List.getElem?_replicate]
    split <;> rfl

/-- A mapping into the data area only is right for any pool, and any signature above it. -/
theorem buildMappingTable_mapped (nld : LowerDevice) (s : Sys) (top : Nat) {sig : Nat}
    (hsig : s.ni.mgmtStartBa ≤ sig) (hclear : ∀ a ∈ s.hist.mgmt, a.Clear) :
    Mapped { buildMappingTable nld s with
      ni := { (buildMappingTable nld s).ni with mappingBlocksTopBa := top, signatureBa := sig } } := by
  set pbs := usableBlocks s.ni.blockState s.ni.mgmtStartBa with hpbs
  have hmap : ∀ lb, (buildMappingTable nld s).ni.mapping lb = (pbs[lb]?.map Int.ofNat).getD (-1) :=
    buildMappingTable_mapping s
  have hsome : ∀ lb, 0 ≤ (buildMappingTable nld s).ni.mapping lb →
      ∃ pb : Nat, pbs[lb]? = some pb ∧ (buildMappingTable nld s).ni.mapping lb = pb := by
    intro lb hlb
    rw [hmap] at hlb ⊢
    cases hget : pbs[lb]? with
    | none => simp [hget] at hlb
    | some pb => exact ⟨pb, rfl, rfl⟩
  have hdata : ∀ lb, 0 ≤ (buildMappingTable nld s).ni.mapping lb →
      (buildMappingTable nld s).ni.mapping lb < s.ni.mgmtStartBa := by
    intro lb hlb
    obtain ⟨pb, hget, hpb⟩ := hsome lb hlb
    have hlt := mem_usableBlocks (List.mem_of_getElem? hget)
    omega
  have hnodup : pbs.Nodup := List.nodup_range.filter _
  refine ⟨fun lb hlb => .inl (hdata lb hlb), fun lb lb' hne hlb hlb' heq => hne ?_, fun lb => ?_,
    hclear⟩
  · obtain ⟨pb, hget, hpb⟩ := hsome lb hlb
    obtain ⟨pb', hget', hpb'⟩ := hsome lb' hlb'
    have heq' : (buildMappingTable nld s).ni.mapping lb
        = (buildMappingTable nld s).ni.mapping lb' := heq
    obtain rfl : pb = pb' := by omega
    obtain ⟨hlt, hlb⟩ := List.getElem?_eq_some_iff.mp hget
    obtain ⟨hlt', hlb'⟩ := List.getElem?_eq_some_iff.mp hget'
    exact (List.Nodup.getElem_inj_iff hnodup).mp (hlb.trans hlb'.symm)
  · show (buildMappingTable nld s).ni.mapping lb ≠ sig
    by_cases hlb : 0 ≤ (buildMappingTable nld s).ni.mapping lb
    · have := hdata lb hlb
      omega
    · omega

theorem createInfoTable_mapped (hg : Geometry nld) (hsig : s.ni.signatureBa < nld.blockCount)
    (hm : ∀ top, Mapped { s with ni := { s.ni with mappingBlocksTopBa := top } })
    (htops : TopsGood (createInfoTable nld s).2) :
    Mapped (createInfoTable nld s).2 := by
  rcases createInfoTable_cases hg hsig with heq | ⟨top, hlo, hhi, hsettle, hrest⟩
  · rw [heq]
    exact hm s.ni.mappingBlocksTopBa
  have hm1 : Mapped (beforeTables nld top s) := (generate_keeps _).mapped hhi (hm top)
  have hm2 : Mapped (rebuildInfoTable nld (beforeTables nld top s)).2 :=
    hsettle.updates.toKeeps.mapped hhi hm1
  rcases hrest with heq | ⟨-, hsteps⟩
  · rw [heq]
    exact hm2
  · exact hsteps.mapped hg hsettle.regions hm2 htops

/-- A created chip has an injective mapping if the top of the pool was good all along. -/
theorem createNew_mapped (hg : Geometry nld) (hrw : nld.readOnly = false) (d : Device)
    (h : (createNew nld (fresh nld d)).1 = true)
    (htops : TopsGood (createNew nld (fresh nld d)).2) : Mapped (createNew nld (fresh nld d)).2 := by
  rcases createNew_cases hg hrw (fresh nld d) with ⟨t, -, heq⟩ | ⟨t, ba, hscan, hlo, hba, heq⟩
  · rw [heq] at h
    cases h
  rw [heq] at htops ⊢
  refine createInfoTable_mapped hg hba (fun top => ?_) htops
  have hscan' := scanBadblocksLoop_scans nld nld.blockCount 0
    { fresh nld d with ni := { (fresh nld d).ni with mgmtStartBa := nld.mgmtStart } }
  set u := scanBadblocksLoop nld nld.blockCount 0
    { fresh nld d with ni := { (fresh nld d).ni with mgmtStartBa := nld.mgmtStart } } with hu
  have hustart : u.ni.mgmtStartBa = nld.mgmtStart := by rw [hscan'.rest]
  have hm := buildMappingTable_mapped nld u top (hustart.le.trans hlo.le) (by
    rw [hscan'.hist]
    simp [fresh])
  refine hm.congr ?_ ?_ rfl rfl fun a ha => .inl ?_
  · simp only [Sys.setSignature]
    rw [hscan.rest]
    rfl
  · simp only [Sys.setSignature]
    rw [hscan.rest]
    rfl
  · simp only [Sys.setSignature] at ha
    rw [hscan.hist] at ha
    exact ha

end Immwrt.Nmbm
