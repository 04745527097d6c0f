import Immwrt.Nmbm.Proof.Regions

/-!
# Updating the tables

A round of `nmbm_update_info_table` generates an image and writes it. What a round leaves changed is a
block it found bad, and there are only so many good blocks below the pool's top, so the rounds come to
an end: with the tables clean, or with the chip protected.
-/

namespace Immwrt.Nmbm

variable {nld : LowerDevice} {s s' : Sys}

/-! ### One round -/

theorem infoTableImage_ne_nil (hdr : InfoTableHeader) (blockState : List Word)
    (blockMapping : List Int) : infoTableImage nld hdr blockState blockMapping ≠ [] := by
  unfold infoTableImage updateChecksum
  intro h
  have hlen := congrArg List.length h
  simp [splice] at hlen

theorem generate_cache_ne_nil (nld : LowerDevice) (s : Sys) :
    (generateInfoTableCache nld s).2.ni.infoTableCache ≠ [] :=
  infoTableImage_ne_nil _ _ _

theorem generate_keeps (s : Sys) : Keeps nld s (generateInfoTableCache nld s).2 :=
  ⟨rfl, ⟨rfl, rfl⟩, rfl, fun _ => .inl rfl, .refl _ _, fun _ ha => .inl ha, List.suffix_rfl, rfl, id⟩

theorem Regions.generate (hr : Regions s) : Regions (generateInfoTableCache nld s).2 :=
  ⟨hr.start_le, hr.le_top, hr.top_lt, hr.main, hr.backup, hr.apart⟩

/-- The image in the cache was made of `st` and the mapping in memory. -/
structure Imaged (nld : LowerDevice) (st : List Word) (s : Sys) : Prop where
  cache : s.ni.infoTableCache = infoTableImage nld s.ni.infoTable st s.ni.blockMapping
  magic : s.ni.infoTable.magic = magicInfoTable
  size : s.ni.infoTable.size = BitVec.ofNat 32 nld.infoTableSize
  length : s.ni.blockState.length = st.length
  good : ∀ ba, s.ni.getBlockState ba = blockStGood → getBlockStateRaw st ba = blockStGood
  found : s.hist.badFound = [] ∧ s.ni.blockState = st ∨ s.hist.badFound ≠ [] ∧
    ∃ ba, getBlockStateRaw st ba = blockStGood ∧ s.ni.getBlockState ba = blockStBad

theorem generate_imaged (s : Sys) :
    Imaged nld s.ni.blockState (generateInfoTableCache nld s).2 :=
  ⟨rfl, rfl, rfl, rfl, fun _ hba => hba, .inl ⟨rfl, rfl⟩⟩

/-- Blocks may turn bad under an image. -/
theorem Imaged.of_frame {st : List Word} (h : Imaged nld st s)
    (hcache : s'.ni.infoTableCache = s.ni.infoTableCache)
    (htable : s'.ni.infoTable = s.ni.infoTable) (hmap : s'.ni.blockMapping = s.ni.blockMapping)
    (hlength : s'.ni.blockState.length = s.ni.blockState.length)
    (hgood : ∀ ba, s'.ni.getBlockState ba = blockStGood → s.ni.getBlockState ba = blockStGood)
    (hbad : ∀ ba, s.ni.getBlockState ba = blockStBad → s'.ni.getBlockState ba = blockStBad)
    (hfound : s'.hist.badFound = s.hist.badFound ∧ s'.ni.blockState = s.ni.blockState ∨
      s'.hist.badFound ≠ [] ∧
        ∃ ba, s.ni.getBlockState ba = blockStGood ∧ s'.ni.getBlockState ba = blockStBad) :
    Imaged nld st s' where
  cache := by
    rw [hcache, htable, hmap]
    exact h.cache
  magic := by
    rw [htable]
    exact h.magic
  size := by
    rw [htable]
    exact h.size
  length := hlength.trans h.length
  good ba hba := h.good ba (hgood ba hba)
  found := by
    rcases hfound with ⟨hfound, hstate⟩ | ⟨hfound, ba, hba, hba'⟩
    · rcases h.found with ⟨hnone, hst⟩ | ⟨hsome, ba, hba, hba'⟩
      · exact .inl ⟨hfound.trans hnone, hstate.trans hst⟩
      · exact .inr ⟨hfound ▸ hsome, ba, hba, hbad ba hba'⟩
    · exact .inr ⟨hfound, ba, h.good ba hba, hba'⟩

theorem Imaged.of_updates {st : List Word} (h : Imaged nld st s) (hu : Updates nld s s') :
    Imaged nld st s' :=
  h.of_frame hu.infoTableCache hu.infoTable (by rw [hu.rest]) hu.length (fun _ => hu.good_of)
    (fun _ => hu.bad_of) hu.found

theorem Imaged.of_works {st : List Word} {lo hi : Nat} (h : Imaged nld st s)
    (hw : Works nld lo hi s s') : Imaged nld st s' := by
  refine h.of_frame hw.infoTableCache (by rw [hw.rest]) (by rw [hw.rest]) hw.length
    (fun _ => hw.good_of) (fun _ => hw.bad_of) ?_
  exact hw.found.imp (fun ⟨hfound, hni⟩ => ⟨hfound, by rw [hni]⟩) fun ⟨hfound, _, hba⟩ => ⟨hfound, hba⟩

/-- A round that writes: everything but the end of `clean` is in `Settles`. -/
theorem updateInfoTableOnce_settles (hg : Geometry nld) (hr : Regions s) {force : Bool}
    (hwrite : s.ni.changed = true ∨ force = true) :
    Settles nld (generateInfoTableCache nld s).2 (updateInfoTableOnce nld force s) ∧
      ((updateInfoTableOnce nld force s).1 = true →
        (updateInfoTableOnce nld force s).2.ni.changed = true →
        ∃ ba, s.ni.getBlockState ba = blockStGood ∧
          (updateInfoTableOnce nld force s).2.ni.getBlockState ba = blockStBad) := by
  have hrg : Regions (generateInfoTableCache nld s).2 := hr.generate
  have hcg := generate_cache_ne_nil nld s
  have hnot : ¬ ((!(generateInfoTableCache nld s).1 && !force) = true) := by
    show ¬ ((!s.ni.changed && !force) = true)
    rcases hwrite with h | h <;> simp [h]
  have hstate : ∀ ba, (generateInfoTableCache nld s).2.ni.getBlockState ba = s.ni.getBlockState ba :=
    fun _ => rfl
  unfold updateInfoTableOnce
  dsimp only
  rw [if_neg hnot]
  generalize (generateInfoTableCache nld s).2 = g at hrg hcg hstate ⊢
  split
  · rename_i hzero
    have hs : Settles nld g (writeMainTable nld g.ni.mappingBlocksTopBa g) :=
      writeMainTable_settles hg hcg hrg (fun hne => absurd hzero hne) (by rw [if_pos hzero])
    refine ⟨hs, fun hok hch => ?_⟩
    rcases hs.clean hok hch with ⟨ba, hgood, hbad⟩ | ⟨-, hne⟩
    · exact ⟨ba, hstate ba ▸ hgood, hbad⟩
    · exact absurd hzero hne
  rename_i hne
  have hback := hrg.backup hne
  have hstart := hrg.start_le
  have htop := hrg.le_top
  have hsig := hrg.top_lt
  have hmain := hrg.main
  have hapart := hrg.apart
  rcases hres : writeInfoTable nld g.ni.backupTableBa g.ni.mappingBlocksTopBa g with ⟨r1, s1⟩
  obtain ⟨hw1, hsome1⟩ := writeInfoTable_cases hg hcg hres
  have hu1 : Updates nld g s1 := hw1.updates hback.1 le_rfl
  have hc1 : s1.ni.infoTableCache ≠ [] := hw1.infoTableCache ▸ hcg
  have hfields : s1.ni.mgmtStartBa = g.ni.mgmtStartBa ∧
      s1.ni.mappingBlocksTopBa = g.ni.mappingBlocksTopBa ∧ s1.ni.signatureBa = g.ni.signatureBa ∧
      s1.ni.mainTableBa = g.ni.mainTableBa ∧ s1.ni.backupTableBa = g.ni.backupTableBa ∧
      s1.hist.mainTableEba = g.hist.mainTableEba :=
    ⟨hw1.mgmtStartBa, hw1.mappingBlocksTopBa, hw1.signatureBa, hw1.mainTableBa, hw1.backupTableBa,
      hw1.mainTableEba⟩
  obtain ⟨hmgmt1, htop1, hsig1, hmain1, hback1, hend1⟩ := hfields
  have hgo : ∀ {s2 : Sys} {limit : Nat}, Updates nld g s2 → Regions s2 →
      s2.ni.infoTableCache = s1.ni.infoTableCache → s2.ni.isProtected = s1.ni.isProtected →
      s2.ni.mgmtStartBa = s1.ni.mgmtStartBa →
      (s2.ni.backupTableBa ≠ 0 → Wrote nld s2.ni.backupTableBa s2.hist.backupTableEba s2) →
      (s2.ni.changed = true → s2.ni.backupTableBa = 0) →
      limit = (if s2.ni.backupTableBa = 0 then s2.ni.mappingBlocksTopBa else s2.ni.backupTableBa) →
      Settles nld g (writeMainTable nld limit s2) ∧
        ((writeMainTable nld limit s2).1 = true →
          (writeMainTable nld limit s2).2.ni.changed = true →
          ∃ ba, s.ni.getBlockState ba = blockStGood ∧
            (writeMainTable nld limit s2).2.ni.getBlockState ba = blockStBad) := by
    intro s2 limit hu2 hr2 hcache hprot hmgmt hwrote hclean hlimit
    have hs := writeMainTable_settles hg (hcache ▸ hc1) hr2 hwrote hlimit
    have hbad : (writeMainTable nld limit s2).1 = true →
        (writeMainTable nld limit s2).2.ni.changed = true →
        ∃ ba, g.ni.getBlockState ba = blockStGood ∧
          (writeMainTable nld limit s2).2.ni.getBlockState ba = blockStBad := by
      intro hok hch
      rcases hs.clean hok hch with ⟨ba, hgood, hbad⟩ | ⟨hch, hne⟩
      · exact ⟨ba, hu2.good_of hgood, hbad⟩
      · exact absurd (hclean hch) hne
    refine ⟨⟨hu2.trans hs.updates, hs.regions, hs.fresh, hs.failed, fun hok => ?_, fun hok hpos => ?_,
      fun hok hch => .inl (hbad hok hch)⟩, fun hok hch => ?_⟩
    · rw [hs.succeeded hok, hprot, hw1.isProtected]
    · exact hs.recorded hok (by omega)
    · obtain ⟨ba, hgood, hba⟩ := hbad hok hch
      exact ⟨ba, hstate ba ▸ hgood, hba⟩
  cases r1 with
  | none =>
      refine hgo (hu1.record rfl id rfl rfl) ?_ rfl rfl rfl (fun hne => absurd rfl hne)
        (fun _ => rfl) rfl
      constructor
      all_goals
        simp only [Sys.setMappingBlocks, Sys.clearBackup, hmgmt1, htop1, hsig1, hmain1, hback1, hend1]
        omega
  | some p =>
      obtain ⟨a, e⟩ := p
      obtain ⟨ha, hae, he, hwrote⟩ := hsome1 a e rfl
      refine hgo (hu1.record rfl id rfl rfl) ?_ rfl rfl rfl
        (fun _ => hwrote.congr rfl rfl rfl rfl) (fun hch => absurd hch (by
          simp [markTablesClean, Instance.changed])) ?_
      · constructor
        all_goals
          simp only [markTablesClean, Sys.recordBackup, Sys.setMappingBlocks, hmgmt1, htop1, hsig1,
            hmain1, hend1]
          omega
      · have : a ≠ 0 := by omega
        simp [markTablesClean, Sys.recordBackup, Sys.setMappingBlocks, this]

/-! ### All rounds -/

/-- What an update comes to. -/
structure Updated (nld : LowerDevice) (s : Sys) (r : Bool × Sys) : Prop where
  keeps : Keeps nld s r.2
  regions : Regions r.2
  clean : r.1 = true → r.2.ni.changed = false
  succeeded : r.1 = true → r.2.ni.isProtected = s.ni.isProtected
  written : r.1 = true → s.ni.changed = true → Fresh nld r.2 ∧
    (0 < s.ni.mgmtStartBa → r.2.ni.mainTableBa ≠ 0) ∧ ∃ st, Imaged nld st r.2
  unchanged : s.ni.changed = false → r = (true, s)

/-- Good blocks below the pool's top. -/
def goodBlocks (s : Sys) : Finset Nat :=
  (Finset.range s.ni.mappingBlocksTopBa).filter fun ba => s.ni.getBlockState ba = blockStGood

theorem Keeps.goodBlocks_lt (h : Keeps nld s s') {ba : Nat}
    (hgood : s.ni.getBlockState ba = blockStGood) (hbad : s'.ni.getBlockState ba = blockStBad) :
    (goodBlocks s').card < (goodBlocks s).card := by
  have htop : s'.ni.mappingBlocksTopBa = s.ni.mappingBlocksTopBa := by rw [h.rest]
  have hlt : ba < s.ni.mappingBlocksTopBa := by
    rcases h.state ba with hsame | ⟨-, hlt, -⟩
    · rw [hbad, hgood] at hsame
      exact absurd hsame.symm good_ne_bad
    · exact hlt
  apply Finset.card_lt_card
  refine ⟨fun b hb => ?_, fun hsub => ?_⟩
  · simp only [goodBlocks, Finset.mem_filter, Finset.mem_range, htop] at hb ⊢
    exact ⟨hb.1, h.good_of hb.2⟩
  · have hmem : ba ∈ goodBlocks s' := hsub (by simp [goodBlocks, hlt, hgood])
    simp only [goodBlocks, Finset.mem_filter, hbad] at hmem
    exact good_ne_bad hmem.2.symm

theorem updateInfoTableLoop_updated (hg : Geometry nld) (hr : Regions s) (n : Nat) :
    Updated nld s (updateInfoTableLoop nld (n + 1) s) := by
  induction n generalizing s with
  | zero =>
      rw [updateInfoTableLoop]
      split
      · rename_i hch
        have hch : s.ni.changed = false := by simpa using hch
        exact ⟨.refl s, hr, fun _ => hch, fun _ => rfl, fun _ h => by simp [hch] at h, fun _ => rfl⟩
      · rename_i hch
        have hch : s.ni.changed = true := by simpa using hch
        obtain ⟨hs, -⟩ := updateInfoTableOnce_settles hg hr (.inl hch : _ ∨ false = true)
        have hkeep := (generate_keeps s).trans hs.updates.toKeeps
        dsimp only
        split
        · exact ⟨hkeep, hs.regions, by simp, by simp, by simp, by simp [hch]⟩
        · exact ⟨hkeep, hs.regions, by simp [updateInfoTableLoop], by simp [updateInfoTableLoop],
            by simp [updateInfoTableLoop], by simp [hch]⟩
  | succ n ih =>
      rw [updateInfoTableLoop]
      split
      · rename_i hch
        have hch : s.ni.changed = false := by simpa using hch
        exact ⟨.refl s, hr, fun _ => hch, fun _ => rfl, fun _ h => by simp [hch] at h, fun _ => rfl⟩
      · rename_i hch
        have hch : s.ni.changed = true := by simpa using hch
        obtain ⟨hs, -⟩ := updateInfoTableOnce_settles hg hr (.inl hch : _ ∨ false = true)
        have hkeep := (generate_keeps s).trans hs.updates.toKeeps
        dsimp only
        split
        · exact ⟨hkeep, hs.regions, by simp, by simp, by simp, by simp [hch]⟩
        rename_i hok
        have hok : (updateInfoTableOnce nld false s).1 = true := by simpa using hok
        have hrest := ih hs.regions
        have hprot : (updateInfoTableOnce nld false s).2.ni.isProtected = s.ni.isProtected :=
          hs.succeeded hok
        refine ⟨hkeep.trans hrest.keeps, hrest.regions, hrest.clean,
          fun h => (hrest.succeeded h).trans hprot, fun h _ => ?_, by simp [hch]⟩
        cases hmore : (updateInfoTableOnce nld false s).2.ni.changed with
        | true =>
            obtain ⟨hfresh, hmain, hst⟩ := hrest.written h hmore
            refine ⟨hfresh, fun hpos => hmain ?_, hst⟩
            rw [hkeep.rest]
            exact hpos
        | false =>
            rw [hrest.unchanged hmore]
            exact ⟨hs.fresh, hs.recorded hok, _, (generate_imaged s).of_updates hs.updates⟩

/-- With a turn for every good block and two more, the rounds come to an end. -/
theorem updateInfoTableLoop_total (hg : Geometry nld) (hr : Regions s) {n : Nat}
    (hn : (goodBlocks s).card + 2 ≤ n) :
    (updateInfoTableLoop nld n s).1 = true ∨
      (updateInfoTableLoop nld n s).2.ni.isProtected = true := by
  induction n generalizing s with
  | zero => omega
  | succ n ih =>
      rw [updateInfoTableLoop]
      split
      · exact .inl rfl
      rename_i hch
      have hch : s.ni.changed = true := by simpa using hch
      obtain ⟨hs, hbad⟩ := updateInfoTableOnce_settles hg hr (.inl hch : _ ∨ false = true)
      dsimp only
      split
      · rename_i hfail
        exact .inr (hs.failed (by simpa using hfail))
      rename_i hok
      have hok : (updateInfoTableOnce nld false s).1 = true := by simpa using hok
      cases hmore : (updateInfoTableOnce nld false s).2.ni.changed with
      | true =>
          obtain ⟨ba, hgood, hba⟩ := hbad hok hmore
          have hlt := ((generate_keeps s).trans hs.updates.toKeeps).goodBlocks_lt hgood hba
          exact ih hs.regions (by omega)
      | false =>
          obtain ⟨n, rfl⟩ := Nat.exists_eq_succ_of_ne_zero (by omega : n ≠ 0)
          refine .inl ?_
          rw [updateInfoTableLoop]
          simp [hmore]

theorem updateInfoTable_updated (hg : Geometry nld) (hr : Regions s)
    (hp : s.ni.isProtected = false) : Updated nld s (updateInfoTable nld s) := by
  unfold updateInfoTable
  simp only [hp, Bool.false_eq_true, if_false]
  exact updateInfoTableLoop_updated hg hr _

theorem updateInfoTable_total (hg : Geometry nld) (hr : Regions s)
    (hsig : s.ni.signatureBa ≤ nld.blockCount) :
    (updateInfoTable nld s).1 = true ∨ (updateInfoTable nld s).2.ni.isProtected = true := by
  unfold updateInfoTable
  split
  · exact .inl rfl
  · apply updateInfoTableLoop_total hg hr
    have hcard : (goodBlocks s).card ≤ s.ni.mappingBlocksTopBa := by
      refine (Finset.card_filter_le _ _).trans ?_
      simp
    have := hr.top_lt
    omega

/-- Protected or not, an update keeps the regions in order and the mapping as it is. -/
theorem updateInfoTable_keeps (hg : Geometry nld) (hr : Regions s) :
    Keeps nld s (updateInfoTable nld s).2 ∧ Regions (updateInfoTable nld s).2 := by
  cases hp : s.ni.isProtected with
  | true =>
      simp only [updateInfoTable, hp, if_true]
      exact ⟨.refl s, hr⟩
  | false =>
      have h := updateInfoTable_updated hg hr hp
      exact ⟨h.keeps, h.regions⟩

end Immwrt.Nmbm
