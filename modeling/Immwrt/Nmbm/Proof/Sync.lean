import Immwrt.Nmbm.Proof.Update

/-!
# Bringing the tables in step

When a chip is attached one of the two tables may be missing, or behind. The procedures here write it
again and leave the other one alone.
-/

namespace Immwrt.Nmbm

variable {nld : LowerDevice} {s s' s'' : Sys} {a e lo hi : Nat}

/-- The blocks from `a` to `e` are as they were, on the chip and in memory. -/
def Intact (nld : LowerDevice) (a e : Nat) (s s' : Sys) : Prop :=
  ∀ ba, a ≤ ba → ba < e →
    Flash.Same nld ba s.dev.flash s'.dev.flash ∧ s'.ni.getBlockState ba = s.ni.getBlockState ba

theorem Intact.refl (nld : LowerDevice) (a e : Nat) (s : Sys) : Intact nld a e s s :=
  fun ba _ _ => ⟨(Flash.same_equivalence ba).refl _, rfl⟩

theorem Intact.trans (h : Intact nld a e s s') (h' : Intact nld a e s' s'') :
    Intact nld a e s s'' :=
  fun ba hlo hhi => ⟨(Flash.same_equivalence ba).trans (h ba hlo hhi).1 (h' ba hlo hhi).1,
    (h' ba hlo hhi).2.trans (h ba hlo hhi).2⟩

theorem Works.intact (h : Works nld lo hi s s') (hdisj : e ≤ lo ∨ hi ≤ a) :
    Intact nld a e s s' := by
  intro ba hlo hhi
  exact ⟨h.touches.agreeOff ba (fun hmem => by have := hmem.1; have := hmem.2; omega),
    h.state_of_not_mem (by omega)⟩

/-- What a procedure comes to that writes one table, and keeps the one from `a` to `e`. -/
structure Syncs (nld : LowerDevice) (a e : Nat) (s : Sys) (r : Bool × Sys) : Prop where
  updates : Updates nld s r.2
  regions : r.1 = true → Regions r.2
  isProtected : r.2.ni.isProtected = s.ni.isProtected
  main : r.1 = true → Wrote nld r.2.ni.mainTableBa r.2.hist.mainTableEba r.2 ∨
    r.2.ni.mainTableBa = a ∧ r.2.hist.mainTableEba = e ∧ Intact nld a e s r.2
  backup : r.1 = true → Wrote nld r.2.ni.backupTableBa r.2.hist.backupTableEba r.2 ∨
    r.2.ni.backupTableBa = a ∧ r.2.hist.backupTableEba = e ∧ Intact nld a e s r.2

/-- A second table is written, in front of the first or behind it. -/
theorem rescueSingleInfoTable_syncs (hg : Geometry nld) (hc : s.ni.infoTableCache ≠ [])
    (hr : Regions s) (hmain : s.ni.mainTableBa ≠ 0) :
    Syncs nld s.ni.mainTableBa s.hist.mainTableEba s (rescueSingleInfoTable nld s) := by
  obtain ⟨hma, hmae, hme⟩ := hr.main hmain
  have hstart := hr.start_le
  have htop := hr.le_top
  have hsig := hr.top_lt
  unfold rescueSingleInfoTable
  dsimp only
  rcases hres : writeInfoTable nld s.ni.mgmtStartBa s.ni.mainTableBa s with ⟨r1, s1⟩
  obtain ⟨hw1, hsome1⟩ := writeInfoTable_cases hg hc hres
  have hu1 : Updates nld s s1 := hw1.updates le_rfl (by omega)
  have hmgmt1 := hw1.mgmtStartBa
  have htop1 := hw1.mappingBlocksTopBa
  have hsig1 := hw1.signatureBa
  have hblocks1 := hw1.mappingBlocksBa
  have hmain1 := hw1.mainTableBa
  have hend1 := hw1.mainTableEba
  cases r1 with
  | some p =>
      obtain ⟨b, f⟩ := p
      obtain ⟨hb, hbf, hf, hwrote⟩ := hsome1 b f rfl
      dsimp only
      set s2 := markTablesClean ((s1.recordBackup s1.ni.mainTableBa s1.hist.mainTableEba).recordMain
        b f) with hs2
      have hback2 : s2.ni.backupTableBa = s.ni.mainTableBa := hmain1
      have hw3 := eraseRange_works hg f s2.ni.backupTableBa s2
      rw [hback2] at hw3 ⊢
      have hu2 : Updates nld s s2 := hu1.record rfl id rfl rfl
      have hu3 := hu2.trans (hw3.updates
        (by show s1.ni.mgmtStartBa ≤ f; omega) (by show _ ≤ s1.ni.mappingBlocksTopBa; omega))
      have hr2 : Regions s2 := by
        constructor
        all_goals
          simp only [hs2, markTablesClean, Sys.recordMain, Sys.recordBackup, hmgmt1, htop1, hsig1,
            hblocks1, hmain1, hend1]
          omega
      refine ⟨hu3, fun _ => hr2.of_works hw3, hw3.isProtected.trans hw1.isProtected, fun _ => .inl ?_,
        fun _ => .inr ⟨?_, ?_, ?_⟩⟩
      · rw [hw3.mainTableBa, hw3.mainTableEba]
        exact (hwrote.congr rfl rfl rfl rfl : Wrote nld b f s2).of_works hg hw3 (.inl le_rfl)
      · exact hw3.backupTableBa.trans hmain1
      · exact hw3.backupTableEba.trans hend1
      · exact ((hw1.intact (.inr le_rfl)).trans (.refl nld _ _ s1)).trans
          (hw3.intact (s := s2) (.inr le_rfl))
  | none =>
      dsimp only
      have hr1 : Regions s1 := hr.of_works hw1
      have hc1 : s1.ni.infoTableCache ≠ [] := hw1.infoTableCache ▸ hc
      have hfail : ∀ {t : Sys}, Updates nld s t → t.ni.isProtected = s.ni.isProtected →
          Syncs nld s.ni.mainTableBa s.hist.mainTableEba s (false, t) :=
        fun hu hp => ⟨hu, by simp, hp, by simp, by simp⟩
      split
      · exact hfail hu1 hw1.isProtected
      rename_i writeBa hreserve
      have hreserve := tryReserveBlocks_some hreserve
      rcases hres2 : writeTableDown nld (writeBa + 1 - s1.ni.mappingBlocksBa) writeBa s1
        with ⟨r2, s2⟩
      obtain ⟨hw2, hsome2⟩ := writeTableDown_cases hg hc1 (by omega) hres2
      rw [show writeBa + 1 - (writeBa + 1 - s1.ni.mappingBlocksBa) = s1.ni.mappingBlocksBa by omega]
        at hw2 hsome2
      have hu2 : Updates nld s s2 := hu1.trans (hw2.updates (by omega) le_rfl)
      cases r2 with
      | none => exact hfail hu2 (hw2.isProtected.trans hw1.isProtected)
      | some p =>
          obtain ⟨b, f⟩ := p
          obtain ⟨hb, hbf, hf, hwrote⟩ := hsome2 b f rfl
          dsimp only
          have hmgmt2 := hw2.mgmtStartBa
          have htop2 := hw2.mappingBlocksTopBa
          have hsig2 := hw2.signatureBa
          have hblocks2 := hw2.mappingBlocksBa
          have hmain2 := hw2.mainTableBa
          have hend2 := hw2.mainTableEba
          have hw3 := eraseRange_works hg s2.ni.mappingBlocksBa b s2
          set s3 := eraseRange nld s2.ni.mappingBlocksBa b s2 with hs3
          have hu3 : Updates nld s s3 := hu2.trans (hw3.updates (by omega) (by omega))
          have hmgmt3 := hw3.mgmtStartBa
          have htop3 := hw3.mappingBlocksTopBa
          have hsig3 := hw3.signatureBa
          have hblocks3 := hw3.mappingBlocksBa
          have hmain3 := hw3.mainTableBa
          have hend3 := hw3.mainTableEba
          refine ⟨hu3.record rfl id rfl rfl, fun _ => ?_,
            hw3.isProtected.trans (hw2.isProtected.trans hw1.isProtected), fun _ => .inr ⟨?_, ?_, ?_⟩,
            fun _ => .inl ?_⟩
          · constructor
            all_goals
              simp only [markTablesClean, Sys.recordBackup, Sys.setMappingBlocks]
              omega
          · show s3.ni.mainTableBa = _
            omega
          · show s3.hist.mainTableEba = _
            omega
          · exact ((hw1.intact (.inr le_rfl)).trans (hw2.intact (.inl (by omega)))).trans
              (hw3.intact (.inl (by omega)))
          · exact (hwrote.of_works hg hw3 (.inr le_rfl)).congr rfl rfl rfl rfl

/-- The main table is written again, or a new one beside the backup table. -/
theorem updateSingleInfoTable_main (hg : Geometry nld) (hc : s.ni.infoTableCache ≠ [])
    (hr : Regions s) (hmain : s.ni.mainTableBa ≠ 0) (hbackup : s.ni.backupTableBa ≠ 0) :
    Syncs nld s.ni.backupTableBa s.hist.backupTableEba s (updateSingleInfoTable nld true s) := by
  obtain ⟨hma, hmae, hme⟩ := hr.main hmain
  obtain ⟨hba, hbae, hbe⟩ := hr.backup hbackup
  have hapart := hr.apart hmain hbackup
  have hstart := hr.start_le
  have htop := hr.le_top
  have hsig := hr.top_lt
  unfold updateSingleInfoTable
  rw [if_pos rfl]
  dsimp only
  rcases hres : writeInfoTable nld s.ni.mainTableBa s.ni.backupTableBa s with ⟨r1, s1⟩
  obtain ⟨hw1, hsome1⟩ := writeInfoTable_cases hg hc hres
  have hu1 : Updates nld s s1 := hw1.updates hma (by omega)
  have hmgmt1 := hw1.mgmtStartBa
  have htop1 := hw1.mappingBlocksTopBa
  have hsig1 := hw1.signatureBa
  have hblocks1 := hw1.mappingBlocksBa
  have hback1 := hw1.backupTableBa
  have hend1 := hw1.backupTableEba
  cases r1 with
  | some p =>
      obtain ⟨b, f⟩ := p
      obtain ⟨hb, hbf, hf, hwrote⟩ := hsome1 b f rfl
      dsimp only
      refine ⟨hu1.record rfl id rfl rfl, fun _ => ?_, hw1.isProtected,
        fun _ => .inl (hwrote.congr rfl rfl rfl rfl), fun _ => .inr ⟨hback1, hend1, ?_⟩⟩
      · constructor
        all_goals
          simp only [markTablesClean, Sys.recordMain]
          omega
      · exact (hw1.intact (.inr le_rfl)).trans (.refl nld _ _ s1)
  | none =>
      dsimp only
      have hr1 : Regions s1.promoteBackup := by
        constructor
        all_goals
          simp only [Sys.promoteBackup, Sys.recordMain, Sys.clearBackup]
          omega
      have hs := rescueSingleInfoTable_syncs hg
        (show s1.promoteBackup.ni.infoTableCache ≠ [] from hw1.infoTableCache ▸ hc) hr1
        (show s1.ni.backupTableBa ≠ 0 by omega)
      have hba' : s1.promoteBackup.ni.mainTableBa = s.ni.backupTableBa := hback1
      have hend' : s1.promoteBackup.hist.mainTableEba = s.hist.backupTableEba := hend1
      rw [hba', hend'] at hs
      have hkept : Intact nld s.ni.backupTableBa s.hist.backupTableEba s s1.promoteBackup :=
        (hw1.intact (.inr le_rfl)).trans (.refl nld _ _ s1)
      have hu2 : Updates nld s s1.promoteBackup := hu1.record rfl id rfl rfl
      refine ⟨hu2.trans hs.updates, hs.regions,
        hs.isProtected.trans hw1.isProtected, fun hok => ?_, fun hok => ?_⟩
      · exact (hs.main hok).imp_right fun h => ⟨h.1, h.2.1, hkept.trans h.2.2⟩
      · exact (hs.backup hok).imp_right fun h => ⟨h.1, h.2.1, hkept.trans h.2.2⟩

/-- The backup table is written again. It may have been past the pool's top. -/
theorem updateSingleInfoTable_backup (hg : Geometry nld) (hc : s.ni.infoTableCache ≠ [])
    (hma : s.ni.mgmtStartBa ≤ s.ni.mainTableBa) (hmae : s.ni.mainTableBa < s.hist.mainTableEba)
    (hapart : s.hist.mainTableEba ≤ s.ni.backupTableBa)
    (hsig : s.ni.mappingBlocksTopBa < s.ni.signatureBa) :
    Syncs nld s.ni.mainTableBa s.hist.mainTableEba s (updateSingleInfoTable nld false s) := by
  unfold updateSingleInfoTable
  rw [if_neg (by simp)]
  dsimp only
  rcases hres : writeInfoTable nld s.ni.backupTableBa s.ni.mappingBlocksTopBa s with ⟨r1, s1⟩
  obtain ⟨hw1, hsome1⟩ := writeInfoTable_cases hg hc hres
  have hu1 : Updates nld s s1 := hw1.updates (by omega) le_rfl
  have hmgmt1 := hw1.mgmtStartBa
  have htop1 := hw1.mappingBlocksTopBa
  have hsig1 := hw1.signatureBa
  have hmain1 := hw1.mainTableBa
  have hend1 := hw1.mainTableEba
  cases r1 with
  | some p =>
      obtain ⟨b, f⟩ := p
      obtain ⟨hb, hbf, hf, hwrote⟩ := hsome1 b f rfl
      dsimp only
      refine ⟨hu1.record rfl id rfl rfl, fun _ => ?_, hw1.isProtected,
        fun _ => .inr ⟨hmain1, hend1, ?_⟩, fun _ => .inl (hwrote.congr rfl rfl rfl rfl)⟩
      · constructor
        all_goals
          simp only [markTablesClean, Sys.recordBackup, Sys.setMappingBlocks]
          omega
      · exact (hw1.intact (.inl hapart)).trans (.refl nld _ _ s1)
  | none => exact ⟨hu1.record rfl id rfl rfl, by simp, hw1.isProtected, by simp, by simp⟩

end Immwrt.Nmbm
