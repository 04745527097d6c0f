import Immwrt.Nmbm.Turns
import Immwrt.Nmbm.Proof.Attach

/-!
# An erase comes to an end

Nothing is assumed of the tables or of the device. A round of `nmbm_update_info_table` that leaves a
change behind has turned a good block bad (`Settled`), and there are finitely many good blocks. A turn
of `nmbm_erase_logic_block` that goes back to `retry:` has lowered the pool's top by one. The loops
that look for a place for a table count down to a block that is never block 0, so their unsigned
counter does not wrap.
-/

namespace Immwrt.Nmbm

variable {nld : LowerDevice} {s s' s'' : Sys}

/-! ### Blocks only turn bad -/

/-- A good block was found bad. -/
def Spent (s s' : Sys) : Prop :=
  ∃ ba, s.ni.getBlockState ba = blockStGood ∧ s'.ni.getBlockState ba = blockStBad

structure Wears (s s' : Sys) : Prop where
  top : s'.ni.mappingBlocksTopBa = s.ni.mappingBlocksTopBa
  length : s'.ni.blockState.length = s.ni.blockState.length
  good_of : ∀ ba, s'.ni.getBlockState ba = blockStGood → s.ni.getBlockState ba = blockStGood
  bad_of : ∀ ba, s.ni.getBlockState ba = blockStBad → s'.ni.getBlockState ba = blockStBad
  changed : s'.ni.changed = true → s.ni.changed = true ∨ Spent s s'

/-- The same, where every change that is left is a block found bad. -/
structure Settled (s s' : Sys) : Prop where
  wears : Wears s s'
  spent : s'.ni.changed = true → Spent s s'

theorem Wears.refl (s : Sys) : Wears s s := ⟨rfl, rfl, fun _ => id, fun _ => id, .inl⟩

theorem Spent.trans_wears (h : Spent s s') (h' : Wears s' s'') : Spent s s'' := by
  obtain ⟨ba, hgood, hbad⟩ := h
  exact ⟨ba, hgood, h'.bad_of ba hbad⟩

theorem Wears.trans_spent (h : Wears s s') (h' : Spent s' s'') : Spent s s'' := by
  obtain ⟨ba, hgood, hbad⟩ := h'
  exact ⟨ba, h.good_of ba hgood, hbad⟩

theorem Wears.trans (h : Wears s s') (h' : Wears s' s'') : Wears s s'' where
  top := h'.top.trans h.top
  length := h'.length.trans h.length
  good_of ba hba := h.good_of ba (h'.good_of ba hba)
  bad_of ba hba := h'.bad_of ba (h.bad_of ba hba)
  changed hch := by
    rcases h'.changed hch with hch | hspent
    · exact (h.changed hch).imp_right fun hspent => hspent.trans_wears h'
    · exact .inr (h.trans_spent hspent)

theorem Works.wears {lo hi : Nat} (h : Works nld lo hi s s') : Wears s s' where
  top := h.mappingBlocksTopBa
  length := h.length
  good_of _ := h.good_of
  bad_of _ := h.bad_of
  changed hch := (h.changed hch).symm

/-- Writing down where things are wears nothing, nor does clearing the two counters. -/
theorem Wears.of_record (htop : s'.ni.mappingBlocksTopBa = s.ni.mappingBlocksTopBa)
    (hstate : s'.ni.blockState = s.ni.blockState)
    (hch : s'.ni.changed = true → s.ni.changed = true) : Wears s s' where
  top := htop
  length := by rw [hstate]
  good_of ba hba := by
    rw [Instance.getBlockState, ← hstate]
    exact hba
  bad_of ba hba := by
    rw [Instance.getBlockState, hstate]
    exact hba
  changed h := .inl (hch h)

theorem recordMain_wears (s : Sys) (start stop : Nat) : Wears s (s.recordMain start stop) :=
  .of_record rfl rfl id

theorem recordBackup_wears (s : Sys) (start stop : Nat) : Wears s (s.recordBackup start stop) :=
  .of_record rfl rfl id

theorem clearBackup_wears (s : Sys) : Wears s s.clearBackup := .of_record rfl rfl id

theorem promoteBackup_wears (s : Sys) : Wears s s.promoteBackup := .of_record rfl rfl id

theorem setMappingBlocks_wears (s : Sys) (ba : Nat) : Wears s (s.setMappingBlocks ba) :=
  .of_record rfl rfl id

theorem markTablesClean_wears (s : Sys) : Wears s (markTablesClean s) :=
  .of_record rfl rfl (by simp [markTablesClean, Instance.changed])

theorem Wears.settled (h : Wears s s') (hclean : s.ni.changed = false ∨ s'.ni.changed = false) :
    Settled s s' := by
  refine ⟨h, fun hch => ?_⟩
  rcases hclean with hclean | hclean
  · exact (h.changed hch).resolve_left (by simp [hclean])
  · simp [hclean] at hch

theorem Settled.trans_wears (h : Settled s s') (h' : Wears s' s'') : Settled s s'' := by
  refine ⟨h.wears.trans h', fun hch => ?_⟩
  rcases h'.changed hch with hch | hspent
  · exact (h.spent hch).trans_wears h'
  · exact h.wears.trans_spent hspent

theorem Wears.trans_settled (h : Wears s s') (h' : Settled s' s'') : Settled s s'' :=
  ⟨h.trans h'.wears, fun hch => h.trans_spent (h'.spent hch)⟩

theorem markTablesClean_settled (h : Wears s s') : Settled s (markTablesClean s') :=
  (h.trans (markTablesClean_wears s')).settled (.inr rfl)

/-! ### Good blocks left -/

def liveBlocks (s : Sys) : Finset Nat :=
  (Finset.range (16 * s.ni.blockState.length)).filter fun ba => s.ni.getBlockState ba = blockStGood

theorem card_liveBlocks_le (s : Sys) : (liveBlocks s).card ≤ 16 * s.ni.blockState.length :=
  (Finset.card_filter_le _ _).trans (by simp)

theorem mem_liveBlocks {ba : Nat} : ba ∈ liveBlocks s ↔ s.ni.getBlockState ba = blockStGood := by
  simp only [liveBlocks, Finset.mem_filter, Finset.mem_range, and_iff_right_iff_imp]
  intro hgood
  have hlen : ba / 16 < s.ni.blockState.length :=
    length_of_getBlockStateRaw fun hbad => good_ne_bad (hgood.symm.trans hbad)
  omega

theorem Wears.card_lt (h : Wears s s') (hspent : Spent s s') :
    (liveBlocks s').card < (liveBlocks s).card := by
  obtain ⟨ba, hgood, hbad⟩ := hspent
  apply Finset.card_lt_card
  refine ⟨fun b hb => mem_liveBlocks.2 (h.good_of b (mem_liveBlocks.1 hb)), fun hsub => ?_⟩
  have hmem := mem_liveBlocks.1 (hsub (mem_liveBlocks.2 hgood))
  exact good_ne_bad (hmem.symm.trans hbad)

/-! ### The procedures -/

theorem writeTableDown_wears (hg : Geometry nld) (n writeBa : Nat) (s : Sys) :
    Wears s (writeTableDown nld n writeBa s).2 := by
  induction n generalizing writeBa s with
  | zero => exact .refl s
  | succ n ih =>
      rw [writeTableDown]
      have hw := (writeInfoTable_works hg writeBa s.ni.mappingBlocksTopBa s).wears
      split
      · exact hw
      · exact hw.trans (ih _ _)

theorem rebuildInfoTable_wears (hg : Geometry nld) (s : Sys) :
    Wears s (rebuildInfoTable nld s).2 ∧
      ((rebuildInfoTable nld s).1 = true → Settled s (rebuildInfoTable nld s).2) := by
  unfold rebuildInfoTable
  dsimp only
  generalize hs0 : ((s.recordMain 0 0).clearBackup).setMappingBlocks s.ni.mappingBlocksTopBa = s0
  have hw0 : Wears s s0 := hs0 ▸ .of_record rfl rfl id
  have hw1 := hw0.trans (writeInfoTable_works hg s0.ni.mgmtStartBa s.ni.mappingBlocksTopBa s0).wears
  generalize writeInfoTable nld s0.ni.mgmtStartBa s.ni.mappingBlocksTopBa s0 = w at hw1 ⊢
  split
  · exact ⟨hw1.trans (.of_record rfl rfl id), by simp⟩
  rename_i start stop hfound
  have hset := markTablesClean_settled ((hw1.trans (recordMain_wears _ start stop)).trans
    (setMappingBlocks_wears _ stop))
  generalize markTablesClean ((w.2.recordMain start stop).setMappingBlocks stop) = s2 at hset ⊢
  split
  · exact ⟨hset.wears, fun _ => hset⟩
  rename_i next hnext
  have hw3 := (writeInfoTable_works hg next s.ni.mappingBlocksTopBa s2).wears
  generalize writeInfoTable nld next s.ni.mappingBlocksTopBa s2 = b at hw3 ⊢
  split
  · exact ⟨hset.wears.trans hw3, fun _ => hset.trans_wears hw3⟩
  rename_i bstart bstop hbackup
  have hw4 := ((hw3.trans (recordBackup_wears _ bstart bstop)).trans
    (setMappingBlocks_wears _ bstop)).trans (eraseRange_works hg stop bstart _).wears
  exact ⟨hset.wears.trans hw4, fun _ => hset.trans_wears hw4⟩

theorem rescueBackup_wears (hg : Geometry nld) (stop : Nat) (s : Sys) :
    Wears s (rescueBackup nld stop s).2 := by
  unfold rescueBackup
  dsimp only
  have hw0 := setMappingBlocks_wears s stop
  generalize s.setMappingBlocks stop = s0 at hw0 ⊢
  split
  · exact hw0.trans (clearBackup_wears _)
  rename_i writeBa hreserved
  have hw1 := hw0.trans (writeTableDown_wears hg (writeBa + 1 - stop) writeBa s0)
  generalize writeTableDown nld (writeBa + 1 - stop) writeBa s0 = b at hw1 ⊢
  split
  · exact hw1.trans (clearBackup_wears _)
  · rename_i bstart bstop hfound
    exact ((hw1.trans (recordBackup_wears _ bstart bstop)).trans
      (setMappingBlocks_wears _ bstop)).trans (eraseRange_works hg stop bstart _).wears

theorem rescueMainInfoTable_wears (hg : Geometry nld) (s : Sys) :
    Wears s (rescueMainInfoTable nld s).2 := by
  unfold rescueMainInfoTable
  split
  · exact promoteBackup_wears s
  rename_i writeBa hreserved
  have hw1 := writeTableDown_wears hg (writeBa + 1 - s.ni.mappingBlocksBa) writeBa s
  dsimp only
  generalize writeTableDown nld (writeBa + 1 - s.ni.mappingBlocksBa) writeBa s = t at hw1 ⊢
  split
  · exact hw1.trans (promoteBackup_wears _)
  rename_i tstart tstop htmp
  have hw2 := hw1.trans (setMappingBlocks_wears _ tstop)
  generalize t.2.setMappingBlocks tstop = s2 at hw2 ⊢
  have hw3 := hw2.trans (writeInfoTable_works hg s2.ni.mgmtStartBa tstart s2).wears
  generalize writeInfoTable nld s2.ni.mgmtStartBa tstart s2 = w at hw3 ⊢
  split
  · exact (hw3.trans ((recordMain_wears _ tstart tstop).trans (clearBackup_wears _))).trans
      (markTablesClean_wears _)
  rename_i start stop hmain
  have hw4 := (hw3.trans (recordMain_wears _ start stop)).trans (markTablesClean_wears _)
  split
  · exact hw4.trans (recordBackup_wears _ tstart tstop)
  · exact hw4.trans (rescueBackup_wears hg stop _)

theorem writeMainTable_wears (hg : Geometry nld) (limit : Nat) (s : Sys) :
    Wears s (writeMainTable nld limit s).2 ∧
      ((writeMainTable nld limit s).1 = true →
        s.ni.changed = false ∨ s.ni.backupTableBa = 0 → Settled s (writeMainTable nld limit s).2) := by
  unfold writeMainTable
  split
  · obtain ⟨hw, hs⟩ := rebuildInfoTable_wears hg s
    exact ⟨hw, fun hok _ => hs hok⟩
  have hwork := writeInfoTable_works hg s.ni.mainTableBa limit s
  dsimp only
  generalize writeInfoTable nld s.ni.mainTableBa limit s = w at hwork ⊢
  split
  · split
    · obtain ⟨hw, hs⟩ := rebuildInfoTable_wears hg w.2
      exact ⟨hwork.wears.trans hw, fun hok _ => hwork.wears.trans_settled (hs hok)⟩
    · rename_i hne
      rw [hwork.backupTableBa] at hne
      have hw := hwork.wears.trans (rescueMainInfoTable_wears hg w.2)
      exact ⟨hw, fun _ hclean => hw.settled (.inl (hclean.resolve_right hne))⟩
  · rename_i start stop hfound
    have hs : Settled s (markTablesClean (if (w.2.recordMain start stop).ni.backupTableBa = 0 then
        (w.2.recordMain start stop).setMappingBlocks stop else w.2.recordMain start stop)) := by
      apply markTablesClean_settled
      have hw := hwork.wears.trans (recordMain_wears _ start stop)
      split
      · exact hw.trans (setMappingBlocks_wears _ stop)
      · exact hw
    exact ⟨hs.wears, fun _ _ => hs⟩

theorem updateInfoTableOnce_settled (hg : Geometry nld) (hch : s.ni.changed = true) :
    Wears s (updateInfoTableOnce nld false s).2 ∧
      ((updateInfoTableOnce nld false s).1 = true → Settled s (updateInfoTableOnce nld false s).2) := by
  have hgen : Wears s (generateInfoTableCache nld s).2 := .of_record rfl rfl id
  have hnot : ¬ ((!(generateInfoTableCache nld s).1 && !false) = true) := by
    show ¬ ((!s.ni.changed && !false) = true)
    simp [hch]
  unfold updateInfoTableOnce
  dsimp only
  rw [if_neg hnot]
  generalize (generateInfoTableCache nld s).2 = g at hgen ⊢
  split
  · rename_i hzero
    obtain ⟨hw, hs⟩ := writeMainTable_wears hg g.ni.mappingBlocksTopBa g
    exact ⟨hgen.trans hw, fun hok => hgen.trans_settled (hs hok (.inr hzero))⟩
  have hw0 := hgen.trans (writeInfoTable_works hg g.ni.backupTableBa g.ni.mappingBlocksTopBa g).wears
  generalize writeInfoTable nld g.ni.backupTableBa g.ni.mappingBlocksTopBa g = w at hw0 ⊢
  split
  · have hw1 := (hw0.trans (setMappingBlocks_wears _ w.2.ni.backupTableBa)).trans
      (clearBackup_wears _)
    obtain ⟨hw, hs⟩ := writeMainTable_wears hg
      (((w.2.setMappingBlocks w.2.ni.backupTableBa).clearBackup).ni.mappingBlocksTopBa)
      ((w.2.setMappingBlocks w.2.ni.backupTableBa).clearBackup)
    exact ⟨hw1.trans hw, fun hok => hw1.trans_settled (hs hok (.inr rfl))⟩
  · rename_i start stop hfound
    have hw1 := ((hw0.trans (recordBackup_wears _ start stop)).trans
      (setMappingBlocks_wears _ stop)).trans (markTablesClean_wears _)
    obtain ⟨hw, hs⟩ := writeMainTable_wears hg start
      (markTablesClean ((w.2.recordBackup start stop).setMappingBlocks stop))
    exact ⟨hw1.trans hw, fun hok => hw1.trans_settled (hs hok (.inl rfl))⟩

/-! ### The loops inside a round

They look for the highest place a table fits, from `write_ba` down to a block after the end of a table
just written, so the counter stays above zero. -/

theorem writeTableDownTurns_eq {base n writeBa : Nat} (hbase : 0 < base) (hba : writeBa < 2 ^ 32)
    (hn : writeBa + 1 - base < n) (s : Sys) :
    writeTableDownTurns nld base n writeBa s =
      some (writeTableDown nld (writeBa + 1 - base) writeBa s) := by
  induction n generalizing writeBa s with
  | zero => omega
  | succ n ih =>
      rw [writeTableDownTurns]
      by_cases hlt : writeBa < base
      · rw [if_pos hlt, show writeBa + 1 - base = 0 by omega, writeTableDown]
      · obtain ⟨k, hk⟩ : ∃ k, writeBa + 1 - base = k + 1 := ⟨writeBa - base, by omega⟩
        rw [if_neg hlt, hk, writeTableDown]
        dsimp only
        split
        · rfl
        · rw [sub32_of_le (by omega) hba, ih (by omega) (by omega),
            show writeBa - 1 + 1 - base = k by omega]

theorem tryReserveBlocks_lt {ni : Instance} {ba limit count nba : Nat}
    (h : tryReserveBlocks nld ni ba limit count = some nba) : nba < nld.blockCount + 1 := by
  have hwalk : ∀ {count : Nat}, blockWalkAsc nld ni ba count limit = some nba →
      nba < nld.blockCount + 1 := by
    intro count hsome
    have hclamp : clampLimit nld limit ≤ nld.blockCount := by
      unfold clampLimit
      split <;> omega
    have := walkAsc_some hsome
    omega
  induction count with
  | zero => exact hwalk h
  | succ count ih =>
      rw [tryReserveBlocks] at h
      split at h
      · rename_i found
        obtain rfl : _ = nba := by simpa using h
        exact hwalk found
      · exact ih h

section

variable (hg : Geometry nld) {n : Nat} (hn : nld.blockCount + 2 ≤ n)
include hg hn

theorem rescueBackupTurns_eq {stop : Nat} (hstop : 0 < stop) (s : Sys) :
    rescueBackupTurns nld n stop s = some (rescueBackup nld stop s) := by
  have hcount := hg.blockCount_lt
  unfold rescueBackupTurns rescueBackup
  dsimp only
  generalize s.setMappingBlocks stop = s0
  cases hreserved : tryReserveBlocks nld s0.ni stop (s0.ni.reserveLimit nld)
      nld.infoTableSpareBlocks with
  | none => rfl
  | some writeBa =>
      have hlt := tryReserveBlocks_lt hreserved
      dsimp only
      rw [writeTableDownTurns_eq hstop (by omega) (by omega)]
      rcases writeTableDown nld (writeBa + 1 - stop) writeBa s0 with ⟨_ | ⟨bstart, bstop⟩, b⟩
      · rfl
      · rfl

theorem rescueMainInfoTableTurns_eq (hc : s.ni.infoTableCache ≠ [])
    (hba : 0 < s.ni.mappingBlocksBa) :
    rescueMainInfoTableTurns nld n s = some (rescueMainInfoTable nld s) := by
  have hcount := hg.blockCount_lt
  unfold rescueMainInfoTableTurns rescueMainInfoTable
  cases hreserved : tryReserveBlocks nld s.ni s.ni.mappingBlocksBa (s.ni.reserveLimit nld)
      nld.infoTableSpareBlocks with
  | none => rfl
  | some writeBa =>
      have hlt := tryReserveBlocks_lt hreserved
      dsimp only
      rw [writeTableDownTurns_eq hba (by omega) (by omega), Option.bind_some]
      rcases hdown : writeTableDown nld (writeBa + 1 - s.ni.mappingBlocksBa) writeBa s with ⟨r, s1⟩
      obtain ⟨hwork, -⟩ := writeTableDown_cases hg hc (by omega) hdown
      rcases r with _ | ⟨tstart, tstop⟩
      · rfl
      have hc2 : (s1.setMappingBlocks tstop).ni.infoTableCache ≠ [] := hwork.infoTableCache ▸ hc
      dsimp only
      generalize s1.setMappingBlocks tstop = s2 at hc2 ⊢
      rcases hmain : writeInfoTable nld s2.ni.mgmtStartBa tstart s2 with ⟨r, s3⟩
      obtain ⟨-, hsome⟩ := writeInfoTable_cases hg hc2 hmain
      rcases r with _ | ⟨start, stop⟩
      · rfl
      obtain ⟨-, hlt, -⟩ := hsome start stop rfl
      dsimp only
      split
      · rfl
      · exact rescueBackupTurns_eq hg hn (by omega) _

theorem writeMainTableTurns_eq (limit : Nat) (hc : s.ni.infoTableCache ≠ [])
    (hba : s.ni.backupTableBa ≠ 0 → 0 < s.ni.mappingBlocksBa) :
    writeMainTableTurns nld n limit s = some (writeMainTable nld limit s) := by
  unfold writeMainTableTurns writeMainTable
  split
  · rfl
  dsimp only
  rcases hmain : writeInfoTable nld s.ni.mainTableBa limit s with ⟨r, s1⟩
  obtain ⟨hwork, -⟩ := writeInfoTable_cases hg hc hmain
  rcases r with _ | ⟨start, stop⟩
  · dsimp only
    split
    · rfl
    · rename_i hne
      apply rescueMainInfoTableTurns_eq hg hn
      · exact hwork.infoTableCache ▸ hc
      · rw [hwork.mappingBlocksBa]
        exact hba (hwork.backupTableBa ▸ hne)
  · rfl

theorem updateInfoTableOnceTurns_eq (force : Bool) (s : Sys) :
    updateInfoTableOnceTurns nld n force s = some (updateInfoTableOnce nld force s) := by
  have hc := generate_cache_ne_nil nld s
  unfold updateInfoTableOnceTurns updateInfoTableOnce
  dsimp only
  split
  · rfl
  generalize (generateInfoTableCache nld s).2 = g at hc ⊢
  split
  · rename_i hzero
    exact writeMainTableTurns_eq hg hn _ hc (fun hne => absurd hzero hne)
  rcases hback : writeInfoTable nld g.ni.backupTableBa g.ni.mappingBlocksTopBa g with ⟨r, s1⟩
  obtain ⟨hwork, hsome⟩ := writeInfoTable_cases hg hc hback
  have hc1 : s1.ni.infoTableCache ≠ [] := hwork.infoTableCache ▸ hc
  rcases r with _ | ⟨start, stop⟩
  · exact writeMainTableTurns_eq hg hn _
      (s := (s1.setMappingBlocks s1.ni.backupTableBa).clearBackup) hc1 (fun hne => absurd rfl hne)
  · obtain ⟨-, hlt, -⟩ := hsome start stop rfl
    exact writeMainTableTurns_eq hg hn _
      (s := markTablesClean ((s1.recordBackup start stop).setMappingBlocks stop)) hc1
      (fun _ => show 0 < stop by omega)

/-! ### All rounds, and all retries -/

theorem updateInfoTableLoopTurns_leaves {k : Nat} (hk : (liveBlocks s).card + 2 ≤ k) :
    ∃ r, updateInfoTableLoopTurns nld n k s = some r ∧ Wears s r.2 := by
  induction k generalizing s with
  | zero => omega
  | succ k ih =>
      rw [updateInfoTableLoopTurns]
      split
      · exact ⟨(true, s), rfl, .refl s⟩
      rename_i hch
      obtain ⟨hw, hsettled⟩ := updateInfoTableOnce_settled hg (by simpa using hch)
      rw [updateInfoTableOnceTurns_eq hg hn, Option.bind_some]
      generalize updateInfoTableOnce nld false s = r at hw hsettled ⊢
      split
      · exact ⟨(false, r.2), rfl, hw⟩
      rename_i hok
      have hs := hsettled (by simpa using hok)
      cases hmore : r.2.ni.changed with
      | true =>
          have hlt := hw.card_lt (hs.spent hmore)
          obtain ⟨r', hr', hw'⟩ := ih (s := r.2) (by omega)
          exact ⟨r', hr', hw.trans hw'⟩
      | false =>
          obtain ⟨k, rfl⟩ := Nat.exists_eq_succ_of_ne_zero (by omega : k ≠ 0)
          refine ⟨(true, r.2), ?_, hw⟩
          simp [updateInfoTableLoopTurns, hmore]

theorem updateInfoTableTurns_leaves (hlen : 16 * s.ni.blockState.length + 2 ≤ n) :
    ∃ r, updateInfoTableTurns nld n s = some r ∧ Wears s r.2 := by
  unfold updateInfoTableTurns
  split
  · exact ⟨(true, s), rfl, .refl s⟩
  · have := card_liveBlocks_le s
    exact updateInfoTableLoopTurns_leaves hg hn (by omega)

/-- Either the pool is used up, or its top is lowered and was not at block 0. -/
theorem mapBlockTurns_leaves (lb : Nat) (hlen : 16 * s.ni.blockState.length + 2 ≤ n) :
    ∃ m, mapBlockTurns nld n lb s = some m ∧
      m.2.ni.blockState.length = s.ni.blockState.length ∧
      (m.1 = true → m.2.ni.mappingBlocksTopBa + 1 = s.ni.mappingBlocksTopBa) := by
  unfold mapBlockTurns
  split
  · exact ⟨_, rfl, rfl, by simp⟩
  dsimp only
  split
  · obtain ⟨u, hu, hw⟩ := updateInfoTableTurns_leaves (s := logMap s) hg hn hlen
    rw [hu]
    exact ⟨_, rfl, hw.length, by simp⟩
  · rename_i pb hpb
    refine ⟨_, rfl, rfl, fun _ => ?_⟩
    have hpos : 0 < (logMap s).ni.mappingBlocksTopBa := by
      by_contra hzero
      simp [blockWalkDesc, walkDesc, show (logMap s).ni.mappingBlocksTopBa = 0 by omega] at hpb
    have htop : (logMap s).ni.mappingBlocksTopBa = s.ni.mappingBlocksTopBa := rfl
    dsimp only
    omega

omit hg hn in
variable (nld) in
theorem erasePhys_size (pb : Nat) (s : Sys) :
    (erasePhys nld pb s).2.ni.blockState.length = s.ni.blockState.length ∧
      (erasePhys nld pb s).2.ni.mappingBlocksTopBa = s.ni.mappingBlocksTopBa := by
  unfold erasePhys
  split
  · exact ⟨rfl, rfl⟩
  dsimp only
  split
  · exact ⟨length_setBlockStateRaw _ _ _, rfl⟩
  split
  · exact ⟨rfl, rfl⟩
  · exact ⟨length_setBlockStateRaw _ _ _, rfl⟩

omit hg hn in
theorem retire_size (pb : Nat) (s : Sys) :
    (retire pb s).ni.blockState.length = s.ni.blockState.length ∧
      (retire pb s).ni.mappingBlocksTopBa = s.ni.mappingBlocksTopBa := by
  unfold retire
  split
  · exact ⟨length_setBlockStateRaw _ _ _, rfl⟩
  · exact ⟨rfl, rfl⟩

theorem eraseLogicLoopTurns_leaves {k : Nat} (lb : Nat)
    (hlen : 16 * s.ni.blockState.length + 2 ≤ n) (hk : s.ni.mappingBlocksTopBa < k) :
    ∃ r, eraseLogicLoopTurns nld n k lb s = some r := by
  induction k generalizing s with
  | zero => omega
  | succ k ih =>
      rw [eraseLogicLoopTurns]
      split
      · exact ⟨_, rfl⟩
      dsimp only
      obtain ⟨helen, hetop⟩ := erasePhys_size nld (s.ni.mapping lb).toNat s
      generalize erasePhys nld (s.ni.mapping lb).toNat s = e at helen hetop ⊢
      split
      · exact ⟨_, rfl⟩
      obtain ⟨m, hm, hmlen, hmtop⟩ := mapBlockTurns_leaves (s := e.2) hg hn lb (by omega)
      rw [hm, Option.bind_some]
      split
      · obtain ⟨hrlen, -⟩ := retire_size (s.ni.mapping lb).toNat (unmap lb m.2)
        have hulen : (unmap lb m.2).ni.blockState.length = m.2.ni.blockState.length := rfl
        obtain ⟨u, hu, -⟩ := updateInfoTableTurns_leaves hg hn
          (s := logUnmap lb (retire (s.ni.mapping lb).toNat (unmap lb m.2)))
          (show 16 * (retire (s.ni.mapping lb).toNat (unmap lb m.2)).ni.blockState.length + 2 ≤ n by
            omega)
        rw [hu]
        exact ⟨_, rfl⟩
      · rename_i hok
        have htop := hmtop (by simpa using hok)
        obtain ⟨hrlen, hrtop⟩ := retire_size (s.ni.mapping lb).toNat m.2
        obtain ⟨u, hu, hw⟩ := updateInfoTableTurns_leaves hg hn
          (s := retire (s.ni.mapping lb).toNat m.2) (by omega)
        rw [hu, Option.bind_some]
        have hulen := hw.length
        have hutop := hw.top
        exact ih (by omega) (by omega)

end

/-- Whatever the device answers, from some number of turns on no loop of an erase is still running. -/
theorem eraseLogicBlock_returns (hg : Geometry nld) (s : Sys) (lb : Nat) :
    ∃ bound, ∀ n, bound ≤ n → ∃ r, eraseLogicBlockTurns nld n lb s = some r := by
  refine ⟨nld.blockCount + 16 * s.ni.blockState.length + s.ni.mappingBlocksTopBa + 2,
    fun n hn => ?_⟩
  exact eraseLogicLoopTurns_leaves hg (by omega) lb (by omega) (by omega)

/-- A new chip on which from now on nothing works. -/
def failingChip : Sys :=
  let s := (createNew (smallChip 16 8) (fresh (smallChip 16 8) (blankDevice []))).2
  { s with dev := { s.dev with tape := fun _ => ⟨-eio, -eio, -eio, -eio, true, .erased⟩ } }

set_option maxRecDepth 100000 in
theorem eraseLogicBlock_returns_failingChip :
    failingChip.ni.mappingBlocksBa ≤ failingChip.ni.mappingBlocksTopBa ∧
      ∃ bound, ∀ n, bound ≤ n → ∃ r, eraseLogicBlockTurns (smallChip 16 8) n 0 failingChip = some r :=
  ⟨by decide +kernel, eraseLogicBlock_returns smallChip_geometry failingChip 0⟩

end Immwrt.Nmbm
