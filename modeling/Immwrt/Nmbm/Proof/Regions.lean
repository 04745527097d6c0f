import Immwrt.Nmbm.Proof.Mgmt

/-!
# The management region

The tables, the pool and the signature lie in order, whatever the device does: `Regions` holds before
and after each of the procedures that write tables, and none of them works outside the region between
`mgmt_start_ba` and `mapping_blocks_top_ba` (`Updates`). Every table they leave recorded has just been
written (`Fresh`), so it is on the chip if its blocks are consecutive.
-/

namespace Immwrt.Nmbm

variable {nld : LowerDevice}

/-! ### The order -/

/-- The order of the pieces of the management region. The ends of the two tables are not members of
the instance: they are taken from the history. -/
structure Regions (s : Sys) : Prop where
  start_le : s.ni.mgmtStartBa ≤ s.ni.mappingBlocksBa
  le_top : s.ni.mappingBlocksBa ≤ s.ni.mappingBlocksTopBa
  top_lt : s.ni.mappingBlocksTopBa < s.ni.signatureBa
  main : s.ni.mainTableBa ≠ 0 → s.ni.mgmtStartBa ≤ s.ni.mainTableBa ∧
    s.ni.mainTableBa < s.hist.mainTableEba ∧ s.hist.mainTableEba ≤ s.ni.mappingBlocksBa
  backup : s.ni.backupTableBa ≠ 0 → s.ni.mgmtStartBa ≤ s.ni.backupTableBa ∧
    s.ni.backupTableBa < s.hist.backupTableEba ∧ s.hist.backupTableEba ≤ s.ni.mappingBlocksBa
  apart : s.ni.mainTableBa ≠ 0 → s.ni.backupTableBa ≠ 0 →
    s.hist.mainTableEba ≤ s.ni.backupTableBa

/-! ### Frames -/

/-- From `s` to `s'` the info tables were generated or written: the mapping and the pool's top are as
they were, and only blocks of the management region below the top were worked on. -/
structure Keeps (nld : LowerDevice) (s s' : Sys) : Prop where
  rest : s'.ni = { s.ni with
    infoTableCache := s'.ni.infoTableCache
    infoTable := s'.ni.infoTable
    blockState := s'.ni.blockState
    blockStateChanged := s'.ni.blockStateChanged
    blockMappingChanged := s'.ni.blockMappingChanged
    isProtected := s'.ni.isProtected
    mainTableBa := s'.ni.mainTableBa
    backupTableBa := s'.ni.backupTableBa
    mappingBlocksBa := s'.ni.mappingBlocksBa }
  offsets : s'.ni.infoTable.stateTableOff = s.ni.infoTable.stateTableOff ∧
    s'.ni.infoTable.mappingTableOff = s.ni.infoTable.mappingTableOff
  length : s'.ni.blockState.length = s.ni.blockState.length
  state : ∀ ba, s'.ni.getBlockState ba = s.ni.getBlockState ba ∨
    s.ni.mgmtStartBa ≤ ba ∧ ba < s.ni.mappingBlocksTopBa ∧
      s.ni.getBlockState ba = blockStGood ∧ s'.ni.getBlockState ba = blockStBad
  touches : Touches nld {ba | s.ni.mgmtStartBa ≤ ba ∧ ba < s.ni.mappingBlocksTopBa} s.dev s'.dev
  access : ∀ a ∈ s'.hist.mgmt, a ∈ s.hist.mgmt ∨ s.ni.mgmtStartBa ≤ a.ba ∧
    a.ba < s.ni.mappingBlocksTopBa ∧ a.blockMapping = s.ni.blockMapping ∧
    a.dataBlockCount = s.ni.dataBlockCount ∧ a.signatureBa = s.ni.signatureBa
  tables : s.hist.tables <:+ s'.hist.tables
  hist : s'.hist = { s.hist with
    mgmt := s'.hist.mgmt
    badFound := s'.hist.badFound
    tables := s'.hist.tables
    mainTableEba := s'.hist.mainTableEba
    backupTableEba := s'.hist.backupTableEba }
  isProtected : s.ni.isProtected = true → s'.ni.isProtected = true

/-- The same for writing alone, which also leaves the image as it is. -/
structure Updates (nld : LowerDevice) (s s' : Sys) : Prop extends Keeps nld s s' where
  infoTableCache : s'.ni.infoTableCache = s.ni.infoTableCache
  infoTable : s'.ni.infoTable = s.ni.infoTable
  found : s'.hist.badFound = s.hist.badFound ∧ s'.ni.blockState = s.ni.blockState ∨
    s'.hist.badFound ≠ [] ∧
      ∃ ba, s.ni.getBlockState ba = blockStGood ∧ s'.ni.getBlockState ba = blockStBad

variable {lo hi : Nat} {s s' s'' : Sys}

theorem Keeps.bad_of (h : Keeps nld s s') {ba : Nat}
    (hbad : s.ni.getBlockState ba = blockStBad) : s'.ni.getBlockState ba = blockStBad := by
  rcases h.state ba with hsame | ⟨-, -, hgood, -⟩
  · rwa [hsame]
  · rw [hbad] at hgood
    exact absurd hgood.symm good_ne_bad

theorem Keeps.good_of (h : Keeps nld s s') {ba : Nat}
    (hgood : s'.ni.getBlockState ba = blockStGood) : s.ni.getBlockState ba = blockStGood := by
  rcases h.state ba with hsame | ⟨-, -, hgood', -⟩
  · rwa [← hsame]
  · exact hgood'

theorem Keeps.refl (s : Sys) : Keeps nld s s where
  rest := rfl
  offsets := ⟨rfl, rfl⟩
  length := rfl
  state _ := .inl rfl
  touches := .refl _ _
  access _ ha := .inl ha
  tables := List.suffix_rfl
  hist := rfl
  isProtected := id

theorem Keeps.trans (h : Keeps nld s s') (h' : Keeps nld s' s'') : Keeps nld s s'' where
  rest := by rw [h'.rest, h.rest]
  offsets := ⟨h'.offsets.1.trans h.offsets.1, h'.offsets.2.trans h.offsets.2⟩
  length := h'.length.trans h.length
  state ba := by
    have hstate := h'.state ba
    rw [h.rest] at hstate
    rcases hstate with hsame | ⟨hlo, hhi, hgood, hbad⟩
    · rw [hsame, ← h.rest]
      exact h.state ba
    · rw [← h.rest] at hgood
      exact .inr ⟨hlo, hhi, h.good_of hgood, hbad⟩
  touches := by
    have htouch := h'.touches
    rw [h.rest] at htouch
    exact h.touches.trans htouch
  access a ha := by
    rcases h'.access a ha with ha | ha
    · exact h.access a ha
    · rw [h.rest] at ha
      exact .inr ha
  tables := h.tables.trans h'.tables
  hist := by rw [h'.hist, h.hist]
  isProtected hp := h'.isProtected (h.isProtected hp)

theorem Updates.refl (s : Sys) : Updates nld s s :=
  ⟨.refl s, rfl, rfl, .inl ⟨rfl, rfl⟩⟩

theorem Updates.trans (h : Updates nld s s') (h' : Updates nld s' s'') : Updates nld s s'' where
  toKeeps := h.toKeeps.trans h'.toKeeps
  infoTableCache := h'.infoTableCache.trans h.infoTableCache
  infoTable := h'.infoTable.trans h.infoTable
  found := by
    rcases h.found with ⟨hfound, hstate⟩ | ⟨hfound, ba, hgood, hbad⟩
    · rcases h'.found with ⟨hfound', hstate'⟩ | ⟨hfound', ba, hgood', hbad'⟩
      · exact .inl ⟨hfound'.trans hfound, hstate'.trans hstate⟩
      · exact .inr ⟨hfound', ba, h.good_of hgood', hbad'⟩
    · rcases h'.found with ⟨hfound', -⟩ | ⟨hfound', -⟩
      · exact .inr ⟨hfound' ▸ hfound, ba, hgood, h'.bad_of hbad⟩
      · exact .inr ⟨hfound', ba, hgood, h'.bad_of hbad⟩

/-- Work inside the region. -/
theorem Works.updates (h : Works nld lo hi s s') (hlo : s.ni.mgmtStartBa ≤ lo)
    (hhi : hi ≤ s.ni.mappingBlocksTopBa) : Updates nld s s' where
  rest := by rw [h.rest]
  offsets := by rw [h.rest]; exact ⟨rfl, rfl⟩
  length := h.length
  state ba := (h.state ba).imp_right fun ⟨h1, h2, h3⟩ => ⟨by omega, by omega, h3⟩
  touches := h.touches.mono fun _ hba => ⟨hlo.trans hba.1, hba.2.trans_le hhi⟩
  access a ha := (h.access a ha).imp_right fun ⟨h1, h2, h3⟩ => ⟨by omega, by omega, h3⟩
  tables := h.tables
  hist := by rw [h.hist]
  isProtected hp := by rw [h.rest]; exact hp
  infoTableCache := by rw [h.rest]
  infoTable := by rw [h.rest]
  found := by
    rcases h.found with ⟨hfound, hni⟩ | ⟨hfound, -, hba⟩
    · exact .inl ⟨hfound, by rw [hni]⟩
    · exact .inr ⟨hfound, hba⟩

/-- Recording where the tables are, and that they are clean. -/
theorem Updates.record (h : Updates nld s s')
    (hni : s''.ni = { s'.ni with
      blockStateChanged := s''.ni.blockStateChanged
      blockMappingChanged := s''.ni.blockMappingChanged
      isProtected := s''.ni.isProtected
      mainTableBa := s''.ni.mainTableBa
      backupTableBa := s''.ni.backupTableBa
      mappingBlocksBa := s''.ni.mappingBlocksBa })
    (hprot : s'.ni.isProtected = true → s''.ni.isProtected = true) (hdev : s''.dev = s'.dev)
    (hhist : s''.hist = { s'.hist with
      mainTableEba := s''.hist.mainTableEba
      backupTableEba := s''.hist.backupTableEba }) : Updates nld s s'' := by
  refine h.trans ⟨⟨by rw [hni], by rw [hni]; exact ⟨rfl, rfl⟩, by rw [hni], fun ba => .inl ?_, ?_,
    fun a ha => .inl ?_, ?_, by rw [hhist], hprot⟩, by rw [hni], by rw [hni],
    .inl ⟨by rw [hhist], by rw [hni]⟩⟩
  · rw [Instance.getBlockState, hni]
    rfl
  · rw [hdev]
    exact .refl _ _
  · rw [hhist] at ha
    exact ha
  · rw [hhist]

/-! ### Writing one table -/

theorem writeInfoTable_works (hg : Geometry nld) (ba limit : Nat) (s : Sys) :
    Works nld ba limit s (writeInfoTable nld ba limit s).2 := by
  unfold writeInfoTable writeMgmtRange
  have hloop : Works nld ba limit s
      (writeMgmtLoop nld s.ni.infoTableCache.length (limit - ba) ba s.ni.infoTableCache 0 s).2 := by
    by_cases hle : ba ≤ limit
    · have := writeMgmtLoop_works hg s.ni.infoTableCache.length (limit - ba) ba
        s.ni.infoTableCache 0 s
      rwa [Nat.add_sub_cancel' hle] at this
    · have hnone : limit - ba = 0 := by omega
      rw [hnone]
      exact .refl _ _ s
  refine hloop.trans ⟨rfl, rfl, fun _ => .inl rfl, .inl ⟨rfl, rfl⟩, .refl _ _, fun a ha => .inl ha,
    ?_, rfl⟩
  exact List.suffix_append _ _

/-- Erase blocks of the image. -/
def Sys.tableBlocks (nld : LowerDevice) (s : Sys) : Nat :=
  nld.size2blk s.ni.infoTableCache.length

/-- A table from `a` to `e` was written with the image: it is on the chip if it has no gap. -/
structure Wrote (nld : LowerDevice) (a e : Nat) (s : Sys) : Prop where
  logged : (a, e) ∈ s.hist.tables
  written : e = a + s.tableBlocks nld → Written nld a s.ni.infoTableCache s

theorem writeInfoTable_some (hg : Geometry nld) {ba limit a e : Nat} {s : Sys}
    (hc : s.ni.infoTableCache ≠ []) (h : (writeInfoTable nld ba limit s).1 = some (a, e)) :
    ba ≤ a ∧ a < e ∧ e ≤ limit ∧ Wrote nld a e (writeInfoTable nld ba limit s).2 := by
  have hwork := writeInfoTable_works hg ba limit s
  have hle : ba ≤ limit := by
    by_contra hlt
    have hnone : limit - ba = 0 := by omega
    simp [writeInfoTable, writeMgmtRange, hnone, writeMgmtLoop, hc] at h
  obtain ⟨hba, hblocks, hend, hcont⟩ := writeMgmtLoop_some hg hc h
  have hpos := size2blk_pos hg (List.length_pos_of_ne_nil hc)
  refine ⟨hba, by omega, by omega, ?_, fun he => ?_⟩
  · have hfound : (writeMgmtRange nld ba limit s.ni.infoTableCache s).1 = some (a, e) := h
    simp [writeInfoTable, logTable, hfound]
  · have hcache : (writeInfoTable nld ba limit s).2.ni.infoTableCache = s.ni.infoTableCache := by
      rw [hwork.rest]
    unfold Sys.tableBlocks at he
    rw [hcache] at he ⊢
    obtain ⟨hbytes, hunmarked, hgood⟩ := hcont he
    exact ⟨hbytes, hunmarked, hgood⟩

/-- A table stays on the chip while blocks elsewhere are worked on. -/
theorem Wrote.of_works (hg : Geometry nld) {a e : Nat} (h : Wrote nld a e s)
    (hw : Works nld lo hi s s') (hdisj : e ≤ lo ∨ hi ≤ a) : Wrote nld a e s' := by
  have hcache : s'.ni.infoTableCache = s.ni.infoTableCache := by rw [hw.rest]
  refine ⟨hw.tables.mem h.logged, fun he => ?_⟩
  unfold Sys.tableBlocks at he
  rw [hcache] at he ⊢
  exact (h.written he).of_works hg hw (by omega)

theorem Wrote.congr {a e : Nat} (h : Wrote nld a e s) (hdev : s'.dev = s.dev)
    (htables : s'.hist.tables = s.hist.tables)
    (hcache : s'.ni.infoTableCache = s.ni.infoTableCache)
    (hstate : s'.ni.blockState = s.ni.blockState) : Wrote nld a e s' := by
  refine ⟨htables ▸ h.logged, fun he => ?_⟩
  unfold Sys.tableBlocks at he
  rw [hcache] at he ⊢
  obtain ⟨hbytes, hunmarked, hgood⟩ := h.written he
  refine ⟨by rwa [hdev], by rwa [hdev], ?_⟩
  unfold Instance.getBlockState
  rw [hstate]
  exact hgood

/-- Every table on record was written with the image. -/
structure Fresh (nld : LowerDevice) (s : Sys) : Prop where
  main : s.ni.mainTableBa ≠ 0 → Wrote nld s.ni.mainTableBa s.hist.mainTableEba s
  backup : s.ni.backupTableBa ≠ 0 → Wrote nld s.ni.backupTableBa s.hist.backupTableEba s

section

variable (h : Works nld lo hi s s')
include h

theorem Works.mainTableBa : s'.ni.mainTableBa = s.ni.mainTableBa := by rw [h.rest]

theorem Works.backupTableBa : s'.ni.backupTableBa = s.ni.backupTableBa := by rw [h.rest]

theorem Works.mappingBlocksBa : s'.ni.mappingBlocksBa = s.ni.mappingBlocksBa := by rw [h.rest]

theorem Works.mappingBlocksTopBa : s'.ni.mappingBlocksTopBa = s.ni.mappingBlocksTopBa := by
  rw [h.rest]

theorem Works.mgmtStartBa : s'.ni.mgmtStartBa = s.ni.mgmtStartBa := by rw [h.rest]

theorem Works.signatureBa : s'.ni.signatureBa = s.ni.signatureBa := by rw [h.rest]

theorem Works.infoTableCache : s'.ni.infoTableCache = s.ni.infoTableCache := by rw [h.rest]

theorem Works.isProtected : s'.ni.isProtected = s.ni.isProtected := by rw [h.rest]

theorem Works.mainTableEba : s'.hist.mainTableEba = s.hist.mainTableEba := by rw [h.hist]

theorem Works.backupTableEba : s'.hist.backupTableEba = s.hist.backupTableEba := by rw [h.hist]

/-- The pieces stay where they are while blocks are worked on. -/
theorem Regions.of_works (hr : Regions s) : Regions s' := by
  obtain ⟨h1, h2, h3, h4, h5, h6⟩ := hr
  constructor
  all_goals
    simp only [h.mainTableBa, h.backupTableBa, h.mappingBlocksBa, h.mappingBlocksTopBa,
      h.mgmtStartBa, h.signatureBa, h.mainTableEba, h.backupTableEba]
    omega

end

/-- One attempt to write a table, whatever came of it. -/
theorem writeInfoTable_cases (hg : Geometry nld) {ba limit : Nat} {r : Option (Nat × Nat)}
    (hc : s.ni.infoTableCache ≠ []) (h : writeInfoTable nld ba limit s = (r, s')) :
    Works nld ba limit s s' ∧
      ∀ a e, r = some (a, e) → ba ≤ a ∧ a < e ∧ e ≤ limit ∧ Wrote nld a e s' := by
  have hwork := writeInfoTable_works hg ba limit s
  rw [h] at hwork
  refine ⟨hwork, fun a e hr => ?_⟩
  have hsome := writeInfoTable_some hg hc (by rw [h, hr])
  rwa [h] at hsome

theorem writeTableDown_cases (hg : Geometry nld) {n writeBa : Nat} {r : Option (Nat × Nat)}
    (hc : s.ni.infoTableCache ≠ []) (hn : n ≤ writeBa + 1)
    (h : writeTableDown nld n writeBa s = (r, s')) :
    Works nld (writeBa + 1 - n) s.ni.mappingBlocksTopBa s s' ∧
      ∀ a e, r = some (a, e) → writeBa + 1 - n ≤ a ∧ a < e ∧ e ≤ s.ni.mappingBlocksTopBa ∧
        Wrote nld a e s' := by
  induction n generalizing writeBa s with
  | zero =>
      obtain ⟨rfl, rfl⟩ : none = r ∧ s = s' := by simpa [writeTableDown] using h
      exact ⟨.refl _ _ _, by simp⟩
  | succ n ih =>
      rw [writeTableDown] at h
      rcases hres : writeInfoTable nld writeBa s.ni.mappingBlocksTopBa s with ⟨r1, s1⟩
      obtain ⟨hw, hsome⟩ := writeInfoTable_cases hg hc hres
      rw [hres] at h
      cases r1 with
      | some p =>
          obtain ⟨rfl, rfl⟩ : some p = r ∧ s1 = s' := by simpa using h
          refine ⟨hw.mono (by omega) le_rfl, fun a e hae => ?_⟩
          obtain ⟨ha, hlt, hle, hwrote⟩ := hsome a e hae
          exact ⟨by omega, hlt, hle, hwrote⟩
      | none =>
          have htop := hw.mappingBlocksTopBa
          have hnext : writeTableDown nld n (writeBa - 1) s1 = (r, s') := by simpa using h
          have hrest := ih (hw.infoTableCache ▸ hc) (by omega) hnext
          rw [htop] at hrest
          refine ⟨(hw.mono (by omega) le_rfl).trans (hrest.1.mono (by omega) le_rfl),
            fun a e hae => ?_⟩
          obtain ⟨ha, hlt, hle, hwrote⟩ := hrest.2 a e hae
          exact ⟨by omega, hlt, hle, hwrote⟩

/-! ### The procedures -/

/-- What a procedure that writes tables comes to. -/
structure Settles (nld : LowerDevice) (s : Sys) (r : Bool × Sys) : Prop where
  updates : Updates nld s r.2
  regions : Regions r.2
  fresh : Fresh nld r.2
  failed : r.1 = false → r.2.ni.isProtected = true
  succeeded : r.1 = true → r.2.ni.isProtected = s.ni.isProtected
  recorded : r.1 = true → 0 < s.ni.mgmtStartBa → r.2.ni.mainTableBa ≠ 0
  clean : r.1 = true → r.2.ni.changed = true →
    (∃ ba, s.ni.getBlockState ba = blockStGood ∧ r.2.ni.getBlockState ba = blockStBad) ∨
      s.ni.changed = true ∧ s.ni.backupTableBa ≠ 0

/-- A change that work left behind is a bad block it found. -/
theorem Works.changed (h : Works nld lo hi s s') (hch : s'.ni.changed = true) :
    (∃ ba, s.ni.getBlockState ba = blockStGood ∧ s'.ni.getBlockState ba = blockStBad) ∨
      s.ni.changed = true := by
  rcases h.found with ⟨-, hni⟩ | ⟨-, -, hba⟩
  · rw [hni] at hch
    exact .inr hch
  · exact .inl hba

theorem Settles.after {r : Bool × Sys} (h : Works nld lo hi s s') (hlo : s.ni.mgmtStartBa ≤ lo)
    (hhi : hi ≤ s.ni.mappingBlocksTopBa) (hs : Settles nld s' r) : Settles nld s r := by
  refine ⟨(h.updates hlo hhi).trans hs.updates, hs.regions, hs.fresh, hs.failed, fun hok => ?_,
    fun hok hpos => ?_, fun hok hch => ?_⟩
  · rw [hs.succeeded hok, h.isProtected]
  · apply hs.recorded hok
    rwa [h.mgmtStartBa]
  · rcases hs.clean hok hch with ⟨ba, hgood, hbad⟩ | ⟨hch', hne⟩
    · exact .inl ⟨ba, h.good_of hgood, hbad⟩
    · rcases h.changed hch' with ⟨ba, hgood, hbad⟩ | hch
      · exact .inl ⟨ba, hgood, hs.updates.bad_of hbad⟩
      · exact .inr ⟨hch, h.backupTableBa ▸ hne⟩

theorem rebuildInfoTable_settles (hg : Geometry nld) (hc : s.ni.infoTableCache ≠ [])
    (hstart : s.ni.mgmtStartBa ≤ s.ni.mappingBlocksTopBa)
    (hsig : s.ni.mappingBlocksTopBa < s.ni.signatureBa) :
    Settles nld s (rebuildInfoTable nld s) := by
  unfold rebuildInfoTable
  dsimp only
  set s0 := ((s.recordMain 0 0).clearBackup).setMappingBlocks s.ni.mappingBlocksTopBa with hs0
  have hu0 : Updates nld s s0 := (Updates.refl s).record rfl id rfl rfl
  have hc0 : s0.ni.infoTableCache ≠ [] := hc
  rcases hres : writeInfoTable nld s0.ni.mgmtStartBa s.ni.mappingBlocksTopBa s0 with ⟨r1, s1⟩
  obtain ⟨hw1, hsome1⟩ := writeInfoTable_cases hg hc0 hres
  have hu1 : Updates nld s s1 := hu0.trans (hw1.updates le_rfl le_rfl)
  have hmain : s1.ni.mainTableBa = 0 := hw1.mainTableBa
  have hbackup : s1.ni.backupTableBa = 0 := hw1.backupTableBa
  have hblocks : s1.ni.mappingBlocksBa = s.ni.mappingBlocksTopBa := hw1.mappingBlocksBa
  have htop : s1.ni.mappingBlocksTopBa = s.ni.mappingBlocksTopBa := hw1.mappingBlocksTopBa
  have hmgmt : s1.ni.mgmtStartBa = s.ni.mgmtStartBa := hw1.mgmtStartBa
  have hsigba : s1.ni.signatureBa = s.ni.signatureBa := hw1.signatureBa
  cases r1 with
  | none =>
      refine ⟨hu1.record rfl (fun _ => rfl) rfl rfl, ?_, ⟨?_, ?_⟩, fun _ => rfl, by simp, by simp, by simp⟩
      · constructor
        all_goals
          simp only [hmain, hbackup, hblocks, htop, hmgmt, hsigba]
          omega
      · exact fun hne => absurd hmain hne
      · exact fun hne => absurd hbackup hne
  | some p =>
      obtain ⟨a, e⟩ := p
      obtain ⟨ha, hae, he, hwrote⟩ := hsome1 a e rfl
      have ha' : s.ni.mgmtStartBa ≤ a := ha
      dsimp only
      set s2 := markTablesClean ((s1.recordMain a e).setMappingBlocks e) with hs2
      have hu2 : Updates nld s s2 := hu1.record rfl id rfl rfl
      have hp2 : s2.ni.isProtected = s.ni.isProtected := hw1.isProtected
      have hr2 : Regions s2 := by
        constructor
        all_goals
          simp only [hs2, markTablesClean, Sys.recordMain, Sys.setMappingBlocks, hbackup, htop, hmgmt,
            hsigba]
          omega
      have hwrote2 : Wrote nld a e s2 := hwrote.congr rfl rfl rfl rfl
      have hf2 : Fresh nld s2 := ⟨fun _ => hwrote2, fun hne => absurd hbackup hne⟩
      have hclean2 : s2.ni.changed = false := rfl
      have hne2 : 0 < s.ni.mgmtStartBa → s2.ni.mainTableBa ≠ 0 := by
        intro hpos
        show a ≠ 0
        omega
      split
      · exact ⟨hu2, hr2, hf2, by simp, fun _ => hp2, fun _ => hne2, by simp [hclean2]⟩
      rename_i next hnext
      have hnext := tryReserveBlocks_some hnext
      have hc2 : s2.ni.infoTableCache ≠ [] := hw1.infoTableCache ▸ hc0
      rcases hres3 : writeInfoTable nld next s.ni.mappingBlocksTopBa s2 with ⟨r3, s3⟩
      obtain ⟨hw3, hsome3⟩ := writeInfoTable_cases hg hc2 hres3
      have hu3 : Updates nld s s3 := hu2.trans (hw3.updates
        (by simp only [hs2, markTablesClean, Sys.recordMain, Sys.setMappingBlocks, hmgmt]; omega)
        htop.ge)
      have hr3 : Regions s3 := hr2.of_works hw3
      have hwrote3 : Wrote nld a e s3 := hwrote2.of_works hg hw3 (.inl hnext)
      have hmain3 : s3.ni.mainTableBa = a := hw3.mainTableBa
      have hend3 : s3.hist.mainTableEba = e := hw3.mainTableEba
      have hbackup3 : s3.ni.backupTableBa = 0 := hw3.backupTableBa.trans hbackup
      have hp3 : s3.ni.isProtected = s.ni.isProtected := hw3.isProtected.trans hp2
      have hne3 : 0 < s.ni.mgmtStartBa → s3.ni.mainTableBa ≠ 0 := hmain3.symm ▸ hne2
      have hclean3 : s3.ni.changed = true →
          ∃ ba, s.ni.getBlockState ba = blockStGood ∧ s3.ni.getBlockState ba = blockStBad := by
        intro hch
        rcases hw3.changed hch with ⟨ba, hgood, hbad⟩ | hch
        · exact ⟨ba, hu2.good_of hgood, hbad⟩
        · exact absurd hch (by simp [hclean2])
      cases r3 with
      | none =>
          refine ⟨hu3, hr3, ⟨fun _ => ?_, fun hne => absurd hbackup3 hne⟩, by simp, fun _ => hp3,
            fun _ => hne3, fun _ hch => .inl (hclean3 hch)⟩
          rw [hmain3, hend3]
          exact hwrote3
      | some p =>
          obtain ⟨b, f⟩ := p
          obtain ⟨hb, hbf, hf, hwroteb⟩ := hsome3 b f rfl
          dsimp only
          set s4 := (s3.recordBackup b f).setMappingBlocks f with hs4
          have hw5 := eraseRange_works hg e b s4
          have hu4 : Updates nld s s4 := hu3.record rfl id rfl rfl
          have hmgmt3 : s3.ni.mgmtStartBa = s.ni.mgmtStartBa := hw3.mgmtStartBa.trans hmgmt
          have htop3 : s3.ni.mappingBlocksTopBa = s.ni.mappingBlocksTopBa :=
            hw3.mappingBlocksTopBa.trans htop
          have hsig3 : s3.ni.signatureBa = s.ni.signatureBa := hw3.signatureBa.trans hsigba
          have hr4 : Regions s4 := by
            constructor
            all_goals
              simp only [hs4, Sys.recordBackup, Sys.setMappingBlocks, hmain3, hend3, hmgmt3, htop3,
                hsig3]
              omega
          have hu5 := hu4.trans (hw5.updates
            (by simp only [hs4, Sys.recordBackup, Sys.setMappingBlocks, hmgmt3]; omega)
            (by simp only [hs4, Sys.recordBackup, Sys.setMappingBlocks, htop3]; omega))
          refine ⟨hu5, hr4.of_works hw5, ⟨fun _ => ?_, fun _ => ?_⟩, by simp,
            fun _ => hw5.isProtected.trans hp3, fun _ => hw5.mainTableBa.symm ▸ hne3,
            fun _ hch => .inl ?_⟩
          · rw [hw5.mainTableBa, hw5.mainTableEba]
            show Wrote nld s3.ni.mainTableBa s3.hist.mainTableEba _
            rw [hmain3, hend3]
            exact (hwrote3.congr rfl rfl rfl rfl : Wrote nld a e s4).of_works hg hw5 (.inl le_rfl)
          · rw [hw5.backupTableBa, hw5.backupTableEba]
            exact (hwroteb.congr rfl rfl rfl rfl : Wrote nld b f s4).of_works hg hw5 (.inr le_rfl)
          · rcases hw5.changed hch with ⟨ba, hgood, hbad⟩ | hch
            · exact ⟨ba, hu4.good_of hgood, hbad⟩
            · obtain ⟨ba, hgood, hbad⟩ := hclean3 hch
              exact ⟨ba, hgood, hw5.bad_of hbad⟩

/-- The backup table takes the place of the main table. -/
theorem promoteBackup_settles (hr : Regions s) (hwrote : Wrote nld s.ni.backupTableBa
    s.hist.backupTableEba s) (hbackup : s.ni.backupTableBa ≠ 0) :
    Settles nld s (true, s.promoteBackup) := by
  have hback := hr.backup hbackup
  refine ⟨(Updates.refl s).record rfl id rfl rfl, ?_, ⟨fun _ => hwrote.congr rfl rfl rfl rfl, ?_⟩,
    by simp, fun _ => rfl, fun _ _ => hbackup, fun _ hch => .inr ⟨hch, hbackup⟩⟩
  · obtain ⟨h1, h2, h3, -, -, -⟩ := hr
    constructor
    all_goals
      simp only [Sys.promoteBackup, Sys.recordMain, Sys.clearBackup]
      omega
  · exact fun hne => absurd rfl hne

theorem rescueMainInfoTable_settles (hg : Geometry nld) (hc : s.ni.infoTableCache ≠ [])
    (hr : Regions s) (hwrote : Wrote nld s.ni.backupTableBa s.hist.backupTableEba s)
    (hbackup : s.ni.backupTableBa ≠ 0) : Settles nld s (rescueMainInfoTable nld s) := by
  have hback := hr.backup hbackup
  have hstart := hr.start_le
  have htop := hr.le_top
  have hsig := hr.top_lt
  unfold rescueMainInfoTable
  split
  · exact promoteBackup_settles hr hwrote hbackup
  rename_i writeBa hreserve
  have hreserve := tryReserveBlocks_some hreserve
  dsimp only
  rcases hres : writeTableDown nld (writeBa + 1 - s.ni.mappingBlocksBa) writeBa s with ⟨r1, s1⟩
  obtain ⟨hw1, hsome1⟩ := writeTableDown_cases hg hc (by omega) hres
  rw [show writeBa + 1 - (writeBa + 1 - s.ni.mappingBlocksBa) = s.ni.mappingBlocksBa by omega]
    at hw1 hsome1
  have hu1 : Updates nld s s1 := hw1.updates hstart le_rfl
  have hr1 : Regions s1 := hr.of_works hw1
  cases r1 with
  | none =>
      refine Settles.after hw1 hstart le_rfl
        (promoteBackup_settles hr1 ?_ (hw1.backupTableBa ▸ hbackup))
      rw [hw1.backupTableBa, hw1.backupTableEba]
      exact hwrote.of_works hg hw1 (.inl hback.2.2)
  | some p =>
      obtain ⟨ts, te⟩ := p
      obtain ⟨hts, htse, hte, hwrotet⟩ := hsome1 ts te rfl
      dsimp only
      set s2 := s1.setMappingBlocks te with hs2
      have hmgmt2 : s2.ni.mgmtStartBa = s.ni.mgmtStartBa := hw1.mgmtStartBa
      have htop2 : s2.ni.mappingBlocksTopBa = s.ni.mappingBlocksTopBa := hw1.mappingBlocksTopBa
      have hsig2 : s2.ni.signatureBa = s.ni.signatureBa := hw1.signatureBa
      have hu2 : Updates nld s s2 := hu1.record rfl id rfl rfl
      have hc2 : s2.ni.infoTableCache ≠ [] := hw1.infoTableCache ▸ hc
      have hwrotet2 : Wrote nld ts te s2 := hwrotet.congr rfl rfl rfl rfl
      rcases hres3 : writeInfoTable nld s2.ni.mgmtStartBa ts s2 with ⟨r3, s3⟩
      obtain ⟨hw3, hsome3⟩ := writeInfoTable_cases hg hc2 hres3
      have hmgmt3 : s3.ni.mgmtStartBa = s.ni.mgmtStartBa := hw3.mgmtStartBa.trans hmgmt2
      have htop3 : s3.ni.mappingBlocksTopBa = s.ni.mappingBlocksTopBa :=
        hw3.mappingBlocksTopBa.trans htop2
      have hsig3 : s3.ni.signatureBa = s.ni.signatureBa := hw3.signatureBa.trans hsig2
      have hblocks3 : s3.ni.mappingBlocksBa = te := hw3.mappingBlocksBa
      have hp3 : s3.ni.isProtected = s.ni.isProtected := hw3.isProtected.trans hw1.isProtected
      have hu3 : Updates nld s s3 := hu2.trans (hw3.updates le_rfl (by omega))
      have hwrotet3 : Wrote nld ts te s3 := hwrotet2.of_works hg hw3 (.inr le_rfl)
      cases r3 with
      | none =>
          refine ⟨hu3.record rfl id rfl rfl, ?_, ⟨fun _ => hwrotet3.congr rfl rfl rfl rfl, ?_⟩,
            by simp, fun _ => hp3, fun _ _ => ?_, by simp [markTablesClean, Sys.clearBackup,
              Instance.changed]⟩
          · constructor
            all_goals
              simp only [markTablesClean, Sys.recordMain, Sys.clearBackup, hmgmt3, htop3, hsig3,
                hblocks3]
              omega
          · exact fun hne => absurd rfl hne
          · show ts ≠ 0
            omega
      | some p =>
          obtain ⟨a, e⟩ := p
          obtain ⟨ha, hae, he, hwrotea⟩ := hsome3 a e rfl
          dsimp only
          rw [if_pos he]
          refine ⟨hu3.record rfl id rfl rfl, ?_, ⟨fun _ => hwrotea.congr rfl rfl rfl rfl,
            fun _ => hwrotet3.congr rfl rfl rfl rfl⟩, by simp, fun _ => hp3, fun _ hpos => ?_,
            by simp [markTablesClean, Sys.recordBackup, Instance.changed]⟩
          · constructor
            all_goals
              simp only [markTablesClean, Sys.recordMain, Sys.recordBackup, hmgmt3, htop3, hsig3,
                hblocks3]
              omega
          · show a ≠ 0
            omega

theorem writeMainTable_settles (hg : Geometry nld) (hc : s.ni.infoTableCache ≠ [])
    (hr : Regions s)
    (hwrote : s.ni.backupTableBa ≠ 0 → Wrote nld s.ni.backupTableBa s.hist.backupTableEba s)
    {limit : Nat} (hlimit : limit = if s.ni.backupTableBa = 0 then s.ni.mappingBlocksTopBa
      else s.ni.backupTableBa) : Settles nld s (writeMainTable nld limit s) := by
  have hstart := hr.start_le
  have htop := hr.le_top
  have hsig := hr.top_lt
  have hback := hr.backup
  unfold writeMainTable
  split
  · exact rebuildInfoTable_settles hg hc (by omega) hsig
  rename_i hmain0
  have hmain := hr.main hmain0
  have hlimit' : limit ≤ s.ni.mappingBlocksTopBa := by
    rw [hlimit]
    split
    · exact le_rfl
    · rename_i hne
      have := hback hne
      omega
  dsimp only
  rcases hres : writeInfoTable nld s.ni.mainTableBa limit s with ⟨r1, s1⟩
  obtain ⟨hw1, hsome1⟩ := writeInfoTable_cases hg hc hres
  have hu1 : Updates nld s s1 := hw1.updates hmain.1 hlimit'
  have hc1 : s1.ni.infoTableCache ≠ [] := hw1.infoTableCache ▸ hc
  have hmgmt1 := hw1.mgmtStartBa
  have htop1 := hw1.mappingBlocksTopBa
  have hsig1 := hw1.signatureBa
  have hback1 := hw1.backupTableBa
  have hblocks1 := hw1.mappingBlocksBa
  have hbend1 := hw1.backupTableEba
  have hwrote1 : s1.ni.backupTableBa ≠ 0 →
      Wrote nld s1.ni.backupTableBa s1.hist.backupTableEba s1 := by
    intro hne
    rw [hback1] at hne
    rw [hback1, hbend1]
    refine (hwrote hne).of_works hg hw1 (.inr ?_)
    rw [hlimit, if_neg hne]
  cases r1 with
  | none =>
      dsimp only
      split
      · refine Settles.after hw1 hmain.1 hlimit' (rebuildInfoTable_settles hg hc1 ?_ ?_)
        · omega
        · omega
      · rename_i hne
        exact Settles.after hw1 hmain.1 hlimit'
          (rescueMainInfoTable_settles hg hc1 (hr.of_works hw1) (hwrote1 hne) hne)
  | some p =>
      obtain ⟨a, e⟩ := p
      obtain ⟨ha, hae, he, hwrotea⟩ := hsome1 a e rfl
      have hne : a ≠ 0 := by omega
      dsimp only
      by_cases hzero : s.ni.backupTableBa = 0
      · have hif : (s1.recordMain a e).ni.backupTableBa = 0 := hback1.trans hzero
        rw [if_pos hif]
        rw [if_pos hzero] at hlimit
        refine ⟨hu1.record rfl id rfl rfl, ?_, ⟨fun _ => hwrotea.congr rfl rfl rfl rfl,
          fun hne => absurd hif hne⟩, by simp, fun _ => hw1.isProtected, fun _ _ => hne,
          by simp [markTablesClean, Instance.changed]⟩
        constructor
        all_goals
          simp only [markTablesClean, Sys.recordMain, Sys.setMappingBlocks, hmgmt1, htop1, hsig1,
            hback1, hbend1]
          omega
      · have hif : (s1.recordMain a e).ni.backupTableBa ≠ 0 := hback1.symm ▸ hzero
        have hback := hback hzero
        rw [if_neg hif]
        rw [if_neg hzero] at hlimit
        refine ⟨hu1.record rfl id rfl rfl, ?_, ⟨fun _ => hwrotea.congr rfl rfl rfl rfl,
          fun hne => (hwrote1 hne).congr rfl rfl rfl rfl⟩, by simp, fun _ => hw1.isProtected,
          fun _ _ => hne, by simp [markTablesClean, Instance.changed]⟩
        constructor
        all_goals
          simp only [markTablesClean, Sys.recordMain, hmgmt1, htop1, hsig1, hback1, hbend1,
            hblocks1]
          omega

end Immwrt.Nmbm
