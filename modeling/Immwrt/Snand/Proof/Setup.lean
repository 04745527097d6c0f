import Immwrt.Snand.Setup
import Mathlib.Data.Nat.Size
import Mathlib.Tactic

/-!
# Which chips the setup accepts

The page format, the spare bytes and the ECC strength are found in this order, and each search starts from
what the one before found. The search for spare bytes reports a failure that its caller does not see, and
divides by the number of sectors before anyone has looked whether there is one.
-/

namespace Immwrt.Snand

variable {soc : Soc}

/-! ### Tables -/

theorem tableEntry_of_lt {α : Type} {table : List α} {i : Nat} (hi : i < table.length) :
    tableEntry table i = .ok table[i] := by
  rw [tableEntry, List.getElem?_eq_getElem hi]

/-- What the search for spare bytes finds below entry `i`. -/
theorem spareLoop_spec (sizes : List Nat) (spare i : Nat) (hi : i ≤ sizes.length) :
    (∃ k size, spareLoop sizes spare i = .ok (some (k, size)) ∧ size ∈ sizes ∧ size ≤ spare) ∨
      spareLoop sizes spare i = .ok none ∧ ∀ k (hk : k < i), spare < sizes[k] := by
  induction i with
  | zero => exact Or.inr ⟨rfl, fun k hk => absurd hk (Nat.not_lt_zero k)⟩
  | succ i ih =>
      rw [spareLoop, tableEntry_of_lt hi]
      by_cases hle : sizes[i] ≤ spare
      · refine Or.inl ⟨i, sizes[i], ?_, List.getElem_mem hi, hle⟩
        simp [bind, Except.bind, hle]
      · have hnext : (Except.ok sizes[i] >>= fun size =>
            if size ≤ spare then Except.ok (some (i, size)) else spareLoop sizes spare i) =
              spareLoop sizes spare i := by
          simp [bind, Except.bind, hle]
        rw [hnext]
        rcases ih (by omega) with hfound | ⟨hnone, hall⟩
        · exact Or.inl hfound
        · refine Or.inr ⟨hnone, fun k hk => ?_⟩
          rcases Nat.lt_succ_iff_lt_or_eq.mp hk with hlt | rfl
          · exact hall k hlt
          · exact Nat.not_le.mp hle

/-- A search that has an entry to find stays in the table. -/
theorem capLoop_spec (caps : List Nat) (strength i : Nat) (hi : i < caps.length)
    (hleast : caps[0] ≤ strength) :
    ∃ k cap, capLoop caps strength i = .ok (k, cap) ∧ cap ≤ strength := by
  induction i with
  | zero =>
      refine ⟨0, caps[0], ?_, hleast⟩
      rw [capLoop, tableEntry_of_lt hi]
      simp [bind, Except.bind, hleast]
  | succ i ih =>
      rw [capLoop, tableEntry_of_lt hi]
      by_cases hle : caps[i + 1] ≤ strength
      · refine ⟨i + 1, caps[i + 1], ?_, hle⟩
        simp [bind, Except.bind, hle]
      · obtain ⟨k, cap, hloop, hcap⟩ := ih (by omega) hleast
        refine ⟨k, cap, ?_, hcap⟩
        simp [bind, Except.bind, hle, hloop]

/-! ### Opcodes -/

theorem fls_le_snandIoMax (quadSpi : Bool) (caps : Byte) :
    fls (snfiCaps quadSpi &&& caps).toNat ≤ snandIoMax := by
  rw [fls, Nat.size_le, BitVec.toNat_and]
  refine lt_of_le_of_lt Nat.and_le_left ?_
  cases quadSpi <;> decide

/-- The capabilities that the controller and a list of opcodes share. -/
def Capable (quadSpi : Bool) (opCap : IoCap) : Prop := snfiCaps quadSpi &&& opCap.caps ≠ 0

theorem selectOpcode_none {quadSpi : Bool} {opCap : IoCap} (h : ¬ Capable quadSpi opCap) :
    selectOpcode (snfiCaps quadSpi) opCap = .ok none := by
  have hzero : snfiCaps quadSpi &&& opCap.caps = 0 := not_not.mp h
  rw [selectOpcode, hzero]
  rfl

theorem selectOpcode_some {quadSpi : Bool} {opCap : IoCap} (h : Capable quadSpi opCap) :
    ∃ idx op, idx < snandIoMax ∧ selectOpcode (snfiCaps quadSpi) opCap = .ok (some (idx, op)) := by
  have hne : (snfiCaps quadSpi &&& opCap.caps).toNat ≠ 0 := by
    intro hzero
    exact h (BitVec.eq_of_toNat_eq hzero)
  have hpos : 0 < fls (snfiCaps quadSpi &&& opCap.caps).toNat :=
    Nat.size_pos.mpr (Nat.pos_of_ne_zero hne)
  have hle := fls_le_snandIoMax quadSpi opCap.caps
  have hlt : fls (snfiCaps quadSpi &&& opCap.caps).toNat - 1 < opCap.opcodes.length := by
    rw [opCap.length_opcodes]
    exact lt_of_lt_of_le (Nat.sub_lt hpos Nat.one_pos) hle
  have hidx : fls (snfiCaps quadSpi &&& opCap.caps).toNat - 1 < snandIoMax :=
    lt_of_lt_of_le (Nat.sub_lt hpos Nat.one_pos) hle
  refine ⟨_, opCap.opcodes[fls (snfiCaps quadSpi &&& opCap.caps).toNat - 1], hidx, ?_⟩
  rw [selectOpcode]
  simp only [gt_iff_lt, hpos, if_true, tableEntry_of_lt hlt]
  rfl

/-- What the later steps see of an instance. -/
structure Snf.SamePages (snf snf' : Snf) : Prop where
  writesize : snf'.writesize = snf.writesize
  oobsize : snf'.oobsize = snf.oobsize
  eccSteps : snf'.eccSteps = snf.eccSteps
  sparePerSector : snf'.sparePerSector = snf.sparePerSector

theorem selectOpcodeRfc_fails {quadSpi : Bool} {opCap : IoCap} (h : ¬ Capable quadSpi opCap)
    (snf : Snf) : selectOpcodeRfc (snfiCaps quadSpi) opCap snf = .error (.error enotsupp) := by
  rw [selectOpcodeRfc, selectOpcode_none h]
  rfl

theorem selectOpcodePl_fails {quadSpi : Bool} {opCap : IoCap} (h : ¬ Capable quadSpi opCap)
    (snf : Snf) : selectOpcodePl (snfiCaps quadSpi) opCap snf = .error (.error enotsupp) := by
  rw [selectOpcodePl, selectOpcode_none h]
  rfl

theorem selectOpcodeRfc_ok {quadSpi : Bool} {opCap : IoCap} (h : Capable quadSpi opCap) (snf : Snf) :
    ∃ snf', selectOpcodeRfc (snfiCaps quadSpi) opCap snf = .ok snf' ∧ snf.SamePages snf' := by
  obtain ⟨idx, op, hidx, hselect⟩ := selectOpcode_some h
  have hmode : tableEntry rfcModes idx = .ok rfcModes[idx] := tableEntry_of_lt hidx
  rw [selectOpcodeRfc, hselect]
  simp only [bind, Except.bind, hmode]
  exact ⟨_, rfl, rfl, rfl, rfl, rfl⟩

theorem selectOpcodePl_ok {quadSpi : Bool} {opCap : IoCap} (h : Capable quadSpi opCap) (snf : Snf) :
    ∃ snf', selectOpcodePl (snfiCaps quadSpi) opCap snf = .ok snf' ∧ snf.SamePages snf' := by
  obtain ⟨idx, op, hidx, hselect⟩ := selectOpcode_some h
  have hmode : tableEntry plModes idx = .ok plModes[idx] := tableEntry_of_lt hidx
  rw [selectOpcodePl, hselect]
  simp only [bind, Except.bind, hmode]
  exact ⟨_, rfl, rfl, rfl, rfl, rfl⟩

/-! ### Page format -/

/-- The least spare bytes of a sector that the controller has, if there are so many. -/
def FitsSpare (soc : SocData) (steps oobsize : Nat) : Prop :=
  ∃ size ∈ soc.spareSizes, steps * (size * soc.mul) ≤ oobsize

theorem mul_pos (soc : SocData) : 0 < soc.mul := by
  rw [SocData.mul]
  split <;> decide

theorem le_spare_iff {soc : SocData} {steps oobsize size : Nat} (hsteps : 0 < steps) :
    size ≤ oobsize / steps / soc.mul ↔ steps * (size * soc.mul) ≤ oobsize := by
  rw [Nat.le_div_iff_mul_le (mul_pos soc), Nat.le_div_iff_mul_le hsteps, Nat.mul_comm steps]

/-- What `mtk_snand_select_spare_per_sector` does to an instance whose page has sectors. -/
theorem mtkSnandSelectSparePerSector_spec (soc : SocData) (snf : Snf) (hsteps : snf.eccSteps ≠ 0) :
    (∃ (i : Nat) (size : Nat), size ∈ soc.spareSizes ∧
        snf.eccSteps * (size * soc.mul) ≤ snf.oobsize ∧
        mtkSnandSelectSparePerSector soc snf =
          .ok ((i : Int), { snf with sparePerSector := size * soc.mul })) ∨
      ¬ FitsSpare soc snf.eccSteps snf.oobsize ∧
        mtkSnandSelectSparePerSector soc snf = .ok (-1, snf) := by
  have hpos : 0 < snf.eccSteps := Nat.pos_of_ne_zero hsteps
  rw [mtkSnandSelectSparePerSector, if_neg hsteps]
  rcases spareLoop_spec soc.spareSizes (snf.oobsize / snf.eccSteps / soc.mul) soc.spareSizes.length le_rfl
    with ⟨i, size, hloop, hmem, hle⟩ | ⟨hloop, hall⟩
  · refine Or.inl ⟨i, size, hmem, (le_spare_iff hpos).mp hle, ?_⟩
    simp only [hloop, bind, Except.bind]
  · refine Or.inr ⟨?_, ?_⟩
    · rintro ⟨size, hmem, hle⟩
      obtain ⟨k, hk, rfl⟩ := List.getElem_of_mem hmem
      exact absurd ((le_spare_iff hpos).mpr hle) (Nat.not_le.mpr (hall k hk))
    · simp only [hloop, bind, Except.bind]

/-- The value that the search returns is the one earlier pages were laid out with. -/
theorem mtkSnandSelectSparePerSector_eq (soc : SocData) (snf : Snf) (hsteps : snf.eccSteps ≠ 0) :
    ∃ ret, mtkSnandSelectSparePerSector soc snf =
      .ok (ret, { snf with
        sparePerSector :=
          (selectSparePerSector soc snf.oobsize snf.eccSteps).getD snf.sparePerSector }) := by
  have hfind : ∀ i ≤ soc.spareSizes.length,
      ∃ hit, spareLoop soc.spareSizes (snf.oobsize / snf.eccSteps / soc.mul) i = .ok hit ∧
        hit.map Prod.snd = (soc.spareSizes.take i).reverse.find?
          fun size => decide (size ≤ snf.oobsize / snf.eccSteps / soc.mul) := by
    intro i hi
    induction i with
    | zero => exact ⟨none, rfl, rfl⟩
    | succ i ih =>
        obtain ⟨hit, hloop, hhit⟩ := ih (by omega)
        rw [spareLoop, tableEntry_of_lt hi, List.take_succ_eq_append_getElem hi, List.reverse_append,
          List.reverse_singleton, List.singleton_append, List.find?_cons]
        by_cases hle : soc.spareSizes[i] ≤ snf.oobsize / snf.eccSteps / soc.mul
        · refine ⟨some (i, soc.spareSizes[i]), ?_, ?_⟩ <;> simp [bind, Except.bind, hle]
        · refine ⟨hit, ?_, ?_⟩
          · simp [bind, Except.bind, hle, hloop]
          · simp [hle, hhit]
  obtain ⟨hit, hloop, hhit⟩ := hfind _ le_rfl
  rw [List.take_length] at hhit
  rw [mtkSnandSelectSparePerSector, if_neg hsteps, selectSparePerSector]
  cases hit with
  | none =>
      refine ⟨-1, ?_⟩
      simp only [hloop, bind, Except.bind]
      rw [show (if soc.sectorSize = 1024 then 2 else 1) = soc.mul from rfl, ← hhit]
      rfl
  | some hit =>
      refine ⟨hit.1, ?_⟩
      simp only [hloop, bind, Except.bind]
      rw [show (if soc.sectorSize = 1024 then 2 else 1) = soc.mul from rfl, ← hhit]
      rfl

/-- The format of a page that has sectors is set up, whatever the search for spare bytes returned. -/
theorem pagefmtSetup_spec {soc : SocData} {snf : Snf} (hsteps : snf.eccSteps ≠ 0)
    (hpage : (pagesizeIdx soc.sectorSize snf.writesize).isSome) :
    ∃ snf', pagefmtSetup soc snf = .ok snf' ∧ snf'.writesize = snf.writesize ∧
      snf'.oobsize = snf.oobsize ∧ snf'.eccSteps = snf.eccSteps ∧
      ((∃ size ∈ soc.spareSizes, snf.eccSteps * (size * soc.mul) ≤ snf.oobsize ∧
          snf'.sparePerSector = size * soc.mul) ∨
        ¬ FitsSpare soc snf.eccSteps snf.oobsize ∧ snf'.sparePerSector = snf.sparePerSector) := by
  obtain ⟨idx, hidx⟩ := Option.isSome_iff_exists.mp hpage
  have hunsigned : ∀ ret : Int, ¬ BitVec.ofInt 32 ret < (0 : Word) := fun ret => BitVec.not_lt_zero
  rw [pagefmtSetup, hidx]
  rcases mtkSnandSelectSparePerSector_spec soc snf hsteps with
    ⟨i, size, hmem, hle, hselect⟩ | ⟨hnone, hselect⟩
  · simp only [hselect, bind, Except.bind, if_neg (hunsigned _)]
    exact ⟨_, rfl, rfl, rfl, rfl, Or.inl ⟨size, hmem, hle, rfl⟩⟩
  · simp only [hselect, bind, Except.bind, if_neg (hunsigned _)]
    exact ⟨_, rfl, rfl, rfl, rfl, Or.inr ⟨hnone, rfl⟩⟩

theorem pagefmtSetup_no_sectors {soc : SocData} {snf : Snf} (hsteps : snf.eccSteps = 0)
    (hpage : (pagesizeIdx soc.sectorSize snf.writesize).isSome) :
    pagefmtSetup soc snf = .error .divByZero := by
  obtain ⟨idx, hidx⟩ := Option.isSome_iff_exists.mp hpage
  rw [pagefmtSetup, hidx, mtkSnandSelectSparePerSector, if_pos hsteps]
  rfl

theorem pagefmtSetup_unsupported {soc : SocData} {snf : Snf}
    (hpage : ¬ (pagesizeIdx soc.sectorSize snf.writesize).isSome) :
    pagefmtSetup soc snf = .error (.error enotsupp) := by
  rw [pagefmtSetup, Option.not_isSome_iff_eq_none.mp hpage]

/-! ### ECC strength -/

/-- The ECC engine gets idle and every die turns its own ECC off. -/
structure Hardware.Answers (hw : Hardware) (ndies : Nat) : Prop where
  encIdle : hw.encIdle = true
  decIdle : hw.decIdle = true
  ondieEcc : ∀ i < ndies, hw.ondieEccControl i = 0

theorem diesLoop_spec (hw : Hardware) (dies : List Nat) :
    (∀ i ∈ dies, hw.ondieEccControl i = 0) ∧ diesLoop hw dies = .ok () ∨
      (∃ i ∈ dies, hw.ondieEccControl i ≠ 0) ∧
        ∃ ret, ret ≠ 0 ∧ diesLoop hw dies = .error (.error ret) := by
  induction dies with
  | nil => exact Or.inl ⟨fun i hi => absurd hi List.not_mem_nil, rfl⟩
  | cons i dies ih =>
      rw [diesLoop]
      by_cases hret : hw.ondieEccControl i = 0
      · rw [if_neg (not_not.mpr hret)]
        rcases ih with ⟨hall, hloop⟩ | ⟨⟨k, hk, hne⟩, hloop⟩
        · exact Or.inl ⟨List.forall_mem_cons.mpr ⟨hret, hall⟩, hloop⟩
        · exact Or.inr ⟨⟨k, List.mem_cons_of_mem _ hk, hne⟩, hloop⟩
      · rw [if_pos hret]
        exact Or.inr ⟨⟨i, List.mem_cons_self, hret⟩, _, hret, rfl⟩

/-- A strength is found when the least one of the table fits. -/
theorem mtkEccSetup_spec (hw : Hardware) {soc : EccSocData} {maxEccBytes msgSize : Nat} (snf : Snf)
    (hcaps : 0 < soc.eccCaps.length)
    (hleast : soc.eccCaps[0] ≤ maxEccBytes * 8 % 2 ^ 32 / fls (1 + 8 * msgSize)) :
    (¬ (hw.encIdle = true ∧ hw.decIdle = true) ∧
        mtkEccSetup hw soc maxEccBytes msgSize snf = .error (.error ebusy)) ∨
      (hw.encIdle = true ∧ hw.decIdle = true) ∧
        ∃ snf', mtkEccSetup hw soc maxEccBytes msgSize snf = .ok snf' ∧ snf.SamePages snf' ∧
          snf'.eccStrength * snf'.eccParityBits ≤ maxEccBytes * 8 % 2 ^ 32 := by
  have hparity : fls (1 + 8 * msgSize) ≠ 0 :=
    Nat.pos_iff_ne_zero.mp (Nat.size_pos.mpr (by omega))
  obtain ⟨i, cap, hloop, hcap⟩ := capLoop_spec soc.eccCaps _ (soc.eccCaps.length - 1) (by omega) hleast
  rw [mtkEccSetup]
  simp only [if_neg hparity, hloop, bind, Except.bind]
  cases henc : hw.encIdle with
  | false => exact Or.inl ⟨by simp, by simp⟩
  | true =>
      cases hdec : hw.decIdle with
      | false => exact Or.inl ⟨by simp, by simp⟩
      | true =>
          refine Or.inr ⟨⟨rfl, rfl⟩, ?_⟩
          simp only [Bool.not_true, Bool.false_eq_true, if_false]
          exact ⟨_, rfl, ⟨rfl, rfl, rfl, rfl⟩, Nat.mul_le_of_le_div _ _ _ hcap⟩

/-! ### Setup -/

/-- A configuration whose sectors fit the spare area and whose parity fits a sector's spare bytes. -/
structure Configured (soc : SocData) (snf : Snf) : Prop where
  spare_oob : snf.eccSteps * snf.sparePerSector ≤ snf.oobsize
  spare_table : ∃ size ∈ soc.spareSizes,
    snf.sparePerSector = if soc.sectorSize = 1024 then 2 * size else size
  strength_fits : snf.eccStrength * snf.eccParityBits ≤ 8 * (snf.sparePerSector - soc.fdmSize)

/-- The setup failed with an error, or it made such a configuration. -/
def Sound (soc : SocData) : Except Stop Snf → Prop
  | .error (.error ret) => ret ≠ 0
  | .error .divByZero => False
  | .error .index => False
  | .ok snf => Configured soc snf

/-- The setup gets to the search for spare bytes: there are opcodes, and the page size is listed. -/
structure ComesToSpare (soc : SocData) (quadSpi : Bool) (info : FlashInfo) : Prop where
  read : Capable quadSpi info.capRd
  load : Capable quadSpi info.capPl
  sectors : info.memorg.pagesize.toNat / soc.sectorSize ≤ soc.maxSectors
  pagesize : (pagesizeIdx soc.sectorSize info.memorg.pagesize.toNat).isSome

/-- The instance at the search for spare bytes. -/
structure AtSpare (soc : SocData) (info : FlashInfo) (snf : Snf) : Prop where
  writesize : snf.writesize = info.memorg.pagesize.toNat
  oobsize : snf.oobsize = info.memorg.sparesize.toNat
  eccSteps : snf.eccSteps = info.memorg.pagesize.toNat / soc.sectorSize
  sparePerSector : snf.sparePerSector = 0

/-- The part of the setup from the page format on. -/
def setupPages (soc : Soc) (hw : Hardware) (ndies : Nat) (snf : Snf) : Except Stop Snf := do
  let snf ← pagefmtSetup soc.nfiSoc snf
  let maxEccBytes := (snf.sparePerSector + 2 ^ 32 - soc.nfiSoc.fdmSize) % 2 ^ 32
  let snf ← mtkEccSetup hw soc.eccSoc maxEccBytes (soc.nfiSoc.sectorSize + soc.nfiSoc.fdmEccSize) snf
  diesLoop hw (List.range ndies)
  .ok snf

theorem mtkSnandSetup_of_comesToSpare (hw : Hardware) {quadSpi : Bool} {info : FlashInfo}
    (h : ComesToSpare soc.nfiSoc quadSpi info) :
    ∃ snf, AtSpare soc.nfiSoc info snf ∧
      mtkSnandSetup soc hw quadSpi info = setupPages soc hw info.memorg.ndies.toNat snf := by
  obtain ⟨snfRd, hrd, hsameRd⟩ := selectOpcodeRfc_ok h.read
    { Snf.zeroed with
      writesize := info.memorg.pagesize.toNat
      oobsize := info.memorg.sparesize.toNat }
  obtain ⟨snfPl, hpl, hsamePl⟩ := selectOpcodePl_ok h.load snfRd
  refine ⟨{ snfPl with eccSteps := info.memorg.pagesize.toNat / soc.nfiSoc.sectorSize },
    ⟨?_, ?_, rfl, ?_⟩, ?_⟩
  · exact hsamePl.writesize.trans hsameRd.writesize
  · exact hsamePl.oobsize.trans hsameRd.oobsize
  · exact hsamePl.sparePerSector.trans hsameRd.sparePerSector
  · rw [mtkSnandSetup]
    simp only [hrd, hpl, bind, Except.bind, gt_iff_lt, if_neg (Nat.not_lt.mpr h.sectors)]
    rfl

theorem mtkSnandSetup_of_not_comesToSpare (hw : Hardware) {quadSpi : Bool} {info : FlashInfo}
    (h : ¬ ComesToSpare soc.nfiSoc quadSpi info) :
    mtkSnandSetup soc hw quadSpi info = .error (.error enotsupp) := by
  rw [mtkSnandSetup]
  by_cases hread : Capable quadSpi info.capRd
  · obtain ⟨snfRd, hrd, hsameRd⟩ := selectOpcodeRfc_ok hread
      { Snf.zeroed with
        writesize := info.memorg.pagesize.toNat
        oobsize := info.memorg.sparesize.toNat }
    by_cases hload : Capable quadSpi info.capPl
    · obtain ⟨snfPl, hpl, hsamePl⟩ := selectOpcodePl_ok hload snfRd
      simp only [hrd, hpl, bind, Except.bind]
      by_cases hsectors : info.memorg.pagesize.toNat / soc.nfiSoc.sectorSize ≤ soc.nfiSoc.maxSectors
      · have hpage : ¬ (pagesizeIdx soc.nfiSoc.sectorSize info.memorg.pagesize.toNat).isSome :=
          fun hpage => h ⟨hread, hload, hsectors, hpage⟩
        have hwritesize : snfPl.writesize = info.memorg.pagesize.toNat :=
          hsamePl.writesize.trans hsameRd.writesize
        rw [if_neg (Nat.not_lt.mpr hsectors), pagefmtSetup_unsupported]
        rw [hwritesize]
        exact hpage
      · rw [if_pos (Nat.lt_of_not_le hsectors)]
    · simp only [hrd, selectOpcodePl_fails hload, bind, Except.bind]
  · simp only [selectOpcodeRfc_fails hread, bind, Except.bind]

/-- What the controllers have in common: the least strength fits the spare bytes of every table entry, and
the number of bytes that is left when no entry fits. -/
theorem Soc.caps (soc : Soc) : ∃ hcaps : 0 < soc.eccSoc.eccCaps.length,
    (∀ size ∈ soc.nfiSoc.spareSizes,
      soc.nfiSoc.fdmSize ≤ size ∧ size < 2 ^ 16 ∧
      soc.eccSoc.eccCaps[0] ≤ 8 * (size * soc.nfiSoc.mul - soc.nfiSoc.fdmSize) /
        fls (1 + 8 * (soc.nfiSoc.sectorSize + soc.nfiSoc.fdmEccSize))) ∧
    soc.eccSoc.eccCaps[0] ≤ (2 ^ 32 - soc.nfiSoc.fdmSize) % 2 ^ 32 * 8 % 2 ^ 32 /
      fls (1 + 8 * (soc.nfiSoc.sectorSize + soc.nfiSoc.fdmEccSize)) ∧
    0 ∉ soc.nfiSoc.spareSizes := by
  have hfls : fls 4105 = 13 ∧ fls 8201 = 14 := by decide
  cases soc <;> refine ⟨by decide, ?_, ?_, by decide⟩ <;> decide

theorem Soc.mul_le (soc : SocData) : soc.mul ≤ 2 := by
  rw [SocData.mul]
  split <;> decide

/-- The rest of the setup with enough spare bytes, and with too few. -/
theorem setupPages_sound_iff (hw : Hardware) (ndies : Nat) {info : FlashInfo} {snf : Snf}
    (hat : AtSpare soc.nfiSoc info snf) (hsteps : snf.eccSteps ≠ 0)
    (hpage : (pagesizeIdx soc.nfiSoc.sectorSize info.memorg.pagesize.toNat).isSome) :
    Sound soc.nfiSoc (setupPages soc hw ndies snf) ↔
      FitsSpare soc.nfiSoc snf.eccSteps snf.oobsize ∨ ¬ hw.Answers ndies := by
  obtain ⟨hcaps, hfits, hwrapped, hzero⟩ := soc.caps
  obtain ⟨snf', hformat, -, hoob, hsteps', hspare⟩ := pagefmtSetup_spec hsteps (hat.writesize ▸ hpage)
  rw [setupPages]
  simp only [hformat, bind, Except.bind]
  have hleast : soc.eccSoc.eccCaps[0] ≤
      (snf'.sparePerSector + 2 ^ 32 - soc.nfiSoc.fdmSize) % 2 ^ 32 * 8 % 2 ^ 32 /
        fls (1 + 8 * (soc.nfiSoc.sectorSize + soc.nfiSoc.fdmEccSize)) := by
    rcases hspare with ⟨size, hmem, -, hsize⟩ | ⟨-, hsize⟩
    · obtain ⟨hfdm, hlt, hcap⟩ := hfits size hmem
      have hmul : soc.nfiSoc.fdmSize ≤ size * soc.nfiSoc.mul :=
        hfdm.trans (Nat.le_mul_of_pos_right size (mul_pos _))
      have hbound : size * soc.nfiSoc.mul < 2 ^ 16 * 2 :=
        Nat.mul_lt_mul_of_lt_of_le hlt (Soc.mul_le _) (by decide)
      rw [hsize, show size * soc.nfiSoc.mul + 2 ^ 32 - soc.nfiSoc.fdmSize =
        size * soc.nfiSoc.mul - soc.nfiSoc.fdmSize + 2 ^ 32 by omega, Nat.add_mod_right,
        Nat.mod_eq_of_lt (by omega), Nat.mod_eq_of_lt (by omega), Nat.mul_comm]
      exact hcap
    · rw [hsize, hat.sparePerSector, Nat.zero_add]
      exact hwrapped
  rcases mtkEccSetup_spec hw snf' hcaps hleast with
    ⟨hidle, hecc⟩ | ⟨⟨henc, hdec⟩, snf'', hecc, hsame, hstrength⟩
  · simp only [hecc]
    refine iff_of_true (show ebusy ≠ 0 by decide) (Or.inr fun hans => hidle ⟨hans.encIdle, hans.decIdle⟩)
  · simp only [hecc]
    rcases diesLoop_spec hw (List.range ndies) with ⟨hall, hdies⟩ | ⟨⟨i, hi, hne⟩, ret, hret, hdies⟩
    · have hans : hw.Answers ndies := ⟨henc, hdec, fun i hi => hall i (List.mem_range.mpr hi)⟩
      simp only [hdies, not_not.mpr hans, or_false]
      rcases hspare with ⟨size, hmem, hle, hsize⟩ | ⟨hnone, hsize⟩
      · obtain ⟨hfdm, hlt, hcap⟩ := hfits size hmem
        refine iff_of_true ⟨?_, ⟨size, hmem, ?_⟩, ?_⟩ ⟨size, hmem, hle⟩
        · rw [hsame.eccSteps, hsame.sparePerSector, hsame.oobsize, hsteps', hsize, hoob]
          exact hle
        · rw [hsame.sparePerSector, hsize, SocData.mul]
          split <;> omega
        · have hmul : soc.nfiSoc.fdmSize ≤ size * soc.nfiSoc.mul :=
            hfdm.trans (Nat.le_mul_of_pos_right size (mul_pos _))
          refine hstrength.trans ((Nat.mod_le _ _).trans ?_)
          rw [hsame.sparePerSector, hsize, show size * soc.nfiSoc.mul + 2 ^ 32 - soc.nfiSoc.fdmSize =
            size * soc.nfiSoc.mul - soc.nfiSoc.fdmSize + 2 ^ 32 by omega, Nat.add_mod_right,
            Nat.mul_comm]
          exact Nat.mul_le_mul_left 8 (Nat.mod_le _ _)
      · refine iff_of_false (fun hconf => ?_) hnone
        obtain ⟨size, hmem, hvalue⟩ := hconf.spare_table
        rw [hsame.sparePerSector, hsize, hat.sparePerSector] at hvalue
        have hsize0 : size = 0 := by
          split at hvalue <;> omega
        exact hzero (hsize0 ▸ hmem)
    · simp only [hdies]
      refine iff_of_true hret (Or.inr fun hans => hne (hans.ondieEcc i (List.mem_range.mp hi)))

/-- The setup is sound if and only if a page that it comes to the spare bytes of has a sector, and its
sectors have the spare bytes of some entry of the table or the hardware does not answer. -/
theorem setup_sound_iff (soc : Soc) (hw : Hardware) (quadSpi : Bool) (info : FlashInfo) :
    Sound soc.nfiSoc (mtkSnandSetup soc hw quadSpi info) ↔
      (ComesToSpare soc.nfiSoc quadSpi info →
        info.memorg.pagesize.toNat / soc.nfiSoc.sectorSize ≠ 0 ∧
          (FitsSpare soc.nfiSoc (info.memorg.pagesize.toNat / soc.nfiSoc.sectorSize)
              info.memorg.sparesize.toNat ∨
            ¬ hw.Answers info.memorg.ndies.toNat)) := by
  by_cases hcomes : ComesToSpare soc.nfiSoc quadSpi info
  · obtain ⟨snf, hat, hsetup⟩ := mtkSnandSetup_of_comesToSpare hw hcomes
    rw [hsetup]
    by_cases hsteps : info.memorg.pagesize.toNat / soc.nfiSoc.sectorSize = 0
    · have hpages : setupPages soc hw info.memorg.ndies.toNat snf = .error .divByZero := by
        rw [setupPages, pagefmtSetup_no_sectors (hat.eccSteps.trans hsteps)
          (hat.writesize ▸ hcomes.pagesize)]
        rfl
      rw [hpages]
      exact iff_of_false id fun h => (h hcomes).1 hsteps
    · rw [setupPages_sound_iff hw _ hat (fun h => hsteps (hat.eccSteps.symm.trans h)) hcomes.pagesize,
        hat.eccSteps, hat.oobsize]
      exact ⟨fun h _ => ⟨hsteps, h⟩, fun h => (h hcomes).2⟩
  · rw [mtkSnandSetup_of_not_comesToSpare hw hcomes]
    exact iff_of_true (show enotsupp ≠ 0 by decide) fun h => absurd h hcomes

/-! ### Two chips that are not rejected -/

/-- Opcodes for single transfers. -/
def plainCap (opcode dummy : Byte) : IoCap where
  caps := 1
  opcodes := List.replicate snandIoMax ⟨opcode, dummy⟩
  length_opcodes := rfl

def plainChip (pagesize sparesize : BitVec 16) : FlashInfo where
  memorg := { pagesize := pagesize, sparesize := sparesize, ndies := 1 }
  capRd := plainCap 0x0b 8
  capPl := plainCap 0x02 0

def readyHardware : Hardware where
  encIdle := true
  decIdle := true
  ondieEccControl := fun _ => 0

theorem setup_not_sound :
    mtkSnandSetup .mt7981 readyHardware false (plainChip 512 16) = .error .divByZero ∧
      (∃ snf, mtkSnandSetup .mt7622 readyHardware false (plainChip 2048 32) = .ok snf ∧
        snf.sparePerSector = 0) ∧
      ¬ Sound Soc.mt7981.nfiSoc (mtkSnandSetup .mt7981 readyHardware false (plainChip 512 16)) ∧
      ¬ Sound Soc.mt7622.nfiSoc (mtkSnandSetup .mt7622 readyHardware false (plainChip 2048 32)) := by
  have hdiv : mtkSnandSetup .mt7981 readyHardware false (plainChip 512 16) = .error .divByZero := by
    rfl
  have hspare : ∃ snf, mtkSnandSetup .mt7622 readyHardware false (plainChip 2048 32) = .ok snf ∧
      snf.sparePerSector = 0 := ⟨_, rfl, rfl⟩
  refine ⟨hdiv, hspare, by rw [hdiv]; exact id, ?_⟩
  obtain ⟨snf, hok, hzero⟩ := hspare
  rw [hok]
  rintro ⟨-, ⟨size, hmem, hvalue⟩, -⟩
  rw [hzero, if_neg (by decide)] at hvalue
  exact absurd (hvalue ▸ hmem) (by decide)

end Immwrt.Snand
