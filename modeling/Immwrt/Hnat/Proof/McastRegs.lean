import Immwrt.Hnat.McastRegs
import Immwrt.Lib.Bits

/-!
# The multicast registers and the table

What the registers of an entry hold after an event, and when this is what the table says.
-/

namespace Immwrt.Hnat

/-! ### What the registers should hold -/

/-- A pair of registers mirrors an entry of the table for a group. -/
structure Mirrors (g : McastGroup) (addr : GroupAddr) (h l : BitVec 32) : Prop where
  valid : h.getLsbD 14 = g.valid
  cpu : h.getLsbD 16 = true ↔ g.oif ≠ 0
  gdma1 : h.getLsbD 17 = true ↔ g.eif ≠ 0
  mac : g.valid = true → ∀ sel last, addr.multicastMac = some (sel, last) → h.extractLsb' 20 2 = sel ∧ l = last

/-- The registers of the entry that an event updates mirror it in every PPE. -/
def McastDev.StepMirrors (ppes : Ppes) (dev : McastDev) (e : MdbEvent) : Prop :=
  e.present = true → ∀ index, dev.table.entryGet e.vid e.addr.mac.1 = some index → ∀ ppeId < ppes.num,
    Mirrors ((dev.step ppes e).table.mtbl index) e.addr ((dev.step ppes e).regs (regH ppeId index))
      ((dev.step ppes e).regs (regL ppeId index))

/-- The entry at `index` with its members counted after an event. -/
def McastDev.counted (dev : McastDev) (e : MdbEvent) (index : Nat) : McastGroup :=
  { dev.table.mtbl index with macHi := e.addr.mac.1, macLo := e.addr.mac.2 }.count e

/-- An IPv4 group in the first bank whose second octet has neither its first nor its last bit set, or no IP
group. -/
def GroupAddr.Plain (index : Nat) : GroupAddr → Prop
  | .ip4 a => index < 0x10 ∧ a.getLsbD 8 = false ∧ a.getLsbD 15 = false
  | .ip6 _ => False
  | .other => True

/-- The entry is free or is left without members, or it has members of one kind only and a plain address. -/
def McastDev.Mirrorable (dev : McastDev) (e : MdbEvent) : Prop :=
  e.present = true → ∀ index, dev.table.entryGet e.vid e.addr.mac.1 = some index →
    (dev.counted e index).valid = false ∨ ((dev.counted e index).oif = 0 ∧ (dev.counted e index).eif = 0) ∨
      (((dev.counted e index).oif = 0 ∨ (dev.counted e index).eif = 0) ∧ e.addr.Plain index)

/-! ### Fields -/

section Fields

variable (h : McastH)

theorem getLsbD_value (i : Nat) : h.value.getLsbD i =
    if i < 14 then false else if i = 14 then h.valid else if i = 15 then false
    else if i < 20 then h.pxEn.getLsbD (i - 16) else if i < 22 then h.mpreSel.getLsbD (i - 20) else false := by
  rw [McastH.value]
  simp only [BitVec.getLsbD_append, BitVec.ofNat_eq_ofNat, BitVec.getLsbD_zero, BitVec.getLsbD_ofBool]
  split
  · rfl
  · have := h.pxEn.getLsbD_of_ge
    have := h.mpreSel.getLsbD_of_ge
    grind

theorem extractLsb'_value : h.value.extractLsb' 20 2 = h.mpreSel := by
  apply BitVec.eq_of_getLsbD_eq
  intro i hi
  rw [BitVec.getLsbD_extractLsb', getLsbD_value]
  simp only [hi, decide_true, Bool.true_and]
  rw [if_neg (by omega), if_neg (by omega), if_neg (by omega), if_neg (by omega), if_pos (by omega),
    Nat.add_sub_cancel_left]

theorem value_zero : McastGroup.zero.mcastH.value = 0 := by decide

end Fields

/-! ### Addresses -/

/-- The mask takes the wrong bit of the second octet. -/
theorem mac_ip4 (a : BitVec 32) : (GroupAddr.ip4 a).mac.1 =
    (0x5e : BitVec 8) ++ (a.extractLsb' 8 8 &&& 0xfe) ++ a.extractLsb' 16 8 ++ a.extractLsb' 24 8 := by
  have hadd : (a &&& 0xfffffe00) + 0x5e = (a &&& 0xfffffe00) ||| 0x5e := by
    apply BitVec.add_eq_or_of_and_eq_zero
    rw [BitVec.and_assoc, show (0xfffffe00 : BitVec 32) &&& 0x5e = 0#32 by decide, BitVec.and_zero]
  rw [GroupAddr.mac, swab32, hadd]
  simp only [BitVec.extractLsb'_or, BitVec.extractLsb'_and]
  rw [show (0xfffffe00 : BitVec 32).extractLsb' 0 8 = 0#8 by decide,
    show (0xfffffe00 : BitVec 32).extractLsb' 8 8 = 0xfe#8 by decide,
    show (0xfffffe00 : BitVec 32).extractLsb' 16 8 = BitVec.allOnes 8 by decide,
    show (0xfffffe00 : BitVec 32).extractLsb' 24 8 = BitVec.allOnes 8 by decide,
    show (0x5e : BitVec 32).extractLsb' 0 8 = 0x5e#8 by decide,
    show (0x5e : BitVec 32).extractLsb' 8 8 = 0#8 by decide,
    show (0x5e : BitVec 32).extractLsb' 16 8 = 0#8 by decide,
    show (0x5e : BitVec 32).extractLsb' 24 8 = 0#8 by decide]
  simp only [BitVec.and_allOnes, BitVec.and_zero, BitVec.zero_or, BitVec.or_zero]
  rfl

/-- The address of a plain IPv4 group is right, and of no other. -/
theorem mac_ip4_eq_iff (a : BitVec 32) :
    (∀ sel last, (GroupAddr.ip4 a).multicastMac = some (sel, last) → (GroupAddr.ip4 a).mac.1 = last) ↔
      a.getLsbD 8 = false ∧ a.getLsbD 15 = false := by
  have hoctet : ∀ b : BitVec 8, b &&& 0xfe = b &&& 0x7f ↔ b.getLsbD 0 = false ∧ b.getLsbD 7 = false := by decide
  have hlow : (a.extractLsb' 8 8).getLsbD 0 = a.getLsbD 8 := by simp
  have hhigh : (a.extractLsb' 8 8).getLsbD 7 = a.getLsbD 15 := by simp
  rw [← hlow, ← hhigh, ← hoctet, mac_ip4]
  constructor
  · intro hall
    exact (append_inj.1 (append_inj.1 (append_inj.1 (hall _ _ rfl)).1).1).2
  · rintro heq sel last hmac
    obtain ⟨-, rfl⟩ := Prod.mk.inj (Option.some.inj hmac)
    rw [heq]

/-! ### Writes -/

section Writes

variable {group : McastGroup} {ppeId index : Nat} {regs : Mmio}

theorem regH_ne_regL (ppeId ppeId' index index' : Nat) : regH ppeId index ≠ regL ppeId' index' := by
  rw [regH, regL]
  unfold ppeMcastH0 ppeMcastH10 ppeMcastL0 ppeMcastL10
  split
  · split
    · intro heq
      have := (Reg.ppe.inj heq).2
      omega
    · exact Reg.noConfusion
  · split
    · exact Reg.noConfusion
    · intro heq
      have := Reg.fe.inj heq
      omega

theorem regH_inj {ppeId ppeId' index index' : Nat} (heq : regH ppeId index = regH ppeId' index') :
    index = index' := by
  rw [regH, regH] at heq
  split at heq
  · split at heq
    · have := (Reg.ppe.inj heq).2
      omega
    · cases heq
  · split at heq
    · cases heq
    · have := Reg.fe.inj heq
      omega

/-- What the low register of an entry is given. -/
def lowValue (group : McastGroup) (index : Nat) : BitVec 32 :=
  if index < 0x10 then group.macHi else group.mcastH.value

theorem setHnatMtbl_eq : setHnatMtbl group ppeId index regs =
    writel (lowValue group index) (regL ppeId index) (writel group.mcastH.value (regH ppeId index) regs) := by
  rw [setHnatMtbl, lowValue]
  split
  · rfl
  · rfl

theorem setHnatMtbl_regH (ppeId' : Nat) : setHnatMtbl group ppeId index regs (regH ppeId' index) =
    if regH ppeId' index = regH ppeId index then group.mcastH.value else regs (regH ppeId' index) := by
  rw [setHnatMtbl_eq, writel, Function.update_of_ne (regH_ne_regL _ _ _ _), writel, Function.update_apply]

theorem setHnatMtbl_regL (ppeId' : Nat) : setHnatMtbl group ppeId index regs (regL ppeId' index) =
    if regL ppeId' index = regL ppeId index then lowValue group index else regs (regL ppeId' index) := by
  rw [setHnatMtbl_eq, writel, Function.update_apply]
  split
  · rfl
  · rw [writel, Function.update_of_ne (regH_ne_regL _ _ _ _).symm]

/-- The registers after the writes for some PPEs. -/
def setPpes (group : McastGroup) (index : Nat) (ppeIds : List Nat) (regs : Mmio) : Mmio :=
  ppeIds.foldl (fun regs ppeId => setHnatMtbl group ppeId index regs) regs

theorem setPpes_regH {ppeIds : List Nat}
    (hmem : ppeId ∈ ppeIds ∨ regs (regH ppeId index) = group.mcastH.value) :
    setPpes group index ppeIds regs (regH ppeId index) = group.mcastH.value := by
  induction ppeIds generalizing regs with
  | nil => exact hmem.resolve_left List.not_mem_nil
  | cons first ppeIds ih =>
      refine ih ?_
      rw [List.mem_cons] at hmem
      dsimp only
      rw [setHnatMtbl_regH]
      rcases hmem with (rfl | hmem) | hold
      · exact Or.inr (if_pos rfl)
      · exact Or.inl hmem
      · exact Or.inr (by rw [hold, ite_self])

theorem setPpes_regL {ppeIds : List Nat}
    (hmem : ppeId ∈ ppeIds ∨ regs (regL ppeId index) = lowValue group index) :
    setPpes group index ppeIds regs (regL ppeId index) = lowValue group index := by
  induction ppeIds generalizing regs with
  | nil => exact hmem.resolve_left List.not_mem_nil
  | cons first ppeIds ih =>
      refine ih ?_
      rw [List.mem_cons] at hmem
      dsimp only
      rw [setHnatMtbl_regL]
      rcases hmem with (rfl | hmem) | hold
      · exact Or.inr (if_pos rfl)
      · exact Or.inl hmem
      · exact Or.inr (by rw [hold, ite_self])

theorem setPpes_regH_of_ne {ppeIds : List Nat} {index' : Nat} (hne : index' ≠ index) :
    setPpes group index ppeIds regs (regH ppeId index') = regs (regH ppeId index') := by
  induction ppeIds generalizing regs with
  | nil => rfl
  | cons first ppeIds ih =>
      have hother : regH ppeId index' ≠ regH first index := fun heq => hne (regH_inj heq)
      rw [setPpes, List.foldl_cons]
      refine ih.trans ?_
      rw [setHnatMtbl_eq, writel, Function.update_of_ne (regH_ne_regL _ _ _ _), writel,
        Function.update_of_ne hother]

end Writes


/-! ### Events -/

section Events

variable {ppes : Ppes} {dev : McastDev} {e : MdbEvent} {index : Nat}

theorem McastGroup.count_mac (g : McastGroup) (e : MdbEvent) :
    (g.count e).macHi = g.macHi ∧ (g.count e).macLo = g.macLo := by
  rw [McastGroup.count]
  cases e.type with
  | newmdb => cases e.eth <;> exact ⟨rfl, rfl⟩
  | delmdb => cases g.valid <;> cases e.eth <;> exact ⟨rfl, rfl⟩

/-- Only a leave leaves an entry free, and it leaves it as it was. -/
theorem McastGroup.count_of_not_valid {g : McastGroup} (hfree : (g.count e).valid = false) :
    g.valid = false ∧ g.count e = g := by
  rw [McastGroup.count] at hfree ⊢
  cases htype : e.type with
  | newmdb =>
      rw [htype] at hfree
      cases hfree
  | delmdb =>
      rw [htype] at hfree
      cases hvalid : g.valid with
      | false => simp
      | true =>
          simp only [hvalid, if_true] at hfree
          cases heth : e.eth <;> simp [heth] at hfree

theorem McastGroup.settle_of_not_valid {g : McastGroup} (hfree : g.valid = false) : g.settle = g := by
  rw [McastGroup.settle, hfree]
  rfl

theorem McastGroup.settle_of_empty {g : McastGroup} (hvalid : g.valid = true) (hempty : g.oif = 0 ∧ g.eif = 0) :
    g.settle = .zero := by
  rw [McastGroup.settle, if_pos hvalid, if_pos hempty]

theorem McastGroup.settle_of_members {g : McastGroup} (hvalid : g.valid = true)
    (hmembers : ¬ (g.oif = 0 ∧ g.eif = 0)) :
    g.settle = { g with mcPort := if g.oif ≠ 0 then 1 else 2 } := by
  rw [McastGroup.settle, if_pos hvalid, if_neg hmembers]
  by_cases hoif : g.oif ≠ 0
  · rw [if_pos hoif, ite_self]
  · rw [if_neg hoif, if_neg fun h => hoif h.1]

theorem McastDev.step_eq (hpresent : e.present = true)
    (hget : dev.table.entryGet e.vid e.addr.mac.1 = some index) :
    (dev.step ppes e).table.mtbl = Function.update dev.table.mtbl index (dev.counted e index).settle ∧
      (dev.step ppes e).regs =
        if (dev.counted e index).valid then
          setPpes (dev.counted e index).settle index (List.range ppes.num) dev.regs
        else dev.regs := by
  simp only [McastDev.step, McastTable.update, hpresent, hget, Bool.not_true, Bool.false_eq_true, if_false]
  exact ⟨rfl, rfl⟩

/-- A free entry counts no members, and its registers are cleared. -/
structure McastDev.Inv (ppes : Ppes) (dev : McastDev) : Prop where
  free : ∀ i, (dev.table.mtbl i).valid = false → (dev.table.mtbl i).oif = 0 ∧ (dev.table.mtbl i).eif = 0
  cleared : ∀ i, (dev.table.mtbl i).valid = false → ∀ ppeId < ppes.num, dev.regs (regH ppeId i) = 0

theorem McastDev.inv_init (ppes : Ppes) (maxEntry : Nat) : (McastDev.init maxEntry).Inv ppes :=
  ⟨fun _ _ => ⟨rfl, rfl⟩, fun _ _ _ _ => rfl⟩

/-- The entry that an event leaves free, with its registers. -/
theorem McastDev.Inv.updated_free (hinv : dev.Inv ppes) (hpresent : e.present = true)
    (hget : dev.table.entryGet e.vid e.addr.mac.1 = some index)
    (hfree : (dev.counted e index).settle.valid = false) :
    (dev.counted e index).settle.oif = 0 ∧ (dev.counted e index).settle.eif = 0 ∧
      ∀ ppeId < ppes.num, (dev.step ppes e).regs (regH ppeId index) = 0 := by
  obtain ⟨-, hregs⟩ := @McastDev.step_eq ppes dev e index hpresent hget
  rw [hregs]
  cases hvalid : (dev.counted e index).valid with
  | false =>
      obtain ⟨hbefore, hsame⟩ := McastGroup.count_of_not_valid hvalid
      obtain ⟨hoif, heif⟩ := hinv.free index hbefore
      rw [McastGroup.settle_of_not_valid hvalid, McastDev.counted, hsame]
      exact ⟨hoif, heif, fun ppeId hppe => hinv.cleared index hbefore ppeId hppe⟩
  | true =>
      by_cases hempty : (dev.counted e index).oif = 0 ∧ (dev.counted e index).eif = 0
      · rw [McastGroup.settle_of_empty hvalid hempty, if_pos rfl]
        refine ⟨rfl, rfl, fun ppeId hppe => ?_⟩
        rw [setPpes_regH (Or.inl (List.mem_range.2 hppe)), value_zero]
      · rw [McastGroup.settle_of_members hvalid hempty] at hfree
        exact absurd (hfree.symm.trans hvalid) Bool.false_ne_true

theorem McastDev.Inv.step (hinv : dev.Inv ppes) (e : MdbEvent) : (dev.step ppes e).Inv ppes := by
  by_cases hpresent : e.present = true
  · cases hget : dev.table.entryGet e.vid e.addr.mac.1 with
    | none =>
        have hsame : dev.step ppes e = dev := by
          simp [McastDev.step, McastTable.update, hpresent, hget]
        rwa [hsame]
    | some index =>
        obtain ⟨htable, hregs⟩ := @McastDev.step_eq ppes dev e index hpresent hget
        have hother : ∀ i, i ≠ index → ∀ ppeId,
            (dev.step ppes e).regs (regH ppeId i) = dev.regs (regH ppeId i) := by
          intro i hi ppeId
          rw [hregs]
          split
          · exact setPpes_regH_of_ne hi
          · rfl
        constructor
        · intro i hfree
          rw [htable] at hfree ⊢
          by_cases hi : i = index
          · subst hi
            rw [Function.update_self] at hfree ⊢
            obtain ⟨hoif, heif, -⟩ := hinv.updated_free hpresent hget hfree
            exact ⟨hoif, heif⟩
          · rw [Function.update_of_ne hi] at hfree ⊢
            exact hinv.free i hfree
        · intro i hfree ppeId hppe
          rw [htable] at hfree
          by_cases hi : i = index
          · subst hi
            rw [Function.update_self] at hfree
            exact (hinv.updated_free hpresent hget hfree).2.2 ppeId hppe
          · rw [Function.update_of_ne hi] at hfree
            rw [hother i hi]
            exact hinv.cleared i hfree ppeId hppe
  · have hsame : dev.step ppes e = dev := by
      simp [McastDev.step, McastTable.update, hpresent]
    rwa [hsame]

theorem McastDev.Inv.run (hinv : dev.Inv ppes) (events : List MdbEvent) : (dev.run ppes events).Inv ppes := by
  induction events generalizing dev with
  | nil => exact hinv
  | cons e events ih => exact ih (hinv.step e)

/-! ### Mirroring -/

/-- The low register of an IPv4 group is that of its address in the first bank, when the address is plain. -/
theorem lowValue_ip4_iff {g : McastGroup} {a : BitVec 32} (hmac : g.macHi = (GroupAddr.ip4 a).mac.1) :
    (∀ sel last, (GroupAddr.ip4 a).multicastMac = some (sel, last) → lowValue g index = last) ↔
      (GroupAddr.ip4 a).Plain index := by
  rw [GroupAddr.Plain, ← mac_ip4_eq_iff, lowValue]
  by_cases hindex : index < 0x10
  · rw [if_pos hindex, hmac, and_iff_right hindex]
  · rw [if_neg hindex]
    refine iff_of_false (fun hall => ?_) fun h => hindex h.1
    have hbit := congrArg (fun x => x.getLsbD 30) (hall _ _ rfl)
    rw [getLsbD_value, BitVec.getLsbD_append, BitVec.getLsbD_append, BitVec.getLsbD_append] at hbit
    exact absurd hbit (by simp)

/-- The registers of an entry with members. -/
theorem mirrors_members_iff {g : McastGroup} {addr : GroupAddr} (hvalid : g.valid = true)
    (hmembers : ¬ (g.oif = 0 ∧ g.eif = 0)) (hmac : g.macHi = addr.mac.1 ∧ g.macLo = addr.mac.2) :
    Mirrors g.settle addr g.settle.mcastH.value (lowValue g.settle index) ↔
      (g.oif = 0 ∨ g.eif = 0) ∧ addr.Plain index := by
  rw [McastGroup.settle_of_members hvalid hmembers]
  generalize hport : { g with mcPort := if g.oif ≠ 0 then 1 else 2 } = settled
  have hvalid' : settled.valid = true := by rw [← hport]; exact hvalid
  have hoif : settled.oif = g.oif := by rw [← hport]
  have heif : settled.eif = g.eif := by rw [← hport]
  have hmac' : settled.macHi = addr.mac.1 ∧ settled.macLo = addr.mac.2 := by rw [← hport]; exact hmac
  have hports : settled.mcastH.pxEn = if g.oif ≠ 0 then 1 else 2 := by
    rw [← hport]
    by_cases h : g.oif ≠ 0
    · rw [if_pos h, if_pos h]
      rfl
    · rw [if_neg h, if_neg h]
      rfl
  have hcpu : settled.mcastH.value.getLsbD 16 = true ↔ settled.oif ≠ 0 := by
    rw [show settled.mcastH.value.getLsbD 16 = settled.mcastH.pxEn.getLsbD 0 by rw [getLsbD_value]; rfl, hports, hoif]
    by_cases h : g.oif ≠ 0
    · rw [if_pos h]
      exact iff_of_true rfl h
    · rw [if_neg h]
      exact iff_of_false Bool.false_ne_true h
  have hgdma1 : settled.mcastH.value.getLsbD 17 = true ↔ ¬ g.oif ≠ 0 := by
    rw [show settled.mcastH.value.getLsbD 17 = settled.mcastH.pxEn.getLsbD 1 by rw [getLsbD_value]; rfl, hports]
    by_cases h : g.oif ≠ 0
    · rw [if_pos h]
      exact iff_of_false Bool.false_ne_true (not_not.2 h)
    · rw [if_neg h]
      exact iff_of_true rfl h
  have hbit : settled.mcastH.value.getLsbD 14 = settled.valid := by rw [getLsbD_value]; rfl
  have hsel : settled.mcastH.value.extractLsb' 20 2 =
      if addr.mac.2 = 0x0100 then 0 else if addr.mac.2 = 0x3333 then 1 else 0 := by
    rw [extractLsb'_value, McastGroup.mcastH, hmac'.2]
  have hmask : (settled.mcastH.value.getLsbD 17 = true ↔ settled.eif ≠ 0) ↔ g.oif = 0 ∨ g.eif = 0 := by
    rw [hgdma1, heif]
    tauto
  have hplain : (∀ sel last, addr.multicastMac = some (sel, last) →
      settled.mcastH.value.extractLsb' 20 2 = sel ∧ lowValue settled index = last) ↔ addr.Plain index := by
    rw [hsel]
    cases addr with
    | ip4 a =>
        rw [← lowValue_ip4_iff hmac'.1]
        refine forall_congr' fun sel => forall_congr' fun last => imp_congr_right fun hmacs => and_iff_right ?_
        rw [← (Prod.mk.inj (Option.some.inj hmacs)).1]
        rfl
    | ip6 s6Addr32 =>
        refine iff_of_false (fun hall => ?_) id
        have hprefix := (hall _ _ rfl).1
        rw [show (GroupAddr.ip6 s6Addr32).mac.2 = 0x3333 from rfl] at hprefix
        exact absurd hprefix (by decide)
    | other => exact iff_of_true (fun _ _ h => nomatch h) trivial
  rw [← hmask, ← hplain]
  exact ⟨fun h => ⟨h.gdma1, h.mac hvalid'⟩, fun h => ⟨hbit, hcpu, h.1, fun _ => h.2⟩⟩

/-- After every sequence of events, the next one leaves registers that mirror its entry if and only if it frees
the entry, or the members are of one kind and the address is plain. -/
theorem stepMirrors_iff (ppes : Ppes) (maxEntry : Nat) (events : List MdbEvent) (e : MdbEvent) :
    ((McastDev.init maxEntry).run ppes events).StepMirrors ppes e ↔
      ((McastDev.init maxEntry).run ppes events).Mirrorable e := by
  have hinv := (McastDev.inv_init ppes maxEntry).run events
  generalize (McastDev.init maxEntry).run ppes events = dev at hinv
  refine imp_congr_right fun hpresent => forall_congr' fun index => imp_congr_right fun hget => ?_
  obtain ⟨htable, hregs⟩ := @McastDev.step_eq ppes dev e index hpresent hget
  have hmac := McastGroup.count_mac { dev.table.mtbl index with macHi := e.addr.mac.1, macLo := e.addr.mac.2 } e
  have hfreed := @McastDev.Inv.updated_free ppes dev e index hinv hpresent hget
  rw [htable, Function.update_self]
  rw [← McastDev.counted] at hmac
  generalize dev.counted e index = g at hmac hfreed hregs ⊢
  by_cases hfree : g.settle.valid = false
  · obtain ⟨hoif, heif, hzero⟩ := hfreed hfree
    refine iff_of_true (fun ppeId hppe => ?_) ?_
    · rw [hzero ppeId hppe]
      refine ⟨hfree.symm, ?_, ?_, fun hvalid => absurd (hfree.symm.trans hvalid) Bool.false_ne_true⟩
      · exact iff_of_false Bool.false_ne_true (not_not.2 hoif)
      · exact iff_of_false Bool.false_ne_true (not_not.2 heif)
    · by_contra hnot
      rw [not_or, not_or, Bool.not_eq_false] at hnot
      rw [McastGroup.settle_of_members hnot.1 hnot.2.1] at hfree
      exact Bool.false_ne_true (hfree.symm.trans hnot.1)
  · have hvalid : g.valid = true := by
      by_contra hinvalid
      rw [Bool.not_eq_true] at hinvalid
      rw [McastGroup.settle_of_not_valid hinvalid] at hfree
      exact hfree hinvalid
    have hmembers : ¬ (g.oif = 0 ∧ g.eif = 0) := by
      intro hempty
      rw [McastGroup.settle_of_empty hvalid hempty] at hfree
      exact hfree rfl
    have hmirrors := @mirrors_members_iff index g e.addr hvalid hmembers hmac
    rw [if_pos hvalid] at hregs
    rw [hregs, or_iff_right (by rw [hvalid]; exact Bool.noConfusion), or_iff_right hmembers, ← hmirrors]
    have hread : ∀ ppeId < ppes.num,
        setPpes g.settle index (List.range ppes.num) dev.regs (regH ppeId index) = g.settle.mcastH.value ∧
          setPpes g.settle index (List.range ppes.num) dev.regs (regL ppeId index) = lowValue g.settle index :=
      fun ppeId hppe => ⟨setPpes_regH (Or.inl (List.mem_range.2 hppe)), setPpes_regL (Or.inl (List.mem_range.2 hppe))⟩
    constructor
    · intro hall
      have hfirst := hall 0 ppes.pos
      rwa [(hread 0 ppes.pos).1, (hread 0 ppes.pos).2] at hfirst
    · intro hmirror ppeId hppe
      rwa [(hread ppeId hppe).1, (hread ppeId hppe).2]

end Events

/-- A device with one PPE. -/
def singlePpe : Ppes := ⟨1, Nat.one_pos⟩

/-- An Ethernet port and a wireless port join the group 239.0.2.1. -/
def joinEvent (eth : Bool) : MdbEvent :=
  { type := .newmdb, ifindex := if eth then 2 else 3, vid := 0, addr := .ip4 0x010200ef, present := true, eth }

/-- The group of both ports is not forwarded to GDMA1. -/
theorem stepMirrors_not_both :
    ¬ ((McastDev.init 64).run singlePpe [joinEvent true]).StepMirrors singlePpe (joinEvent false) := by
  intro hmirrors
  have hget : ((McastDev.init 64).run singlePpe [joinEvent true]).table.entryGet (joinEvent false).vid
      (joinEvent false).addr.mac.1 = some 0 := by decide +kernel
  have hgdma1 := (hmirrors rfl 0 hget 0 Nat.one_pos).gdma1
  exact absurd hgdma1 (by decide +kernel)

end Immwrt.Hnat
