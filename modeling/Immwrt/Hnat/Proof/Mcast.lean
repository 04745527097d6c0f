import Mathlib.Data.Finset.Card
import Mathlib.Data.Finset.Image
import Mathlib.Tactic
import Immwrt.Hnat.Mcast

/-!
# The multicast group table and its members

The scan for an entry compares the entries up to the first free one with the group, and from there on each
entry in the turn of the next. So it is right as long as no group lies behind a free entry, and the table
then has one entry for each group with members, with the right counts.
-/

namespace Immwrt.Hnat

/-! ### What the table should be -/

/-- How many members a group has, of one kind. -/
def Mcast.count (s : Mcast) (vid : BitVec 16) (mac : GroupMac) (eth : Bool) : Nat :=
  s.members.countP fun m => m.vid = vid ∧ m.mac = mac ∧ m.eth = eth

/-- The entry is that of the group. -/
def McastGroup.IsFor (g : McastGroup) (vid : BitVec 16) (mac : GroupMac) : Prop :=
  g.valid = true ∧ g.vid = vid ∧ (g.macHi, g.macLo) = mac

/-- Every group with members has exactly one entry, which counts them, and no other entry is valid. -/
structure Mcast.Correct (s : Mcast) : Prop where
  entry : ∀ vid mac, 0 < s.count vid mac true + s.count vid mac false →
    ∃ i < s.maxEntry, (s.mtbl i).IsFor vid mac ∧ (s.mtbl i).eif.toNat = s.count vid mac true ∧
      (s.mtbl i).oif.toNat = s.count vid mac false ∧ ∀ j, (s.mtbl j).IsFor vid mac → j = i
  members : ∀ i, (s.mtbl i).valid = true →
    i < s.maxEntry ∧ 0 < s.count (s.mtbl i).vid ((s.mtbl i).macHi, (s.mtbl i).macLo) true +
      s.count (s.mtbl i).vid ((s.mtbl i).macHi, (s.mtbl i).macLo) false

/-- What the bridge sees to: who leaves has joined, a group has at most 255 members, and no more groups
have members than there are entries. -/
structure Mcast.Legal (s : Mcast) (e : MdbEvent) : Prop where
  joined : e.type = .delmdb → e.member ∈ s.members
  few : ∀ vid mac, (s.step e).count vid mac true + (s.step e).count vid mac false ≤ 255
  groups : ((s.step e).members.map fun m => (m.vid, m.mac)).toFinset.card ≤ s.maxEntry

/-- The device of the event is there, no other group of the VLAN has an address with the same last four
bytes, no entry before that of the group is free, and a group that has no entry is not the one that a
cleared entry looks like. -/
structure McastTable.Findable (t : McastTable) (e : MdbEvent) : Prop where
  present : e.present = true
  distinct : ∀ i < t.maxEntry, (t.mtbl i).valid = true → (t.mtbl i).vid = e.vid →
    (t.mtbl i).macHi = e.addr.mac.1 → (t.mtbl i).macLo = e.addr.mac.2
  packed : ∀ i < t.maxEntry, (t.mtbl i).IsFor e.vid e.addr.mac → ∀ j < i, (t.mtbl j).valid = true
  nonzero : (∀ i < t.maxEntry, ¬ (t.mtbl i).IsFor e.vid e.addr.mac) → ¬ (e.vid = 0 ∧ e.addr.mac.1 = 0)

/-! ### The scan -/

section Scan

variable {t : McastTable} {vid : BitVec 16} {mac : BitVec 32}

/-- The comparison of the scan. -/
abbrev McastGroup.Matches (g : McastGroup) (vid : BitVec 16) (mac : BitVec 32) : Prop :=
  g.vid = vid ∧ g.macHi = mac

/-- Once a free entry is noted, the scan ends with it unless an entry matches. -/
theorem entryLoop_noted {f : Nat} (n i p : Nat) (h : ∀ j, p ≤ j → ¬ (t.mtbl j).Matches vid mac) :
    t.entryLoop vid mac n i p (some f) = some f := by
  induction n generalizing i p with
  | zero => rfl
  | succ n ih =>
    rw [McastTable.entryLoop, if_neg (by simp), if_neg (h p le_rfl)]
    exact ih (i + 1) (p + 1) fun j hj => h j (by omega)

/-- The scan passes valid entries that do not match. -/
theorem entryLoop_skip {k : Nat} (h : ∀ j < k, (t.mtbl j).valid = true ∧ ¬ (t.mtbl j).Matches vid mac)
    (d i n : Nat) (hk : i + d = k) :
    t.entryLoop vid mac (n + d) i i none = t.entryLoop vid mac n k k none := by
  induction d generalizing i with
  | zero =>
    obtain rfl : i = k := by omega
    rfl
  | succ d ih =>
    obtain ⟨hvalid, hmiss⟩ := h i (by omega)
    rw [← Nat.add_assoc, McastTable.entryLoop, if_neg (by simp [hvalid]), if_neg hmiss]
    exact ih (i + 1) (by omega)

theorem entryGet_found {k : Nat} (hk : k < t.maxEntry)
    (h : ∀ j < k, (t.mtbl j).valid = true ∧ ¬ (t.mtbl j).Matches vid mac)
    (hvalid : (t.mtbl k).valid = true) (hmatch : (t.mtbl k).Matches vid mac) :
    t.entryGet vid mac = some k := by
  obtain ⟨n, hn⟩ := Nat.exists_eq_add_of_lt hk
  have hturns : t.maxEntry = (n + 1) + k := by omega
  rw [McastTable.entryGet, hturns, entryLoop_skip h k 0 (n + 1) (by omega), McastTable.entryLoop,
    if_neg (by simp [hvalid]), if_pos hmatch]

theorem entryGet_free {f : Nat} (hf : f < t.maxEntry)
    (h : ∀ j < f, (t.mtbl j).valid = true ∧ ¬ (t.mtbl j).Matches vid mac)
    (hfree : (t.mtbl f).valid = false) (hmiss : ∀ j, f ≤ j → ¬ (t.mtbl j).Matches vid mac) :
    t.entryGet vid mac = some f := by
  obtain ⟨n, hn⟩ := Nat.exists_eq_add_of_lt hf
  have hturns : t.maxEntry = (n + 1) + f := by omega
  rw [McastTable.entryGet, hturns, entryLoop_skip h f 0 (n + 1) (by omega), McastTable.entryLoop,
    if_pos (by simp [hfree])]
  exact entryLoop_noted n (f + 1) f hmiss

end Scan

/-! ### One event -/

/-- The invariant: a table that is correct, and all zero where it is not valid. -/
structure Mcast.Inv (s : Mcast) : Prop extends s.Correct where
  free : ∀ i, (s.mtbl i).valid = false → s.mtbl i = .zero

section Step

variable {s : Mcast} {e : MdbEvent}

theorem McastGroup.IsFor.matches {g : McastGroup} {vid : BitVec 16} {mac : GroupMac} (h : g.IsFor vid mac) :
    g.Matches vid mac.1 := ⟨h.2.1, congrArg Prod.fst h.2.2⟩

/-- Two entries of one group are the same. -/
theorem Mcast.Correct.unique (h : s.Correct) {i j : Nat} {vid : BitVec 16} {mac : GroupMac}
    (hi : (s.mtbl i).IsFor vid mac) (hj : (s.mtbl j).IsFor vid mac) : j = i := by
  obtain ⟨-, hpos⟩ := h.members i hi.1
  rw [hi.2.1, hi.2.2] at hpos
  obtain ⟨k, -, -, -, -, hunique⟩ := h.entry vid mac hpos
  rw [hunique i hi, hunique j hj]

/-- A valid entry that the scan takes for the group is the group's. -/
theorem McastTable.Findable.isFor (h : s.Findable e) {i : Nat} (hi : i < s.maxEntry)
    (hvalid : (s.mtbl i).valid = true) (hmatch : (s.mtbl i).Matches e.vid e.addr.mac.1) :
    (s.mtbl i).IsFor e.vid e.addr.mac :=
  ⟨hvalid, hmatch.1, Prod.ext hmatch.2 (h.distinct i hi hvalid hmatch.1 hmatch.2)⟩

theorem Mcast.Inv.entryGet_present (h : s.Inv) (hfind : s.Findable e) {k : Nat} (hk : k < s.maxEntry)
    (hfor : (s.mtbl k).IsFor e.vid e.addr.mac) : s.entryGet e.vid e.addr.mac.1 = some k := by
  refine entryGet_found hk (fun j hj => ?_) hfor.1 hfor.matches
  have hvalid := hfind.packed k hk hfor j hj
  refine ⟨hvalid, fun hmatch => ?_⟩
  have := h.unique hfor (hfind.isFor (by omega) hvalid hmatch)
  omega

/-- A new group gets the first free entry. -/
theorem Mcast.Inv.entryGet_absent (h : s.Inv) (hfind : s.Findable e)
    (habsent : ∀ i, ¬ (s.mtbl i).IsFor e.vid e.addr.mac) (hfree : ∃ i < s.maxEntry, (s.mtbl i).valid = false) :
    ∃ f < s.maxEntry, (s.mtbl f).valid = false ∧ s.entryGet e.vid e.addr.mac.1 = some f := by
  classical
  have hex : ∃ i, i < s.maxEntry ∧ (s.mtbl i).valid = false := hfree
  obtain ⟨hlt, hinvalid⟩ := Nat.find_spec hex
  have hmiss : ∀ j, ¬ (s.mtbl j).Matches e.vid e.addr.mac.1 := by
    intro j hmatch
    cases hvalid : (s.mtbl j).valid with
    | true => exact habsent j (hfind.isFor (h.members j hvalid).1 hvalid hmatch)
    | false =>
      rw [h.free j hvalid] at hmatch
      exact hfind.nonzero (fun i _ => habsent i) ⟨hmatch.1.symm, hmatch.2.symm⟩
  refine ⟨Nat.find hex, hlt, hinvalid, entryGet_free hlt (fun j hj => ⟨?_, hmiss j⟩) hinvalid fun j _ => hmiss j⟩
  by_contra hnot
  exact Nat.find_min hex hj ⟨by omega, by simpa using hnot⟩

/-- As long as not every entry is used by a group with members, one is free. -/
theorem Mcast.Inv.exists_free (h : s.Inv) (habsent : ∀ i, ¬ (s.mtbl i).IsFor e.vid e.addr.mac)
    (hgroups : ((e.member :: s.members).map fun m => (m.vid, m.mac)).toFinset.card ≤ s.maxEntry) :
    ∃ i < s.maxEntry, (s.mtbl i).valid = false := by
  by_contra hfull
  push Not at hfull
  have hvalid (i : Nat) (hi : i < s.maxEntry) : (s.mtbl i).valid = true := by simpa using hfull i hi
  let key (i : Nat) : BitVec 16 × GroupMac := ((s.mtbl i).vid, ((s.mtbl i).macHi, (s.mtbl i).macLo))
  have hkey (i : Nat) (hi : i < s.maxEntry) : (s.mtbl i).IsFor (key i).1 (key i).2 := ⟨hvalid i hi, rfl, rfl⟩
  have hinj : Set.InjOn key (Finset.range s.maxEntry) := by
    intro i hi j hj hij
    have hi := hkey i (Finset.mem_range.mp hi)
    have hj := hkey j (Finset.mem_range.mp hj)
    rw [hij] at hi
    exact h.unique hj hi
  have hnew : (e.vid, e.addr.mac) ∉ (Finset.range s.maxEntry).image key := by
    intro hmem
    obtain ⟨i, hi, heq⟩ := Finset.mem_image.mp hmem
    have hfor := hkey i (Finset.mem_range.mp hi)
    rw [heq] at hfor
    exact habsent i hfor
  have hsub : insert (e.vid, e.addr.mac) ((Finset.range s.maxEntry).image key) ⊆
      ((e.member :: s.members).map fun m => (m.vid, m.mac)).toFinset := by
    intro x hx
    rw [List.mem_toFinset, List.map_cons, List.mem_cons]
    rcases Finset.mem_insert.mp hx with rfl | hx
    · exact Or.inl rfl
    · obtain ⟨i, hi, rfl⟩ := Finset.mem_image.mp hx
      refine Or.inr ?_
      obtain ⟨-, hpos⟩ := h.members i (hvalid i (Finset.mem_range.mp hi))
      have hmember : ∃ m ∈ s.members, m.vid = (s.mtbl i).vid ∧ m.mac = ((s.mtbl i).macHi, (s.mtbl i).macLo) := by
        rcases Nat.add_pos_iff_pos_or_pos.mp hpos with hpos | hpos
        · obtain ⟨m, hm, hmatch⟩ := List.countP_pos_iff.mp hpos
          simp only [decide_eq_true_eq] at hmatch
          exact ⟨m, hm, hmatch.1, hmatch.2.1⟩
        · obtain ⟨m, hm, hmatch⟩ := List.countP_pos_iff.mp hpos
          simp only [decide_eq_true_eq] at hmatch
          exact ⟨m, hm, hmatch.1, hmatch.2.1⟩
      obtain ⟨m, hm, hvid, hmac⟩ := hmember
      exact List.mem_map.mpr ⟨m, hm, Prod.ext hvid hmac⟩
  have hcard := Finset.card_le_card hsub
  rw [Finset.card_insert_of_notMem hnew, Finset.card_image_of_injOn hinj, Finset.card_range] at hcard
  omega

/-- The entry of a group as it is left, by how many members it counts. -/
theorem McastGroup.settle_cases {g : McastGroup} {vid : BitVec 16} {mac : GroupMac} (h : g.IsFor vid mac) :
    (0 < g.eif.toNat + g.oif.toNat → g.settle.IsFor vid mac ∧ g.settle.eif = g.eif ∧ g.settle.oif = g.oif) ∧
    (g.eif.toNat + g.oif.toNat = 0 → g.settle = .zero) := by
  have hzero : (g.oif = 0 ∧ g.eif = 0) ↔ g.eif.toNat + g.oif.toNat = 0 := by
    rw [Nat.add_eq_zero_iff, BitVec.toNat_eq, BitVec.toNat_eq]
    exact and_comm
  rw [McastGroup.settle, if_pos h.1]
  constructor
  · intro hpos
    rw [if_neg (fun hboth => hpos.ne' (hzero.mp hboth))]
    exact ⟨h, rfl, rfl⟩
  · intro hnone
    rw [if_pos (hzero.mpr hnone)]

/-- The entry of one group is replaced, and the members of that group only change. -/
theorem Mcast.Inv.replace {s' : Mcast} {k : Nat} {g : McastGroup} {vid : BitVec 16} {mac : GroupMac} (h : s.Inv)
    (hmax : s'.maxEntry = s.maxEntry) (hk : k < s.maxEntry)
    (hmtbl : s'.mtbl = Function.update s.mtbl k g.settle) (hg : g.IsFor vid mac)
    (hkey : (s.mtbl k).IsFor vid mac ∨ (s.mtbl k).valid = false)
    (hothers : ∀ j, j ≠ k → ¬ (s.mtbl j).IsFor vid mac)
    (heif : g.eif.toNat = s'.count vid mac true) (hoif : g.oif.toNat = s'.count vid mac false)
    (hcount : ∀ vid' mac' eth, (vid', mac') ≠ (vid, mac) → s'.count vid' mac' eth = s.count vid' mac' eth) :
    s'.Inv := by
  obtain ⟨hsome, hnone⟩ := McastGroup.settle_cases hg
  rw [heif, hoif] at hsome hnone
  have hself : s'.mtbl k = g.settle := by rw [hmtbl, Function.update_self]
  have hne (j : Nat) (hj : j ≠ k) : s'.mtbl j = s.mtbl j := by rw [hmtbl, Function.update_of_ne hj]
  refine ⟨⟨fun vid' mac' hpos => ?_, fun i hvalid => ?_⟩, fun i hinvalid => ?_⟩
  · rw [hmax]
    by_cases heq : (vid', mac') = (vid, mac)
    · obtain ⟨rfl, rfl⟩ := Prod.mk.inj heq
      obtain ⟨hfor, heif', hoif'⟩ := hsome hpos
      refine ⟨k, hk, by rwa [hself], by rw [hself, heif', heif], by rw [hself, hoif', hoif], fun j hj => ?_⟩
      by_contra hjk
      rw [hne j hjk] at hj
      exact hothers j hjk hj
    · rw [hcount _ _ _ heq, hcount _ _ _ heq] at hpos ⊢
      obtain ⟨i, hi, hfor, heifi, hoifi, hunique⟩ := h.entry vid' mac' hpos
      have hik : i ≠ k := by
        rintro rfl
        rcases hkey with hkey | hkey
        · exact heq (Prod.ext (hfor.2.1.symm.trans hkey.2.1) (hfor.2.2.symm.trans hkey.2.2))
        · exact absurd (hfor.1.symm.trans hkey) (by decide)
      refine ⟨i, hi, by rwa [hne i hik], by rwa [hne i hik], by rwa [hne i hik], fun j hj => ?_⟩
      by_cases hjk : j = k
      · subst hjk
        rw [hself] at hj
        by_cases hpos' : 0 < s'.count vid mac true + s'.count vid mac false
        · have hfor' := (hsome hpos').1
          exact absurd (Prod.ext (hj.2.1.symm.trans hfor'.2.1) (hj.2.2.symm.trans hfor'.2.2)) heq
        · rw [hnone (by omega)] at hj
          exact absurd hj.1 (by decide)
      · rw [hne j hjk] at hj
        exact hunique j hj
  · rw [hmax]
    by_cases hik : i = k
    · subst hik
      refine ⟨hk, ?_⟩
      rw [hself] at hvalid ⊢
      by_cases hpos' : 0 < s'.count vid mac true + s'.count vid mac false
      · have hfor' := (hsome hpos').1
        rw [hfor'.2.1, hfor'.2.2]
        exact hpos'
      · rw [hnone (by omega)] at hvalid
        exact absurd hvalid (by decide)
    · rw [hne i hik] at hvalid ⊢
      obtain ⟨hi, hpos⟩ := h.members i hvalid
      refine ⟨hi, ?_⟩
      rw [hcount, hcount]
      · exact hpos
      all_goals
        intro heq
        obtain ⟨hvid, hmac⟩ := Prod.mk.inj heq
        exact hothers i hik ⟨hvalid, hvid, hmac⟩
  · by_cases hik : i = k
    · subst hik
      rw [hself] at hinvalid ⊢
      by_cases hpos' : 0 < s'.count vid mac true + s'.count vid mac false
      · exact absurd ((hsome hpos').1.1.symm.trans hinvalid) (by decide)
      · exact hnone (by omega)
    · rw [hne i hik] at hinvalid ⊢
      exact h.free i hinvalid

/-- Whether the event is about a member of this kind of the group. -/
def MdbEvent.weight (e : MdbEvent) (vid : BitVec 16) (mac : GroupMac) (eth : Bool) : Nat :=
  if e.vid = vid ∧ e.addr.mac = mac ∧ e.eth = eth then 1 else 0

theorem weight_eq (e : MdbEvent) (vid : BitVec 16) (mac : GroupMac) (eth : Bool) :
    (if (decide (e.member.vid = vid ∧ e.member.mac = mac ∧ e.member.eth = eth)) = true then 1 else 0) =
      e.weight vid mac eth := by
  rw [MdbEvent.weight]
  exact if_congr (by rw [decide_eq_true_iff]; rfl) rfl rfl

theorem count_newmdb (htype : e.type = .newmdb) (vid : BitVec 16) (mac : GroupMac) (eth : Bool) :
    (s.step e).count vid mac eth = s.count vid mac eth + e.weight vid mac eth := by
  have hmembers : (s.step e).members = e.member :: s.members := by rw [Mcast.step, htype]
  rw [Mcast.count, hmembers, List.countP_cons, weight_eq]
  rfl

theorem count_delmdb (htype : e.type = .delmdb) (hmem : e.member ∈ s.members) (vid : BitVec 16)
    (mac : GroupMac) (eth : Bool) :
    (s.step e).count vid mac eth + e.weight vid mac eth = s.count vid mac eth := by
  have hmembers : (s.step e).members = s.members.erase e.member := by rw [Mcast.step, htype]
  rw [Mcast.count, Mcast.count, hmembers, (List.perm_cons_erase hmem).countP_eq, List.countP_cons, weight_eq]

theorem weight_of_ne {vid : BitVec 16} {mac : GroupMac} (hne : (vid, mac) ≠ (e.vid, e.addr.mac)) (eth : Bool) :
    e.weight vid mac eth = 0 := by
  rw [MdbEvent.weight, if_neg]
  rintro ⟨rfl, rfl, -⟩
  exact hne rfl

/-- What the table does with an event whose entry is `k`. -/
theorem update_eq {k : Nat} (hpresent : e.present = true) (hget : s.entryGet e.vid e.addr.mac.1 = some k) :
    (s.step e).maxEntry = s.maxEntry ∧
    (s.step e).mtbl = Function.update s.mtbl k
      (({ s.mtbl k with macHi := e.addr.mac.1, macLo := e.addr.mac.2 } : McastGroup).count e).settle := by
  rw [Mcast.step, McastTable.update, hpresent]
  simp only [Bool.not_true, Bool.false_eq_true, if_false, hget]
  exact ⟨trivial, trivial⟩

theorem toNat_add_one {x : BitVec 8} (h : x.toNat + 1 ≤ 255) : (x + 1).toNat = x.toNat + 1 := by
  rw [BitVec.toNat_add]
  exact Nat.mod_eq_of_lt (by simp; omega)

theorem toNat_sub_one {x : BitVec 8} (h : 1 ≤ x.toNat) : (x - 1).toNat = x.toNat - 1 := by
  rw [BitVec.toNat_sub_of_le (by rw [BitVec.le_def]; simpa using h)]
  rfl

/-- A join is counted. -/
theorem McastGroup.count_newmdb {g : McastGroup} (htype : e.type = .newmdb)
    (hkey : (g.macHi, g.macLo) = e.addr.mac)
    (heif : g.eif.toNat + e.weight e.vid e.addr.mac true ≤ 255)
    (hoif : g.oif.toNat + e.weight e.vid e.addr.mac false ≤ 255) :
    (g.count e).IsFor e.vid e.addr.mac ∧
    (g.count e).eif.toNat = g.eif.toNat + e.weight e.vid e.addr.mac true ∧
    (g.count e).oif.toNat = g.oif.toNat + e.weight e.vid e.addr.mac false := by
  rw [McastGroup.count, htype]
  cases heth : e.eth with
  | true =>
    simp only [MdbEvent.weight, heth, and_self, if_true] at heif ⊢
    exact ⟨⟨rfl, rfl, hkey⟩, toNat_add_one heif, by simp⟩
  | false =>
    simp only [MdbEvent.weight, heth, and_self, if_true] at hoif ⊢
    exact ⟨⟨rfl, rfl, hkey⟩, by simp, toNat_add_one hoif⟩

/-- A leave is counted. -/
theorem McastGroup.count_delmdb {g : McastGroup} (htype : e.type = .delmdb) (hfor : g.IsFor e.vid e.addr.mac)
    (heif : e.weight e.vid e.addr.mac true ≤ g.eif.toNat)
    (hoif : e.weight e.vid e.addr.mac false ≤ g.oif.toNat) :
    (g.count e).IsFor e.vid e.addr.mac ∧
    (g.count e).eif.toNat = g.eif.toNat - e.weight e.vid e.addr.mac true ∧
    (g.count e).oif.toNat = g.oif.toNat - e.weight e.vid e.addr.mac false := by
  rw [McastGroup.count, htype]
  cases heth : e.eth with
  | true =>
    simp only [MdbEvent.weight, heth, and_self, if_true, hfor.1] at heif ⊢
    exact ⟨⟨rfl, hfor.2.1, hfor.2.2⟩, toNat_sub_one heif, by simp⟩
  | false =>
    simp only [MdbEvent.weight, heth, and_self, if_true, hfor.1] at hoif ⊢
    exact ⟨⟨rfl, hfor.2.1, hfor.2.2⟩, by simp, toNat_sub_one hoif⟩

/-- The entry of the event: the group's own, or a free one for a group without members. -/
theorem Mcast.Inv.entry_cases (h : s.Inv) (hlegal : s.Legal e) (hfind : s.Findable e) :
    ∃ k < s.maxEntry, s.entryGet e.vid e.addr.mac.1 = some k ∧
      (∀ j, j ≠ k → ¬ (s.mtbl j).IsFor e.vid e.addr.mac) ∧
      ((s.mtbl k).IsFor e.vid e.addr.mac ∨ (s.mtbl k).valid = false ∧ e.type = .newmdb) ∧
      (s.mtbl k).eif.toNat = s.count e.vid e.addr.mac true ∧
      (s.mtbl k).oif.toNat = s.count e.vid e.addr.mac false := by
  by_cases hpos : 0 < s.count e.vid e.addr.mac true + s.count e.vid e.addr.mac false
  · obtain ⟨k, hk, hfor, heif, hoif, hunique⟩ := h.entry _ _ hpos
    exact ⟨k, hk, h.entryGet_present hfind hk hfor, fun j hj hforj => hj (hunique j hforj), Or.inl hfor, heif, hoif⟩
  · have habsent (i : Nat) : ¬ (s.mtbl i).IsFor e.vid e.addr.mac := by
      intro hfor
      obtain ⟨-, hpos'⟩ := h.members i hfor.1
      rw [hfor.2.1, hfor.2.2] at hpos'
      exact hpos hpos'
    have htype : e.type = .newmdb := by
      cases htype : e.type with
      | newmdb => rfl
      | delmdb =>
        have hmem := hlegal.joined htype
        have hcount := count_delmdb htype hmem e.vid e.addr.mac e.eth
        rw [MdbEvent.weight, if_pos ⟨rfl, rfl, rfl⟩] at hcount
        cases heth : e.eth <;> rw [heth] at hcount <;> omega
    have hgroups := hlegal.groups
    have hmembers : (s.step e).members = e.member :: s.members := by rw [Mcast.step, htype]
    rw [hmembers] at hgroups
    obtain ⟨f, hf, hfree, hget⟩ := h.entryGet_absent hfind habsent (h.exists_free habsent hgroups)
    refine ⟨f, hf, hget, fun j _ => habsent j, Or.inr ⟨hfree, htype⟩, ?_, ?_⟩
    · rw [h.free f hfree]
      change 0 = _
      omega
    · rw [h.free f hfree]
      change 0 = _
      omega

theorem Mcast.Inv.step (h : s.Inv) (hlegal : s.Legal e) (hfind : s.Findable e) : (s.step e).Inv := by
  obtain ⟨k, hk, hget, hothers, hentry, heif, hoif⟩ := h.entry_cases hlegal hfind
  obtain ⟨hmax, hmtbl⟩ := update_eq hfind.present hget
  set g : McastGroup := { s.mtbl k with macHi := e.addr.mac.1, macLo := e.addr.mac.2 } with hg
  have hgeif : g.eif.toNat = s.count e.vid e.addr.mac true := heif
  have hgoif : g.oif.toNat = s.count e.vid e.addr.mac false := hoif
  have hkey : (g.macHi, g.macLo) = e.addr.mac := rfl
  have hfew := hlegal.few e.vid e.addr.mac
  cases htype : e.type with
  | newmdb =>
    have hcount := count_newmdb (s := s) htype
    rw [hcount, hcount] at hfew
    obtain ⟨hfor, heif', hoif'⟩ := McastGroup.count_newmdb (g := g) htype hkey (by omega) (by omega)
    refine h.replace hmax hk hmtbl hfor (hentry.imp_right And.left) hothers ?_ ?_ fun vid mac eth hne => ?_
    · rw [heif', hgeif, hcount]
    · rw [hoif', hgoif, hcount]
    · rw [hcount, weight_of_ne hne]
      rfl
  | delmdb =>
    have hcount := count_delmdb htype (hlegal.joined htype)
    have heth := hcount e.vid e.addr.mac true
    have hother := hcount e.vid e.addr.mac false
    have hold : (s.mtbl k).IsFor e.vid e.addr.mac := by
      refine hentry.resolve_right fun hnew => ?_
      rw [htype] at hnew
      exact absurd hnew.2 (by decide)
    have hgfor : g.IsFor e.vid e.addr.mac := ⟨hold.1, hold.2.1, rfl⟩
    obtain ⟨hfor, heif', hoif'⟩ := McastGroup.count_delmdb htype hgfor (by omega) (by omega)
    refine h.replace hmax hk hmtbl hfor (Or.inl hold) hothers ?_ ?_ fun vid mac eth hne => ?_
    · rw [heif', hgeif, ← heth]
      omega
    · rw [hoif', hgoif, ← hother]
      omega
    · rw [← hcount vid mac eth, weight_of_ne hne]
      rfl

end Step

/-! ### Every sequence of events -/

/-- The events hold in turn of the tables they meet. -/
def Mcast.Along (P : Mcast → MdbEvent → Prop) (s : Mcast) : List MdbEvent → Prop
  | [] => True
  | e :: events => P s e ∧ (s.step e).Along P events

/-- The table before the first event. -/
def Mcast.init (maxEntry : Nat) : Mcast := { toMcastTable := .init maxEntry, members := [] }

theorem Mcast.inv_init (maxEntry : Nat) : (Mcast.init maxEntry).Inv := by
  refine ⟨⟨fun vid mac hpos => ?_, fun i hvalid => ?_⟩, fun i _ => rfl⟩
  · exact absurd hpos (by simp [Mcast.count, Mcast.init])
  · exact absurd hvalid (by simp [Mcast.init, McastTable.init, McastGroup.zero])

theorem Mcast.Inv.run {s : Mcast} (h : s.Inv) {events : List MdbEvent} (hlegal : s.Along Mcast.Legal events)
    (hfind : s.Along (fun s e => s.Findable e) events) : (s.run events).Inv := by
  induction events generalizing s with
  | nil => exact h
  | cons e events ih => exact ih (h.step hlegal.1 hfind.1) hlegal.2 hfind.2

/-- After every sequence of events each of whose groups the scan finds, the table is correct. -/
theorem mcast_table_correct (maxEntry : Nat) (events : List MdbEvent)
    (hlegal : (Mcast.init maxEntry).Along Mcast.Legal events)
    (hfind : (Mcast.init maxEntry).Along (fun s e => s.Findable e) events) :
    ((Mcast.init maxEntry).run events).Correct :=
  ((Mcast.inv_init maxEntry).run hlegal hfind).toCorrect

/-! ### Two groups -/

theorem count_add_count_le (s : Mcast) (vid : BitVec 16) (mac : GroupMac) :
    s.count vid mac true + s.count vid mac false ≤ s.members.length := by
  rw [List.length_eq_countP_add_countP fun m : Member => m.vid = vid ∧ m.mac = mac ∧ m.eth = true]
  refine Nat.add_le_add_left (List.countP_mono_left fun m _ hm => ?_) _
  simp only [decide_eq_true_eq] at hm ⊢
  rintro ⟨-, -, heth⟩
  rw [hm.2.2] at heth
  exact absurd heth (by decide)

theorem Mcast.Legal.of_few {s : Mcast} {e : MdbEvent} (hjoined : e.type = .delmdb → e.member ∈ s.members)
    (hfew : (s.step e).members.length ≤ 255)
    (hgroups : ((s.step e).members.map fun m => (m.vid, m.mac)).toFinset.card ≤ s.maxEntry) : s.Legal e :=
  ⟨hjoined, fun vid mac => (count_add_count_le _ vid mac).trans hfew, hgroups⟩

instance (g : McastGroup) (vid : BitVec 16) (mac : GroupMac) : Decidable (g.IsFor vid mac) :=
  inferInstanceAs (Decidable (_ ∧ _))

/-- An event of a port of the first group, 239.0.2.1, or of the second, 239.0.4.1. -/
def portEvent (type : MdbType) (ifindex : Nat) (second eth : Bool) : MdbEvent :=
  { type, ifindex, vid := 0, addr := .ip4 (if second then 0x010400ef else 0x010200ef), present := true, eth }

/-- Two ports join the first group and one the second; the second group is left. -/
def stackedEvents : List MdbEvent :=
  [portEvent .newmdb 2 false true, portEvent .newmdb 3 false false, portEvent .newmdb 4 true true,
    portEvent .delmdb 4 true true]

theorem mcast_table_correct_stacked :
    ((Mcast.init 16).run stackedEvents).mtbl 0 =
      { macHi := 0x5e000201, macLo := 0x0100, vid := 0, mcPort := 1, eif := 1, oif := 1, valid := true } ∧
    ((Mcast.init 16).run stackedEvents).Correct := by
  refine ⟨by decide +kernel, mcast_table_correct 16 stackedEvents ⟨?_, ?_, ?_, ?_, trivial⟩ ⟨?_, ?_, ?_, ?_, trivial⟩⟩
  all_goals first
    | exact Mcast.Legal.of_few (by decide +kernel) (by decide +kernel) (by decide +kernel)
    | exact ⟨by decide +kernel, by decide +kernel, by decide +kernel, by decide +kernel⟩

/-- A port joins each group, the first group is left, and a port joins the second. -/
def gapEvents : List MdbEvent :=
  [portEvent .newmdb 2 false true, portEvent .newmdb 4 true true, portEvent .delmdb 2 false true,
    portEvent .newmdb 3 true false]

/-- The second group has two entries, neither of which counts both its members. -/
theorem mcast_group_split :
    (Mcast.init 16).Along Mcast.Legal gapEvents ∧
    ((Mcast.init 16).run gapEvents).mtbl 1 =
      { macHi := 0x5e000401, macLo := 0x0100, vid := 0, mcPort := 2, eif := 1, oif := 0, valid := true } ∧
    ((Mcast.init 16).run gapEvents).mtbl 2 =
      { macHi := 0x5e000401, macLo := 0x0100, vid := 0, mcPort := 1, eif := 0, oif := 1, valid := true } ∧
    ¬ ((Mcast.init 16).run gapEvents).Correct := by
  have hsplit : ((Mcast.init 16).run gapEvents).mtbl 1 =
      { macHi := 0x5e000401, macLo := 0x0100, vid := 0, mcPort := 2, eif := 1, oif := 0, valid := true } ∧
    ((Mcast.init 16).run gapEvents).mtbl 2 =
      { macHi := 0x5e000401, macLo := 0x0100, vid := 0, mcPort := 1, eif := 0, oif := 1, valid := true } := by
    decide +kernel
  refine ⟨⟨?_, ?_, ?_, ?_, trivial⟩, hsplit.1, hsplit.2, fun hcorrect => ?_⟩
  · exact Mcast.Legal.of_few (by decide +kernel) (by decide +kernel) (by decide +kernel)
  · exact Mcast.Legal.of_few (by decide +kernel) (by decide +kernel) (by decide +kernel)
  · exact Mcast.Legal.of_few (by decide +kernel) (by decide +kernel) (by decide +kernel)
  · exact Mcast.Legal.of_few (by decide +kernel) (by decide +kernel) (by decide +kernel)
  · have hone : (((Mcast.init 16).run gapEvents).mtbl 1).IsFor 0 (0x5e000401, 0x0100) := by
      rw [hsplit.1]
      exact ⟨rfl, rfl, rfl⟩
    have htwo : (((Mcast.init 16).run gapEvents).mtbl 2).IsFor 0 (0x5e000401, 0x0100) := by
      rw [hsplit.2]
      exact ⟨rfl, rfl, rfl⟩
    exact absurd (hcorrect.unique hone htwo) (by decide)

end Immwrt.Hnat
