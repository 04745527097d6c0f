import Mathlib.Algebra.BigOperators.Intervals
import Mathlib.Logic.Relation
import Immwrt.Hnat.ExtIf

/-!
# References of the external device table

Every event is made of moves that touch one pointer and one reference, so the references always equal the
pointers and the table never gets a hole. Names stay distinct unless a device goes up while the entry of its
name holds a device already, and the release, which deletes from the table it walks, empties it only when it
has at most one entry.
-/

namespace Immwrt.Hnat

/-! ### Pointers -/

/-- How many of the slots point to a device. -/
def pointers (arr : Nat → Option NetDevice) (slots : Finset Nat) (dev : NetDevice) : Nat :=
  ∑ i ∈ slots, if arr i = some dev then 1 else 0

theorem pointers_update (arr : Nat → Option NetDevice) {slots : Finset Nat} {k : Nat} (hk : k ∈ slots)
    (value : Option NetDevice) (dev : NetDevice) :
    pointers (Function.update arr k value) slots dev + (if arr k = some dev then 1 else 0) =
      pointers arr slots dev + (if value = some dev then 1 else 0) := by
  have hupdate : (fun i => if Function.update arr k value i = some dev then 1 else 0) =
      Function.update (fun i => if arr i = some dev then 1 else 0) k (if value = some dev then 1 else 0) := by
    funext i
    by_cases heq : i = k <;> simp [heq]
  have hsum := Finset.sum_erase_add slots (fun i => if arr i = some dev then 1 else 0) hk
  unfold pointers
  rw [hupdate, Finset.sum_update_of_mem hk, Finset.sdiff_singleton_eq_erase, ← hsum]
  omega

theorem pointers_set {arr : Nat → Option NetDevice} {slots : Finset Nat} {k : Nat} (hk : k ∈ slots)
    (hfree : arr k = none) (dev other : NetDevice) :
    (pointers (Function.update arr k (some dev)) slots other : Int) =
      pointers arr slots other + if dev = other then 1 else 0 := by
  have hupdate := pointers_update arr hk (some dev) other
  rw [hfree, if_neg nofun] at hupdate
  simp only [Option.some.injEq] at hupdate
  split at hupdate
  case isTrue heq =>
    rw [if_pos heq]
    omega
  case isFalse hne =>
    rw [if_neg hne]
    omega

theorem pointers_clear {arr : Nat → Option NetDevice} {slots : Finset Nat} {k : Nat} (hk : k ∈ slots)
    {dev : NetDevice} (hdev : arr k = some dev) (other : NetDevice) :
    (pointers (Function.update arr k none) slots other : Int) =
      pointers arr slots other + if dev = other then -1 else 0 := by
  have hupdate := pointers_update arr hk none other
  rw [hdev] at hupdate
  simp only [Option.some.injEq, reduceCtorEq, if_false] at hupdate
  split at hupdate
  case isTrue heq =>
    rw [if_pos heq]
    omega
  case isFalse hne =>
    rw [if_neg hne]
    omega

/-- The device that an entry holds. -/
def MtkHnat.devAt (h : MtkHnat) (i : Nat) : Option NetDevice := (h.extIf i).bind ExtdevEntry.dev

/-- The name of an entry. -/
def MtkHnat.nameAt (h : MtkHnat) (i : Nat) : Option IfName := (h.extIf i).map ExtdevEntry.name

/-- The entries that point to a device. -/
def MtkHnat.entriesOf (h : MtkHnat) (dev : NetDevice) : Nat := pointers h.devAt (Finset.range maxExtDevs) dev

/-- The slots of hooked devices that point to a device. -/
def MtkHnat.slotsOf (h : MtkHnat) (dev : NetDevice) : Nat :=
  pointers h.wifiHookIf (Finset.Ico 1 maxIfNum) dev

/-! ### What the table should be -/

/-- The table is packed, its entries are different allocations, and the references are those of its pointers
and of the hooks. -/
structure MtkHnat.WellFormed (h : MtkHnat) : Prop where
  bound : ∀ i, maxExtDevs ≤ i → h.extIf i = none
  packed : ∀ i, h.extIf i = none → h.extIf (i + 1) = none
  addrs : ∀ i j e e', h.extIf i = some e → h.extIf j = some e' → e.addr = e'.addr → i = j
  fresh : ∀ i e, h.extIf i = some e → e.addr < h.brk
  refs : ∀ dev, h.refs dev = h.entriesOf dev + h.slotsOf dev

def MtkHnat.NoHole (h : MtkHnat) : Prop := ∀ i j, i ≤ j → h.extIf i = none → h.extIf j = none

def MtkHnat.DistinctNames (h : MtkHnat) : Prop :=
  ∀ i j name, h.nameAt i = some name → h.nameAt j = some name → i = j

/-- Every entry is freed and gone, and with it its reference. -/
structure Released (h : MtkHnat) (result : MtkHnat × List Nat) : Prop where
  empty : ∀ i, result.1.extIf i = none
  refs : ∀ dev, result.1.refs dev = h.refs dev - h.entriesOf dev
  freed : ∀ i e, h.extIf i = some e → e.addr ∈ result.2

/-- In a packed table nothing lies behind a free place. -/
theorem none_of_packed {extIf : Nat → Option ExtdevEntry}
    (hpacked : ∀ i, extIf i = none → extIf (i + 1) = none) {i j : Nat} (hij : i ≤ j) (hnone : extIf i = none) :
    extIf j = none := by
  induction j, hij using Nat.le_induction with
  | base => exact hnone
  | succ j _ ih => exact hpacked j ih

theorem MtkHnat.WellFormed.noHole {h : MtkHnat} (hwf : h.WellFormed) : h.NoHole := by
  intro i j hij hnone
  exact none_of_packed hwf.packed hij hnone

/-! ### Scans -/

section Scans

variable {extIf : Nat → Option ExtdevEntry} {p : ExtdevEntry → Bool}

theorem extIfScan_some {fuel i k : Nat} {e : ExtdevEntry} (hscan : extIfScan extIf p fuel i = some (k, e)) :
    k < maxExtDevs ∧ extIf k = some e ∧ p e = true := by
  induction fuel generalizing i with
  | zero => cases hscan
  | succ fuel ih =>
    rw [extIfScan] at hscan
    split at hscan
    case isFalse => cases hscan
    case isTrue hlt =>
      split at hscan
      case h_1 => cases hscan
      case h_2 entry hentry =>
        split at hscan
        case isTrue hp =>
          obtain ⟨rfl, rfl⟩ := Prod.mk.inj (Option.some.inj hscan)
          exact ⟨hlt, hentry, hp⟩
        case isFalse => exact ih hscan

theorem extIfScan_none {fuel i : Nat} (hpacked : ∀ i, extIf i = none → extIf (i + 1) = none)
    (hbound : ∀ i, maxExtDevs ≤ i → extIf i = none) (hfuel : maxExtDevs ≤ i + fuel)
    (hscan : extIfScan extIf p fuel i = none) {k : Nat} (hk : i ≤ k) {e : ExtdevEntry} (he : extIf k = some e) :
    p e = false := by
  induction fuel generalizing i with
  | zero =>
    rw [hbound k (by omega)] at he
    cases he
  | succ fuel ih =>
    rw [extIfScan] at hscan
    split at hscan
    case isFalse hge =>
      rw [hbound k (by omega)] at he
      cases he
    case isTrue =>
      split at hscan
      case h_1 hi =>
        rw [none_of_packed hpacked hk hi] at he
        cases he
      case h_2 entry hentry =>
        split at hscan
        case isTrue => cases hscan
        case isFalse hp =>
          rcases Nat.eq_or_lt_of_le hk with rfl | hlt
          · rw [hentry] at he
            rw [← Option.some.inj he]
            exact Bool.eq_false_of_not_eq_true hp
          · exact ih (by omega) hscan hlt

theorem extDeviceNumberFrom_spec {fuel i : Nat} (hi : i ≤ maxExtDevs) (hfuel : maxExtDevs ≤ i + fuel) :
    i + extDeviceNumberFrom extIf fuel i ≤ maxExtDevs ∧
    (∀ k, i ≤ k → k < i + extDeviceNumberFrom extIf fuel i → (extIf k).isSome) ∧
    (i + extDeviceNumberFrom extIf fuel i < maxExtDevs →
      extIf (i + extDeviceNumberFrom extIf fuel i) = none) := by
  induction fuel generalizing i with
  | zero =>
    rw [extDeviceNumberFrom]
    exact ⟨hi, fun k hik hk => absurd hk (by omega), fun hlt => absurd hlt (by omega)⟩
  | succ fuel ih =>
    rw [extDeviceNumberFrom]
    split
    case isFalse hge =>
      exact ⟨by omega, fun k hik hk => absurd hk (by omega), fun hlt => absurd hlt (by omega)⟩
    case isTrue hlt =>
      split
      case h_1 hnone =>
        exact ⟨by omega, fun k hik hk => absurd hk (by omega), fun _ => hnone⟩
      case h_2 entry hentry =>
        obtain ⟨hle, hsome, hnone⟩ := ih (i := i + 1) (by omega) (by omega)
        rw [show i + (extDeviceNumberFrom extIf fuel (i + 1) + 1) =
          i + 1 + extDeviceNumberFrom extIf fuel (i + 1) by omega]
        refine ⟨hle, fun k hik hk => ?_, hnone⟩
        rcases Nat.eq_or_lt_of_le hik with rfl | hlt'
        · rw [hentry]
          rfl
        · exact hsome k hlt' hk

end Scans

theorem IfName.strncpy_str (name : IfName) : IfName.strncpy name.str = name := by
  have hshort := name.short
  have htake : name.str.bytes.take (ifnamsiz - 1) = name.str.bytes := by
    refine List.take_of_length_le ?_
    rw [CString.strlen] at hshort
    omega
  obtain ⟨⟨bytes, hnul⟩, hlt⟩ := name
  simp only [IfName.strncpy] at htake ⊢
  congr 2

theorem MtkHnat.number_spec (h : MtkHnat) :
    h.getExtDeviceNumber ≤ maxExtDevs ∧ (∀ k < h.getExtDeviceNumber, (h.extIf k).isSome) ∧
    (h.getExtDeviceNumber < maxExtDevs → h.extIf h.getExtDeviceNumber = none) := by
  obtain ⟨hle, hsome, hnone⟩ := @extDeviceNumberFrom_spec h.extIf maxExtDevs 0 (Nat.zero_le _) (by omega)
  rw [Nat.zero_add] at hle hnone
  exact ⟨hle, fun k hk => hsome k (Nat.zero_le _) (by rwa [Nat.zero_add]), hnone⟩

/-! ### Moves -/

/-- The table with a new device in an entry. -/
def MtkHnat.setDev (h : MtkHnat) (i : Nat) (entry : ExtdevEntry) (dev : Option NetDevice) : MtkHnat :=
  { h with extIf := Function.update h.extIf i (some { entry with dev := dev }) }

/-- The new entry of a device, at the first free place. -/
def MtkHnat.created (h : MtkHnat) (dev : NetDevice) : MtkHnat :=
  { h with
    extIf := Function.update h.extIf h.getExtDeviceNumber (some ⟨h.brk, dev.name, some dev⟩)
    refs := Function.update h.refs dev (h.refs dev + 1)
    brk := h.brk + 1 }

/-- What the driver does at one go: one pointer and its reference. -/
inductive Move (h : MtkHnat) : MtkHnat → Prop
  | attach {i : Nat} {entry : ExtdevEntry} {dev : NetDevice} (hentry : h.extIf i = some entry)
      (hfree : entry.dev = none) : Move h ((h.devHold dev).setDev i entry (some dev))
  | detach {i : Nat} {entry : ExtdevEntry} {dev : NetDevice} (hentry : h.extIf i = some entry)
      (hdev : entry.dev = some dev) : Move h ((h.devPut dev).setDev i entry none)
  | create {dev : NetDevice} (hroom : h.getExtDeviceNumber < maxExtDevs) : Move h (h.created dev)
  | hook {i : Nat} {dev : NetDevice} (hi : i ∈ Finset.Ico 1 maxIfNum) (hfree : h.wifiHookIf i = none) :
      Move h (h.addWifiHookIf i dev)
  | unhook {i : Nat} {dev : NetDevice} (hi : i ∈ Finset.Ico 1 maxIfNum) (hdev : h.wifiHookIf i = some dev) :
      Move h (({ h with wifiHookIf := Function.update h.wifiHookIf i none } : MtkHnat).devPut dev)

theorem MtkHnat.newEntry_eq {h : MtkHnat} (hroom : h.getExtDeviceNumber < maxExtDevs) (dev : NetDevice) :
    h.newEntry dev = h.created dev := by
  rw [MtkHnat.newEntry, IfName.strncpy_str, MtkHnat.extIfAdd]
  exact if_pos hroom

theorem MtkHnat.devAt_of_update {h h' : MtkHnat} (k : Nat) (entry : ExtdevEntry)
    (hextIf : h'.extIf = Function.update h.extIf k (some entry)) :
    h'.devAt = Function.update h.devAt k entry.dev := by
  funext i
  rw [MtkHnat.devAt, hextIf]
  by_cases heq : i = k
  · rw [heq, Function.update_self, Function.update_self]
    rfl
  · rw [Function.update_of_ne heq, Function.update_of_ne heq]
    rfl

theorem MtkHnat.nameAt_of_update {h h' : MtkHnat} (k : Nat) (entry : ExtdevEntry)
    (hextIf : h'.extIf = Function.update h.extIf k (some entry)) :
    h'.nameAt = Function.update h.nameAt k (some entry.name) := by
  funext i
  rw [MtkHnat.nameAt, hextIf]
  by_cases heq : i = k
  · rw [heq, Function.update_self, Function.update_self]
    rfl
  · rw [Function.update_of_ne heq, Function.update_of_ne heq]
    rfl

/-- A place in the table gets an entry, while all before it have one. -/
theorem MtkHnat.WellFormed.place {h h' : MtkHnat} (hwf : h.WellFormed) {k : Nat} {entry : ExtdevEntry}
    (hk : k < maxExtDevs) (hextIf : h'.extIf = Function.update h.extIf k (some entry))
    (hbefore : ∀ i < k, (h.extIf i).isSome)
    (haddr : ∀ i e, h.extIf i = some e → e.addr = entry.addr → i = k) (hlt : entry.addr < h'.brk)
    (hbrk : h.brk ≤ h'.brk) (hrefs : ∀ dev, h'.refs dev = h'.entriesOf dev + h'.slotsOf dev) :
    h'.WellFormed := by
  have hself : h'.extIf k = some entry := by rw [hextIf, Function.update_self]
  have hother : ∀ i, i ≠ k → h'.extIf i = h.extIf i := by
    intro i hne
    rw [hextIf, Function.update_of_ne hne]
  refine ⟨fun i hi => ?_, fun i hi => ?_, fun i j e e' he he' haddrs => ?_, fun i e he => ?_, hrefs⟩
  · rw [hother i (by omega)]
    exact hwf.bound i hi
  · have hne : i ≠ k := by
      rintro rfl
      rw [hself] at hi
      cases hi
    rw [hother i hne] at hi
    by_cases hnext : i + 1 = k
    · have hsome := hbefore i (by omega)
      rw [hi] at hsome
      cases hsome
    · rw [hother _ hnext]
      exact hwf.packed i hi
  · by_cases hi : i = k <;> by_cases hj : j = k
    · rw [hi, hj]
    · rw [hi, hself] at he
      rw [hother j hj] at he'
      obtain rfl := Option.some.inj he
      rw [hi, haddr j e' he' haddrs.symm]
    · rw [hj, hself] at he'
      rw [hother i hi] at he
      obtain rfl := Option.some.inj he'
      rw [hj, haddr i e he haddrs]
    · rw [hother i hi] at he
      rw [hother j hj] at he'
      exact hwf.addrs i j e e' he he' haddrs
  · by_cases hi : i = k
    · rw [hi, hself] at he
      rw [← Option.some.inj he]
      exact hlt
    · rw [hother i hi] at he
      exact Nat.lt_of_lt_of_le (hwf.fresh i e he) hbrk

theorem MtkHnat.WellFormed.before {h : MtkHnat} (hwf : h.WellFormed) {k : Nat} {e : ExtdevEntry}
    (he : h.extIf k = some e) : k < maxExtDevs ∧ ∀ i < k, (h.extIf i).isSome := by
  refine ⟨?_, fun i hi => ?_⟩
  · by_contra hge
    rw [hwf.bound k (by omega)] at he
    cases he
  · by_contra hnone
    rw [Bool.not_eq_true, Option.isSome_eq_false_iff, Option.isNone_iff_eq_none] at hnone
    rw [hwf.noHole i k (by omega) hnone] at he
    cases he

theorem update_refs (refs : NetDevice → Int) (dev : NetDevice) (n : Int) (other : NetDevice) :
    Function.update refs dev (refs dev + n) other = refs other + if dev = other then n else 0 := by
  by_cases heq : dev = other
  · subst heq
    rw [Function.update_self, if_pos rfl]
  · rw [Function.update_of_ne (Ne.symm heq), if_neg heq, add_zero]

theorem MtkHnat.WellFormed.move {h h' : MtkHnat} (hwf : h.WellFormed) (hmove : Move h h') : h'.WellFormed := by
  cases hmove with
  | @attach i entry dev hentry hfree =>
    obtain ⟨hi, hbefore⟩ := hwf.before hentry
    have hempty : h.devAt i = none := by rw [MtkHnat.devAt, hentry]; exact hfree
    refine hwf.place hi rfl hbefore (fun j e he heq => hwf.addrs j i e entry he hentry heq)
      (hwf.fresh i entry hentry) le_rfl fun other => ?_
    have hrefs : ((h.devHold dev).setDev i entry (some dev)).refs other =
        h.refs other + if dev = other then 1 else 0 := update_refs h.refs dev 1 other
    have hentries := pointers_set (Finset.mem_range.2 hi) hempty dev other
    have hdevAt : ((h.devHold dev).setDev i entry (some dev)).devAt = Function.update h.devAt i (some dev) :=
      MtkHnat.devAt_of_update i { entry with dev := some dev } rfl
    rw [hrefs, hwf.refs, MtkHnat.entriesOf, MtkHnat.entriesOf, hdevAt, hentries]
    exact add_right_comm _ _ _
  | @detach i entry dev hentry hdev =>
    obtain ⟨hi, hbefore⟩ := hwf.before hentry
    have hheld : h.devAt i = some dev := by rw [MtkHnat.devAt, hentry]; exact hdev
    refine hwf.place hi rfl hbefore (fun j e he heq => hwf.addrs j i e entry he hentry heq)
      (hwf.fresh i entry hentry) le_rfl fun other => ?_
    have hrefs : ((h.devPut dev).setDev i entry none).refs other =
        h.refs other + if dev = other then -1 else 0 := update_refs h.refs dev (-1) other
    have hentries := pointers_clear (Finset.mem_range.2 hi) hheld other
    have hdevAt : ((h.devPut dev).setDev i entry none).devAt = Function.update h.devAt i none :=
      MtkHnat.devAt_of_update i { entry with dev := none } rfl
    rw [hrefs, hwf.refs, MtkHnat.entriesOf, MtkHnat.entriesOf, hdevAt, hentries]
    exact add_right_comm _ _ _
  | @create dev hroom =>
    obtain ⟨-, hbefore, hnone⟩ := h.number_spec
    have hempty : h.devAt h.getExtDeviceNumber = none := by rw [MtkHnat.devAt, hnone hroom]; rfl
    refine hwf.place hroom rfl hbefore (fun j e he heq => ?_) (Nat.lt_succ_self _) (Nat.le_succ _)
      fun other => ?_
    · exact absurd heq (hwf.fresh j e he).ne
    · have hrefs : (h.created dev).refs other = h.refs other + if dev = other then 1 else 0 :=
        update_refs h.refs dev 1 other
      have hentries := pointers_set (Finset.mem_range.2 hroom) hempty dev other
      have hdevAt : (h.created dev).devAt = Function.update h.devAt h.getExtDeviceNumber (some dev) :=
        MtkHnat.devAt_of_update h.getExtDeviceNumber ⟨h.brk, dev.name, some dev⟩ rfl
      rw [hrefs, hwf.refs, MtkHnat.entriesOf, MtkHnat.entriesOf, hdevAt, hentries]
      exact add_right_comm _ _ _
  | @hook i dev hi hfree =>
    refine ⟨hwf.bound, hwf.packed, hwf.addrs, hwf.fresh, fun other => ?_⟩
    have hrefs : (h.addWifiHookIf i dev).refs other = h.refs other + if dev = other then 1 else 0 :=
      update_refs h.refs dev 1 other
    have hslots : ((h.addWifiHookIf i dev).slotsOf other : Int) =
        h.slotsOf other + if dev = other then 1 else 0 := pointers_set hi hfree dev other
    rw [hrefs, hwf.refs, hslots, add_assoc]
    rfl
  | @unhook i dev hi hdev =>
    refine ⟨hwf.bound, hwf.packed, hwf.addrs, hwf.fresh, fun other => ?_⟩
    have hrefs : (({ h with wifiHookIf := Function.update h.wifiHookIf i none } : MtkHnat).devPut dev).refs other =
        h.refs other + if dev = other then -1 else 0 := update_refs h.refs dev (-1) other
    have hslots : ((({ h with wifiHookIf := Function.update h.wifiHookIf i none } : MtkHnat).devPut dev).slotsOf
        other : Int) = h.slotsOf other + if dev = other then -1 else 0 := pointers_clear hi hdev other
    rw [hrefs, hwf.refs, hslots, add_assoc]
    rfl

/-! ### Events are made of moves -/

section Events

variable {h : MtkHnat}

theorem MtkHnat.extifMatch_some {name : IfName} {i : Nat} {entry : ExtdevEntry}
    (hmatch : h.extifMatch name = some (i, entry)) :
    h.extIf i = some entry ∧ entry.name = name ∧ entry.dev = none := by
  obtain ⟨-, hentry, hp⟩ := extIfScan_some hmatch
  exact ⟨hentry, of_decide_eq_true hp⟩

/-- What setting a device does. -/
theorem MtkHnat.extifSetDev_cases (h : MtkHnat) (dev : NetDevice) (tryPrefix : Bool) :
    (h.extifSetDev dev tryPrefix).1 = h ∨
    (∃ i entry, h.extIf i = some entry ∧ entry.dev = none ∧
      (h.extifSetDev dev tryPrefix).1 = (h.devHold dev).setDev i entry (some dev)) ∨
    (tryPrefix = true ∧ h.extifMatch dev.name = none ∧ h.extifPrefixMatch dev.name = true ∧
      h.getExtDeviceNumber < maxExtDevs ∧ (h.extifSetDev dev tryPrefix).1 = h.created dev) := by
  unfold MtkHnat.extifSetDev
  split
  case h_1 hmatch =>
    split
    case isTrue htry =>
      rw [Bool.and_eq_true] at htry
      split
      case isTrue => exact Or.inl rfl
      case isFalse hroom =>
        have hroom : h.getExtDeviceNumber < maxExtDevs := not_le.1 hroom
        exact Or.inr (Or.inr ⟨htry.1, hmatch, htry.2, hroom, MtkHnat.newEntry_eq hroom dev⟩)
    case isFalse => exact Or.inl rfl
  case h_2 i entry hmatch =>
    obtain ⟨hentry, -, hfree⟩ := MtkHnat.extifMatch_some hmatch
    exact Or.inr (Or.inl ⟨i, entry, hentry, hfree, rfl⟩)

theorem MtkHnat.extifPutDev_cases (h : MtkHnat) (dev : NetDevice) :
    (h.extifPutDev dev).1 = h ∨
    ∃ i entry, h.extIf i = some entry ∧ entry.dev = some dev ∧
      (h.extifPutDev dev).1 = (h.devPut dev).setDev i entry none := by
  unfold MtkHnat.extifPutDev
  split
  case h_1 => exact Or.inl rfl
  case h_2 i entry hfind =>
    obtain ⟨-, hentry, hp⟩ := extIfScan_some hfind
    exact Or.inr ⟨i, entry, hentry, of_decide_eq_true hp, rfl⟩

theorem wifiHookScan_some {wifiHookIf : Nat → Option NetDevice} {value : Option NetDevice} {fuel i k : Nat}
    (hi : 1 ≤ i) (hscan : wifiHookScan wifiHookIf value fuel i = some k) :
    k ∈ Finset.Ico 1 maxIfNum ∧ wifiHookIf k = value := by
  induction fuel generalizing i with
  | zero => cases hscan
  | succ fuel ih =>
    rw [wifiHookScan] at hscan
    split at hscan
    case isFalse => cases hscan
    case isTrue hlt =>
      split at hscan
      case isTrue hvalue =>
        obtain rfl := Option.some.inj hscan
        exact ⟨Finset.mem_Ico.2 ⟨hi, hlt⟩, hvalue⟩
      case isFalse => exact ih (by omega) hscan

theorem MtkHnat.extifSetDev_moves (h : MtkHnat) (dev : NetDevice) (tryPrefix : Bool) :
    Relation.ReflTransGen Move h (h.extifSetDev dev tryPrefix).1 := by
  rcases h.extifSetDev_cases dev tryPrefix with hsame | ⟨i, entry, hentry, hfree, hset⟩ | ⟨-, -, -, hroom, hcreated⟩
  · rw [hsame]
  · rw [hset]
    exact .single (.attach hentry hfree)
  · rw [hcreated]
    exact .single (.create hroom)

theorem MtkHnat.extifPutDev_moves (h : MtkHnat) (dev : NetDevice) :
    Relation.ReflTransGen Move h (h.extifPutDev dev).1 := by
  rcases h.extifPutDev_cases dev with hsame | ⟨i, entry, hentry, hdev, hput⟩
  · rw [hsame]
  · rw [hput]
    exact .single (.detach hentry hdev)

theorem MtkHnat.extifSetDev_wifiHookIf (h : MtkHnat) (dev : NetDevice) (tryPrefix : Bool) :
    (h.extifSetDev dev tryPrefix).1.wifiHookIf = h.wifiHookIf := by
  rcases h.extifSetDev_cases dev tryPrefix with hsame | ⟨i, entry, -, -, hset⟩ | ⟨-, -, -, -, hcreated⟩
  · rw [hsame]
  · rw [hset]
    rfl
  · rw [hcreated]
    rfl

theorem MtkHnat.step_moves (h : MtkHnat) (event : Event) : Relation.ReflTransGen Move h (h.step event) := by
  cases event with
  | up dev =>
    rw [MtkHnat.step]
    split
    case isTrue => exact .refl
    case isFalse => exact h.extifSetDev_moves dev true
  | goingDown dev =>
    rw [MtkHnat.step]
    split
    case isTrue => exact h.extifPutDev_moves dev
    case isFalse => exact .refl
  | registerHook dev =>
    rw [MtkHnat.step, MtkHnat.mtkPpeDevRegisterHook]
    split
    case isTrue => exact .refl
    case isFalse =>
      split
      case h_1 => exact .refl
      case h_2 =>
        split
        case h_1 => exact .refl
        case h_2 i hfind =>
          obtain ⟨hi, hfree⟩ := wifiHookScan_some le_rfl hfind
          split
          case isTrue =>
            refine (h.extifSetDev_moves dev false).tail (.hook hi ?_)
            rw [h.extifSetDev_wifiHookIf]
            exact hfree
          case isFalse =>
            split
            case isTrue => exact .refl
            case isFalse hroom =>
              have hroom : h.getExtDeviceNumber < maxExtDevs := not_le.1 hroom
              rw [MtkHnat.newEntry_eq hroom]
              exact .tail (.single (.create hroom)) (.hook hi hfree)
  | unregisterHook dev =>
    rw [MtkHnat.step, MtkHnat.mtkPpeDevUnregisterHook]
    split
    case h_1 => exact h.extifPutDev_moves dev
    case h_2 i hfind =>
      obtain ⟨hi, hdev⟩ := wifiHookScan_some le_rfl hfind
      exact .head (.unhook hi hdev) (MtkHnat.extifPutDev_moves _ dev)

theorem MtkHnat.WellFormed.step (hwf : h.WellFormed) (event : Event) : (h.step event).WellFormed := by
  have hmoves := h.step_moves event
  generalize h.step event = h' at hmoves ⊢
  induction hmoves with
  | refl => exact hwf
  | tail _ hmove ih => exact ih.move hmove

theorem MtkHnat.WellFormed.run (hwf : h.WellFormed) (events : List Event) : (h.run events).WellFormed := by
  induction events generalizing h with
  | nil => exact hwf
  | cons event events ih => exact ih (hwf.step event)

end Events

/-! ### Names -/

section Names

variable {h : MtkHnat}

theorem MtkHnat.nameAt_setDev {i : Nat} {entry : ExtdevEntry} (hentry : h.extIf i = some entry)
    (dev : Option NetDevice) : (h.setDev i entry dev).nameAt = h.nameAt := by
  rw [MtkHnat.nameAt_of_update (h := h) i { entry with dev := dev } rfl]
  refine Function.update_eq_self_iff.2 ?_
  rw [MtkHnat.nameAt, hentry]
  rfl

theorem MtkHnat.nameAt_created (dev : NetDevice) :
    (h.created dev).nameAt = Function.update h.nameAt h.getExtDeviceNumber (some dev.name) :=
  MtkHnat.nameAt_of_update h.getExtDeviceNumber ⟨h.brk, dev.name, some dev⟩ rfl

/-- An event that creates an entry, and what it knows of the name. -/
inductive Creates (h : MtkHnat) (dev : NetDevice) : Event → Prop
  | up (hguest : h.skipsGuest dev = false) (hmatch : h.extifMatch dev.name = none)
      (hpre : h.extifPrefixMatch dev.name = true) : Creates h dev (.up dev)
  | registerHook (hfind : h.findExtifFromDevname dev.name = false) : Creates h dev (.registerHook dev)

theorem MtkHnat.extifSetDev_nameAt (h : MtkHnat) (dev : NetDevice) (tryPrefix : Bool) :
    (h.extifSetDev dev tryPrefix).1.nameAt = h.nameAt ∨
    (tryPrefix = true ∧ h.extifMatch dev.name = none ∧ h.extifPrefixMatch dev.name = true ∧
      h.getExtDeviceNumber < maxExtDevs ∧
      (h.extifSetDev dev tryPrefix).1.nameAt = Function.update h.nameAt h.getExtDeviceNumber (some dev.name)) := by
  rcases h.extifSetDev_cases dev tryPrefix with hsame | ⟨i, entry, hentry, -, hset⟩ |
    ⟨htry, hmatch, hpre, hroom, hcreated⟩
  · rw [hsame]
    exact Or.inl rfl
  · rw [hset]
    exact Or.inl (MtkHnat.nameAt_setDev hentry _)
  · rw [hcreated]
    exact Or.inr ⟨htry, hmatch, hpre, hroom, MtkHnat.nameAt_created dev⟩

theorem MtkHnat.extifPutDev_nameAt (h : MtkHnat) (dev : NetDevice) :
    (h.extifPutDev dev).1.nameAt = h.nameAt := by
  rcases h.extifPutDev_cases dev with hsame | ⟨i, entry, hentry, -, hput⟩
  · rw [hsame]
  · rw [hput]
    exact MtkHnat.nameAt_setDev hentry none

/-- The names after an event. -/
theorem MtkHnat.step_nameAt (h : MtkHnat) (event : Event) :
    (h.step event).nameAt = h.nameAt ∨
    ∃ dev, Creates h dev event ∧ h.getExtDeviceNumber < maxExtDevs ∧
      (h.step event).nameAt = Function.update h.nameAt h.getExtDeviceNumber (some dev.name) := by
  cases event with
  | up dev =>
    rw [MtkHnat.step]
    split
    case isTrue => exact Or.inl rfl
    case isFalse hguest =>
      rcases h.extifSetDev_nameAt dev true with hsame | ⟨-, hmatch, hpre, hroom, hcreated⟩
      · exact Or.inl hsame
      · exact Or.inr ⟨dev, .up (Bool.eq_false_of_not_eq_true hguest) hmatch hpre, hroom, hcreated⟩
  | goingDown dev =>
    rw [MtkHnat.step]
    split
    case isTrue => exact Or.inl (h.extifPutDev_nameAt dev)
    case isFalse => exact Or.inl rfl
  | registerHook dev =>
    rw [MtkHnat.step, MtkHnat.mtkPpeDevRegisterHook]
    split
    case isTrue => exact Or.inl rfl
    case isFalse =>
      split
      case h_1 => exact Or.inl rfl
      case h_2 =>
        split
        case h_1 => exact Or.inl rfl
        case h_2 i hfind =>
          split
          case isTrue =>
            rcases h.extifSetDev_nameAt dev false with hsame | ⟨htry, -⟩
            · exact Or.inl hsame
            · cases htry
          case isFalse hname =>
            split
            case isTrue => exact Or.inl rfl
            case isFalse hroom =>
              have hroom : h.getExtDeviceNumber < maxExtDevs := not_le.1 hroom
              rw [MtkHnat.newEntry_eq hroom]
              exact Or.inr ⟨dev, .registerHook (Bool.eq_false_of_not_eq_true hname), hroom,
                MtkHnat.nameAt_created dev⟩
  | unregisterHook dev =>
    refine Or.inl ?_
    rw [MtkHnat.step, MtkHnat.mtkPpeDevUnregisterHook]
    split
    case h_1 => exact h.extifPutDev_nameAt dev
    case h_2 => exact MtkHnat.extifPutDev_nameAt _ dev

/-- A device that goes up and whose name has one of the prefixes finds no entry of its name with a device. -/
def MtkHnat.Safe (h : MtkHnat) : Event → Prop
  | .up dev => h.skipsGuest dev = false → h.extifPrefixMatch dev.name = true →
      h.getExtDeviceNumber < maxExtDevs → ∀ i entry, h.extIf i = some entry → entry.name = dev.name →
        entry.dev = none
  | _ => True

def MtkHnat.SafeRun (h : MtkHnat) : List Event → Prop
  | [] => True
  | event :: events => h.Safe event ∧ (h.step event).SafeRun events

theorem MtkHnat.nameAt_eq_some {i : Nat} {name : IfName} :
    h.nameAt i = some name ↔ ∃ entry, h.extIf i = some entry ∧ entry.name = name := by
  rw [MtkHnat.nameAt, Option.map_eq_some_iff]

theorem MtkHnat.WellFormed.extIfFind_none (hwf : h.WellFormed) {p : ExtdevEntry → Bool}
    (hfind : h.extIfFind p = none) {i : Nat} {entry : ExtdevEntry} (hentry : h.extIf i = some entry) :
    p entry = false :=
  extIfScan_none hwf.packed hwf.bound (by omega) hfind (Nat.zero_le i) hentry

/-- Names stay where they are. -/
theorem MtkHnat.step_nameAt_of_some (h : MtkHnat) (event : Event) {i : Nat} {name : IfName}
    (hname : h.nameAt i = some name) : (h.step event).nameAt i = some name := by
  rcases h.step_nameAt event with hsame | ⟨dev, -, hroom, hcreated⟩
  · rw [hsame, hname]
  · have hne : i ≠ h.getExtDeviceNumber := by
      rintro rfl
      obtain ⟨-, -, hnone⟩ := h.number_spec
      rw [MtkHnat.nameAt, hnone hroom] at hname
      cases hname
    rw [hcreated, Function.update_of_ne hne, hname]

theorem MtkHnat.WellFormed.distinctNames_step_iff (hwf : h.WellFormed) (event : Event) :
    (h.step event).DistinctNames ↔ h.DistinctNames ∧ h.Safe event := by
  obtain ⟨-, -, hnone⟩ := h.number_spec
  constructor
  · intro hdistinct
    have hbefore : h.DistinctNames := by
      intro i j name hi hj
      exact hdistinct i j name (h.step_nameAt_of_some event hi) (h.step_nameAt_of_some event hj)
    refine ⟨hbefore, ?_⟩
    cases event with
    | up dev =>
      intro hguest hpre hroom i entry hentry hname
      by_contra hdev
      have hmatch : h.extifMatch dev.name = none := by
        rw [Option.eq_none_iff_forall_not_mem]
        rintro ⟨j, other⟩ hother
        obtain ⟨hentry', hname', hfree⟩ := MtkHnat.extifMatch_some hother
        obtain rfl := hbefore i j dev.name (MtkHnat.nameAt_eq_some.2 ⟨entry, hentry, hname⟩)
          (MtkHnat.nameAt_eq_some.2 ⟨other, hentry', hname'⟩)
        rw [hentry] at hentry'
        rw [Option.some.inj hentry'] at hdev
        exact hdev hfree
      have hstep : h.step (.up dev) = h.created dev := by
        rw [MtkHnat.step, hguest, if_neg Bool.false_ne_true, MtkHnat.extifSetDev, hmatch]
        dsimp only
        rw [hpre, if_pos (by rfl), if_neg (by omega), MtkHnat.newEntry_eq hroom]
      have hnew : (h.step (.up dev)).nameAt h.getExtDeviceNumber = some dev.name := by
        rw [hstep, MtkHnat.nameAt_created, Function.update_self]
      have hold := h.step_nameAt_of_some (.up dev) (MtkHnat.nameAt_eq_some.2 ⟨entry, hentry, hname⟩)
      have hsame := hdistinct _ _ _ hnew hold
      rw [← hsame, hnone hroom] at hentry
      cases hentry
    | goingDown dev => trivial
    | registerHook dev => trivial
    | unregisterHook dev => trivial
  · rintro ⟨hdistinct, hsafe⟩
    rcases h.step_nameAt event with hsame | ⟨dev, hcreates, hroom, hcreated⟩
    · intro i j name
      rw [hsame]
      exact hdistinct i j name
    · have hunused : ∀ i entry, h.extIf i = some entry → entry.name ≠ dev.name := by
        intro i entry hentry hname
        cases hcreates with
        | up hguest hmatch hpre =>
          have hfree := hsafe hguest hpre hroom i entry hentry hname
          have hp := hwf.extIfFind_none hmatch hentry
          exact of_decide_eq_false hp ⟨hname, hfree⟩
        | registerHook hfind =>
          rw [MtkHnat.findExtifFromDevname, Option.isSome_eq_false_iff, Option.isNone_iff_eq_none] at hfind
          exact of_decide_eq_false (hwf.extIfFind_none hfind hentry) hname
      intro i j name hi hj
      rw [hcreated] at hi hj
      by_cases hik : i = h.getExtDeviceNumber <;> by_cases hjk : j = h.getExtDeviceNumber
      · rw [hik, hjk]
      · rw [hik, Function.update_self] at hi
        rw [Function.update_of_ne hjk] at hj
        obtain ⟨entry, hentry, hname⟩ := MtkHnat.nameAt_eq_some.1 hj
        exact absurd (hname.trans (Option.some.inj hi).symm) (hunused j entry hentry)
      · rw [hjk, Function.update_self] at hj
        rw [Function.update_of_ne hik] at hi
        obtain ⟨entry, hentry, hname⟩ := MtkHnat.nameAt_eq_some.1 hi
        exact absurd (hname.trans (Option.some.inj hj).symm) (hunused i entry hentry)
      · rw [Function.update_of_ne hik] at hi
        rw [Function.update_of_ne hjk] at hj
        exact hdistinct i j name hi hj

theorem MtkHnat.WellFormed.distinctNames_run_iff (hwf : h.WellFormed) (events : List Event) :
    (h.run events).DistinctNames ↔ h.DistinctNames ∧ h.SafeRun events := by
  induction events generalizing h with
  | nil => exact ⟨fun hdistinct => ⟨hdistinct, trivial⟩, fun hboth => hboth.1⟩
  | cons event events ih =>
    have hrun := ih (hwf.step event)
    rw [hwf.distinctNames_step_iff event, and_assoc] at hrun
    exact hrun

end Names

/-! ### The configuration -/

/-- The names of the table, in order. -/
def MtkHnat.Names (h : MtkHnat) (names : List IfName) : Prop := ∀ i, h.nameAt i = names[i]?

theorem MtkHnat.Names.number {h : MtkHnat} {names : List IfName} (hnames : h.Names names)
    (hlen : names.length ≤ maxExtDevs) : h.getExtDeviceNumber = names.length := by
  obtain ⟨hle, hsome, hnone⟩ := h.number_spec
  rcases Nat.lt_trichotomy h.getExtDeviceNumber names.length with hlt | heq | hgt
  · have hname := hnames h.getExtDeviceNumber
    rw [MtkHnat.nameAt, hnone (by omega), List.getElem?_eq_getElem hlt] at hname
    cases hname
  · exact heq
  · have hname := hnames names.length
    obtain ⟨entry, hentry⟩ := Option.isSome_iff_exists.1 (hsome _ hgt)
    rw [MtkHnat.nameAt, hentry, List.getElem?_eq_none le_rfl] at hname
    cases hname

theorem MtkHnat.Names.addName {h : MtkHnat} {names : List IfName} (hnames : h.Names names)
    (hlen : names.length ≤ maxExtDevs) (name : CString) :
    (h.addName name).Names ((names ++ [IfName.strncpy name]).take maxExtDevs) := by
  have hnumber := hnames.number hlen
  have hnumber' : ({ h with brk := h.brk + 1 } : MtkHnat).getExtDeviceNumber = names.length := hnumber
  intro i
  rw [MtkHnat.addName, MtkHnat.extIfAdd, hnumber']
  split
  case isTrue hlt =>
    rw [List.take_of_length_le (by rw [List.length_append]; exact hlt)]
    by_cases heq : i = names.length
    · subst heq
      simp [MtkHnat.nameAt]
    · have hi := hnames i
      rw [MtkHnat.nameAt] at hi ⊢
      dsimp only
      rw [Function.update_of_ne heq, hi]
      rcases Nat.lt_or_gt_of_ne heq with hlt | hgt
      · rw [List.getElem?_append_left hlt]
      · rw [List.getElem?_eq_none (by omega), List.getElem?_eq_none]
        rw [List.length_append, List.length_singleton]
        omega
  case isFalse hge =>
    rw [List.take_append_of_le_length (by omega), List.take_of_length_le hlen]
    exact hnames i

theorem MtkHnat.Names.addNames {h : MtkHnat} {names : List IfName} (hnames : h.Names names)
    (hlen : names.length ≤ maxExtDevs) (extDevices : List CString) :
    (extDevices.foldl MtkHnat.addName h).Names
      ((names ++ extDevices.map IfName.strncpy).take maxExtDevs) := by
  induction extDevices generalizing h names with
  | nil =>
    rw [List.map_nil, List.append_nil, List.take_of_length_le hlen]
    exact hnames
  | cons name extDevices ih =>
    have hrest := ih (hnames.addName hlen name) (List.length_take_le _ _)
    rw [List.foldl_cons, List.map_cons]
    have htake : (names ++ IfName.strncpy name :: extDevices.map IfName.strncpy).take maxExtDevs =
        ((names ++ [IfName.strncpy name]).take maxExtDevs ++ extDevices.map IfName.strncpy).take maxExtDevs := by
      rcases Nat.lt_or_ge names.length maxExtDevs with hlt | hge
      · have hfits : (names ++ [IfName.strncpy name]).length ≤ maxExtDevs := by
          rw [List.length_append]
          exact hlt
        rw [List.take_of_length_le hfits, List.append_assoc]
        rfl
      · have hlength : (names.take maxExtDevs).length = maxExtDevs := List.length_take_of_le hge
        rw [List.take_append_of_le_length hge, List.take_append_of_le_length hge,
          List.take_append_of_le_length hlength.ge, List.take_take, Nat.min_self]
    rw [htake]
    exact hrest

/-- The names that the table is made with. -/
def Config.names (config : Config) : List IfName := (config.extDevices.map IfName.strncpy).take maxExtDevs

theorem Config.probe_names (config : Config) : config.probe.Names config.names := by
  have hstart : MtkHnat.Names
      { extIf := fun _ => none, wifiHookIf := fun _ => none, extIfPrefix := config.extDevicesPrefix
        guestEn := config.guestEn, refs := fun _ => 0, brk := 0 } [] := fun _ => rfl
  exact hstart.addNames (Nat.zero_le _) config.extDevices

theorem Config.distinctNames_probe_iff (config : Config) :
    config.probe.DistinctNames ↔ config.names.Nodup := by
  have hnames := config.probe_names
  rw [List.nodup_iff_getElem?_ne_getElem?]
  constructor
  · intro hdistinct i j hij hj heq
    have hi : i < config.names.length := by omega
    have hname : config.probe.nameAt i = some config.names[i] := by
      rw [hnames i, List.getElem?_eq_getElem hi]
    have hname' : config.probe.nameAt j = some config.names[i] := by
      rw [hnames j, ← heq, List.getElem?_eq_getElem hi]
    have hsame := hdistinct i j _ hname hname'
    omega
  · intro hnodup i j name hi hj
    rw [hnames] at hi hj
    obtain ⟨hi', -⟩ := List.getElem?_eq_some_iff.1 hi
    obtain ⟨hj', -⟩ := List.getElem?_eq_some_iff.1 hj
    rcases Nat.lt_trichotomy i j with hlt | heq | hgt
    · exact absurd (hi.trans hj.symm) (hnodup i j hlt hj')
    · exact heq
    · exact absurd (hj.trans hi.symm) (hnodup j i hgt hi')

theorem MtkHnat.WellFormed.addName {h : MtkHnat} (hwf : h.WellFormed) (name : CString) :
    (h.addName name).WellFormed := by
  have hgrow : ({ h with brk := h.brk + 1 } : MtkHnat).WellFormed :=
    ⟨hwf.bound, hwf.packed, hwf.addrs, fun i e he => Nat.lt_succ_of_lt (hwf.fresh i e he), hwf.refs⟩
  rw [MtkHnat.addName, MtkHnat.extIfAdd]
  split
  case isFalse => exact hgrow
  case isTrue hroom =>
    obtain ⟨-, hbefore, hnone⟩ := h.number_spec
    have hroom : h.getExtDeviceNumber < maxExtDevs := hroom
    refine hwf.place hroom rfl hbefore (fun i e he heq => absurd heq (hwf.fresh i e he).ne)
      (Nat.lt_succ_self _) (Nat.le_succ _) fun dev => ?_
    have hdevAt : ({ h with
        brk := h.brk + 1
        extIf := Function.update h.extIf h.getExtDeviceNumber (some ⟨h.brk, .strncpy name, none⟩) } : MtkHnat).devAt =
          h.devAt := by
      rw [MtkHnat.devAt_of_update (h := h) h.getExtDeviceNumber ⟨h.brk, .strncpy name, none⟩ rfl]
      refine Function.update_eq_self_iff.2 ?_
      rw [MtkHnat.devAt, hnone hroom]
      rfl
    have hentries := congrArg (fun arr => pointers arr (Finset.range maxExtDevs) dev) hdevAt
    exact (hwf.refs dev).trans (congrArg (fun n : Nat => (n : Int) + h.slotsOf dev) hentries.symm)

theorem Config.probe_wellFormed (config : Config) : config.probe.WellFormed := by
  have hfold : ∀ (extDevices : List CString) (h : MtkHnat), h.WellFormed →
      (extDevices.foldl MtkHnat.addName h).WellFormed := by
    intro extDevices
    induction extDevices with
    | nil => exact fun _ hwf => hwf
    | cons name extDevices ih => exact fun h hwf => ih _ (hwf.addName name)
  refine hfold _ _ ⟨fun _ _ => rfl, fun _ _ => rfl, fun i j e e' he => (by cases he), fun i e he => (by cases he),
    fun dev => ?_⟩
  simp [MtkHnat.entriesOf, MtkHnat.slotsOf, pointers, MtkHnat.devAt]

/-! ### The release -/

/-- A table without holes, of different allocations. -/
structure Packed (extIf : Nat → Option ExtdevEntry) : Prop where
  bound : ∀ i, maxExtDevs ≤ i → extIf i = none
  packed : ∀ i, extIf i = none → extIf (i + 1) = none
  addrs : ∀ i j e e', extIf i = some e → extIf j = some e' → e.addr = e'.addr → i = j

/-- The table without the entry at `i`. -/
def deleted (extIf : Nat → Option ExtdevEntry) (i : Nat) : Nat → Option ExtdevEntry :=
  fun t => if t < i then extIf t else extIf (t + 1)

theorem MtkHnat.WellFormed.packed' {h : MtkHnat} (hwf : h.WellFormed) : Packed h.extIf :=
  ⟨hwf.bound, hwf.packed, hwf.addrs⟩

section Release

variable {extIf : Nat → Option ExtdevEntry}

theorem extIfShift_eq (hbound : ∀ i, maxExtDevs ≤ i → extIf i = none)
    (hpacked : ∀ i, extIf i = none → extIf (i + 1) = none) {fuel j : Nat} (hfuel : maxExtDevs ≤ j + fuel)
    (hj : j < maxExtDevs) : extIfShift fuel extIf j = deleted extIf j := by
  induction fuel generalizing extIf j with
  | zero => omega
  | succ fuel ih =>
    rw [extIfShift]
    split
    case isTrue hmore =>
      obtain ⟨hsome, hlt⟩ := hmore
      have hself : Function.update extIf j (extIf (j + 1)) j = extIf (j + 1) := Function.update_self ..
      have hother : ∀ t, t ≠ j → Function.update extIf j (extIf (j + 1)) t = extIf t :=
        fun t hne => Function.update_of_ne hne _ _
      rw [ih (fun t ht => ?_) (fun t ht => ?_) (by omega) (by omega)]
      · funext t
        unfold deleted
        rcases Nat.lt_trichotomy t j with hlt' | rfl | hgt
        · rw [if_pos (by omega), if_pos hlt', hother t (by omega)]
        · rw [if_pos (Nat.lt_succ_self t), if_neg (lt_irrefl t), hself]
        · rw [if_neg (by omega), if_neg (by omega), hother _ (by omega)]
      · rw [hother t (by omega)]
        exact hbound t ht
      · by_cases heq : t = j
        · rw [heq, hself] at ht
          rw [heq, hother _ (by omega)]
          exact ht
        · rw [hother t heq] at ht
          by_cases hnext : t + 1 = j
          · rw [← hnext, hpacked t ht] at hsome
            cases hsome
          · rw [hother _ hnext]
            exact hpacked t ht
    case isFalse hdone =>
      have hbehind : ∀ t, j < t → extIf t = none := by
        intro t ht
        by_cases hlast : j < maxExtDevs - 1
        · have hnone : extIf j = none := by
            rw [← Option.not_isSome_iff_eq_none]
            exact fun hsome => hdone ⟨hsome, hlast⟩
          exact none_of_packed hpacked (by omega) hnone
        · exact hbound t (by omega)
      funext t
      unfold deleted
      rcases Nat.lt_trichotomy t j with hlt | rfl | hgt
      · rw [if_pos hlt, Function.update_of_ne (by omega)]
      · rw [if_neg (lt_irrefl t), Function.update_self, hbehind _ (by omega)]
      · rw [if_neg (by omega), Function.update_of_ne (by omega), hbehind t hgt, hbehind _ (by omega)]

theorem Packed.lt (hpacked : Packed extIf) {i : Nat} {entry : ExtdevEntry} (hentry : extIf i = some entry) :
    i < maxExtDevs := by
  by_contra hge
  rw [hpacked.bound i (by omega)] at hentry
  cases hentry

/-- An entry is found by its address where it is. -/
theorem Packed.extIfDelFrom_eq (hpacked : Packed extIf) {i : Nat} {entry : ExtdevEntry}
    (hentry : extIf i = some entry) {fuel k : Nat} (hk : k ≤ i) (hfuel : i < k + fuel) :
    extIfDelFrom extIf entry.addr fuel k = deleted extIf i := by
  have hi := hpacked.lt hentry
  induction fuel generalizing k with
  | zero => omega
  | succ fuel ih =>
    rw [extIfDelFrom]
    split
    case isTrue haddr =>
      obtain ⟨other, hother, haddr⟩ := Option.map_eq_some_iff.1 haddr
      obtain rfl := hpacked.addrs k i other entry hother hentry haddr
      exact extIfShift_eq hpacked.bound hpacked.packed (by omega) hi
    case isFalse hne =>
      have hlt : k ≠ i := by
        rintro rfl
        exact hne (by rw [hentry]; rfl)
      exact ih (by omega) (by omega)

theorem Packed.deleted (hpacked : Packed extIf) (i : Nat) : Packed (deleted extIf i) := by
  have hsome : ∀ t e, Hnat.deleted extIf i t = some e → extIf (if t < i then t else t + 1) = some e := by
    intro t e
    unfold Hnat.deleted
    split <;> exact id
  refine ⟨fun t ht => ?_, fun t ht => ?_, fun t t' e e' he he' haddr => ?_⟩
  · unfold Hnat.deleted
    split
    · exact hpacked.bound t ht
    · exact hpacked.bound (t + 1) (by omega)
  · unfold Hnat.deleted at ht ⊢
    split at ht
    case isTrue hlt =>
      have hnext := hpacked.packed t ht
      split
      · exact hnext
      · exact hpacked.packed _ hnext
    case isFalse hge =>
      rw [if_neg (by omega)]
      exact hpacked.packed _ ht
  · have hsame := hpacked.addrs _ _ e e' (hsome t e he) (hsome t' e' he') haddr
    split at hsame <;> split at hsame <;> omega

/-- What one turn of the release does. -/
theorem releaseFrom_succ {h : MtkHnat} (hpacked : Packed h.extIf) (fuel : Nat) {i : Nat} {entry : ExtdevEntry}
    (hentry : h.extIf i = some entry) :
    ∃ h', h'.extIf = deleted h.extIf i ∧
      (∀ dev, h'.refs dev = h.refs dev - if entry.dev = some dev then 1 else 0) ∧
      (releaseFrom (fuel + 1) h i).1 = (releaseFrom fuel h' (i + 1)).1 ∧
      (releaseFrom (fuel + 1) h i).2 = entry.addr :: (releaseFrom fuel h' (i + 1)).2 := by
  have hi := hpacked.lt hentry
  rw [releaseFrom, if_pos hi, hentry]
  dsimp only
  cases hdev : entry.dev with
  | none =>
    refine ⟨h.extIfDel entry, hpacked.extIfDelFrom_eq hentry (Nat.zero_le i) (by omega), fun dev => ?_, rfl, rfl⟩
    rw [if_neg nofun, sub_zero]
    rfl
  | some held =>
    refine ⟨(h.devPut held).extIfDel entry, hpacked.extIfDelFrom_eq hentry (Nat.zero_le i) (by omega),
      fun dev => ?_, rfl, rfl⟩
    have hrefs := update_refs h.refs held (-1) dev
    simp only [Option.some.injEq]
    by_cases heq : held = dev
    · rw [if_pos heq] at hrefs ⊢
      exact hrefs
    · rw [if_neg heq] at hrefs ⊢
      rw [sub_zero]
      exact hrefs.trans (add_zero _)

theorem releaseFrom_of_none {h : MtkHnat} {fuel i : Nat} (hnone : h.extIf i = none) :
    releaseFrom fuel h i = (h, []) := by
  cases fuel with
  | zero => rfl
  | succ fuel =>
    rw [releaseFrom, hnone]
    split <;> rfl

/-- From the second turn on the first entry stays. -/
theorem releaseFrom_first {h : MtkHnat} (hpacked : Packed h.extIf) {fuel i : Nat} (hi : 1 ≤ i) :
    (releaseFrom fuel h i).1.extIf 0 = h.extIf 0 := by
  induction fuel generalizing h i with
  | zero => rfl
  | succ fuel ih =>
    cases hentry : h.extIf i with
    | none => rw [releaseFrom_of_none hentry]
    | some entry =>
      obtain ⟨h', hextIf, -, hrest, -⟩ := releaseFrom_succ hpacked fuel hentry
      rw [hrest, ih (by rw [hextIf]; exact hpacked.deleted i) (by omega), hextIf, deleted,
        if_pos (Nat.lt_of_succ_le hi)]

end Release

section Release

variable {h : MtkHnat}

theorem MtkHnat.WellFormed.extIf_eq_none_iff (hwf : h.WellFormed) (i : Nat) :
    h.extIf i = none ↔ h.getExtDeviceNumber ≤ i := by
  obtain ⟨hle, hsome, hnone⟩ := h.number_spec
  constructor
  · intro hi
    by_contra hlt
    have hsome' := hsome i (by omega)
    rw [hi] at hsome'
    cases hsome'
  · intro hi
    rcases Nat.lt_or_ge h.getExtDeviceNumber maxExtDevs with hlt | hge
    · exact hwf.noHole _ i hi (hnone hlt)
    · exact hwf.bound i (by omega)

theorem MtkHnat.WellFormed.entriesOf_eq (hwf : h.WellFormed) (hfew : h.getExtDeviceNumber ≤ 1)
    (dev : NetDevice) : h.entriesOf dev = if h.devAt 0 = some dev then 1 else 0 := by
  rw [MtkHnat.entriesOf, pointers, Finset.sum_eq_single 0]
  · intro i _ hne
    have hnone := (hwf.extIf_eq_none_iff i).2 (by omega)
    rw [MtkHnat.devAt, hnone, if_neg nofun]
  · intro hmem
    exact absurd (Finset.mem_range.2 (show 0 < maxExtDevs by decide)) hmem

/-- The release empties a table of at most one entry, and no other. -/
theorem MtkHnat.WellFormed.released_iff (hwf : h.WellFormed) :
    Released h h.hnatReleaseNetdev ↔ h.getExtDeviceNumber ≤ 1 := by
  have hmax : maxExtDevs = 62 + 1 := rfl
  rw [MtkHnat.hnatReleaseNetdev, hmax]
  constructor
  · intro hreleased
    by_contra hmany
    have hsome : ∀ i < 2, ∃ entry, h.extIf i = some entry := by
      intro i hi
      rw [← Option.ne_none_iff_exists', ne_eq, hwf.extIf_eq_none_iff]
      omega
    obtain ⟨first, hfirst⟩ := hsome 0 (by omega)
    obtain ⟨second, hsecond⟩ := hsome 1 (by omega)
    obtain ⟨h', hextIf, -, hrest, -⟩ := releaseFrom_succ hwf.packed' 62 hfirst
    have hleft := hreleased.empty 0
    rw [hrest, releaseFrom_first (by rw [hextIf]; exact hwf.packed'.deleted 0) le_rfl, hextIf, deleted,
      if_neg (lt_irrefl 0), hsecond] at hleft
    cases hleft
  · intro hfew
    have hnone : ∀ i, 1 ≤ i → h.extIf i = none := fun i hi => (hwf.extIf_eq_none_iff i).2 (by omega)
    cases hentry : h.extIf 0 with
    | none =>
      rw [releaseFrom_of_none hentry]
      have hempty : ∀ i, h.extIf i = none := fun i => hwf.noHole 0 i (Nat.zero_le i) hentry
      refine ⟨hempty, fun dev => ?_, fun i e he => ?_⟩
      · rw [hwf.entriesOf_eq hfew, MtkHnat.devAt, hentry, if_neg nofun]
        exact (sub_zero _).symm
      · rw [hempty i] at he
        cases he
    | some entry =>
      obtain ⟨h', hextIf, hrefs, hrest, hfreed⟩ := releaseFrom_succ hwf.packed' 62 hentry
      have hempty : ∀ i, h'.extIf i = none := by
        intro i
        rw [hextIf, deleted, if_neg (Nat.not_lt_zero i)]
        exact hnone (i + 1) (by omega)
      rw [releaseFrom_of_none (hempty (0 + 1))] at hrest hfreed
      refine ⟨fun i => ?_, fun dev => ?_, fun i e he => ?_⟩
      · rw [hrest]
        exact hempty i
      · rw [hrest, hrefs, hwf.entriesOf_eq hfew, MtkHnat.devAt, hentry]
        dsimp only [Option.bind_some]
        split <;> rfl
      · rcases Nat.eq_zero_or_pos i with rfl | hpos
        · rw [hentry] at he
          rw [hfreed, Option.some.inj he]
          exact List.mem_singleton_self _
        · rw [hnone i hpos] at he
          cases he

end Release

/-- In every run the table has no hole and the references equal the pointers. Its names stay distinct exactly
when those of the configuration are and no device that a prefix matches goes up while an entry of its name
holds a device. The release from any such state empties the table exactly when it has at most one entry. -/
theorem extIf_table (config : Config) (events : List Event) :
    (config.probe.run events).NoHole ∧
    (∀ dev, (config.probe.run events).refs dev =
      (config.probe.run events).entriesOf dev + (config.probe.run events).slotsOf dev) ∧
    ((config.probe.run events).DistinctNames ↔ config.names.Nodup ∧ config.probe.SafeRun events) ∧
    (Released (config.probe.run events) (config.probe.run events).hnatReleaseNetdev ↔
      (config.probe.run events).getExtDeviceNumber ≤ 1) := by
  have hwf := config.probe_wellFormed
  have hrun := hwf.run events
  refine ⟨hrun.noHole, hrun.refs, ?_, hrun.released_iff⟩
  rw [hwf.distinctNames_run_iff, config.distinctNames_probe_iff]

/-- A WLAN interface that its driver hooks and that then goes up, with the prefix `ra` in the configuration. -/
theorem extIf_table_duplicate :
    let dev : NetDevice := { addr := 1, name := .strncpy (.lit "ra0"), ifindex := 7 }
    let config : Config := { extDevices := [], extDevicesPrefix := [.lit "ra"], guestEn := true }
    ¬ (config.probe.run [.registerHook dev, .up dev]).DistinctNames ∧
    ¬ Released (config.probe.run [.registerHook dev, .up dev])
      (config.probe.run [.registerHook dev, .up dev]).hnatReleaseNetdev := by
  intro dev config
  have hfirst : (config.probe.run [.registerHook dev, .up dev]).nameAt 0 = some dev.name := by decide +kernel
  have hsecond : (config.probe.run [.registerHook dev, .up dev]).nameAt 1 = some dev.name := by decide +kernel
  have hleft : (config.probe.run [.registerHook dev, .up dev]).hnatReleaseNetdev.1.extIf 0 ≠ none := by
    decide +kernel
  refine ⟨fun hdistinct => ?_, fun hreleased => hleft (hreleased.empty 0)⟩
  exact absurd (hdistinct 0 1 dev.name hfirst hsecond) (by decide)

end Immwrt.Hnat
