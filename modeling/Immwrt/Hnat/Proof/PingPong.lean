import Immwrt.Hnat.PingPong
import Immwrt.Hnat.Proof.ExtIf

/-!
# Where ping-pong packets end

The index of a device survives the six bits of an entry when it is less than 64, and the twelve bits of a VLAN
tag when it is less than 4096. A packet whose index no registered device has is reported as stolen but
neither queued nor freed.
-/

namespace Immwrt.Hnat

/-! ### The devices of a table -/

/-- A device that an entry of the table holds. -/
def MtkHnat.Registered (h : MtkHnat) (dev : NetDevice) : Prop := ∃ i, h.devAt i = some dev

/-- A table that the driver comes to in some run, whose devices have distinct positive indexes. -/
structure MtkHnat.Indexed (h : MtkHnat) : Prop where
  reachable : ∃ (config : Config) (events : List Event), h = config.probe.run events
  positive : ∀ dev, h.Registered dev → 0 < dev.ifindex
  distinct : ∀ dev dev', h.Registered dev → h.Registered dev' → dev.ifindex = dev'.ifindex → dev = dev'

section Lookup

variable {h : MtkHnat}

theorem MtkHnat.Indexed.wellFormed (hindexed : h.Indexed) : h.WellFormed := by
  obtain ⟨config, events, rfl⟩ := hindexed.reachable
  exact config.probe_wellFormed.run events

theorem MtkHnat.registered_iff {dev : NetDevice} :
    h.Registered dev ↔ ∃ i entry, h.extIf i = some entry ∧ entry.dev = some dev := by
  constructor
  · rintro ⟨i, hi⟩
    obtain ⟨entry, hentry, hdev⟩ := Option.bind_eq_some_iff.1 hi
    exact ⟨i, entry, hentry, hdev⟩
  · rintro ⟨i, entry, hentry, hdev⟩
    exact ⟨i, Option.bind_eq_some_iff.2 ⟨entry, hentry, hdev⟩⟩

theorem MtkHnat.getDevFromIndex_some {index : Nat} {dev : NetDevice} (hget : h.getDevFromIndex index = some dev) :
    h.Registered dev ∧ dev.ifindex = index := by
  obtain ⟨⟨i, entry⟩, hfind, hdev⟩ := Option.bind_eq_some_iff.1 hget
  obtain ⟨-, hentry, hp⟩ := extIfScan_some hfind
  have hindex : entry.dev.map NetDevice.ifindex = some index := of_decide_eq_true hp
  rw [show entry.dev = some dev from hdev] at hindex
  exact ⟨MtkHnat.registered_iff.2 ⟨i, entry, hentry, hdev⟩, Option.some.inj hindex⟩

theorem MtkHnat.WellFormed.getDevFromIndex_none (hwf : h.WellFormed) {index : Nat}
    (hget : h.getDevFromIndex index = none) {dev : NetDevice} (hdev : h.Registered dev) : dev.ifindex ≠ index := by
  obtain ⟨i, entry, hentry, hheld⟩ := MtkHnat.registered_iff.1 hdev
  intro hindex
  rw [MtkHnat.getDevFromIndex, Option.bind_eq_none_iff] at hget
  cases hfind : h.extIfFind fun entry => entry.dev.map NetDevice.ifindex = some index with
  | none =>
    have hp := of_decide_eq_false (hwf.extIfFind_none hfind hentry)
    rw [hheld] at hp
    exact hp (congrArg some hindex)
  | some found =>
    obtain ⟨j, other⟩ := found
    obtain ⟨-, -, hp⟩ := extIfScan_some hfind
    have hother : other.dev.map NetDevice.ifindex = some index := of_decide_eq_true hp
    rw [hget _ hfind] at hother
    cases hother

end Lookup

/-! ### To an external device -/

/-- The packet is queued on the device. -/
def Fate.QueuedOn (fate : Fate) (dev : NetDevice) : Prop := ∃ skb, fate = .queued skb ∧ skb.dev = some dev

/-- The packet is taken in as one from the device. -/
def Fate.ReceivedFrom (fate : Fate) (dev : NetDevice) : Prop := ∃ skb, fate = .received skb ∧ skb.dev = some dev

/-- The packet is neither queued nor freed. -/
def Fate.Lost : Fate → Prop
  | .kept _ => True
  | _ => False

theorem actDp_learned {d : Driver} {dev : NetDevice} {iface : Iface} {mape whnat : Bool} {foe entry : FoeEntry}
    (hlan : d.isLan dev = false) (hwan : d.isWan dev = false)
    (hlearned : d.skbToHnatInfo dev iface mape whnat foe = some entry) :
    entry.actDp = BitVec.ofNat 6 dev.ifindex := by
  rw [Driver.skbToHnatInfo] at hlearned
  split at hlearned
  case isTrue => cases hlearned
  case isFalse =>
    dsimp only at hlearned
    rw [hlan, if_neg Bool.false_ne_true, hwan, if_neg Bool.false_ne_true] at hlearned
    by_cases hext : (d.isExt dev && iface.learns) = true
    case neg =>
      rw [if_neg hext] at hlearned
      cases hlearned
    case pos =>
      rw [if_pos hext, Option.map_some] at hlearned
      obtain rfl := Option.some.inj hlearned
      cases hgrp : foe.isIpv4Grp <;> cases whnat <;>
        simp_all [FoeEntry.actDp, FoeEntry.isIpv4Grp]

theorem geToExtXmit_of_dev (d : Driver) (luck : Luck) (index : Nat) {skb : Skb} {dev : NetDevice}
    (hdev : skb.dev = some dev) :
    d.geToExtXmit luck index skb = { ret := 0, fate := .queued skb, driver := d } := by
  rw [Driver.geToExtXmit, hdev]

/-- What becomes of a packet to an external device. -/
theorem doHnatGeToExt_of_dev {d : Driver} {luck : Luck} {skb : Skb} {dev : NetDevice}
    (hget : d.hnat.getDevFromIndex (d.foeTable skb.ppe skb.entry).actDp.toNat = some dev) :
    d.doHnatGeToExt luck skb =
      if d.hqosTagged skb = true ∧ luck.skbUnshare = false then
        { ret := nfAccept, fate := .freed, driver := d }
      else if d.hqosTagged skb = true ∧ luck.pskbMayPull = false then
        { ret := nfAccept, fate := .kept { skb with dev := some dev }, driver := d }
      else { ret := 0, fate := .queued { skb with dev := some dev }, driver := d } := by
  rw [Driver.doHnatGeToExt, hget]
  dsimp only
  rw [show d.hqosTagged { skb with dev := some dev } = d.hqosTagged skb from rfl,
    geToExtXmit_of_dev d luck _ (show ({ skb with dev := some dev } : Skb).dev = some dev from rfl)]
  cases d.hqosTagged skb <;> cases luck.skbUnshare <;> cases luck.pskbMayPull <;> rfl

/-- A packet with the tag of the QoS queues can be unshared and is long enough. -/
def Driver.Unshares (d : Driver) (luck : Luck) (skb : Skb) : Prop :=
  d.hqosTagged skb = true → luck.skbUnshare = true ∧ luck.pskbMayPull = true

theorem queuedOn_iff {d : Driver} (hindexed : d.hnat.Indexed) {luck : Luck} {skb : Skb} {dev : NetDevice}
    (hdev : d.hnat.Registered dev)
    (hactDp : (d.foeTable skb.ppe skb.entry).actDp = BitVec.ofNat 6 dev.ifindex) :
    (d.doHnatGeToExt luck skb).fate.QueuedOn dev ↔ dev.ifindex < 64 ∧ d.Unshares luck skb := by
  have hindex : (d.foeTable skb.ppe skb.entry).actDp.toNat = dev.ifindex % 64 := by
    rw [hactDp, BitVec.toNat_ofNat]
  cases hget : d.hnat.getDevFromIndex (d.foeTable skb.ppe skb.entry).actDp.toNat with
  | none =>
    have hne := hindexed.wellFormed.getDevFromIndex_none hget hdev
    constructor
    · rintro ⟨skb', hfate, -⟩
      rw [Driver.doHnatGeToExt, hget] at hfate
      cases hfate
    · rintro ⟨hlt, -⟩
      exact absurd (by rw [hindex, Nat.mod_eq_of_lt hlt]) hne
  | some other =>
    obtain ⟨hother, hotherIndex⟩ := MtkHnat.getDevFromIndex_some hget
    rw [doHnatGeToExt_of_dev hget]
    constructor
    · rintro ⟨skb', hfate, hskb'⟩
      split at hfate
      case isTrue => cases hfate
      case isFalse hunshare =>
        split at hfate
        case isTrue => cases hfate
        case isFalse hpull =>
          obtain rfl := Fate.queued.inj hfate
          obtain rfl := Option.some.inj hskb'
          refine ⟨?_, fun htagged => ⟨?_, ?_⟩⟩
          · rw [hotherIndex, hindex]
            exact Nat.mod_lt _ (by decide)
          · by_contra hfail
            exact hunshare ⟨htagged, Bool.eq_false_of_not_eq_true hfail⟩
          · by_contra hfail
            exact hpull ⟨htagged, Bool.eq_false_of_not_eq_true hfail⟩
    · rintro ⟨hlt, hunshares⟩
      obtain rfl := hindexed.distinct other dev hother hdev
        (by rw [hotherIndex, hindex, Nat.mod_eq_of_lt hlt])
      rw [if_neg fun hfail => ?_, if_neg fun hfail => ?_]
      · exact ⟨_, rfl, rfl⟩
      · have hpull := (hunshares hfail.1).2
        rw [hfail.2] at hpull
        cases hpull
      · have hunshare := (hunshares hfail.1).1
        rw [hfail.2] at hunshare
        cases hunshare

/-- A packet that is reported as stolen is lost exactly when no registered device has the index. -/
theorem stolen_iff {d : Driver} (hindexed : d.hnat.Indexed) (luck : Luck) (skb : Skb) :
    ((d.doHnatGeToExt luck skb).ret = 0 → ¬ (d.doHnatGeToExt luck skb).fate.Lost) ↔
      ∃ dev, d.hnat.Registered dev ∧ dev.ifindex = (d.foeTable skb.ppe skb.entry).actDp.toNat := by
  cases hget : d.hnat.getDevFromIndex (d.foeTable skb.ppe skb.entry).actDp.toNat with
  | none =>
    have hstolen : d.doHnatGeToExt luck skb = { ret := 0, fate := .kept skb, driver := d } := by
      rw [Driver.doHnatGeToExt, hget]
    rw [hstolen]
    constructor
    · intro hkept
      exact absurd trivial (hkept rfl)
    · rintro ⟨dev, hdev, hindex⟩
      exact absurd hindex (hindexed.wellFormed.getDevFromIndex_none hget hdev)
  | some dev =>
    refine ⟨fun _ => ⟨dev, MtkHnat.getDevFromIndex_some hget⟩, fun _ => ?_⟩
    rw [doHnatGeToExt_of_dev hget]
    split
    · exact fun _ => id
    · split
      · intro hret
        exact absurd (show nfAccept = 0 from hret) (by decide)
      · exact fun _ => id

/-! ### From an external device -/

/-- The tag that a packet leaves with holds the low twelve bits of the index. -/
theorem vid_toNat (ifindex : Nat) :
    ((vlanCfiMask ||| (BitVec.ofNat 16 ifindex &&& vlanVidMask)) &&& vlanVidMask).toNat = ifindex % 4096 := by
  have hmask : (vlanCfiMask ||| (BitVec.ofNat 16 ifindex &&& vlanVidMask)) &&& vlanVidMask =
      BitVec.ofNat 16 ifindex &&& vlanVidMask := by
    rw [vlanCfiMask, vlanVidMask]
    ext i hi
    simp only [BitVec.getElem_and, BitVec.getElem_or]
    interval_cases i <;> simp
  rw [hmask, BitVec.toNat_and, BitVec.toNat_ofNat, show vlanVidMask.toNat = 2 ^ 12 - 1 from rfl,
    Nat.and_two_pow_sub_one_eq_mod]
  exact Nat.mod_mod_of_dvd _ (by decide)

theorem vlanUntag_dev (skb : Skb) : skb.vlanUntag.dev = skb.dev := by
  rw [Skb.vlanUntag]
  split <;> rfl

/-- A packet that goes to the engine has the index of the device it came in on in its tag. -/
theorem doHnatExtToGe_queued {d : Driver} {luck : Luck} {skb skb' : Skb} {dev : NetDevice}
    (hqueued : (d.doHnatExtToGe luck skb dev).fate = .queued skb') :
    (skb'.vlanTci &&& vlanVidMask).toNat = dev.ifindex % 4096 := by
  rw [Driver.doHnatExtToGe] at hqueued
  split at hqueued
  case h_1 => cases hqueued
  case h_2 ppdev hppdev =>
    split at hqueued
    case isTrue => cases hqueued
    case isFalse =>
      dsimp only at hqueued
      split at hqueued
      case isTrue => cases hqueued
      case isFalse =>
        obtain rfl := Fate.queued.inj hqueued
        exact vid_toNat dev.ifindex

/-- A packet that comes back with a second tag can be cleared of it. -/
def Skb.Untags (skb : Skb) (luck : Luck) : Prop := skb.hProto = ethP8021q → luck.skbVlanUntag = true

theorem doHnatExtToGe2_of_dev {d : Driver} {luck : Luck} {skb : Skb} {dev : NetDevice}
    (hget : d.hnat.getDevFromIndex (skb.vlanTci &&& vlanVidMask).toNat = some dev) (other : NetDevice) :
    (d.doHnatExtToGe2 luck skb).fate.ReceivedFrom other ↔ other = dev ∧ skb.Untags luck := by
  rw [Driver.doHnatExtToGe2, hget]
  dsimp only
  by_cases htagged : skb.hProto = ethP8021q
  · rw [if_pos htagged]
    cases hluck : luck.skbVlanUntag with
    | false =>
      refine ⟨?_, fun hcond => ?_⟩
      · rintro ⟨skb', hfate, -⟩
        cases hfate
      · have hluck' := hcond.2 htagged
        rw [hluck] at hluck'
        cases hluck'
    | true =>
      refine ⟨?_, fun hcond => ⟨_, rfl, ?_⟩⟩
      · rintro ⟨skb', hfate, hskb'⟩
        obtain rfl := Fate.received.inj hfate
        rw [vlanUntag_dev] at hskb'
        exact ⟨(Option.some.inj hskb').symm, fun _ => hluck⟩
      · rw [vlanUntag_dev, hcond.1]
  · rw [if_neg htagged]
    refine ⟨?_, fun hcond => ⟨_, rfl, congrArg some hcond.1.symm⟩⟩
    rintro ⟨skb', hfate, hskb'⟩
    obtain rfl := Fate.received.inj hfate
    exact ⟨(Option.some.inj hskb').symm, fun hproto => absurd hproto htagged⟩

/-- A packet that goes to the WAN device comes from no registered one. -/
theorem doHnatExtToGe2_of_none {d : Driver} (hwf : d.hnat.WellFormed) {luck : Luck} {skb : Skb} {dev : NetDevice}
    (hget : d.hnat.getDevFromIndex (skb.vlanTci &&& vlanVidMask).toNat = none) (hdev : d.hnat.Registered dev) :
    ¬ (d.doHnatExtToGe2 luck skb).fate.ReceivedFrom dev := by
  rintro ⟨skb', hfate, hskb'⟩
  rw [Driver.doHnatExtToGe2, hget] at hfate
  dsimp only at hfate
  split at hfate
  case h_1 => cases hfate
  case h_2 wan hwan =>
    split at hfate
    case isFalse => cases hfate
    case isTrue =>
      obtain rfl := Fate.received.inj hfate
      obtain rfl := Option.some.inj hskb'
      have hindex : wan.ifindex = (skb.vlanTci &&& vlanVidMask).toNat := by
        rw [Driver.getWandevFromIndex] at hwan
        exact of_decide_eq_true (Option.filter_eq_some_iff.1 hwan).2
      exact hwf.getDevFromIndex_none hget hdev hindex

theorem receivedFrom_iff {d : Driver} (hindexed : d.hnat.Indexed) {luck : Luck} {skb : Skb} {dev : NetDevice}
    (hdev : d.hnat.Registered dev) (htag : (skb.vlanTci &&& vlanVidMask).toNat = dev.ifindex % 4096) :
    (d.doHnatExtToGe2 luck skb).fate.ReceivedFrom dev ↔ dev.ifindex < 4096 ∧ skb.Untags luck := by
  cases hget : d.hnat.getDevFromIndex (skb.vlanTci &&& vlanVidMask).toNat with
  | none =>
    refine ⟨fun hreceived => ?_, fun hcond => ?_⟩
    · exact absurd hreceived (doHnatExtToGe2_of_none hindexed.wellFormed hget hdev)
    · refine absurd ?_ (hindexed.wellFormed.getDevFromIndex_none hget hdev)
      rw [htag, Nat.mod_eq_of_lt hcond.1]
  | some other =>
    obtain ⟨hother, hindex⟩ := MtkHnat.getDevFromIndex_some hget
    rw [htag] at hindex
    rw [doHnatExtToGe2_of_dev hget]
    refine and_congr_left fun _ => ⟨?_, fun hlt => ?_⟩
    · rintro rfl
      rw [hindex]
      exact Nat.mod_lt _ (by decide)
    · exact hindexed.distinct dev other hdev hother (by rw [hindex, Nat.mod_eq_of_lt hlt])

/-! ### Both ways -/

/-- An entry for an external device leads back to it exactly when its index fits six bits, a tag when it fits
twelve, and a packet is not lost exactly when a registered device has the index of the entry. -/
theorem pingPong (d₀ : Driver) {d : Driver} (hindexed : d.hnat.Indexed) (luck luck' : Luck) (skb : Skb) :
    (∀ dev iface mape whnat foe entry, d₀.isLan dev = false → d₀.isWan dev = false →
      d₀.skbToHnatInfo dev iface mape whnat foe = some entry → d.foeTable skb.ppe skb.entry = entry →
      d.hnat.Registered dev →
      ((d.doHnatGeToExt luck skb).fate.QueuedOn dev ↔ dev.ifindex < 64 ∧ d.Unshares luck skb)) ∧
    (∀ dev skb', (d₀.doHnatExtToGe luck' skb dev).fate = .queued skb' → d.hnat.Registered dev →
      ((d.doHnatExtToGe2 luck skb').fate.ReceivedFrom dev ↔ dev.ifindex < 4096 ∧ skb'.Untags luck)) ∧
    (((d.doHnatGeToExt luck skb).ret = 0 → ¬ (d.doHnatGeToExt luck skb).fate.Lost) ↔
      ∃ dev, d.hnat.Registered dev ∧ dev.ifindex = (d.foeTable skb.ppe skb.entry).actDp.toNat) := by
  refine ⟨?_, ?_, stolen_iff hindexed luck skb⟩
  · intro dev iface mape whnat foe entry hlan hwan hlearned hstored hdev
    refine queuedOn_iff hindexed hdev ?_
    rw [hstored]
    exact actDp_learned hlan hwan hlearned
  · intro dev skb' hqueued hdev
    exact receivedFrom_iff hindexed hdev (doHnatExtToGe_queued hqueued)

/-! ### One device -/

/-- A WLAN interface. -/
def ra0 (ifindex : Nat) : NetDevice := { addr := 1, name := .strncpy (.lit "ra0"), ifindex := ifindex }

/-- An entry for IPv4 that the engine has not bound. -/
def unboundEntry : FoeEntry := { pktType := .ipv4Hnapt, state := .unbind, ipv4ActDp := 0, ipv6ActDp := 0 }

/-- The entry that `ra0` gets. -/
def ra0Entry (ifindex : Nat) : FoeEntry :=
  { pktType := .ipv4Hnapt, state := .bind, ipv4ActDp := BitVec.ofNat 6 ifindex, ipv6ActDp := 0 }

/-- A driver whose only external device is `ra0`, which is up. -/
def ra0Driver (ifindex : Nat) : Driver where
  hnat := ({ extDevices := [.lit "ra0"], extDevicesPrefix := [], guestEn := true } : Config).probe.run
    [.up (ra0 ifindex)]
  foeTable := fun _ _ => ra0Entry ifindex
  gPpdev := some { addr := 2, name := .strncpy (.lit "eth0"), ifindex := 2 }
  ppdevUp := true
  gWandev := none
  wanByName := none
  wan := .lit "eth1"
  lan := .lit "lan"
  macvlanSupport := false
  qosToggle := 0
  mapeToggle := false

/-- A packet without a tag. -/
def untaggedSkb : Skb where
  dev := none
  vlanProto := 0
  vlanTci := 0
  hProto := 0x0008
  tags := []
  iface := .geLan
  ppe := 0
  entry := 5

def allLuck : Luck :=
  { vlanInsertTag := true, skbVlanUntag := true, skbUnshare := true, pskbMayPull := true, mapeAddIpv6Hdr := true }

/-- The packet that the engine gets from `ra0`. -/
def ra0Tagged (ifindex : Nat) : Skb :=
  { untaggedSkb with
    dev := (ra0Driver ifindex).gPpdev
    vlanProto := ethP8021q
    vlanTci := vlanCfiMask ||| (BitVec.ofNat 16 ifindex &&& vlanVidMask) }

theorem ra0Driver_devAt (ifindex : Nat) : (ra0Driver ifindex).hnat.devAt 0 = some (ra0 ifindex) := rfl

theorem ra0Driver_registered {ifindex : Nat} {dev : NetDevice} (hdev : (ra0Driver ifindex).hnat.Registered dev) :
    dev = ra0 ifindex := by
  obtain ⟨i, hi⟩ := hdev
  have hwf : (ra0Driver ifindex).hnat.WellFormed := (Config.probe_wellFormed _).run _
  rcases Nat.eq_zero_or_pos i with rfl | hpos
  · exact Option.some.inj (hi.symm.trans (ra0Driver_devAt ifindex))
  · have hnone := hwf.noHole 1 i hpos rfl
    rw [MtkHnat.devAt, hnone] at hi
    cases hi

theorem ra0Driver_indexed {ifindex : Nat} (hpos : 0 < ifindex) : (ra0Driver ifindex).hnat.Indexed where
  reachable := ⟨_, _, rfl⟩
  positive := by
    intro dev hdev
    rw [ra0Driver_registered hdev]
    exact hpos
  distinct := by
    intro dev dev' hdev hdev' _
    rw [ra0Driver_registered hdev, ra0Driver_registered hdev']

/-- With the index 7 a packet comes back to `ra0` both ways. -/
theorem pingPong_seven :
    ((ra0Driver 7).doHnatGeToExt allLuck untaggedSkb).fate.QueuedOn (ra0 7) ∧
    ((ra0Driver 7).doHnatExtToGe2 allLuck (ra0Tagged 7)).fate.ReceivedFrom (ra0 7) ∧
    ¬ ((ra0Driver 7).doHnatGeToExt allLuck untaggedSkb).fate.Lost := by
  have hdev : (ra0Driver 7).hnat.Registered (ra0 7) := ⟨0, ra0Driver_devAt 7⟩
  have hindexed : (ra0Driver 7).hnat.Indexed := ra0Driver_indexed (by decide)
  obtain ⟨hqueued, hreceived, hstolen⟩ := pingPong (ra0Driver 7) hindexed allLuck allLuck untaggedSkb
  refine ⟨?_, ?_, ?_⟩
  · refine (hqueued (ra0 7) .geLan false false unboundEntry (ra0Entry 7) ?_ ?_ ?_ rfl hdev).2 ⟨by decide, ?_⟩
    · decide +kernel
    · decide +kernel
    · decide +kernel
    · exact fun _ => ⟨rfl, rfl⟩
  · exact (hreceived (ra0 7) (ra0Tagged 7) rfl hdev).2 ⟨by decide, fun _ => rfl⟩
  · exact hstolen.2 ⟨ra0 7, hdev, by decide⟩ (by decide +kernel)

/-- With the index 4103 the packet to `ra0` is reported as stolen but kept, and the one from `ra0` is not taken
in. -/
theorem pingPong_large :
    (ra0Driver 4103).hnat.Indexed ∧ (ra0Driver 4103).hnat.Registered (ra0 4103) ∧
    (ra0Driver 4103).skbToHnatInfo (ra0 4103) .geLan false false unboundEntry = some (ra0Entry 4103) ∧
    (ra0Driver 4103).foeTable untaggedSkb.ppe untaggedSkb.entry = ra0Entry 4103 ∧
    ¬ ((ra0Driver 4103).doHnatGeToExt allLuck untaggedSkb).fate.QueuedOn (ra0 4103) ∧
    ((ra0Driver 4103).doHnatExtToGe allLuck untaggedSkb (ra0 4103)).fate = .queued (ra0Tagged 4103) ∧
    ¬ ((ra0Driver 4103).doHnatExtToGe2 allLuck (ra0Tagged 4103)).fate.ReceivedFrom (ra0 4103) ∧
    ((ra0Driver 4103).doHnatGeToExt allLuck untaggedSkb).ret = 0 ∧
    ((ra0Driver 4103).doHnatGeToExt allLuck untaggedSkb).fate.Lost := by
  have hkept : ((ra0Driver 4103).doHnatGeToExt allLuck untaggedSkb).fate = .kept untaggedSkb := rfl
  have hback : ((ra0Driver 4103).doHnatExtToGe2 allLuck (ra0Tagged 4103)).fate = .kept (ra0Tagged 4103) := rfl
  refine ⟨ra0Driver_indexed (by decide), ⟨0, ra0Driver_devAt 4103⟩, by decide +kernel, rfl, ?_, rfl, ?_, rfl, ?_⟩
  · rw [hkept]
    rintro ⟨skb, hqueued, -⟩
    cases hqueued
  · rw [hback]
    rintro ⟨skb, hreceived, -⟩
    cases hreceived
  · rw [hkept]
    trivial

end Immwrt.Hnat
