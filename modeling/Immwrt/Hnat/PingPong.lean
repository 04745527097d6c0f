import Immwrt.Hnat.ExtIf

/-!
# Ping-pong with the packet engine

The packet engine has no port to an external device. A packet from one is sent through the engine with the
index of the device in a VLAN tag, and a packet to one comes back from it to the driver, which finds the index
of the device in the entry that the packet hit. The entry has six bits for it.
-/

namespace Immwrt.Hnat

inductive FoeEntryState where
  | invalid
  | unbind
  | bind
  | fin
  deriving DecidableEq

inductive FoeIpAct where
  | ipv4Hnapt
  | ipv4Hnat
  | ipv4Dslite
  | ipv6ThreeTRoute
  | ipv6FiveTRoute
  | ipv6SixRd
  | ipv4MapT
  | ipv4MapE
  deriving DecidableEq

/-- `struct foe_entry`, of which the driver finds the device in `ipv4_hnapt.act_dp` or in
`ipv6_5t_route.act_dp`. -/
structure FoeEntry where
  pktType : FoeIpAct
  state : FoeEntryState
  ipv4ActDp : BitVec 6
  ipv6ActDp : BitVec 6
  deriving DecidableEq

def FoeEntry.isIpv4Grp (entry : FoeEntry) : Bool := entry.pktType = .ipv4Hnapt || entry.pktType = .ipv4Hnat

def FoeEntry.actDp (entry : FoeEntry) : BitVec 6 := if entry.isIpv4Grp then entry.ipv4ActDp else entry.ipv6ActDp

/-- `skb_hnat_iface`: where a packet came in. -/
inductive Iface where
  | geLan
  | geWan
  | ext
  | geVirtual
  | gePpd
  | wed0
  | wed1
  | other
  deriving DecidableEq

/-- A packet: its device, the VLAN tag that is kept beside it, the type of its Ethernet header, the tags in it
with the types that follow them, and the entry it hit. Types are in network order. -/
structure Skb where
  dev : Option NetDevice
  vlanProto : BitVec 16
  vlanTci : BitVec 16
  hProto : BitVec 16
  tags : List (BitVec 16 × BitVec 16)
  iface : Iface
  ppe : Nat
  entry : Nat

/-- What becomes of a packet. -/
inductive Fate where
  | kept (skb : Skb)
  | queued (skb : Skb)
  | received (skb : Skb)
  | freed

/-- Which of the calls that may fail do not. -/
structure Luck where
  vlanInsertTag : Bool
  skbVlanUntag : Bool
  skbUnshare : Bool
  pskbMayPull : Bool
  mapeAddIpv6Hdr : Bool

/-- The state of the driver. `wanByName` is the device that `dev_get_by_name` finds. -/
structure Driver where
  hnat : MtkHnat
  foeTable : Nat → Nat → FoeEntry
  gPpdev : Option NetDevice
  ppdevUp : Bool
  gWandev : Option NetDevice
  wanByName : Option NetDevice
  wan : CString
  lan : CString
  macvlanSupport : Bool
  qosToggle : Nat
  mapeToggle : Bool

def vlanVidMask : BitVec 16 := 0x0fff

def vlanCfiMask : BitVec 16 := 0x1000

/-- `htons(ETH_P_8021Q)` -/
def ethP8021q : BitVec 16 := 0x0081

def hqosMagicTag : BitVec 16 := 0x5678

def nfAccept : BitVec 32 := 1

/-- What a call returns, and what it leaves. -/
structure Outcome where
  ret : BitVec 32
  fate : Fate
  driver : Driver

def Driver.setEntry (d : Driver) (skb : Skb) (entry : FoeEntry) : Driver :=
  { d with foeTable := Function.update d.foeTable skb.ppe (Function.update (d.foeTable skb.ppe) skb.entry entry) }

def Driver.getWandevFromIndex (d : Driver) (index : Nat) : Driver × Option NetDevice :=
  let d := if d.gWandev = none then { d with gWandev := d.wanByName } else d
  (d, d.gWandev.filter fun dev => dev.ifindex = index)

/-! ### Learning -/

def CString.isPrefix (pre s : CString) : Bool := pre.bytes.isPrefixOf s.bytes

def Driver.isLan (d : Driver) (dev : NetDevice) : Bool := CString.isPrefix d.lan dev.name.str

def Driver.isWan (d : Driver) (dev : NetDevice) : Bool :=
  CString.isPrefix d.wan dev.name.str || (CString.isPrefix (.lit "macvlan") dev.name.str && d.macvlanSupport)

def Driver.isExt (d : Driver) (dev : NetDevice) : Bool := d.hnat.getIndexFromDev dev ≠ 0

def Iface.learns : Iface → Bool
  | .other => false
  | _ => true

/-- The destination part of `skb_to_hnat_info`: the entry for a packet to `dev`, which `foe` was the unbound
entry of. An index is cut to the six bits of the field. `none` is a case that is not learned. -/
def Driver.skbToHnatInfo (d : Driver) (dev : NetDevice) (iface : Iface) (mape whnat : Bool) (foe : FoeEntry) :
    Option FoeEntry :=
  if foe.state ≠ .unbind then none
  else
    let entry : FoeEntry := { pktType := foe.pktType, state := foe.state, ipv4ActDp := 0, ipv6ActDp := 0 }
    let index := BitVec.ofNat 6 dev.ifindex
    let filled :=
      if d.isLan dev then some entry
      else if d.isWan dev then some (if d.mapeToggle && mape then { entry with ipv4ActDp := index } else entry)
      else if d.isExt dev && iface.learns then
        some (if foe.isIpv4Grp then { entry with ipv4ActDp := index } else { entry with ipv6ActDp := index })
      else none
    filled.map fun entry => if whnat then entry else { entry with state := .bind }

/-! ### From an external device -/

/-- `vlan_insert_tag`: the tag beside the packet goes into it. -/
def Skb.vlanInsertTag (skb : Skb) : Skb :=
  { skb with hProto := skb.vlanProto, tags := (skb.vlanTci, skb.hProto) :: skb.tags }

/-- `skb_vlan_untag`: the first tag of the packet goes beside it. -/
def Skb.vlanUntag (skb : Skb) : Skb :=
  match skb.tags with
  | [] => skb
  | (tci, proto) :: tags => { skb with vlanProto := skb.hProto, vlanTci := tci, hProto := proto, tags := tags }

/-- `in` is the device the packet came in on. -/
def Driver.doHnatExtToGe (d : Driver) (luck : Luck) (skb : Skb) (in' : NetDevice) : Outcome :=
  match d.gPpdev with
  | none => { ret := -1, fate := .kept skb, driver := d }
  | some ppdev =>
    if !d.ppdevUp then { ret := -1, fate := .kept skb, driver := d }
    else
      let tagged := skb.vlanTci &&& vlanVidMask ≠ 0
      if tagged ∧ !luck.vlanInsertTag then { ret := -1, fate := .freed, driver := d }
      else
        let skb := if tagged then skb.vlanInsertTag else skb
        let skb := { skb with
          vlanProto := ethP8021q
          vlanTci := vlanCfiMask ||| (BitVec.ofNat 16 in'.ifindex &&& vlanVidMask)
          dev := some ppdev }
        { ret := 0, fate := .queued skb, driver := d }

def Driver.doHnatExtToGe2 (d : Driver) (luck : Luck) (skb : Skb) : Outcome :=
  let index := (skb.vlanTci &&& vlanVidMask).toNat
  match d.hnat.getDevFromIndex index with
  | some dev =>
    let skb := { skb with dev := some dev, vlanProto := 0, vlanTci := 0 }
    if skb.hProto = ethP8021q then
      if !luck.skbVlanUntag then { ret := -1, fate := .freed, driver := d }
      else { ret := 0, fate := .received skb.vlanUntag, driver := d }
    else { ret := 0, fate := .received skb, driver := d }
  | none =>
    let (d, dev) := d.getWandevFromIndex index
    match dev with
    | none => { ret := -1, fate := .kept skb, driver := d }
    | some dev =>
      if d.mapeToggle && luck.mapeAddIpv6Hdr then
        let skb := { skb with dev := some dev, vlanProto := 0, vlanTci := 0 }
        let entry := { d.foeTable skb.ppe skb.entry with pktType := .ipv4Hnapt }
        { ret := 0, fate := .received skb, driver := d.setEntry skb entry }
      else { ret := -1, fate := .kept skb, driver := d }

/-! ### To an external device -/

/-- The entry of a device that is down is made invalid. -/
def FoeEntry.invalidate (entry : FoeEntry) : FoeEntry :=
  if entry.state = .bind then
    if entry.isIpv4Grp then { entry with state := .invalid, ipv4ActDp := 0 }
    else { entry with state := .invalid, ipv6ActDp := 0 }
  else entry

/-- The packet is queued on its device. Without one it goes to the WAN as MAP-E, and else the entry is made
invalid. -/
def Driver.geToExtXmit (d : Driver) (luck : Luck) (index : Nat) (skb : Skb) : Outcome :=
  match skb.dev with
  | some _ => { ret := 0, fate := .queued skb, driver := d }
  | none =>
    let invalid : Outcome :=
      { ret := -1, fate := .kept skb
        driver := d.setEntry skb (d.foeTable skb.ppe skb.entry).invalidate }
    if d.mapeToggle then
      let (d, dev) := d.getWandevFromIndex index
      match dev with
      | none => { invalid with driver := d.setEntry skb (d.foeTable skb.ppe skb.entry).invalidate }
      | some dev =>
        if luck.mapeAddIpv6Hdr then
          { ret := 0, fate := .queued { skb with dev := some dev }, driver := d }
        else { ret := -1, fate := .kept skb, driver := d }
    else invalid

/-- A packet with the tag of the QoS queues. -/
def Driver.hqosTagged (d : Driver) (skb : Skb) : Bool := d.qosToggle = 1 && skb.hProto = hqosMagicTag

/-- A packet that cannot be unshared is freed by the attempt. -/
def Driver.doHnatGeToExt (d : Driver) (luck : Luck) (skb : Skb) : Outcome :=
  let index := (d.foeTable skb.ppe skb.entry).actDp.toNat
  match d.hnat.getDevFromIndex index with
  | none => { ret := 0, fate := .kept skb, driver := d }
  | some dev =>
    let skb := { skb with dev := some dev }
    if d.hqosTagged skb then
      if !luck.skbUnshare then { ret := nfAccept, fate := .freed, driver := d }
      else if !luck.pskbMayPull then { ret := nfAccept, fate := .kept skb, driver := d }
      else d.geToExtXmit luck index skb
    else d.geToExtXmit luck index skb

end Immwrt.Hnat
