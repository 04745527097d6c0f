import Mathlib.Data.BitVec
import Mathlib.Logic.Function.Basic

/-!
# The multicast group table of the packet engine

The bridge tells who joins and leaves a multicast group. The driver keeps a table of the groups that have
members, with how many of them are Ethernet ports and how many are not, and hands each entry to the
hardware. What the hardware is given is left out here.
-/

namespace Immwrt.Hnat

/-- `struct ppe_mcast_group` -/
structure McastGroup where
  macHi : BitVec 32
  macLo : BitVec 16
  vid : BitVec 16
  mcPort : BitVec 8
  eif : BitVec 8
  oif : BitVec 8
  valid : Bool
  deriving DecidableEq

def McastGroup.zero : McastGroup :=
  { macHi := 0, macLo := 0, vid := 0, mcPort := 0, eif := 0, oif := 0, valid := false }

/-- `struct ppe_mcast_table` -/
structure McastTable where
  mtbl : Nat → McastGroup
  maxEntry : Nat

/-- The table of `hnat_mcast_enable`, with 16 or 64 entries. -/
def McastTable.init (maxEntry : Nat) : McastTable := { mtbl := fun _ => .zero, maxEntry }

/-- The loop of `mcast_entry_get`: `n` turns, the turn's number `i`, the pointer `p`, and the index found so
far. A free entry that is noted does not move the pointer. -/
def McastTable.entryLoop (t : McastTable) (vid : BitVec 16) (dstMac : BitVec 32) :
    Nat → Nat → Nat → Option Nat → Option Nat
  | 0, _, _, index => index
  | n + 1, i, p, index =>
      if index = none ∧ !(t.mtbl p).valid then t.entryLoop vid dstMac n (i + 1) p (some i)
      else if (t.mtbl p).vid = vid ∧ (t.mtbl p).macHi = dstMac then some i
      else t.entryLoop vid dstMac n (i + 1) (p + 1) index

/-- `mcast_entry_get` -/
def McastTable.entryGet (t : McastTable) (vid : BitVec 16) (dstMac : BitVec 32) : Option Nat :=
  t.entryLoop vid dstMac t.maxEntry 0 0 none

/-- The address of a group, as it stands in memory. Of an IPv6 address only the last word counts. -/
inductive GroupAddr where
  | ip4 (a : BitVec 32)
  | ip6 (s6Addr32 : Fin 4 → BitVec 32)
  | other

def swab32 (x : BitVec 32) : BitVec 32 :=
  x.extractLsb' 0 8 ++ x.extractLsb' 8 8 ++ x.extractLsb' 16 8 ++ x.extractLsb' 24 8

/-- A group's MAC address: its last four bytes and its first two. -/
abbrev GroupMac := BitVec 32 × BitVec 16

/-- `get_mac_from_mdb_entry` -/
def GroupAddr.mac : GroupAddr → GroupMac
  | .ip4 a => (swab32 ((a &&& 0xfffffe00) + 0x5e), 0x0100)
  | .ip6 s6Addr32 => (swab32 (s6Addr32 3), 0x3333)
  | .other => (0, 0)

/-- The prefix and the last four bytes of the MAC address of a group: 01:00:5e and the low 23 bits of an IPv4
address, 33:33 and the low 32 bits of an IPv6 address. -/
def GroupAddr.multicastMac : GroupAddr → Option (BitVec 2 × BitVec 32)
  | .ip4 a => some (0, (0x5e : BitVec 8) ++ (a.extractLsb' 8 8 &&& 0x7f) ++ a.extractLsb' 16 8 ++ a.extractLsb' 24 8)
  | .ip6 s6Addr32 => some (2, swab32 (s6Addr32 3))
  | .other => none

inductive MdbType where
  | newmdb
  | delmdb
  deriving DecidableEq

/-- An event: a port joins or leaves a group. `present` is whether there still is a device of that index,
`eth` whether it is the LAN or the WAN device. -/
structure MdbEvent where
  type : MdbType
  ifindex : Nat
  vid : BitVec 16
  addr : GroupAddr
  present : Bool
  eth : Bool

/-- The members of the entry are counted. -/
def McastGroup.count (g : McastGroup) (e : MdbEvent) : McastGroup :=
  match e.type with
  | .newmdb =>
      let g := if e.eth then { g with eif := g.eif + 1 } else { g with oif := g.oif + 1 }
      { g with vid := e.vid, valid := true }
  | .delmdb =>
      if g.valid then
        if e.eth then { g with eif := g.eif - 1 } else { g with oif := g.oif - 1 }
      else g

/-- Where the group is forwarded to. An entry without members is cleared. -/
def McastGroup.settle (g : McastGroup) : McastGroup :=
  if g.valid then
    if g.oif = 0 ∧ g.eif = 0 then .zero
    else { g with mcPort := if g.oif ≠ 0 ∧ g.eif ≠ 0 then 1 else if g.oif ≠ 0 then 1 else 2 }
  else g

/-- `hnat_mcast_table_update` -/
def McastTable.update (t : McastTable) (e : MdbEvent) : McastTable :=
  if !e.present then t
  else
    let mac := e.addr.mac
    match t.entryGet e.vid mac.1 with
    | none => t
    | some index =>
        let group := { t.mtbl index with macHi := mac.1, macLo := mac.2 }
        { t with mtbl := Function.update t.mtbl index (group.count e).settle }

/-! ### Who is a member -/

/-- A member of a group: the VLAN, the address of the group and the port. -/
structure Member where
  vid : BitVec 16
  mac : GroupMac
  ifindex : Nat
  eth : Bool
  deriving DecidableEq

def MdbEvent.member (e : MdbEvent) : Member :=
  { vid := e.vid, mac := e.addr.mac, ifindex := e.ifindex, eth := e.eth }

/-- The table together with the ports that joined and have not left. -/
structure Mcast extends McastTable where
  members : List Member

def Mcast.step (s : Mcast) (e : MdbEvent) : Mcast :=
  { toMcastTable := s.update e
    members := match e.type with
      | .newmdb => e.member :: s.members
      | .delmdb => s.members.erase e.member }

def Mcast.run (s : Mcast) (events : List MdbEvent) : Mcast := events.foldl Mcast.step s

end Immwrt.Hnat
