import Immwrt.Sfe.Table

/-!
# The engine

Receiving packets, the periodic sync, and the debug device. Each function of the source that takes the
lock is a step of the engine, or several where it gives the lock up in between: a connection is taken out
of the table in one step and flushed in another, and the periodic sync is a step that begins it and one
for each connection it syncs. A run is any sequence of steps.
-/

namespace Immwrt.Sfe

open Doubly

/-! ### Receiving -/

/-- What `sfe_ipv4_recv` returns: the packet goes out, or is left to the slow path. -/
abbrev Received := Option Sent

/-- The packet is left to the slow path and the connection it belongs to is flushed, for the event `e`. -/
def Sfe.flushFor (s : Sfe) (cm : Nat) (e : Exception) : Sfe :=
  (s.takeOut (s.info cm).connection .flush).notForwarded e

/-- A match that saw a packet goes to the tail of the active list, unless it is there. -/
def Table.activate (t : Table) (cm : Nat) : Table :=
  if t.active cm then t
  else
    { t with
      active := Function.update t.active cm true
      activeLinks := t.activeLinks.pushBack t.activeTail cm
      activeHead := if t.activeTail = none then some cm else t.activeHead
      activeTail := some cm }

def Rx.receive (rx : Rx) (len : Nat) : Rx :=
  { rx with packetCount := rx.packetCount + 1, byteCount := rx.byteCount + BitVec.ofNat 32 len }

/-- The end of `sfe_ipv4_recv_udp` and `sfe_ipv4_recv_tcp`: the packet is edited and sent. -/
def Sfe.forward (s : Sfe) (cm : Nat) (udp : Bool) (p : Packet) : Sfe × Received :=
  if p.cloned && p.unshareFails then (s.notForwarded .clonedSkbUnshareError, none)
  else
    let sent := (s.info cm).forward udp (s.mark (s.info cm).connection) p
    let s := { s with rx := Function.update s.rx cm ((s.rx cm).receive p.len), toTable := s.activate cm }
    (s.bump .packetsForwarded, some sent)

/-- `sfe_ipv4_recv_udp` -/
def Sfe.recvUdp (s : Sfe) (dev : Dev) (p : Packet) (ihl : Nat) (flushOnFind : Bool) : Sfe × Received :=
  if p.pulled < 8 + ihl then (s.notForwarded .udpHeaderIncomplete, none)
  else
    match s.findConnectionMatch { dev, protocol := ipprotoUdp, tuple := p.tuple } with
    | (s, none) => (s.notForwarded .udpNoConnection, none)
    | (s, some cm) =>
        if flushOnFind then (s.flushFor cm .udpIpOptionsOrInitialFragment, none)
        else if !(s.info cm).flowAccel then (s.bump .packetsNotForwarded, none)
        else if p.ip.ttl < 2 then (s.flushFor cm .udpSmallTtl, none)
        else if (s.info cm).xmitDevMtu.toNat < p.len then (s.flushFor cm .udpNeedsFragmentation, none)
        else s.forward cm true p

/-- The flags of a fast path packet: `ACK`, and none of `SYN`, `RST` and `FIN`. -/
def TcpHdr.fast (h : TcpHdr) : Bool := h.ack && !h.syn && !h.rst && !h.fin

/-- `sfe_ipv4_recv_tcp` -/
def Sfe.recvTcp (s : Sfe) (dev : Dev) (p : Packet) (ihl : Nat) (flushOnFind : Bool) : Sfe × Received :=
  if p.pulled < 20 + ihl then (s.notForwarded .tcpHeaderIncomplete, none)
  else
    match s.findConnectionMatch { dev, protocol := ipprotoTcp, tuple := p.tuple } with
    | (s, none) =>
        (s.notForwarded (if p.tcp.fast then .tcpNoConnectionFastFlags else .tcpNoConnectionSlowFlags), none)
    | (s, some cm) =>
        if flushOnFind then (s.flushFor cm .tcpIpOptionsOrInitialFragment, none)
        else if !(s.info cm).flowAccel then (s.bump .packetsNotForwarded, none)
        else if p.ip.ttl < 2 then (s.flushFor cm .tcpSmallTtl, none)
        else if (s.info cm).xmitDevMtu.toNat < p.len ∧ !p.gso then
          (s.flushFor cm .tcpNeedsFragmentation, none)
        else if !p.tcp.fast then (s.flushFor cm .tcpFlags, none)
        else
          let counter := (s.info cm).counterMatch
          match tcpWindow (s.tcp cm) (s.tcp counter) p.tcp p.len with
          | .error e => (s.flushFor cm e, none)
          | .ok (tcp, counterTcp) =>
              let s := { s with tcp := Function.update (Function.update s.tcp cm tcp) counter counterTcp }
              s.forward cm false p

/-- `sfe_ipv4_recv_icmp`. The quoted packet was sent in the opposite direction. -/
def Sfe.recvIcmp (s : Sfe) (dev : Dev) (p : Packet) (ihl : Nat) : Sfe :=
  let h := p.icmp
  let innerIhl := h.ihl.toNat * 4
  if p.pulled < 8 + ihl then s.notForwarded .icmpHeaderIncomplete
  else if h.type ≠ 3 ∧ h.type ≠ 11 then s.notForwarded .icmpUnhandledType
  else if p.pulled < 8 + ihl + 20 then s.notForwarded .icmpIpv4HeaderIncomplete
  else if h.version ≠ 4 then s.notForwarded .icmpIpv4NonV4
  else if p.pulled < 8 + ihl + innerIhl then s.notForwarded .icmpIpv4IpOptionsIncomplete
  else if h.protocol = ipprotoUdp ∧ p.pulled < 8 + ihl + innerIhl + 8 then
    s.notForwarded .icmpIpv4UdpHeaderIncomplete
  else if h.protocol = ipprotoTcp ∧ p.pulled < 8 + ihl + innerIhl + 8 then
    s.notForwarded .icmpIpv4TcpHeaderIncomplete
  else if h.protocol ≠ ipprotoUdp ∧ h.protocol ≠ ipprotoTcp then s.notForwarded .icmpIpv4UnhandledProtocol
  else
    let quoted : Tuple := { srcIp := h.saddr, srcPort := h.source, destIp := h.daddr, destPort := h.dest }
    match s.findConnectionMatch { dev, protocol := h.protocol, tuple := quoted.swap } with
    | (s, none) => s.notForwarded .icmpNoConnection
    | (s, some cm) => s.flushFor cm .icmpFlushedConnection

/-- `sfe_ipv4_recv` -/
def Sfe.recv (s : Sfe) (dev : Dev) (p : Packet) : Sfe × Received :=
  let totLen := (ntohs p.ip.totLen).toNat
  let fragOff := ntohs p.ip.fragOff
  let ihl := p.ip.ihl.toNat * 4
  if p.pulled < 20 then (s.notForwarded .headerIncomplete, none)
  else if totLen < 20 then (s.notForwarded .badTotalLength, none)
  else if p.ip.version ≠ 4 then (s.notForwarded .nonV4, none)
  else if p.len < totLen then (s.notForwarded .datagramIncomplete, none)
  else if fragOff &&& 0x1fff ≠ 0 then (s.notForwarded .nonInitialFragment, none)
  else if ihl ≠ 20 ∧ p.len < ihl then (s.notForwarded .ipOptionsIncomplete, none)
  else
    let flushOnFind : Bool := fragOff &&& 0x2000 ≠ 0 ∨ ihl ≠ 20
    if p.ip.protocol = ipprotoUdp then s.recvUdp dev p ihl flushOnFind
    else if p.ip.protocol = ipprotoTcp then s.recvTcp dev p ihl flushOnFind
    else if p.ip.protocol = ipprotoIcmp then (s.recvIcmp dev p ihl, none)
    else (s.notForwarded .unhandledProtocol, none)

/-! ### The periodic sync -/

/-- The beginning of `sfe_ipv4_periodic_sync`, which does nothing without a callback. -/
def Sfe.syncBegin (s : Sfe) : Sfe :=
  if s.callback then { s.updateSummaryStats with quota := (s.numConnections + 63) / 64 } else s

/-- The counter match of the first active match leaves the active list. -/
def Table.dropCounter (t : Table) (counter : Nat) : Table :=
  if t.active counter then
    { t with
      active := Function.update t.active counter false
      activeLinks := ((t.activeLinks.unlink counter).setNext counter none).setPrev counter none
      activeTail := t.activeLinks.tailWithout t.activeTail counter }
  else t

/-- The first active match leaves the active list. -/
def Table.dropHead (t : Table) (cm : Nat) : Table :=
  { t with
    active := Function.update t.active cm false
    activeHead := t.activeLinks.next cm
    activeLinks := (t.activeLinks.setPrevOf (t.activeLinks.next cm) none).setNext cm none
    activeTail := if t.activeLinks.next cm = none then none else t.activeTail }

/-- One turn of the loop of `sfe_ipv4_periodic_sync`. -/
def Sfe.syncNext (s : Sfe) (now : BitVec 64) : Sfe :=
  if s.quota = 0 then s
  else
    match s.activeHead with
    | none => { s with quota := 0 }
    | some cm =>
        let s := { s with
          quota := s.quota - 1
          toTable := (s.dropCounter (s.info cm).counterMatch).dropHead cm }
        s.deliver (s.info cm).connection .stats now

/-! ### The debug device -/

/-- `sfe_ipv4_debug_dev_read_start` -/
def Sfe.debugReadStart (s : Sfe) : Sfe := { s with debugReadSeq := s.debugReadSeq + 1 }

/-- The connection that `sfe_ipv4_debug_dev_read_connections_connection` shows next. -/
def Sfe.debugNext (s : Sfe) : Option Nat :=
  s.allLinks.find (fun c => s.debugSeq c < s.debugReadSeq) (s.fresh + 1) s.allHead

/-- `sfe_ipv4_debug_dev_read_connections_connection`, less the text it prints -/
def Sfe.debugReadConnection (s : Sfe) : Sfe :=
  match s.debugNext with
  | none => s
  | some c =>
      let s := { s with debugSeq := Function.update s.debugSeq c s.debugReadSeq }
      (s.updateMatchStats (s.conn c).originalMatch).updateMatchStats (s.conn c).replyMatch

/-! ### Runs -/

inductive Step where
  | create (r : Rule) (memory : Bool) (now : BitVec 64)
  | update (r : Rule)
  | setMark (protocol : BitVec 32) (t : Tuple) (mark : Word)
  | destroy (protocol : BitVec 32) (t : Tuple)
  | destroyForDev (dev : Option Dev)
  | flush (i : Nat) (now : BitVec 64)
  | recv (dev : Dev) (p : Packet)
  | syncBegin
  | syncNext (now : BitVec 64)
  | debugReadStart
  | debugReadConnection
  | registerCallback (callback : Bool)

def Sfe.step (s : Sfe) : Step → Sfe
  | .create r memory now => (s.createRule r memory now).1
  | .update r => s.updateRule r
  | .setMark protocol t mark => s.markRule protocol t mark
  | .destroy protocol t => s.destroyRule protocol t
  | .destroyForDev dev => s.destroyForDev dev
  | .flush i now => s.flushConnection i now
  | .recv dev p => (s.recv dev p).1
  | .syncBegin => s.syncBegin
  | .syncNext now => s.syncNext now
  | .debugReadStart => s.debugReadStart
  | .debugReadConnection => s.debugReadConnection
  | .registerCallback callback => { s with callback }

def Sfe.run (s : Sfe) (steps : List Step) : Sfe := steps.foldl Sfe.step s

/-- The engine as it is loaded, over memory with any contents. -/
structure Sfe.Initial (s : Sfe) : Prop where
  matchHash : ∀ i, s.matchHash i = none
  connHash : ∀ i, s.connHash i = none
  activeHead : s.activeHead = none
  activeTail : s.activeTail = none
  allHead : s.allHead = none
  allTail : s.allTail = none
  numConnections : s.numConnections = 0
  quota : s.quota = 0
  pending : s.pending = []
  live : s.live = []
  delivered : s.delivered = []

/-- The engine as it is loaded, over memory that is all zero. -/
def Sfe.zeroed (callback : Bool) : Sfe :=
  let links : Links Nat := { next := fun _ => none, prev := fun _ => none }
  let tuple : Tuple := { srcIp := 0, srcPort := 0, destIp := 0, destPort := 0 }
  { matchLinks := links
    activeLinks := links
    active := fun _ => false
    info := fun _ =>
      { connection := 0
        counterMatch := 0
        key := { dev := 0, protocol := 0, tuple }
        xlate := tuple
        xlateSrc := false
        xlateDest := false
        writeFastEthHdr := false
        writeL2Hdr := false
        priorityRemark := false
        dscpRemark := false
        flowAccel := false
        xlateSrcCsumAdjustment := 0
        xlateSrcPartialCsumAdjustment := 0
        xlateDestCsumAdjustment := 0
        xlateDestPartialCsumAdjustment := 0
        priority := 0
        dscp := 0
        xmitDev := 0
        xmitDevMtu := 0
        xmitDestMac := 0
        xmitSrcMac := 0 }
    connLinks := links
    allLinks := links
    conn := fun _ =>
      { protocol := 0
        tuple
        xlate := tuple
        originalMatch := 0
        originalDev := 0
        replyMatch := 0
        replyDev := 0 }
    matchHash := fun _ => none
    connHash := fun _ => none
    activeHead := none
    activeTail := none
    allHead := none
    allTail := none
    numConnections := 0
    fresh := 0
    tcp := fun _ => { winScale := 0, maxWin := 0, endSeq := 0, maxEnd := 0, noSeqCheck := false }
    rx := fun _ => ⟨0, 0, 0, 0⟩
    mark := fun _ => 0
    lastSync := fun _ => 0
    debugSeq := fun _ => 0
    debugReadSeq := 0
    callback
    count := fun _ => 0
    count64 := fun _ => 0
    quota := 0
    pending := []
    live := []
    delivered := [] }

theorem Sfe.initial_zeroed (callback : Bool) : (Sfe.zeroed callback).Initial :=
  ⟨fun _ => rfl, fun _ => rfl, rfl, rfl, rfl, rfl, rfl, rfl, rfl, rfl, rfl⟩

end Immwrt.Sfe
