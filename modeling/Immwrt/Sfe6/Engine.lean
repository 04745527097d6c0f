import Immwrt.Sfe6.Packet

/-!
# The IPv6 engine

Hash chains, the list of all connections and the active list are lists of the numbers of the objects that
are on them, in order; that the links of such lists are kept right is proved for the IPv4 engine, whose
list operations are the same. Objects are numbered as they are allocated and no number is used twice. Each
function of the source that takes the lock is a step, or several where it gives the lock up in between.
-/

namespace Immwrt.Sfe6

open Sfe (Dev Port Mac TcpState TcpHdr Reason Rx NetDevice ntohs ipprotoTcp ipprotoUdp)

/-- The index of a hash chain. -/
abbrev Index := BitVec 12

/-- The counters of the engine. -/
inductive Counter where
  | connectionCreateRequests | connectionCreateCollisions | connectionDestroyRequests
  | connectionDestroyMisses | connectionMatchHashHits | connectionMatchHashReorders
  | connectionFlushes | packetsForwarded | packetsNotForwarded
  | exception (e : Exception)
  deriving DecidableEq

/-- A connection, less its list pointers. `tuple` is before the translation, `xlate` after it. -/
structure Conn where
  protocol : BitVec 32
  tuple : Tuple
  xlate : Tuple
  originalMatch : Nat
  originalDev : Dev
  replyMatch : Nat
  replyDev : Dev

/-- The lists of `struct sfe_ipv6` and what is written once into the objects on them. -/
structure Table where
  matchHash : Index → List Nat
  connHash : Index → List Nat
  all : List Nat
  active : List Nat
  info : Nat → Match
  conn : Nat → Conn
  numConnections : Nat
  fresh : Nat

/-- `struct sfe_ipv6` and the objects it points to. `pending` are the connections that were taken out of
the table and are about to be flushed by who took them out, `quota` is what is left to a periodic sync that
is under way. -/
structure Engine extends Table where
  tcp : Nat → TcpState
  rx : Nat → Rx
  mark : Nat → Word
  lastSync : Nat → BitVec 64
  callback : Bool
  count : Counter → BitVec 32
  count64 : Counter → BitVec 64
  quota : Nat
  pending : List (Nat × Reason)

def Engine.bump (s : Engine) (c : Counter) : Engine :=
  { s with count := Function.update s.count c (s.count c + 1) }

/-- A packet that stays in the slow path, for the event `e`. -/
def Engine.notForwarded (s : Engine) (e : Exception) : Engine :=
  (s.bump (.exception e)).bump .packetsNotForwarded

/-! ### The tables -/

/-- What the addresses and ports contribute to a hash. -/
def addrHash (a b : Addr) : Word := a.w0 ^^^ b.w0 ^^^ (a.w1 ^^^ b.w1) ^^^ (a.w2 ^^^ b.w2) ^^^ (a.w3 ^^^ b.w3)

/-- `sfe_ipv6_get_connection_match_hash` -/
def matchHashOf (k : Key) : Index :=
  let hash : BitVec 32 := k.dev.setWidth 32 ^^^ addrHash k.tuple.srcIp k.tuple.destIp ^^^
    k.protocol.setWidth 32 ^^^ (ntohs (k.tuple.srcPort ^^^ k.tuple.destPort)).setWidth 32
  ((hash >>> 12) ^^^ hash).setWidth 12

/-- `sfe_ipv6_find_connection_match`. A match that is not the first of its chain is moved to the front. -/
def Engine.findConnectionMatch (s : Engine) (k : Key) : Engine × Option Nat :=
  let idx := matchHashOf k
  match s.matchHash idx with
  | [] => (s, none)
  | head :: rest =>
      if (s.info head).key = k then (s.bump .connectionMatchHashHits, some head)
      else
        match rest.find? fun cm => (s.info cm).key = k with
        | none => (s, none)
        | some cm =>
            ({ s with matchHash := Function.update s.matchHash idx (cm :: (head :: rest).erase cm) }.bump
              .connectionMatchHashReorders, some cm)

/-- `sfe_ipv6_insert_connection_match` -/
def Table.insertConnectionMatch (t : Table) (cm : Nat) : Table :=
  let idx := matchHashOf (t.info cm).key
  { t with matchHash := Function.update t.matchHash idx (cm :: t.matchHash idx) }

/-- `sfe_ipv6_remove_connection_match` -/
def Table.removeConnectionMatch (t : Table) (cm : Nat) : Table :=
  let idx := matchHashOf (t.info cm).key
  { t with
    matchHash := Function.update t.matchHash idx ((t.matchHash idx).erase cm)
    active := t.active.erase cm }

/-- `sfe_ipv6_get_connection_hash` -/
def connHashOf (protocol : Byte) (t : Tuple) : Index :=
  let hash : BitVec 32 := addrHash t.srcIp t.destIp ^^^ protocol.setWidth 32 ^^^
    (ntohs (t.srcPort ^^^ t.destPort)).setWidth 32
  ((hash >>> 12) ^^^ hash).setWidth 12

def Conn.index (c : Conn) : Index := connHashOf (c.protocol.setWidth 8) c.tuple

/-- `sfe_ipv6_find_connection` -/
def Table.findConnection (t : Table) (protocol : BitVec 32) (tuple : Tuple) : Option Nat :=
  (t.connHash (connHashOf (protocol.setWidth 8) tuple)).find?
    fun c => (t.conn c).tuple = tuple ∧ (t.conn c).protocol = protocol

/-- `sfe_ipv6_insert_connection` -/
def Table.insertConnection (t : Table) (c : Nat) : Table :=
  let idx := (t.conn c).index
  let t := { t with
    connHash := Function.update t.connHash idx (c :: t.connHash idx)
    all := t.all ++ [c]
    numConnections := t.numConnections + 1 }
  (t.insertConnectionMatch (t.conn c).originalMatch).insertConnectionMatch (t.conn c).replyMatch

/-- `sfe_ipv6_remove_connection` -/
def Table.removeConnection (t : Table) (c : Nat) : Table :=
  let t := (t.removeConnectionMatch (t.conn c).replyMatch).removeConnectionMatch (t.conn c).originalMatch
  let idx := (t.conn c).index
  { t with
    connHash := Function.update t.connHash idx ((t.connHash idx).erase c)
    all := t.all.erase c
    numConnections := t.numConnections - 1 }

/-- A connection is taken out of the table, to be flushed once the lock is released. -/
def Engine.takeOut (s : Engine) (c : Nat) (reason : Reason) : Engine :=
  { s with toTable := s.removeConnection c, pending := s.pending ++ [(c, reason)] }

/-! ### Statistics -/

def Engine.updateMatchStats (s : Engine) (cm : Nat) : Engine :=
  { s with rx := Function.update s.rx cm (s.rx cm).updateSummaryStats }

/-- `sfe_ipv6_update_summary_stats` -/
def Engine.updateSummaryStats (s : Engine) : Engine :=
  { s with count := fun _ => 0, count64 := fun c => s.count64 c + (s.count c).setWidth 64 }

/-- `sfe_ipv6_gen_sync_connection`, less the message it fills in -/
def Engine.genSync (s : Engine) (c : Nat) (now : BitVec 64) : Engine :=
  let s := (s.updateMatchStats (s.conn c).originalMatch).updateMatchStats (s.conn c).replyMatch
  { s with lastSync := Function.update s.lastSync c now }

/-- `sfe_ipv6_flush_connection`, for the `i`th connection that waits for it -/
def Engine.flushConnection (s : Engine) (i : Nat) (now : BitVec 64) : Engine :=
  match s.pending[i]? with
  | none => s
  | some (c, _) =>
      let s := { s with pending := s.pending.eraseIdx i }.bump .connectionFlushes
      if s.callback then s.genSync c now else s

/-! ### Receiving -/

/-- What `sfe_ipv6_recv` returns: the packet goes out, or is left to the slow path. -/
abbrev Received := Option Sent

/-- The packet is left to the slow path and the connection it belongs to is flushed, for the event `e`. -/
def Engine.flushFor (s : Engine) (cm : Nat) (e : Exception) : Engine :=
  (s.takeOut (s.info cm).connection .flush).notForwarded e

/-- A match that saw a packet goes to the tail of the active list, unless it is there. -/
def Table.activate (t : Table) (cm : Nat) : Table :=
  if cm ∈ t.active then t else { t with active := t.active ++ [cm] }

/-- The end of `sfe_ipv6_recv_udp` and `sfe_ipv6_recv_tcp`: the packet is edited and sent. -/
def Engine.forward (s : Engine) (cm : Nat) (udp : Bool) (p : Packet) (ihl : Nat) : Engine × Received :=
  if p.cloned && p.unshareFails then (s.notForwarded .clonedSkbUnshareError, none)
  else
    let sent := (s.info cm).forward udp (s.mark (s.info cm).connection) p ihl
    let s := { s with rx := Function.update s.rx cm ((s.rx cm).receive p.len), toTable := s.activate cm }
    (s.bump .packetsForwarded, some sent)

/-- `sfe_ipv6_recv_udp` -/
def Engine.recvUdp (s : Engine) (dev : Dev) (p : Packet) (ihl : Nat) (flushOnFind : Bool) :
    Engine × Received :=
  if p.pulled < 8 + ihl then (s.notForwarded .udpHeaderIncomplete, none)
  else
    match s.findConnectionMatch { dev, protocol := ipprotoUdp, tuple := p.tuple ihl } with
    | (s, none) => (s.notForwarded .udpNoConnection, none)
    | (s, some cm) =>
        if flushOnFind then (s.flushFor cm .udpIpOptionsOrInitialFragment, none)
        else if !(s.info cm).flowAccel then (s.bump .packetsNotForwarded, none)
        else if hopLimit p.bytes 0 < 2 then (s.flushFor cm .udpSmallTtl, none)
        else if (s.info cm).xmitDevMtu.toNat < p.len then (s.flushFor cm .udpNeedsFragmentation, none)
        else s.forward cm true p ihl

/-- `sfe_ipv6_recv_tcp` -/
def Engine.recvTcp (s : Engine) (dev : Dev) (p : Packet) (ihl : Nat) (flushOnFind : Bool) :
    Engine × Received :=
  let h := tcpHdr p.bytes ihl
  if p.pulled < 20 + ihl then (s.notForwarded .tcpHeaderIncomplete, none)
  else
    match s.findConnectionMatch { dev, protocol := ipprotoTcp, tuple := p.tuple ihl } with
    | (s, none) =>
        (s.notForwarded (if h.fast then .tcpNoConnectionFastFlags else .tcpNoConnectionSlowFlags), none)
    | (s, some cm) =>
        if flushOnFind then (s.flushFor cm .tcpIpOptionsOrInitialFragment, none)
        else if !(s.info cm).flowAccel then (s.bump .packetsNotForwarded, none)
        else if hopLimit p.bytes 0 < 2 then (s.flushFor cm .tcpSmallTtl, none)
        else if (s.info cm).xmitDevMtu.toNat < p.len ∧ !p.gso then
          (s.flushFor cm .tcpNeedsFragmentation, none)
        else if !h.fast then (s.flushFor cm .tcpFlags, none)
        else
          let counter := (s.info cm).counterMatch
          match tcpWindow (s.tcp cm) (s.tcp counter) h p.len with
          | .error e => (s.flushFor cm e, none)
          | .ok (tcp, counterTcp) =>
              let s := { s with tcp := Function.update (Function.update s.tcp cm tcp) counter counterTcp }
              s.forward cm false p ihl

/-- What `sfe_ipv6_recv_icmp` looks up: the quoted packet was sent in the opposite direction. -/
def Packet.icmpKey (p : Packet) (dev : Dev) (inner ihl : Nat) : Key :=
  { dev
    protocol := nexthdr p.bytes inner
    tuple :=
      { srcIp := daddr p.bytes inner
        srcPort := dest p.bytes ihl
        destIp := saddr p.bytes inner
        destPort := source p.bytes ihl } }

/-- `sfe_ipv6_recv_icmp` -/
def Engine.recvIcmp (s : Engine) (dev : Dev) (p : Packet) (ihl : Nat) : Engine :=
  let type := p.bytes ihl
  let inner := ihl + 8
  if p.pulled < ihl + 8 then s.notForwarded .icmpHeaderIncomplete
  else if type ≠ 1 ∧ type ≠ 3 then s.notForwarded .icmpUnhandledType
  else if p.pulled < inner + 40 + 8 then s.notForwarded .icmpIpv6HeaderIncomplete
  else if version p.bytes inner ≠ 6 then s.notForwarded .icmpIpv6NonV6
  else
    match extHdrLoop p.bytes p.pulled (nexthdr p.bytes inner) (inner + 40) with
    | .error e => s.notForwarded e
    | .ok (nextHdr, ihl) =>
        if nextHdr ≠ ipprotoUdp ∧ nextHdr ≠ ipprotoTcp then s.notForwarded .icmpIpv6UnhandledProtocol
        else
          match s.findConnectionMatch (p.icmpKey dev inner ihl) with
          | (s, none) => s.notForwarded .icmpNoConnection
          | (s, some cm) => s.flushFor cm .icmpFlushedConnection

/-- `sfe_ipv6_recv` -/
def Engine.recv (s : Engine) (dev : Dev) (p : Packet) : Engine × Received :=
  if p.pulled < 40 + 8 then (s.notForwarded .headerIncomplete, none)
  else if version p.bytes 0 ≠ 6 then (s.notForwarded .nonV6, none)
  else if p.len - 40 < (ntohs (payloadLen p.bytes 0)).toNat then (s.notForwarded .datagramIncomplete, none)
  else
    match extHdrLoop p.bytes p.pulled (nexthdr p.bytes 0) 40 with
    | .error e => (s.notForwarded e, none)
    | .ok (nextHdr, ihl) =>
        -- a packet with an extension header is one to be flushed on find
        let flushOnFind := isExtHdr (nexthdr p.bytes 0)
        if nextHdr = ipprotoUdp then s.recvUdp dev p ihl flushOnFind
        else if nextHdr = ipprotoTcp then s.recvTcp dev p ihl flushOnFind
        else if nextHdr = ipprotoIcmpv6 then (s.recvIcmp dev p ihl, none)
        else (s.notForwarded .unhandledProtocol, none)

/-! ### Rules -/

/-- `struct sfe_connection_create` -/
structure Rule where
  protocol : BitVec 32
  srcDev : NetDevice
  destDev : NetDevice
  remarkPriority : Bool
  remarkDscp : Bool
  noSeqCheck : Bool
  srcMtu : BitVec 32
  destMtu : BitVec 32
  tuple : Tuple
  xlate : Tuple
  srcMac : Mac
  destMacXlate : Mac
  srcTd : TcpState
  destTd : TcpState
  mark : Word
  originalAccel : Bool
  replyAccel : Bool
  srcPriority : Word
  destPriority : Word
  srcDscp : Word
  destDscp : Word

/-- The source is translated. -/
def Rule.xlatesSrc (r : Rule) : Bool :=
  r.tuple.srcIp ≠ r.xlate.srcIp ∨ r.tuple.srcPort ≠ r.xlate.srcPort

/-- The destination is translated. -/
def Rule.xlatesDest (r : Rule) : Bool :=
  r.tuple.destIp ≠ r.xlate.destIp ∨ r.tuple.destPort ≠ r.xlate.destPort

/-- The match of the original direction. -/
def Rule.originalMatch (r : Rule) (c reply : Nat) : Match :=
  Match.computeTranslations
  { connection := c
    counterMatch := reply
    key := { dev := r.srcDev.dev, protocol := r.protocol.setWidth 8, tuple := r.tuple }
    xlate := r.xlate
    xlateSrc := r.xlatesSrc
    xlateDest := r.xlatesDest
    writeFastEthHdr := !r.destDev.pointToPoint && r.destDev.ethHeader
    writeL2Hdr := !r.destDev.pointToPoint
    priorityRemark := r.remarkPriority
    dscpRemark := r.remarkDscp
    flowAccel := r.originalAccel
    xlateSrcCsumAdjustment := 0
    xlateDestCsumAdjustment := 0
    priority := r.srcPriority
    dscp := r.srcDscp <<< 2
    xmitDev := r.destDev.dev
    xmitDevMtu := r.destMtu.setWidth 16
    xmitDestMac := r.destMacXlate
    xmitSrcMac := r.destDev.addr }

/-- The match of the reply direction. -/
def Rule.replyMatch (r : Rule) (c original : Nat) : Match :=
  Match.computeTranslations
  { connection := c
    counterMatch := original
    key := { dev := r.destDev.dev, protocol := r.protocol.setWidth 8, tuple := r.xlate.swap }
    xlate := r.tuple.swap
    xlateSrc := r.xlatesDest
    xlateDest := r.xlatesSrc
    writeFastEthHdr := !r.srcDev.pointToPoint && r.srcDev.ethHeader
    writeL2Hdr := !r.srcDev.pointToPoint
    priorityRemark := r.remarkPriority
    dscpRemark := r.remarkDscp
    flowAccel := r.replyAccel
    xlateSrcCsumAdjustment := 0
    xlateDestCsumAdjustment := 0
    priority := r.destPriority
    dscp := r.destDscp <<< 2
    xmitDev := r.srcDev.dev
    xmitDevMtu := r.srcMtu.setWidth 16
    xmitDestMac := r.srcMac
    xmitSrcMac := r.srcDev.addr }

/-- The connection, with its two matches. -/
def Rule.conn (r : Rule) (original reply : Nat) : Conn :=
  { protocol := r.protocol
    tuple := r.tuple
    xlate := r.xlate
    originalMatch := original
    originalDev := r.srcDev.dev
    replyMatch := reply
    replyDev := r.destDev.dev }

/-- `sfe_ipv6_update_protocol_state` -/
def Engine.updateProtocolState (s : Engine) (c : Nat) (r : Rule) : Engine :=
  if r.protocol = ipprotoTcp.setWidth 32 then
    let original := (s.conn c).originalMatch
    let reply := (s.conn c).replyMatch
    let tcp := Function.update s.tcp original ((s.tcp original).update r.srcTd r.noSeqCheck)
    { s with tcp := Function.update tcp reply ((tcp reply).update r.destTd r.noSeqCheck) }
  else s

/-- `sfe_ipv6_update_rule` -/
def Engine.updateRule (s : Engine) (r : Rule) : Engine :=
  match s.findConnection r.protocol r.tuple with
  | none => s
  | some c => s.updateProtocolState c r

/-- `sfe_ipv6_mark_rule` -/
def Engine.markRule (s : Engine) (protocol : BitVec 32) (t : Tuple) (mark : Word) : Engine :=
  match s.findConnection protocol t with
  | none => s
  | some c => { s with mark := Function.update s.mark c mark }

/-- The new connection `c` with its matches `original` and `reply`, filled in from the rule. -/
def Engine.fill (s : Engine) (r : Rule) (c original reply : Nat) (now : BitVec 64) : Engine :=
  let isTcp := r.protocol = ipprotoTcp.setWidth 32
  { s with
    info := Function.update (Function.update s.info original (r.originalMatch c reply)) reply
      (r.replyMatch c original)
    rx := Function.update (Function.update s.rx original ⟨0, 0, 0, 0⟩) reply ⟨0, 0, 0, 0⟩
    tcp := if isTcp then
        Function.update (Function.update s.tcp original (r.srcTd.start r.noSeqCheck)) reply
          (r.destTd.start r.noSeqCheck)
      else s.tcp
    conn := Function.update s.conn c (r.conn original reply)
    mark := Function.update s.mark c r.mark
    lastSync := Function.update s.lastSync c now }

inductive Created where
  | invalid
  | inUse
  | noMemory
  | ok (c : Nat)
  deriving DecidableEq

/-- `sfe_ipv6_create_rule`; `memory` is whether the allocations succeed. -/
def Engine.createRule (s : Engine) (r : Rule) (memory : Bool) (now : BitVec 64) : Engine × Created :=
  if !r.destDev.registered || !r.srcDev.registered then (s, .invalid)
  else
    let s := s.bump .connectionCreateRequests
    match s.findConnection r.protocol r.tuple with
    | some c => ((s.bump .connectionCreateCollisions).updateProtocolState c r, .inUse)
    | none =>
        if memory then
          let c := s.fresh
          let s := { s with fresh := s.fresh + 3 }.fill r c (c + 1) (c + 2) now
          ({ s with toTable := s.insertConnection c }, .ok c)
        else (s, .noMemory)

/-- `sfe_ipv6_destroy_rule`, up to the flush -/
def Engine.destroyRule (s : Engine) (protocol : BitVec 32) (t : Tuple) : Engine :=
  let s := s.bump .connectionDestroyRequests
  match s.findConnection protocol t with
  | none => s.bump .connectionDestroyMisses
  | some c => s.takeOut c .destroy

/-- One round of `sfe_ipv6_destroy_all_rules_for_dev`, up to the flush. The rounds end when none finds a
connection. -/
def Engine.destroyForDev (s : Engine) (dev : Option Dev) : Engine :=
  match s.all.find? fun c => dev = none ∨ dev = some (s.conn c).originalDev ∨ dev = some (s.conn c).replyDev with
  | none => s
  | some c => s.takeOut c .destroy

/-! ### The periodic sync -/

/-- The beginning of `sfe_ipv6_periodic_sync`, which does nothing without a callback. -/
def Engine.syncBegin (s : Engine) : Engine :=
  if s.callback then { s.updateSummaryStats with quota := (s.numConnections + 63) / 64 } else s

/-- One turn of the loop of `sfe_ipv6_periodic_sync`. The counter match leaves the active list together
with the first match. -/
def Engine.syncNext (s : Engine) (now : BitVec 64) : Engine :=
  if s.quota = 0 then s
  else
    match s.active with
    | [] => { s with quota := 0 }
    | cm :: rest =>
        let s := { s with quota := s.quota - 1, active := rest.erase (s.info cm).counterMatch }
        s.genSync (s.info cm).connection now

/-! ### Runs -/

inductive Step where
  | create (r : Rule) (memory : Bool) (now : BitVec 64)
  | update (r : Rule)
  | setMark (protocol : BitVec 32) (t : Tuple) (mark : Word)
  | destroy (protocol : BitVec 32) (t : Tuple)
  | destroyForDev (dev : Option Dev)
  | flush (i : Nat) (now : BitVec 64)
  | recv (dev : Dev) (p : Packet)
  | syncBegin
  | syncNext (now : BitVec 64)
  | registerCallback (callback : Bool)

def Engine.step (s : Engine) : Step → Engine
  | .create r memory now => (s.createRule r memory now).1
  | .update r => s.updateRule r
  | .setMark protocol t mark => s.markRule protocol t mark
  | .destroy protocol t => s.destroyRule protocol t
  | .destroyForDev dev => s.destroyForDev dev
  | .flush i now => s.flushConnection i now
  | .recv dev p => (s.recv dev p).1
  | .syncBegin => s.syncBegin
  | .syncNext now => s.syncNext now
  | .registerCallback callback => { s with callback }

def Engine.run (s : Engine) (steps : List Step) : Engine := steps.foldl Engine.step s

/-- The engine as it is loaded, over memory with any contents. -/
structure Engine.Initial (s : Engine) : Prop where
  matchHash : ∀ i, s.matchHash i = []
  connHash : ∀ i, s.connHash i = []
  all : s.all = []
  active : s.active = []
  numConnections : s.numConnections = 0
  quota : s.quota = 0
  pending : s.pending = []

/-- The engine as it is loaded, over memory that is all zero. -/
def Engine.zeroed (callback : Bool) : Engine :=
  let addr : Addr := { w0 := 0, w1 := 0, w2 := 0, w3 := 0 }
  let tuple : Tuple := { srcIp := addr, srcPort := 0, destIp := addr, destPort := 0 }
  { matchHash := fun _ => []
    connHash := fun _ => []
    all := []
    active := []
    info := fun _ =>
      { connection := 0
        counterMatch := 0
        key := { dev := 0, protocol := 0, tuple }
        xlate := tuple
        xlateSrc := false
        xlateDest := false
        writeFastEthHdr := false
        writeL2Hdr := false
        priorityRemark := false
        dscpRemark := false
        flowAccel := false
        xlateSrcCsumAdjustment := 0
        xlateDestCsumAdjustment := 0
        priority := 0
        dscp := 0
        xmitDev := 0
        xmitDevMtu := 0
        xmitDestMac := 0
        xmitSrcMac := 0 }
    conn := fun _ =>
      { protocol := 0
        tuple
        xlate := tuple
        originalMatch := 0
        originalDev := 0
        replyMatch := 0
        replyDev := 0 }
    numConnections := 0
    fresh := 0
    tcp := fun _ => { winScale := 0, maxWin := 0, endSeq := 0, maxEnd := 0, noSeqCheck := false }
    rx := fun _ => ⟨0, 0, 0, 0⟩
    mark := fun _ => 0
    lastSync := fun _ => 0
    callback
    count := fun _ => 0
    count64 := fun _ => 0
    quota := 0
    pending := [] }

theorem Engine.initial_zeroed (callback : Bool) : (Engine.zeroed callback).Initial :=
  ⟨fun _ => rfl, fun _ => rfl, rfl, rfl, rfl, rfl, rfl⟩

end Immwrt.Sfe6
