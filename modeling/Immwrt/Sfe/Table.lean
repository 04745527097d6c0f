import Immwrt.Lib.Doubly
import Immwrt.Sfe.Packet

/-!
# The connection table

Connections and their two matches are objects in memory, tied together by pointers: every connection is in
a chain of one hash table and in the list of all connections, every match is in a chain of another table,
and the matches that have seen traffic since their last sync are in the active list. All four structures
are doubly linked.

The memory is one map for each field. Objects are numbered as they are allocated and no number is used
twice, so an object that was freed is one that nothing points to any more.
-/

namespace Immwrt.Sfe

open Doubly

/-- The index of a hash chain. -/
abbrev Index := BitVec 12

inductive Reason where
  | stats
  | flush
  | destroy
  deriving DecidableEq

/-- The counters of the engine. -/
inductive Counter where
  | connectionCreateRequests | connectionCreateCollisions | connectionDestroyRequests
  | connectionDestroyMisses | connectionMatchHashHits | connectionMatchHashReorders
  | connectionFlushes | packetsForwarded | packetsNotForwarded
  | exception (e : Exception)
  deriving DecidableEq

/-- Traffic seen by a match: in the current sync period, and before. -/
structure Rx where
  packetCount : BitVec 32
  byteCount : BitVec 32
  packetCount64 : BitVec 64
  byteCount64 : BitVec 64

/-- A connection, less its list pointers. `tuple` is before the translation, `xlate` after it. -/
structure Conn where
  protocol : BitVec 32
  tuple : Tuple
  xlate : Tuple
  originalMatch : Nat
  originalDev : Dev
  replyMatch : Nat
  replyDev : Dev

/-- `struct sfe_connection_sync`: what the sync callback is given. -/
structure Sync where
  protocol : BitVec 32
  tuple : Tuple
  xlate : Tuple
  srcTd : TcpState
  destTd : TcpState
  srcDev : Dev
  destDev : Dev
  srcNewPacketCount : BitVec 32
  srcNewByteCount : BitVec 32
  destNewPacketCount : BitVec 32
  destNewByteCount : BitVec 32
  srcPacketCount : BitVec 64
  srcByteCount : BitVec 64
  destPacketCount : BitVec 64
  destByteCount : BitVec 64
  reason : Reason
  deltaJiffies : BitVec 64

/-- The lists of `struct sfe_ipv4` and the objects on them: the pointers of every object, and what is
written into it once. -/
structure Table where
  matchLinks : Links Nat
  activeLinks : Links Nat
  active : Nat → Bool
  info : Nat → Match
  connLinks : Links Nat
  allLinks : Links Nat
  conn : Nat → Conn
  matchHash : Index → Option Nat
  connHash : Index → Option Nat
  activeHead : Option Nat
  activeTail : Option Nat
  allHead : Option Nat
  allTail : Option Nat
  numConnections : Nat
  fresh : Nat

/-- `struct sfe_ipv4` and the objects it points to. `pending` are the connections that were taken out of
the table and are about to be flushed by who took them out, `quota` is what is left to a periodic sync
that is under way, `live` are the connections that are allocated, and `delivered` is what the sync
callback was given so far, each with its connection. -/
structure Sfe extends Table where
  tcp : Nat → TcpState
  rx : Nat → Rx
  mark : Nat → Word
  lastSync : Nat → BitVec 64
  debugSeq : Nat → Word
  debugReadSeq : Word
  callback : Bool
  count : Counter → BitVec 32
  count64 : Counter → BitVec 64
  quota : Nat
  pending : List (Nat × Reason)
  live : List Nat
  delivered : List (Nat × Sync)

def Sfe.bump (s : Sfe) (c : Counter) : Sfe :=
  { s with count := Function.update s.count c (s.count c + 1) }

/-- A packet that stays in the slow path, for the event `e`. -/
def Sfe.notForwarded (s : Sfe) (e : Exception) : Sfe :=
  (s.bump (.exception e)).bump .packetsNotForwarded

/-! ### The match table -/

/-- `sfe_ipv4_get_connection_match_hash` -/
def matchHashOf (k : Key) : Index :=
  let hash : BitVec 32 := k.dev.setWidth 32 ^^^ ntohl (k.tuple.srcIp ^^^ k.tuple.destIp) ^^^
    k.protocol.setWidth 32 ^^^ (ntohs (k.tuple.srcPort ^^^ k.tuple.destPort)).setWidth 32
  ((hash >>> 12) ^^^ hash).setWidth 12

/-- A match other than the first, `head`, is moved to the front of its chain. -/
def Table.moveToFront (t : Table) (idx : Index) (head cm : Nat) : Table :=
  { t with
    matchLinks := (t.matchLinks.unlink cm).pushFront (some head) cm
    matchHash := Function.update t.matchHash idx (some cm) }

/-- `sfe_ipv4_find_sfe_ipv4_connection_match`. A match that is not the first of its chain is moved to the
front. -/
def Sfe.findConnectionMatch (s : Sfe) (k : Key) : Sfe × Option Nat :=
  let idx := matchHashOf k
  match s.matchHash idx with
  | none => (s, none)
  | some head =>
      if (s.info head).key = k then (s.bump .connectionMatchHashHits, some head)
      else
        match s.matchLinks.find (fun cm => (s.info cm).key = k) s.fresh (s.matchLinks.next head) with
        | none => (s, none)
        | some cm =>
            ({ s with toTable := s.moveToFront idx head cm }.bump .connectionMatchHashReorders, some cm)

/-- `sfe_ipv4_insert_sfe_ipv4_connection_match` -/
def Table.insertConnectionMatch (t : Table) (cm : Nat) : Table :=
  let idx := matchHashOf (t.info cm).key
  { t with
    matchLinks := t.matchLinks.pushFront (t.matchHash idx) cm
    matchHash := Function.update t.matchHash idx (some cm) }

/-- The match leaves the active list, if it is there. -/
def Table.removeActive (t : Table) (cm : Nat) : Table :=
  if t.active cm then
    { t with
      activeLinks := t.activeLinks.unlink cm
      activeHead := t.activeLinks.headWithout t.activeHead cm
      activeTail := t.activeLinks.tailWithout t.activeTail cm }
  else t

/-- `sfe_ipv4_remove_sfe_ipv4_connection_match` -/
def Table.removeConnectionMatch (t : Table) (cm : Nat) : Table :=
  let idx := matchHashOf (t.info cm).key
  { t with
    matchLinks := t.matchLinks.unlink cm
    matchHash := Function.update t.matchHash idx (t.matchLinks.headWithout (t.matchHash idx) cm) }.removeActive cm

/-! ### The connection table -/

/-- `sfe_ipv4_get_connection_hash` -/
def connHashOf (protocol : BitVec 8) (t : Tuple) : Index :=
  let hash : BitVec 32 := ntohl (t.srcIp ^^^ t.destIp) ^^^ protocol.setWidth 32 ^^^
    (ntohs (t.srcPort ^^^ t.destPort)).setWidth 32
  ((hash >>> 12) ^^^ hash).setWidth 12

def Conn.index (c : Conn) : Index := connHashOf (c.protocol.setWidth 8) c.tuple

/-- `sfe_ipv4_find_sfe_ipv4_connection` -/
def Table.findConnection (t : Table) (protocol : BitVec 32) (tuple : Tuple) :
    Option Nat :=
  t.connLinks.find (fun c => (t.conn c).tuple = tuple ∧ (t.conn c).protocol = protocol) (t.fresh + 1)
    (t.connHash (connHashOf (protocol.setWidth 8) tuple))

/-- `sfe_ipv4_insert_sfe_ipv4_connection` -/
def Table.insertConnection (t : Table) (c : Nat) : Table :=
  let idx := (t.conn c).index
  let t := { t with
    connLinks := t.connLinks.pushFront (t.connHash idx) c
    connHash := Function.update t.connHash idx (some c)
    allLinks := (t.allLinks.setNext c none).pushBack t.allTail c
    allHead := if t.allTail = none then some c else t.allHead
    allTail := some c
    numConnections := t.numConnections + 1 }
  (t.insertConnectionMatch (t.conn c).originalMatch).insertConnectionMatch (t.conn c).replyMatch

/-- `sfe_ipv4_remove_sfe_ipv4_connection` -/
def Table.removeConnection (t : Table) (c : Nat) : Table :=
  let t := (t.removeConnectionMatch (t.conn c).replyMatch).removeConnectionMatch (t.conn c).originalMatch
  let idx := (t.conn c).index
  { t with
    connLinks := t.connLinks.unlink c
    connHash := Function.update t.connHash idx (t.connLinks.headWithout (t.connHash idx) c)
    allLinks := t.allLinks.unlink c
    allHead := t.allLinks.headWithout t.allHead c
    allTail := t.allLinks.tailWithout t.allTail c
    numConnections := t.numConnections - 1 }

/-! ### Statistics -/

/-- `sfe_ipv4_connection_match_update_summary_stats` -/
def Rx.updateSummaryStats (rx : Rx) : Rx :=
  { packetCount := 0
    byteCount := 0
    packetCount64 := rx.packetCount64 + rx.packetCount.setWidth 64
    byteCount64 := rx.byteCount64 + rx.byteCount.setWidth 64 }

def Sfe.updateMatchStats (s : Sfe) (cm : Nat) : Sfe :=
  { s with rx := Function.update s.rx cm (s.rx cm).updateSummaryStats }

/-- `sfe_ipv4_update_summary_stats` -/
def Sfe.updateSummaryStats (s : Sfe) : Sfe :=
  { s with count := fun _ => 0, count64 := fun c => s.count64 c + (s.count c).setWidth 64 }

/-- `sfe_ipv4_gen_sync_sfe_ipv4_connection` -/
def Sfe.genSync (s : Sfe) (c : Nat) (reason : Reason) (now : BitVec 64) : Sfe × Sync :=
  let original := (s.conn c).originalMatch
  let reply := (s.conn c).replyMatch
  let srcNew := s.rx original
  let destNew := s.rx reply
  let s := (s.updateMatchStats original).updateMatchStats reply
  ({ s with lastSync := Function.update s.lastSync c now },
    { protocol := (s.conn c).protocol
      tuple := (s.conn c).tuple
      xlate := (s.conn c).xlate
      srcTd := s.tcp original
      destTd := s.tcp reply
      srcDev := (s.info original).key.dev
      destDev := (s.info reply).key.dev
      srcNewPacketCount := srcNew.packetCount
      srcNewByteCount := srcNew.byteCount
      destNewPacketCount := destNew.packetCount
      destNewByteCount := destNew.byteCount
      srcPacketCount := (s.rx original).packetCount64
      srcByteCount := (s.rx original).byteCount64
      destPacketCount := (s.rx reply).packetCount64
      destByteCount := (s.rx reply).byteCount64
      reason
      deltaJiffies := now - s.lastSync c })

/-- The connection is synced and the callback is given the result. -/
def Sfe.deliver (s : Sfe) (c : Nat) (reason : Reason) (now : BitVec 64) : Sfe :=
  let (s, sis) := s.genSync c reason now
  { s with delivered := s.delivered ++ [(c, sis)] }

/-- `sfe_ipv4_flush_sfe_ipv4_connection`, for the `i`th connection that waits for it. -/
def Sfe.flushConnection (s : Sfe) (i : Nat) (now : BitVec 64) : Sfe :=
  match s.pending[i]? with
  | none => s
  | some (c, reason) =>
      let s := { s with pending := s.pending.eraseIdx i }.bump .connectionFlushes
      let s := if s.callback then s.deliver c reason now else s
      { s with live := s.live.erase c }

/-- A connection is taken out of the table, to be flushed once the lock is released. -/
def Sfe.takeOut (s : Sfe) (c : Nat) (reason : Reason) : Sfe :=
  { s with toTable := s.removeConnection c, pending := s.pending ++ [(c, reason)] }

/-! ### Rules -/

/-- What `sfe_ipv4_create_rule` reads of a device. -/
structure NetDevice where
  dev : Dev
  registered : Bool
  pointToPoint : Bool
  ethHeader : Bool
  addr : Mac

/-- `struct sfe_connection_create` -/
structure Rule where
  protocol : BitVec 32
  srcDev : NetDevice
  destDev : NetDevice
  remarkPriority : Bool
  remarkDscp : Bool
  noSeqCheck : Bool
  srcMtu : BitVec 32
  destMtu : BitVec 32
  tuple : Tuple
  xlate : Tuple
  srcMac : Mac
  destMacXlate : Mac
  srcTd : TcpState
  destTd : TcpState
  mark : Word
  originalAccel : Bool
  replyAccel : Bool
  srcPriority : Word
  destPriority : Word
  srcDscp : Word
  destDscp : Word

/-- The source is translated. -/
def Rule.xlatesSrc (r : Rule) : Bool :=
  r.tuple.srcIp ≠ r.xlate.srcIp ∨ r.tuple.srcPort ≠ r.xlate.srcPort

/-- The destination is translated. -/
def Rule.xlatesDest (r : Rule) : Bool :=
  r.tuple.destIp ≠ r.xlate.destIp ∨ r.tuple.destPort ≠ r.xlate.destPort

/-- The match of the original direction. -/
def Rule.originalMatch (r : Rule) (c reply : Nat) : Match :=
  Match.computeTranslations
  { connection := c
    counterMatch := reply
    key := { dev := r.srcDev.dev, protocol := r.protocol.setWidth 8, tuple := r.tuple }
    xlate := r.xlate
    xlateSrc := r.xlatesSrc
    xlateDest := r.xlatesDest
    writeFastEthHdr := !r.destDev.pointToPoint && r.destDev.ethHeader
    writeL2Hdr := !r.destDev.pointToPoint
    priorityRemark := r.remarkPriority
    dscpRemark := r.remarkDscp
    flowAccel := r.originalAccel
    xlateSrcCsumAdjustment := 0
    xlateSrcPartialCsumAdjustment := 0
    xlateDestCsumAdjustment := 0
    xlateDestPartialCsumAdjustment := 0
    priority := r.srcPriority
    dscp := r.srcDscp <<< 2
    xmitDev := r.destDev.dev
    xmitDevMtu := r.destMtu.setWidth 16
    xmitDestMac := r.destMacXlate
    xmitSrcMac := r.destDev.addr }

/-- The match of the reply direction. -/
def Rule.replyMatch (r : Rule) (c original : Nat) : Match :=
  Match.computeTranslations
  { connection := c
    counterMatch := original
    key :=
      { dev := r.destDev.dev
        protocol := r.protocol.setWidth 8
        tuple :=
          { srcIp := r.xlate.destIp
            srcPort := r.xlate.destPort
            destIp := r.xlate.srcIp
            destPort := r.xlate.srcPort } }
    xlate :=
      { srcIp := r.tuple.destIp
        srcPort := r.tuple.destPort
        destIp := r.tuple.srcIp
        destPort := r.tuple.srcPort }
    xlateSrc := r.xlatesDest
    xlateDest := r.xlatesSrc
    writeFastEthHdr := !r.srcDev.pointToPoint && r.srcDev.ethHeader
    writeL2Hdr := !r.srcDev.pointToPoint
    priorityRemark := r.remarkPriority
    dscpRemark := r.remarkDscp
    flowAccel := r.replyAccel
    xlateSrcCsumAdjustment := 0
    xlateSrcPartialCsumAdjustment := 0
    xlateDestCsumAdjustment := 0
    xlateDestPartialCsumAdjustment := 0
    priority := r.destPriority
    dscp := r.destDscp <<< 2
    xmitDev := r.srcDev.dev
    xmitDevMtu := r.srcMtu.setWidth 16
    xmitDestMac := r.srcMac
    xmitSrcMac := r.srcDev.addr }

/-- The connection, with its two matches. -/
def Rule.conn (r : Rule) (original reply : Nat) : Conn :=
  { protocol := r.protocol
    tuple := r.tuple
    xlate := r.xlate
    originalMatch := original
    originalDev := r.srcDev.dev
    replyMatch := reply
    replyDev := r.destDev.dev }

/-- The TCP state a match starts with. -/
def TcpState.start (td : TcpState) (noSeqCheck : Bool) : TcpState :=
  { td with maxWin := if td.maxWin = 0 then 1 else td.maxWin, noSeqCheck }

/-- One direction of `sfe_ipv4_update_tcp_state`. -/
def TcpState.update (tcp td : TcpState) (noSeqCheck : Bool) : TcpState :=
  { tcp with
    maxWin := if tcp.maxWin < td.maxWin then td.maxWin else tcp.maxWin
    endSeq := if before tcp.endSeq td.endSeq then td.endSeq else tcp.endSeq
    maxEnd := if before tcp.maxEnd td.maxEnd then td.maxEnd else tcp.maxEnd
    noSeqCheck }

/-- `sfe_ipv4_update_protocol_state` -/
def Sfe.updateProtocolState (s : Sfe) (c : Nat) (r : Rule) : Sfe :=
  if r.protocol = ipprotoTcp.setWidth 32 then
    let original := (s.conn c).originalMatch
    let reply := (s.conn c).replyMatch
    let tcp := Function.update s.tcp original ((s.tcp original).update r.srcTd r.noSeqCheck)
    { s with tcp := Function.update tcp reply ((tcp reply).update r.destTd r.noSeqCheck) }
  else s

/-- `sfe_ipv4_update_rule` -/
def Sfe.updateRule (s : Sfe) (r : Rule) : Sfe :=
  match s.findConnection r.protocol r.tuple with
  | none => s
  | some c => s.updateProtocolState c r

/-- `sfe_ipv4_mark_rule` -/
def Sfe.markRule (s : Sfe) (protocol : BitVec 32) (t : Tuple) (mark : Word) : Sfe :=
  match s.findConnection protocol t with
  | none => s
  | some c => { s with mark := Function.update s.mark c mark }

/-- The new connection `c` with its matches `original` and `reply`, filled in from the rule. -/
def Sfe.fill (s : Sfe) (r : Rule) (c original reply : Nat) (now : BitVec 64) : Sfe :=
  let isTcp := r.protocol = ipprotoTcp.setWidth 32
  { s with
    info := Function.update (Function.update s.info original (r.originalMatch c reply)) reply
      (r.replyMatch c original)
    rx := Function.update (Function.update s.rx original ⟨0, 0, 0, 0⟩) reply ⟨0, 0, 0, 0⟩
    tcp := if isTcp then
        Function.update (Function.update s.tcp original (r.srcTd.start r.noSeqCheck)) reply
          (r.destTd.start r.noSeqCheck)
      else s.tcp
    active := Function.update (Function.update s.active original false) reply false
    activeLinks :=
      (((s.activeLinks.setNext original none).setPrev original none).setNext reply none).setPrev reply none
    conn := Function.update s.conn c (r.conn original reply)
    mark := Function.update s.mark c r.mark
    debugSeq := Function.update s.debugSeq c 0
    lastSync := Function.update s.lastSync c now }

inductive Created where
  | invalid
  | inUse
  | noMemory
  | ok (c : Nat)
  deriving DecidableEq

/-- `sfe_ipv4_create_rule`; `memory` is whether the allocations succeed. -/
def Sfe.createRule (s : Sfe) (r : Rule) (memory : Bool) (now : BitVec 64) : Sfe × Created :=
  if !r.destDev.registered || !r.srcDev.registered then (s, .invalid)
  else
    let s := s.bump .connectionCreateRequests
    match s.findConnection r.protocol r.tuple with
    | some c => ((s.bump .connectionCreateCollisions).updateProtocolState c r, .inUse)
    | none =>
        if memory then
          let c := s.fresh
          let original := s.fresh + 1
          let reply := s.fresh + 2
          let s := { s with fresh := s.fresh + 3, live := c :: s.live }.fill r c original reply now
          ({ s with toTable := s.insertConnection c }, .ok c)
        else (s, .noMemory)

/-- `sfe_ipv4_destroy_rule`, up to the flush -/
def Sfe.destroyRule (s : Sfe) (protocol : BitVec 32) (t : Tuple) : Sfe :=
  let s := s.bump .connectionDestroyRequests
  match s.findConnection protocol t with
  | none => s.bump .connectionDestroyMisses
  | some c => s.takeOut c .destroy

/-- One round of `sfe_ipv4_destroy_all_rules_for_dev`, up to the flush. The rounds end when none finds a
connection. -/
def Sfe.destroyForDev (s : Sfe) (dev : Option Dev) : Sfe :=
  match s.allLinks.find
      (fun c => dev = none ∨ dev = some (s.conn c).originalDev ∨ dev = some (s.conn c).replyDev)
      (s.fresh + 1) s.allHead with
  | none => s
  | some c => s.takeOut c .destroy

end Immwrt.Sfe
