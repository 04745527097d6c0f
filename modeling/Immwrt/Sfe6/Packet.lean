import Immwrt.Sfe.Engine

/-!
# IPv6 packets and matches

The IPv6 side of Shortcut-FE is a second copy of the IPv4 side with longer addresses. What differs is the
header: extension headers stand between the IPv6 header and the transport header, and the engine walks
them, in a packet that it receives and again in the packet that an ICMPv6 error quotes. Here a packet is
its bytes. What the two copies share word for word is taken from the IPv4 side.
-/

namespace Immwrt.Sfe6

open Sfe (Dev Port Mac TcpState TcpHdr Reason Rx NetDevice ntohs ntohl fold after before maxAckWindow
  processTcpOptionSack ipprotoTcp ipprotoUdp)

/-- An IPv6 address, in network order. -/
structure Addr where
  w0 : Word
  w1 : Word
  w2 : Word
  w3 : Word
  deriving DecidableEq

def Addr.words (a : Addr) : List Word := [a.w0, a.w1, a.w2, a.w3]

/-- Addresses and ports, as they stand in the headers. -/
@[ext]
structure Tuple where
  srcIp : Addr
  srcPort : Port
  destIp : Addr
  destPort : Port
  deriving DecidableEq

def Tuple.swap (t : Tuple) : Tuple :=
  { srcIp := t.destIp, srcPort := t.destPort, destIp := t.srcIp, destPort := t.srcPort }

inductive Exception where
  | udpHeaderIncomplete | udpNoConnection | udpIpOptionsOrInitialFragment | udpSmallTtl
  | udpNeedsFragmentation
  | tcpHeaderIncomplete | tcpNoConnectionSlowFlags | tcpNoConnectionFastFlags
  | tcpIpOptionsOrInitialFragment | tcpSmallTtl | tcpNeedsFragmentation | tcpFlags
  | tcpSeqExceedsRightEdge | tcpSmallDataOffs | tcpBadSack | tcpBigDataOffs | tcpSeqBeforeLeftEdge
  | tcpAckExceedsRightEdge | tcpAckBeforeLeftEdge
  | icmpHeaderIncomplete | icmpUnhandledType | icmpIpv6HeaderIncomplete | icmpIpv6NonV6
  | icmpIpv6UnhandledProtocol | icmpNoConnection | icmpFlushedConnection
  | headerIncomplete | nonV6 | nonInitialFragment | datagramIncomplete | unhandledProtocol
  | clonedSkbUnshareError
  deriving DecidableEq

/-! ### Packets -/

/-- The half word at an offset, as it is loaded. -/
def half (bytes : Nat → Byte) (i : Nat) : BitVec 16 := bytes (i + 1) ++ bytes i

/-- The word at an offset, as it is loaded. -/
def word (bytes : Nat → Byte) (i : Nat) : Word := half bytes (i + 2) ++ half bytes i

def addrAt (bytes : Nat → Byte) (i : Nat) : Addr :=
  { w0 := word bytes i, w1 := word bytes (i + 4), w2 := word bytes (i + 8), w3 := word bytes (i + 12) }

/-- An skb, as received: its bytes from the IPv6 header on. `pskb_may_pull` gets up to `pulled` of them. -/
structure Packet where
  len : Nat
  pulled : Nat
  bytes : Nat → Byte
  checksumPartial : Bool
  gso : Bool
  cloned : Bool
  unshareFails : Bool

section Headers

variable (bytes : Nat → Byte) (off : Nat)

/-- The fields of an IPv6 header at an offset. -/
def version : BitVec 4 := (bytes off).extractLsb' 4 4

def payloadLen : BitVec 16 := half bytes (off + 4)

def nexthdr : Byte := bytes (off + 6)

def hopLimit : Byte := bytes (off + 7)

def saddr : Addr := addrAt bytes (off + 8)

def daddr : Addr := addrAt bytes (off + 24)

/-- The ports of a UDP or TCP header at an offset. -/
def source : Port := half bytes off

def dest : Port := half bytes (off + 2)

/-- The TCP header at an offset. -/
def tcpHdr : TcpHdr :=
  { seq := word bytes (off + 4)
    ackSeq := word bytes (off + 8)
    doff := (bytes (off + 12)).extractLsb' 4 4
    fin := (bytes (off + 13)).getLsbD 0
    syn := (bytes (off + 13)).getLsbD 1
    rst := (bytes (off + 13)).getLsbD 2
    ack := (bytes (off + 13)).getLsbD 4
    window := half bytes (off + 14)
    bytes := fun i => bytes (off + i) }

/-- The checksum field of a UDP or TCP header at an offset. -/
def check (udp : Bool) : BitVec 16 := if udp then half bytes (off + 6) else half bytes (off + 16)

end Headers

/-- The addresses of a packet and the ports of its transport header. -/
def Packet.tuple (p : Packet) (ihl : Nat) : Tuple :=
  { srcIp := saddr p.bytes 0
    srcPort := source p.bytes ihl
    destIp := daddr p.bytes 0
    destPort := dest p.bytes ihl }

/-! ### Extension headers -/

def extHdrHop : Byte := 0

def extHdrRouting : Byte := 43

def extHdrFrag : Byte := 44

def extHdrAh : Byte := 51

def extHdrDst : Byte := 60

def extHdrMh : Byte := 135

def ipprotoIcmpv6 : Byte := 58

/-- `sfe_ipv6_is_ext_hdr` -/
def isExtHdr (hdr : Byte) : Bool :=
  hdr = extHdrHop || hdr = extHdrRouting || hdr = extHdrFrag || hdr = extHdrAh || hdr = extHdrDst ||
    hdr = extHdrMh

/-- The offset bits of a fragment header. -/
def fragOffset (bytes : Nat → Byte) (ihl : Nat) : BitVec 16 := ntohs (half bytes (ihl + 2)) &&& 0xfff8

/-- The length that the engine takes an extension header to have. -/
def extHdrLen (bytes : Nat → Byte) (ihl : Nat) : Nat := (bytes (ihl + 1)).toNat * 8 + 8

/-- The loop of `sfe_ipv6_recv` and `sfe_ipv6_recv_icmp` over the extension headers: the type and the
offset of the header after them. -/
def extHdrLoop (bytes : Nat → Byte) (pulled : Nat) (nextHdr : Byte) (ihl : Nat) :
    Except Exception (Byte × Nat) :=
  if isExtHdr nextHdr then
    if nextHdr = extHdrFrag ∧ fragOffset bytes ihl ≠ 0 then .error .nonInitialFragment
    else if pulled < ihl + extHdrLen bytes ihl + 8 then .error .headerIncomplete
    else extHdrLoop bytes pulled (bytes ihl) (ihl + extHdrLen bytes ihl)
  else .ok (nextHdr, ihl)
termination_by pulled - ihl
decreasing_by
  rw [extHdrLen] at *
  omega

/-! ### Matches -/

/-- The characteristics that identify the flow of a match. -/
@[ext]
structure Key where
  dev : Dev
  protocol : Byte
  tuple : Tuple
  deriving DecidableEq

/-- A connection match, less its list pointers and the state that packets change. `connection` and
`counterMatch` are pointers. -/
structure Match where
  connection : Nat
  counterMatch : Nat
  key : Key
  xlate : Tuple
  xlateSrc : Bool
  xlateDest : Bool
  writeFastEthHdr : Bool
  writeL2Hdr : Bool
  priorityRemark : Bool
  dscpRemark : Bool
  flowAccel : Bool
  xlateSrcCsumAdjustment : BitVec 16
  xlateDestCsumAdjustment : BitVec 16
  priority : Word
  dscp : Word
  xmitDev : Dev
  xmitDevMtu : BitVec 16
  xmitDestMac : Mac
  xmitSrcMac : Mac

/-! ### Checksums -/

/-- The words that are summed up for an adjustment. The two ports stand in one word. -/
def diff (ip : Addr) (port : Port) (xlateIp : Addr) (xlatePort : Port) : List Word :=
  ip.words ++ [~~~xlatePort ++ port] ++ xlateIp.words.map fun w => ~~~w

/-- One turn of the loop that sums up the words: the sum so far and the carry to be added. -/
def addWord (acc : Word × Word) (w : Word) : Word × Word :=
  let adj := acc.1 + acc.2 + w
  (adj, if adj < w then 1 else 0)

/-- The loop that sums up the words, with the last carry. -/
def sumWords (words : List Word) : Word :=
  let acc := words.foldl addWord (0, 0)
  acc.1 + acc.2

/-- The adjustment of a transport checksum when an address and a port are replaced. -/
def csumAdjustment (ip : Addr) (port : Port) (xlateIp : Addr) (xlatePort : Port) : BitVec 16 :=
  (fold (fold (sumWords (diff ip port xlateIp xlatePort)))).setWidth 16

/-- `sfe_ipv6_connection_match_compute_translations` -/
def Match.computeTranslations (cm : Match) : Match :=
  let cm := if cm.xlateSrc then
      { cm with
        xlateSrcCsumAdjustment :=
          csumAdjustment cm.key.tuple.srcIp cm.key.tuple.srcPort cm.xlate.srcIp cm.xlate.srcPort }
    else cm
  if cm.xlateDest then
    { cm with
      xlateDestCsumAdjustment :=
        csumAdjustment cm.key.tuple.destIp cm.key.tuple.destPort cm.xlate.destIp cm.xlate.destPort }
  else cm

/-! ### Forwarding -/

/-- What is handed to the transmit device, less the bytes that are not touched. `traffic` is the half word
with the version, the traffic class and the beginning of the flow label. -/
structure Sent where
  dev : Dev
  traffic : BitVec 16
  hopLimit : Byte
  saddr : Addr
  daddr : Addr
  source : Port
  dest : Port
  check : BitVec 16
  header : Option (Mac × Mac)
  priority : Option Word
  mark : Word

def Sent.tuple (p : Sent) : Tuple :=
  { srcIp := p.saddr, srcPort := p.source, destIp := p.daddr, destPort := p.dest }

/-- `sfe_ipv6_change_dsfield` -/
def changeDsfield (traffic : BitVec 16) (dscp : Byte) : BitVec 16 :=
  (traffic &&& ntohs 0xf03f) ||| ntohs (dscp.setWidth 16 <<< 4)

/-- The part of `sfe_ipv6_recv_udp` and `sfe_ipv6_recv_tcp` that edits the packet. -/
def Match.forward (cm : Match) (udp : Bool) (mark : Word) (p : Packet) (ihl : Nat) : Sent :=
  let traffic := half p.bytes 0
  let traffic := if cm.dscpRemark then changeDsfield traffic (cm.dscp.setWidth 8) else traffic
  let t := p.tuple ihl
  let (srcIp, srcPort, sum) := if cm.xlateSrc then
      (cm.xlate.srcIp, cm.xlate.srcPort,
        Sfe.adjustCheck udp (check p.bytes ihl udp) cm.xlateSrcCsumAdjustment)
    else (t.srcIp, t.srcPort, check p.bytes ihl udp)
  let (destIp, destPort, sum) := if cm.xlateDest then
      (cm.xlate.destIp, cm.xlate.destPort, Sfe.adjustCheck udp sum cm.xlateDestCsumAdjustment)
    else (t.destIp, t.destPort, sum)
  { dev := cm.xmitDev
    traffic
    hopLimit := hopLimit p.bytes 0 - 1
    saddr := srcIp
    daddr := destIp
    source := srcPort
    dest := destPort
    check := sum
    header := if cm.writeL2Hdr then some (cm.xmitDestMac, cm.xmitSrcMac) else none
    priority := if cm.priorityRemark then some cm.priority else none
    mark }

/-- The window check of `sfe_ipv6_recv_tcp`: the new state of the match and of its counter match, or the
event for which the connection is flushed. -/
def tcpWindow (cm counter : TcpState) (h : TcpHdr) (len : Nat) : Except Exception (TcpState × TcpState) :=
  if cm.noSeqCheck then .ok (cm, counter)
  else
    let seq := ntohl h.seq
    if after seq (cm.maxEnd + 1) then .error .tcpSeqExceedsRightEdge
    else
      let dataOffs := h.doff.toNat * 4
      if dataOffs < 20 then .error .tcpSmallDataOffs
      else
        let ack := ntohl h.ackSeq
        match processTcpOptionSack h.bytes dataOffs ack with
        | none => .error .tcpBadSack
        | some sack =>
            let dataOffs := dataOffs + 40
            if len < dataOffs then .error .tcpBigDataOffs
            else
              let endSeq := seq + BitVec.ofNat 32 len - BitVec.ofNat 32 dataOffs
              if before endSeq (cm.endSeq - counter.maxWin - 1) then .error .tcpSeqBeforeLeftEdge
              else if after sack (counter.endSeq + 1) then .error .tcpAckExceedsRightEdge
              else if before sack (counter.endSeq - cm.maxWin - maxAckWindow - 1) then
                .error .tcpAckBeforeLeftEdge
              else
                let scaledWin := ((ntohs h.window).setWidth 32 <<< cm.winScale.toNat) + (sack - ack)
                let maxEnd := sack + scaledWin
                .ok ({ cm with
                        maxWin := if cm.maxWin < scaledWin then scaledWin else cm.maxWin
                        endSeq := if before endSeq cm.endSeq then cm.endSeq else endSeq },
                     { counter with
                        maxEnd := if before maxEnd counter.maxEnd then counter.maxEnd else maxEnd })

end Immwrt.Sfe6
