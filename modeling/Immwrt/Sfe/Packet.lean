import Immwrt.Lib.Bytes

/-!
# What a forwarding rule does to a packet

Shortcut-FE forwards the packets of known connections past the network stack. A match describes one
direction of a connection: the packets it applies to, and the addresses and ports they leave with. This
module has the part of the engine that looks at one packet and one match: the TCP window check, the
translation, and the checksums.
-/

namespace Immwrt.Sfe

/-- A pointer to a network device. -/
abbrev Dev := BitVec 64

abbrev Ip := BitVec 32

abbrev Port := BitVec 16

abbrev Mac := BitVec 48

/-- Addresses and ports, as they stand in the headers. -/
@[ext]
structure Tuple where
  srcIp : Ip
  srcPort : Port
  destIp : Ip
  destPort : Port
  deriving DecidableEq

def Tuple.swap (t : Tuple) : Tuple :=
  { srcIp := t.destIp, srcPort := t.destPort, destIp := t.srcIp, destPort := t.srcPort }

def ipprotoIcmp : BitVec 8 := 1

def ipprotoTcp : BitVec 8 := 6

def ipprotoUdp : BitVec 8 := 17

def ntohs (x : BitVec 16) : BitVec 16 := x.extractLsb' 0 8 ++ x.extractLsb' 8 8

def ntohl (x : BitVec 32) : BitVec 32 := ntohs (x.extractLsb' 0 16) ++ ntohs (x.extractLsb' 16 16)

inductive Exception where
  | udpHeaderIncomplete | udpNoConnection | udpIpOptionsOrInitialFragment | udpSmallTtl
  | udpNeedsFragmentation
  | tcpHeaderIncomplete | tcpNoConnectionSlowFlags | tcpNoConnectionFastFlags
  | tcpIpOptionsOrInitialFragment | tcpSmallTtl | tcpNeedsFragmentation | tcpFlags
  | tcpSeqExceedsRightEdge | tcpSmallDataOffs | tcpBadSack | tcpBigDataOffs | tcpSeqBeforeLeftEdge
  | tcpAckExceedsRightEdge | tcpAckBeforeLeftEdge
  | icmpHeaderIncomplete | icmpUnhandledType | icmpIpv4HeaderIncomplete | icmpIpv4NonV4
  | icmpIpv4IpOptionsIncomplete | icmpIpv4UdpHeaderIncomplete | icmpIpv4TcpHeaderIncomplete
  | icmpIpv4UnhandledProtocol | icmpNoConnection | icmpFlushedConnection
  | headerIncomplete | badTotalLength | nonV4 | nonInitialFragment | datagramIncomplete
  | ipOptionsIncomplete | unhandledProtocol | clonedSkbUnshareError
  deriving DecidableEq

/-! ### Packets -/

/-- An IPv4 header; its fields stand as they are in memory, in network order. -/
structure IpHdr where
  ihl : BitVec 4
  version : BitVec 4
  tos : BitVec 8
  totLen : BitVec 16
  id : BitVec 16
  fragOff : BitVec 16
  ttl : BitVec 8
  protocol : BitVec 8
  check : BitVec 16
  saddr : Ip
  daddr : Ip

/-- The TCP fields behind the ports, in network order. `bytes` are the bytes from the start of the TCP
header on. -/
structure TcpHdr where
  seq : Word
  ackSeq : Word
  doff : BitVec 4
  syn : Bool
  rst : Bool
  fin : Bool
  ack : Bool
  window : BitVec 16
  bytes : Nat → Byte

/-- An ICMP message and the packet it quotes. -/
structure IcmpHdr where
  type : BitVec 8
  ihl : BitVec 4
  version : BitVec 4
  protocol : BitVec 8
  saddr : Ip
  daddr : Ip
  source : Port
  dest : Port

/-- An skb, as received. `pskb_may_pull` gets up to `pulled` bytes. The header fields are what the code
finds where it looks for them; which of them it looks at depends on the protocol. -/
structure Packet where
  len : Nat
  pulled : Nat
  ip : IpHdr
  source : Port
  dest : Port
  check : BitVec 16
  tcp : TcpHdr
  icmp : IcmpHdr
  checksumPartial : Bool
  gso : Bool
  cloned : Bool
  unshareFails : Bool

def Packet.tuple (p : Packet) : Tuple :=
  { srcIp := p.ip.saddr, srcPort := p.source, destIp := p.ip.daddr, destPort := p.dest }

/-- What is handed to the transmit device. -/
structure Sent where
  dev : Dev
  ip : IpHdr
  source : Port
  dest : Port
  check : BitVec 16
  header : Option (Mac × Mac)
  priority : Option Word
  mark : Word

def Sent.tuple (p : Sent) : Tuple :=
  { srcIp := p.ip.saddr, srcPort := p.source, destIp := p.ip.daddr, destPort := p.dest }

/-! ### Matches -/

/-- The characteristics that identify the flow of a match. -/
@[ext]
structure Key where
  dev : Dev
  protocol : BitVec 8
  tuple : Tuple
  deriving DecidableEq

/-- A connection match, less its list pointers and the state that packets change. `connection` and
`counterMatch` are pointers. -/
structure Match where
  connection : Nat
  counterMatch : Nat
  key : Key
  xlate : Tuple
  xlateSrc : Bool
  xlateDest : Bool
  writeFastEthHdr : Bool
  writeL2Hdr : Bool
  priorityRemark : Bool
  dscpRemark : Bool
  flowAccel : Bool
  xlateSrcCsumAdjustment : BitVec 16
  xlateSrcPartialCsumAdjustment : BitVec 16
  xlateDestCsumAdjustment : BitVec 16
  xlateDestPartialCsumAdjustment : BitVec 16
  priority : Word
  dscp : Word
  xmitDev : Dev
  xmitDevMtu : BitVec 16
  xmitDestMac : Mac
  xmitSrcMac : Mac

/-- The TCP state of a match, with its flag `NO_SEQ_CHECK`. -/
structure TcpState where
  winScale : BitVec 8
  maxWin : Word
  endSeq : Word
  maxEnd : Word
  noSeqCheck : Bool

/-! ### Checksums -/

/-- One folding of a 32-bit sum to ones-complement form. -/
def fold (sum : Word) : Word := (sum &&& 0xffff) + (sum >>> 16)

def hi (x : Word) : Word := x >>> 16

def lo (x : Word) : Word := x &&& 0xffff

/-- The adjustment of a transport checksum when an address and a port are replaced. -/
def csumAdjustment (ip : Ip) (port : Port) (xlateIp : Ip) (xlatePort : Port) : BitVec 16 :=
  (fold (fold (hi ip + lo ip + port.setWidth 32 + hi (~~~xlateIp) + lo (~~~xlateIp) +
    (~~~xlatePort).setWidth 32))).setWidth 16

/-- The adjustment of a pseudo header sum when an address is replaced. -/
def partialCsumAdjustment (ip xlateIp : Ip) : BitVec 16 :=
  let adj := ~~~ip + xlateIp
  let adj := if adj < xlateIp then adj + 1 else adj
  (fold (fold adj)).setWidth 16

/-- `sfe_ipv4_connection_match_compute_translations` -/
def Match.computeTranslations (cm : Match) : Match :=
  let cm := if cm.xlateSrc then
      { cm with
        xlateSrcCsumAdjustment :=
          csumAdjustment cm.key.tuple.srcIp cm.key.tuple.srcPort cm.xlate.srcIp cm.xlate.srcPort
        xlateSrcPartialCsumAdjustment := partialCsumAdjustment cm.key.tuple.srcIp cm.xlate.srcIp }
    else cm
  if cm.xlateDest then
    { cm with
      xlateDestCsumAdjustment :=
        csumAdjustment cm.key.tuple.destIp cm.key.tuple.destPort cm.xlate.destIp cm.xlate.destPort
      xlateDestPartialCsumAdjustment := partialCsumAdjustment cm.key.tuple.destIp cm.xlate.destIp }
  else cm

/-- The 16-bit words of an IP header without options, the checksum taken as 0. -/
def IpHdr.words (h : IpHdr) : List (BitVec 16) :=
  [h.tos ++ (h.version ++ h.ihl), h.totLen, h.id, h.fragOff, h.protocol ++ h.ttl, 0,
    h.saddr.setWidth 16, (h.saddr >>> 16).setWidth 16, h.daddr.setWidth 16, (h.daddr >>> 16).setWidth 16]

/-- `sfe_ipv4_gen_ip_csum` -/
def genIpCsum (h : IpHdr) : BitVec 16 :=
  (fold (fold (h.words.foldl (fun sum w => sum + w.setWidth 32) 0))).setWidth 16 ^^^ 0xffff

/-- The transport checksum after an adjustment. A UDP checksum of 0 is none, and stays. -/
def adjustCheck (udp : Bool) (check adjustment : BitVec 16) : BitVec 16 :=
  if udp ∧ check = 0 then check
  else (fold (check.setWidth 32 + adjustment.setWidth 32)).setWidth 16

/-! ### Forwarding -/

/-- The part of `sfe_ipv4_recv_udp` and `sfe_ipv4_recv_tcp` that edits the packet. -/
def Match.forward (cm : Match) (udp : Bool) (mark : Word) (p : Packet) : Sent :=
  let tos := if cm.dscpRemark then (p.ip.tos &&& 0x3) ||| cm.dscp.setWidth 8 else p.ip.tos
  let ip := { p.ip with tos, ttl := p.ip.ttl - 1 }
  let srcAdjustment :=
    if p.checksumPartial then cm.xlateSrcPartialCsumAdjustment else cm.xlateSrcCsumAdjustment
  let destAdjustment :=
    if p.checksumPartial then cm.xlateDestPartialCsumAdjustment else cm.xlateDestCsumAdjustment
  let (ip, source, check) := if cm.xlateSrc then
      ({ ip with saddr := cm.xlate.srcIp }, cm.xlate.srcPort, adjustCheck udp p.check srcAdjustment)
    else (ip, p.source, p.check)
  let (ip, dest, check) := if cm.xlateDest then
      ({ ip with daddr := cm.xlate.destIp }, cm.xlate.destPort, adjustCheck udp check destAdjustment)
    else (ip, p.dest, check)
  { dev := cm.xmitDev
    ip := { ip with check := genIpCsum ip }
    source
    dest
    check
    header := if cm.writeL2Hdr then some (cm.xmitDestMac, cm.xmitSrcMac) else none
    priority := if cm.priorityRemark then some cm.priority else none
    mark }

/-! ### The TCP window -/

/-- The largest right edge of the blocks of a SACK option of `size` bytes at `ptr`, from its byte `re`
on. -/
def sackEdge (bytes : Nat → Byte) (ptr size re : Nat) (sack : Word) : Word :=
  if re < size then
    let edge : Word := bytes (ptr + re) ++ bytes (ptr + re + 1) ++ bytes (ptr + re + 2) ++ bytes (ptr + re + 3)
    sackEdge bytes ptr size (re + 8) (if sack < edge then edge else sack)
  else sack
termination_by size - re

/-- The loop of `sfe_ipv4_process_tcp_option_sack` over the options. -/
def optionLoop (bytes : Nat → Byte) (dataOffs length : Nat) (ack : Word) : Option Word :=
  if length < dataOffs then
    if bytes length = 1 then optionLoop bytes dataOffs (length + 1) ack
    else if bytes length = 5 then
      let size := (bytes (length + 1)).toNat
      if size < 10 ∨ (size - 2) % 8 ≠ 0 ∨ dataOffs - length < size then none
      else
        let sack := sackEdge bytes length size 6 0
        optionLoop bytes dataOffs (length + size) (if ack < sack then sack else ack)
    else if bytes length = 0 then some ack
    else
      let size := (bytes (length + 1)).toNat
      if size < 2 then none else optionLoop bytes dataOffs (length + size) ack
  else some ack
termination_by dataOffs - length
decreasing_by all_goals omega

/-- `sfe_ipv4_process_tcp_option_sack`: the acknowledgment with any SACK taken into account, `none` for
an option that is not well formed. -/
def processTcpOptionSack (bytes : Nat → Byte) (dataOffs : Nat) (ack : Word) : Option Word :=
  if dataOffs = 32 ∧ bytes 20 = 1 ∧ bytes 21 = 1 ∧ bytes 22 = 8 ∧ bytes 23 = 10 then some ack
  else optionLoop bytes dataOffs 20 ack

/-- `(s32)(x - y) > 0` -/
def after (x y : Word) : Bool := 0 < (x - y).toInt

/-- `(s32)(x - y) < 0` -/
def before (x y : Word) : Bool := (x - y).toInt < 0

def maxAckWindow : Word := 65520

/-- The window check of `sfe_ipv4_recv_tcp`: the new state of the match and of its counter match, or the
event for which the connection is flushed. -/
def tcpWindow (cm counter : TcpState) (h : TcpHdr) (len : Nat) : Except Exception (TcpState × TcpState) :=
  if cm.noSeqCheck then .ok (cm, counter)
  else
    let seq := ntohl h.seq
    if after seq (cm.maxEnd + 1) then .error .tcpSeqExceedsRightEdge
    else
      let dataOffs := h.doff.toNat * 4
      if dataOffs < 20 then .error .tcpSmallDataOffs
      else
        let ack := ntohl h.ackSeq
        match processTcpOptionSack h.bytes dataOffs ack with
        | none => .error .tcpBadSack
        | some sack =>
            let dataOffs := dataOffs + 20
            if len < dataOffs then .error .tcpBigDataOffs
            else
              let endSeq := seq + BitVec.ofNat 32 len - BitVec.ofNat 32 dataOffs
              if before endSeq (cm.endSeq - counter.maxWin - 1) then .error .tcpSeqBeforeLeftEdge
              else if after sack (counter.endSeq + 1) then .error .tcpAckExceedsRightEdge
              else if before sack (counter.endSeq - cm.maxWin - maxAckWindow - 1) then
                .error .tcpAckBeforeLeftEdge
              else
                let scaledWin := ((ntohs h.window).setWidth 32 <<< cm.winScale.toNat) + (sack - ack)
                let maxEnd := sack + scaledWin
                .ok ({ cm with
                        maxWin := if cm.maxWin < scaledWin then scaledWin else cm.maxWin
                        endSeq := if before endSeq cm.endSeq then cm.endSeq else endSeq },
                     { counter with
                        maxEnd := if before maxEnd counter.maxEnd then counter.maxEnd else maxEnd })

end Immwrt.Sfe
