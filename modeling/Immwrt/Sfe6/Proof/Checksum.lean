import Immwrt.Sfe.Proof.Checksum
import Immwrt.Sfe6.Proof.Table

/-!
# Checksums over IPv6

The adjustment of a match stands for the old address and port less the new ones, as on the IPv4 side. But the
IPv6 side adds it to every checksum, also to one that the device is to complete, which covers the pseudo
header only.
-/

namespace Immwrt.Sfe6

open OnesComplement
open Sfe (Dev Port Residue residue residues ipWords ntohs ipprotoTcp ipprotoUdp)

/-! ### Adjustments -/

/-- The loop computes the ones-complement sum of its words. -/
theorem sumWords_eq (words : List Word) : sumWords words = onesSum words :=
  foldl_addDeferred words (0, 0)

theorem residue_sumWords (words : List Word) : residue (sumWords words) = (words.map residue).sum := by
  rw [sumWords_eq]
  exact cast_onesSum Sfe.two_pow_32 words

/-- The half words of an address, as they are summed. -/
def Addr.halves (a : Addr) : List (BitVec 16) := a.words.flatMap ipWords

def Addr.residue (a : Addr) : Residue := residues a.halves

theorem Addr.residue_eq (a : Addr) : a.residue = (a.words.map Sfe.residue).sum := by
  simp only [Addr.residue, Addr.halves, Addr.words, List.flatMap_cons, List.flatMap_nil, Sfe.residues_append,
    Sfe.residues_ipWords, List.map_cons, List.map_nil, List.sum_cons, List.sum_nil]
  simp [residues]

theorem sum_residue_not (words : List Word) :
    ((words.map fun w => ~~~w).map Sfe.residue).sum = - (words.map Sfe.residue).sum := by
  induction words with
  | nil => simp
  | cons w words ih =>
    have hnot : Sfe.residue (~~~w) = - Sfe.residue w := cast_not Sfe.two_pow_32 w
    rw [List.map_cons, List.map_cons, List.sum_cons, ih, hnot, List.map_cons, List.sum_cons]
    ring

theorem residue_ports (port xlatePort : Port) :
    residue (~~~xlatePort ++ port) = residue port - residue xlatePort := by
  have hnot : residue (~~~xlatePort) = - residue xlatePort := cast_not Sfe.two_pow_16 xlatePort
  have hsplit : (~~~xlatePort ++ port).toNat = 2 ^ 16 * (~~~xlatePort).toNat + port.toNat := by
    rw [BitVec.toNat_append, Nat.shiftLeft_eq, Nat.mul_comm]
    exact (Nat.two_pow_add_eq_or_of_lt port.isLt _).symm
  calc residue (~~~xlatePort ++ port) = residue (~~~xlatePort) + residue port := Sfe.residue_eq_of_split hsplit
    _ = residue port - residue xlatePort := by
      rw [hnot]
      ring

/-- The checksum adjustment stands for the old address and port less the new ones. -/
theorem residue_csumAdjustment6 (ip : Addr) (port : Port) (xlateIp : Addr) (xlatePort : Port) :
    residue (csumAdjustment ip port xlateIp xlatePort)
      = ip.residue + residue port - xlateIp.residue - residue xlatePort := by
  rw [csumAdjustment, Sfe.residue_fold_fold, residue_sumWords, diff, List.map_append, List.map_append,
    List.sum_append, List.sum_append, sum_residue_not, ← Addr.residue_eq, ← Addr.residue_eq, List.map_cons,
    List.map_nil, List.sum_cons, List.sum_nil, residue_ports]
  ring

/-! ### A match and its adjustments -/

/-- The adjustments of a match are those of its translations. -/
structure Match.Adjusted (cm : Match) : Prop where
  src : cm.xlateSrc = true → cm.xlateSrcCsumAdjustment =
    csumAdjustment cm.key.tuple.srcIp cm.key.tuple.srcPort cm.xlate.srcIp cm.xlate.srcPort
  dest : cm.xlateDest = true → cm.xlateDestCsumAdjustment =
    csumAdjustment cm.key.tuple.destIp cm.key.tuple.destPort cm.xlate.destIp cm.xlate.destPort

theorem adjusted_computeTranslations (cm : Match) : cm.computeTranslations.Adjusted := by
  obtain ⟨-, -, -, -, hsrc, hdest, -⟩ := computeTranslations_eq cm
  constructor
  · intro h
    rw [hsrc] at h
    cases hxlate : cm.xlateDest with
    | false => simp [Match.computeTranslations, h, hxlate]
    | true => simp [Match.computeTranslations, h, hxlate]
  · intro h
    rw [hdest] at h
    cases hxlate : cm.xlateSrc with
    | false => simp [Match.computeTranslations, h, hxlate]
    | true => simp [Match.computeTranslations, h, hxlate]

theorem Inv.adjusted {t : Table} (h : Inv t) {m : Nat} (hm : m ∈ t.matchSet) : (t.info m).Adjusted := by
  obtain ⟨hc, hmatch⟩ := h.owner hm
  obtain ⟨r, hmade⟩ := h.made _ hc
  rcases hmatch with heq | heq
  · rw [heq, hmade.original]
    exact adjusted_computeTranslations _
  · rw [heq, hmade.reply]
    exact adjusted_computeTranslations _

/-! ### What a right checksum is -/

/-- The half words of the pseudo header. -/
def pseudoWords (t : Tuple) (protocol : Byte) (length : Word) : List (BitVec 16) :=
  t.srcIp.halves ++ t.destIp.halves ++ ipWords length ++ [0, ntohs (protocol.setWidth 16)]

/-- The checksum field `check` of a segment with these addresses and ports, whose other half words are
`rest`, is there and right: the sum over pseudo header and segment is all ones, or, if the sum is left to the
device, the field has the sum of the pseudo header. -/
structure ChecksumValid (checksumPartial : Bool) (t : Tuple) (protocol : Byte) (check : BitVec 16) (length : Word)
    (rest : List (BitVec 16)) : Prop where
  there : protocol = ipprotoUdp → check ≠ 0
  sum : if checksumPartial then
      check.toNat ≡ ((pseudoWords t protocol length).map BitVec.toNat).sum [MOD 2 ^ 16 - 1]
    else
      onesSum (pseudoWords t protocol length ++ t.srcPort :: t.destPort :: check :: rest) = BitVec.allOnes 16

/-- What a full checksum covers of the addresses and ports. -/
def Tuple.covered (t : Tuple) : Residue :=
  t.srcIp.residue + t.destIp.residue + residue t.srcPort + residue t.destPort

/-- What a checksum to be completed covers. -/
def Tuple.coveredPartial (t : Tuple) : Residue := t.srcIp.residue + t.destIp.residue

theorem residues_pseudoWords6 (t : Tuple) (protocol : Byte) (length : Word) :
    residues (pseudoWords t protocol length)
      = t.coveredPartial + residue length + residue (ntohs (protocol.setWidth 16)) := by
  rw [pseudoWords, Sfe.residues_append, Sfe.residues_append, Sfe.residues_append, Sfe.residues_ipWords]
  have hzero : residue (0 : BitVec 16) = 0 := by simp [residue]
  have hlast : residues [0, ntohs (protocol.setWidth 16)] = residue (ntohs (protocol.setWidth 16)) := by
    rw [residues, List.map_cons, List.map_cons, List.map_nil, List.sum_cons, List.sum_cons, List.sum_nil, hzero]
    ring
  rw [hlast]
  rfl

section Valid

variable {t : Tuple} {protocol : Byte} {check : BitVec 16} {length : Word} {rest : List (BitVec 16)}

theorem sum_partial_iff :
    check.toNat ≡ ((pseudoWords t protocol length).map BitVec.toNat).sum [MOD 2 ^ 16 - 1] ↔
      residue check = t.coveredPartial + residue length + residue (ntohs (protocol.setWidth 16)) := by
  rw [← ZMod.natCast_eq_natCast_iff, Sfe.cast_sum_toNat, residues_pseudoWords6]
  rfl

theorem sum_full_iff (hprotocol : ntohs (protocol.setWidth 16) ≠ 0) :
    onesSum (pseudoWords t protocol length ++ t.srcPort :: t.destPort :: check :: rest) = BitVec.allOnes 16 ↔
      residue check + t.covered
        = - (residue length + residue (ntohs (protocol.setWidth 16)) + residues rest) := by
  have hmem : ∃ y ∈ pseudoWords t protocol length ++ t.srcPort :: t.destPort :: check :: rest, y ≠ 0 :=
    ⟨_, by simp [pseudoWords], hprotocol⟩
  rw [onesSum_eq_allOnes (by decide), and_iff_left hmem]
  change residues _ = 0 ↔ _
  have hrest : residues (t.srcPort :: t.destPort :: check :: rest)
      = residue t.srcPort + residue t.destPort + residue check + residues rest := by
    simp only [residues, List.map_cons, List.sum_cons]
    ring
  rw [Sfe.residues_append, residues_pseudoWords6, hrest, Tuple.covered, Tuple.coveredPartial]
  constructor
  · intro h
    linear_combination h
  · intro h
    linear_combination h

end Valid

/-! ### Forwarding -/

/-- The checksum field that a match leaves. -/
theorem Match.forward_check6 (cm : Match) (udp : Bool) (mark : Word) (p : Packet) (ihl : Nat) :
    (cm.forward udp mark p ihl).check =
      let sum := check p.bytes ihl udp
      let sum := if cm.xlateSrc then Sfe.adjustCheck udp sum cm.xlateSrcCsumAdjustment else sum
      if cm.xlateDest then Sfe.adjustCheck udp sum cm.xlateDestCsumAdjustment else sum := by
  rw [Match.forward]
  cases cm.xlateSrc with
  | true =>
    cases cm.xlateDest with
    | true => rfl
    | false => rfl
  | false =>
    cases cm.xlateDest with
    | true => rfl
    | false => rfl

theorem Match.forward_tuple6 (cm : Match) (udp : Bool) (mark : Word) (p : Packet) (ihl : Nat) :
    (cm.forward udp mark p ihl).tuple =
      { srcIp := if cm.xlateSrc then cm.xlate.srcIp else (p.tuple ihl).srcIp
        srcPort := if cm.xlateSrc then cm.xlate.srcPort else (p.tuple ihl).srcPort
        destIp := if cm.xlateDest then cm.xlate.destIp else (p.tuple ihl).destIp
        destPort := if cm.xlateDest then cm.xlate.destPort else (p.tuple ihl).destPort } := by
  rw [Match.forward]
  cases cm.xlateSrc with
  | true =>
    cases cm.xlateDest with
    | true => rfl
    | false => rfl
  | false =>
    cases cm.xlateDest with
    | true => rfl
    | false => rfl

/-- One translation: what the checksum loses, the new address and port make up for. -/
theorem residue_translated6 (xlate : Bool) (ip xip : Addr) (port xport : Port) {udp : Bool}
    {check adjustment : BitVec 16} (h : udp = true → check ≠ 0)
    (hadj : xlate = true → adjustment = csumAdjustment ip port xip xport) :
    let check' := if xlate then Sfe.adjustCheck udp check adjustment else check
    let ip' := if xlate then xip else ip
    let port' := if xlate then xport else port
    (check ≠ 0 → check' ≠ 0) ∧
    residue check' + ip'.residue + residue port' = residue check + ip.residue + residue port := by
  cases xlate with
  | false => exact ⟨id, rfl⟩
  | true =>
    obtain ⟨hresidue, hne⟩ := Sfe.adjustCheck_spec h adjustment
    simp only [if_true]
    refine ⟨hne, ?_⟩
    rw [hresidue, hadj rfl, residue_csumAdjustment6]
    ring

theorem Match.Adjusted.forward_covered6 {cm : Match} (h : cm.Adjusted) {udp : Bool} (mark : Word) {p : Packet}
    {ihl : Nat} (hkey : cm.key.tuple = p.tuple ihl) (hcheck : udp = true → check p.bytes ihl udp ≠ 0) :
    (check p.bytes ihl udp ≠ 0 → (cm.forward udp mark p ihl).check ≠ 0) ∧
    residue (cm.forward udp mark p ihl).check + (cm.forward udp mark p ihl).tuple.covered
      = residue (check p.bytes ihl udp) + (p.tuple ihl).covered := by
  have hsrc := h.src
  have hdest := h.dest
  rw [hkey] at hsrc hdest
  rw [Match.forward_check6, Match.forward_tuple6]
  dsimp only
  obtain ⟨hne, hcovered⟩ := residue_translated6 cm.xlateSrc (p.tuple ihl).srcIp cm.xlate.srcIp
    (p.tuple ihl).srcPort cm.xlate.srcPort hcheck hsrc
  set sum := if cm.xlateSrc then Sfe.adjustCheck udp (check p.bytes ihl udp) cm.xlateSrcCsumAdjustment
    else check p.bytes ihl udp
  obtain ⟨hne', hcovered'⟩ := residue_translated6 cm.xlateDest (p.tuple ihl).destIp cm.xlate.destIp
    (p.tuple ihl).destPort cm.xlate.destPort (fun hudp => hne (hcheck hudp)) hdest
  refine ⟨fun h => hne' (hne h), ?_⟩
  rw [Tuple.covered, Tuple.covered]
  linear_combination hcovered + hcovered'

/-! ### Received packets -/

section Recv

variable {s : Engine} {dev : Dev} {p : Packet} {sent : Sent}

theorem forward_sent6 {cm : Nat} {udp : Bool} {ihl : Nat} (h : (s.forward cm udp p ihl).2 = some sent) :
    ∃ mark, sent = (s.info cm).forward udp mark p ihl := by
  rw [Engine.forward] at h
  split at h
  · exact absurd h (by simp)
  · exact ⟨_, (Option.some.inj h).symm⟩

theorem find_info (s : Engine) (k : Key) : (s.findConnectionMatch k).1.info = s.info := by
  rw [Engine.findConnectionMatch]
  split
  · rfl
  split
  · rfl
  split
  · rfl
  · rfl

/-- What `sfe_ipv6_recv_udp` and `sfe_ipv6_recv_tcp` forward. -/
def Engine.Forwards (s : Engine) (dev : Dev) (p : Packet) (ihl : Nat) (protocol : Byte) (sent : Sent) : Prop :=
  ∃ cm mark, (s.findConnectionMatch { dev, protocol, tuple := p.tuple ihl }).2 = some cm ∧
    sent = (s.info cm).forward (protocol == ipprotoUdp) mark p ihl

theorem recvUdp_sent6 {ihl : Nat} {flushOnFind : Bool} (h : (s.recvUdp dev p ihl flushOnFind).2 = some sent) :
    flushOnFind = false ∧ s.Forwards dev p ihl ipprotoUdp sent := by
  have hinfo := find_info s { dev, protocol := ipprotoUdp, tuple := p.tuple ihl }
  rw [Engine.recvUdp] at h
  split at h
  · exact absurd h (by simp)
  split at h
  · exact absurd h (by simp)
  next s' cm hfind =>
  rw [hfind] at hinfo
  split at h
  · exact absurd h (by simp)
  next hflush =>
  iterate 3
    split at h
    · exact absurd h (by simp)
  obtain ⟨mark, hsent⟩ := forward_sent6 h
  rw [hinfo] at hsent
  exact ⟨by simpa using hflush, cm, mark, by rw [hfind], hsent⟩

theorem recvTcp_sent6 {ihl : Nat} {flushOnFind : Bool} (h : (s.recvTcp dev p ihl flushOnFind).2 = some sent) :
    flushOnFind = false ∧ s.Forwards dev p ihl ipprotoTcp sent := by
  have hinfo := find_info s { dev, protocol := ipprotoTcp, tuple := p.tuple ihl }
  rw [Engine.recvTcp] at h
  dsimp only at h
  split at h
  · exact absurd h (by simp)
  split at h
  · exact absurd h (by simp)
  next s' cm hfind =>
  rw [hfind] at hinfo
  split at h
  · exact absurd h (by simp)
  next hflush =>
  iterate 4
    split at h
    · exact absurd h (by simp)
  split at h
  · exact absurd h (by simp)
  obtain ⟨mark, hsent⟩ := forward_sent6 h
  rw [hinfo] at hsent
  exact ⟨by simpa using hflush, cm, mark, by rw [hfind], hsent⟩

/-- A packet that is forwarded is UDP or TCP without extension headers, and leaves as its match says. -/
theorem recv_forwards6 (h : (s.recv dev p).2 = some sent) :
    (nexthdr p.bytes 0 = ipprotoUdp ∨ nexthdr p.bytes 0 = ipprotoTcp) ∧
      s.Forwards dev p 40 (nexthdr p.bytes 0) sent := by
  rw [Engine.recv] at h
  iterate 3
    split at h
    · exact absurd h (by simp)
  by_cases hext : isExtHdr (nexthdr p.bytes 0) = true
  · rw [hext] at h
    split at h
    · exact absurd h (by simp)
    split at h
    · exact absurd (recvUdp_sent6 h).1 (by decide)
    split at h
    · exact absurd (recvTcp_sent6 h).1 (by decide)
    split at h
    · exact absurd h (by simp)
    · exact absurd h (by simp)
  · rw [extHdrLoop, if_neg hext] at h
    dsimp only at h
    split at h
    · next hudp => exact ⟨.inl hudp, hudp ▸ (recvUdp_sent6 h).2⟩
    split at h
    · next htcp => exact ⟨.inr htcp, htcp ▸ (recvTcp_sent6 h).2⟩
    split at h
    · exact absurd h (by simp)
    · exact absurd h (by simp)

/-- What an adjusted checksum that is to be completed depends on: the addresses twice, the ports once. -/
def Tuple.weight (t : Tuple) : Nat :=
  2 * ((t.srcIp.halves ++ t.destIp.halves).map BitVec.toNat).sum + t.srcPort.toNat + t.destPort.toNat

theorem cast_weight (t : Tuple) : (t.weight : Residue) = t.coveredPartial + t.covered := by
  rw [Tuple.weight, Nat.cast_add, Nat.cast_add, Nat.cast_mul, Sfe.cast_sum_toNat, Sfe.residues_append,
    Tuple.coveredPartial, Tuple.covered]
  simp only [Addr.residue, residue]
  push_cast
  ring

/-- What the engine looks up for a packet without extension headers. -/
def Packet.key (p : Packet) (dev : Dev) : Key := { dev, protocol := nexthdr p.bytes 0, tuple := p.tuple 40 }

/-- In every run, a packet with a valid checksum that is forwarded has a valid checksum afterwards, the loop
over the words having computed their ones-complement sum, if and only if the checksum is not one to be
completed or the old and the new addresses and ports happen to weigh the same. -/
theorem recv_checksum_iff {s₀ : Engine} (h : s₀.Initial) (steps : List Step)
    (hsent : ((s₀.run steps).recv dev p).2 = some sent) {cm : Nat}
    (hfind : ((s₀.run steps).findConnectionMatch (p.key dev)).2 = some cm) {length : Word}
    {rest : List (BitVec 16)}
    (hvalid : ChecksumValid p.checksumPartial (p.tuple 40) (nexthdr p.bytes 0)
      (check p.bytes 40 (nexthdr p.bytes 0 == ipprotoUdp)) length rest) :
    ((∀ words, sumWords words = onesSum words) ∧
      ChecksumValid p.checksumPartial sent.tuple (nexthdr p.bytes 0) sent.check length rest) ↔
    (p.checksumPartial = true →
      (p.tuple 40).weight ≡ ((s₀.run steps).info cm).xlate.weight [MOD 2 ^ 16 - 1]) := by
  have hinv := h.inv.run steps
  obtain ⟨hprotocol, cm', mark, hfind', rfl⟩ := recv_forwards6 hsent
  obtain rfl : cm' = cm := Option.some.inj (hfind'.symm.trans hfind)
  obtain ⟨hmem, hkey⟩ := (hinv.find _).key cm' hfind
  set m := (s₀.run steps).info cm'
  have htuple : m.key.tuple = p.tuple 40 := by rw [hkey]; rfl
  have hthere : (nexthdr p.bytes 0 == ipprotoUdp) = true →
      check p.bytes 40 (nexthdr p.bytes 0 == ipprotoUdp) ≠ 0 :=
    fun hudp => hvalid.there (by simpa using hudp)
  obtain ⟨hne, hcovered⟩ := (hinv.adjusted hmem).forward_covered6 mark htuple hthere
  rw [(hinv.forward_tuple hmem htuple).2] at hcovered ⊢
  have hword : ntohs ((nexthdr p.bytes 0).setWidth 16) ≠ 0 := by
    rcases hprotocol with hudp | htcp
    · rw [hudp]
      decide
    · rw [htcp]
      decide
  have hsum := hvalid.sum
  have hstays : nexthdr p.bytes 0 = ipprotoUdp →
      (m.forward (nexthdr p.bytes 0 == ipprotoUdp) mark p 40).check ≠ 0 :=
    fun hudp => hne (hvalid.there hudp)
  rw [and_iff_right sumWords_eq]
  cases hoffload : p.checksumPartial with
  | false =>
    rw [hoffload, if_neg Bool.false_ne_true, sum_full_iff hword] at hsum
    refine iff_of_true ⟨hstays, ?_⟩ fun hp => absurd hp Bool.false_ne_true
    rw [if_neg Bool.false_ne_true, sum_full_iff hword, hcovered]
    exact hsum
  | true =>
    rw [hoffload, if_pos rfl, sum_partial_iff] at hsum
    rw [forall_prop_of_true rfl, ← ZMod.natCast_eq_natCast_iff, cast_weight, cast_weight]
    constructor
    · rintro ⟨-, hafter⟩
      rw [if_pos rfl, sum_partial_iff] at hafter
      linear_combination hafter - hcovered - hsum
    · intro hweight
      refine ⟨hstays, ?_⟩
      rw [if_pos rfl, sum_partial_iff]
      linear_combination hcovered + hsum + hweight

end Recv

/-! ### Packets of a translated flow -/

/-- A UDP packet of the flow that `masquerade` translates, without data. -/
def udpPacket (checksumPartial : Bool) (check : BitVec 16) : Packet :=
  { len := 48
    pulled := 48
    bytes := fun i =>
      (([0x60, 0, 0, 0, 0, 8, 17, 64] : List Byte) ++ (host 1).words.flatMap u32le ++
        (host 2).words.flatMap u32le ++
        [1, 0, 2, 0, 0, 8, check.setWidth 8, (check >>> 8).setWidth 8]).getD i 0
    checksumPartial
    gso := false
    cloned := false
    unshareFails := false }

/-- The length of a packet without data, as it stands in the pseudo header and in the UDP header. -/
def udpLength : Word := 0x08000000

theorem recv_checksum_masquerade :
    ∃ sent, (masqueraded.recv 1 (udpPacket false 0xdeb9)).2 = some sent ∧
      ChecksumValid false sent.tuple ipprotoUdp sent.check udpLength [0x0800] := by
  obtain ⟨sent, hsent⟩ : ∃ sent, (masqueraded.recv 1 (udpPacket false 0xdeb9)).2 = some sent :=
    Option.isSome_iff_exists.mp (by decide +kernel)
  have hvalid : ChecksumValid false ((udpPacket false 0xdeb9).tuple 40) ipprotoUdp
      (check (udpPacket false 0xdeb9).bytes 40 true) udpLength [0x0800] := by
    constructor
    · decide
    · decide +kernel
  have hfind : (masqueraded.findConnectionMatch ((udpPacket false 0xdeb9).key 1)).2 = some 1 := by
    decide +kernel
  have hiff := recv_checksum_iff (Engine.initial_zeroed true) [.create masquerade true 0] hsent hfind hvalid
  exact ⟨sent, hsent, (hiff.mpr fun h => absurd h (by decide)).2⟩

/-- A checksum that the device is to complete is no longer the sum of the pseudo header. -/
theorem recv_checksum_partial :
    ChecksumValid true ((udpPacket true 0x1943).tuple 40) ipprotoUdp
      (check (udpPacket true 0x1943).bytes 40 true) udpLength [0x0800] ∧
    ∃ sent, (masqueraded.recv 1 (udpPacket true 0x1943)).2 = some sent ∧
      ¬ ChecksumValid true sent.tuple ipprotoUdp sent.check udpLength [0x0800] := by
  set p := udpPacket true 0x1943 with hp
  have hvalid : ChecksumValid true (p.tuple 40) ipprotoUdp (check p.bytes 40 true) udpLength [0x0800] := by
    constructor
    · decide
    · decide +kernel
  obtain ⟨sent, hsent⟩ : ∃ sent, (masqueraded.recv 1 p).2 = some sent :=
    Option.isSome_iff_exists.mp (by decide +kernel)
  have hwrong : ∀ sent ∈ (masqueraded.recv 1 p).2, ¬ sent.check.toNat ≡
      ((pseudoWords sent.tuple ipprotoUdp udpLength).map BitVec.toNat).sum [MOD 2 ^ 16 - 1] := by
    decide +kernel
  exact ⟨hvalid, sent, hsent, fun h => hwrong sent hsent h.sum⟩

end Immwrt.Sfe6
