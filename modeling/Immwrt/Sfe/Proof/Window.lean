import Mathlib.Data.BitVec
import Immwrt.Sfe.Proof.Checksum
import Immwrt.Sfe.Proof.Options

/-!
# The TCP window

The window check falls into two parts: the look at the header and its options, and the comparison of two
numbers with the edges of the windows. One of the two is the end of the segment, which the code takes from
the length of the skb.
-/

namespace Immwrt.Sfe

/-! ### The check in two parts -/

/-- The end of a segment, as the window check takes it from the length of the skb. -/
def segmentEnd (h : TcpHdr) (len : Nat) : Word :=
  ntohl h.seq + BitVec.ofNat 32 len - BitVec.ofNat 32 (h.doff.toNat * 4 + 20)

/-- The window that a segment advertises, from `sack` on. -/
def TcpHdr.scaledWin (h : TcpHdr) (cm : TcpState) (sack : Word) : Word :=
  ((ntohs h.window).setWidth 32 <<< cm.winScale.toNat) + (sack - ntohl h.ackSeq)

/-- The window check from the left edge on: the segment ends at `endSeq` and acknowledges `sack`. -/
def edgesCheck (cm counter : TcpState) (h : TcpHdr) (endSeq sack : Word) :
    Except Exception (TcpState × TcpState) :=
  if before endSeq (cm.endSeq - counter.maxWin - 1) then .error .tcpSeqBeforeLeftEdge
  else if after sack (counter.endSeq + 1) then .error .tcpAckExceedsRightEdge
  else if before sack (counter.endSeq - cm.maxWin - maxAckWindow - 1) then .error .tcpAckBeforeLeftEdge
  else
    let maxEnd := sack + h.scaledWin cm sack
    .ok ({ cm with
            maxWin := if cm.maxWin < h.scaledWin cm sack then h.scaledWin cm sack else cm.maxWin
            endSeq := if before endSeq cm.endSeq then cm.endSeq else endSeq },
         { counter with
            maxEnd := if before maxEnd counter.maxEnd then counter.maxEnd else maxEnd })

/-- The window check of a segment that ends at `endSeq`. -/
def tcpWindowEnd (cm counter : TcpState) (h : TcpHdr) (len : Nat) (endSeq : Word) :
    Except Exception (TcpState × TcpState) :=
  if cm.noSeqCheck then .ok (cm, counter)
  else if after (ntohl h.seq) (cm.maxEnd + 1) then .error .tcpSeqExceedsRightEdge
  else if h.doff.toNat * 4 < 20 then .error .tcpSmallDataOffs
  else
    match processTcpOptionSack h.bytes (h.doff.toNat * 4) (ntohl h.ackSeq) with
    | none => .error .tcpBadSack
    | some sack =>
      if len < h.doff.toNat * 4 + 20 then .error .tcpBigDataOffs else edgesCheck cm counter h endSeq sack

/-- The check compares and stores the end it computes. -/
theorem tcpWindow_eq (cm counter : TcpState) (h : TcpHdr) (len : Nat) :
    tcpWindow cm counter h len = tcpWindowEnd cm counter h len (segmentEnd h len) := rfl

/-- Without a look at the options their bytes do not matter. -/
theorem tcpWindow_not_parsed {cm : TcpState} {h : TcpHdr} (hnot : ¬ h.parsed cm) (counter : TcpState)
    (len : Nat) (bytes : Nat → Byte) :
    tcpWindow cm counter { h with bytes } len = tcpWindow cm counter h len := by
  simp only [tcpWindow_eq, tcpWindowEnd]
  split
  · rfl
  next hseq =>
  split
  · rfl
  next hright =>
  split
  · rfl
  next hoffs => exact absurd ⟨by simpa using hseq, by simpa using hright, not_lt.mp hoffs⟩ hnot

/-- The window check gets as far as the edges. -/
structure TcpHdr.Checked (h : TcpHdr) (cm : TcpState) (len : Nat) : Prop where
  parsed : h.parsed cm
  options : ∀ o ∈ walkOptions h.bytes (h.doff.toNat * 4) 20, o.2 ≠ .bad
  room : h.doff.toNat * 4 + 20 ≤ len

theorem TcpHdr.Checked.tcpWindowEnd {h : TcpHdr} {cm : TcpState} {len : Nat} (hc : h.Checked cm len)
    (counter : TcpState) (endSeq : Word) :
    tcpWindowEnd cm counter h len endSeq = edgesCheck cm counter h endSeq
      ((sackEdges h.bytes (h.doff.toNat * 4)).foldl raise (ntohl h.ackSeq)) := by
  obtain ⟨⟨hseq, hright, hoffs⟩, hbad, hroom⟩ := hc
  have hgood : ¬ ∃ o ∈ walkOptions h.bytes (h.doff.toNat * 4) 20, o.2 = .bad := by
    rintro ⟨o, ho, heq⟩
    exact hbad o ho heq
  rw [Sfe.tcpWindowEnd, hseq, hright, if_neg (by decide), if_neg (by decide), if_neg (by omega),
    processTcpOptionSack_eq, if_neg hgood]
  exact if_neg (by omega)

/-- A segment that does not get to the edges is not judged by where they are. -/
theorem tcpWindowEnd_not_checked {h : TcpHdr} {cm : TcpState} {len : Nat} (hc : ¬ h.Checked cm len) :
    (cm.noSeqCheck = true ∧ ∀ counter endSeq, tcpWindowEnd cm counter h len endSeq = .ok (cm, counter)) ∨
    cm.noSeqCheck = false ∧ ∃ e, ∀ counter endSeq, tcpWindowEnd cm counter h len endSeq = .error e := by
  cases hseq : cm.noSeqCheck with
  | true => exact .inl ⟨rfl, fun counter endSeq => by rw [tcpWindowEnd, hseq, if_pos rfl]⟩
  | false =>
    refine .inr ⟨rfl, ?_⟩
    simp only [tcpWindowEnd, hseq, Bool.false_eq_true, if_false]
    split
    · exact ⟨_, fun _ _ => rfl⟩
    next hright =>
    split
    · exact ⟨_, fun _ _ => rfl⟩
    next hoffs =>
    rw [processTcpOptionSack_eq]
    by_cases hbad : ∃ o ∈ walkOptions h.bytes (h.doff.toNat * 4) 20, o.2 = .bad
    · rw [if_pos hbad]
      exact ⟨_, fun _ _ => rfl⟩
    rw [if_neg hbad]
    dsimp only
    split
    · exact ⟨_, fun _ _ => rfl⟩
    next hroom =>
    refine absurd ⟨⟨hseq, by simpa using hright, not_lt.mp hoffs⟩, ?_, not_lt.mp hroom⟩ hc
    intro o ho heq
    exact hbad ⟨o, ho, heq⟩

/-! ### The end of a segment -/

/-- The window check of a segment compares and stores `endSeq` as its end, whatever the state. -/
def UsesEnd (h : TcpHdr) (len : Nat) (endSeq : Word) : Prop :=
  ∀ cm counter, tcpWindow cm counter h len = tcpWindowEnd cm counter h len endSeq

/-- States in which a segment that acknowledges `sack` is let through if it does not end before `stored`
less one. -/
def openSender (h : TcpHdr) (stored : Word) : TcpState :=
  { winScale := 0, maxWin := 0, endSeq := stored, maxEnd := ntohl h.seq, noSeqCheck := false }

def openReceiver (sack : Word) : TcpState :=
  { winScale := 0, maxWin := 0, endSeq := sack, maxEnd := sack, noSeqCheck := false }

/-- The sender's end after a window check. -/
def storedEnd : Except Exception (TcpState × TcpState) → Option Word
  | .error _ => none
  | .ok r => some r.1.endSeq

theorem after_succ (x : Word) : after x (x + 1) = false := by
  rw [after, show x - (x + 1) = -1 by ring]
  decide

theorem before_self (x : Word) : before x x = false := by
  rw [before, sub_self]
  decide

theorem before_pred (x : Word) : before x (x - 1) = false := by
  rw [before, show x - (x - 1) = 1 by ring]
  decide

theorem storedEnd_open (h : TcpHdr) (sack stored e : Word) :
    storedEnd (edgesCheck (openSender h stored) (openReceiver sack) h e sack) =
      if before e (stored - 1) then none else some (if before e stored then stored else e) := by
  have hleft : (openSender h stored).endSeq - (openReceiver sack).maxWin - 1 = stored - 1 := by
    change stored - 0 - 1 = stored - 1
    rw [sub_zero]
  have hright : after sack ((openReceiver sack).endSeq + 1) = false := after_succ sack
  have hback : before sack
      ((openReceiver sack).endSeq - (openSender h stored).maxWin - maxAckWindow - 1) = false := by
    change before sack (sack - 0 - maxAckWindow - 1) = false
    rw [before, show sack - (sack - 0 - maxAckWindow - 1) = maxAckWindow + 1 by ring]
    decide
  rw [edgesCheck, hleft, hright, hback]
  split
  · rfl
  · rfl

/-- Between a number and the one before it there is none. -/
theorem eq_pred_of_before {x y : Word} (h : before x y = true) (h' : before x (y - 1) = false) :
    x = y - 1 := by
  have hdiff : x - (y - 1) = x - y + 1 := by ring
  simp only [before, hdiff, decide_eq_true_eq, decide_eq_false_iff_not, not_lt] at h h'
  have hlt := (x - y).isLt
  have hnat : (x - y).toNat = 2 ^ 32 - 1 := by
    have hsucc : (x - y + 1).toNat = ((x - y).toNat + 1) % 2 ^ 32 := BitVec.toNat_add _ _
    rw [BitVec.toInt_eq_toNat_cond] at h h'
    rw [hsucc] at h'
    split at h <;> split at h' <;> omega
  have hneg : x - y = -1 := BitVec.eq_of_toNat_eq hnat
  calc x = x - y + y := by ring
    _ = y - 1 := by rw [hneg]; ring

/-- Where a segment is let through, the value compared and stored as its end is the one computed from the
length of the skb. -/
theorem usesEnd_iff {cm counter : TcpState} {h : TcpHdr} {len : Nat} (hseq : cm.noSeqCheck = false)
    (hok : ∃ r, tcpWindow cm counter h len = .ok r) (endSeq : Word) :
    UsesEnd h len endSeq ↔ endSeq = segmentEnd h len := by
  constructor
  · intro huses
    have hchecked : h.Checked cm len := by
      by_contra hnot
      obtain ⟨r, hr⟩ := hok
      rcases tcpWindowEnd_not_checked hnot with ⟨hnocheck, -⟩ | ⟨-, e, he⟩
      · rw [hseq] at hnocheck
        cases hnocheck
      · rw [tcpWindow_eq, he] at hr
        cases hr
    set sack := (sackEdges h.bytes (h.doff.toNat * 4)).foldl raise (ntohl h.ackSeq)
    have hopen (stored : Word) : h.Checked (openSender h stored) len :=
      ⟨⟨rfl, after_succ _, hchecked.parsed.2.2⟩, hchecked.options, hchecked.room⟩
    have hends (stored : Word) :
        (if before (segmentEnd h len) (stored - 1) then none
          else some (if before (segmentEnd h len) stored then stored else segmentEnd h len)) =
        if before endSeq (stored - 1) then none else some (if before endSeq stored then stored else endSeq) := by
      have hsame := huses (openSender h stored) (openReceiver sack)
      rw [tcpWindow_eq, (hopen stored).tcpWindowEnd, (hopen stored).tcpWindowEnd] at hsame
      rw [← storedEnd_open h sack stored, ← storedEnd_open h sack stored, hsame]
    have hfirst := hends endSeq
    have hsecond := hends (segmentEnd h len)
    simp only [before_pred, before_self, Bool.false_eq_true, if_false] at hfirst hsecond
    by_contra hne
    -- each end would be the one before the other
    have hpred : segmentEnd h len = endSeq - 1 := by
      split at hfirst
      · cases hfirst
      next hnot =>
      split at hfirst
      · next hbefore => exact eq_pred_of_before hbefore (by simpa using hnot)
      · exact absurd (Option.some.inj hfirst).symm hne
    have hpred' : endSeq = segmentEnd h len - 1 := by
      split at hsecond
      · cases hsecond
      next hnot =>
      split at hsecond
      · next hbefore => exact eq_pred_of_before hbefore (by simpa using hnot)
      · exact absurd (Option.some.inj hsecond).symm hne
    have htwo : (2 : Word) = 0 := by
      linear_combination hpred + hpred'
    exact absurd htwo (by decide)
  · rintro rfl cm counter
    exact tcpWindow_eq cm counter h len

/-- The datagram's own length. -/
def Packet.totLen (p : Packet) : Nat := (ntohs p.ip.totLen).toNat

/-- The sequence number after the payload, as the IP header gives its length. -/
def Packet.payloadEnd (p : Packet) : Word :=
  ntohl p.tcp.seq + (BitVec.ofNat 32 p.totLen - BitVec.ofNat 32 (p.ip.ihl.toNat * 4)
    - BitVec.ofNat 32 (p.tcp.doff.toNat * 4))

/-- `sfe_ipv4_recv` accepts a TCP packet of match `cm`, checks its sequence numbers, lets it through and
stores the outcome. -/
structure Sfe.PassesWindow (s : Sfe) (dev : Dev) (p : Packet) (cm : Nat) (r : TcpState × TcpState) : Prop where
  ihl : p.ip.ihl.toNat * 4 = 20
  protocol : p.ip.protocol = ipprotoTcp
  found : (s.findConnectionMatch (p.key dev)).2 = some cm
  seqCheck : (s.tcp cm).noSeqCheck = false
  ok : tcpWindow (s.tcp cm) (s.tcp (s.info cm).counterMatch) p.tcp p.len = .ok r
  stored : (s.recv dev p).1.tcp = Function.update (Function.update s.tcp cm r.1) (s.info cm).counterMatch r.2

/-- A TCP flow whose packets leave as they came. -/
def tcpRule : Rule := { masquerade with protocol := 6, xlate := masquerade.tuple }

/-- An acknowledgment without data, in an skb of `len` bytes. -/
def tcpPacket (len : Nat) : Packet :=
  { udpPacket masquerade.tuple with
    len
    ip := { (udpPacket masquerade.tuple).ip with protocol := ipprotoTcp }
    tcp := { (udpPacket masquerade.tuple).tcp with doff := 5, ack := true } }

/-- The end that is compared and stored for a packet that passes is the end of its payload, if and only if
nothing follows the datagram in the skb. -/
theorem recv_end_iff {s : Sfe} {dev : Dev} {p : Packet} {cm : Nat} {r : TcpState × TcpState}
    (hlen : p.len < 2 ^ 32) (hpass : s.PassesWindow dev p cm r) :
    UsesEnd p.tcp p.len p.payloadEnd ↔ p.len = p.totLen := by
  have htot : p.totLen < 2 ^ 32 := lt_trans (ntohs p.ip.totLen).isLt (by norm_num)
  rw [usesEnd_iff hpass.seqCheck ⟨r, hpass.ok⟩, Packet.payloadEnd, segmentEnd, hpass.ihl]
  have hoffs : (BitVec.ofNat 32 (p.tcp.doff.toNat * 4 + 20) : Word)
      = BitVec.ofNat 32 (p.tcp.doff.toNat * 4) + BitVec.ofNat 32 20 := by
    rw [BitVec.ofNat_add]
  constructor
  · intro heq
    have hlens : BitVec.ofNat 32 p.len = BitVec.ofNat 32 p.totLen := by
      rw [hoffs] at heq
      linear_combination -heq
    have hnat := congrArg BitVec.toNat hlens
    rwa [BitVec.toNat_ofNat, BitVec.toNat_ofNat, Nat.mod_eq_of_lt hlen, Nat.mod_eq_of_lt htot] at hnat
  · intro heq
    rw [heq, hoffs]
    ring

theorem findConnectionMatch_tcp (s : Sfe) (k : Key) : (s.findConnectionMatch k).1.tcp = s.tcp := by
  obtain ⟨count, heq⟩ := findConnectionMatch_eq s k
  rw [heq]

theorem forward_tcp (s : Sfe) (cm : Nat) (udp : Bool) (p : Packet) : (s.forward cm udp p).1.tcp = s.tcp := by
  rw [Sfe.forward]
  split
  · rfl
  · rfl

theorem recvTcp_window {s : Sfe} {dev : Dev} {p : Packet} {ihl : Nat} {flushOnFind : Bool} {sent : Sent}
    (h : (s.recvTcp dev p ihl flushOnFind).2 = some sent) :
    ∃ cm r, (s.findConnectionMatch { dev, protocol := ipprotoTcp, tuple := p.tuple }).2 = some cm ∧
      tcpWindow (s.tcp cm) (s.tcp (s.info cm).counterMatch) p.tcp p.len = .ok r ∧
      (s.recvTcp dev p ihl flushOnFind).1.tcp =
        Function.update (Function.update s.tcp cm r.1) (s.info cm).counterMatch r.2 := by
  set k : Key := { dev, protocol := ipprotoTcp, tuple := p.tuple } with hk
  have hinfo := (sameConns_findConnectionMatch s k).info
  have htcp := findConnectionMatch_tcp s k
  rw [Sfe.recvTcp, ← hk] at h ⊢
  split at h
  · exact absurd h (by simp)
  next hpulled =>
  rw [if_neg hpulled]
  split at h
  · exact absurd h (by simp)
  next s' cm hfind =>
  rw [hfind] at hinfo htcp
  split at h
  · exact absurd h (by simp)
  next hflush =>
  split at h
  · exact absurd h (by simp)
  next haccel =>
  split at h
  · exact absurd h (by simp)
  next httl =>
  split at h
  · exact absurd h (by simp)
  next hmtu =>
  split at h
  · exact absurd h (by simp)
  next hflags =>
  dsimp only at h
  split at h
  · exact absurd h (by simp)
  next tcp counterTcp hwindow =>
  refine ⟨cm, (tcp, counterTcp), by rw [hfind], ?_, ?_⟩
  · rw [← hinfo, ← htcp]
    exact hwindow
  · dsimp only
    rw [if_neg hflush, if_neg haccel, if_neg httl, if_neg hmtu, if_neg hflags, hwindow]
    dsimp only
    rw [forward_tcp, hinfo, htcp]

theorem recv_tcp_eq {s : Sfe} {dev : Dev} {p : Packet} {sent : Sent} (h : (s.recv dev p).2 = some sent)
    (hprotocol : p.ip.protocol = ipprotoTcp) :
    ∃ flushOnFind, s.recv dev p = s.recvTcp dev p (p.ip.ihl.toNat * 4) flushOnFind := by
  rw [Sfe.recv] at h ⊢
  dsimp only at h ⊢
  iterate 6
    split at h
    · exact absurd h (by simp)
    rename_i hif
    rw [if_neg hif]
    clear hif
  rw [if_neg (by rw [hprotocol]; decide), if_pos hprotocol]
  exact ⟨_, rfl⟩

/-- A TCP packet that is forwarded with its sequence numbers checked has passed. -/
theorem recv_passesWindow {s : Sfe} {dev : Dev} {p : Packet} {sent : Sent}
    (hsent : (s.recv dev p).2 = some sent) (hprotocol : p.ip.protocol = ipprotoTcp) :
    ∃ cm r, (s.findConnectionMatch (p.key dev)).2 = some cm ∧
      ((s.tcp cm).noSeqCheck = false → s.PassesWindow dev p cm r) := by
  obtain ⟨hihl, -, -⟩ := recv_forwards hsent
  obtain ⟨flushOnFind, heq⟩ := recv_tcp_eq hsent hprotocol
  obtain ⟨cm, r, hfind, hok, hstored⟩ := recvTcp_window (heq ▸ hsent)
  have hkey : p.key dev = { dev, protocol := ipprotoTcp, tuple := p.tuple } := by
    rw [Packet.key, hprotocol]
  rw [← hkey] at hfind
  exact ⟨cm, r, hfind, fun hseq => ⟨hihl, hprotocol, hfind, hseq, hok, heq ▸ hstored⟩⟩

theorem tcpPacket_passes {len : Nat} (hlen : len = 40 ∨ len = 46) :
    ∃ r, ((Sfe.zeroed true).createRule tcpRule true 0).1.PassesWindow 1 (tcpPacket len) 1 r := by
  set s := ((Sfe.zeroed true).createRule tcpRule true 0).1 with hs
  have hsent : (s.recv 1 (tcpPacket len)).2.isSome = true := by
    rcases hlen with rfl | rfl <;> decide +kernel
  have hfind : (s.findConnectionMatch ((tcpPacket len).key 1)).2 = some 1 := by
    rcases hlen with rfl | rfl <;> decide +kernel
  obtain ⟨sent, hsent⟩ := Option.isSome_iff_exists.mp hsent
  obtain ⟨cm, r, hfind', hpass⟩ := recv_passesWindow hsent rfl
  obtain rfl : 1 = cm := Option.some.inj (hfind.symm.trans hfind')
  exact ⟨r, hpass (by decide +kernel)⟩

theorem recv_end_tcpPacket :
    (tcpPacket 40).len = 40 ∧ UsesEnd (tcpPacket 40).tcp 40 (tcpPacket 40).payloadEnd := by
  obtain ⟨r, hpass⟩ := tcpPacket_passes (.inl rfl)
  exact ⟨rfl, (recv_end_iff (show (tcpPacket 40).len < 2 ^ 32 by decide) hpass).mpr (by decide)⟩

/-- Six bytes of padding after an acknowledgment without data end up in the sender's end. -/
theorem recv_end_padded :
    (tcpPacket 46).totLen = 40 ∧ (tcpPacket 46).payloadEnd = 0 ∧
    (((Sfe.zeroed true).createRule tcpRule true 0).1.recv 1 (tcpPacket 46)).2.isSome = true ∧
    ((((Sfe.zeroed true).createRule tcpRule true 0).1.recv 1 (tcpPacket 46)).1.tcp 1).endSeq = 6 ∧
    ¬ UsesEnd (tcpPacket 46).tcp 46 (tcpPacket 46).payloadEnd := by
  refine ⟨by decide, by decide, by decide +kernel, by decide +kernel, ?_⟩
  intro huses
  obtain ⟨r, hpass⟩ := tcpPacket_passes (.inr rfl)
  have hcm : (((Sfe.zeroed true).createRule tcpRule true 0).1.tcp 1).noSeqCheck = false := hpass.seqCheck
  have hend := (usesEnd_iff hcm ⟨r, hpass.ok⟩ _).mp huses
  exact absurd hend (by decide)

end Immwrt.Sfe
