import Immwrt.Sfe6.Proof.Headers
import Immwrt.Sfe6.Proof.Table

/-!
# ICMPv6 errors

An error quotes the packet it is about, and the connection that sent the packet is to be flushed. The packet
left by a match with the match's translated addresses, so reversed it has the key of the counter match. The
engine looks it up with the protocol number of the first header of the quote, which is the protocol of the
packet only when no extension header comes first.
-/

namespace Immwrt.Sfe6

open Sfe (Dev ipprotoTcp ipprotoUdp)

/-! ### Quotes -/

/-- A header of the kinds that a quoted packet can have before its transport header. -/
def IsQuoteHdr (bytes : Nat → Byte) (h : Byte × Nat) : Prop :=
  h.1 = extHdrHop ∨ h.1 = extHdrRouting ∨ h.1 = extHdrDst ∨ h.1 = extHdrFrag ∧ fragOffset bytes h.2 = 0

/-- Headers of these kinds, one behind the other by their formats, lead from `h` to `h'`. -/
inductive LeadsTo (bytes : Nat → Byte) : Byte × Nat → Byte × Nat → Prop
  | here (h : Byte × Nat) : LeadsTo bytes h h
  | next {h h' : Byte × Nat} (hkind : IsQuoteHdr bytes h) (hrest : LeadsTo bytes (formatNext bytes h) h') :
      LeadsTo bytes h h'

/-- The first header of the packet that an ICMPv6 error at `ihl` quotes. -/
def Packet.quotedHdr (p : Packet) (ihl : Nat) : Byte := nexthdr p.bytes (ihl + 8)

/-- The message at `ihl` is a destination unreachable or time exceeded error that quotes a UDP or TCP packet
with these addresses and ports. -/
structure Packet.Quotes (p : Packet) (ihl : Nat) (protocol : Byte) (t : Tuple) : Prop where
  error : p.bytes ihl = 1 ∨ p.bytes ihl = 3
  version : version p.bytes (ihl + 8) = 6
  upper : protocol = ipprotoUdp ∨ protocol = ipprotoTcp
  transport : ∃ off, LeadsTo p.bytes (p.quotedHdr ihl, ihl + 48) (protocol, off) ∧ off + 8 ≤ p.pulled ∧
    t = { srcIp := saddr p.bytes (ihl + 8)
          srcPort := source p.bytes off
          destIp := daddr p.bytes (ihl + 8)
          destPort := dest p.bytes off }

/-- The error at `ihl` is about a packet that left by the match `m`. -/
def Packet.IsAbout (p : Packet) (ihl : Nat) (dev : Dev) (m : Match) : Prop :=
  dev = m.xmitDev ∧ p.Quotes ihl m.key.protocol m.xlate

/-- An error removes the connection it is about, and nothing if it is about none. -/
structure FlushesRight (t t' : Table) (dev : Dev) (p : Packet) (ihl : Nat) : Prop where
  about : ∀ m ∈ t.matchSet, p.IsAbout ihl dev (t.info m) → t.Without t' (t.info m).connection
  other : (∀ m ∈ t.matchSet, ¬ p.IsAbout ihl dev (t.info m)) → t.SameConns t'

/-- The key that `sfe_ipv6_recv_icmp` looks up, if it gets that far. -/
def Packet.icmpLookup (p : Packet) (dev : Dev) (ihl : Nat) : Option Key :=
  if p.pulled < ihl + 56 ∨ (p.bytes ihl ≠ 1 ∧ p.bytes ihl ≠ 3) ∨ version p.bytes (ihl + 8) ≠ 6 then none
  else
    match extHdrLoop p.bytes p.pulled (p.quotedHdr ihl) (ihl + 48) with
    | .error _ => none
    | .ok h => if h.1 ≠ ipprotoUdp ∧ h.1 ≠ ipprotoTcp then none else some (p.icmpKey dev (ihl + 8) h.2)

theorem Table.SameConns.without {t t' t'' : Table} {c : Nat} (h : t.SameConns t') (hinfo : t'.info = t.info)
    (hwithout : t'.Without t'' c) : t.Without t'' c := by
  refine ⟨?_, ?_, ?_⟩
  · intro x
    rw [hwithout.all, h.all]
  · intro i x
    rw [hwithout.connHash, h.connHash]
  · intro i m
    rw [hwithout.matchHash, h.matchHash, hinfo]

section Recv

variable {s : Engine} {dev : Dev} {p : Packet} {ihl : Nat}

/-- What `sfe_ipv6_recv_icmp` does to the tables. -/
theorem recvIcmp_table (s : Engine) (dev : Dev) (p : Packet) (ihl : Nat) :
    (s.recvIcmp dev p ihl).toTable =
      match p.icmpLookup dev ihl with
      | none => s.toTable
      | some k =>
        match s.findConnectionMatch k with
        | (s', none) => s'.toTable
        | (s', some cm) => s'.removeConnection (s'.info cm).connection := by
  rw [Engine.recvIcmp, Packet.icmpLookup]
  by_cases hheader : p.pulled < ihl + 8
  · rw [if_pos hheader, if_pos (.inl (by omega))]
    rfl
  rw [if_neg hheader]
  by_cases htype : p.bytes ihl ≠ 1 ∧ p.bytes ihl ≠ 3
  · rw [if_pos htype, if_pos (.inr (.inl htype))]
    rfl
  rw [if_neg htype]
  by_cases hinner : p.pulled < ihl + 8 + 40 + 8
  · rw [if_pos hinner, if_pos (.inl hinner)]
    rfl
  rw [if_neg hinner]
  by_cases hversion : version p.bytes (ihl + 8) ≠ 6
  · rw [if_pos hversion, if_pos (.inr (.inr hversion))]
    rfl
  rw [if_neg hversion, if_neg (not_or.mpr ⟨hinner, not_or.mpr ⟨htype, hversion⟩⟩)]
  have hinnerEnd : ihl + 8 + 40 = ihl + 48 := rfl
  rw [hinnerEnd, ← Packet.quotedHdr]
  cases extHdrLoop p.bytes p.pulled (p.quotedHdr ihl) (ihl + 48) with
  | error e => rfl
  | ok h =>
    dsimp only
    split
    · rfl
    dsimp only
    cases s.findConnectionMatch (p.icmpKey dev (ihl + 8) h.2) with
    | mk s' found =>
      cases found with
      | none => rfl
      | some cm => rfl

/-- In a lookup that finds nothing, the connections stay; in one that finds a match, its connection goes. -/
theorem recvIcmp_cases (h : Inv s.toTable) (dev : Dev) (p : Packet) (ihl : Nat) :
    (s.SameConns (s.recvIcmp dev p ihl).toTable ∧
      ∀ k, p.icmpLookup dev ihl = some k → ∀ m ∈ s.matchSet, (s.info m).key ≠ k) ∨
    ∃ k, p.icmpLookup dev ihl = some k ∧ ∃ cm ∈ s.matchSet, (s.info cm).key = k ∧
      s.Without (s.recvIcmp dev p ihl).toTable (s.info cm).connection := by
  rw [recvIcmp_table]
  cases hlookup : p.icmpLookup dev ihl with
  | none => exact .inl ⟨.refl _, fun k hk => nomatch hk⟩
  | some k =>
    have hfound := h.find k
    dsimp only
    cases hfind : s.findConnectionMatch k with
    | mk s' found =>
      rw [hfind] at hfound
      cases found with
      | none =>
        refine .inl ⟨hfound.sameConns, ?_⟩
        intro k' hk m hm
        rw [← Option.some.inj hk]
        exact hfound.missing rfl m hm
      | some cm =>
        obtain ⟨hmem, hkey⟩ := hfound.key cm rfl
        refine .inr ⟨k, rfl, cm, hmem, hkey, ?_⟩
        have hwithout := hfound.inv.without_removeConnection (hfound.inv.owner hfound.mem).1
        rw [hfound.info] at hwithout
        dsimp only
        rw [hfound.info]
        exact hfound.sameConns.without hfound.info hwithout

end Recv

/-! ### Which connection goes -/

section About

variable {t : Table} {dev : Dev} {p : Packet} {ihl : Nat}

theorem isExtHdr_of_isQuoteHdr {bytes : Nat → Byte} {h : Byte × Nat} (hquote : IsQuoteHdr bytes h) :
    isExtHdr h.1 = true := by
  rcases hquote with hkind | hkind | hkind | ⟨hkind, -⟩
  · rw [hkind]
    decide
  · rw [hkind]
    decide
  · rw [hkind]
    decide
  · rw [hkind]
    decide

/-- Without an extension header the first header of the quote is the transport header. -/
theorem leadsTo_upper {bytes : Nat → Byte} {h h' : Byte × Nat} (hupper : ¬ isExtHdr h.1 = true)
    (hleads : LeadsTo bytes h h') : h' = h := by
  cases hleads with
  | here => rfl
  | next hkind hrest => exact absurd (isExtHdr_of_isQuoteHdr hkind) hupper

/-- The key that is looked up for an error without extension headers in its quote. -/
theorem icmpLookup_upper (hupper : ¬ isExtHdr (p.quotedHdr ihl) = true) {protocol : Byte} {t : Tuple}
    (hquotes : p.Quotes ihl protocol t) : p.icmpLookup dev ihl = some { dev, protocol, tuple := t.swap } := by
  obtain ⟨herror, hversion, hprotocol, off, hleads, hroom, rfl⟩ := hquotes
  obtain ⟨rfl, rfl⟩ := Prod.ext_iff.mp (leadsTo_upper hupper hleads)
  have hpasses :
      ¬ (p.pulled < ihl + 56 ∨ (p.bytes ihl ≠ 1 ∧ p.bytes ihl ≠ 3) ∨ version p.bytes (ihl + 8) ≠ 6) := by
    rintro (hpulled | htype | hother)
    · dsimp only at hroom
      omega
    · exact herror.elim htype.1 htype.2
    · exact hother hversion
  rw [Packet.icmpLookup, if_neg hpasses, extHdrLoop_upper hupper]
  dsimp only
  rw [if_neg]
  · rfl
  · rintro ⟨hudp, htcp⟩
    exact hprotocol.elim hudp htcp

/-- What is looked up for a quote without extension headers is reversed what it quotes. -/
theorem quotes_of_icmpLookup (hupper : ¬ isExtHdr (p.quotedHdr ihl) = true) {k : Key}
    (hlookup : p.icmpLookup dev ihl = some k) : k.dev = dev ∧ p.Quotes ihl k.protocol k.tuple.swap := by
  rw [Packet.icmpLookup, extHdrLoop_upper hupper] at hlookup
  split at hlookup
  · cases hlookup
  next hpasses =>
  dsimp only at hlookup
  split at hlookup
  · cases hlookup
  next hprotocol =>
  obtain rfl := Option.some.inj hlookup
  push Not at hpasses
  obtain ⟨hpulled, htype, hversion⟩ := hpasses
  refine ⟨rfl, ?_, hversion, ?_, ihl + 48, .here _, hpulled, rfl⟩
  · exact or_iff_not_imp_left.mpr htype
  · rw [not_and_or, not_not, not_not] at hprotocol
    exact hprotocol

/-- No key with another protocol than the first header's is looked up. -/
theorem icmpLookup_protocol {k : Key} (hlookup : p.icmpLookup dev ihl = some k) :
    k.protocol = p.quotedHdr ihl := by
  rw [Packet.icmpLookup] at hlookup
  split at hlookup
  · cases hlookup
  split at hlookup
  · cases hlookup
  split at hlookup
  · cases hlookup
  · rw [← Option.some.inj hlookup]
    rfl

/-- A transport protocol is no extension header. -/
theorem Packet.Quotes.not_ext {protocol : Byte} {t : Tuple} (hquotes : p.Quotes ihl protocol t) :
    ¬ isExtHdr protocol = true := by
  rcases hquotes.upper with rfl | rfl
  · decide
  · decide

/-- The other match of a connection has its protocol. -/
theorem Inv.protocol (h : Inv t) {m m' : Nat} (hm : m ∈ t.matchSet) (hm' : m' ∈ t.matchSet)
    (hconn : (t.info m).connection = (t.info m').connection) :
    (t.info m).key.protocol = (t.info m').key.protocol := by
  obtain ⟨hc, howns⟩ := h.owner hm
  obtain ⟨-, howns'⟩ := h.owner hm'
  obtain ⟨r, hmade⟩ := h.made _ hc
  rw [← hconn] at howns'
  have hprotocol {x : Nat} (hx : t.MatchOf (t.info m).connection x) :
      (t.info x).key.protocol = r.protocol.setWidth 8 := by
    rcases hx with rfl | rfl
    · rw [hmade.original, (r.originalMatch_eq _ _).2.2.1]
    · rw [hmade.reply, (r.replyMatch_eq _ _).2.2.1]
  rw [hprotocol howns, hprotocol howns']

end About

/-- In every run with unique match keys, an error removes the connection it is about, and nothing if it is
about none, if and only if the quote begins with the transport header; or it begins with an extension
header, is about no packet that a match sent, and what is looked up is not in the table. -/
theorem flushesRight_iff {s₀ : Engine} (h : s₀.Initial) (steps : List Step)
    (hunique : ∀ m ∈ (s₀.run steps).matchSet, ∀ m' ∈ (s₀.run steps).matchSet,
      ((s₀.run steps).info m).key = ((s₀.run steps).info m').key → m = m') (dev : Dev) (p : Packet) (ihl : Nat) :
    FlushesRight (s₀.run steps).toTable ((s₀.run steps).recvIcmp dev p ihl).toTable dev p ihl ↔
      (isExtHdr (p.quotedHdr ihl) = true →
        (∀ m ∈ (s₀.run steps).matchSet, ¬ p.IsAbout ihl dev ((s₀.run steps).info m)) ∧
        ∀ k, p.icmpLookup dev ihl = some k → ∀ m ∈ (s₀.run steps).matchSet, ((s₀.run steps).info m).key ≠ k) := by
  have hinv := h.inv.run steps
  set s := s₀.run steps
  constructor
  · intro hflushes hext
    have hnone : ∀ m ∈ s.matchSet, ¬ p.IsAbout ihl dev (s.info m) := by
      intro m hm habout
      have hc := (hinv.owner hm).1
      have hgone : (s.info m).connection ∉ (s.recvIcmp dev p ihl).all := by
        intro hmem
        exact (((hflushes.about m hm habout).all _).mp hmem).2 rfl
      rcases recvIcmp_cases hinv dev p ihl with ⟨hsame, -⟩ | ⟨k, hlookup, cm, hcm, hkey, hwithout⟩
      · exact hgone ((hsame.all _).mpr hc)
      · apply hgone
        apply (hwithout.all _).mpr
        refine ⟨hc, ?_⟩
        -- the match that is found is not for the protocol of the packet
        intro hsame
        apply habout.2.not_ext
        rw [hinv.protocol hm hcm hsame, hkey, icmpLookup_protocol hlookup]
        exact hext
    refine ⟨hnone, ?_⟩
    rcases recvIcmp_cases hinv dev p ihl with ⟨-, hmissing⟩ | ⟨k, hlookup, cm, hcm, hkey, hwithout⟩
    · exact hmissing
    · have hstays := ((hflushes.other hnone).all _).mpr (hinv.owner hcm).1
      exact absurd rfl ((hwithout.all _).mp hstays).2
  · intro hcond
    have hcases := recvIcmp_cases hinv dev p ihl
    by_cases hext : isExtHdr (p.quotedHdr ihl) = true
    · obtain ⟨hnone, hmissing⟩ := hcond hext
      refine ⟨fun m hm habout => absurd habout (hnone m hm), ?_⟩
      intro _
      rcases hcases with ⟨hsame, -⟩ | ⟨k, hlookup, cm, hcm, hkey, -⟩
      · exact hsame
      · exact absurd hkey (hmissing k hlookup cm hcm)
    · constructor
      · intro m hm ⟨hdev, hquotes⟩
        obtain ⟨hcounter, hconn, hkey, -⟩ := hinv.counter hm
        have hlookup : p.icmpLookup dev ihl = some (s.info m).reverseKey := by
          rw [icmpLookup_upper hext hquotes, hdev]
          rfl
        rcases hcases with ⟨-, hmissing⟩ | ⟨k, hlookup', cm, hcm, hkey', hwithout⟩
        · exact absurd hkey (hmissing _ hlookup _ hcounter)
        · have hk : k = (s.info m).reverseKey := Option.some.inj (hlookup'.symm.trans hlookup)
          have hfound : cm = (s.info m).counterMatch := hunique cm hcm _ hcounter (by rw [hkey', hk, hkey])
          rw [hfound, hconn] at hwithout
          exact hwithout
      · intro hnone
        rcases hcases with ⟨hsame, -⟩ | ⟨k, hlookup, cm, hcm, hkey, -⟩
        · exact hsame
        · -- the packet that is quoted left by the counter match
          obtain ⟨hdev, hquotes⟩ := quotes_of_icmpLookup hext hlookup
          obtain ⟨hcounter, -, -, hreverse⟩ := hinv.counter hcm
          rw [hkey] at hreverse
          rw [hreverse] at hdev hquotes
          exact absurd ⟨hdev.symm, hquotes⟩ (hnone _ hcounter)

/-! ### An error about a translated flow -/

/-- A destination unreachable error that quotes a packet of the translated flow, with `payload` after the
quoted IPv6 header. -/
def unreachable (nextHdr : Byte) (payload : List Byte) : Packet :=
  { len := 112
    pulled := 112
    bytes := fun i =>
      (List.replicate 40 0 ++ [1, 0, 0, 0, 0, 0, 0, 0] ++ [0x60, 0, 0, 0, 0, 24, nextHdr, 63] ++
        (host 3).words.flatMap u32le ++ (host 2).words.flatMap u32le ++ payload).getD i 0
    checksumPartial := false
    gso := false
    cloned := false
    unshareFails := false }

def udpHeader : List Byte := [3, 0, 2, 0, 0, 8, 0, 0]

theorem masqueraded_unique : ∀ m ∈ masqueraded.matchSet, ∀ m' ∈ masqueraded.matchSet,
    (masqueraded.info m).key = (masqueraded.info m').key → m = m' := by
  have hall : masqueraded.all = [0] := by decide +kernel
  have hmatch {m : Nat} (hm : m ∈ masqueraded.matchSet) : m = 1 ∨ m = 2 := by
    obtain ⟨c, hc, hm⟩ := hm
    rw [hall, List.mem_singleton] at hc
    rw [hc] at hm
    exact hm
  have hne : (masqueraded.info 1).key ≠ (masqueraded.info 2).key := by decide +kernel
  intro m hm m' hm' hkey
  rcases hmatch hm with rfl | rfl
  · rcases hmatch hm' with rfl | rfl
    · rfl
    · exact absurd hkey hne
  · rcases hmatch hm' with rfl | rfl
    · exact absurd hkey.symm hne
    · rfl

theorem flushesRight_udp :
    FlushesRight masqueraded.toTable (masqueraded.recvIcmp 2 (unreachable 17 udpHeader) 40).toTable 2
      (unreachable 17 udpHeader) 40 :=
  (flushesRight_iff (Engine.initial_zeroed true) [.create masquerade true 0] masqueraded_unique 2
    (unreachable 17 udpHeader) 40).mpr fun hext => absurd hext (by decide)

/-- With destination options in the quote the connection stays. -/
theorem flushesRight_destination :
    (unreachable 60 ([17, 0, 0, 0, 0, 0, 0, 0] ++ udpHeader)).IsAbout 40 2 (masqueraded.info 1) ∧
    (masqueraded.recvIcmp 2 (unreachable 60 ([17, 0, 0, 0, 0, 0, 0, 0] ++ udpHeader)) 40).all = [0] ∧
    ¬ FlushesRight masqueraded.toTable
      (masqueraded.recvIcmp 2 (unreachable 60 ([17, 0, 0, 0, 0, 0, 0, 0] ++ udpHeader)) 40).toTable 2
      (unreachable 60 ([17, 0, 0, 0, 0, 0, 0, 0] ++ udpHeader)) 40 := by
  set p := unreachable 60 ([17, 0, 0, 0, 0, 0, 0, 0] ++ udpHeader) with hp
  have habout : p.IsAbout 40 2 (masqueraded.info 1) := by
    refine ⟨by decide +kernel, .inl (by decide), by decide, .inl (by decide +kernel), 96, ?_, by decide,
      by decide +kernel⟩
    exact .next (.inr (.inr (.inl (by decide)))) (.here _)
  have hstays : (masqueraded.recvIcmp 2 p 40).all = [0] := by decide +kernel
  refine ⟨habout, hstays, ?_⟩
  intro hflushes
  have hmem : 1 ∈ masqueraded.matchSet := ⟨0, by decide +kernel, .inl (by decide +kernel)⟩
  have hconn : (masqueraded.info 1).connection = 0 := by decide +kernel
  have hgone := ((hflushes.about 1 hmem habout).all 0).mp (hstays ▸ List.mem_singleton_self 0)
  exact hgone.2 hconn.symm

end Immwrt.Sfe6
