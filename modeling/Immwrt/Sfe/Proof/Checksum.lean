import Immwrt.Lib.OnesComplement
import Immwrt.Sfe.Proof.Symmetry

/-!
# Checksums

A translation replaces words that the transport checksum covers, and adjusts the checksum by what it
computed when the rule was made. Whether a checksum is right depends on residues modulo `0xffff` and on
nothing being zero that should not be; both survive the foldings. The IP header is summed afresh.
-/

namespace Immwrt.Sfe

open OnesComplement

/-- The integers modulo `0xffff`, where checksums are compared. -/
abbrev Residue := ZMod (2 ^ 16 - 1)

def residue {w : Nat} (x : BitVec w) : Residue := x.toNat

/-- The residue of a list of words. -/
def residues (words : List (BitVec 16)) : Residue := (words.map residue).sum

theorem two_pow_16 : (2 : Residue) ^ 16 = 1 := two_pow_eq_one 16

theorem two_pow_32 : (2 : Residue) ^ 32 = 1 := by
  rw [show 32 = 16 * 2 from rfl, pow_mul, two_pow_16, one_pow]

theorem residue_eq_of_split {w : Nat} {x : BitVec w} {high low : Nat} (h : x.toNat = 2 ^ 16 * high + low) :
    residue x = (high : Residue) + (low : Residue) := by
  rw [residue, h, Nat.cast_add, Nat.cast_mul, Nat.cast_pow, Nat.cast_ofNat, two_pow_16, one_mul]

/-! ### Folding -/

theorem toNat_hi (x : Word) : (hi x).toNat = x.toNat / 2 ^ 16 := by
  rw [hi, BitVec.toNat_ushiftRight, Nat.shiftRight_eq_div_pow]

theorem toNat_lo (x : Word) : (lo x).toNat = x.toNat % 2 ^ 16 := by
  rw [lo, BitVec.toNat_and]
  exact Nat.and_two_pow_sub_one_eq_mod x.toNat 16

theorem toNat_fold (sum : Word) : (fold sum).toNat = sum.toNat % 2 ^ 16 + sum.toNat / 2 ^ 16 := by
  have hlt := sum.isLt
  rw [show fold sum = lo sum + hi sum from rfl, BitVec.toNat_add, toNat_lo, toNat_hi,
    Nat.mod_eq_of_lt (by omega)]

theorem residue_fold (sum : Word) : residue (fold sum) = residue sum := by
  have hsplit : sum.toNat = 2 ^ 16 * (sum.toNat / 2 ^ 16) + sum.toNat % 2 ^ 16 := by omega
  rw [residue_eq_of_split hsplit, residue, toNat_fold, Nat.cast_add, add_comm]

theorem fold_eq_zero (sum : Word) : fold sum = 0 ↔ sum = 0 := by
  simp only [← BitVec.toNat_inj, toNat_fold, BitVec.ofNat_eq_ofNat, BitVec.toNat_zero]
  omega

/-- A sum that is folded to 16 bits, and what is left of it in a half word. -/
theorem residue_setWidth {sum : Word} (hlt : sum.toNat < 2 ^ 16) :
    residue (sum.setWidth 16) = residue sum := by
  rw [residue, BitVec.toNat_setWidth, Nat.mod_eq_of_lt hlt, residue]

theorem setWidth_eq_zero {sum : Word} (hlt : sum.toNat < 2 ^ 16) : sum.setWidth 16 = 0 ↔ sum = 0 := by
  simp only [← BitVec.toNat_inj, BitVec.toNat_setWidth, Nat.mod_eq_of_lt hlt, BitVec.ofNat_eq_ofNat,
    BitVec.toNat_zero]

/-- One folding is enough for the sum of two half words. -/
theorem fold_lt_of_le {sum : Word} (hle : sum.toNat ≤ 2 ^ 17 - 2) : (fold sum).toNat < 2 ^ 16 := by
  rw [toNat_fold]
  omega

theorem fold_fold_lt (sum : Word) : (fold (fold sum)).toNat < 2 ^ 16 := by
  have hlt := sum.isLt
  rw [toNat_fold, toNat_fold]
  omega

theorem residue_fold_fold (sum : Word) : residue ((fold (fold sum)).setWidth 16) = residue sum := by
  rw [residue_setWidth (fold_fold_lt sum), residue_fold, residue_fold]

/-! ### Adjustments -/

/-- The half words of an address, as they are summed. -/
def ipWords (ip : Ip) : List (BitVec 16) := [ip.setWidth 16, (ip >>> 16).setWidth 16]

theorem residues_ipWords (ip : Ip) : residues (ipWords ip) = residue ip := by
  have hlt := ip.isLt
  have hsplit : ip.toNat = 2 ^ 16 * (ip.toNat / 2 ^ 16) + ip.toNat % 2 ^ 16 := by omega
  have hhigh : (ip >>> 16).toNat = ip.toNat / 2 ^ 16 := by
    rw [BitVec.toNat_ushiftRight, Nat.shiftRight_eq_div_pow]
  rw [residue_eq_of_split hsplit]
  simp only [residues, ipWords, List.map_cons, List.map_nil, List.sum_cons, List.sum_nil, residue,
    BitVec.toNat_setWidth, hhigh]
  rw [Nat.mod_eq_of_lt (show ip.toNat / 2 ^ 16 < 2 ^ 16 by omega), add_zero, add_comm]

/-- The checksum adjustment stands for the old address and port less the new ones. -/
theorem residue_csumAdjustment (ip : Ip) (port : Port) (xlateIp : Ip) (xlatePort : Port) :
    residue (csumAdjustment ip port xlateIp xlatePort)
      = residue ip + residue port - residue xlateIp - residue xlatePort := by
  have hip := ip.isLt
  have hport := port.isLt
  have hxip := (~~~xlateIp).isLt
  have hxport := (~~~xlatePort).isLt
  rw [csumAdjustment, residue_fold_fold]
  -- six half words do not overflow
  have hsum : (hi ip + lo ip + port.setWidth 32 + hi (~~~xlateIp) + lo (~~~xlateIp) +
      (~~~xlatePort).setWidth 32).toNat
      = ip.toNat / 2 ^ 16 + ip.toNat % 2 ^ 16 + port.toNat
        + (~~~xlateIp).toNat / 2 ^ 16 + (~~~xlateIp).toNat % 2 ^ 16 + (~~~xlatePort).toNat := by
    simp only [BitVec.toNat_add, toNat_hi, toNat_lo, BitVec.toNat_setWidth]
    omega
  have hsplit : ip.toNat = 2 ^ 16 * (ip.toNat / 2 ^ 16) + ip.toNat % 2 ^ 16 := by omega
  have hxsplit : (~~~xlateIp).toNat
      = 2 ^ 16 * ((~~~xlateIp).toNat / 2 ^ 16) + (~~~xlateIp).toNat % 2 ^ 16 := by omega
  have hnip : residue (~~~xlateIp) = - residue xlateIp := cast_not two_pow_32 xlateIp
  have hnport : residue (~~~xlatePort) = - residue xlatePort := cast_not two_pow_16 xlatePort
  have hip' := residue_eq_of_split hsplit
  have hxip' := residue_eq_of_split hxsplit
  rw [hnip] at hxip'
  rw [residue, hsum]
  push_cast
  calc ((ip.toNat / 2 ^ 16 : Nat) : Residue) + (ip.toNat % 2 ^ 16 : Nat) + (port.toNat : Residue)
        + ((~~~xlateIp).toNat / 2 ^ 16 : Nat) + ((~~~xlateIp).toNat % 2 ^ 16 : Nat)
        + ((~~~xlatePort).toNat : Residue)
      = residue ip + residue port + - residue xlateIp + residue (~~~xlatePort) := by
        rw [hip', hxip', residue, residue]
        ring
    _ = residue ip + residue port - residue xlateIp - residue xlatePort := by
        rw [hnport]
        ring

/-- The adjustment of a pseudo header sum stands for the new address less the old one. -/
theorem residue_partialCsumAdjustment (ip xlateIp : Ip) :
    residue (partialCsumAdjustment ip xlateIp) = residue xlateIp - residue ip := by
  have hnot : residue (~~~ip) = - residue ip := cast_not two_pow_32 ip
  have hadd : residue (onesAdd (~~~ip) xlateIp) = residue (~~~ip) + residue xlateIp :=
    cast_onesAdd two_pow_32 _ _
  have hadj : partialCsumAdjustment ip xlateIp
      = (fold (fold (onesAdd (~~~ip) xlateIp))).setWidth 16 := by
    rw [← onesAdd_eq_of_lt]
    rfl
  rw [hadj, residue_fold_fold, hadd, hnot]
  ring

theorem toNat_add_halves (check adjustment : BitVec 16) :
    (check.setWidth 32 + adjustment.setWidth 32 : Word).toNat = check.toNat + adjustment.toNat := by
  have hcheck := check.isLt
  have hadj := adjustment.isLt
  rw [BitVec.toNat_add, BitVec.toNat_setWidth, BitVec.toNat_setWidth]
  omega

/-- A checksum that is there is adjusted, and stays there. -/
theorem adjustCheck_spec {udp : Bool} {check : BitVec 16} (h : udp = true → check ≠ 0)
    (adjustment : BitVec 16) :
    residue (adjustCheck udp check adjustment) = residue check + residue adjustment ∧
    (check ≠ 0 → adjustCheck udp check adjustment ≠ 0) := by
  have hcheck := check.isLt
  have hadj := adjustment.isLt
  have hsum := toNat_add_halves check adjustment
  have hlt := fold_lt_of_le (show (check.setWidth 32 + adjustment.setWidth 32 : Word).toNat ≤ 2 ^ 17 - 2 by
    omega)
  have hadjust : adjustCheck udp check adjustment
      = (fold (check.setWidth 32 + adjustment.setWidth 32)).setWidth 16 := if_neg fun hudp => h hudp.1 hudp.2
  rw [hadjust]
  constructor
  · rw [residue_setWidth hlt, residue_fold, residue, hsum, Nat.cast_add]
    rfl
  · intro hne hzero
    rw [setWidth_eq_zero hlt, fold_eq_zero, ← BitVec.toNat_inj, hsum] at hzero
    apply hne
    apply BitVec.eq_of_toNat_eq
    simp only [BitVec.ofNat_eq_ofNat, BitVec.toNat_zero] at hzero ⊢
    omega

theorem adjustCheck_none (adjustment : BitVec 16) : adjustCheck true 0 adjustment = 0 := rfl

/-! ### A match and its adjustments -/

/-- The adjustments of a match are those of its translations. -/
structure Match.Adjusted (cm : Match) : Prop where
  src : cm.xlateSrc = true → cm.xlateSrcCsumAdjustment =
      csumAdjustment cm.key.tuple.srcIp cm.key.tuple.srcPort cm.xlate.srcIp cm.xlate.srcPort ∧
    cm.xlateSrcPartialCsumAdjustment = partialCsumAdjustment cm.key.tuple.srcIp cm.xlate.srcIp
  dest : cm.xlateDest = true → cm.xlateDestCsumAdjustment =
      csumAdjustment cm.key.tuple.destIp cm.key.tuple.destPort cm.xlate.destIp cm.xlate.destPort ∧
    cm.xlateDestPartialCsumAdjustment = partialCsumAdjustment cm.key.tuple.destIp cm.xlate.destIp

theorem adjusted_computeTranslations (cm : Match) : cm.computeTranslations.Adjusted := by
  obtain ⟨-, -, -, -, hsrc, hdest, -⟩ := computeTranslations_eq cm
  constructor
  · intro h
    rw [hsrc] at h
    cases hxlate : cm.xlateDest with
    | false => simp [Match.computeTranslations, h, hxlate]
    | true => simp [Match.computeTranslations, h, hxlate]
  · intro h
    rw [hdest] at h
    cases hxlate : cm.xlateSrc with
    | false => simp [Match.computeTranslations, h, hxlate]
    | true => simp [Match.computeTranslations, h, hxlate]

theorem Table.Made.adjusted {t : Table} {r : Rule} {c : Nat} (h : t.Made r c) (reply : Bool) :
    (t.info ((t.conn c).side reply)).Adjusted := by
  cases reply with
  | false =>
    rw [Conn.side, if_neg (by decide), h.original]
    exact adjusted_computeTranslations _
  | true =>
    rw [Conn.side, if_pos rfl, h.reply]
    exact adjusted_computeTranslations _

/-! ### What a right checksum is -/

/-- The words of the pseudo header. -/
def pseudoWords (t : Tuple) (protocol : BitVec 8) (length : BitVec 16) : List (BitVec 16) :=
  ipWords t.srcIp ++ ipWords t.destIp ++ [ntohs (protocol.setWidth 16), length]

/-- The checksum field `check` is right for a segment with these addresses and ports, whose other words are
`rest`: the sum over pseudo header and segment is all ones, or, if the sum is left to the device, the field
has the sum of the pseudo header. -/
def ChecksumRight (checksumPartial : Bool) (t : Tuple) (protocol : BitVec 8) (check length : BitVec 16)
    (rest : List (BitVec 16)) : Prop :=
  if checksumPartial then
    check.toNat ≡ ((pseudoWords t protocol length).map BitVec.toNat).sum [MOD 2 ^ 16 - 1]
  else
    onesSum (pseudoWords t protocol length ++ t.srcPort :: t.destPort :: check :: rest)
      = BitVec.allOnes 16

/-- The header sums up to all ones. -/
def IpHdr.ChecksumRight (h : IpHdr) : Prop := onesSum (h.check :: h.words) = BitVec.allOnes 16

/-- What the checksum field of a segment and its addresses and ports amount to. -/
def Tuple.covered (checksumPartial : Bool) (t : Tuple) : Residue :=
  if checksumPartial then - (residue t.srcIp + residue t.destIp)
  else residue t.srcIp + residue t.destIp + residue t.srcPort + residue t.destPort

theorem residues_append (front back : List (BitVec 16)) :
    residues (front ++ back) = residues front + residues back := by
  rw [residues, List.map_append, List.sum_append]
  rfl

theorem residues_pseudoWords (t : Tuple) (protocol : BitVec 8) (length : BitVec 16) :
    residues (pseudoWords t protocol length)
      = residue t.srcIp + residue t.destIp + residue (ntohs (protocol.setWidth 16)) + residue length := by
  rw [pseudoWords, residues_append, residues_append, residues_ipWords, residues_ipWords]
  simp only [residues, List.map_cons, List.map_nil, List.sum_cons, List.sum_nil]
  ring

theorem cast_sum_toNat (words : List (BitVec 16)) :
    (((words.map BitVec.toNat).sum : Nat) : Residue) = residues words := by
  induction words with
  | nil => simp [residues]
  | cons x words ih =>
    rw [List.map_cons, List.sum_cons, Nat.cast_add, ih]
    rfl

/-- Whether a checksum is right depends on the residue of the field with what it covers. -/
theorem checksumRight_iff {checksumPartial : Bool} {t : Tuple} {protocol : BitVec 8}
    {check length : BitVec 16} {rest : List (BitVec 16)} (hprotocol : ntohs (protocol.setWidth 16) ≠ 0) :
    ChecksumRight checksumPartial t protocol check length rest ↔
      residue check + t.covered checksumPartial =
        if checksumPartial then residue (ntohs (protocol.setWidth 16)) + residue length
        else - (residue (ntohs (protocol.setWidth 16)) + residue length + residues rest) := by
  cases checksumPartial with
  | true =>
    simp only [ChecksumRight, Tuple.covered, if_true]
    rw [← ZMod.natCast_eq_natCast_iff, cast_sum_toNat, residues_pseudoWords]
    change residue check = _ ↔ _
    constructor
    · intro h
      rw [h]
      ring
    · intro h
      linear_combination h
  | false =>
    simp only [ChecksumRight, Tuple.covered, Bool.false_eq_true, if_false]
    have hmem : ∃ y ∈ pseudoWords t protocol length ++ t.srcPort :: t.destPort :: check :: rest, y ≠ 0 :=
      ⟨_, by simp [pseudoWords], hprotocol⟩
    rw [onesSum_eq_allOnes (by decide), and_iff_left hmem]
    change residues _ = 0 ↔ _
    have hrest : residues (t.srcPort :: t.destPort :: check :: rest)
        = residue t.srcPort + residue t.destPort + residue check + residues rest := by
      simp only [residues, List.map_cons, List.sum_cons]
      ring
    rw [residues_append, residues_pseudoWords, hrest]
    constructor
    · intro h
      linear_combination h
    · intro h
      linear_combination h

/-! ### Forwarding -/

theorem Match.forward_check (cm : Match) (udp : Bool) (mark : Word) (p : Packet) :
    (cm.forward udp mark p).check =
      let srcAdjustment :=
        if p.checksumPartial then cm.xlateSrcPartialCsumAdjustment else cm.xlateSrcCsumAdjustment
      let destAdjustment :=
        if p.checksumPartial then cm.xlateDestPartialCsumAdjustment else cm.xlateDestCsumAdjustment
      let check := if cm.xlateSrc then adjustCheck udp p.check srcAdjustment else p.check
      if cm.xlateDest then adjustCheck udp check destAdjustment else check := by
  rw [Match.forward]
  cases cm.xlateSrc <;> cases cm.xlateDest <;> rfl

/-- One translation: what the checksum loses, the new address and port make up for. -/
theorem residue_translated (checksumPartial xlate : Bool) (ip xip : Ip) (port xport : Port) {udp : Bool}
    {check adjustment : BitVec 16} (h : udp = true → check ≠ 0)
    (hadj : xlate = true → adjustment =
      if checksumPartial then partialCsumAdjustment ip xip else csumAdjustment ip port xip xport) :
    let check' := if xlate then adjustCheck udp check adjustment else check
    let ip' := if xlate then xip else ip
    let port' := if xlate then xport else port
    (check ≠ 0 → check' ≠ 0) ∧
    residue check' + (if checksumPartial then - residue ip' else residue ip' + residue port')
      = residue check + (if checksumPartial then - residue ip else residue ip + residue port) := by
  cases xlate with
  | false => exact ⟨id, rfl⟩
  | true =>
    obtain ⟨hresidue, hne⟩ := adjustCheck_spec h adjustment
    simp only [if_true]
    refine ⟨hne, ?_⟩
    rw [hresidue, hadj rfl]
    cases checksumPartial with
    | false =>
      simp only [Bool.false_eq_true, if_false]
      rw [residue_csumAdjustment]
      ring
    | true =>
      simp only [if_true]
      rw [residue_partialCsumAdjustment]
      ring

theorem Match.Adjusted.forward_covered {cm : Match} (h : cm.Adjusted) {udp : Bool} (mark : Word)
    {p : Packet} (hkey : cm.key.tuple = p.tuple) (hcheck : udp = true → p.check ≠ 0) :
    (p.check ≠ 0 → (cm.forward udp mark p).check ≠ 0) ∧
    residue (cm.forward udp mark p).check + (cm.forward udp mark p).tuple.covered p.checksumPartial
      = residue p.check + p.tuple.covered p.checksumPartial := by
  have hsrc := h.src
  have hdest := h.dest
  rw [hkey] at hsrc hdest
  rw [Match.forward_check, Match.forward_tuple]
  dsimp only
  set srcAdjustment :=
    if p.checksumPartial then cm.xlateSrcPartialCsumAdjustment else cm.xlateSrcCsumAdjustment with hs
  set destAdjustment :=
    if p.checksumPartial then cm.xlateDestPartialCsumAdjustment else cm.xlateDestCsumAdjustment with hd
  have hsadj : cm.xlateSrc = true → srcAdjustment =
      if p.checksumPartial then partialCsumAdjustment p.ip.saddr cm.xlate.srcIp
      else csumAdjustment p.ip.saddr p.source cm.xlate.srcIp cm.xlate.srcPort := by
    intro hxlate
    rw [hs, (hsrc hxlate).1, (hsrc hxlate).2]
    rfl
  have hdadj : cm.xlateDest = true → destAdjustment =
      if p.checksumPartial then partialCsumAdjustment p.ip.daddr cm.xlate.destIp
      else csumAdjustment p.ip.daddr p.dest cm.xlate.destIp cm.xlate.destPort := by
    intro hxlate
    rw [hd, (hdest hxlate).1, (hdest hxlate).2]
    rfl
  obtain ⟨hne, hcovered⟩ := residue_translated p.checksumPartial cm.xlateSrc p.ip.saddr cm.xlate.srcIp
    p.source cm.xlate.srcPort hcheck hsadj
  set check := if cm.xlateSrc then adjustCheck udp p.check srcAdjustment else p.check
  obtain ⟨hne', hcovered'⟩ := residue_translated p.checksumPartial cm.xlateDest p.ip.daddr cm.xlate.destIp
    p.dest cm.xlate.destPort (fun hudp => hne (hcheck hudp)) hdadj
  refine ⟨fun h => hne' (hne h), ?_⟩
  cases hoffload : p.checksumPartial with
  | false =>
    simp only [hoffload, Bool.false_eq_true, if_false] at hcovered hcovered'
    simp only [Tuple.covered, Packet.tuple, Bool.false_eq_true, if_false]
    linear_combination hcovered + hcovered'
  | true =>
    simp only [hoffload, if_true] at hcovered hcovered'
    simp only [Tuple.covered, Packet.tuple, if_true]
    linear_combination hcovered + hcovered'

/-- A UDP checksum that is not there is not made up. -/
theorem Match.forward_check_none (cm : Match) (mark : Word) {p : Packet} (hcheck : p.check = 0) :
    (cm.forward true mark p).check = 0 := by
  rw [Match.forward_check, hcheck]
  dsimp only
  rw [adjustCheck_none, ite_self, adjustCheck_none, ite_self]

/-! ### The IP header -/

theorem toNat_foldl_add (words : List (BitVec 16)) (sum : Word)
    (hroom : sum.toNat + words.length * 2 ^ 16 ≤ 2 ^ 32) :
    (words.foldl (fun sum w => sum + w.setWidth 32) sum).toNat
      = sum.toNat + (words.map BitVec.toNat).sum := by
  induction words generalizing sum with
  | nil => simp
  | cons x words ih =>
    have hx := x.isLt
    rw [List.length_cons, Nat.add_mul] at hroom
    have hadd : (sum + x.setWidth 32).toNat = sum.toNat + x.toNat := by
      rw [BitVec.toNat_add, BitVec.toNat_setWidth]
      omega
    rw [List.foldl_cons, ih _ (by omega), hadd, List.map_cons, List.sum_cons, Nat.add_assoc]

/-- A header that carries the generated checksum is right. -/
theorem genIpCsum_right (h : IpHdr) : ({ h with check := genIpCsum h } : IpHdr).ChecksumRight := by
  have hwords : ({ h with check := genIpCsum h } : IpHdr).words = h.words := rfl
  rw [IpHdr.ChecksumRight, hwords, onesSum_eq_allOnes (by decide)]
  set sum := h.words.foldl (fun sum w => sum + w.setWidth 32) 0 with hsum
  have hnot : genIpCsum h = ~~~((fold (fold sum)).setWidth 16) := BitVec.xor_allOnes
  have hresidue : residue sum = residues h.words := by
    rw [residue, hsum, toNat_foldl_add _ _ (by simp [IpHdr.words]), ← cast_sum_toNat]
    simp
  constructor
  · change residues (genIpCsum h :: h.words) = 0
    have hcons : residues (genIpCsum h :: h.words) = residue (genIpCsum h) + residues h.words := by
      rw [residues, List.map_cons, List.sum_cons]
      rfl
    have hneg : residue (~~~((fold (fold sum)).setWidth 16)) = - residue ((fold (fold sum)).setWidth 16) :=
      cast_not two_pow_16 _
    rw [hcons, hnot, hneg, residue_fold_fold, hresidue]
    ring
  · by_contra hzero
    push Not at hzero
    rw [List.forall_mem_cons] at hzero
    obtain ⟨hcheck, hzero⟩ := hzero
    have hempty : sum = 0 := by
      apply BitVec.eq_of_toNat_eq
      rw [hsum, toNat_foldl_add _ _ (by simp [IpHdr.words])]
      have hall : (h.words.map BitVec.toNat).sum = 0 := by
        rw [List.sum_eq_zero_iff]
        intro n hn
        obtain ⟨x, hx, rfl⟩ := List.mem_map.mp hn
        rw [hzero x hx]
        rfl
      rw [hall]
      rfl
    rw [hnot, hempty] at hcheck
    have hones : ¬ ~~~((fold (fold 0)).setWidth 16) = (0 : BitVec 16) := by decide
    exact hones hcheck

/-! ### Received packets -/

section Recv

variable {s : Sfe} {dev : Dev} {p : Packet} {sent : Sent}

theorem forward_sent {cm : Nat} {udp : Bool} (h : (s.forward cm udp p).2 = some sent) :
    ∃ mark, sent = (s.info cm).forward udp mark p := by
  rw [Sfe.forward] at h
  split at h
  · exact absurd h (by simp)
  · exact ⟨_, (Option.some.inj h).symm⟩

/-- What `sfe_ipv4_recv_udp` and `sfe_ipv4_recv_tcp` forward. -/
def Sfe.Forwards (s : Sfe) (dev : Dev) (p : Packet) (protocol : BitVec 8) (sent : Sent) : Prop :=
  ∃ cm mark, (s.findConnectionMatch { dev, protocol, tuple := p.tuple }).2 = some cm ∧
    sent = (s.info cm).forward (protocol == ipprotoUdp) mark p

theorem recvUdp_sent {ihl : Nat} {flushOnFind : Bool}
    (h : (s.recvUdp dev p ihl flushOnFind).2 = some sent) :
    flushOnFind = false ∧ s.Forwards dev p ipprotoUdp sent := by
  rw [Sfe.recvUdp] at h
  split at h
  · exact absurd h (by simp)
  split at h
  · exact absurd h (by simp)
  next s' cm hfind =>
  split at h
  · exact absurd h (by simp)
  next hflush =>
  split at h
  · exact absurd h (by simp)
  split at h
  · exact absurd h (by simp)
  split at h
  · exact absurd h (by simp)
  obtain ⟨mark, hsent⟩ := forward_sent h
  have hinfo := (sameConns_findConnectionMatch s { dev, protocol := ipprotoUdp, tuple := p.tuple }).info
  rw [hfind] at hinfo
  rw [hinfo] at hsent
  exact ⟨by simpa using hflush, cm, mark, by rw [hfind], hsent⟩

theorem recvTcp_sent {ihl : Nat} {flushOnFind : Bool}
    (h : (s.recvTcp dev p ihl flushOnFind).2 = some sent) :
    flushOnFind = false ∧ s.Forwards dev p ipprotoTcp sent := by
  rw [Sfe.recvTcp] at h
  split at h
  · exact absurd h (by simp)
  split at h
  · exact absurd h (by simp)
  next s' cm hfind =>
  split at h
  · exact absurd h (by simp)
  next hflush =>
  iterate 4
    split at h
    · exact absurd h (by simp)
  dsimp only at h
  split at h
  · exact absurd h (by simp)
  obtain ⟨mark, hsent⟩ := forward_sent h
  have hinfo := (sameConns_findConnectionMatch s { dev, protocol := ipprotoTcp, tuple := p.tuple }).info
  rw [hfind] at hinfo
  rw [hinfo] at hsent
  exact ⟨by simpa using hflush, cm, mark, by rw [hfind], hsent⟩

/-- A packet that is forwarded is UDP or TCP without IP options, and leaves as its match says. -/
theorem recv_forwards (h : (s.recv dev p).2 = some sent) :
    p.ip.ihl.toNat * 4 = 20 ∧ (p.ip.protocol = ipprotoUdp ∨ p.ip.protocol = ipprotoTcp) ∧
      s.Forwards dev p p.ip.protocol sent := by
  rw [Sfe.recv] at h
  dsimp only at h
  iterate 6
    split at h
    · exact absurd h (by simp)
  split at h
  · next hprotocol =>
    obtain ⟨hflush, hforwards⟩ := recvUdp_sent h
    rw [hprotocol]
    simp only [decide_eq_false_iff_not, not_or, not_not] at hflush
    exact ⟨hflush.2, .inl rfl, hforwards⟩
  split at h
  · next hprotocol =>
    obtain ⟨hflush, hforwards⟩ := recvTcp_sent h
    rw [hprotocol]
    simp only [decide_eq_false_iff_not, not_or, not_not] at hflush
    exact ⟨hflush.2, .inr rfl, hforwards⟩
  split at h
  · exact absurd h (by simp)
  · exact absurd h (by simp)

/-- The match that is found for a packet has its tuple, and its adjustments are those of its
translations. -/
theorem Sfe.Sound.found_adjusted {all : List Nat} (h : s.Sound all) {k : Key} {cm : Nat}
    (hfind : (s.findConnectionMatch k).2 = some cm) :
    (s.info cm).key = k ∧ (s.info cm).Adjusted := by
  obtain ⟨hmatch, hkey⟩ := (h.inv.find k).2.1 cm hfind
  obtain ⟨c, hc, reply, rfl⟩ := hmatch.side
  obtain ⟨r, hmade⟩ := h.inv.made c ((h.mem_all c).mp hc).1
  exact ⟨hkey, hmade.adjusted reply⟩

/-- In every run, a packet that is forwarded leaves with a right IP checksum; its transport checksum, if it
was right, is right for the new addresses and ports; and a UDP checksum is there if and only if it was. -/
theorem recv_checksums {s₀ : Sfe} (h : s₀.Initial) (steps : List Step)
    (hsent : ((s₀.run steps).recv dev p).2 = some sent) :
    sent.ip.ihl = 5 ∧ sent.ip.ChecksumRight ∧ sent.ip.protocol = p.ip.protocol ∧
    (p.ip.protocol = ipprotoUdp → (sent.check = 0 ↔ p.check = 0)) ∧
    ((p.ip.protocol = ipprotoUdp → p.check ≠ 0) → ∀ length rest,
      ChecksumRight p.checksumPartial p.tuple p.ip.protocol p.check length rest →
        ChecksumRight p.checksumPartial sent.tuple sent.ip.protocol sent.check length rest) := by
  obtain ⟨all, hsound⟩ := h.sound.run steps
  obtain ⟨hihl, hprotocol, cm, mark, hfind, rfl⟩ := recv_forwards hsent
  obtain ⟨hkey, hadjusted⟩ := hsound.found_adjusted hfind
  have htuple : ((s₀.run steps).info cm).key.tuple = p.tuple := by rw [hkey]
  set m := (s₀.run steps).info cm
  have hsame : (m.forward (p.ip.protocol == ipprotoUdp) mark p).ip.protocol = p.ip.protocol ∧
      (m.forward (p.ip.protocol == ipprotoUdp) mark p).ip.ihl = p.ip.ihl := by
    rw [Match.forward]
    cases m.xlateSrc <;> cases m.xlateDest <;> exact ⟨rfl, rfl⟩
  have hword : ntohs (p.ip.protocol.setWidth 16) ≠ 0 := by
    rcases hprotocol with hudp | htcp
    · rw [hudp]
      decide
    · rw [htcp]
      decide
  refine ⟨?_, genIpCsum_right _, hsame.1, ?_, ?_⟩
  · rw [hsame.2]
    apply BitVec.eq_of_toNat_eq
    change p.ip.ihl.toNat = 5
    omega
  · intro hudp
    rw [hudp]
    constructor
    · intro hzero
      by_contra hcheck
      exact (hadjusted.forward_covered mark htuple fun _ => hcheck).1 hcheck hzero
    · exact m.forward_check_none mark
  · intro hthere length rest hright
    rw [hsame.1]
    rw [checksumRight_iff hword] at hright ⊢
    rw [(hadjusted.forward_covered mark htuple fun hudp => hthere (by simpa using hudp)).2]
    exact hright

end Recv

/-- A packet whose checksum is right leaves with the translated source and a right checksum. -/
theorem recv_checksums_masquerade :
    ∃ sent, (((Sfe.zeroed true).run [.create masquerade true 0]).recv 1
        { udpPacket masquerade.tuple with check := 810 }).2 = some sent ∧
      sent.check ≠ 0 ∧ sent.ip.ChecksumRight ∧
      ChecksumRight false sent.tuple sent.ip.protocol sent.check 0x1400 [] := by
  set p : Packet := { udpPacket masquerade.tuple with check := 810 } with hp
  obtain ⟨sent, hsent⟩ : ∃ sent,
      (((Sfe.zeroed true).run [.create masquerade true 0]).recv 1 p).2 = some sent :=
    Option.isSome_iff_exists.mp (by decide +kernel)
  have hcheck : p.check ≠ 0 := by decide
  obtain ⟨-, hip, -, hzero, hright⟩ :=
    recv_checksums (Sfe.initial_zeroed true) [.create masquerade true 0] hsent
  refine ⟨sent, hsent, fun h => hcheck ((hzero rfl).mp h), hip, ?_⟩
  apply hright (fun _ => hcheck) 0x1400 []
  rw [ChecksumRight]
  decide +kernel

end Immwrt.Sfe
