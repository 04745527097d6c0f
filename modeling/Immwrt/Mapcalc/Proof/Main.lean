import Immwrt.Mapcalc.Main
import Immwrt.Mapcalc.Proof.Match
import Immwrt.Mapcalc.Proof.PortSets

/-!
# What a rule derives

The EA bits of a customer follow the rule's prefix in the delegated one. The first of them complete the
IPv4 address, the others are the port set ID.
-/

namespace Immwrt.Mapcalc

open Traced

variable {host : Host} {legacy : Bool} {pd : Octets} {pdlen : Int} {l : Lengths}

/-! ### The port set ID -/

/-- A field of bits at the front of a buffer that has no others, as a number. -/
theorem beNat_of_field {buf src : Octets} {off q n : Nat} (hq : q ≤ 8 * n)
    (hbits : ∀ i < 8 * n, bitAt buf i = if i < q then bitAt src (off + i) else false) :
    beNat buf n = bitsNat src off q <<< (8 * n - q) := by
  apply Nat.eq_of_testBit_eq
  intro k
  rw [Nat.testBit_shiftLeft]
  by_cases hk : k < 8 * n
  · have hbit := testBit_beNat buf (n := n) (i := 8 * n - 1 - k) (by omega)
    rw [show 8 * n - 1 - (8 * n - 1 - k) = k by omega] at hbit
    rw [hbit, hbits _ (by omega)]
    by_cases hlow : 8 * n - q ≤ k
    · have hfield := testBit_bitsNat src off (n := q) (i := 8 * n - 1 - k) (by omega)
      rw [show q - 1 - (8 * n - 1 - k) = k - (8 * n - q) by omega] at hfield
      rw [if_pos (by omega), decide_eq_true hlow, Bool.true_and, hfield]
    · rw [if_neg (by omega), decide_eq_false hlow, Bool.false_and]
  · rw [Nat.testBit_lt_two_pow (lt_of_lt_of_le (beNat_lt buf n) (Nat.pow_le_pow_right (by decide) (by omega))),
      testBit_bitsNat_of_ge src off (by omega), Bool.and_false]

/-- What is cut out for the port set ID: `q` bits in 16, and the number that they are. -/
theorem psidOf_val (pd : Octets) (from6 : Nat) {q : Nat} (hpsid : l.psid < 0) (hpdlen : 0 ≤ pdlen) (hq : l.psidlen = q)
    (hq16 : q ≤ 16) (hfrom : l.prefix6len + l.ealen - l.psidlen = from6) (hfrom6 : from6 ≤ 128) :
    (psidOf l pdlen pd).val.2 = (bitsNat pd from6 q <<< (16 - q) : Nat) ∧
      ∀ i < 16, bitAt (psidOf l pdlen pd).val.1 i = (bitsNat pd from6 q).testBit (15 - i) := by
  have hsize : toSize l.psidlen = q := by rw [toSize_of_nonneg (by omega) (by omega)]; omega
  have hoff : toSize (l.prefix6len + l.ealen - l.psidlen) = from6 := by
    rw [toSize_of_nonneg (by omega) (by omega)]
    omega
  have hbits : ∀ i, bitAt (bmemcpys64 2 in6AddrSize addrAny pd from6 q).val i =
      if i < q then bitAt pd (from6 + i) else bitAt addrAny i :=
    fun i => bitAt_bmemcpys64 addrAny pd (by omega) i
  have hnum : beNat (bmemcpys64 2 in6AddrSize addrAny pd from6 q).val 2 = bitsNat pd from6 q <<< (8 * 2 - q) :=
    beNat_of_field (by omega) fun i _ => (hbits i).trans (by simp [bitAt, addrAny])
  have hvalue := bitsNat_lt pd from6 q
  unfold psidOf
  simp only [if_pos (show l.psid < 0 ∧ l.psidlen ≥ 0 ∧ pdlen ≥ 0 by omega), val_bind, val_pure, hsize, hoff]
  by_cases hpos : 0 < q
  · have hcount : (16 - l.psidlen).toNat = 16 - q := by omega
    have hback : ((beNat (bmemcpys64 2 in6AddrSize addrAny pd from6 q).val 2 : Nat) : Int) >>> (16 - q) =
        (bitsNat pd from6 q : Nat) := by
      rw [hnum, show (8 * 2 - q) = 16 - q by rfl]
      norm_cast
      exact congrArg Nat.cast (Nat.shiftLeft_shiftRight _ _)
    rw [if_pos (by omega)]
    simp only [val_bind, val_pure, hcount, hback]
    refine ⟨by rw [Nat.shiftLeft_eq]; push_cast; rfl, fun i hi => ?_⟩
    have hmod : ((bitsNat pd from6 q : Nat) : Int) % 2 ^ 16 = (bitsNat pd from6 q : Nat) := by
      have hle : 2 ^ q ≤ 2 ^ 16 := Nat.pow_le_pow_right (by decide) hq16
      exact Int.emod_eq_of_lt (by omega) (by norm_cast; omega)
    rw [hmod, Int.toNat_natCast, bitAt_natOctets, decide_eq_true (by omega), Bool.true_and]
  · have hzero : q = 0 := by omega
    subst hzero
    rw [if_neg (by omega)]
    refine ⟨congrArg Nat.cast hnum, fun i _ => ?_⟩
    rw [val_pure, hbits i]
    simp [bitsNat, bitAt, addrAny]

/-! ### The addresses -/

/-- A shift of an IPv4 address moves its bits towards the end. -/
theorem bitAt_shiftAddr (addr : Octets) {count : Int} (hlo : 0 ≤ count) (hhi : count < 32) {i : Nat}
    (hi : i < 32) :
    bitAt (shiftAddr host addr count).val i =
      if count ≤ i then bitAt addr (i - count.toNat) else false := by
  simp only [shiftAddr, val_bind, val_pure, if_pos hhi]
  rw [bitAt_natOctets, Nat.testBit_shiftRight, decide_eq_true (by simpa [inAddrSize] using hi), Bool.true_and]
  split
  · next hle =>
      rw [← testBit_beNat addr (n := inAddrSize) (by simp only [inAddrSize]; omega)]
      congr 1
      simp only [inAddrSize]
      omega
  · next hlt =>
      refine Nat.testBit_lt_two_pow (lt_of_lt_of_le (beNat_lt addr inAddrSize) ?_)
      exact Nat.pow_le_pow_right (by decide) (by simp only [inAddrSize]; omega)

/-- The IPv4 address has the bits of the prefix and then the first EA bits. -/
theorem ipv4Of_val (host : Host) (ipv4Prefix pd : Octets) (from6 n : Nat) (hpdlen : 0 ≤ pdlen) (h4lo : 0 ≤ l.prefix4len) (h4hi : l.prefix4len ≤ 32)
    (hfrom : l.prefix6len = from6) (hfrom6 : from6 ≤ 128) (hn : l.ealen - l.psidlen = n) (hn32 : n ≤ 32) :
    (ipv4Of host l ipv4Prefix pdlen pd).val.2 = min (l.prefix4len + l.ealen) 32 ∧
      ∀ i < 32, bitAt (ipv4Of host l ipv4Prefix pdlen pd).val.1 i =
        if i < l.prefix4len then bitAt ipv4Prefix i
        else if i < l.prefix4len + n then bitAt pd (from6 + (i - l.prefix4len.toNat))
        else false := by
  have hsize : toSize (l.ealen - l.psidlen) = n := by rw [toSize_of_nonneg (by omega) (by omega)]; omega
  have hoff : toSize l.prefix6len = from6 := by rw [toSize_of_nonneg (by omega) (by omega)]; omega
  have h4 : toSize l.prefix4len = l.prefix4len.toNat := toSize_of_nonneg h4lo (by omega)
  unfold ipv4Of
  simp only [if_pos (Or.inl hpdlen : pdlen ≥ 0 ∨ l.ealen = l.psidlen), val_bind, val_pure, hsize, hoff, h4]
  refine ⟨by rw [min_def]; split <;> split <;> omega, fun i hi => ?_⟩
  rw [bitAt_bmemcpy]
  by_cases hpre : i < l.prefix4len
  · rw [if_pos (by omega), if_pos hpre]
  · rw [if_neg (by omega), if_neg hpre, bitAt_shiftAddr _ h4lo (by omega) hi, if_pos (by omega),
      bitAt_bmemcpys64 _ _ (by omega)]
    refine if_ctx_congr (by omega) (fun _ => rfl) fun _ => ?_
    simp [bitAt, addrAny]

/-- The IPv6 address has the bits of the delegated prefix, and behind them the IPv4 address and the port
set ID in their places. -/
theorem ipv6Of_val {ipv4addr psid16 : Octets} (hlo : 0 ≤ pdlen) (hhi : pdlen ≤ 128) {v4offset : Nat}
    (hv4offset : v4offset = if legacy then 9 else 10) {i : Nat} :
    bitAt (ipv6Of legacy pdlen pd ipv4addr psid16).val i =
      if i < pdlen then bitAt pd i
      else if 8 * v4offset ≤ i ∧ i < 8 * (v4offset + 4) then bitAt ipv4addr (i - 8 * v4offset)
      else if 8 * (v4offset + 4) ≤ i ∧ i < 8 * (v4offset + 6) then bitAt psid16 (i - 8 * (v4offset + 4))
      else false := by
  have hbyte : ∀ (buf : Octets) {k : Nat}, 8 * k ≤ i →
      (buf (i / 8 - k)).getMsbD (i % 8) = bitAt buf (i - 8 * k) := by
    intro buf k hle
    rw [bitAt, Nat.sub_mul_div, Nat.sub_mul_mod hle]
  simp only [ipv6Of, val_bind, ← hv4offset, toSize_of_nonneg hlo (show pdlen < 2 ^ 64 by omega)]
  rw [bitAt_bmemcpy]
  refine if_ctx_congr (by omega) (fun _ => rfl) fun _ => ?_
  by_cases hv4 : 8 * v4offset ≤ i ∧ i < 8 * (v4offset + 4)
  · rw [if_pos hv4, bitAt, if_neg (by omega), if_pos (by omega), hbyte _ hv4.1]
  · rw [if_neg hv4]
    by_cases hpsid : 8 * (v4offset + 4) ≤ i ∧ i < 8 * (v4offset + 6)
    · rw [if_pos hpsid, bitAt, if_pos (by omega), hbyte _ hpsid.1]
    · rw [if_neg hpsid, bitAt, if_neg (by omega), if_neg (by omega)]
      simp [addrAny]

/-! ### A rule -/

/-- The bits of the IPv4 address of a rule with `e` EA bits. -/
def ipv4Bit (rule : Rule) (pd : Octets) (e : Int) (i : Nat) : Bool :=
  if i < rule.prefix4len then bitAt rule.ipv4Prefix i
  else if i < rule.prefix4len + min e (32 - rule.prefix4len) then
    bitAt pd (rule.prefix6len.toNat + (i - rule.prefix4len.toNat))
  else false

/-- The port set ID of a rule with `e` EA bits, the last `q` of which it is. -/
def psidField (rule : Rule) (pd : Octets) (e : Int) (q : Nat) : Nat :=
  bitsNat pd (rule.prefix6len + e - q).toNat q

/-- The bits of the IPv6 address. -/
def ipv6Bit (legacy : Bool) (rule : Rule) (pdlen : Int) (pd : Octets) (e : Int) (q i : Nat) : Bool :=
  let v4offset := if legacy then 9 else 10
  if i < pdlen then bitAt pd i
  else if 8 * v4offset ≤ i ∧ i < 8 * (v4offset + 4) then ipv4Bit rule pd e (i - 8 * v4offset)
  else if 8 * (v4offset + 4) ≤ i ∧ i < 8 * (v4offset + 6) then
    (psidField rule pd e q).testBit (15 - (i - 8 * (v4offset + 4)))
  else false

/-- What is printed of a rule with `e` EA bits, `q` of them for the port set ID. -/
structure Derives (legacy : Bool) (rule : Rule) (pdlen : Int) (pd : Octets) (iface : List Byte) (e : Int)
    (q : Nat) (printed : Printed) : Prop where
  ealen : printed.lengths.ealen = e
  psidlen : printed.lengths.psidlen = q
  ipv4addr : ∃ addr : Octets, (∀ i < 32, bitAt addr i = ipv4Bit rule pd e i) ∧
    printed.ipv4addr =
      if beNat addr inAddrSize = 0 then none else some (addr, min (rule.prefix4len + e) 32)
  portsets : printed.portsets =
    if 0 < q then some (portSets printed.lengths.offset.toNat q (psidField rule pd e q <<< (16 - q)))
    else none
  ipv6addr : ∃ addr : Octets, printed.bmr = some (pd, pdlen, iface, addr) ∧
    ∀ i < 128, bitAt addr i = ipv6Bit legacy rule pdlen pd e q i

theorem Rule.lengths_offset_nonneg (legacy : Bool) (rule : Rule) (pdlen : Int) :
    0 ≤ (rule.lengths legacy pdlen).offset := by
  simp only [Rule.lengths]
  split
  · split <;> [decide; (split <;> decide)]
  · omega

/-- What is left open of the port set ID is derived. -/
theorem Rule.lengths_derived (legacy : Bool) {rule : Rule} (pdlen : Int) (hpsidlen : rule.psidlen ≤ 0) :
    (rule.lengths legacy pdlen).psid = -1 ∧
      (rule.lengths legacy pdlen).psidlen =
        max 0 ((rule.lengths legacy pdlen).ealen - (32 - rule.prefix4len)) := by
  have hopen : (if rule.lw4o6 = true ∧ rule.psidlen < 0 then 0 else rule.psidlen) ≤ 0 := by
    split <;> omega
  simp only [Rule.lengths, if_pos hopen, and_self]

/-- The ranges that are printed are those of the port set ID. -/
theorem portLoop_val {offset : Int} (hoffset : 0 ≤ offset) {q value : Nat} (hq : 0 < q) :
    (portLoop offset q ((value <<< (16 - q) : Nat) : Int)).val =
      portSets offset.toNat q (value <<< (16 - q)) := by
  have halign : alignPsid q (value <<< (16 - q)) = value <<< (16 - q) := by
    rw [alignPsid, if_pos hq, Nat.shiftLeft_shiftRight]
  have hfirst : (if offset = 0 then 0 else 1) = if offset.toNat = 0 then 0 else 1 :=
    if_congr (by omega) rfl rfl
  simp only [portLoop, val_bind, val_pure, Int.toNat_natCast, portSets, halign, hfirst]

/-- What is printed of a rule with a delegated prefix. -/
theorem processRule_val {arg iface name : List Byte} {dump : List IfaceAttrs} {rule : Rule}
    (hfound : (findPd host arg iface dump rule).val = (pdlen, pd, name)) (hpdlen : 0 ≤ pdlen)
    (hl : rule.lengths legacy pdlen = l) (hvalid : ¬ l.Invalid) :
    (processRule host legacy arg iface dump rule).val = .rule {
      fmr := rule.fmr
      lengths := l
      ipv4Prefix := rule.ipv4Prefix
      ipv6Prefix := rule.ipv6Prefix
      bmr := some (pd, pdlen, name, (ipv6Of legacy pdlen pd
        (ipv4Of host l rule.ipv4Prefix pdlen pd).val.1 (psidOf l pdlen pd).val.1).val)
      ipv4addr :=
        if beNat (ipv4Of host l rule.ipv4Prefix pdlen pd).val.1 inAddrSize = 0 then none
        else some (ipv4Of host l rule.ipv4Prefix pdlen pd).val
      portsets :=
        if l.psidlen > 0 ∧ (psidOf l pdlen pd).val.2 ≥ 0 then
          some (portLoop l.offset l.psidlen (psidOf l pdlen pd).val.2).val
        else none
      dmr := rule.dmr
      br := rule.br } := by
  unfold processRule
  simp only [val_bind, hfound, hl, if_neg hvalid]
  rw [if_neg (show ¬ (pdlen < 0 ∧ (!rule.fmr) = true) by omega), if_pos (show pdlen ≥ 0 from hpdlen)]
  simp only [val_bind, val_pure]
  by_cases hports : l.psidlen > 0 ∧ (psidOf l pdlen pd).val.2 ≥ 0
  · simp only [if_pos hports, val_bind, val_pure]
  · simp only [if_neg hports, val_bind, val_pure]

/-- The addresses and the ports of a rule are those of its EA bits. -/
theorem processRule_derives (host : Host) (legacy : Bool) (arg iface : List Byte) (dump : List IfaceAttrs)
    (rule : Rule) (h4lo : 0 ≤ rule.prefix4len) (h4hi : rule.prefix4len ≤ 32) (h6 : 0 ≤ rule.prefix6len)
    (hpsidlen : rule.psidlen ≤ 0) (pdlen : Int) (pd : Octets) (name : List Byte)
    (hfound : (findPd host arg iface dump rule).val = (pdlen, pd, name)) (e : Int)
    (healen : (rule.lengths legacy pdlen).ealen = e) (helo : 0 ≤ e) (hehi : e ≤ 48) (q : Nat)
    (hq : (q : Int) = max 0 (e - (32 - rule.prefix4len))) (hq16 : q ≤ 16)
    (hlong : rule.prefix6len + e ≤ pdlen) (hpdlen : pdlen ≤ 64) :
    ∃ printed, (processRule host legacy arg iface dump rule).val = .rule printed ∧
      Derives legacy rule pdlen pd name e q printed := by
  obtain ⟨hpsid, hpsidlen⟩ := Rule.lengths_derived legacy pdlen hpsidlen
  have hoffset := Rule.lengths_offset_nonneg legacy rule pdlen
  have h4 : (rule.lengths legacy pdlen).prefix4len = rule.prefix4len := rfl
  have h6len : (rule.lengths legacy pdlen).prefix6len = rule.prefix6len := rfl
  rw [healen, ← hq] at hpsidlen
  generalize hl : rule.lengths legacy pdlen = l at *
  have hvalid : ¬ l.Invalid := by
    unfold Lengths.Invalid
    omega
  have hpdpos : 0 ≤ pdlen := by omega
  obtain ⟨hpsidval, hpsidbits⟩ := psidOf_val pd (rule.prefix6len + e - q).toNat
    (show l.psid < 0 by omega) hpdpos hpsidlen hq16 (by omega) (by omega)
  obtain ⟨hlen, haddrbits⟩ := ipv4Of_val host rule.ipv4Prefix pd rule.prefix6len.toNat
    (e - q).toNat hpdpos (h4 ▸ h4lo) (h4 ▸ h4hi) (by omega) (by omega)
    (by omega) (by omega)
  have hipv4 : ∀ i < 32, bitAt (ipv4Of host l rule.ipv4Prefix pdlen pd).val.1 i = ipv4Bit rule pd e i := by
    intro i hi
    rw [haddrbits i hi, h4, ipv4Bit]
    refine if_congr Iff.rfl rfl (if_congr ?_ rfl rfl)
    omega
  refine ⟨_, processRule_val hfound hpdpos hl hvalid, ?_⟩
  refine ⟨healen, hpsidlen, ⟨_, hipv4, ?_⟩, ?_, ⟨_, rfl, fun i hi => ?_⟩⟩
  · rw [← h4, ← healen, ← hlen]
  · have hprinted : l.psidlen > 0 ∧ (psidOf l pdlen pd).val.2 ≥ 0 ↔ 0 < q := by
      rw [hpsidval]
      exact ⟨fun h => by omega, fun h => ⟨by omega, Int.natCast_nonneg _⟩⟩
    refine if_ctx_congr hprinted (fun hpos => ?_) fun _ => rfl
    rw [hpsidval, hpsidlen, portLoop_val hoffset hpos]
    rfl
  · rw [ipv6Of_val hpdpos (by omega) rfl]
    refine if_congr Iff.rfl rfl ?_
    refine if_ctx_congr Iff.rfl (fun h => hipv4 _ (by omega)) fun _ => ?_
    exact if_ctx_congr Iff.rfl (fun h => hpsidbits _ (by omega)) fun _ => rfl

/-- A rule with 16 EA bits for a prefix of 24 bits, so that the last 8 are the port set ID. -/
def sampleRule : Rule :=
  { Rule.initial with
    ealen := 16
    prefix4len := 24
    prefix6len := 32
    ipv4Prefix := natOctets 0xC0000200 4
    ipv6Prefix := natOctets (0x20010DB8 <<< 96) 16
    pd := natOctets (0x20010DB812345600 <<< 64) 16
    pdlen := 56 }

theorem processRule_derives_sample :
    ∃ printed, (processRule fewAddresses false (ofChars "*") (ofChars "*") [] sampleRule).val = .rule printed ∧
      Derives false sampleRule 56 (natOctets (0x20010DB812345600 <<< 64) 16) (ofChars "*") 16 8 printed :=
  processRule_derives fewAddresses false (ofChars "*") (ofChars "*") [] sampleRule (by decide) (by decide)
    (by decide) (by decide) 56 _ _ rfl 16 rfl (by decide) (by decide) 8 (by decide) (by decide) (by decide)
    (by decide)

/-! ### Endpoints -/

/-- What is printed gives the customer the port of the address. -/
def Printed.Uses (printed : Printed) (addr : Octets) (port : Nat) : Prop :=
  (∃ own len, printed.ipv4addr = some (own, len) ∧ ∀ i : Nat, i < 32 → (i : Int) < len → bitAt addr i = bitAt own i) ∧
    ∀ sets, printed.portsets = some sets → InPortSets sets port

/-- An address of the rule, as far as the rule gives addresses. -/
structure Rule.Covers (rule : Rule) (e : Nat) (addr : Octets) : Prop where
  prefix_eq : ∀ i : Nat, (i : Int) < rule.prefix4len → bitAt addr i = bitAt rule.ipv4Prefix i
  nonzero : ∃ i : Nat, i < 32 ∧ (i : Int) < rule.prefix4len + e ∧ bitAt addr i = true

/-- The EA bits of the customer that an endpoint belongs to: what the prefix leaves of the address, and the port set
ID of the port. -/
def eaBitsOf (rule : Rule) (offset : Int) (e q : Nat) (addr : Octets) (port : Nat) : Nat :=
  bitsNat addr rule.prefix4len.toNat (e - q) * 2 ^ q + psidOfPort offset.toNat q port

theorem mul_add_eq_iff {m a b x y : Nat} (hx : x < m) (hy : y < m) : a * m + x = b * m + y ↔ a = b ∧ x = y := by
  constructor
  · intro heq
    have hmod : (a * m + x) % m = (b * m + y) % m := congrArg (· % m) heq
    rw [Nat.mul_add_mod_self_right, Nat.mul_add_mod_self_right, Nat.mod_eq_of_lt hx, Nat.mod_eq_of_lt hy] at hmod
    have hmul : a * m = b * m := by omega
    exact ⟨Nat.eq_of_mul_eq_mul_right (by omega) hmul, hmod⟩
  · rintro ⟨rfl, rfl⟩
    rfl

/-- The EA bits are those of an endpoint when their first part completes the address and the last is the port set ID. -/
theorem eaBits_eq_iff (pd : Octets) (rule : Rule) (offset : Int) {e q : Nat} (hqe : q ≤ e) (addr : Octets) (port from6 : Nat) :
    bitsNat pd from6 e = eaBitsOf rule offset e q addr port ↔
      (∀ i < e - q, bitAt addr (rule.prefix4len.toNat + i) = bitAt pd (from6 + i)) ∧
        bitsNat pd (from6 + (e - q)) q = psidOfPort offset.toNat q port := by
  have hsplit : e = (e - q) + q := by omega
  have hpsid : psidOfPort offset.toNat q port < 2 ^ q := Nat.mod_lt _ (Nat.two_pow_pos _)
  rw [eaBitsOf, show bitsNat pd from6 e = bitsNat pd from6 (e - q + q) by rw [← hsplit], bitsNat_add,
    mul_add_eq_iff (bitsNat_lt _ _ _) hpsid, bitsNat_eq_iff]
  exact and_congr_left' (forall₂_congr fun _ _ => eq_comm)

/-- Every address and port of a rule belongs to the customer whose EA bits they are, and to no other: no two customers
are given the same endpoint, and no endpoint is lost. -/
theorem endpoint_owner (host : Host) (legacy : Bool) (arg iface : List Byte) (dump : List IfaceAttrs)
    (rule : Rule) (h4lo : 0 ≤ rule.prefix4len) (h4hi : rule.prefix4len ≤ 32) (h6 : 0 ≤ rule.prefix6len)
    (hpsidlen : rule.psidlen ≤ 0) (pdlen : Int) (pd : Octets) (name : List Byte)
    (hfound : (findPd host arg iface dump rule).val = (pdlen, pd, name)) (e : Nat)
    (healen : (rule.lengths legacy pdlen).ealen = e) (he : e ≤ 48) (q : Nat)
    (hq : (q : Int) = max 0 (e - (32 - rule.prefix4len))) (hlong : rule.prefix6len + e ≤ pdlen) (hpdlen : pdlen ≤ 64)
    (hports : 0 < q → (rule.lengths legacy pdlen).offset + q ≤ 16) :
    ∃ printed, (processRule host legacy arg iface dump rule).val = .rule printed ∧
      ∀ addr port, rule.Covers e addr → firstPort (rule.lengths legacy pdlen).offset.toNat ≤ port → port < 2 ^ 16 →
        (printed.Uses addr port ↔
          bitsNat pd rule.prefix6len.toNat e = eaBitsOf rule (rule.lengths legacy pdlen).offset e q addr port) := by
  obtain ⟨hpsid, hderived⟩ := Rule.lengths_derived legacy pdlen hpsidlen
  have hoffset := Rule.lengths_offset_nonneg legacy rule pdlen
  have h4 : (rule.lengths legacy pdlen).prefix4len = rule.prefix4len := rfl
  have h6len : (rule.lengths legacy pdlen).prefix6len = rule.prefix6len := rfl
  rw [healen, ← hq] at hderived
  generalize hl : rule.lengths legacy pdlen = l at *
  have hq16 : q ≤ 16 := by omega
  have hpdpos : 0 ≤ pdlen := by omega
  have hvalid : ¬ l.Invalid := by
    unfold Lengths.Invalid
    omega
  have hpsidval := (psidOf_val pd (rule.prefix6len.toNat + (e - q)) (show l.psid < 0 by omega) hpdpos hderived hq16
    (by omega) (by omega)).1
  obtain ⟨hlen, haddrbits⟩ := ipv4Of_val host rule.ipv4Prefix pd rule.prefix6len.toNat (e - q) hpdpos (h4 ▸ h4lo)
    (h4 ▸ h4hi) (by omega) (by omega) (by omega) (by omega)
  refine ⟨_, processRule_val hfound hpdpos hl hvalid, fun addr port hcovers hfirst hport => ?_⟩
  rw [eaBits_eq_iff pd rule l.offset (by omega)]
  refine and_congr ⟨?_, fun heabits => ?_⟩ ?_
  · rintro ⟨own, len, hown, hagree⟩ i hi
    obtain ⟨-, hown⟩ := Option.ite_none_left_eq_some.mp hown
    have hplace : bitAt own (rule.prefix4len.toNat + i) = bitAt pd (rule.prefix6len.toNat + i) := by
      have hbit := haddrbits (rule.prefix4len.toNat + i) (by omega)
      rw [Option.some.inj hown, if_neg (by omega), if_pos (by omega)] at hbit
      rw [hbit]
      congr 1
      omega
    rw [Option.some.inj hown] at hlen
    rw [← hplace]
    exact hagree _ (by omega) (by simp only at hlen; omega)
  · have hagree : ∀ i : Nat, i < 32 → (i : Int) < (ipv4Of host l rule.ipv4Prefix pdlen pd).val.2 →
        bitAt addr i = bitAt (ipv4Of host l rule.ipv4Prefix pdlen pd).val.1 i := by
      intro i hi hlt
      rw [haddrbits i hi]
      by_cases hpre : (i : Int) < l.prefix4len
      · rw [if_pos hpre]
        exact hcovers.prefix_eq i (h4 ▸ hpre)
      · rw [if_neg hpre, if_pos (by omega), ← heabits (i - l.prefix4len.toNat) (by omega)]
        congr 1
        omega
    obtain ⟨i, hi, hlt, hbit⟩ := hcovers.nonzero
    have hown : bitAt (ipv4Of host l rule.ipv4Prefix pdlen pd).val.1 i = true := by
      rw [← hagree i hi (by omega), hbit]
    exact ⟨_, _, if_neg (beNat_ne_zero (n := inAddrSize) hi hown), hagree⟩
  · by_cases hpos : 0 < q
    · have hsum := hports hpos
      have hcond : l.psidlen > 0 ∧ (psidOf l pdlen pd).val.2 ≥ 0 := by
        rw [hpsidval]
        exact ⟨by omega, Int.natCast_nonneg _⟩
      rw [if_pos hcond, hpsidval, hderived, portLoop_val hoffset hpos]
      simp only [Option.some.injEq, forall_eq']
      rw [inPortSets_iff hpos (by omega) (bitsNat_lt _ _ _), eq_comm]
      exact ⟨fun h => h.2.2, fun h => ⟨hfirst, hport, h⟩⟩
    · have hzero : q = 0 := by omega
      subst hzero
      have hcond : ¬ (l.psidlen > 0 ∧ (psidOf l pdlen pd).val.2 ≥ 0) := by omega
      simp only [if_neg hcond, reduceCtorEq, false_implies, implies_true, true_iff]
      rw [psidOfPort, Nat.pow_zero, Nat.mod_one]
      rfl

theorem endpoint_owner_sample :
    ∃ printed, (processRule fewAddresses false (ofChars "*") (ofChars "*") [] sampleRule).val = .rule printed ∧
      printed.Uses (natOctets 0xC0000212 4) 1232 := by
  obtain ⟨printed, hprinted, howner⟩ := endpoint_owner fewAddresses false (ofChars "*") (ofChars "*") [] sampleRule
    (by decide) (by decide) (by decide) (by decide) 56 _ _ rfl 16 rfl (by decide) 8 (by decide) (by decide) (by decide)
    (fun _ => by decide)
  have hcovers : sampleRule.Covers 16 (natOctets 0xC0000212 4) := by
    refine ⟨fun i hi => ?_, 0, by decide, by decide, by decide⟩
    have hlt : i < 24 := by simp only [sampleRule] at hi; omega
    interval_cases i <;> decide
  exact ⟨printed, hprinted, (howner _ 1232 hcovers (by decide) (by decide)).mpr (by decide)⟩

end Immwrt.Mapcalc
