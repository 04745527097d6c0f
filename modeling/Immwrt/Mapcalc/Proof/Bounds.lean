import Immwrt.Mapcalc.Proof.Main

/-!
# Which rules stay in their buffers

The options of a rule are checked one by one, and the rule as a whole by one test. The lengths that pass
may still be too long together: for the 4 bytes of an IPv4 address, for the 16 of the delegated prefix, for
the 16 bits of a port, and for a shift.
-/

namespace Immwrt.Mapcalc

open Traced

variable {host : Host} {legacy : Bool} {pd : Octets} {pdlen : Int} {l : Lengths}

/-! ### The options one by one -/

/-- What the checks of the options guarantee. -/
structure Rule.Ranges (rule : Rule) : Prop where
  ealen : rule.ealen ≤ 48
  prefix4len : rule.prefix4len ≤ 32
  prefix6len : rule.prefix6len ≤ 128
  offset : rule.offset ≤ 16
  psidlen : rule.psidlen ≤ 16
  psid : rule.psid ≤ 65535
  pdlen : rule.pdlen ≤ 128

theorem Rule.ranges_initial : Rule.initial.Ranges := by
  constructor <;> decide

/-- A number that an option takes is at most its maximum. -/
theorem getD_intOption_le {value : Option (List Byte)} {max old : Int} (hold : old ≤ max)
    {found : Option Int} (hfound : intOption host value max = some found) : found.getD old ≤ max := by
  obtain ⟨text, -, rfl⟩ := Option.map_eq_some_iff.mp hfound
  cases hfilter : ((host.strtoul text).map BitVec.toInt).filter fun intval => decide (intval ≤ max) with
  | none => exact hold
  | some intval => exact of_decide_eq_true (Option.filter_eq_some_iff.mp hfilter).2

theorem Rule.Ranges.option {rule rule' : Rule} (h : rule.Ranges) {opt : Option Opt}
    {value : Option (List Byte)} (hoption : rule.option host opt value = some rule') : rule'.Ranges := by
  cases opt with
  | none =>
      obtain rfl := Option.some.inj hoption
      exact h
  | some opt =>
      cases opt with
      | ealen =>
          obtain ⟨found, hfound, rfl⟩ := Option.map_eq_some_iff.mp hoption
          exact { h with ealen := getD_intOption_le h.ealen hfound }
      | prefix4len =>
          obtain ⟨found, hfound, rfl⟩ := Option.map_eq_some_iff.mp hoption
          exact { h with prefix4len := getD_intOption_le h.prefix4len hfound }
      | prefix6len =>
          obtain ⟨found, hfound, rfl⟩ := Option.map_eq_some_iff.mp hoption
          exact { h with prefix6len := getD_intOption_le h.prefix6len hfound }
      | offset =>
          obtain ⟨found, hfound, rfl⟩ := Option.map_eq_some_iff.mp hoption
          exact { h with offset := getD_intOption_le h.offset hfound }
      | psidlen =>
          obtain ⟨found, hfound, rfl⟩ := Option.map_eq_some_iff.mp hoption
          exact { h with psidlen := getD_intOption_le h.psidlen hfound }
      | psid =>
          obtain ⟨found, hfound, rfl⟩ := Option.map_eq_some_iff.mp hoption
          exact { h with psid := getD_intOption_le h.psid hfound }
      | pdlen =>
          obtain ⟨found, hfound, rfl⟩ := Option.map_eq_some_iff.mp hoption
          exact { h with pdlen := getD_intOption_le h.pdlen hfound }
      | ipv6Prefix | ipv4Prefix | pd =>
          obtain ⟨text, -, rfl⟩ := Option.map_eq_some_iff.mp hoption
          exact { h with }
      | type | fmr | br | dmr =>
          obtain rfl := Option.some.inj hoption
          exact { h with }

theorem Rule.Ranges.parseOptions {rule rule' : Rule} (h : rule.Ranges) {text : List Byte}
    (hparse : Mapcalc.parseOptions host rule text = some rule') : rule'.Ranges := by
  fun_induction Mapcalc.parseOptions host rule text with
  | case1 rule =>
      obtain rfl := Option.some.inj hparse
      exact h
  | case2 rule text hne hnone => cases hparse
  | case3 rule text hne next hnext ih => exact ih (h.option hnext) hparse

theorem ranges_parseRule {arg : List Byte} {rule : Rule} (hparse : parseRule host arg = some rule) :
    rule.Ranges :=
  Rule.ranges_initial.parseOptions hparse

/-! ### Looking for the delegated prefix -/

section FindPd

variable {ipv6Prefix : Octets} {prefix6len : Int} {lw4o6 : Bool}

/-- The masks in a dump are those of IPv6 prefixes. -/
def DumpOk (dump : List IfaceAttrs) : Prop := ∀ c ∈ dump, MasksOk c.prefixes ∧ MasksOk c.addresses

theorem bytesOf_toSize_le {n : Int} (hlo : 0 ≤ n) (hhi : n ≤ 128) : bytesOf (toSize n) ≤ in6AddrSize := by
  rw [toSize_of_nonneg hlo (by omega), bytesOf, in6AddrSize]
  omega

theorem safe_matchEntry (hlo : 0 ≤ prefix6len) (hhi : prefix6len ≤ 128) (pdlen : Int) (pd : Octets)
    {addr : Octets} {mask : Int} (hmask : 0 ≤ mask ∧ mask ≤ 128) :
    Safe (matchEntry ipv6Prefix prefix6len lw4o6 pdlen pd addr mask) := by
  have hpre := bytesOf_toSize_le hlo hhi
  have hmaskbytes := bytesOf_toSize_le hmask.1 hmask.2
  have hcmp : Every Access.Ok (bmemcmp in6AddrSize in6AddrSize addr ipv6Prefix (toSize prefix6len)) :=
    safe_bmemcmp hpre hpre
  have hcmpmask : Every Access.Ok (bmemcmp in6AddrSize in6AddrSize addr ipv6Prefix (toSize mask)) :=
    safe_bmemcmp hmaskbytes hmaskbytes
  have hcopy : Every Access.Ok (bmemcpy in6AddrSize in6AddrSize pd addr (toSize mask)) :=
    safe_bmemcpy_iff.mpr ⟨hmaskbytes, hmaskbytes⟩
  have hcopypre : Every Access.Ok (bmemcpy in6AddrSize in6AddrSize pd ipv6Prefix (toSize prefix6len)) :=
    safe_bmemcpy_iff.mpr ⟨hpre, hpre⟩
  simp only [Safe, matchEntry, every_bind, every_ite, every_pure, hcmp, hcmpmask, hcopy, hcopypre,
    and_true, implies_true]

/-- The length in hand stays that of an IPv6 prefix. -/
theorem safe_matchPrefix (hlo : 0 ≤ prefix6len) (hhi : prefix6len ≤ 128) {pdlen : Int} (hpdlen : pdlen ≤ 128)
    (pd : Octets) {cur : Option (List PrefixAttrs)} (hmasks : MasksOk cur) :
    Safe (matchPrefix host ipv6Prefix prefix6len lw4o6 pdlen pd cur) ∧
      (matchPrefix host ipv6Prefix prefix6len lw4o6 pdlen pd cur).val.1 ≤ 128 := by
  refine @every_foldlM _ _ _ _ _ (fun state : Int × Octets => state.1 ≤ 128) _ (fun state entry hentry hle => ?_) _
    hpdlen
  have hmask := mask_of_mem hmasks hentry
  refine ⟨safe_matchEntry hlo hhi state.1 state.2 hmask, ?_⟩
  rcases matchEntry_cases ipv6Prefix lw4o6 hlo hhi state.1 state.2 hmask with
    ⟨-, -, hval⟩ | ⟨-, -, hval⟩ | ⟨-, hval⟩
  · rw [hval]
    exact hmask.2
  · rw [hval]
    exact hhi
  · rw [hval]
    exact hle

theorem safe_findPdLoop (hlo : 0 ≤ prefix6len) (hhi : prefix6len ≤ 128) {dump : List IfaceAttrs}
    (hdump : DumpOk dump) (arg iface : List Byte) {pdlen : Int} (hpdlen : pdlen ≤ 128) (pd : Octets) :
    Safe (findPdLoop host ipv6Prefix prefix6len lw4o6 arg iface pdlen pd dump) ∧
      (findPdLoop host ipv6Prefix prefix6len lw4o6 arg iface pdlen pd dump).val.1 ≤ 128 := by
  induction dump generalizing pdlen pd with
  | nil => exact ⟨every_pure _, hpdlen⟩
  | cons c dump ih =>
      obtain ⟨hprefixes, haddresses⟩ := hdump c List.mem_cons_self
      replace ih := fun {pdlen : Int} (hpdlen : pdlen ≤ 128) =>
        ih (fun c hc => hdump c (List.mem_cons_of_mem _ hc)) hpdlen
      unfold findPdLoop
      cases c.interface with
      | none => exact ih hpdlen pd
      | some interface =>
          dsimp only
          split
          · exact ih hpdlen pd
          · have hend : ∀ state : Int × Octets, state.1 ≤ 128 →
                Every Access.Ok (if state.1 ≥ 0 then pure (state.1, state.2, interface)
                  else findPdLoop host ipv6Prefix prefix6len lw4o6 arg iface state.1 state.2 dump) ∧
                (if state.1 ≥ 0 then pure (state.1, state.2, interface)
                  else findPdLoop host ipv6Prefix prefix6len lw4o6 arg iface state.1 state.2 dump).val.1 ≤ 128 := by
              intro state hle
              split
              · exact ⟨every_pure _, hle⟩
              · exact ih hle state.2
            refine every_val_bind (q := fun state : Int × Octets => state.1 ≤ 128)
              (r := fun found : Int × Octets × List Byte => found.1 ≤ 128)
              (safe_matchPrefix hlo hhi hpdlen pd hprefixes) fun state hle => ?_
            cases lw4o6 with
            | true =>
                exact every_val_bind (q := fun state : Int × Octets => state.1 ≤ 128)
                  (r := fun found : Int × Octets × List Byte => found.1 ≤ 128) (safe_matchPrefix hlo hhi hle state.2 haddresses) hend
            | false =>
                exact every_val_bind (q := fun state : Int × Octets => state.1 ≤ 128)
                  (r := fun found : Int × Octets × List Byte => found.1 ≤ 128) ⟨every_pure _, hle⟩ hend

theorem safe_findPd (host : Host) {dump : List IfaceAttrs} (hdump : DumpOk dump) {rule : Rule} (hrule : rule.Ranges)
    (h6 : 0 ≤ rule.prefix6len) (arg iface : List Byte) :
    Safe (findPd host arg iface dump rule) ∧ (findPd host arg iface dump rule).val.1 ≤ 128 := by
  unfold findPd
  split
  · exact safe_findPdLoop h6 hrule.prefix6len hdump arg iface hrule.pdlen rule.pd
  · exact ⟨every_pure _, hrule.pdlen⟩

end FindPd

/-! ### The copies of a rule -/

/-- What the test of a rule and the ranges of its options leave of its lengths. -/
structure Lengths.Accepted (l : Lengths) : Prop where
  prefix4len : 0 ≤ l.prefix4len ∧ l.prefix4len ≤ 32
  prefix6len : 0 ≤ l.prefix6len ∧ l.prefix6len ≤ 128
  ealen : 0 ≤ l.ealen ∧ l.ealen ≤ 128
  offset : 0 ≤ l.offset ∧ l.offset ≤ 16
  psidlen : 0 ≤ l.psidlen ∧ l.psidlen ≤ 16
  fits : l.psidlen ≤ l.ealen

theorem Rule.Ranges.accepted {rule : Rule} (h : rule.Ranges) (hpdlen : pdlen ≤ 128)
    (hvalid : ¬ (rule.lengths legacy pdlen).Invalid) : (rule.lengths legacy pdlen).Accepted := by
  have hoffset := Rule.lengths_offset_nonneg legacy rule pdlen
  have hoffset16 : (rule.lengths legacy pdlen).offset ≤ 16 := by
    have hrange := h.offset
    simp only [Rule.lengths]
    split
    · split <;> [decide; (split <;> decide)]
    · omega
  have hpsidlen : 0 ≤ (rule.lengths legacy pdlen).psidlen := by
    simp only [Rule.lengths]
    split <;> omega
  have hprefix4len := h.prefix4len
  have hprefix6len := h.prefix6len
  have h4 : (rule.lengths legacy pdlen).prefix4len = rule.prefix4len := rfl
  have h6 : (rule.lengths legacy pdlen).prefix6len = rule.prefix6len := rfl
  unfold Lengths.Invalid at hvalid
  have healen : (rule.lengths legacy pdlen).ealen ≤ 128 := by
    have hrange := h.ealen
    have hpsidlenrange := h.psidlen
    simp only [Rule.lengths]
    split_ifs <;> omega
  constructor <;> omega

theorem Lengths.Accepted.shift_ok (h : l.Accepted) : Access.Ok (.shift (16 - l.psidlen)) := by
  have hpsidlen := h.psidlen
  constructor <;> omega

theorem safe_psidOf_iff (pdlen : Int) (pd : Octets) (h : l.Accepted) :
    Safe (psidOf l pdlen pd) ↔ (l.psid < 0 ∧ 0 ≤ pdlen → l.prefix6len + l.ealen < 128) := by
  have hshift := h.shift_ok
  obtain ⟨-, ⟨h6lo, h6hi⟩, ⟨helo, hehi⟩, -, ⟨hplo, hphi⟩, hfits⟩ := h
  have hcopy : Safe (bmemcpys64 2 in6AddrSize addrAny pd (toSize (l.prefix6len + l.ealen - l.psidlen))
      (toSize l.psidlen)) ↔ l.prefix6len + l.ealen < 128 := by
    rw [safe_bmemcpys64_iff, toSize_of_nonneg (by omega) (by omega), toSize_of_nonneg hplo (by omega),
      bytesOf, in6AddrSize]
    omega
  simp only [psidOf, every_ite, every_bind, every_pure, shift, every_emit, hshift, hcopy, and_true, implies_true]
  exact ⟨fun hsafe hopen => hsafe ⟨hopen.1, hplo, hopen.2⟩, fun hsafe hopen => hsafe ⟨hopen.1, hopen.2.2⟩⟩

theorem safe_ipv4Of_iff (host : Host) (ipv4Prefix : Octets) (pdlen : Int) (pd : Octets) (h : l.Accepted) :
    Safe (ipv4Of host l ipv4Prefix pdlen pd) ↔ (0 ≤ pdlen ∨ l.ealen = l.psidlen →
      l.prefix4len < 32 ∧ l.ealen - l.psidlen ≤ 32 ∧ l.prefix6len + (l.ealen - l.psidlen) < 128) := by
  obtain ⟨⟨h4lo, h4hi⟩, ⟨h6lo, h6hi⟩, ⟨helo, hehi⟩, -, ⟨hplo, hphi⟩, hfits⟩ := h
  have hcopy : Safe (bmemcpys64 inAddrSize in6AddrSize addrAny pd (toSize l.prefix6len)
      (toSize (l.ealen - l.psidlen))) ↔
        l.ealen - l.psidlen ≤ 32 ∧ l.prefix6len + (l.ealen - l.psidlen) < 128 := by
    rw [safe_bmemcpys64_iff, toSize_of_nonneg h6lo (by omega), toSize_of_nonneg (by omega) (by omega),
      bytesOf, in6AddrSize, inAddrSize]
    omega
  have hmerge : ∀ a : Octets,
      Safe (bmemcpy inAddrSize inAddrSize a ipv4Prefix (toSize l.prefix4len)) := by
    intro a
    have hbytes : bytesOf (toSize l.prefix4len) ≤ inAddrSize := by
      rw [toSize_of_nonneg h4lo (by omega), bytesOf, inAddrSize]
      omega
    exact safe_bmemcpy_iff.mpr ⟨hbytes, hbytes⟩
  simp only [ipv4Of, shiftAddr, every_ite, every_bind, every_pure, shift, every_emit, hcopy, hmerge, and_true,
    implies_true, Access.Ok]
  refine imp_congr Iff.rfl ?_
  omega

theorem safe_ipv6Of {ipv4addr psid16 : Octets} (hlo : 0 ≤ pdlen) (hhi : pdlen ≤ 128) :
    Safe (ipv6Of legacy pdlen pd ipv4addr psid16) := by
  have hbytes := bytesOf_toSize_le hlo hhi
  have hcopy : ∀ a : Octets, Safe (bmemcpy in6AddrSize in6AddrSize a pd (toSize pdlen)) :=
    fun a => safe_bmemcpy_iff.mpr ⟨hbytes, hbytes⟩
  simp only [ipv6Of, every_bind, touch, every_emit, hcopy, and_true]
  cases legacy <;> decide

/-- The port set loop has at least one turn, which is where it shifts. -/
theorem safe_portLoop_iff {offset psidlen : Int} (psid : Int) (hoffset : 0 ≤ offset ∧ offset ≤ 16)
    (hpsidlen : 0 ≤ psidlen) :
    Safe (portLoop offset psidlen psid) ↔ offset + psidlen ≤ 16 := by
  have hturn : ∃ k, k ∈ List.range' (if offset = 0 then 0 else 1)
      ((1 <<< offset.toNat) - if offset = 0 then 0 else 1) := by
    refine ⟨if offset = 0 then 0 else 1, List.mem_range'_1.mpr ⟨le_rfl, ?_⟩⟩
    rw [Nat.one_shiftLeft]
    split
    · next hzero =>
        rw [hzero]
        decide
    · have := Nat.lt_two_pow_self (n := offset.toNat)
      omega
  obtain ⟨k, hk⟩ := hturn
  simp only [portLoop, every_bind, every_pure, every_forM, shift, every_emit, Access.Ok, and_true]
  exact ⟨fun hsafe => by have := hsafe.2 k hk; omega, fun hsum => ⟨by omega, fun _ _ => by omega⟩⟩

/-- A port set ID is there, for the loop, if the rule or a delegated prefix gives one. -/
theorem psidOf_nonneg_iff (pdlen : Int) (pd : Octets) (h : l.Accepted) :
    0 ≤ (psidOf l pdlen pd).val.2 ↔ 0 ≤ l.psid ∨ 0 ≤ pdlen := by
  have hpsidlen := h.psidlen
  have hsign : ∀ (x : Int) (k : Nat), 0 ≤ (x >>> k) * 2 ^ k ↔ 0 ≤ x := by
    intro x k
    rw [mul_nonneg_iff_of_pos_right (by positivity), Int.shiftRight_eq_div_pow]
    exact Int.le_ediv_iff_mul_le (by positivity) |>.trans (by simp)
  have hstart : ∀ x : Octets × Int,
      0 ≤ (if l.psidlen > 0 then do
          shift (16 - l.psidlen)
          let psid := x.2 >>> (16 - l.psidlen).toNat
          shift (16 - l.psidlen)
          pure (natOctets (psid % 2 ^ 16).toNat 2, psid * 2 ^ (16 - l.psidlen).toNat)
        else pure (x.1, x.2) : Traced Access (Octets × Int)).val.2 ↔ 0 ≤ x.2 := by
    intro x
    split
    · exact hsign x.2 _
    · exact Iff.rfl
  unfold psidOf
  by_cases hopen : l.psid < 0 ∧ l.psidlen ≥ 0 ∧ pdlen ≥ 0
  · rw [if_pos hopen]
    refine (hstart (_, _)).trans ?_
    simp [hopen]
  · rw [if_neg hopen]
    refine (hstart (addrAny, l.psid)).trans ?_
    change 0 ≤ l.psid ↔ _
    omega

/-! ### A rule -/

/-- The lengths of a rule that is not skipped as invalid, for a delegated prefix of length `pdlen`, are short
enough together. -/
structure Lengths.Fits (l : Lengths) (fmr : Bool) (pdlen : Int) : Prop where
  /-- The port set ID ends before the last bit of the delegated prefix. -/
  psid : l.psid < 0 ∧ 0 ≤ pdlen → l.prefix6len + l.ealen < 128
  /-- The IPv4 prefix leaves a bit, and the EA bits before the port set ID are those of an IPv4 address. -/
  ipv4addr : 0 ≤ pdlen ∨ l.ealen = l.psidlen →
    l.prefix4len < 32 ∧ l.ealen - l.psidlen ≤ 32 ∧ l.prefix6len + (l.ealen - l.psidlen) < 128
  /-- A port has room for the offset and the port set ID, if there are port sets to print. -/
  ports : (0 ≤ pdlen ∨ fmr = true) → 0 < l.psidlen → (0 ≤ l.psid ∨ 0 ≤ pdlen) → l.offset + l.psidlen ≤ 16

theorem processRule_safe_iff (host : Host) (legacy : Bool) (arg iface : List Byte) (dump : List IfaceAttrs)
    (hdump : DumpOk dump) (text : List Byte) (rule : Rule) (hparse : parseRule host text = some rule)
    (hvalid : ¬ (rule.lengths legacy (findPd host arg iface dump rule).val.1).Invalid) :
    Safe (processRule host legacy arg iface dump rule) ↔
      (rule.lengths legacy (findPd host arg iface dump rule).val.1).Fits rule.fmr
        (findPd host arg iface dump rule).val.1 := by
  have hrule := ranges_parseRule hparse
  have h6 : 0 ≤ rule.prefix6len := by
    by_contra hneg
    exact hvalid (Or.inr (Or.inl (not_le.mp hneg)))
  obtain ⟨hfind, hpdlen⟩ := safe_findPd host hdump hrule h6 arg iface
  have haccepted := hrule.accepted hpdlen hvalid
  generalize hfound : (findPd host arg iface dump rule).val = found at *
  obtain ⟨pdlen, pd, name⟩ := found
  change pdlen ≤ 128 at hpdlen
  have hpsid := safe_psidOf_iff pdlen pd haccepted
  have haddr := safe_ipv4Of_iff host rule.ipv4Prefix pdlen pd haccepted
  have hports := fun psid => safe_portLoop_iff psid haccepted.offset haccepted.psidlen.1
  have hnonneg := psidOf_nonneg_iff pdlen pd haccepted
  have hipv6 : ∀ ipv4addr psid16, 0 ≤ pdlen → Safe (ipv6Of legacy pdlen pd ipv4addr psid16) :=
    fun ipv4addr psid16 hlo => safe_ipv6Of hlo hpdlen
  unfold processRule
  simp only [every_bind, hfind, hfound, true_and]
  rw [if_neg hvalid]
  simp only [every_ite, every_bind, every_pure, hports, true_and, and_true, implies_true, ge_iff_le, gt_iff_lt,
    hnonneg]
  constructor
  · rintro ⟨hpsidsafe, haddrsafe, hend⟩
    refine ⟨hpsid.mp hpsidsafe, haddr.mp haddrsafe, fun hprinted hpos hthere => ?_⟩
    by_cases hpd : 0 ≤ pdlen
    · exact ((hend fun h => by omega).1 hpd).2 ⟨hpos, hthere⟩
    · refine (hend fun h => ?_).2 hpd ⟨hpos, hthere⟩
      rcases hprinted with hpd' | hfmr
      · exact hpd hpd'
      · rw [hfmr] at h
        exact absurd h.2 (by decide)
  · intro hfits
    refine ⟨hpsid.mpr hfits.psid, haddr.mpr hfits.ipv4addr, fun hprinted => ⟨fun hpd => ?_, fun hpd => ?_⟩⟩
    · exact ⟨hipv6 _ _ hpd, fun hthere => hfits.ports (Or.inl hpd) hthere.1 hthere.2⟩
    · intro hthere
      refine hfits.ports (Or.inr ?_) hthere.1 hthere.2
      cases hfmr : rule.fmr with
      | true => rfl
      | false => exact absurd ⟨not_le.mp hpd, by rw [hfmr]; rfl⟩ hprinted

/-! ### Rules as they are written -/

theorem parseOptions_step {rule rule' : Rule} {text : List Byte} (hne : text ≠ [])
    (hoption : rule.option host (getsubopt text).1 (getsubopt text).2.1 = some rule') :
    parseOptions host rule text = parseOptions host rule' (getsubopt text).2.2 := by
  rw [parseOptions, if_neg hne, hoption]

theorem parseOptions_nil {rule : Rule} {text : List Byte} (hnil : text = []) :
    parseOptions host rule text = some rule := by
  rw [parseOptions, if_pos hnil]

/-- A customer of 256 who share an address, with the default offset. -/
theorem processRule_safe_shared :
    Safe (processRule fewAddresses false (ofChars "wan") (ofChars "wan") [] { Rule.initial with
      ealen := 16
      prefix4len := 24
      prefix6len := 32
      pdlen := 56 }) :=
  (processRule_safe_iff fewAddresses false (ofChars "wan") (ofChars "wan") []
    (fun c hc => absurd hc List.not_mem_nil) (ofChars "ealen=16,prefix4len=24,prefix6len=32,pdlen=56") _
    ((parseOptions_step (by decide) rfl).trans <| (parseOptions_step (by decide) rfl).trans <|
      (parseOptions_step (by decide) rfl).trans <| (parseOptions_step (by decide) rfl).trans <|
      parseOptions_nil (by decide)) (by decide)).mpr ⟨by decide, by decide, by decide⟩

/-- Without `prefix4len` a rule has the 32 bits of a whole address, by which the EA bits are shifted. -/
theorem processRule_not_safe :
    ∃ rule, parseRule fewAddresses (ofChars "ealen=8,prefix6len=32,pdlen=56") = some rule ∧
      ¬ (rule.lengths false
        (findPd fewAddresses (ofChars "wan") (ofChars "wan") [] rule).val.1).Invalid ∧
      ¬ Safe (processRule fewAddresses false (ofChars "wan") (ofChars "wan") [] rule) := by
  refine ⟨_, (parseOptions_step (by decide) rfl).trans <| (parseOptions_step (by decide) rfl).trans <|
    (parseOptions_step (by decide) rfl).trans <| parseOptions_nil (by decide), by decide, fun hsafe => ?_⟩
  have hshift := hsafe (.shift 32) (by decide)
  revert hshift
  decide

end Immwrt.Mapcalc
