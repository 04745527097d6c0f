import Immwrt.Mapcalc.Match
import Immwrt.Mapcalc.Proof.BitCopy

/-!
# The longest delegated prefix

An entry offers a length: its mask when it starts with the rule's prefix, and for lw4over6 the length of
the rule's prefix when the entry is shorter and the rule's prefix starts with it. A turn of the loop takes
the offer if it is longer than what there is, so that the end is the longest offer, and the bits of an
earlier one are overwritten by a later one.
-/

namespace Immwrt.Mapcalc

open Traced

theorem toSize_of_nonneg {n : Int} (hlo : 0 ≤ n) (hhi : n < 2 ^ 64) : toSize n = n.toNat := by
  rw [toSize, Int.emod_eq_of_lt hlo hhi]

section Offers

variable (ipv6Prefix : Octets) (prefix6len : Int) (lw4o6 : Bool)

/-- The entry starts with the rule's prefix. -/
def Agrees (entry : Octets × Int) : Prop :=
  prefix6len ≤ entry.2 ∧ AgreeOn prefix6len.toNat entry.1 ipv6Prefix

/-- The rule's prefix starts with the entry, which is enough for lw4over6. -/
def Covers (entry : Octets × Int) : Prop :=
  lw4o6 = true ∧ entry.2 < prefix6len ∧ AgreeOn entry.2.toNat entry.1 ipv6Prefix

/-- The length that an entry offers. -/
def Offers (entry : Octets × Int) (n : Int) : Prop :=
  Agrees ipv6Prefix prefix6len entry ∧ n = entry.2 ∨
    Covers ipv6Prefix prefix6len lw4o6 entry ∧ n = prefix6len

/-- The longest of the lengths offered and the one there was. -/
structure Best (entries : List (Octets × Int)) (pdlen n : Int) : Prop where
  start : pdlen ≤ n
  offer : ∀ entry ∈ entries, ∀ m, Offers ipv6Prefix prefix6len lw4o6 entry m → m ≤ n
  attained : n = pdlen ∨ ∃ entry ∈ entries, Offers ipv6Prefix prefix6len lw4o6 entry n

/-- Where the bits of the prefix are from. -/
def Source (entries : List (Octets × Int)) (n : Int) (pd : Octets) : Prop :=
  ∃ entry ∈ entries,
    Agrees ipv6Prefix prefix6len entry ∧ n = entry.2 ∧ AgreeOn n.toNat pd entry.1 ∨
      Covers ipv6Prefix prefix6len lw4o6 entry ∧ n = prefix6len ∧ AgreeOn n.toNat pd ipv6Prefix

/-- A prefix has no bits beyond its length. -/
def ZeroFrom (n : Int) (pd : Octets) : Prop := ∀ i : Nat, n ≤ i → bitAt pd i = false

/-- What the loop has after some entries. -/
structure Held (entries : List (Octets × Int)) (pdlen : Int) (state : Int × Octets) : Prop where
  best : Best ipv6Prefix prefix6len lw4o6 entries pdlen state.1
  zero : ZeroFrom state.1 state.2
  source : state.1 = pdlen ∨ Source ipv6Prefix prefix6len lw4o6 entries state.1 state.2

end Offers

variable {ipv6Prefix : Octets} {prefix6len : Int} {lw4o6 : Bool}

/-! ### One entry -/

/-- The three ways a turn may go. -/
theorem matchEntry_cases (ipv6Prefix : Octets) (lw4o6 : Bool) (hlo : 0 ≤ prefix6len) (hhi : prefix6len ≤ 128) (pdlen : Int) (pd : Octets)
    {entry : Octets × Int} (hmask : 0 ≤ entry.2 ∧ entry.2 ≤ 128) :
    (pdlen < entry.2 ∧ Agrees ipv6Prefix prefix6len entry ∧
        (matchEntry ipv6Prefix prefix6len lw4o6 pdlen pd entry.1 entry.2).val =
          (entry.2, (bmemcpy in6AddrSize in6AddrSize pd entry.1 entry.2.toNat).val)) ∨
      (pdlen < prefix6len ∧ Covers ipv6Prefix prefix6len lw4o6 entry ∧
        (matchEntry ipv6Prefix prefix6len lw4o6 pdlen pd entry.1 entry.2).val =
          (prefix6len, (bmemcpy in6AddrSize in6AddrSize pd ipv6Prefix prefix6len.toNat).val)) ∨
      ((∀ n, Offers ipv6Prefix prefix6len lw4o6 entry n → n ≤ pdlen) ∧
        (matchEntry ipv6Prefix prefix6len lw4o6 pdlen pd entry.1 entry.2).val = (pdlen, pd)) := by
  have hlen : toSize prefix6len = prefix6len.toNat := toSize_of_nonneg hlo (by omega)
  have hmasklen : toSize entry.2 = entry.2.toNat := toSize_of_nonneg hmask.1 (by omega)
  unfold matchEntry
  simp only [hlen, hmasklen]
  by_cases hlonger : pdlen < entry.2 ∧ entry.2 ≥ prefix6len
  · have hcmp : (bmemcmp in6AddrSize in6AddrSize entry.1 ipv6Prefix prefix6len.toNat).val = 0 ↔
        AgreeOn prefix6len.toNat entry.1 ipv6Prefix :=
      bmemcmp_eq_zero_iff entry.1 ipv6Prefix prefix6len.toNat
    simp only [if_pos hlonger, val_bind]
    by_cases hagree : AgreeOn prefix6len.toNat entry.1 ipv6Prefix
    · refine Or.inl ⟨hlonger.1, ⟨hlonger.2, hagree⟩, ?_⟩
      rw [if_pos (hcmp.mpr hagree)]
      rfl
    · have hshort : ¬ (lw4o6 = true ∧ pdlen < prefix6len ∧ entry.2 < prefix6len) := fun h => by omega
      refine Or.inr (Or.inr ⟨?_, ?_⟩)
      · rintro n (⟨h, -⟩ | ⟨h, -⟩)
        · exact absurd h.2 hagree
        · exact absurd h.2.1 (by omega)
      · rw [if_neg (mt hcmp.mp hagree), if_neg hshort]
        rfl
  · have hcmp : (bmemcmp in6AddrSize in6AddrSize entry.1 ipv6Prefix entry.2.toNat).val = 0 ↔
        AgreeOn entry.2.toNat entry.1 ipv6Prefix :=
      bmemcmp_eq_zero_iff entry.1 ipv6Prefix entry.2.toNat
    simp only [if_neg hlonger, val_bind, val_pure, one_ne_zero, if_false]
    by_cases hshorter : lw4o6 = true ∧ pdlen < prefix6len ∧ entry.2 < prefix6len
    · simp only [if_pos hshorter, val_bind]
      by_cases hagree : AgreeOn entry.2.toNat entry.1 ipv6Prefix
      · refine Or.inr (Or.inl ⟨hshorter.2.1, ⟨hshorter.1, hshorter.2.2, hagree⟩, ?_⟩)
        rw [if_pos (hcmp.mpr hagree)]
        rfl
      · refine Or.inr (Or.inr ⟨?_, ?_⟩)
        · rintro n (⟨h, -⟩ | ⟨h, -⟩)
          · exact absurd h.1 (by omega)
          · exact absurd h.2.2 hagree
        · rw [if_neg (mt hcmp.mp hagree)]
          rfl
    · refine Or.inr (Or.inr ⟨?_, ?_⟩)
      · rintro n (⟨h, rfl⟩ | ⟨h, rfl⟩)
        · have := h.1
          omega
        · by_contra hlt
          exact hshorter ⟨h.1, by omega, h.2.1⟩
      · rw [if_neg hshorter]
        rfl

/-- A copy of leading bits onto a prefix that ends before them. -/
theorem zeroFrom_bmemcpy {n m : Int} {pd src : Octets} (hzero : ZeroFrom n pd) (hle : n ≤ m) (hm : 0 ≤ m) :
    ZeroFrom m (bmemcpy in6AddrSize in6AddrSize pd src m.toNat).val := by
  intro i hi
  rw [bitAt_bmemcpy, if_neg (by omega)]
  exact hzero i (by omega)

theorem agreeOn_bmemcpy (pd src : Octets) (n : Nat) :
    AgreeOn n (bmemcpy in6AddrSize in6AddrSize pd src n).val src := by
  intro i hi
  rw [bitAt_bmemcpy, if_pos hi]

theorem Source.mono {entries entries' : List (Octets × Int)} {n : Int} {pd : Octets}
    (h : Source ipv6Prefix prefix6len lw4o6 entries n pd) (hsub : entries ⊆ entries') :
    Source ipv6Prefix prefix6len lw4o6 entries' n pd := by
  obtain ⟨entry, hmem, hentry⟩ := h
  exact ⟨entry, hsub hmem, hentry⟩

/-- A turn extends what the loop has by one entry. -/
theorem Held.turn (hlo : 0 ≤ prefix6len) (hhi : prefix6len ≤ 128) {entries : List (Octets × Int)}
    {pdlen : Int} {state : Int × Octets} (h : Held ipv6Prefix prefix6len lw4o6 entries pdlen state)
    {entry : Octets × Int} (hmask : 0 ≤ entry.2 ∧ entry.2 ≤ 128) :
    Held ipv6Prefix prefix6len lw4o6 (entries ++ [entry]) pdlen
      (matchEntry ipv6Prefix prefix6len lw4o6 state.1 state.2 entry.1 entry.2).val := by
  have hlast : entry ∈ entries ++ [entry] := List.mem_append_right _ (List.mem_singleton.mpr rfl)
  have hsub : entries ⊆ entries ++ [entry] := List.subset_append_left _ _
  have hstart := h.best.start
  -- a longer offer replaces what there is, another one leaves it
  have hbest : ∀ n, state.1 ≤ n → (∀ m, Offers ipv6Prefix prefix6len lw4o6 entry m → m ≤ n) →
      (n = state.1 ∨ Offers ipv6Prefix prefix6len lw4o6 entry n) →
      Best ipv6Prefix prefix6len lw4o6 (entries ++ [entry]) pdlen n := by
    intro n hle hoffer hn
    refine ⟨hstart.trans hle, fun other hother m hm => ?_, ?_⟩
    · rcases List.mem_append.mp hother with hold | hnew
      · exact (h.best.offer other hold m hm).trans hle
      · exact hoffer m (List.mem_singleton.mp hnew ▸ hm)
    · rcases hn with rfl | hn
      · rcases h.best.attained with heq | ⟨other, hother, hattained⟩
        · exact Or.inl heq
        · exact Or.inr ⟨other, hsub hother, hattained⟩
      · exact Or.inr ⟨entry, hlast, hn⟩
  rcases matchEntry_cases ipv6Prefix lw4o6 hlo hhi state.1 state.2 hmask with
    ⟨hlt, hagrees, hval⟩ | ⟨hlt, hcovers, hval⟩ | ⟨hnone, hval⟩
  · rw [hval]
    refine ⟨hbest _ hlt.le ?_ (Or.inr (Or.inl ⟨hagrees, rfl⟩)),
      zeroFrom_bmemcpy h.zero hlt.le hmask.1,
      Or.inr ⟨entry, hlast, Or.inl ⟨hagrees, rfl, agreeOn_bmemcpy _ _ _⟩⟩⟩
    rintro m (⟨-, rfl⟩ | ⟨-, rfl⟩)
    · exact le_rfl
    · exact hagrees.1
  · rw [hval]
    refine ⟨hbest _ hlt.le ?_ (Or.inr (Or.inr ⟨hcovers, rfl⟩)),
      zeroFrom_bmemcpy h.zero hlt.le hlo,
      Or.inr ⟨entry, hlast, Or.inr ⟨hcovers, rfl, agreeOn_bmemcpy _ _ _⟩⟩⟩
    rintro m (⟨hagrees, rfl⟩ | ⟨-, rfl⟩)
    · exact absurd hagrees.1 (not_le.mpr hcovers.2.1)
    · exact le_rfl
  · rw [hval]
    refine ⟨hbest _ le_rfl hnone (Or.inl rfl), h.zero, ?_⟩
    rcases h.source with heq | hsource
    · exact Or.inl heq
    · exact Or.inr (hsource.mono hsub)

/-! ### The loop -/

theorem held_foldl (hlo : 0 ≤ prefix6len) (hhi : prefix6len ≤ 128) {before entries : List (Octets × Int)}
    {pdlen : Int} {state : Int × Octets} (h : Held ipv6Prefix prefix6len lw4o6 before pdlen state)
    (hmasks : ∀ entry ∈ entries, 0 ≤ entry.2 ∧ entry.2 ≤ 128) :
    Held ipv6Prefix prefix6len lw4o6 (before ++ entries) pdlen
      (entries.foldl (fun state entry =>
        (matchEntry ipv6Prefix prefix6len lw4o6 state.1 state.2 entry.1 entry.2).val) state) := by
  induction entries generalizing before state with
  | nil =>
      rw [List.append_nil]
      exact h
  | cons entry entries ih =>
      have hturn := h.turn hlo hhi (hmasks entry List.mem_cons_self)
      have hrest := ih hturn fun entry hentry => hmasks entry (List.mem_cons_of_mem _ hentry)
      rw [List.append_assoc, List.singleton_append] at hrest
      exact hrest

/-- The longest offer is the same for every order of the entries. -/
theorem Best.unique {entries entries' : List (Octets × Int)} {pdlen n n' : Int}
    (h : Best ipv6Prefix prefix6len lw4o6 entries pdlen n)
    (h' : Best ipv6Prefix prefix6len lw4o6 entries' pdlen n')
    (hmem : ∀ entry, entry ∈ entries ↔ entry ∈ entries') : n = n' := by
  refine le_antisymm ?_ ?_
  · rcases h.attained with rfl | ⟨entry, hentry, hoffer⟩
    · exact h'.start
    · exact h'.offer entry ((hmem entry).mp hentry) n hoffer
  · rcases h'.attained with rfl | ⟨entry, hentry, hoffer⟩
    · exact h.start
    · exact h.offer entry ((hmem entry).mpr hentry) n' hoffer

section Entries

variable {host : Host}

/-- The entries of a list. -/
def entriesOf (host : Host) (lw4o6 : Bool) (cur : Option (List PrefixAttrs)) : List (Octets × Int) :=
  (cur.getD []).filterMap (entryOf host lw4o6)

/-- The masks that are given are those of IPv6 prefixes. -/
def MasksOk (cur : Option (List PrefixAttrs)) : Prop :=
  ∀ d ∈ cur.getD [], ∀ mask, d.mask = some mask → 0 ≤ mask.toInt ∧ mask.toInt ≤ 128

theorem mask_of_mem {cur : Option (List PrefixAttrs)} (hmasks : MasksOk cur) {entry : Octets × Int}
    (hentry : entry ∈ entriesOf host lw4o6 cur) : 0 ≤ entry.2 ∧ entry.2 ≤ 128 := by
  obtain ⟨d, hd, hsome⟩ := List.mem_filterMap.mp hentry
  unfold entryOf at hsome
  split at hsome
  · next address mask haddress hmask =>
      have hrange := hmasks d hd mask hmask
      obtain rfl := Option.some.inj hsome
      dsimp only
      split <;> omega
  · cases hsome

theorem matchPrefix_held (host : Host) (ipv6Prefix : Octets) (lw4o6 : Bool) (hlo : 0 ≤ prefix6len) (hhi : prefix6len ≤ 128) {cur : Option (List PrefixAttrs)}
    (hmasks : MasksOk cur) {pdlen : Int} {pd : Octets} (hzero : ZeroFrom pdlen pd) :
    Held ipv6Prefix prefix6len lw4o6 (entriesOf host lw4o6 cur) pdlen
      (matchPrefix host ipv6Prefix prefix6len lw4o6 pdlen pd cur).val := by
  have hstart : Held ipv6Prefix prefix6len lw4o6 [] pdlen (pdlen, pd) :=
    ⟨⟨le_rfl, fun entry hentry => absurd hentry List.not_mem_nil, Or.inl rfl⟩, hzero, Or.inl rfl⟩
  have hend := held_foldl hlo hhi hstart fun entry (hentry : entry ∈ entriesOf host lw4o6 cur) =>
    mask_of_mem hmasks hentry
  rw [List.nil_append] at hend
  rw [matchPrefix, val_foldlM]
  exact hend

end Entries

/-! ### The prefix that is found -/

section Longest

variable (ipv6Prefix prefix6len lw4o6)

/-- Of the entries that start with the rule's prefix the state has the longest; if there is none, the length
is unchanged, except for lw4over6. -/
structure Longest (entries : List (Octets × Int)) (pdlen : Int) (state : Int × Octets) : Prop where
  longest : ∀ entry ∈ entries, Agrees ipv6Prefix prefix6len entry → entry.2 ≤ state.1
  found : (∃ entry ∈ entries, Agrees ipv6Prefix prefix6len entry) →
    ∃ entry ∈ entries, Agrees ipv6Prefix prefix6len entry ∧ state.1 = entry.2 ∧
      AgreeOn state.1.toNat state.2 entry.1
  unchanged : (¬ ∃ entry ∈ entries, Agrees ipv6Prefix prefix6len entry) → lw4o6 = false →
    state.1 = pdlen
  zero : ZeroFrom state.1 state.2

end Longest

theorem Held.longest (hlo : 0 ≤ prefix6len) {entries : List (Octets × Int)} {pdlen : Int}
    {state : Int × Octets} (h : Held ipv6Prefix prefix6len lw4o6 entries pdlen state) (hpdlen : pdlen < 0) :
    Longest ipv6Prefix prefix6len lw4o6 entries pdlen state := by
  have hlongest : ∀ entry ∈ entries, Agrees ipv6Prefix prefix6len entry → entry.2 ≤ state.1 :=
    fun entry hentry hagrees => h.best.offer entry hentry entry.2 (Or.inl ⟨hagrees, rfl⟩)
  refine ⟨hlongest, ?_, ?_, h.zero⟩
  · rintro ⟨entry, hentry, hagrees⟩
    have hle := hlongest entry hentry hagrees
    have hlen := hagrees.1
    rcases h.source with heq | ⟨source, hsource, ⟨hsagrees, heq, hbits⟩ | ⟨hcovers, heq, hbits⟩⟩
    · omega
    · exact ⟨source, hsource, hsagrees, heq, hbits⟩
    · -- an entry of just the rule's length: its bits are those of the rule's prefix
      refine ⟨entry, hentry, hagrees, by omega, fun i hi => (hbits i hi).trans ?_⟩
      exact (hagrees.2 i (by omega)).symm
  · rintro hnone rfl
    rcases h.best.attained with heq | ⟨entry, hentry, ⟨hagrees, -⟩ | ⟨hcovers, -⟩⟩
    · exact heq
    · exact absurd ⟨entry, hentry, hagrees⟩ hnone
    · exact absurd hcovers.1 (by decide)

/-- The prefix that `match_prefix` leaves is the longest of those that start with the rule's, whatever their
order, where lw4over6 counts a mask of 128 as 64. -/
theorem matchPrefix_longest (host : Host) (ipv6Prefix : Octets) (prefix6len : Int) (lw4o6 : Bool)
    (hlo : 0 ≤ prefix6len) (hhi : prefix6len ≤ 128) (cur : Option (List PrefixAttrs)) (hmasks : MasksOk cur)
    (pdlen : Int) (hpdlen : pdlen < 0) :
    Longest ipv6Prefix prefix6len lw4o6 (entriesOf host lw4o6 cur) pdlen
        (matchPrefix host ipv6Prefix prefix6len lw4o6 pdlen addrAny cur).val ∧
      ∀ cur' : Option (List PrefixAttrs), (cur'.getD []).Perm (cur.getD []) →
        (matchPrefix host ipv6Prefix prefix6len lw4o6 pdlen addrAny cur').val.1 =
          (matchPrefix host ipv6Prefix prefix6len lw4o6 pdlen addrAny cur).val.1 := by
  have hzero : ZeroFrom pdlen addrAny := fun i _ => by simp [bitAt, addrAny]
  have hheld := matchPrefix_held host ipv6Prefix lw4o6 hlo hhi hmasks hzero
  refine ⟨hheld.longest hlo hpdlen, fun cur' hperm => ?_⟩
  have hmasks' : MasksOk cur' := fun d hd => hmasks d (hperm.mem_iff.mp hd)
  have hheld' := matchPrefix_held host ipv6Prefix lw4o6 hlo hhi hmasks' hzero
  exact hheld'.best.unique hheld.best fun entry => (hperm.filterMap _).mem_iff

/-! ### On a host -/

/-- A host that reads decimal numbers and a few addresses. -/
def fewAddresses : Host where
  strtoul text := some (BitVec.ofNat 32 (text.foldl (fun n c => 10 * n + (c.toNat - 48)) 0))
  inetPton4 text := if text = ofChars "192.0.2.0" then some (natOctets 0xC0000200 4) else none
  inetPton6 text :=
    if text = ofChars "2001:db8::" then some (natOctets (0x20010DB8 <<< 96) 16)
    else if text = ofChars "2001:db8:1234:5600::" then some (natOctets (0x20010DB812345600 <<< 64) 16)
    else none
  shr32 value := value

def sampleEntry (address : String) (mask : Nat) : PrefixAttrs where
  address := some (ofChars address)
  mask := some (BitVec.ofNat 32 mask)

theorem matchPrefix_longest_second :
    Longest (natOctets (0x20010DB8 <<< 96) 16) 32 false
      (entriesOf fewAddresses false
        (some [sampleEntry "2001:db8::" 40, sampleEntry "2001:db8:1234:5600::" 56])) (-1)
      (matchPrefix fewAddresses (natOctets (0x20010DB8 <<< 96) 16) 32 false (-1) addrAny
        (some [sampleEntry "2001:db8::" 40, sampleEntry "2001:db8:1234:5600::" 56])).val :=
  (matchPrefix_longest fewAddresses _ 32 false (by decide) (by decide)
    (some [sampleEntry "2001:db8::" 40, sampleEntry "2001:db8:1234:5600::" 56])
    (by
      intro d hd mask hmask
      rcases List.mem_pair.mp hd with rfl | rfl <;> obtain rfl := Option.some.inj hmask <;> decide)
    (-1) (by decide)).1

/-- An address that lw4over6 has with a mask of 128 is not the prefix that is found. -/
theorem matchPrefix_lw4o6_not_longest :
    ¬ Longest (natOctets (0x20010DB8 <<< 96) 16) 32 true
      (entriesOf fewAddresses false (some [sampleEntry "2001:db8:1234:5600::" 128])) (-1)
      (matchPrefix fewAddresses (natOctets (0x20010DB8 <<< 96) 16) 32 true (-1) addrAny
        (some [sampleEntry "2001:db8:1234:5600::" 128])).val := by
  intro h
  have hagrees : Agrees (natOctets (0x20010DB8 <<< 96) 16) 32
      (natOctets (0x20010DB812345600 <<< 64) 16, 128) := by
    refine ⟨by decide, fun i hi => ?_⟩
    revert i
    decide
  have hentry : entriesOf fewAddresses false (some [sampleEntry "2001:db8:1234:5600::" 128]) =
      [(natOctets (0x20010DB812345600 <<< 64) 16, 128)] := rfl
  have hlongest := h.longest _ (hentry ▸ List.mem_cons_self) hagrees
  revert hlongest
  decide

end Immwrt.Mapcalc
