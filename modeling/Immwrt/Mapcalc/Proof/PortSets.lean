import Immwrt.Mapcalc.Rule

/-!
# Port sets

A port `p` cut at its low `16 - offset - psidlen` bits is `k * 2 ^ psidlen + s` for the turn `k` and the
port set ID `s` that print it, and for no other.
-/

namespace Immwrt.Mapcalc

variable {offset psidlen s k p : Nat}

/-- The first port a rule may use. -/
def firstPort (offset : Nat) : Nat := if offset = 0 then 1 else 2 ^ (16 - offset)

theorem alignPsid_shiftLeft (hlen : 1 ≤ psidlen) :
    alignPsid psidlen (s <<< (16 - psidlen)) = s <<< (16 - psidlen) := by
  rw [alignPsid, if_pos (by omega), Nat.shiftLeft_shiftRight]

/-- Where the range of turn `k` starts. -/
theorem rangeStart (hsum : offset + psidlen ≤ 16) (hs : s < 2 ^ psidlen) :
    (k <<< (16 - offset)) ||| ((s <<< (16 - psidlen)) >>> offset)
      = (k * 2 ^ psidlen + s) * 2 ^ (16 - offset - psidlen) := by
  have hpow : 2 ^ (16 - psidlen) = 2 ^ (16 - offset - psidlen) * 2 ^ offset := by
    rw [← Nat.pow_add]
    congr 1
    omega
  have hwidth : 2 ^ (16 - offset) = 2 ^ psidlen * 2 ^ (16 - offset - psidlen) := by
    rw [← Nat.pow_add]
    congr 1
    omega
  have hshift : (s <<< (16 - psidlen)) >>> offset = s * 2 ^ (16 - offset - psidlen) := by
    rw [Nat.shiftLeft_eq, Nat.shiftRight_eq_div_pow, hpow, ← Nat.mul_assoc,
      Nat.mul_div_cancel _ (Nat.two_pow_pos offset)]
  have hlt : s * 2 ^ (16 - offset - psidlen) < 2 ^ (16 - offset) := by
    rw [hwidth]
    exact Nat.mul_lt_mul_of_pos_right hs (Nat.two_pow_pos _)
  rw [hshift, ← Nat.shiftLeft_add_eq_or_of_lt hlt, Nat.shiftLeft_eq, hwidth]
  ring

/-- A port is in the range of turn `k` when its leading bits are `k` and then `s`. -/
theorem mem_portRange_iff (hsum : offset + psidlen ≤ 16) (hs : s < 2 ^ psidlen) :
    (∃ range, portRange offset psidlen (s <<< (16 - psidlen)) k = some range ∧
      range.1 ≤ p ∧ p ≤ range.2) ↔
    p ≠ 0 ∧ p / 2 ^ (16 - offset - psidlen) = k * 2 ^ psidlen + s := by
  set w := 2 ^ (16 - offset - psidlen) with hw
  have hpos : 0 < w := Nat.two_pow_pos _
  set q := k * 2 ^ psidlen + s with hq
  have hstart := rangeStart (k := k) hsum hs
  rw [← hw, ← hq] at hstart
  have hdiv : p / w = q ↔ q * w ≤ p ∧ p < q * w + w := by
    rw [Nat.div_eq_iff hpos, Nat.lt_iff_add_one_le]
    omega
  unfold portRange
  simp only [hstart, Nat.one_shiftLeft, ← hw]
  rw [hdiv]
  by_cases hzero : q * w = 0
  · rw [if_pos hzero]
    split
    · simp only [Option.some.injEq, exists_eq_left']
      omega
    · simp only [reduceCtorEq, false_and, exists_false, false_iff]
      omega
  · rw [if_neg hzero, if_pos (by omega)]
    simp only [Option.some.injEq, exists_eq_left']
    omega

/-- The ports of a port set ID. -/
theorem inPortSets_iff (hlen : 1 ≤ psidlen) (hsum : offset + psidlen ≤ 16) (hs : s < 2 ^ psidlen) :
    InPortSets (portSets offset psidlen (s <<< (16 - psidlen))) p ↔
      firstPort offset ≤ p ∧ p < 2 ^ 16 ∧ p / 2 ^ (16 - offset - psidlen) % 2 ^ psidlen = s := by
  have hturns : InPortSets (portSets offset psidlen (s <<< (16 - psidlen))) p ↔
      ∃ k, (if offset = 0 then 0 else 1) ≤ k ∧ k < 2 ^ offset ∧ p ≠ 0 ∧
        p / 2 ^ (16 - offset - psidlen) = k * 2 ^ psidlen + s := by
    unfold InPortSets portSets
    rw [alignPsid_shiftLeft hlen]
    simp only [List.mem_filterMap, List.mem_range'_1, Nat.one_shiftLeft]
    have hone : (if offset = 0 then 0 else 1) ≤ 2 ^ offset := by
      have := Nat.one_le_two_pow (n := offset)
      split <;> omega
    constructor
    · rintro ⟨range, ⟨k, ⟨hlo, hhi⟩, hrange⟩, hmem⟩
      exact ⟨k, hlo, by omega, (mem_portRange_iff hsum hs).mp ⟨range, hrange, hmem⟩⟩
    · rintro ⟨k, hlo, hhi, hport⟩
      obtain ⟨range, hrange, hmem⟩ := (mem_portRange_iff hsum hs).mpr hport
      exact ⟨range, ⟨k, ⟨hlo, by omega⟩, hrange⟩, hmem⟩
  have hsplit : 2 ^ (16 - offset) = 2 ^ (16 - offset - psidlen) * 2 ^ psidlen := by
    rw [← Nat.pow_add]
    congr 1
    omega
  have hfull : 2 ^ 16 = 2 ^ (16 - offset) * 2 ^ offset := by
    rw [← Nat.pow_add]
    congr 1
    omega
  have hturn : ∀ k, p / 2 ^ (16 - offset - psidlen) = k * 2 ^ psidlen + s ↔
      p / 2 ^ (16 - offset) = k ∧ p / 2 ^ (16 - offset - psidlen) % 2 ^ psidlen = s := by
    intro k
    rw [hsplit, ← Nat.div_div_eq_div_mul]
    constructor
    · intro h
      rw [h]
      refine ⟨?_, ?_⟩
      · rw [Nat.add_comm, Nat.add_mul_div_right _ _ (Nat.two_pow_pos _), Nat.div_eq_of_lt hs,
          Nat.zero_add]
      · rw [Nat.add_comm, Nat.add_mul_mod_self_right, Nat.mod_eq_of_lt hs]
    · rintro ⟨hk, hmod⟩
      rw [← hk, ← hmod, Nat.mul_comm, Nat.div_add_mod]
  rw [hturns]
  simp only [hturn]
  have hbound : p < 2 ^ 16 ↔ p / 2 ^ (16 - offset) < 2 ^ offset := by
    rw [hfull, Nat.div_lt_iff_lt_mul (Nat.two_pow_pos _), Nat.mul_comm]
  have hfirst : firstPort offset ≤ p ↔
      (if offset = 0 then 0 else 1) ≤ p / 2 ^ (16 - offset) ∧ p ≠ 0 := by
    have hpos := Nat.two_pow_pos (16 - offset)
    unfold firstPort
    by_cases hzero : offset = 0
    · rw [if_pos hzero, if_pos hzero]
      exact ⟨fun h => ⟨Nat.zero_le _, by omega⟩, fun h => by omega⟩
    · rw [if_neg hzero, if_neg hzero, Nat.le_div_iff_mul_le hpos, Nat.one_mul]
      exact ⟨fun h => ⟨h, by omega⟩, fun h => h.1⟩
  rw [hfirst, hbound]
  constructor
  · rintro ⟨k, hlo, hhi, hne, rfl, hmod⟩
    exact ⟨⟨hlo, hne⟩, hhi, hmod⟩
  · rintro ⟨⟨hlo, hne⟩, hhi, hmod⟩
    exact ⟨_, hlo, hhi, hne, rfl, hmod⟩

/-- The bits `offset .. offset + psidlen - 1` of a port, counted from the most significant. -/
def psidOfPort (offset psidlen port : Nat) : Nat := port / 2 ^ (16 - offset - psidlen) % 2 ^ psidlen

/-- No port is in two ranges. -/
def Disjoint (range range' : Nat × Nat) : Prop :=
  ∀ p, ¬ ((range.1 ≤ p ∧ p ≤ range.2) ∧ range'.1 ≤ p ∧ p ≤ range'.2)

theorem portSets_pairwise (hlen : 1 ≤ psidlen) (hsum : offset + psidlen ≤ 16)
    (hs : s < 2 ^ psidlen) :
    (portSets offset psidlen (s <<< (16 - psidlen))).Pairwise Disjoint := by
  unfold portSets
  rw [alignPsid_shiftLeft hlen, List.pairwise_filterMap]
  refine List.Pairwise.imp (fun {k k'} hlt range hrange range' hrange' p hp => ?_)
    List.pairwise_lt_range'
  have hk := ((mem_portRange_iff hsum hs).mp ⟨range, hrange, hp.1⟩).2
  have hk' := ((mem_portRange_iff hsum hs).mp ⟨range', hrange', hp.2⟩).2
  have heq : k * 2 ^ psidlen = k' * 2 ^ psidlen := by omega
  have := Nat.eq_of_mul_eq_mul_right (Nat.two_pow_pos psidlen) heq
  omega

/-- The port sets of a rule partition its ports, and a port's set is read off its bits. -/
theorem portSets_partition (hlen : 1 ≤ psidlen) (hsum : offset + psidlen ≤ 16) :
    (∀ s, s < 2 ^ psidlen →
      (portSets offset psidlen (s <<< (16 - psidlen))).Pairwise Disjoint) ∧
    (∀ s s', s < 2 ^ psidlen → s' < 2 ^ psidlen → s ≠ s' → ∀ p,
      ¬ (InPortSets (portSets offset psidlen (s <<< (16 - psidlen))) p ∧
        InPortSets (portSets offset psidlen (s' <<< (16 - psidlen))) p)) ∧
    (∀ p, (∃ s, s < 2 ^ psidlen ∧ InPortSets (portSets offset psidlen (s <<< (16 - psidlen))) p) ↔
      firstPort offset ≤ p ∧ p < 2 ^ 16) ∧
    ∀ s p, s < 2 ^ psidlen → firstPort offset ≤ p → p < 2 ^ 16 →
      (InPortSets (portSets offset psidlen (s <<< (16 - psidlen))) p ↔
        psidOfPort offset psidlen p = s) := by
  refine ⟨fun s hs => portSets_pairwise hlen hsum hs,
    fun s s' hs hs' hne p ⟨hp, hp'⟩ => hne ?_, fun p => ⟨?_, fun ⟨hlo, hhi⟩ => ?_⟩,
    fun s p hs hlo hhi => ?_⟩
  · rw [← ((inPortSets_iff hlen hsum hs).mp hp).2.2, ← ((inPortSets_iff hlen hsum hs').mp hp').2.2]
  · rintro ⟨s, hs, hp⟩
    have := (inPortSets_iff hlen hsum hs).mp hp
    exact ⟨this.1, this.2.1⟩
  · have hs : psidOfPort offset psidlen p < 2 ^ psidlen := Nat.mod_lt _ (Nat.two_pow_pos _)
    exact ⟨_, hs, (inPortSets_iff hlen hsum hs).mpr ⟨hlo, hhi, rfl⟩⟩
  · rw [inPortSets_iff hlen hsum hs]
    exact ⟨fun h => h.2.2, fun h => ⟨hlo, hhi, h⟩⟩

theorem portSets_partition_six_eight :
    InPortSets (portSets 6 8 (0x34 <<< 8)) 1232 ∧ ¬ InPortSets (portSets 6 8 (0x35 <<< 8)) 1232 := by
  have h := portSets_partition (by decide : 1 ≤ 8) (by decide : 6 + 8 ≤ 16)
  have hmem := (h.2.2.2 0x34 1232 (by decide) (by decide) (by decide)).mpr (by decide)
  exact ⟨hmem, fun hmem' => h.2.1 0x34 0x35 (by decide) (by decide) (by decide) 1232 ⟨hmem, hmem'⟩⟩

end Immwrt.Mapcalc
