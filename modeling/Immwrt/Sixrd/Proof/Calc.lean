import Immwrt.Sixrd.Calc

/-!
# The bits of a 6rd prefix

Each turn of a loop settles one bit, and leaves the others alone.
-/

namespace Immwrt.Sixrd

open Traced

/-! ### One bit -/

theorem getMsbD_bitMask (it : Nat) {j : Nat} (hj : j < 8) : (bitMask it).getMsbD j = decide (j = it % 8) := by
  have hmasks : ∀ k < 8, ∀ j < 8, ((128 : Byte) >>> k).getMsbD j = decide (j = k) := by decide
  have hmod : it &&& 7 = it % 8 := Nat.and_two_pow_sub_one_eq_mod it 3
  rw [bitMask, hmod]
  exact hmasks (it % 8) (Nat.mod_lt _ (by decide)) j hj

theorem shiftRight_three (it : Nat) : it >>> 3 = it / 8 := Nat.shiftRight_eq_div_pow it 3

/-- The test of a bit. -/
theorem and_bitMask_ne_zero_iff (addr : Octets) (it : Nat) :
    addr (it >>> 3) &&& bitMask it ≠ 0 ↔ bitAt addr it = true := by
  have hmod : it % 8 < 8 := Nat.mod_lt _ (by decide)
  have hbit : ∀ j < 8, (addr (it >>> 3) &&& bitMask it).getMsbD j =
      (bitAt addr it && decide (j = it % 8)) := by
    intro j hj
    rw [BitVec.getMsbD_and, getMsbD_bitMask it hj, bitAt, shiftRight_three]
    by_cases heq : j = it % 8
    · rw [heq]
    · simp [heq]
  rw [ne_eq, ← Bool.not_eq_false, not_iff_not]
  constructor
  · intro hzero
    have h := hbit (it % 8) hmod
    rw [hzero] at h
    simpa using h.symm
  · intro hfalse
    apply BitVec.eq_of_getMsbD_eq
    intro j hj
    rw [hbit j hj, hfalse]
    simp

theorem bitAt_writeBit (addr : Octets) (it : Nat) (value : Bool) (i : Nat) :
    bitAt (writeBit addr it value) i = if i = it then value else bitAt addr i := by
  have hmod : i % 8 < 8 := Nat.mod_lt _ (by decide)
  rw [bitAt, writeBit, shiftRight_three]
  by_cases hbyte : i / 8 = it / 8
  · rw [hbyte, Function.update_self]
    have hsame : i = it ↔ i % 8 = it % 8 := by omega
    cases value with
    | true =>
        rw [if_pos rfl, BitVec.getMsbD_or, getMsbD_bitMask it hmod, bitAt, hbyte]
        by_cases heq : i % 8 = it % 8 <;> simp [hsame, heq]
    | false =>
        rw [if_neg Bool.false_ne_true, BitVec.getMsbD_and, BitVec.getMsbD_not, getMsbD_bitMask it hmod, bitAt, hbyte]
        by_cases heq : i % 8 = it % 8 <;> simp [hsame, heq, hmod]
  · rw [Function.update_of_ne hbyte, bitAt, if_neg fun heq => hbyte (by rw [heq])]

/-- The byte of a bit in an address is in the address. -/
theorem access_ok {size it : Nat} (hit : it < 8 * size) : Access.Ok ⟨size, it >>> 3, 1⟩ := by
  change it >>> 3 + 1 ≤ size
  rw [shiftRight_three]
  omega

/-! ### The loops -/

/-- The first loop copies the bits from `v4it` on to those from `v6it` on. -/
theorem combine_spec (v4 v6 : Octets) (v4it v6it : Nat) :
    (combine v4 v6 v4it v6it).val.2 = v6it + (32 - v4it) ∧
      (∀ i, i < v6it ∨ v6it + (32 - v4it) ≤ i → bitAt (combine v4 v6 v4it v6it).val.1 i = bitAt v6 i) ∧
        (∀ i < 32 - v4it, bitAt (combine v4 v6 v4it v6it).val.1 (v6it + i) = bitAt v4 (v4it + i)) ∧
          (v6it + (32 - v4it) ≤ 128 → (combine v4 v6 v4it v6it).Every Access.Ok) := by
  induction hk : 32 - v4it generalizing v6 v4it v6it with
  | zero =>
      rw [combine, if_neg (by omega)]
      exact ⟨rfl, fun i _ => rfl, fun i hi => absurd hi (Nat.not_lt_zero i), fun _ => every_pure _⟩
  | succ k ih =>
      rw [combine, if_pos (by omega)]
      obtain ⟨hit, houtside, hcopied, hinside⟩ := ih
        (writeBit v6 v6it (decide (v4 (v4it >>> 3) &&& bitMask v4it ≠ 0))) (v4it + 1) (v6it + 1) (by omega)
      simp only [val_bind]
      refine ⟨by rw [hit]; omega, fun i hi => ?_, fun i hi => ?_, fun hfits => ?_⟩
      · rw [houtside i (by omega), bitAt_writeBit, if_neg (by omega)]
      · cases i with
        | zero =>
            rw [Nat.add_zero v6it, Nat.add_zero v4it, houtside v6it (by omega), bitAt_writeBit, if_pos rfl, Bool.eq_iff_iff,
              decide_eq_true_iff]
            exact and_bitMask_ne_zero_iff v4 v4it
        | succ i =>
            have hnext := hcopied i (by omega)
            rwa [show v6it + 1 + i = v6it + (i + 1) by omega, show v4it + 1 + i = v4it + (i + 1) by omega] at hnext
      · rw [every_bind, every_bind, every_emit, every_emit]
        exact ⟨access_ok (by rw [inAddrSize]; omega), access_ok (by rw [in6AddrSize]; omega), hinside (by omega)⟩

/-- The second loop clears the bits from `v6it` on. -/
theorem clearRest_spec (v6 : Octets) (v6it : Nat) :
    (∀ i < v6it, bitAt (clearRest v6 v6it).val i = bitAt v6 i) ∧
      (∀ i, v6it ≤ i → i < 128 → bitAt (clearRest v6 v6it).val i = false) ∧
        (∀ i, 128 ≤ i → bitAt (clearRest v6 v6it).val i = bitAt v6 i) ∧ (clearRest v6 v6it).Every Access.Ok := by
  induction hk : 128 - v6it generalizing v6 v6it with
  | zero =>
      rw [clearRest, if_neg (by omega)]
      exact ⟨fun i _ => rfl, fun i hle hlt => absurd hlt (by omega), fun i _ => rfl, every_pure _⟩
  | succ k ih =>
      rw [clearRest, if_pos (by omega)]
      obtain ⟨hbefore, hcleared, hbehind, hinside⟩ := ih (writeBit v6 v6it false) (v6it + 1) (by omega)
      simp only [val_bind]
      refine ⟨fun i hi => ?_, fun i hle hlt => ?_, fun i hle => ?_, ?_⟩
      · rw [hbefore i (by omega), bitAt_writeBit, if_neg (by omega)]
      · rcases Nat.eq_or_lt_of_le hle with rfl | hgt
        · rw [hbefore v6it (by omega), bitAt_writeBit, if_pos rfl]
        · exact hcleared i hgt hlt
      · rw [hbehind i hle, bitAt_writeBit, if_neg (by omega)]
      · rw [every_bind, every_emit]
        exact ⟨access_ok (by rw [in6AddrSize]; omega), hinside⟩

/-! ### The prefix -/

section Subnet

variable {p a a' v6 v6' : Octets} {n m : Nat}

/-- The prefix is made, and only the two addresses are touched. -/
theorem subnet_spec (p a : Octets) {n m : Nat} (hfits : n + (32 - m) ≤ 128) :
    (subnet p n a m).Every Access.Ok ∧
      ∃ v6, (subnet p n a m).val = some (v6, n + (32 - m)) ∧ IsSubnet p n a m v6 ∧
        ∀ i, 128 ≤ i → bitAt v6 i = bitAt p i := by
  obtain ⟨hit, houtside, hcopied, hinside⟩ := combine_spec a p m n
  have hclear := clearRest_spec (combine a p m n).val.1 (combine a p m n).val.2
  rw [subnet, if_neg (by omega)]
  constructor
  · rw [every_bind, every_bind]
    exact ⟨hinside hfits, hclear.2.2.2, every_pure _⟩
  · obtain ⟨hbefore, hcleared, hbehind, -⟩ := hclear
    rw [hit] at hbefore hcleared hbehind
    refine ⟨(clearRest (combine a p m n).val.1 (combine a p m n).val.2).val, ?_, ⟨fun i hi => ?_, fun i hi => ?_,
      fun i hle hlt => ?_⟩, fun i hle => ?_⟩
    · simp only [val_bind, val_pure, Nat.add_comm]
    · rw [hit, hbefore i (by omega), houtside i (.inl hi)]
    · rw [hit, hbefore (n + i) (by omega), hcopied i hi]
    · rw [hit, hcleared i hle hlt]
    · rw [hit, hbehind i hle, houtside i (.inr (by omega))]

/-- Two prefixes that are made from the same one are the same when their IPv4 addresses end in the same bits. -/
theorem IsSubnet.agreeOn_iff (h : IsSubnet p n a m v6) (h' : IsSubnet p n a' m v6') (hfits : n + (32 - m) ≤ 128) :
    AgreeOn 128 v6 v6' ↔ ∀ i, m ≤ i → i < 32 → bitAt a i = bitAt a' i := by
  constructor
  · intro hagree i hle hlt
    have hbit := hagree (n + (i - m)) (by omega)
    rwa [h.middle (i - m) (by omega), h'.middle (i - m) (by omega), Nat.add_sub_cancel' hle] at hbit
  · intro hsame i hi
    rcases Nat.lt_or_ge i n with hlt | hge
    · rw [h.leading i hlt, h'.leading i hlt]
    rcases Nat.lt_or_ge i (n + (32 - m)) with hlt | hge'
    · have hsplit : i = n + (i - n) := by omega
      rw [hsplit, h.middle (i - n) (by omega), h'.middle (i - n) (by omega)]
      exact hsame (m + (i - n)) (by omega) (by omega)
    · rw [h.rest i hge' hi, h'.rest i hge' hi]

/-- Buffers with the same bits are the same. -/
theorem eq_of_bitAt {buf buf' : Octets} (h : ∀ i, bitAt buf i = bitAt buf' i) : buf = buf' := by
  funext j
  exact byte_eq_iff.2 fun i _ => h (8 * j + i)

theorem subnet_eq_iff (p a a' : Octets) {n m : Nat} (hfits : n + (32 - m) ≤ 128) :
    (subnet p n a m).val = (subnet p n a' m).val ↔ ∀ i, m ≤ i → i < 32 → bitAt a i = bitAt a' i := by
  obtain ⟨-, v6, hval, hsubnet, hbehind⟩ := subnet_spec p a hfits
  obtain ⟨-, v6', hval', hsubnet', hbehind'⟩ := subnet_spec p a' hfits
  rw [hval, hval', Option.some.injEq, Prod.mk.injEq, and_iff_left rfl, ← hsubnet.agreeOn_iff hsubnet' hfits]
  constructor
  · rintro rfl
    exact .refl 128 v6
  · intro hagree
    apply eq_of_bitAt
    intro i
    rcases Nat.lt_or_ge i 128 with hlt | hge
    · exact hagree i hlt
    · rw [hbehind i hge, hbehind' i hge]

end Subnet

/-- For every prefix and every address that fit, `6rdcalc` stays in the two addresses and prints the prefix that they
make and its length; and with the same prefix, two addresses make the same one exactly when they end in the same bits. -/
theorem sixrd_subnet (p a : Octets) {n m : Nat} (hm : m ≤ 32) (hfits : n + 32 - m ≤ 128) :
    (∃ v6, (subnet p n a m).val = some (v6, n + 32 - m) ∧ IsSubnet p n a m v6) ∧
      (subnet p n a m).Every Access.Ok ∧
      (∀ a', (subnet p n a m).val = (subnet p n a' m).val ↔ ∀ i, m ≤ i → i < 32 → bitAt a i = bitAt a' i) ∧
      ∀ (host : Host) behind arg6 arg4,
        parseStr host host.inetPton6 128 (v6str arg6) = some (p, n) →
          parseStr host host.inetPton4 32 (v4str behind arg4) = some (a, m) →
            main host behind arg6 arg4 = subnet p n a m := by
  have hlength : n + (32 - m) = n + 32 - m := by omega
  have hroom : n + (32 - m) ≤ 128 := by omega
  obtain ⟨hinside, v6, hval, hsubnet, -⟩ := subnet_spec p a hroom
  refine ⟨⟨v6, hlength ▸ hval, hsubnet⟩, hinside, fun a' => subnet_eq_iff p a a' hroom, ?_⟩
  intro host behind arg6 arg4 hv6 hv4
  rw [main, hv6]
  dsimp only
  rw [hv4]

/-- `2001:db8::` and `192.0.2.1`. -/
def docPrefix : Octets := fun j => ([0x20, 0x01, 0x0d, 0xb8] : List Byte).getD j 0

def docAddr : Octets := fun j => ([192, 0, 2, 1] : List Byte).getD j 0

/-- `2001:db8::/32` and `192.0.2.1/8` make a prefix of 56 bits. -/
theorem sixrd_subnet_doc : ∃ v6, (subnet docPrefix 32 docAddr 8).val = some (v6, 56) ∧ IsSubnet docPrefix 32 docAddr 8 v6 :=
  (sixrd_subnet docPrefix docAddr (by decide) (by decide)).1

end Immwrt.Sixrd
