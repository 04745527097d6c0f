import Immwrt.Lib.BitCount
import Immwrt.Snand.Ecc
import Immwrt.Snand.Proof.Page
import Mathlib.Data.Nat.Size

/-!
# Empty sectors are repaired

The three loops share one running total. At every point it is at most the strength, and together with the
zero bits that are still to be counted it is the number of all zero bits.
-/

namespace Immwrt.Snand

open BitCount

/-! ### The running total -/

section Count

variable {base : Nat} {strength : Byte} {buf : Buf} {bitflips : Word}

theorem toNat_addZeros {w : Nat} (hw : w ≤ 32) (h : bitflips.toNat ≤ strength.toNat) (x : BitVec w) :
    (addZeros bitflips x).toNat = bitflips.toNat + (w - x.cpop.toNat) := by
  have hcpop := BitVec.toNat_cpop_le x
  have hstrength := strength.isLt
  have hwidth : (x.cpop.setWidth 32).toNat = x.cpop.toNat := by
    rw [BitVec.toNat_setWidth]
    exact Nat.mod_eq_of_lt (by omega)
  rw [addZeros, BitVec.toNat_add, BitVec.toNat_sub, hwidth, BitVec.toNat_ofNat]
  omega

theorem addZeros_allOnes : addZeros bitflips (~~~(0 : Word)) = bitflips := by
  have hzero : BitVec.ofNat 32 32 - (~~~(0 : Word)).cpop.setWidth 32 = 0 := by decide
  rw [addZeros, hzero]
  exact BitVec.add_zero _

theorem strength_lt : strength.setWidth 32 < bitflips ↔ strength.toNat < bitflips.toNat := by
  have hstrength := strength.isLt
  rw [BitVec.lt_def, BitVec.toNat_setWidth, Nat.mod_eq_of_lt (by omega)]

theorem toInt_eq (h : bitflips.toNat ≤ strength.toNat) : bitflips.toInt = bitflips.toNat := by
  have hstrength := strength.isLt
  exact BitVec.toInt_eq_toNat_of_lt (by omega)

/-- What a check returns for a number of zero bits. -/
def checked (strength : Byte) (zeros : Nat) : Int := if zeros ≤ strength.toNat then zeros else ebadmsg

theorem checked_of_le {zeros : Nat} (h : zeros ≤ strength.toNat) : checked strength zeros = zeros := if_pos h

theorem checked_of_lt {zeros : Nat} (h : strength.toNat < zeros) : checked strength zeros = ebadmsg :=
  if_neg (not_le.mpr h)

theorem checked_neg {zeros : Nat} : checked strength zeros < 0 ↔ strength.toNat < zeros := by
  rw [checked]
  split
  · next hle => exact iff_of_false (by omega) (not_lt.mpr hle)
  · next hlt => exact iff_of_true (by decide) (not_le.mp hlt)

/-- A count goes into the next check as it came out of the last. -/
theorem toNat_ofInt_checked {zeros : Nat} (h : zeros ≤ strength.toNat) :
    (BitVec.ofInt 32 (checked strength zeros)).toNat = zeros := by
  have hstrength := strength.isLt
  rw [checked_of_le h, BitVec.ofInt_natCast, BitVec.toNat_ofNat]
  exact Nat.mod_eq_of_lt (by omega)

/-- Of `total` zero bits, those that a loop has left are still to be counted; or there are too many. -/
def Counted (strength : Byte) (buf : Buf) (total : Nat) : Option (Nat × Nat × Word) → Prop
  | none => strength.toNat < total
  | some (len, off, bitflips) =>
    bitflips.toNat ≤ strength.toNat ∧ bitflips.toNat + zeroCount buf (bitRun off (8 * len)) = total

/-- One turn of a loop. -/
theorem Counted.turn {w : Nat} (hw : w ≤ 32) (h : bitflips.toNat ≤ strength.toNat) (x : BitVec w)
    {zeros rest : Nat} (hzeros : zeros = (w - x.cpop.toNat) + rest) {next : Option (Nat × Nat × Word)}
    (hnext : (addZeros bitflips x).toNat ≤ strength.toNat →
      Counted strength buf ((addZeros bitflips x).toNat + rest) next) :
    Counted strength buf (bitflips.toNat + zeros)
      (if strength.setWidth 32 < addZeros bitflips x then none else next) := by
  have hadd := toNat_addZeros hw h x
  split
  · next hlt =>
    rw [strength_lt] at hlt
    change strength.toNat < _
    omega
  · next hlt =>
    rw [strength_lt, not_lt] at hlt
    have htotal : bitflips.toNat + zeros = (addZeros bitflips x).toNat + rest := by omega
    rw [htotal]
    exact hnext hlt

theorem Counted.bind {total : Nat} {result : Option (Nat × Nat × Word)} (h : Counted strength buf total result)
    {f : Nat × Nat × Word → Option (Nat × Nat × Word)}
    (hf : ∀ len off (bitflips : Word), bitflips.toNat ≤ strength.toNat →
      Counted strength buf (bitflips.toNat + zeroCount buf (bitRun off (8 * len))) (f (len, off, bitflips))) :
    Counted strength buf total (result.bind f) := by
  cases result with
  | none => exact h
  | some left =>
    obtain ⟨len, off, bitflips⟩ := left
    obtain ⟨hle, htotal⟩ := h
    rw [← htotal]
    exact hf len off bitflips hle

theorem counted_headLoop (len off : Nat) (h : bitflips.toNat ≤ strength.toNat) :
    Counted strength buf (bitflips.toNat + zeroCount buf (bitRun off (8 * len)))
      (headLoop base strength buf len off bitflips) := by
  induction len generalizing off bitflips with
  | zero => exact ⟨h, rfl⟩
  | succ len ih =>
    rw [headLoop]
    split
    · exact ⟨h, rfl⟩
    · exact .turn (by decide) h (buf off) (zeroCount_bytes_succ buf off len) fun hle => ih (off + 1) hle

theorem counted_wordLoop (len off : Nat) (h : bitflips.toNat ≤ strength.toNat) :
    Counted strength buf (bitflips.toNat + zeroCount buf (bitRun off (8 * len)))
      (wordLoop strength buf len off bitflips) := by
  induction len using Nat.strong_induction_on generalizing off bitflips with
  | h len ih =>
    match len with
    | 0 | 1 | 2 | 3 => exact ⟨h, rfl⟩
    | len + 4 =>
      -- a word without zero bits would add none
      have hadd : (if wordAt buf off ≠ ~~~0 then addZeros bitflips (wordAt buf off) else bitflips)
          = addZeros bitflips (wordAt buf off) := by
        split
        · rfl
        · next hones => rw [not_not.mp hones, addZeros_allOnes]
      rw [wordLoop, hadd]
      exact .turn le_rfl h (wordAt buf off) (zeroCount_word buf off len) fun hle => ih len (by omega) (off + 4) hle

theorem counted_tailLoop (len off : Nat) (h : bitflips.toNat ≤ strength.toNat) :
    Counted strength buf (bitflips.toNat + zeroCount buf (bitRun off (8 * len)))
      (tailLoop strength buf len off bitflips) := by
  induction len generalizing off bitflips with
  | zero => exact ⟨h, rfl⟩
  | succ len ih =>
    exact .turn (by decide) h (buf off) (zeroCount_bytes_succ buf off len) fun hle => ih (off + 1) hle

/-- The last loop leaves nothing. -/
theorem tailLoop_done {len off len' off' : Nat} {bitflips' : Word}
    (h : tailLoop strength buf len off bitflips = some (len', off', bitflips')) : len' = 0 := by
  induction len generalizing off bitflips with
  | zero => exact (Prod.mk.inj (Option.some.inj h)).1.symm
  | succ len ih =>
    rw [tailLoop] at h
    split at h
    · exact absurd h (by simp)
    · exact ih h

theorem counted_countLoops (base : Nat) (buf : Buf) (len off : Nat) (h : bitflips.toNat ≤ strength.toNat) :
    Counted strength buf (bitflips.toNat + zeroCount buf (bitRun off (8 * len)))
      (countLoops base strength buf len off bitflips) := by
  apply (counted_headLoop len off h).bind
  intro len off bitflips h
  apply (counted_wordLoop len off h).bind
  intro len off bitflips h
  exact counted_tailLoop len off h

theorem countLoops_done {len off len' off' : Nat} {bitflips' : Word}
    (h : countLoops base strength buf len off bitflips = some (len', off', bitflips')) : len' = 0 := by
  obtain ⟨left, -, h⟩ := Option.bind_eq_some_iff.mp h
  obtain ⟨left', -, h⟩ := Option.bind_eq_some_iff.mp h
  exact tailLoop_done h

/-! ### Checks -/

/-- The zero bits are counted, or found to be too many. -/
theorem checkBufBitflips_eq (off len : Nat) (h : bitflips.toNat ≤ strength.toNat) :
    checkBufBitflips base strength buf off len bitflips =
      checked strength (bitflips.toNat + zeroCount buf (bitRun off (8 * len))) := by
  have hcounted := counted_countLoops base buf len off h
  rw [checkBufBitflips]
  cases hloops : countLoops base strength buf len off bitflips with
  | none =>
    rw [hloops] at hcounted
    exact (checked_of_lt hcounted).symm
  | some left =>
    obtain ⟨len', off', bitflips'⟩ := left
    obtain rfl := countLoops_done hloops
    rw [hloops] at hcounted
    obtain ⟨hle, htotal⟩ := hcounted
    rw [Nat.mul_zero, bitRun_zero, zeroCount_empty, Nat.add_zero] at htotal
    rw [← htotal, checked_of_le hle]
    exact toInt_eq hle

/-- The loop over the bits of the last byte of the parity. -/
theorem toNat_foldl_bits (buf : Buf) (off : Nat) (h : bitflips.toNat ≤ strength.toNat) {n : Nat} (hn : n ≤ 8) :
    ((List.range n).foldl (fun bitflips i => if (buf off).getLsbD i then bitflips else bitflips + 1)
      bitflips).toNat = bitflips.toNat + zeroCount buf (bitRun off n) := by
  have hstrength := strength.isLt
  induction n with
  | zero => rfl
  | succ n ih =>
    have hbefore := ih (by omega)
    have hle := zeroCount_run_eq buf off (show n ≤ 8 by omega)
    rw [List.range_succ, List.foldl_append, List.foldl_cons, List.foldl_nil, zeroCount_run_succ buf off hn]
    split
    · rw [hbefore, Nat.add_zero]
    · rw [BitVec.toNat_add, hbefore]
      change (_ + 1) % 2 ^ 32 = _
      omega

theorem checkParityBitflips_eq (off bits : Nat) (h : bitflips.toNat ≤ strength.toNat) :
    checkParityBitflips base strength buf off bits bitflips =
      checked strength (bitflips.toNat + zeroCount buf (bitRun off bits)) := by
  have hsplit := zeroCount_run_add buf off (bits / 8) (bits % 8)
  rw [Nat.div_add_mod] at hsplit
  rw [checkParityBitflips, checkBufBitflips_eq off (bits / 8) h, hsplit, ← Nat.add_assoc]
  set bytes := bitflips.toNat + zeroCount buf (bitRun off (8 * (bits / 8)))
  dsimp only
  by_cases hbytes : bytes ≤ strength.toNat
  swap
  · have hlt := not_le.mp hbytes
    rw [if_pos (.inr (checked_neg.mpr hlt)), checked_of_lt hlt, checked_of_lt (by omega)]
  by_cases hbits : bits % 8 = 0
  · rw [if_pos (.inl hbits), hbits, bitRun_zero, zeroCount_empty, Nat.add_zero]
  · have hofInt := toNat_ofInt_checked hbytes
    have hfoldl := toNat_foldl_bits buf (off + bits / 8) (hofInt.trans_le hbytes)
      (show bits % 8 ≤ 8 by omega)
    rw [hofInt] at hfoldl
    rw [if_neg (not_or.mpr ⟨hbits, fun hneg => absurd (checked_neg.mp hneg) (by omega)⟩)]
    split
    · next hlt =>
      rw [strength_lt, hfoldl] at hlt
      rw [checked_of_lt hlt]
    · next hlt =>
      rw [strength_lt, not_lt] at hlt
      rw [toInt_eq hlt, hfoldl, checked_of_le (hfoldl ▸ hlt)]

/-! ### Resets -/

/-- The bits are set, and no others. -/
def SetsBits (bits : Finset (Nat × Nat)) (buf buf' : Buf) : Prop :=
  ∀ x k, k < 8 → (buf' x).getLsbD k = if (x, k) ∈ bits then true else (buf x).getLsbD k

theorem SetsBits.refl {bits : Finset (Nat × Nat)} (h : zeroCount buf bits = 0) : SetsBits bits buf buf := by
  intro x k hk
  split
  · next hmem => exact zeroCount_eq_zero.mp h _ hmem
  · rfl

theorem SetsBits.trans {bits bits' : Finset (Nat × Nat)} {buf' buf'' : Buf} (h : SetsBits bits buf buf')
    (h' : SetsBits bits' buf' buf'') : SetsBits (bits ∪ bits') buf buf'' := by
  intro x k hk
  rw [h' x k hk, h x k hk]
  by_cases hmem : (x, k) ∈ bits'
  · rw [if_pos hmem, if_pos (Finset.mem_union_right _ hmem)]
  · rw [if_neg hmem]
    apply if_congr _ rfl rfl
    rw [Finset.mem_union, or_iff_left hmem]

theorem setsBits_memset (off n : Nat) : SetsBits (bitRun off (8 * n)) buf (memset buf 0xff off n) := by
  intro x k hk
  rw [memset]
  by_cases hx : off ≤ x ∧ x < off + n
  · rw [if_pos hx, if_pos ((mem_bytes hk).mpr hx)]
    interval_cases k <;> rfl
  · rw [if_neg hx, if_neg fun hmem => hx ((mem_bytes hk).mp hmem)]

theorem getLsbD_genmask {h k : Nat} (hk : k < 8) : (genmask h).getLsbD k = decide (k ≤ h) := by
  rw [genmask, BitVec.getLsbD_setWidth, BitVec.getLsbD_allOnes]
  simp [hk]

theorem setsBits_resetParity (off bits : Nat) : SetsBits (bitRun off bits) buf (resetParity buf off bits) := by
  have hsplit := bitRun_add off (bits / 8) (bits % 8)
  rw [Nat.div_add_mod] at hsplit
  rw [hsplit, resetParity]
  by_cases hbits : bits % 8 = 0
  · rw [hbits, bitRun_zero, Finset.union_empty]
    exact setsBits_memset off (bits / 8)
  · simp only [if_neg hbits]
    apply (setsBits_memset off (bits / 8)).trans
    intro x k hk
    by_cases hx : x = off + bits / 8
    · have hmem : (off + bits / 8, k) ∈ bitRun (off + bits / 8) (bits % 8) ↔ k ≤ bits % 8 - 1 := by
        rw [mem_bitRun]
        omega
      rw [hx, Function.update_self, BitVec.getLsbD_or, getLsbD_genmask hk, if_congr hmem rfl rfl]
      by_cases hle : k ≤ bits % 8 - 1
      · rw [if_pos hle, decide_eq_true hle, Bool.or_true]
      · rw [if_neg hle, decide_eq_false hle, Bool.or_false]
    · rw [Function.update_of_ne hx, if_neg]
      rw [mem_bitRun]
      omega

end Count

/-! ### Sectors -/

namespace Geometry

variable {g : Geometry}

/-- The bits of a sector that the parity protects, with the parity. -/
def protectedBits (g : Geometry) (strength : Byte) (sect : Nat) : Finset (Nat × Nat) :=
  bitRun (g.dataPtr sect) (8 * g.sectorSize) ∪ bitRun (g.fdmPtr sect) (8 * g.fdmEccSize) ∪
    bitRun (g.eccPtr sect) (g.eccBits strength)

/-- The bits that are checked as parity are within the parity area. -/
theorem eccBits_le {strength : Byte} (h : strength.toNat ≤ g.setupStrength) :
    g.eccBits strength ≤ 8 * g.eccBytes := by
  have hpos : 0 < fls (1 + 8 * (g.sectorSize + g.fdmEccSize)) := Nat.size_pos.mpr (by omega)
  calc g.eccBits strength
      ≤ strength.toNat * fls (1 + 8 * (g.sectorSize + g.fdmEccSize)) :=
        Nat.mul_le_mul_left _ (Nat.size_le_size (by omega))
    _ ≤ g.eccBytes * 8 := (Nat.le_div_iff_mul_le hpos).mp h
    _ = 8 * g.eccBytes := Nat.mul_comm _ _

/-- The three parts of a sector lie one after the other. -/
theorem zeroCount_protectedBits (strength : Byte) {sect : Nat} (hsect : sect < g.eccSteps) (buf : Buf) :
    zeroCount buf (g.protectedBits strength sect) =
      zeroCount buf (bitRun (g.dataPtr sect) (8 * g.sectorSize)) +
        zeroCount buf (bitRun (g.fdmPtr sect) (8 * g.fdmEccSize)) +
        zeroCount buf (bitRun (g.eccPtr sect) (g.eccBits strength)) := by
  have hdata : (sect + 1) * g.sectorSize ≤ g.eccSteps * g.sectorSize := Nat.mul_le_mul_right _ hsect
  have hfdm : (sect + 1) * g.fdmSize ≤ g.eccSteps * g.fdmSize := Nat.mul_le_mul_right _ hsect
  have hle := g.fdmEcc_le
  rw [Nat.succ_mul] at hdata hfdm
  rw [protectedBits, zeroCount_union, zeroCount_union]
  · apply disjoint_bitRun
    rw [dataPtr, fdmPtr, writesize]
    omega
  · rw [Finset.disjoint_union_left]
    constructor
    · apply disjoint_bitRun
      rw [dataPtr, eccPtr, writesize]
      omega
    · apply disjoint_bitRun
      rw [fdmPtr, eccPtr]
      omega

/-- A sector with more zero bits than the engine corrects is an error and stays as it is. Of any other the
zero bits are counted and set, and no other bit of the page cache changes. -/
theorem fixupEmptySector_spec (g : Geometry) (base : Nat) (strength : Byte) {sect : Nat}
    (hsect : sect < g.eccSteps) (pageCache : Buf) :
    (strength.toNat < zeroCount pageCache (g.protectedBits strength sect) →
      g.fixupEmptySector base strength sect pageCache = (ebadmsg, pageCache)) ∧
    (zeroCount pageCache (g.protectedBits strength sect) ≤ strength.toNat →
      (g.fixupEmptySector base strength sect pageCache).1 = zeroCount pageCache (g.protectedBits strength sect) ∧
      SetsBits (g.protectedBits strength sect) pageCache (g.fixupEmptySector base strength sect pageCache).2) := by
  have hzeros := zeroCount_protectedBits strength hsect pageCache
  set data := zeroCount pageCache (bitRun (g.dataPtr sect) (8 * g.sectorSize))
  set fdm := zeroCount pageCache (bitRun (g.fdmPtr sect) (8 * g.fdmEccSize))
  set parity := zeroCount pageCache (bitRun (g.eccPtr sect) (g.eccBits strength))
  have hdata :
      checkBufBitflips base strength pageCache (g.dataPtr sect) g.sectorSize 0 = checked strength data := by
    rw [checkBufBitflips_eq _ _ (Nat.zero_le _)]
    exact congrArg _ (Nat.zero_add data)
  have hfdm (hle : data ≤ strength.toNat) :
      checkBufBitflips base strength pageCache (g.fdmPtr sect) g.fdmEccSize
          (BitVec.ofInt 32 (checked strength data))
        = checked strength (data + fdm) := by
    rw [checkBufBitflips_eq _ _ ((toNat_ofInt_checked hle).trans_le hle), toNat_ofInt_checked hle]
  have hparity (hle : data + fdm ≤ strength.toNat) :
      checkParityBitflips base strength pageCache (g.eccPtr sect) (g.eccBits strength)
        (BitVec.ofInt 32 (checked strength (data + fdm))) = checked strength (data + fdm + parity) := by
    rw [checkParityBitflips_eq _ _ ((toNat_ofInt_checked hle).trans_le hle), toNat_ofInt_checked hle]
  rw [hzeros, fixupEmptySector, hdata]
  dsimp only
  by_cases hdataLt : strength.toNat < data
  · rw [if_pos (checked_neg.mpr hdataLt)]
    exact ⟨fun _ => rfl, fun hle => absurd hle (by omega)⟩
  rw [if_neg (mt checked_neg.mp hdataLt), hfdm (not_lt.mp hdataLt)]
  by_cases hfdmLt : strength.toNat < data + fdm
  · rw [if_pos (checked_neg.mpr hfdmLt)]
    exact ⟨fun _ => rfl, fun hle => absurd hle (by omega)⟩
  rw [if_neg (mt checked_neg.mp hfdmLt), hparity (not_lt.mp hfdmLt)]
  by_cases hparityLt : strength.toNat < data + fdm + parity
  · rw [if_pos (checked_neg.mpr hparityLt)]
    exact ⟨fun _ => rfl, fun hle => absurd hle (by omega)⟩
  rw [if_neg (mt checked_neg.mp hparityLt), checked_of_le (not_lt.mp hparityLt)]
  refine ⟨fun hlt => absurd hlt hparityLt, fun _ => ?_⟩
  by_cases hnone : data + fdm + parity = 0
  · rw [hnone]
    exact ⟨rfl, .refl (by rw [hzeros, hnone])⟩
  · rw [if_neg (by omega)]
    exact ⟨rfl, ((setsBits_memset _ _).trans (setsBits_memset _ _)).trans (setsBits_resetParity _ _)⟩

end Geometry

/-! ### A sector -/

/-- A page that was never programmed, with a zero bit in the data of its first sector and one in its parity. -/
def wornPage : Buf := fun x => if x = 3 ∨ x = mt7981Page.writesize + 16 then 0xfe else 0xff

theorem fixupEmptySector_wornPage :
    zeroCount wornPage (mt7981Page.protectedBits 4 0) = 2 ∧
    (mt7981Page.fixupEmptySector 2 4 0 wornPage).1 = 2 ∧
    SetsBits (mt7981Page.protectedBits 4 0) wornPage (mt7981Page.fixupEmptySector 2 4 0 wornPage).2 := by
  obtain ⟨herror, hcount⟩ :=
    Geometry.fixupEmptySector_spec mt7981Page 2 4 (show 0 < mt7981Page.eccSteps by decide) wornPage
  have hret : (mt7981Page.fixupEmptySector 2 4 0 wornPage).1 = 2 := by decide +kernel
  have hle : zeroCount wornPage (mt7981Page.protectedBits 4 0) ≤ (4 : Byte).toNat := by
    by_contra hlt
    rw [herror (not_le.mp hlt)] at hret
    exact absurd hret (by decide)
  obtain ⟨hzeros, hset⟩ := hcount hle
  exact ⟨by omega, hret, hset⟩

end Immwrt.Snand
