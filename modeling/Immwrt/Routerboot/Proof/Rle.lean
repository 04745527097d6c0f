import Immwrt.Routerboot.Config

/-!
# Run-length decoding

The expansion of an input, and that the decoder computes it. The count of the decoder is an `int`, so that it
does so for outputs of less than 2 GiB.
-/

namespace Immwrt.Routerboot

/-- The bytes that an input stands for, when every run is complete. -/
def expand : List Byte → Option (List Byte)
  | [] => some []
  | [_] => some []
  | run :: byte :: rest =>
    if run.toNat < 128 then (expand rest).map (List.replicate run.toNat byte ++ ·)
    else if (byte :: rest).length < 256 - run.toNat then none
    else (expand ((byte :: rest).drop (256 - run.toNat))).map ((byte :: rest).take (256 - run.toNat) ++ ·)
termination_by bytes => bytes.length

/-- The accesses that lie inside an input and an output of so many bytes. -/
def Access.Inside (inlen outlen : Nat) : Access → Prop
  | .read i => i < inlen
  | .write i => i < outlen

section

variable {input : List Byte} {outlen : Nat}

/-! ### The two ways of copying -/

theorem drop_eq_getD_cons {pos : Nat} (hpos : pos < input.length) :
    input.drop pos = input.getD pos 0 :: input.drop (pos + 1) := by
  rw [List.drop_eq_getElem_cons hpos, List.getD_eq_getElem?_getD, List.getElem?_eq_getElem hpos,
    Option.getD_some]

theorem val_copyRun {run pos : Nat} {out : List Byte} (hroom : pos + run ≤ input.length) :
    (copyRun input run pos out).val = out ++ (input.drop pos).take run := by
  induction run generalizing pos out with
  | zero => simp [copyRun]
  | succ run ih =>
      rw [drop_eq_getD_cons (by omega), List.take_succ_cons]
      simp only [copyRun, readByte, Traced.val_bind, Traced.val_pure]
      rw [ih (by omega), List.append_assoc, List.singleton_append]

theorem every_copyRun {run pos : Nat} {out : List Byte} (hread : pos + run ≤ input.length)
    (hwrite : out.length + run ≤ outlen) :
    (copyRun input run pos out).Every (Access.Inside input.length outlen) := by
  induction run generalizing pos out with
  | zero => exact Traced.every_pure out
  | succ run ih =>
      simp only [copyRun, readByte, Traced.every_bind, Traced.every_emit, Traced.every_pure]
      refine ⟨⟨?_, trivial⟩, ?_, ih (by omega) ?_⟩
      · exact show pos < input.length by omega
      · exact show out.length < outlen by omega
      · rw [List.length_append, List.length_singleton]
        omega

theorem val_fillRun {byte : Byte} {run : Nat} {out : List Byte} :
    (fillRun byte run out).val = out ++ List.replicate run byte := by
  induction run generalizing out with
  | zero => simp [fillRun]
  | succ run ih =>
      simp only [fillRun, Traced.val_bind]
      rw [ih, List.replicate_succ, List.append_assoc, List.singleton_append]

theorem every_fillRun {byte : Byte} {run inlen : Nat} {out : List Byte} (hwrite : out.length + run ≤ outlen) :
    (fillRun byte run out).Every (Access.Inside inlen outlen) := by
  induction run generalizing out with
  | zero => exact Traced.every_pure out
  | succ run ih =>
      simp only [fillRun, Traced.every_bind, Traced.every_emit]
      refine ⟨show out.length < outlen by omega, ih ?_⟩
      rw [List.length_append, List.length_singleton]
      omega

end

/-! ### The count -/

section Count

variable {w : Nat} {n : Nat}

theorem toNat_signExtend_of_lt (hw : 32 ≤ w) (hn : n < 2 ^ 31) :
    ((BitVec.ofNat 32 n).signExtend w).toNat = n := by
  have hpow := Nat.pow_le_pow_right (show 0 < 2 by omega) hw
  have hmsb : (BitVec.ofNat 32 n).msb = false := by
    rw [BitVec.msb_eq_decide, BitVec.toNat_ofNat, decide_eq_false_iff_not]
    omega
  rw [BitVec.toNat_signExtend, hmsb, if_neg Bool.false_ne_true, Nat.add_zero, BitVec.toNat_setWidth,
    BitVec.toNat_ofNat, Nat.mod_eq_of_lt (by omega), Nat.mod_eq_of_lt (by omega)]

/-- A count from 2 GiB on is negative, which is too much for every output. -/
theorem exceeds_iff (hw : 32 ≤ w) (hn : n < 2 ^ 32) {outlen : BitVec w} (hout : outlen.toNat + 2 ^ 31 < 2 ^ w) :
    exceeds (BitVec.ofNat 32 n) outlen ↔ outlen.toNat < n ∨ 2 ^ 31 ≤ n := by
  rw [exceeds]
  rcases Nat.lt_or_ge n (2 ^ 31) with hlt | hge
  · rw [toNat_signExtend_of_lt hw hlt]
    omega
  · have hpow := Nat.pow_le_pow_right (show 0 < 2 by omega) hw
    have hmsb : (BitVec.ofNat 32 n).msb = true := by
      rw [BitVec.msb_eq_decide, BitVec.toNat_ofNat, decide_eq_true_iff]
      omega
    have hset : (BitVec.ofNat 32 n).toNat % 2 ^ w = n := by
      rw [BitVec.toNat_ofNat, Nat.mod_eq_of_lt hn, Nat.mod_eq_of_lt (by omega)]
    rw [BitVec.toNat_signExtend, hmsb, if_pos rfl, BitVec.toNat_setWidth, hset]
    omega

end Count

/-! ### The loop -/

/-- The result of decoding an input with this expansion behind the bytes that are there. -/
structure DecodesTo {w : Nat} (outlen : BitVec w) (front : List Byte) (expansion : Option (List Byte))
    (decoded : Decoded w) : Prop where
  ok_iff : decoded.ret = .ok () ↔ ∃ bytes, expansion = some bytes ∧
    (front ++ bytes).length ≤ outlen.toNat ∧ (front ++ bytes).length < 2 ^ 31
  out : decoded.ret = .ok () → ∀ bytes, expansion = some bytes →
    decoded.out = front ++ bytes ∧ decoded.outlen.toNat = (front ++ bytes).length

section Loop

variable {w : Nat} {outlen : BitVec w} {front piece : List Byte} {expansion : Option (List Byte)}
  {nbytes : BitVec 32} {decoded : Decoded w}

theorem DecodesTo.of_none : DecodesTo outlen front none (.of w (.error .enospc) nbytes front) where
  ok_iff := by simp [Decoded.of]
  out := by simp

theorem DecodesTo.of_exceeds
    (hexceeds : outlen.toNat < front.length + piece.length ∨ 2 ^ 31 ≤ front.length + piece.length) :
    DecodesTo outlen front (expansion.map (piece ++ ·)) (.of w (.error .enospc) nbytes front) where
  ok_iff := by
    refine iff_of_false (fun h => nomatch h) ?_
    rintro ⟨bytes, hbytes, hfit, hsmall⟩
    obtain ⟨rest, -, rfl⟩ := Option.map_eq_some_iff.1 hbytes
    rw [List.length_append, List.length_append] at hfit hsmall
    omega
  out := fun h => nomatch h

theorem DecodesTo.run (hdecodes : DecodesTo outlen (front ++ piece) expansion decoded) :
    DecodesTo outlen front (expansion.map (piece ++ ·)) decoded where
  ok_iff := by
    rw [hdecodes.ok_iff]
    constructor
    · rintro ⟨bytes, rfl, hfit, hsmall⟩
      refine ⟨piece ++ bytes, rfl, ?_⟩
      rw [← List.append_assoc]
      exact ⟨hfit, hsmall⟩
    · rintro ⟨bytes, hbytes, hfit, hsmall⟩
      obtain ⟨rest, rfl, rfl⟩ := Option.map_eq_some_iff.1 hbytes
      rw [← List.append_assoc] at hfit hsmall
      exact ⟨rest, rfl, hfit, hsmall⟩
  out := by
    intro hok bytes hbytes
    obtain ⟨rest, rfl, rfl⟩ := Option.map_eq_some_iff.1 hbytes
    rw [← List.append_assoc]
    exact hdecodes.out hok rest rfl

theorem DecodesTo.last (hw : 32 ≤ w) (hfit : front.length ≤ outlen.toNat) (hsmall : front.length < 2 ^ 31) :
    DecodesTo outlen front (some []) (.of w (.ok ()) (BitVec.ofNat 32 front.length) front) where
  ok_iff := by
    refine iff_of_true rfl ⟨[], rfl, ?_⟩
    rw [List.append_nil]
    exact ⟨hfit, hsmall⟩
  out := by
    rintro - bytes hbytes
    obtain rfl : [] = bytes := Option.some.inj hbytes
    rw [List.append_nil]
    exact ⟨rfl, toNat_signExtend_of_lt hw hsmall⟩

theorem readByte_spec {input : List Byte} {pos : Nat} (hpos : pos < input.length) (outlen : Nat) :
    (readByte input pos).Every (Access.Inside input.length outlen) ∧
      (readByte input pos).val = input.getD pos 0 := by
  rw [readByte]
  exact ⟨Traced.every_bind.2 ⟨Traced.every_emit.2 hpos, Traced.every_pure _⟩, rfl⟩

theorem and_0x80_eq_zero_iff (byte : Byte) : byte &&& 0x80 = 0 ↔ byte.toNat < 128 := by
  revert byte
  decide

theorem toNat_not_add_one (byte : Byte) : (~~~ byte).toNat + 1 = 256 - byte.toNat := by
  have := byte.isLt
  rw [BitVec.toNat_not]
  omega

/-- The second half of a turn: a run of known length that is written if there is room for it. -/
theorem turn_spec {inlen : Nat} {copy : Traced Access (List Byte)} {next : List Byte → Traced Access (Decoded w)}
    (hw : 32 ≤ w) (hout : outlen.toNat + 2 ^ 31 < 2 ^ w) (hsmall : front.length < 2 ^ 31)
    (hpiece : piece.length ≤ 128)
    (hcopy : front.length + piece.length ≤ outlen.toNat →
      copy.Every (Access.Inside inlen outlen.toNat) ∧ copy.val = front ++ piece)
    (hnext : (front ++ piece).length ≤ outlen.toNat → (front ++ piece).length < 2 ^ 31 →
      (next (front ++ piece)).Every (Access.Inside inlen outlen.toNat) ∧
        DecodesTo outlen (front ++ piece) expansion (next (front ++ piece)).val)
    (hnbytes : nbytes = BitVec.ofNat 32 (front ++ piece).length) :
    (if exceeds nbytes outlen then pure (.of w (.error .enospc) nbytes front) else copy >>= next).Every
        (Access.Inside inlen outlen.toNat) ∧
      DecodesTo outlen front (expansion.map (piece ++ ·))
        (if exceeds nbytes outlen then pure (.of w (.error .enospc) nbytes front) else copy >>= next).val := by
  have hlen : (front ++ piece).length = front.length + piece.length := List.length_append
  have hexceeds : exceeds nbytes outlen ↔
      outlen.toNat < front.length + piece.length ∨ 2 ^ 31 ≤ front.length + piece.length := by
    rw [hnbytes, ← hlen]
    exact exceeds_iff hw (by omega) hout
  by_cases hover : exceeds nbytes outlen
  · rw [if_pos hover]
    exact ⟨Traced.every_pure _, .of_exceeds (hexceeds.1 hover)⟩
  · rw [if_neg hover]
    rw [hexceeds, not_or, not_lt, not_le] at hover
    obtain ⟨hevery, hval⟩ := hcopy hover.1
    obtain ⟨hrest, hdecodes⟩ := hnext (by omega) (by omega)
    rw [Traced.every_bind, Traced.val_bind, hval]
    exact ⟨⟨hevery, hrest⟩, hdecodes.run⟩

theorem rleLoop_spec {input : List Byte} {inlen pos : Nat} (hw : 32 ≤ w)
    (hout : outlen.toNat + 2 ^ 31 < 2 ^ w) (hpos : pos + inlen = input.length)
    (hfit : front.length ≤ outlen.toNat) (hsmall : front.length < 2 ^ 31) :
    (rleLoop input outlen inlen pos (BitVec.ofNat 32 front.length) front).Every
        (Access.Inside input.length outlen.toNat) ∧
      DecodesTo outlen front (expand (input.drop pos))
        (rleLoop input outlen inlen pos (BitVec.ofNat 32 front.length) front).val := by
  induction inlen using Nat.strong_induction_on generalizing pos front with
  | _ inlen ih =>
    rw [rleLoop]
    by_cases hinlen : 2 ≤ inlen
    · rw [if_pos hinlen]
      refine Traced.every_val_bind (q := fun byte => byte = input.getD pos 0) (readByte_spec (by omega) _) ?_
      rintro byte rfl
      have hbyte := (input.getD pos 0).isLt
      rw [drop_eq_getD_cons (show pos < input.length by omega),
        drop_eq_getD_cons (show pos + 1 < input.length by omega), expand]
      by_cases hliteral : input.getD pos 0 &&& 0x80 ≠ 0
      · have hlarge := hliteral
        rw [Ne, and_0x80_eq_zero_iff] at hlarge
        rw [if_pos hliteral, if_neg hlarge, ← drop_eq_getD_cons (show pos + 1 < input.length by omega)]
        simp only [toNat_not_add_one, List.length_drop]
        generalize hrun : 256 - (input.getD pos 0).toNat = run
        by_cases hlack : inlen - 1 < run
        · rw [if_pos hlack, if_pos (show input.length - (pos + 1) < run by omega)]
          exact ⟨Traced.every_pure _, .of_none⟩
        · rw [if_neg hlack, if_neg (show ¬ input.length - (pos + 1) < run by omega), List.drop_drop]
          have hlen : ((input.drop (pos + 1)).take run).length = run := by
            rw [List.length_take, List.length_drop]
            omega
          have hnbytes : BitVec.ofNat 32 front.length + BitVec.ofNat 32 run =
              BitVec.ofNat 32 (front ++ (input.drop (pos + 1)).take run).length := by
            rw [List.length_append, hlen, BitVec.ofNat_add]
          refine turn_spec hw hout hsmall (by omega) (fun hroom => ?_) (fun hfit hsmall => ?_) hnbytes
          · exact ⟨every_copyRun (by omega) (by omega), val_copyRun (by omega)⟩
          · rw [hnbytes]
            exact ih _ (by omega) (by omega) hfit hsmall
      · rw [if_neg hliteral]
        rw [not_not, and_0x80_eq_zero_iff] at hliteral
        rw [if_pos hliteral]
        refine Traced.every_val_bind (q := fun byte => byte = input.getD (pos + 1) 0) (readByte_spec (by omega) _) ?_
        rintro byte rfl
        generalize (input.getD pos 0).toNat = run at hliteral
        have hnbytes : BitVec.ofNat 32 front.length + BitVec.ofNat 32 run =
            BitVec.ofNat 32 (front ++ List.replicate run (input.getD (pos + 1) 0)).length := by
          rw [List.length_append, List.length_replicate, BitVec.ofNat_add]
        have hlen : (List.replicate run (input.getD (pos + 1) 0)).length = run := List.length_replicate
        refine turn_spec hw hout hsmall (by omega) (fun hroom => ?_) (fun hfit hsmall => ?_) hnbytes
        · exact ⟨every_fillRun (by omega), val_fillRun⟩
        · rw [hnbytes]
          exact ih _ (by omega) (by omega) hfit hsmall
    · rw [if_neg hinlen]
      refine ⟨Traced.every_pure _, ?_⟩
      have hexpand : expand (input.drop pos) = some [] := by
        rcases hrest : input.drop pos with _ | ⟨byte, _ | ⟨byte', rest⟩⟩
        · rw [expand]
        · rw [expand]
        · have hlen := congrArg List.length hrest
          rw [List.length_drop, List.length_cons, List.length_cons] at hlen
          omega
      rw [hexpand]
      exact .last hw hfit hsmall

end Loop

/-! ### The decoder -/

/-- The decoder accepts the complete runs that fit, gives their expansion, and stays inside both buffers. -/
structure DecodesRuns {w : Nat} (input : List Byte) (outlen : BitVec w) (decoded : Traced Access (Decoded w)) :
    Prop where
  ok_iff : decoded.val.ret = .ok () ↔ ∃ bytes, expand input = some bytes ∧ bytes.length ≤ outlen.toNat
  out : decoded.val.ret = .ok () → ∀ bytes, expand input = some bytes →
    decoded.val.out = bytes ∧ decoded.val.outlen.toNat = bytes.length
  inside : decoded.Every (Access.Inside input.length outlen.toNat)

theorem routerbootRleDecode_spec {w : Nat} {input : List Byte} {outlen : BitVec w} (hw : 32 ≤ w)
    (hinput : 2 ≤ input.length) (hout : outlen.toNat + 2 ^ 31 < 2 ^ w) :
    (routerbootRleDecode input outlen).Every (Access.Inside input.length outlen.toNat) ∧
      DecodesTo outlen [] (expand input) (routerbootRleDecode input outlen).val := by
  rw [routerbootRleDecode, if_neg (by omega)]
  exact @rleLoop_spec w outlen [] input _ 0 hw hout (Nat.zero_add _) (Nat.zero_le _) (by decide)

/-- The decoder is right for every output of less than 2 GiB. -/
theorem routerbootRleDecode_decodesRuns {w : Nat} (input : List Byte) (outlen : BitVec w) (hw : 32 ≤ w)
    (hinput : 2 ≤ input.length) (hout : outlen.toNat < 2 ^ 31) :
    DecodesRuns input outlen (routerbootRleDecode input outlen) := by
  have hpow := Nat.pow_le_pow_right (show 0 < 2 by omega) hw
  have hfits : outlen.toNat + 2 ^ 31 < 2 ^ w := by omega
  obtain ⟨hinside, hdecodes⟩ := routerbootRleDecode_spec hw hinput hfits
  refine ⟨hdecodes.ok_iff.trans (exists_congr fun bytes => and_congr_right fun _ => ?_), hdecodes.out, hinside⟩
  rw [List.nil_append]
  omega

theorem routerbootRleDecode_decodesRuns_pair :
    DecodesRuns [3, 5] (8 : BitVec 32) (routerbootRleDecode [3, 5] (8 : BitVec 32)) :=
  routerbootRleDecode_decodesRuns [3, 5] 8 (by decide) (by decide) (by decide)

/-- `n` runs of 127 zeros. -/
def longRuns : Nat → List Byte
  | 0 => []
  | n + 1 => 127 :: 0 :: longRuns n

theorem length_longRuns (n : Nat) : (longRuns n).length = 2 * n := by
  induction n with
  | zero => rfl
  | succ n ih =>
      rw [longRuns, List.length_cons, List.length_cons, ih]
      omega

theorem expand_longRuns (n : Nat) : expand (longRuns n) = some (List.replicate (127 * n) 0) := by
  induction n with
  | zero =>
      rw [longRuns, expand]
      rfl
  | succ n ih =>
      rw [longRuns, expand, if_pos (by decide), ih, Option.map_some, Nat.mul_succ, Nat.add_comm,
        ← List.replicate_append_replicate]
      rfl

/-- Complete runs of more than 2 GiB that fit an output of 4 GiB. -/
theorem routerbootRleDecode_too_long :
    ¬ DecodesRuns (longRuns 16909321) (4294967296 : BitVec 64)
      (routerbootRleDecode (longRuns 16909321) (4294967296 : BitVec 64)) := by
  intro hruns
  have hinput : 2 ≤ (longRuns 16909321).length := by
    rw [length_longRuns]
    omega
  have hout : (4294967296 : BitVec 64).toNat = 4294967296 := rfl
  obtain ⟨-, hdecodes⟩ := @routerbootRleDecode_spec 64 _ 4294967296 (by omega) hinput (by rw [hout]; omega)
  have hexpand := expand_longRuns 16909321
  generalize longRuns 16909321 = input at hruns hdecodes hexpand
  have hok := hruns.ok_iff.2 ⟨_, hexpand, by rw [List.length_replicate, hout]; omega⟩
  obtain ⟨bytes, hbytes, -, hsmall⟩ := hdecodes.ok_iff.1 hok
  obtain rfl := Option.some.inj (hexpand.symm.trans hbytes)
  rw [List.nil_append, List.length_replicate] at hsmall
  omega

end Immwrt.Routerboot
