import Immwrt.Ead.Client
import Immwrt.Ead.Proof.Access
import Immwrt.Ead.Proof.Reject

/-!
# Where daemon and client leave their buffers

The client checks that a message was received as a whole, but not that it is as long as its handler takes it to be, nor
that what it holds fits in the buffer it is copied to.
-/

namespace Immwrt.Ead

variable {cipher : Cipher} {c : Client} {m : Datagram}

theorem received_ok {off : Nat} {len : Int} : (receivedAt off len).Ok m.size ↔ 0 ≤ len ∧ off + len ≤ m.len := Iff.rfl

theorem toCInt_eq {n : Int} (hlow : -2 ^ 31 ≤ n) (hhigh : n < 2 ^ 31) : toCInt n = n := by
  rw [toCInt, BitVec.toInt_ofInt, Int.bmod_def]
  omega

/-- A message that is not longer than what was received; where `size_t` has 32 bits, its length may also be one that goes
around. -/
theorem msgLen_cases (h : (sizeofMsg + m.msgLen.toNat) % 2 ^ c.sizeBits ≤ m.len) :
    m.msgLen.toNat + 20 ≤ m.len ∨ 2 ^ 32 ≤ m.msgLen.toNat + 20 := by
  have hpow : 2 ^ 32 ≤ 2 ^ c.sizeBits := Nat.pow_le_pow_right (by decide) c.sizeBits_ge
  rw [sizeofMsg] at h
  by_cases hlt : 20 + m.msgLen.toNat < 2 ^ c.sizeBits
  · rw [Nat.mod_eq_of_lt hlt] at h
    exact .inl (by omega)
  · exact .inr (by omega)

/-- The length of a message as an `int`. -/
theorem msgLen_toInt (h : m.msgLen.toNat + 20 ≤ m.len ∨ 2 ^ 32 ≤ m.msgLen.toNat + 20) :
    m.msgLen.toInt = m.msgLen.toNat ∧ m.msgLen.toNat + 20 ≤ m.len ∨
      m.msgLen.toInt = m.msgLen.toNat - 2 ^ 32 ∧ -20 ≤ m.msgLen.toInt ∧ m.msgLen.toInt < 0 := by
  have hlt := m.msgLen.isLt
  have hlen := m.len_le
  rw [sizeofMsgbuf] at hlen
  rw [BitVec.toInt_eq_toNat_cond]
  split
  · exact .inl (by omega)
  · exact .inr (by omega)

/-- The length of a message without a header of some bytes, as an `int`. -/
theorem toCInt_msgLen {n : Int} (hzero : 0 ≤ n) (htwo : n ≤ 2)
    (h : m.msgLen.toNat + 20 ≤ m.len ∨ 2 ^ 32 ≤ m.msgLen.toNat + 20) :
    toCInt (m.msgLen.toNat - n) = m.msgLen.toInt - n := by
  have hlen := m.len_le
  rw [sizeofMsgbuf] at hlen
  rcases msgLen_toInt h with ⟨heq, hle⟩ | ⟨heq, hlow, hneg⟩
  · rw [heq]
    exact toCInt_eq (by omega) (by omega)
  · rw [toCInt, BitVec.toInt_ofInt, Int.bmod_def]
    omega

/-! ### Handlers -/

theorem inBounds_prime : InBounds m.size (primeAccesses c m) ↔ AnswerFits c m .prime := by
  have hsalt : ∀ n : Nat, (Access.mk .saltbuf 0 n).Ok m.size ↔ n ≤ 32 := by
    intro n
    change 0 ≤ (n : Int) ∧ ((0 : Nat) : Int) + n ≤ 32 ↔ _
    omega
  have hpwSalt : ∀ off n : Nat, (Access.mk .pwSalt off n).Ok m.size ↔ off + n ≤ 32 := by
    intro off n
    change 0 ≤ (n : Int) ∧ (off : Int) + n ≤ 32 ↔ _
    omega
  have hext : InBounds m.size
      [receivedAt 54 maxSaltLen, ⟨.pwSalt, 0, maxSaltLen⟩, ⟨.pwSalt, 31, 1⟩] ↔ 86 ≤ m.len := by
    rw [inBounds_cons, inBounds_cons, inBounds_cons, hpwSalt 0 maxSaltLen, received_ok, maxSaltLen,
      and_iff_right le_rfl, and_iff_left ⟨(hpwSalt 31 1).2 le_rfl, inBounds_nil⟩]
    omega
  rw [primeAccesses, AnswerFits, maxSaltLen]
  rw [maxSaltLen] at hext
  generalize (m.mem 21).toNat = len
  rw [inBounds_append, inBounds_append]
  simp only [inBounds_cons, received_ok, hsalt, inBounds_nil, and_true]
  split
  case isTrue hmd5 =>
    rw [hext, imp_iff_right hmd5]
    omega
  case isFalse hmd5 =>
    simp only [inBounds_nil, hmd5, false_imp_iff, and_true]
    omega

theorem inBounds_doneAuth : InBounds m.size doneAuthAccesses ↔ AnswerFits c m .doneAuth := by
  rw [doneAuthAccesses, AnswerFits, sizeofMsg]
  simp only [inBounds_cons, received_ok, inBounds_nil, and_true]
  omega

/-- What is left of a message behind its header and its padding. -/
theorem decryptMessage_ret (cipher : Cipher) (data : List Byte) (crypt : Crypt) (len : Word) :
    ∃ pad : Nat, (decryptMessage cipher len data crypt).1 = none ∨
      ∃ plain, (decryptMessage cipher len data crypt).1 = some (toCInt (len.toInt - (pad + sizeofEncrypted)), plain) ∧
        pad < encPad := by
  by_cases hcounted : Counted cipher len data crypt
  · refine ⟨((plainOf cipher len data crypt).getD 24 0).toNat, ?_⟩
    rw [decryptMessage_of_counted hcounted]
    dsimp only
    split
    case isTrue => exact .inr ⟨_, rfl, Nat.lt_of_not_le hcounted.pad⟩
    case isFalse => exact .inl rfl
  · rw [decryptMessage_of_not_counted hcounted]
    exact ⟨0, .inl rfl⟩

section Whole

variable (h : m.msgLen.toNat + 20 ≤ m.len ∨ 2 ^ 32 ≤ m.msgLen.toNat + 20)

include h

theorem inBounds_pong : InBounds m.size (pongAccesses c m) ↔ AnswerFits c m .pong := by
  have hint := msgLen_toInt h
  have hwrite : ∀ off : Nat, (Access.mk .msgbuf off 1).Ok m.size ↔ off + 1 ≤ 1500 := by
    intro off
    change 0 ≤ (1 : Int) ∧ (off : Int) + 1 ≤ 1500 ↔ _
    omega
  rw [pongAccesses, AnswerFits, toCInt_msgLen (by decide) le_rfl h, sizeofMsgbuf]
  split
  case isTrue hle => exact iff_of_true inBounds_nil fun hpos => absurd hpos (by omega)
  case isFalse hpos =>
    have hname : (CString.ofBytes (bytesAt m.mem 22 (m.msgLen.toInt - 2).toNat)).bytes.length ≤
        (m.msgLen.toInt - 2).toNat := (length_ofBytes_le _).trans (length_bytesAt _ _ _).le
    generalize (CString.ofBytes (bytesAt m.mem 22 (m.msgLen.toInt - 2).toNat)).bytes.length = name at hname ⊢
    rw [imp_iff_right (by omega)]
    split
    case isTrue =>
      simp only [inBounds_append, inBounds_cons, received_ok, hwrite, inBounds_nil, and_true]
      omega
    case isFalse =>
      simp only [inBounds_append, inBounds_cons, received_ok, hwrite, inBounds_nil, and_true]
      omega

theorem inBounds_number : InBounds m.size (numberAccesses m) ↔ AnswerFits c m .sendB := by
  have hint := msgLen_toInt h
  have hbbuf : ∀ n : Int, (Access.mk .bbuf 0 n).Ok m.size ↔ 0 ≤ n ∧ n ≤ 256 := by
    intro n
    change 0 ≤ n ∧ ((0 : Nat) : Int) + n ≤ 256 ↔ _
    omega
  rw [numberAccesses, AnswerFits, toCInt_msgLen (by decide) (by decide) h, maxParamLen]
  simp only [inBounds_cons, received_ok, hbbuf, inBounds_nil, and_true]
  omega

/-- The payload of a message that was received as a whole was received. -/
theorem inBounds_data (crypt : Crypt) :
    InBounds m.size (dataAccesses (decryptReturns cipher m.msgLen m.enc crypt)) := by
  have hlen := m.len_le
  rw [sizeofMsgbuf] at hlen
  have hint := msgLen_toInt h
  obtain ⟨pad, hnone | ⟨plain, hsome, hpad⟩⟩ := decryptMessage_ret cipher m.enc crypt m.msgLen
  · rw [decryptReturns, hnone, dataAccesses]
    exact inBounds_nil
  · rw [encPad] at hpad
    have hret : toCInt (m.msgLen.toInt - (pad + 25)) = m.msgLen.toInt - (pad + 25) :=
      toCInt_eq (by omega) (by omega)
    rw [decryptReturns, hsome, Option.map_some, Option.getD_some, dataAccesses, sizeofEncrypted]
    rw [show ((25 : Nat) : Int) = 25 from rfl, hret, toCInt_eq (by omega) (by omega)]
    split
    case isTrue => exact inBounds_nil
    case isFalse hpos =>
      rw [inBounds_append]
      simp only [inBounds_cons, received_ok, inBounds_nil, and_true]
      refine ⟨?_, by omega⟩
      split
      case isTrue =>
        simp only [inBounds_cons, received_ok, inBounds_nil, and_true]
        omega
      case isFalse => exact inBounds_nil

theorem inBounds_cmdData (hheader : sizeofMsg ≤ m.len) :
    InBounds m.size (cmdDataAccesses cipher c m) ↔ AnswerFits c m .resultCmd := by
  have hint := msgLen_toInt h
  have hsize : m.size .received = m.len := rfl
  rw [sizeofMsg] at hheader
  rw [cmdDataAccesses, List.cons_append, inBounds_cons, inBounds_append, inBounds_decrypt, received_ok,
    and_iff_left (inBounds_data h c.crypt), EncryptedFits, AnswerFits, hsize, sizeofMsg, sizeofEncrypted]
  constructor
  · rintro ⟨-, hneg, -⟩ hlt
    have := hneg hlt
    omega
  · intro hfits
    refine ⟨by omega, fun hneg => ?_, fun _ _ => by omega⟩
    have := hfits hneg
    omega

theorem inBounds_answer (hheader : sizeofMsg ≤ m.len) (awaited : Awaited) :
    InBounds m.size (answerAccesses cipher c m awaited) ↔ AnswerFits c m awaited := by
  cases awaited with
  | pong => exact inBounds_pong h
  | ackUsername => exact iff_of_true inBounds_nil trivial
  | prime => exact inBounds_prime
  | sendB => exact inBounds_number h
  | doneAuth => exact inBounds_doneAuth
  | resultCmd => exact inBounds_cmdData h hheader

end Whole

/-! ### Answers -/

theorem mem_of_mem_looked {check : Check} {checks : List Check} (h : check ∈ looked checks) : check ∈ checks := by
  induction checks with
  | nil => exact absurd h List.not_mem_nil
  | cons first checks ih =>
      rw [looked, List.mem_cons] at h
      rcases h with rfl | hmem
      · exact List.mem_cons_self
      · split at hmem
        case isTrue => exact List.mem_cons_of_mem _ (ih hmem)
        case isFalse => exact absurd hmem List.not_mem_nil

/-- The fields that are looked at belong to the header. -/
theorem inBounds_answerChecks (hheader : sizeofMsg ≤ m.len) (awaited : Awaited) :
    InBounds m.size ((looked (answerChecks c m awaited)).map fun check => receivedAt check.off check.size) := by
  have hoff : ∀ check ∈ answerChecks c m awaited, check.off + check.size ≤ sizeofMsg := by
    rw [answerChecks]
    intro check hcheck
    simp only [List.mem_append, List.mem_cons] at hcheck
    grind [sizeofMsg]
  rw [InBounds, List.forall_mem_map]
  intro check hcheck
  have hle := hoff check (mem_of_mem_looked hcheck)
  rw [received_ok]
  omega

theorem msgLen_of_answerChecks {awaited : Awaited} (h : (answerChecks c m awaited).all Check.passes = true) :
    (sizeofMsg + m.msgLen.toNat) % 2 ^ c.sizeBits ≤ m.len := by
  rw [answerChecks, List.all_append, List.all_append, List.all_cons] at h
  simp only [Bool.and_eq_true, decide_eq_true_iff] at h
  exact h.1.1.1

/-- Handling an answer stays in the buffers exactly if it has what its handler needs. -/
theorem sendPacketAccesses_iff (cipher : Cipher) (c : Client) (awaited : Awaited) (m : Datagram) :
    InBounds m.size (sendPacketAccesses cipher c m awaited) ↔ ClientFits c m awaited := by
  rw [sendPacketAccesses, ClientFits]
  by_cases hlen : m.len < sizeofMsg
  · rw [if_pos hlen]
    exact iff_of_true inBounds_nil fun hle => absurd hlen (Nat.not_lt.2 hle)
  · have hheader : sizeofMsg ≤ m.len := Nat.not_lt.1 hlen
    rw [if_neg hlen, imp_iff_right hheader]
    dsimp only
    rw [inBounds_append, and_iff_right (inBounds_answerChecks hheader awaited)]
    split
    case isTrue hall =>
      rw [imp_iff_right hall]
      exact inBounds_answer (msgLen_cases (msgLen_of_answerChecks hall)) hheader awaited
    case isFalse hall => exact iff_of_true inBounds_nil fun h => absurd h hall

/-! ### Daemon and client -/

instance {size : Region → Nat} {accesses : List Access} : Decidable (InBounds size accesses) :=
  inferInstanceAs (Decidable (∀ access ∈ accesses, 0 ≤ access.len ∧ access.off + access.len ≤ size access.region))

/-- A library whose numbers fit in its buffers. -/
def shortSrp : Srp :=
  { echoSrp with serverGenExp := fun (ts : List Byte) random => (random.take maxParamLen, ts ++ random) }

/-- A packet of a type that was captured as a whole, and the length that its message claims to have. -/
def frameOf (type : Byte) (msgLen : Byte) (data : List Byte) : Frame :=
  let header := List.replicate 6 0xff ++ List.replicate 6 0 ++ [0x08, 0] ++ List.replicate 9 0 ++ [17] ++
    List.replicate 12 0 ++ [0xda, 0xda] ++ List.replicate 4 0 ++ wordBe eadMagic ++ [0, 0, 0, msgLen] ++
    [0, 0, 0, type] ++ [0xff, 0xff] ++ List.replicate 6 0
  ⟨fun i => (header ++ data).getD i 0, BitVec.ofNat 32 (header ++ data).length, (header ++ data).length⟩

theorem shortSrp_salt (ts : shortSrp.Server) : (shortSrp.salt ts).length ≤ maxSaltLen := Nat.zero_le maxSaltLen

theorem shortSrp_serverGenExp (ts : shortSrp.Server) (random : List Byte) :
    (shortSrp.serverGenExp ts random).1.length ≤ maxParamLen :=
  List.length_take_le maxParamLen random

/-- What the daemon is after a client has given its name and got the prime. -/
def primed : Daemon shortSrp := (rootRun.take 2).foldl (afterPacket xorCipher rootConfig) Daemon.init

end Immwrt.Ead
