import Immwrt.Ead.Channel
import Immwrt.Ead.Proof.Session

/-!
# Messages that are rejected

`ead_decrypt_message` takes over the number of a message before it looks at the hash. A message that fails the hash
check, or whose payload is empty, is rejected after that, and the receiver refuses what it would have taken before.
-/

namespace Immwrt.Ead

variable {cipher : Cipher} {len : Word} {data : List Byte} {c : Crypt}

/-! ### The checks -/

/-- What a message is decrypted to. -/
def plainOf (cipher : Cipher) (len : Word) (data : List Byte) (c : Crypt) : List Byte :=
  onBlocks (cipher.decrypt c.skey) ((len.toInt.toNat + 15) / 16) data

/-- A message gets as far as the number, which is in the window. -/
structure Counted (cipher : Cipher) (len : Word) (data : List Byte) (c : Crypt) : Prop where
  length : ¬ (len.toInt = 0 ∨ 0 < len.toInt.tmod encPad)
  pad : ¬ encPad ≤ ((plainOf cipher len data c).getD 24 0).toNat
  expected : c.Expects (ofBe (slice (plainOf cipher len data c) 20 4))

/-- What the length of the payload is computed as. -/
def payloadLen (cipher : Cipher) (len : Word) (data : List Byte) (c : Crypt) : Int :=
  toCInt (len.toInt - (((plainOf cipher len data c).getD 24 0).toNat + sizeofEncrypted))

theorem decryptMessage_of_counted (h : Counted cipher len data c) :
    decryptMessage cipher len data c =
      (if hashMatches cipher (plainOf cipher len data c) len.toInt.toNat then
          some (payloadLen cipher len data c, plainOf cipher len data c)
        else none, { c with rxIv := ofBe (slice (plainOf cipher len data c) 20 4) }) := by
  obtain ⟨hlength, hpad, hexpected⟩ := h
  rw [plainOf] at hpad hexpected
  rw [decryptMessage, if_neg hlength]
  dsimp only
  rw [if_neg hpad, checkRxIv_eq, if_pos hexpected, payloadLen, plainOf]
  cases hashMatches cipher (onBlocks (cipher.decrypt c.skey) ((len.toInt.toNat + 15) / 16) data) len.toInt.toNat <;> rfl

theorem decryptMessage_of_not_counted (h : ¬ Counted cipher len data c) :
    decryptMessage cipher len data c = (none, c) := by
  rw [decryptMessage]
  by_cases hlength : len.toInt = 0 ∨ 0 < len.toInt.tmod encPad
  · rw [if_pos hlength]
  rw [if_neg hlength]
  dsimp only
  by_cases hpad : encPad ≤ ((plainOf cipher len data c).getD 24 0).toNat
  · exact if_pos hpad
  · have hnot : ¬ c.Expects (ofBe (slice (plainOf cipher len data c) 20 4)) := fun hexpected =>
      h ⟨hlength, hpad, hexpected⟩
    rw [plainOf] at hpad hnot
    rw [if_neg hpad, checkRxIv_eq, if_neg hnot]
    rfl

/-! ### What a rejected message leaves -/

/-- A message whose number is taken over although it is rejected: the hash is wrong, or there is no payload. -/
structure Poisonous (cipher : Cipher) (len : Word) (data : List Byte) (c : Crypt) : Prop where
  counted : Counted cipher len data c
  unwanted : hashMatches cipher (plainOf cipher len data c) len.toInt.toNat = true →
    payloadLen cipher len data c = 0

theorem decryptReturns_of_poisonous (h : Poisonous cipher len data c) : decryptReturns cipher len data c = 0 := by
  rw [decryptReturns, decryptMessage_of_counted h.counted]
  cases hhash : hashMatches cipher (plainOf cipher len data c) len.toInt.toNat with
  | false => rfl
  | true => exact h.unwanted hhash

/-- The number of a message that is expected is not the one before. -/
theorem rxIv_ne_of_counted (h : Counted cipher len data c) : (decryptMessage cipher len data c).2.rxIv ≠ c.rxIv := by
  rw [decryptMessage_of_counted h]
  intro heq
  exact h.expected.1 (BitVec.le_of_eq heq)

theorem crypt_of_not_poisonous (h : ¬ Poisonous cipher len data c) (hrejected : decryptReturns cipher len data c = 0) :
    (decryptMessage cipher len data c).2 = c := by
  by_cases hcounted : Counted cipher len data c
  · refine absurd ⟨hcounted, fun hhash => ?_⟩ h
    rw [decryptReturns, decryptMessage_of_counted hcounted, if_pos hhash] at hrejected
    exact hrejected
  · rw [decryptMessage_of_not_counted hcounted]

/-- A message does no harm if it is rejected, if and only if it is not one whose number is taken over all the same. -/
theorem rejectedIntact_iff (cipher : Cipher) (len : Word) (data : List Byte) (c : Crypt) :
    RejectedIntact cipher len data c ↔ ¬ Poisonous cipher len data c := by
  constructor
  · intro hintact hpoisonous
    exact rxIv_ne_of_counted hpoisonous.counted (hintact.rxIv (decryptReturns_of_poisonous hpoisonous))
  · intro hnot
    refine ⟨fun hrejected => ?_, fun hrejected ms => ?_⟩
    · rw [crypt_of_not_poisonous hnot hrejected]
    · rw [crypt_of_not_poisonous hnot hrejected]

/-- 64 bytes with number 1 and no hash. -/
def forged : List Byte := (List.replicate 64 0).set 23 1

/-- They keep a receiver from taking any other message with number 1. -/
theorem not_rejectedIntact_forged : ¬ RejectedIntact xorCipher 64 forged ⟨[], 0, 0, 0, 0⟩ := by
  intro hintact
  have hrxIv := hintact.rxIv (by decide +kernel)
  exact absurd hrxIv (by decide +kernel)

/-! ### Runs -/

/-- The messages that are accepted. -/
def acceptedOf (cipher : Cipher) : List Incoming → Crypt → List Incoming
  | [], _ => []
  | m :: ms, c =>
    let rest := acceptedOf cipher ms (decryptMessage cipher m.1 m.2 c).2
    if decryptReturns cipher m.1 m.2 c = 0 then rest else m :: rest

/-- Without messages that do harm, those that are rejected might as well not have been sent. -/
theorem receive_acceptedOf {ms : List Incoming}
    (h : Run.Along (fun c (m : Incoming) => (decryptMessage cipher m.1 m.2 c).2)
      (fun c m => ¬ Poisonous cipher m.1 m.2 c) ms c) :
    (receive cipher (acceptedOf cipher ms c) c).2 = (receive cipher ms c).2 ∧
      (receive cipher (acceptedOf cipher ms c) c).1 =
        (receive cipher ms c).1.filter fun dec => (dec.map Prod.fst).getD 0 ≠ 0 := by
  induction ms generalizing c with
  | nil => exact ⟨rfl, rfl⟩
  | cons m ms ih =>
      obtain ⟨hstate, hresults⟩ := ih h.2
      dsimp only at hstate hresults
      have hreturns : ((decryptMessage cipher m.1 m.2 c).1.map Prod.fst).getD 0 = decryptReturns cipher m.1 m.2 c := rfl
      rw [acceptedOf, receive]
      dsimp only
      rw [List.filter_cons, hreturns]
      by_cases hrejected : decryptReturns cipher m.1 m.2 c = 0
      · rw [if_pos hrejected, if_neg (by simpa using hrejected)]
        rw [crypt_of_not_poisonous h.1 hrejected] at hstate hresults ⊢
        exact ⟨hstate, hresults⟩
      · rw [if_neg hrejected, if_pos (by simpa using hrejected), receive]
        exact ⟨hstate, congrArg _ hresults⟩

end Immwrt.Ead
