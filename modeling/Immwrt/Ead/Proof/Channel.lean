import Immwrt.Ead.Channel
import Immwrt.Ead.Proof.Session

/-!
# Messages that arrive are accepted

The number of a message grows by at most 4 with every message, and a receiver accepts numbers up to 128 above the
last one. So 31 messages may be lost in a row.
-/

namespace Immwrt.Ead

variable {cipher : Cipher} {skey : List Byte}

/-! ### Lengths -/

/-- The length that is sent is a multiple of 64 and at most the length of the message. -/
theorem enclen_spec {len : Nat} (hfits : len + sizeofEncrypted + 63 < 2 ^ 32) :
    enclen len ≠ 0 ∧ (enclen len).tmod encPad = 0 ∧ (∃ n, (enclen len).toNat = 64 * n) ∧
      (enclen len).toNat ≤ len + sizeofEncrypted + padding len ∧
      (BitVec.ofInt 32 (enclen len)).toInt = enclen len := by
  obtain ⟨hpad, n, hpos, hn⟩ := padding_spec len
  have hcast : (len + sizeofEncrypted + padding len : Int) = 64 * n := by exact_mod_cast hn
  have hlen : enclen len = (64 * n : Int).bmod (2 ^ 32) := by
    rw [enclen, toCInt, BitVec.toInt_ofInt, hcast]
  have hint : (BitVec.ofInt 32 (enclen len)).toInt = enclen len := by
    rw [hlen, BitVec.toInt_ofInt, Int.bmod_bmod]
  rw [Int.bmod_def] at hlen
  unfold encPad
  refine ⟨by omega, ?_, ⟨(enclen len).toNat / 64, by omega⟩, by omega, hint⟩
  rw [Int.tmod_eq_zero_of_dvd]
  omega

/-- A message whose length is an `int` is made as a whole. -/
theorem eadEncryptMessage_eq {payload : List Byte} (hfits : payload.length + sizeofEncrypted + 63 < 2 ^ 31)
    (buffer : Nat → Byte) (c : Crypt) :
    eadEncryptMessage cipher payload buffer c =
      ((BitVec.ofNat 32 (encryptMessage cipher payload buffer c).1.length,
        (encryptMessage cipher payload buffer c).1), (encryptMessage cipher payload buffer c).2) := by
  obtain ⟨hpad, n, hpos, hn⟩ := padding_spec payload.length
  have hplain := length_plainMessage cipher (getTxIv c).1 payload buffer
  have hrest := length_messageRest (getTxIv c).1 payload buffer
  have hsealed : (encryptMessage cipher payload buffer c).1.length =
      (plainMessage cipher (getTxIv c).1 payload buffer).length := length_sealed ..
  have hlen : enclen payload.length = (plainMessage cipher (getTxIv c).1 payload buffer).length := by
    rw [hplain, enclen, toCInt, BitVec.toInt_ofInt, Int.bmod_def]
    omega
  rw [hsealed, eadEncryptMessage, encryptMessage]
  simp only [hlen, Int.toNat_natCast]
  have hblocks : ((plainMessage cipher (getTxIv c).1 payload buffer).length + 15) / 16 =
      (plainMessage cipher (getTxIv c).1 payload buffer).length / 16 := by
    omega
  have hhash : (plainMessage cipher (getTxIv c).1 payload buffer).length =
      20 + (messageRest (getTxIv c).1 payload buffer).length := by
    rw [hplain, hrest, sizeofEncrypted]
    omega
  rw [hblocks, BitVec.ofInt_natCast]
  conv_lhs => rw [hhash]
  conv_rhs => rw [hhash]
  rfl

/-! ### One message -/

theorem onBlocks_append (f : List Byte → List Byte) {n : Nat} {data : List Byte} (hdata : data.length = 16 * n)
    (tail : List Byte) : onBlocks f n (data ++ tail) = onBlocks f n data ++ tail := by
  induction n generalizing data with
  | zero => rfl
  | succ n ih =>
      rw [onBlocks, onBlocks, List.take_append_of_le_length (by omega),
        List.drop_append_of_le_length (by omega), ih (by rw [List.length_drop]; omega), List.append_assoc]

/-- Blocks that were encrypted are decrypted again, whatever follows them. -/
theorem decryptBlocks {n : Nat} {data : List Byte} (hdata : 16 * n ≤ data.length) :
    onBlocks (cipher.decrypt skey) n (onBlocks (cipher.encrypt skey) n data) = data := by
  have htake : (data.take (16 * n)).length = 16 * n := by
    rw [List.length_take]
    omega
  calc onBlocks (cipher.decrypt skey) n (onBlocks (cipher.encrypt skey) n data)
      = onBlocks (cipher.decrypt skey) n
          (onBlocks (cipher.encrypt skey) n (data.take (16 * n)) ++ data.drop (16 * n)) := by
        rw [← onBlocks_append _ htake, List.take_append_drop]
    _ = data.take (16 * n) ++ data.drop (16 * n) :=
        onBlocks_onBlocks (cipher.length_encrypt skey) (cipher.decrypt_encrypt skey) htake _
    _ = data := List.take_append_drop ..

theorem hashMatches_hashMessage (rest : List Byte) (len : Nat) :
    hashMatches cipher ((hashMessage cipher rest len).flatMap wordBe ++ rest) len = true := by
  have hwords := map_slice_wordBe (hashMessage cipher rest len) rest
  rw [length_hashMessage] at hwords
  rw [hashMatches, List.drop_left' (length_flatMap_hash _ _), beq_iff_eq]
  exact hwords

/-- A message that is in the window is accepted with its payload. -/
theorem decryptMessage_eadEncryptMessage (cipher : Cipher) {payload : List Byte} (buffer : Nat → Byte) {tx rx : Crypt}
    (hkey : rx.skey = tx.skey) (hfits : payload.length + sizeofEncrypted + 63 < 2 ^ 32)
    (hexpects : rx.Expects (getTxIv tx).1) :
    ∃ plain, decryptMessage cipher (eadEncryptMessage cipher payload buffer tx).1.1
          (eadEncryptMessage cipher payload buffer tx).1.2 rx =
        (some (toCInt payload.length, plain), { rx with rxIv := (getTxIv tx).1 }) ∧
      slice plain 25 payload.length = payload := by
  obtain ⟨hne, hmod, ⟨n, hn⟩, hle, hint⟩ := enclen_spec hfits
  obtain ⟨hpad, -⟩ := padding_spec payload.length
  have hrest := length_messageRest (getTxIv tx).1 payload buffer
  generalize hrestEq : messageRest (getTxIv tx).1 payload buffer = rest at hrest
  have hhash : ((hashMessage cipher rest (enclen payload.length).toNat).flatMap wordBe).length = 20 :=
    length_flatMap_hash rest _
  have hmatches : hashMatches cipher ((hashMessage cipher rest (enclen payload.length).toNat).flatMap wordBe ++ rest)
      (enclen payload.length).toNat = true := hashMatches_hashMessage rest _
  generalize hplainEq : (hashMessage cipher rest (enclen payload.length).toNat).flatMap wordBe ++ rest = plain
    at hmatches
  have hlength : plain.length = payload.length + sizeofEncrypted + padding payload.length := by
    rw [← hplainEq, List.length_append, hhash, hrest, sizeofEncrypted]
    omega
  have hiv : slice plain 20 4 = wordBe (getTxIv tx).1 := by
    rw [← hplainEq, slice_append_right hhash, ← hrestEq]
    rfl
  have hpadding : plain.getD 24 0 = BitVec.ofNat 8 (padding payload.length) := by
    rw [← hplainEq, List.getD_eq_getElem?_getD, List.getElem?_append_right (by rw [hhash]; omega), hhash,
      ← hrestEq]
    rfl
  have hpayload : slice plain 25 payload.length = payload := by
    rw [← hplainEq, ← hrestEq, show (25 : Nat) = 20 + 5 from rfl, slice, ← List.drop_drop,
      List.drop_left' (length_flatMap_hash _ _), messageRest]
    simp only [wordBe, List.cons_append, List.nil_append, List.drop_succ_cons, List.drop_zero]
    rw [List.take_left' rfl]
  have hblocks : onBlocks (cipher.decrypt rx.skey) (((enclen payload.length).toNat + 15) / 16)
      (onBlocks (cipher.encrypt tx.skey) (((enclen payload.length).toNat + 15) / 16) plain) = plain := by
    rw [hkey]
    exact decryptBlocks (by omega)
  have hpadNat : (BitVec.ofNat 8 (padding payload.length)).toNat = padding payload.length := by
    rw [BitVec.toNat_ofNat]
    omega
  have hret : toCInt (enclen payload.length - (padding payload.length + sizeofEncrypted)) =
      toCInt payload.length := by
    rw [enclen, toCInt, toCInt, toCInt, BitVec.toInt_ofInt, BitVec.toInt_ofInt, BitVec.toInt_ofInt,
      Int.bmod_sub_bmod, Int.add_assoc, Int.add_comm (sizeofEncrypted : Int), Int.add_sub_cancel]
  refine ⟨plain, ?_, hpayload⟩
  rw [eadEncryptMessage]
  simp only [hrestEq, hplainEq]
  unfold decryptMessage
  rw [hint, if_neg (by rw [hmod]; omega)]
  dsimp only
  rw [hblocks, hiv, hpadding, hpadNat, if_neg (by rw [encPad]; omega), ofBe_wordBe, checkRxIv_eq,
    if_pos hexpects, hmatches, hret]
  rfl

/-! ### All messages -/

/-- A number is 1 to 4 above the one before. -/
theorem getTxIv_toNat {c : Crypt} (hroom : c.txIv.toNat + 4 < 2 ^ 32) :
    c.txIv.toNat < (getTxIv c).1.toNat ∧ (getTxIv c).1.toNat ≤ c.txIv.toNat + 4 := by
  have hstep : (1 + (c.ivofsVec >>> (2 * c.ivofsIdx) &&& 0x3)).toNat =
      1 + (c.ivofsVec >>> (2 * c.ivofsIdx)).toNat % 4 := by
    rw [BitVec.toNat_add, BitVec.toNat_and, show (0x3 : Word).toNat = 2 ^ 2 - 1 from rfl,
      Nat.and_two_pow_sub_one_eq_mod]
    have := Nat.mod_lt (c.ivofsVec >>> (2 * c.ivofsIdx)).toNat (show 0 < 2 ^ 2 by decide)
    rw [show (1 : Word).toNat = 1 from rfl, Nat.mod_eq_of_lt (by omega)]
  have hlt := Nat.mod_lt (c.ivofsVec >>> (2 * c.ivofsIdx)).toNat (show 0 < 4 by decide)
  unfold getTxIv
  dsimp only
  rw [BitVec.toNat_add, hstep, Nat.mod_eq_of_lt (by omega)]
  omega

@[simp]
theorem getTxIv_txIv (c : Crypt) : (getTxIv c).2.txIv = (getTxIv c).1 := rfl

@[simp]
theorem getTxIv_skey (c : Crypt) : (getTxIv c).2.skey = c.skey := rfl

/-- Both sides of a channel on which the last `lost` messages were lost. -/
structure Synced (tx rx : Crypt) (lost : Nat) : Prop where
  skey : rx.skey = tx.skey
  behind : rx.rxIv.toNat ≤ tx.txIv.toNat
  near : tx.txIv.toNat ≤ rx.rxIv.toNat + 4 * lost

theorem Synced.lose {tx rx : Crypt} {lost : Nat} (h : Synced tx rx lost) (hroom : tx.txIv.toNat + 4 < 2 ^ 32) :
    Synced (getTxIv tx).2 rx (lost + 1) := by
  obtain ⟨hlt, hle⟩ := getTxIv_toNat hroom
  refine ⟨h.skey, ?_, ?_⟩
  · exact h.behind.trans (getTxIv_txIv tx ▸ hlt.le)
  · have := h.near
    rw [getTxIv_txIv]
    omega

theorem Synced.expects {tx rx : Crypt} {lost : Nat} (h : Synced tx rx lost) (hlost : lost ≤ 31)
    (hroom : tx.txIv.toNat + 128 < 2 ^ 32) : rx.Expects (getTxIv tx).1 := by
  obtain ⟨hlt, hle⟩ := getTxIv_toNat (c := tx) (by omega)
  have hbehind := h.behind
  have hnear := h.near
  refine ⟨?_, ?_⟩
  · rw [BitVec.le_def]
    omega
  · rw [BitVec.lt_def, BitVec.toNat_add, show maxIvIncr.toNat = 128 from rfl, Nat.mod_eq_of_lt (by omega)]
    omega

theorem Synced.deliver {tx rx : Crypt} {lost : Nat} (h : Synced tx rx lost) :
    Synced (getTxIv tx).2 { rx with rxIv := (getTxIv tx).1 } 0 :=
  ⟨h.skey, le_rfl, le_rfl⟩

/-- What `ead_decrypt_message` is to give back for a message: its length, as an `int`, and its payload. -/
def Restored (r : Sent × Option (Int × List Byte)) : Prop :=
  ∃ plain, r.2 = some (toCInt r.1.payload.length, plain) ∧ slice plain 25 r.1.payload.length = r.1.payload

/-- No more than 31 messages are lost in a row. -/
def Tolerable (sent : List Sent) : Prop :=
  ∀ run, run <:+: sent → (∀ m ∈ run, m.lost = true) → run.length ≤ 31

theorem Synced.transfer {sent : List Sent} (before : List Sent) {tx rx : Crypt}
    (h : Synced tx rx before.length) (hbefore : ∀ m ∈ before, m.lost = true)
    (hfits : ∀ m ∈ sent, m.payload.length + sizeofEncrypted + 63 < 2 ^ 32)
    (hroom : tx.txIv.toNat + 4 * sent.length + 128 < 2 ^ 32) (hloss : Tolerable (before ++ sent)) :
    (∀ r ∈ Ead.transfer cipher sent tx rx, Restored r) ∧
      (Ead.transfer cipher sent tx rx).map Prod.fst = sent.filter fun m => !m.lost := by
  induction sent generalizing before tx rx with
  | nil => exact ⟨fun r hr => absurd hr List.not_mem_nil, rfl⟩
  | cons m ms ih =>
      rw [List.length_cons] at hroom
      obtain ⟨hlt, hle⟩ := getTxIv_toNat (c := tx) (by omega)
      have hroom' : (getTxIv tx).2.txIv.toNat + 4 * ms.length + 128 < 2 ^ 32 := by
        rw [getTxIv_txIv]
        omega
      have hfits' : ∀ m' ∈ ms, m'.payload.length + sizeofEncrypted + 63 < 2 ^ 32 :=
        fun m' hm' => hfits m' (List.mem_cons_of_mem m hm')
      rw [Ead.transfer]
      by_cases hlost : m.lost = true
      · rw [if_pos hlost, List.filter_cons_of_neg (by simp [hlost])]
        refine ih (before ++ [m]) ?_ ?_ hfits' hroom' ?_
        · rw [List.length_append]
          exact h.lose (by omega)
        · intro m' hm'
          rcases List.mem_append.1 hm' with hm' | hm'
          · exact hbefore m' hm'
          · rw [List.mem_singleton.1 hm']
            exact hlost
        · rw [List.append_assoc]
          exact hloss
      · have hlast : before.length ≤ 31 :=
          hloss before (List.prefix_append before (m :: ms)).isInfix hbefore
        obtain ⟨plain, hdecrypt, hpayload⟩ := decryptMessage_eadEncryptMessage cipher m.buffer
          h.skey (hfits m List.mem_cons_self) (h.expects hlast (by omega))
        have hrest : Tolerable ([] ++ ms) := fun run hrun hall =>
          hloss run (hrun.trans ⟨before ++ [m], [], by simp⟩) hall
        obtain ⟨hall, hfst⟩ := ih [] h.deliver (by simp) hfits' hroom' hrest
        rw [if_neg hlost, List.filter_cons_of_pos (by simpa using hlost)]
        simp only [hdecrypt, List.map_cons, List.forall_mem_cons]
        exact ⟨⟨⟨plain, rfl, hpayload⟩, hall⟩, congrArg (m :: ·) hfst⟩

theorem synced_setKey (txBigEndian rxBigEndian : Bool) (skey : List Byte) (tx rx : Crypt) :
    Synced (setKey txBigEndian skey tx) (setKey rxBigEndian skey rx) 0 :=
  ⟨rfl, le_rfl, le_rfl⟩

theorem setKey_txIv_lt (bigEndian : Bool) (skey : List Byte) (c : Crypt) :
    (setKey bigEndian skey c).txIv.toNat < 2 ^ 24 := by
  have hmask : (0x00ffffff : Word).toNat = 2 ^ 24 - 1 := rfl
  rw [setKey, BitVec.toNat_and, hmask, Nat.and_two_pow_sub_one_eq_mod]
  exact Nat.mod_lt _ (by decide)

/-- Whatever is sent under a fresh key and lost on the way, with no more than 31 losses in a row, each message
that is delivered is accepted with its length and its payload. -/
theorem channel_roundTrip (cipher : Cipher) (skey : List Byte) (txBigEndian rxBigEndian : Bool) (tx rx : Crypt)
    (sent : List Sent) (hfew : sent.length < 2 ^ 28)
    (hfits : ∀ m ∈ sent, m.payload.length + sizeofEncrypted + 63 < 2 ^ 32) (hloss : Tolerable sent) :
    (∀ r ∈ transfer cipher sent (setKey txBigEndian skey tx) (setKey rxBigEndian skey rx), Restored r) ∧
      (transfer cipher sent (setKey txBigEndian skey tx) (setKey rxBigEndian skey rx)).map Prod.fst =
        sent.filter fun m => !m.lost := by
  have hstart := setKey_txIv_lt txBigEndian skey tx
  exact (synced_setKey txBigEndian rxBigEndian skey tx rx).transfer [] (by simp) hfits
    (by omega) hloss

/-- `ls`, sent twice; the first message is lost. -/
def lsTwice : List Sent := [⟨ofChars "ls", fun _ => 0, true⟩, ⟨ofChars "ls", fun _ => 0, false⟩]

theorem channel_roundTrip_lsTwice :
    (∀ r ∈ transfer xorCipher lsTwice (setKey true rootKey ⟨[], 0, 0, 0, 0⟩)
        (setKey false rootKey ⟨[], 0, 0, 0, 0⟩), Restored r) ∧
      (transfer xorCipher lsTwice (setKey true rootKey ⟨[], 0, 0, 0, 0⟩)
        (setKey false rootKey ⟨[], 0, 0, 0, 0⟩)).map Prod.fst = lsTwice.filter fun m => !m.lost := by
  refine channel_roundTrip xorCipher rootKey true false _ _ lsTwice (by decide) ?_ ?_
  · intro m hm
    simp only [lsTwice, List.mem_cons, List.not_mem_nil, or_false] at hm
    rcases hm with rfl | rfl <;> decide
  · intro run hrun _
    exact hrun.length_le.trans (by decide)

end Immwrt.Ead
