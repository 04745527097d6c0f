import Immwrt.Ead.Proof.Gate
import Immwrt.Ead.Session
import Immwrt.Lib.Run

/-!
# Who sent the messages that a session accepts

A message carries its number and a hash, and a side accepts it if the hash is right and the number is a
little above the last one it accepted. So no message is accepted twice. But both sides count from the same
number under the same key, and nothing in a message says which side it is from: a side accepts its own
messages as well.
-/

namespace Immwrt.Ead

variable {cipher : Cipher} {skey : List Byte}

/-! ### Encrypted messages -/

theorem onBlocks_onBlocks {f g : List Byte → List Byte} (hlen : ∀ b, (g b).length = 16)
    (hinv : ∀ b, b.length = 16 → f (g b) = b) {n : Nat} {data : List Byte}
    (hdata : data.length = 16 * n) (tail : List Byte) :
    onBlocks f n (onBlocks g n data ++ tail) = data ++ tail := by
  induction n generalizing data with
  | zero => rfl
  | succ n ih =>
      have htake : (data.take 16).length = 16 := by
        rw [List.length_take]
        omega
      rw [onBlocks, onBlocks, List.append_assoc, List.take_left' (hlen _), List.drop_left' (hlen _),
        hinv _ htake, ih (by rw [List.length_drop]; omega), ← List.append_assoc, List.take_append_drop]

theorem length_onBlocks {f : List Byte → List Byte} (hlen : ∀ b, (f b).length = 16) {n : Nat}
    {data : List Byte} (hdata : data.length = 16 * n) : (onBlocks f n data).length = data.length := by
  induction n generalizing data with
  | zero => rfl
  | succ n ih =>
      rw [onBlocks, List.length_append, hlen, ih (by rw [List.length_drop]; omega), List.length_drop]
      omega

theorem hashBlocks_append {n : Nat} {data : List Byte} (hdata : data.length = 64 * n)
    (hash : List Word) (tail : List Byte) :
    hashBlocks cipher n hash (data ++ tail) = hashBlocks cipher n hash data := by
  induction n generalizing hash data with
  | zero => rfl
  | succ n ih =>
      rw [hashBlocks, hashBlocks, List.take_append_of_le_length (by omega),
        List.drop_append_of_le_length (by omega), ih (by rw [List.length_drop]; omega)]

theorem length_hashBlocks (n : Nat) {hash : List Word} (hhash : hash.length = 5) (data : List Byte) :
    (hashBlocks cipher n hash data).length = 5 := by
  induction n generalizing hash data with
  | zero => exact hhash
  | succ n ih => exact ih (cipher.length_transform _ _) _

theorem length_hashMessage (rest : List Byte) (len : Nat) :
    (hashMessage cipher rest len).length = 5 := length_hashBlocks _ rfl _

theorem length_messageRest (iv : Word) (payload : List Byte) (buffer : Nat → Byte) :
    (messageRest iv payload buffer).length = 5 + payload.length + padding payload.length := by
  simp [messageRest]
  omega

theorem length_flatMap_wordBe (ws : List Word) : (ws.flatMap wordBe).length = 4 * ws.length := by
  induction ws with
  | nil => rfl
  | cons w ws ih =>
      rw [List.flatMap_cons, List.length_append, ih, length_wordBe, List.length_cons]
      omega

theorem padding_spec (len : Nat) :
    padding len < 64 ∧ ∃ n, 0 < n ∧ len + sizeofEncrypted + padding len = 64 * n := by
  unfold padding encPad sizeofEncrypted
  refine ⟨Nat.mod_lt _ (by omega), (len + 25 + 63) / 64, by omega, by omega⟩

variable (cipher) in
theorem length_plainMessage (iv : Word) (payload : List Byte) (buffer : Nat → Byte) :
    (plainMessage cipher iv payload buffer).length =
      payload.length + sizeofEncrypted + padding payload.length := by
  simp only [plainMessage, List.length_append, length_flatMap_wordBe, length_hashMessage,
    length_messageRest, sizeofEncrypted]
  omega

/-- The words at the start of a list of bytes. -/
theorem map_slice_wordBe (ws : List Word) (rest : List Byte) :
    (List.range ws.length).map (fun i => ofBe (slice (ws.flatMap wordBe ++ rest) (4 * i) 4)) = ws := by
  induction ws with
  | nil => rfl
  | cons w ws ih =>
      have hnext : ∀ i, slice (wordBe w ++ (ws.flatMap wordBe ++ rest)) (4 * (i + 1)) 4 =
          slice (ws.flatMap wordBe ++ rest) (4 * i) 4 := by
        intro i
        rw [slice, slice, show 4 * (i + 1) = 4 + 4 * i by omega, ← List.drop_drop,
          List.drop_left' (length_wordBe w)]
      have hfirst : slice (wordBe w ++ (ws.flatMap wordBe ++ rest)) (4 * 0) 4 = wordBe w := rfl
      rw [List.length_cons, List.range_succ_eq_map, List.map_cons, List.map_map, List.flatMap_cons,
        List.append_assoc, hfirst, ofBe_wordBe]
      exact congrArg (w :: ·) (by simpa only [Function.comp_def, Nat.succ_eq_add_one, hnext] using ih)

/-- The encrypted part of a message. -/
def sealed (cipher : Cipher) (skey : List Byte) (iv : Word) (payload : List Byte)
    (buffer : Nat → Byte) : List Byte :=
  onBlocks (cipher.encrypt skey) ((plainMessage cipher iv payload buffer).length / 16)
    (plainMessage cipher iv payload buffer)

/-- Encrypted under a key by `ead_encrypt_message`. -/
def Made (cipher : Cipher) (skey body : List Byte) : Prop :=
  ∃ iv payload buffer, body = sealed cipher skey iv payload buffer

/-- The IV that a message is decrypted to. -/
def ivOf (cipher : Cipher) (skey body : List Byte) : Word :=
  ofBe (slice (onBlocks (cipher.decrypt skey) (body.length / 16) body) 20 4)

theorem length_flatMap_hash (rest : List Byte) (len : Nat) :
    ((hashMessage cipher rest len).flatMap wordBe).length = 20 := by
  rw [length_flatMap_wordBe, length_hashMessage]

section

variable (cipher skey) (iv : Word) (payload : List Byte) (buffer : Nat → Byte) (tail : List Byte)

theorem plainMessage_iv : slice (plainMessage cipher iv payload buffer ++ tail) 20 4 = wordBe iv := by
  rw [plainMessage, List.append_assoc, slice_append_right (length_flatMap_hash _ _)]
  rfl

theorem plainMessage_pad :
    (plainMessage cipher iv payload buffer ++ tail).getD 24 0 =
      BitVec.ofNat 8 (padding payload.length) := by
  rw [plainMessage, List.append_assoc, List.getD_eq_getElem?_getD, List.getElem?_append_right,
    length_flatMap_hash]
  · rfl
  · rw [length_flatMap_hash]
    omega

theorem plainMessage_drop :
    (plainMessage cipher iv payload buffer ++ tail).drop 20 =
      messageRest iv payload buffer ++ tail := by
  rw [plainMessage, List.append_assoc, List.drop_left' (length_flatMap_hash _ _)]

theorem plainMessage_hash :
    hashMatches cipher (plainMessage cipher iv payload buffer ++ tail)
      (plainMessage cipher iv payload buffer).length = true := by
  obtain ⟨-, n, -, hn⟩ := padding_spec payload.length
  have hrest := length_messageRest iv payload buffer
  have hplain := length_plainMessage cipher iv payload buffer
  rw [hashMatches, plainMessage_drop, beq_iff_eq]
  unfold sizeofEncrypted at hn hplain
  have hsame : hashMessage cipher (messageRest iv payload buffer ++ tail)
        (plainMessage cipher iv payload buffer).length =
      hashMessage cipher (messageRest iv payload buffer)
        (20 + (messageRest iv payload buffer).length) := by
    rw [show (plainMessage cipher iv payload buffer).length =
      20 + (messageRest iv payload buffer).length by omega, hashMessage, hashMessage,
      ← List.append_assoc, hashBlocks_append]
    rw [List.length_append, List.length_replicate]
    omega
  rw [hsame, plainMessage, List.append_assoc]
  have hwords := map_slice_wordBe (hashMessage cipher (messageRest iv payload buffer)
    (20 + (messageRest iv payload buffer).length)) (messageRest iv payload buffer ++ tail)
  rw [length_hashMessage] at hwords
  exact hwords

theorem length_sealed :
    (sealed cipher skey iv payload buffer).length =
      (plainMessage cipher iv payload buffer).length := by
  obtain ⟨-, n, -, hn⟩ := padding_spec payload.length
  have hplain := length_plainMessage cipher iv payload buffer
  exact length_onBlocks (cipher.length_encrypt skey) (by omega)

theorem decrypt_sealed :
    onBlocks (cipher.decrypt skey) ((plainMessage cipher iv payload buffer).length / 16)
        (sealed cipher skey iv payload buffer ++ tail) =
      plainMessage cipher iv payload buffer ++ tail := by
  obtain ⟨-, n, -, hn⟩ := padding_spec payload.length
  have hplain := length_plainMessage cipher iv payload buffer
  exact onBlocks_onBlocks (cipher.length_encrypt skey) (cipher.decrypt_encrypt skey) (by omega) tail

theorem ivOf_sealed : ivOf cipher skey (sealed cipher skey iv payload buffer) = iv := by
  have hplain := decrypt_sealed cipher skey iv payload buffer []
  rw [List.append_nil, List.append_nil] at hplain
  have hslice := plainMessage_iv cipher iv payload buffer []
  rw [List.append_nil] at hslice
  rw [ivOf, length_sealed, hplain, hslice, ofBe_wordBe]

end

/-! ### Receiving -/

/-- `iv` is in the window of a side. -/
def Crypt.Expects (c : Crypt) (iv : Word) : Prop := ¬ iv ≤ c.rxIv ∧ ¬ c.rxIv + maxIvIncr < iv

instance (c : Crypt) (iv : Word) : Decidable (c.Expects iv) := inferInstanceAs (Decidable (_ ∧ _))

theorem checkRxIv_eq (iv : Word) (c : Crypt) :
    checkRxIv iv c = if c.Expects iv then (true, { c with rxIv := iv }) else (false, c) := by
  unfold checkRxIv Crypt.Expects
  by_cases hold : iv ≤ c.rxIv
  · simp [hold]
  · by_cases hfar : c.rxIv + maxIvIncr < iv
    · simp [hold, hfar]
    · simp [hold, hfar]

/-- What a packet is decrypted to. -/
def Delivery.plain (cipher : Cipher) (skey : List Byte) (p : Delivery) : List Byte :=
  onBlocks (cipher.decrypt skey) ((p.len.toInt.toNat + 15) / 16) p.data

/-- The packet passes the hash check under a key. -/
def Delivery.Hashed (cipher : Cipher) (skey : List Byte) (p : Delivery) : Prop :=
  hashMatches cipher (p.plain cipher skey) p.len.toInt.toNat = true

/-- The checks of `ead_decrypt_message` on a packet, in their order. -/
theorem decryptMessage_eq (p : Delivery) (c : Crypt) :
    decryptMessage cipher p.len p.data c =
      if p.len.toInt = 0 ∨ 0 < p.len.toInt.tmod encPad then (none, c)
      else if encPad ≤ ((p.plain cipher c.skey).getD 24 0).toNat then (none, c)
      else if c.Expects (ofBe (slice (p.plain cipher c.skey) 20 4)) then
        (if hashMatches cipher (p.plain cipher c.skey) p.len.toInt.toNat then
            some (toCInt (p.len.toInt - (((p.plain cipher c.skey).getD 24 0).toNat + sizeofEncrypted)),
              p.plain cipher c.skey)
          else none, { c with rxIv := ofBe (slice (p.plain cipher c.skey) 20 4) })
      else (none, c) := by
  have hplain : onBlocks (cipher.decrypt c.skey) ((p.len.toInt.toNat + 15) / 16) p.data =
    p.plain cipher c.skey := rfl
  unfold decryptMessage
  dsimp only
  rw [hplain, checkRxIv_eq]
  generalize p.plain cipher c.skey = plain
  split
  · rfl
  split
  · rfl
  split
  · rw [if_neg (by simp)]
    cases hashMatches cipher plain p.len.toInt.toNat <;> rfl
  · rw [if_pos (by simp)]

theorem decryptMessage_some {p : Delivery} {c : Crypt}
    (h : (decryptMessage cipher p.len p.data c).1.isSome = true) :
    p.Hashed cipher c.skey ∧ c.Expects (ofBe (slice (p.plain cipher c.skey) 20 4)) ∧
      (decryptMessage cipher p.len p.data c).2 =
        { c with rxIv := ofBe (slice (p.plain cipher c.skey) 20 4) } := by
  rw [decryptMessage_eq] at h ⊢
  split at h
  · cases h
  rename_i hlen
  split at h
  · cases h
  rename_i hpad
  split at h
  · rename_i hexpects
    dsimp only at h
    split at h
    · rename_i hhash
      rw [if_neg hlen, if_neg hpad, if_pos hexpects]
      exact ⟨hhash, hexpects, rfl⟩
    · cases h
  · cases h

variable (cipher) in
theorem rxIv_le_decryptMessage (p : Delivery) (c : Crypt) :
    c.rxIv ≤ (decryptMessage cipher p.len p.data c).2.rxIv := by
  rw [decryptMessage_eq]
  split
  · exact BitVec.le_refl _
  split
  · exact BitVec.le_refl _
  split
  · rename_i hexpects
    exact (BitVec.le_total _ _).resolve_right hexpects.1
  · exact BitVec.le_refl _

/-! ### Packets with a message that was sent -/

theorem Delivery.data_eq (p : Delivery) : p.body ++ p.data.drop p.len.toInt.toNat = p.data :=
  List.take_append_drop _ _

theorem Delivery.toInt_len {p : Delivery} (hpos : 0 < p.body.length) :
    p.len.toInt = p.body.length := by
  have hfits := p.fits
  rw [Delivery.body, List.length_take] at hpos ⊢
  omega

section

variable {p : Delivery} {iv : Word} {payload : List Byte} {buffer : Nat → Byte}
  (hbody : p.body = sealed cipher skey iv payload buffer)
include hbody

theorem Delivery.toInt_sealed :
    p.len.toInt = (plainMessage cipher iv payload buffer).length := by
  obtain ⟨-, n, hpos, hn⟩ := padding_spec payload.length
  have hplain := length_plainMessage cipher iv payload buffer
  have hlen := p.toInt_len (by rw [hbody, length_sealed]; omega)
  rw [hlen, hbody, length_sealed]

theorem Delivery.plain_sealed :
    p.plain cipher skey =
      plainMessage cipher iv payload buffer ++ p.data.drop p.len.toInt.toNat := by
  obtain ⟨-, n, -, hn⟩ := padding_spec payload.length
  have hplain := length_plainMessage cipher iv payload buffer
  have hlen := p.toInt_sealed hbody
  have hdata := p.data_eq
  rw [hbody] at hdata
  have hblocks : (p.len.toInt.toNat + 15) / 16 = (plainMessage cipher iv payload buffer).length / 16 := by
    omega
  rw [Delivery.plain, hblocks]
  nth_rewrite 1 [← hdata]
  exact decrypt_sealed cipher skey iv payload buffer _

end

/-- The IV of a packet with a message that was sent. -/
theorem Made.iv_eq {p : Delivery} (h : Made cipher skey p.body) :
    ofBe (slice (p.plain cipher skey) 20 4) = ivOf cipher skey p.body := by
  obtain ⟨iv, payload, buffer, hbody⟩ := h
  rw [p.plain_sealed hbody, plainMessage_iv, ofBe_wordBe, hbody, ivOf_sealed]

/-- A message that was sent is accepted if its IV is in the window. -/
theorem Made.accepted {p : Delivery} {c : Crypt} (h : Made cipher c.skey p.body)
    (hexpects : c.Expects (ivOf cipher c.skey p.body)) :
    (decryptMessage cipher p.len p.data c).1.isSome = true := by
  have hiv := h.iv_eq
  obtain ⟨iv, payload, buffer, hbody⟩ := h
  obtain ⟨hpad, n, hpos, hn⟩ := padding_spec payload.length
  have hlen := p.toInt_sealed hbody
  have hplain := length_plainMessage cipher iv payload buffer
  have hmultiple : ¬ (p.len.toInt = 0 ∨ 0 < p.len.toInt.tmod encPad) := by
    have hmod : p.len.toInt.tmod encPad = 0 := by
      rw [hlen, show (plainMessage cipher iv payload buffer).length = encPad * n by
        unfold encPad; omega, Nat.cast_mul]
      exact Int.mul_tmod_right _ _
    omega
  have hshort : ¬ encPad ≤ ((p.plain cipher c.skey).getD 24 0).toNat := by
    rw [p.plain_sealed hbody, plainMessage_pad, BitVec.toNat_ofNat]
    unfold encPad
    omega
  have hhash : hashMatches cipher (p.plain cipher c.skey) p.len.toInt.toNat = true := by
    rw [p.plain_sealed hbody, hlen]
    exact plainMessage_hash cipher iv payload buffer _
  rw [decryptMessage_eq, if_neg hmultiple, if_neg hshort, hiv, if_pos hexpects, if_pos hhash]
  rfl

/-! ### One side -/

/-- A side with a key has accepted these messages, each with an IV up to where it stands. -/
structure Side (cipher : Cipher) (skey : List Byte) (c : Crypt) (accepted : List (List Byte)) :
    Prop where
  skey_eq : c.skey = skey
  iv_le : ∀ body ∈ accepted, ivOf cipher skey body ≤ c.rxIv
  nodup : accepted.Nodup

/-- A side that decrypts a packet stays one, if only messages that were made pass the hash check. -/
theorem Side.receive {c : Crypt} {accepted : List (List Byte)} (h : Side cipher skey c accepted)
    {p : Delivery} (hmade : p.Hashed cipher skey → Made cipher skey p.body) :
    Side cipher skey (decryptMessage cipher p.len p.data c).2
      (if (decryptMessage cipher p.len p.data c).1.isSome then p.body :: accepted else accepted) := by
  have hle := rxIv_le_decryptMessage cipher p c
  have hkey := decryptMessage_skey cipher p.len p.data c
  have hold : ∀ body ∈ accepted,
      ivOf cipher skey body ≤ (decryptMessage cipher p.len p.data c).2.rxIv :=
    fun body hbody => BitVec.le_trans (h.iv_le body hbody) hle
  split
  · rename_i hsome
    obtain ⟨hhash, hexpects, hcrypt⟩ := decryptMessage_some hsome
    rw [h.skey_eq] at hhash hexpects hcrypt
    have hiv := (hmade hhash).iv_eq
    rw [hiv] at hexpects hcrypt
    refine ⟨hkey.trans h.skey_eq, fun body hbody => ?_, ?_⟩
    · rcases List.mem_cons.1 hbody with rfl | hbody
      · rw [hcrypt]
        exact BitVec.le_refl _
      · exact hold body hbody
    · refine List.nodup_cons.2 ⟨fun hmem => ?_, h.nodup⟩
      exact hexpects.1 (h.iv_le _ hmem)
  · exact ⟨hkey.trans h.skey_eq, hold, h.nodup⟩

theorem Side.transmit {c c' : Crypt} {accepted : List (List Byte)} (h : Side cipher skey c accepted)
    (hkey : c'.skey = c.skey) (hiv : c'.rxIv = c.rxIv) : Side cipher skey c' accepted :=
  ⟨hkey.trans h.skey_eq, fun body hbody => hiv ▸ h.iv_le body hbody, h.nodup⟩

variable (cipher) in
theorem made_encryptMessage (payload : List Byte) (buffer : Nat → Byte) (c : Crypt) :
    Made cipher c.skey (encryptMessage cipher payload buffer c).1 := ⟨_, _, _, rfl⟩

theorem streamOutput_rxIv (output : List (List Byte × (Nat → Byte))) (c : Crypt) :
    (streamOutput cipher output c).2.rxIv = c.rxIv := by
  induction output generalizing c with
  | nil => rfl
  | cons out output ih =>
      rw [streamOutput]
      exact ih _

variable (cipher) in
theorem made_streamOutput (output : List (List Byte × (Nat → Byte))) (c : Crypt) :
    ∀ body ∈ (streamOutput cipher output c).1, Made cipher c.skey body := by
  induction output generalizing c with
  | nil => simp [streamOutput]
  | cons out output ih =>
      intro body hbody
      rw [streamOutput] at hbody
      rcases List.mem_cons.1 hbody with rfl | hbody
      · exact made_encryptMessage cipher _ _ c
      · exact ih (encryptMessage cipher (0 :: out.1.take 1024) out.2 c).2 body hbody

section

variable (cfg : Config) (host : Host) (buffer : Nat → Byte) (len : Word) (data : List Byte) (c : Crypt)

theorem handleSendCmd_accepted :
    (handleSendCmd cipher cfg host buffer len data c).accepted =
      (decryptMessage cipher len data c).1.isSome := by
  unfold handleSendCmd sayDone
  dsimp only
  cases (decryptMessage cipher len data c).1 with
  | none => rfl
  | some r =>
      dsimp only
      repeat' split
      all_goals rfl

theorem handleSendCmd_rxIv :
    (handleSendCmd cipher cfg host buffer len data c).crypt.rxIv =
      (decryptMessage cipher len data c).2.rxIv := by
  unfold handleSendCmd sayDone
  dsimp only
  repeat' split
  all_goals first | rfl | exact streamOutput_rxIv _ _

/-- Everything that the daemon sends is made under its key. -/
theorem made_handleSendCmd :
    ∀ body ∈ (handleSendCmd cipher cfg host buffer len data c).stream ++
      (handleSendCmd cipher cfg host buffer len data c).last.toList, Made cipher c.skey body := by
  have hkey := decryptMessage_skey cipher len data c
  have hout := made_streamOutput cipher host.output (decryptMessage cipher len data c).2
  have hkey' := streamOutput_skey cipher host.output (decryptMessage cipher len data c).2
  have hlast := made_encryptMessage cipher [1] buffer
    (streamOutput cipher host.output (decryptMessage cipher len data c).2).2
  have hdone := made_encryptMessage cipher [1] buffer (decryptMessage cipher len data c).2
  rw [hkey'] at hlast
  rw [hkey] at hout hlast hdone
  unfold handleSendCmd sayDone
  dsimp only
  repeat' split
  all_goals
    intro body hbody
    simp only [List.append_nil, List.nil_append, Option.toList_none, Option.toList_some,
      List.not_mem_nil, List.mem_append, List.mem_singleton] at hbody
  · exact hout body hbody
  · rcases hbody with hbody | rfl
    · exact hout body hbody
    · exact hlast
  · rw [hbody]
    exact hdone

end

theorem handleCmdData_eq (cipher : Cipher) (len : Word) (data : List Byte) (c : Crypt) :
    (handleCmdData cipher len data c).crypt = (decryptMessage cipher len data c).2 ∧
      (handleCmdData cipher len data c).accepted = (decryptMessage cipher len data c).1.isSome := by
  unfold handleCmdData
  dsimp only
  cases (decryptMessage cipher len data c).1 with
  | none => exact ⟨rfl, rfl⟩
  | some r =>
      dsimp only
      split <;> exact ⟨rfl, rfl⟩

/-! ### Both sides -/

/-- Each side has accepted messages of the other only, and none twice. -/
structure Link.Authentic (l : Link) : Prop where
  server : ∀ body ∈ l.atServer, body ∈ l.fromClient
  server_once : l.atServer.Nodup
  client : ∀ body ∈ l.atClient, body ∈ l.fromServer
  client_once : l.atClient.Nodup

/-- Perfect encryption: a packet that passes the hash check holds a message that was sent. -/
def Link.Ideal (cipher : Cipher) (l : Link) : Action → Prop
  | .command _ _ => True
  | .toServer _ _ p => p.Hashed cipher l.server.skey → p.body ∈ l.fromClient ∨ p.body ∈ l.fromServer
  | .toClient p => p.Hashed cipher l.client.skey → p.body ∈ l.fromClient ∨ p.body ∈ l.fromServer

/-- No side is handed a message of its own whose IV is in its window. -/
def Link.NotReflected (cipher : Cipher) (l : Link) : Action → Prop
  | .command _ _ => True
  | .toServer _ _ p => p.body ∈ l.fromServer → p.body ∉ l.fromClient →
      ¬ l.server.Expects (ivOf cipher l.server.skey p.body)
  | .toClient p => l.phase = .waiting → p.body ∈ l.fromClient → p.body ∉ l.fromServer →
      ¬ l.client.Expects (ivOf cipher l.client.skey p.body)

structure Link.Inv (cipher : Cipher) (skey : List Byte) (l : Link) : Prop where
  server : Side cipher skey l.server l.atServer
  client : Side cipher skey l.client l.atClient
  fromServer : ∀ body ∈ l.fromServer, Made cipher skey body
  fromClient : ∀ body ∈ l.fromClient, Made cipher skey body

variable (cipher) in
theorem Link.inv_start (cfg : Config) (clientBigEndian : Bool) (skey : List Byte)
    (server client : Crypt) : (Link.start cfg clientBigEndian skey server client).Inv cipher skey :=
  ⟨⟨rfl, by simp [Link.start], List.nodup_nil⟩, ⟨rfl, by simp [Link.start], List.nodup_nil⟩,
    by simp [Link.start], by simp [Link.start]⟩

section

variable {cfg : Config} {l : Link}

theorem Link.Inv.sent (h : l.Inv cipher skey) {body : List Byte}
    (hsent : body ∈ l.fromClient ∨ body ∈ l.fromServer) : Made cipher skey body :=
  hsent.elim (h.fromClient body) (h.fromServer body)

theorem Link.Inv.step (h : l.Inv cipher skey) {a : Action} (hideal : l.Ideal cipher a) :
    (l.step cipher cfg a).Inv cipher skey := by
  cases a with
  | command command buffer =>
      rw [Link.step]
      split
      · refine ⟨h.server, h.client.transmit rfl rfl, h.fromServer, fun body hbody => ?_⟩
        rcases List.mem_cons.1 hbody with rfl | hbody
        · have hmade := made_encryptMessage cipher (commandPayload command buffer) buffer l.client
          rwa [h.client.skey_eq] at hmade
        · exact h.fromClient body hbody
      · exact h
  | toServer host buffer p =>
      have hmade : p.Hashed cipher skey → Made cipher skey p.body := fun hhash =>
        h.sent (hideal (h.server.skey_eq ▸ hhash))
      have hside := h.server.receive hmade
      rw [Link.step]
      refine ⟨?_, h.client, fun body hbody => ?_, h.fromClient⟩
      · dsimp only
        rw [handleSendCmd_accepted]
        refine hside.transmit ?_ (handleSendCmd_rxIv cfg host buffer p.len p.data l.server)
        rw [handleSendCmd_skey, decryptMessage_skey]
      · rcases List.mem_append.1 hbody with hbody | hbody
        · have hmade := made_handleSendCmd cfg host buffer p.len p.data l.server body hbody
          rwa [h.server.skey_eq] at hmade
        · exact h.fromServer body hbody
  | toClient p =>
      have hmade : p.Hashed cipher skey → Made cipher skey p.body := fun hhash =>
        h.sent (hideal (h.client.skey_eq ▸ hhash))
      have hside := h.client.receive hmade
      obtain ⟨hcrypt, haccepted⟩ := handleCmdData_eq cipher p.len p.data l.client
      rw [Link.step]
      split
      · dsimp only
        rw [hcrypt, haccepted]
        exact ⟨h.server, hside, h.fromServer, h.fromClient⟩
      · exact h

/-- A packet that is accepted has its IV in the window, and holds a message that was sent. -/
theorem Side.of_accepted {c : Crypt} {accepted : List (List Byte)} (h : Side cipher skey c accepted)
    {p : Delivery} (hmade : p.Hashed cipher skey → Made cipher skey p.body)
    (hsome : (decryptMessage cipher p.len p.data c).1.isSome = true) :
    p.Hashed cipher skey ∧ c.Expects (ivOf cipher skey p.body) := by
  obtain ⟨hhash, hexpects, -⟩ := decryptMessage_some hsome
  rw [h.skey_eq] at hhash hexpects
  rw [(hmade hhash).iv_eq] at hexpects
  exact ⟨hhash, hexpects⟩

/-- The packets a side accepts are from the other one if none of its own comes back. -/
theorem Side.of_peer {c : Crypt} {accepted own peer : List (List Byte)}
    (h : Side cipher skey c accepted) {p : Delivery}
    (hsent : p.Hashed cipher skey → p.body ∈ peer ∨ p.body ∈ own)
    (hmade : p.Hashed cipher skey → Made cipher skey p.body)
    (hnot : p.body ∈ own → p.body ∉ peer → ¬ c.Expects (ivOf cipher skey p.body))
    (hold : ∀ body ∈ accepted, body ∈ peer) :
    ∀ body ∈ (if (decryptMessage cipher p.len p.data c).1.isSome then p.body :: accepted
      else accepted), body ∈ peer := by
  intro body hbody
  split at hbody
  · rename_i hsome
    rcases List.mem_cons.1 hbody with rfl | hbody
    · obtain ⟨hhash, hexpects⟩ := h.of_accepted hmade hsome
      rcases hsent hhash with hpeer | hown
      · exact hpeer
      · by_contra hpeer
        exact hnot hown hpeer hexpects
    · exact hold body hbody
  · exact hold body hbody

/-- A step keeps a session authentic if no side is handed its own message. -/
theorem Link.Authentic.step (hauth : l.Authentic) (h : l.Inv cipher skey) {a : Action}
    (hideal : l.Ideal cipher a) (hnot : l.NotReflected cipher a) :
    (l.step cipher cfg a).Authentic := by
  have hnext : (l.step cipher cfg a).Inv cipher skey := h.step hideal
  refine ⟨?_, hnext.server.nodup, ?_, hnext.client.nodup⟩
  · cases a with
    | command command buffer =>
        rw [Link.step]
        split
        · exact fun body hbody => List.mem_cons_of_mem _ (hauth.server body hbody)
        · exact hauth.server
    | toServer host buffer p =>
        rw [Link.step]
        dsimp only
        rw [handleSendCmd_accepted]
        rw [Link.Ideal, h.server.skey_eq] at hideal
        rw [Link.NotReflected, h.server.skey_eq] at hnot
        exact h.server.of_peer hideal (fun hhash => h.sent (hideal hhash)) hnot hauth.server
    | toClient p =>
        rw [Link.step]
        split <;> exact hauth.server
  · cases a with
    | command command buffer =>
        rw [Link.step]
        split <;> exact hauth.client
    | toServer host buffer p =>
        exact fun body hbody => List.mem_append_right _ (hauth.client body hbody)
    | toClient p =>
        rw [Link.step]
        split
        · rename_i hwaiting
          dsimp only
          rw [(handleCmdData_eq cipher p.len p.data l.client).2]
          rw [Link.Ideal, h.client.skey_eq] at hideal
          rw [Link.NotReflected, h.client.skey_eq] at hnot
          exact h.client.of_peer (fun hhash => (hideal hhash).symm)
            (fun hhash => h.sent (hideal hhash)) (hnot hwaiting) hauth.client
        · exact hauth.client

/-- A message of its own that a side is handed in its window is accepted. -/
theorem Link.Inv.notReflected (h : l.Inv cipher skey) {a : Action}
    (hauth : (l.step cipher cfg a).Authentic) : l.NotReflected cipher a := by
  cases a with
  | command command buffer => trivial
  | toServer host buffer p =>
      intro hown hpeer hexpects
      have hmade := h.fromServer _ hown
      rw [← h.server.skey_eq] at hmade
      have hsome := hmade.accepted hexpects
      have hmem : p.body ∈ (l.step cipher cfg (.toServer host buffer p)).atServer := by
        rw [Link.step]
        dsimp only
        rw [handleSendCmd_accepted, if_pos hsome]
        exact List.mem_cons_self
      exact hpeer (hauth.server _ hmem)
  | toClient p =>
      intro hwaiting hown hpeer hexpects
      have hmade := h.fromClient _ hown
      rw [← h.client.skey_eq] at hmade
      have hsome := hmade.accepted hexpects
      have hstep := hauth.client p.body
      rw [Link.step, if_pos hwaiting] at hstep
      dsimp only at hstep
      rw [(handleCmdData_eq cipher p.len p.data l.client).2, if_pos hsome] at hstep
      exact hpeer (hstep List.mem_cons_self)

end

/-- With perfect encryption each side accepts messages of the other only, and none twice, in every state
of a session, exactly if no side is ever handed a message of its own, that the other did not send as well,
with an IV in its window. -/
theorem session_authentic_iff (cipher : Cipher) (cfg : Config) (clientBigEndian : Bool)
    (skey : List Byte) (server client : Crypt) (actions : List Action)
    (hideal : Run.Along (Link.step cipher cfg) (Link.Ideal cipher) actions
      (Link.start cfg clientBigEndian skey server client)) :
    Run.Always (Link.step cipher cfg) Link.Authentic actions
        (Link.start cfg clientBigEndian skey server client) ↔
      Run.Along (Link.step cipher cfg) (Link.NotReflected cipher) actions
        (Link.start cfg clientBigEndian skey server client) := by
  have hinit := Link.inv_start cipher cfg clientBigEndian skey server client
  have hauth : (Link.start cfg clientBigEndian skey server client).Authentic :=
    ⟨by simp [Link.start], List.nodup_nil, by simp [Link.start], List.nodup_nil⟩
  constructor
  · exact Run.along_of_always (I := Link.Inv cipher skey) (fun l a h hideal => h.step hideal)
      (fun l a h _ hauth => h.notReflected hauth) hinit hideal
  · intro hnot
    have hall := Run.always_of_inv (I := fun l : Link => l.Inv cipher skey ∧ l.Authentic)
      (fun l a h hstep => ⟨h.1.step hstep.1, h.2.step h.1 hstep.1 hstep.2⟩) ⟨hinit, hauth⟩
      (hideal.and hnot)
    exact hall.mono fun l h => h.2

/-! ### A session in which the daemon runs what a command printed -/

theorem toInt_ofNat_le (n : Nat) : (BitVec.ofNat 32 n).toInt ≤ n := by
  rw [BitVec.toInt_eq_toNat_cond, BitVec.toNat_ofNat]
  split <;> omega

/-- A packet with a message and nothing behind it. -/
def packed (body : List Byte) : Delivery where
  len := BitVec.ofNat 32 body.length
  data := body
  fits := toInt_ofNat_le body.length

/-- A session of the user who has just logged in. -/
def rootLink : Link := Link.start rootConfig false rootKey ⟨[], 0, 0, 0, 0⟩ ⟨[], 0, 0, 0, 0⟩

def lsCommand : Action := .command (ofChars "ls") fun _ => 0

def lsMessage : List Byte := (sendCommand xorCipher (ofChars "ls") (fun _ => 0) rootLink.client).1

/-- The client's command arrives, and prints two names in turn. -/
def lsArrives : Action :=
  .toServer ⟨[], true, true, true, [(ofChars "a", fun _ => 0), (ofChars "x;reboot", fun _ => 0)], false⟩
    (fun _ => 0) (packed lsMessage)

def lsOutput : List (List Byte) :=
  ((rootLink.step xorCipher rootConfig lsCommand).step xorCipher rootConfig lsArrives).fromServer

def outputArrives (i : Nat) : Action := .toClient (packed (lsOutput.getD i []))

set_option maxRecDepth 100000 in
theorem session_authentic_ls :
    Run.Always (Link.step xorCipher rootConfig) Link.Authentic
      [lsCommand, lsArrives, outputArrives 0, outputArrives 1, outputArrives 2] rootLink := by
  refine (session_authentic_iff xorCipher rootConfig false rootKey _ _ _ ?_).mpr ?_
  · refine ⟨trivial, fun _ => .inl ?_, fun _ => .inr ?_, fun _ => .inr ?_, fun _ => .inr ?_, trivial⟩
    all_goals decide +kernel
  · refine ⟨trivial, fun h => absurd h ?_, fun _ h => absurd h ?_, fun _ h => absurd h ?_,
      fun _ h => absurd h ?_, trivial⟩
    all_goals decide +kernel

/-- A message with output comes back to the daemon. -/
def outputReturns : Action :=
  .toServer ⟨[], true, true, true, [], false⟩ (fun _ => 0) (packed (lsOutput.getD 1 []))

set_option maxRecDepth 100000 in
/-- The second message with the output of the command is handed back to the daemon, which runs it. -/
theorem daemon_runs_its_output :
    Run.Along (Link.step xorCipher rootConfig) (Link.Ideal xorCipher)
        [lsCommand, lsArrives, outputReturns] rootLink ∧
      ¬ Run.Always (Link.step xorCipher rootConfig) Link.Authentic
        [lsCommand, lsArrives, outputReturns] rootLink ∧
      (handleSendCmd xorCipher rootConfig ⟨[], true, true, true, [], false⟩ (fun _ => 0)
        (packed (lsOutput.getD 1 [])).len (lsOutput.getD 1 [])
        ((rootLink.step xorCipher rootConfig lsCommand).step xorCipher rootConfig
          lsArrives).server).command = some (ofChars "reboot") := by
  refine ⟨⟨trivial, fun _ => .inl ?_, fun _ => .inr ?_, trivial⟩, fun h => ?_, ?_⟩
  · decide +kernel
  · decide +kernel
  · have hauth := h.2.2.2.server (lsOutput.getD 1 []) (by decide +kernel)
    revert hauth
    decide +kernel
  · decide +kernel

end Immwrt.Ead
