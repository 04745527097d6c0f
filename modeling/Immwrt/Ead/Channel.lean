import Immwrt.Ead.Crypt

/-!
# A channel that loses messages

One side encrypts messages, the network loses some of them and delivers the others in order, and the other side
decrypts them. The length of a message is an `unsigned` and an `int` in turn, so that a message of `2 ^ 31` bytes
or more is neither encrypted nor hashed as a whole. Anybody else may write to the network as well.
-/

namespace Immwrt.Ead

/-- `enclen`: the length with the header and the padding. -/
def enclen (len : Nat) : Int := toCInt (len + sizeofEncrypted + padding len)

/-- `ead_encrypt_message` for a payload of any length: `msg->len` and the encrypted part of the message. -/
def eadEncryptMessage (cipher : Cipher) (payload : List Byte) (buffer : Nat → Byte) (c : Crypt) :
    (Word × List Byte) × Crypt :=
  let iv := getTxIv c
  let len := enclen payload.length
  let rest := messageRest iv.1 payload buffer
  let plain := (hashMessage cipher rest len.toNat).flatMap wordBe ++ rest
  ((BitVec.ofInt 32 len, onBlocks (cipher.encrypt c.skey) ((len.toNat + 15) / 16) plain), iv.2)

/-- A message that is sent; what the buffer held behind the payload is used as padding. -/
structure Sent where
  payload : List Byte
  buffer : Nat → Byte
  lost : Bool

/-- The messages that are delivered, each with what `ead_decrypt_message` makes of it. -/
def transfer (cipher : Cipher) : List Sent → Crypt → Crypt → List (Sent × Option (Int × List Byte))
  | [], _, _ => []
  | m :: ms, tx, rx =>
    let enc := eadEncryptMessage cipher m.payload m.buffer tx
    if m.lost then transfer cipher ms enc.2 rx
    else
      let dec := decryptMessage cipher enc.1.1 enc.1.2 rx
      (m, dec.1) :: transfer cipher ms enc.2 dec.2

/-! ### Messages from anybody -/

/-- What `ead_decrypt_message` returns. -/
def decryptReturns (cipher : Cipher) (len : Word) (data : List Byte) (c : Crypt) : Int :=
  ((decryptMessage cipher len data c).1.map Prod.fst).getD 0

/-- A received message: `msg->len`, and what stands behind the header. -/
abbrev Incoming := Word × List Byte

/-- A side of the channel that receives messages: what it makes of each. -/
def receive (cipher : Cipher) : List Incoming → Crypt → List (Option (Int × List Byte)) × Crypt
  | [], c => ([], c)
  | m :: ms, c =>
    let dec := decryptMessage cipher m.1 m.2 c
    let rest := receive cipher ms dec.2
    (dec.1 :: rest.1, rest.2)

/-- A message that is rejected leaves the channel as it was: `ead_rx_iv` is the same, and so is what becomes of all
messages behind it. -/
structure RejectedIntact (cipher : Cipher) (len : Word) (data : List Byte) (c : Crypt) : Prop where
  rxIv : decryptReturns cipher len data c = 0 → (decryptMessage cipher len data c).2.rxIv = c.rxIv
  later : decryptReturns cipher len data c = 0 →
    ∀ ms, receive cipher ms (decryptMessage cipher len data c).2 = receive cipher ms c

end Immwrt.Ead
