import Immwrt.Lib.Endian

/-!
# Encrypted messages of the emergency access daemon

`ead-crypt.c`, which daemon and client share. The block cipher and the compression function of the hash
are parameters.
-/

namespace Immwrt.Ead

/-- `rijndaelEncrypt` and `rijndaelDecrypt` on a block of 16 bytes, with the contexts set up from a
session key, and `sha_transform`. -/
structure Cipher where
  encrypt : List Byte → List Byte → List Byte
  decrypt : List Byte → List Byte → List Byte
  transform : List Word → List Byte → List Word
  length_encrypt : ∀ skey block, (encrypt skey block).length = 16
  decrypt_encrypt : ∀ skey block, block.length = 16 → decrypt skey (encrypt skey block) = block
  length_transform : ∀ digest block, (transform digest block).length = 5

def maxIvIncr : Word := 128

def encPad : Nat := 64

/-- `sizeof(struct ead_msg_encrypted)`: the hash, the IV and the length of the padding. -/
def sizeofEncrypted : Nat := 25

/-- An `int` that was computed modulo `2 ^ 32`. -/
def toCInt (n : Int) : Int := (BitVec.ofInt 32 n).toInt

/-! ### Keys and initialization vectors -/

/-- The static data of `ead-crypt.c`. -/
structure Crypt where
  skey : List Byte
  rxIv : Word
  txIv : Word
  ivofsVec : Word
  ivofsIdx : Nat
  deriving DecidableEq, Repr

/-- `ead_set_key`: `ivofs_idx` goes on from where it was. -/
def setKey (bigEndian : Bool) (skey : List Byte) (c : Crypt) : Crypt :=
  let iv := ofBe (slice skey 32 4) &&& 0x00ffffff
  let vec := slice skey 36 4
  { c with skey, rxIv := iv, txIv := iv, ivofsVec := if bigEndian then ofBe vec else ofLe vec }

/-- `ead_check_rx_iv` -/
def checkRxIv (iv : Word) (c : Crypt) : Bool × Crypt :=
  if iv ≤ c.rxIv then (false, c)
  else if c.rxIv + maxIvIncr < iv then (false, c)
  else (true, { c with rxIv := iv })

/-- `ead_get_tx_iv` -/
def getTxIv (c : Crypt) : Word × Crypt :=
  let ofs := 1 + (c.ivofsVec >>> (2 * c.ivofsIdx) &&& 0x3)
  (c.txIv + ofs, { c with txIv := c.txIv + ofs, ivofsIdx := (c.ivofsIdx + 1) % 16 })

/-! ### Messages -/

/-- `f` on each of the first `n` blocks of 16 bytes. -/
def onBlocks (f : List Byte → List Byte) : Nat → List Byte → List Byte
  | 0, data => data
  | n + 1, data => f (data.take 16) ++ onBlocks f n (data.drop 16)

def shaInit : List Word := [0x67452301, 0xefcdab89, 0x98badcfe, 0x10325476, 0xc3d2e1f0]

def hashBlocks (cipher : Cipher) : Nat → List Word → List Byte → List Word
  | 0, hash, _ => hash
  | n + 1, hash, data => hashBlocks cipher n (cipher.transform hash (data.take 64)) (data.drop 64)

/-- `ead_hash_message` on what stands behind the hash of a message. -/
def hashMessage (cipher : Cipher) (rest : List Byte) (len : Nat) : List Word :=
  hashBlocks cipher ((len + 63) / 64) shaInit (List.replicate 20 0 ++ rest)

/-- The bytes of padding that `ead_encrypt_message` adds to a payload. -/
def padding (len : Nat) : Nat := (encPad - (len + sizeofEncrypted) % encPad) % encPad

/-- A message behind its hash: the IV, the length of the padding, the payload, and what the buffer held
behind it. -/
def messageRest (iv : Word) (payload : List Byte) (buffer : Nat → Byte) : List Byte :=
  wordBe iv ++ BitVec.ofNat 8 (padding payload.length) :: payload ++
    (List.range (padding payload.length)).map buffer

/-- A message before it is encrypted. -/
def plainMessage (cipher : Cipher) (iv : Word) (payload : List Byte) (buffer : Nat → Byte) :
    List Byte :=
  let rest := messageRest iv payload buffer
  (hashMessage cipher rest (20 + rest.length)).flatMap wordBe ++ rest

/-- `ead_encrypt_message`: the encrypted part of the message, whose length is `msg->len`. -/
def encryptMessage (cipher : Cipher) (payload : List Byte) (buffer : Nat → Byte) (c : Crypt) :
    List Byte × Crypt :=
  let iv := getTxIv c
  let plain := plainMessage cipher iv.1 payload buffer
  (onBlocks (cipher.encrypt c.skey) (plain.length / 16) plain, iv.2)

/-- The hash that a decrypted message holds is the one of its first `len` bytes. -/
def hashMatches (cipher : Cipher) (plain : List Byte) (len : Nat) : Bool :=
  (List.range 5).map (fun i => ofBe (slice plain (4 * i) 4)) ==
    hashMessage cipher (plain.drop 20) len

/-- `ead_decrypt_message` on the encrypted part of a message with `msg->len = len`: if all checks pass,
the value returned and the decrypted message, and 0 is returned otherwise. -/
def decryptMessage (cipher : Cipher) (len : Word) (data : List Byte) (c : Crypt) :
    Option (Int × List Byte) × Crypt :=
  if len.toInt = 0 ∨ 0 < len.toInt.tmod encPad then (none, c)
  else
    let enclen := len.toInt.toNat
    let plain := onBlocks (cipher.decrypt c.skey) ((enclen + 15) / 16) data
    let pad := plain.getD 24 0
    if encPad ≤ pad.toNat then (none, c)
    else
      let checked := checkRxIv (ofBe (slice plain 20 4)) c
      if !checked.1 then (none, checked.2)
      else if !hashMatches cipher plain enclen then (none, checked.2)
      else (some (toCInt (len.toInt - (pad.toNat + sizeofEncrypted)), plain), checked.2)

end Immwrt.Ead
