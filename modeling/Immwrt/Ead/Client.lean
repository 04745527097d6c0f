import Immwrt.Ead.Access
import Immwrt.Ead.Channel

/-!
# What the client accesses

`ead-client.c` reads an answer into `msgbuf` and handles it there. Behind the bytes that were received stands what the
buffer held before.
-/

namespace Immwrt.Ead

/-- `sizeof(struct ead_msg)` -/
def sizeofMsg : Nat := 20

def sizeofMsgbuf : Nat := 1500

/-- `EAD_AUTH_MD5` -/
def eadAuthMd5 : HalfWord := 1

/-- `msgbuf` behind a `read`, and how many bytes were received. -/
structure Datagram where
  mem : Nat → Byte
  len : Nat
  len_le : len ≤ sizeofMsgbuf

def Datagram.half (m : Datagram) (off : Nat) : HalfWord := ofBe16 (bytesAt m.mem off 2)

def Datagram.word (m : Datagram) (off : Nat) : Word := ofBe (bytesAt m.mem off 4)

/-- `ntohl(msg->len)` -/
def Datagram.msgLen (m : Datagram) : Word := m.word 4

/-- The buffers of the client. -/
def Datagram.size (m : Datagram) : Region → Nat
  | .received => m.len
  | .msgbuf => sizeofMsgbuf
  | .bbuf => maxParamLen
  | .saltbuf => maxSaltLen
  | .pwSalt => maxSaltLen
  | _ => 0

def receivedAt (off : Nat) (len : Int) : Access := ⟨.received, off, len⟩

/-- The static data of the client that an answer is handled with; `size_t` has `sizeBits` bits. -/
structure Client where
  nid : HalfWord
  authType : HalfWord
  crypt : Crypt
  sizeBits : Nat
  sizeBits_ge : 32 ≤ sizeBits

/-! ### Handlers -/

section Handlers

variable (cipher : Cipher) (c : Client) (m : Datagram)

/-- `handle_pong`. The name is printed up to its zero, which may be the one that was written. -/
def pongAccesses : List Access :=
  let len := toCInt (m.msgLen.toNat - 2)
  if len ≤ 0 then []
  else
    [⟨.msgbuf, 22 + len.toNat, 1⟩, receivedAt 20 2] ++
      (if c.nid = 0xffff then
        [receivedAt 12 2, receivedAt 22 (CString.ofBytes (bytesAt m.mem 22 len.toNat)).bytes.length]
      else []) ++ [receivedAt 14 2]

/-- `handle_prime`; `salt.len` is the byte behind the number of the prime. -/
def primeAccesses : List Access :=
  let len := (m.mem 21).toNat
  [receivedAt 21 1, receivedAt 22 len, ⟨.saltbuf, 0, len⟩] ++
    (if c.authType = eadAuthMd5 then
      [receivedAt 54 maxSaltLen, ⟨.pwSalt, 0, maxSaltLen⟩, ⟨.pwSalt, 31, 1⟩]
    else []) ++ [receivedAt 20 1]

/-- `handle_b` -/
def numberAccesses : List Access :=
  let len := toCInt (m.msgLen.toNat - 1)
  [receivedAt 4 4, receivedAt 21 len, ⟨.bbuf, 0, len⟩]

/-- `handle_done_auth` -/
def doneAuthAccesses : List Access := [receivedAt 20 20]

/-- The encrypted part of a message, as far as it is decrypted. -/
def Datagram.enc (m : Datagram) : List Byte := bytesAt m.mem sizeofMsg (max sizeofEncrypted m.msgLen.toNat)

/-- `handle_cmd_data` behind the decryption, which returns 0 if it fails. -/
def dataAccesses (ret : Int) : List Access :=
  let datalen := toCInt (ret - 1)
  if datalen < 0 then []
  else (if 0 < datalen then [receivedAt 46 datalen] else []) ++ [receivedAt 45 1]

/-- `handle_cmd_data` -/
def cmdDataAccesses : List Access :=
  receivedAt 4 4 :: decryptAccesses cipher .received sizeofMsg m.msgLen m.enc c.crypt ++
    dataAccesses (decryptReturns cipher m.msgLen m.enc c.crypt)

/-- What the client waits for: the types of the answers, each with its handler. -/
inductive Awaited
  | pong | ackUsername | prime | sendB | doneAuth | resultCmd

def Awaited.type : Awaited → EadType
  | .pong => .pong
  | .ackUsername => .ackUsername
  | .prime => .prime
  | .sendB => .sendB
  | .doneAuth => .doneAuth
  | .resultCmd => .resultCmd

def answerAccesses : Awaited → List Access
  | .pong => pongAccesses c m
  | .ackUsername => []
  | .prime => primeAccesses c m
  | .sendB => numberAccesses m
  | .doneAuth => doneAuthAccesses
  | .resultCmd => cmdDataAccesses cipher c m

/-! ### Answers -/

/-- The fields that `send_packet` looks at before the handler is called. -/
def answerChecks (awaited : Awaited) : List Check :=
  [⟨4, 4, decide ((sizeofMsg + m.msgLen.toNat) % 2 ^ c.sizeBits ≤ m.len)⟩, ⟨0, 4, m.word 0 == eadMagic⟩] ++
    (if c.nid = 0xffff then [] else [⟨12, 2, m.half 12 == c.nid⟩]) ++
      [⟨8, 4, decide ((m.word 8).toInt = awaited.type.toInt)⟩]

/-- What `send_packet` does with an answer. -/
def sendPacketAccesses (awaited : Awaited) : List Access :=
  if m.len < sizeofMsg then []
  else
    let checks := answerChecks c m awaited
    (looked checks).map (fun check => receivedAt check.off check.size) ++
      if checks.all Check.passes then answerAccesses cipher c m awaited else []

/-! ### What is to be received -/

/-- What a handler needs: room for the zero behind a name, a salt that fits and was received, a number that is there and
fits, a proof that was received, and the header of an encrypted message whose length is negative. -/
def AnswerFits : Awaited → Prop
  | .pong => 0 < toCInt (m.msgLen.toNat - 2) → 22 + toCInt (m.msgLen.toNat - 2) < sizeofMsgbuf
  | .ackUsername => True
  | .prime => (m.mem 21).toNat ≤ maxSaltLen ∧ 22 + (m.mem 21).toNat ≤ m.len ∧ (c.authType = eadAuthMd5 → 86 ≤ m.len)
  | .sendB => 0 ≤ toCInt (m.msgLen.toNat - 1) ∧ toCInt (m.msgLen.toNat - 1) ≤ maxParamLen
  | .doneAuth => sizeofMsg + 20 ≤ m.len
  | .resultCmd => m.msgLen.toInt < 0 → sizeofMsg + sizeofEncrypted ≤ m.len

/-- An answer that is handled has what its handler needs. -/
def ClientFits (awaited : Awaited) : Prop :=
  sizeofMsg ≤ m.len → (answerChecks c m awaited).all Check.passes = true → AnswerFits c m awaited

end Handlers

end Immwrt.Ead
