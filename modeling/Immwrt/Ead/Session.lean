import Immwrt.Ead.Daemon

/-!
# A session between client and daemon

From the moment on when both sides have set the key of a session, they exchange encrypted messages over
a network that anybody can write to: a message that was sent may be delivered to either side, as often as
one likes and in any order, with another header, and anything else may be delivered as well. The client
is `ead-client.c`, which sends one command and reads until it is told that the command is done.
-/

namespace Immwrt.Ead

/-! ### The client -/

/-- The payload that `send_command` encrypts; `strncpy` writes 1024 bytes of the command. -/
def commandPayload (command : List Byte) (buffer : Nat → Byte) : List Byte :=
  [0, 0, 10] ++ (List.range (command.length + 1)).map fun i =>
    if i < 1024 then command.getD i 0 else buffer i

/-- `send_command` -/
def sendCommand (cipher : Cipher) (command : List Byte) (buffer : Nat → Byte) (c : Crypt) :
    List Byte × Crypt :=
  encryptMessage cipher (commandPayload command buffer) buffer c

/-- What `handle_cmd_data` does with a message. -/
structure Answered where
  crypt : Crypt
  accepted : Bool
  output : List Byte
  done : Bool

/-- `handle_cmd_data` -/
def handleCmdData (cipher : Cipher) (len : Word) (data : List Byte) (c : Crypt) : Answered :=
  let r := decryptMessage cipher len data c
  match r.1 with
  | none => ⟨r.2, false, [], false⟩
  | some (ret, plain) =>
      let datalen := toCInt (ret - 1)
      if datalen < 0 then ⟨r.2, true, [], false⟩
      else ⟨r.2, true, slice plain 26 datalen.toNat, plain.getD 25 0 != 0⟩

/-! ### Both sides -/

/-- A packet that reaches a decryption: both sides drop a packet that has fewer bytes behind its header
than the header says. -/
structure Delivery where
  len : Word
  data : List Byte
  fits : len.toInt ≤ data.length

/-- The encrypted message in a packet. -/
def Delivery.body (p : Delivery) : List Byte := p.data.take p.len.toInt.toNat

inductive Phase
  | ready | waiting | finished
  deriving DecidableEq, Repr

/-- Both sides of a session, the messages that each has sent and those that each has accepted. -/
structure Link where
  server : Crypt
  client : Crypt
  phase : Phase
  fromServer : List (List Byte)
  fromClient : List (List Byte)
  atServer : List (List Byte)
  atClient : List (List Byte)
  deriving DecidableEq

inductive Action
  | command (command : List Byte) (buffer : Nat → Byte)
  | toServer (host : Host) (buffer : Nat → Byte) (p : Delivery)
  | toClient (p : Delivery)

/-- Both sides have set the key. -/
def Link.start (cfg : Config) (clientBigEndian : Bool) (skey : List Byte) (server client : Crypt) :
    Link where
  server := setKey cfg.bigEndian skey server
  client := setKey clientBigEndian skey client
  phase := .ready
  fromServer := []
  fromClient := []
  atServer := []
  atClient := []

def Link.step (cipher : Cipher) (cfg : Config) (l : Link) : Action → Link
  | .command command buffer =>
      if l.phase = .ready then
        let sent := sendCommand cipher command buffer l.client
        { l with client := sent.2, phase := .waiting, fromClient := sent.1 :: l.fromClient }
      else l
  | .toServer host buffer p =>
      let done := handleSendCmd cipher cfg host buffer p.len p.data l.server
      { l with
        server := done.crypt
        fromServer := done.stream ++ done.last.toList ++ l.fromServer
        atServer := if done.accepted then p.body :: l.atServer else l.atServer }
  | .toClient p =>
      if l.phase = .waiting then
        let answer := handleCmdData cipher p.len p.data l.client
        { l with
          client := answer.crypt
          phase := if answer.done then .finished else l.phase
          atClient := if answer.accepted then p.body :: l.atClient else l.atClient }
      else l

end Immwrt.Ead
