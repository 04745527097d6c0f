import Immwrt.Ead.Crypt
import Immwrt.Lib.Text

/-!
# The emergency access daemon

`ead.c`: a packet is checked, handled according to its type, and may move the protocol to another
state. The SRP library is a parameter, and so is what the system answers while a packet is handled.

A run records, besides the messages sent, what the access to the device rests on: the user names
accepted, the sessions opened for them, the keys set, the proofs verified and the commands run. A
session carries the number under which it was opened, as a pointer to it would.
-/

namespace Immwrt.Ead

/-! ### Types -/

/-- `enum ead_type` -/
inductive EadType
  | ping | pong
  | setUsername | ackUsername
  | getPrime | prime
  | sendA | sendB
  | sendAuth | doneAuth
  | sendCmd | resultCmd
  deriving DecidableEq, Repr

def EadType.toInt (t : EadType) : Int := t.ctorIdx

instance : LT EadType := ⟨fun s t => s.toInt < t.toInt⟩

instance : LE EadType := ⟨fun s t => s.toInt ≤ t.toInt⟩

instance (s t : EadType) : Decidable (s < t) := inferInstanceAs (Decidable (s.toInt < t.toInt))

instance (s t : EadType) : Decidable (s ≤ t) := inferInstanceAs (Decidable (s.toInt ≤ t.toInt))

def eadMagic : Word := 3671771902

def eadPort : HalfWord := 56026

def maxParamLen : Nat := 256

def maxSaltLen : Nat := 32

/-- `sizeof(struct ead_packet)` -/
def sizeofPacket : Nat := 62

/-- A captured packet of `len` bytes: the fields that are looked at, in host order, and what stands
behind the message header. -/
structure Packet where
  len : Nat
  etherDhost : List Byte
  etherType : HalfWord
  proto : Byte
  destport : HalfWord
  magic : Word
  msgLen : Word
  type : Word
  nid : HalfWord
  sid : HalfWord
  data : List Byte

/-- What is fixed while the daemon runs. `passwd` has the lines that `fgets` delivers of the password
file, and `size_t` has `sizeBits` bits. -/
structure Config where
  bigEndian : Bool
  sizeBits : Nat
  id : Int
  nid : HalfWord
  devName : List Byte
  passwd : List CString

/-- What the system answers while one packet is handled: random bytes, whether the session can be
allocated, whether `pipe` and `fork` succeed, what is read from the command in turn (with the contents of
the buffer behind it), and whether the command is still running when the time is up. -/
structure Host where
  random : List Byte
  malloc : Bool
  pipe : Bool
  fork : Bool
  output : List (List Byte × (Nat → Byte))
  timedOut : Bool

/-- The SRP library, with `tce->index - 1` and the verifier that `prepare_password` computes from a user
name, a password and random bytes. -/
structure Srp where
  Server : Type
  prime : Byte
  verifier : List Byte → List Byte → List Byte → List Byte
  serverOpenRaw : List Byte → List Byte → Server
  salt : Server → List Byte
  serverGenExp : Server → List Byte → List Byte × Server
  serverGetKey : Server → List Byte → Option (List Byte) × Server
  serverVerify : Server → List Byte → Bool × Server
  serverResponse : Server → List Byte

/-- The part of a response behind the header. -/
inductive Reply
  | pong (authType : HalfWord) (name : List Byte)
  | ackUsername
  | prime (index : Byte) (salt extSalt : List Byte)
  | sendB (B : List Byte)
  | doneAuth (response : List Byte)
  | resultCmd (enc : List Byte)
  deriving DecidableEq, Repr

inductive Event (Server : Type)
  | user (name : List Byte)
  | opened (session : Nat) (name : List Byte)
  | keyed (session : Nat) (skey : List Byte)
  | verified (session : Nat) (ts : Server) (proof : List Byte)
  | ran (skey command : List Byte)
  | sent (sid : HalfWord) (reply : Reply)
  | died
  deriving DecidableEq

/-- The static data of `ead.c` and `ead-crypt.c`, and the number of sessions opened. `B` points into a
session. -/
structure Daemon (lib : Srp) where
  state : EadType
  username : List Byte
  pwSaltbuf : List Byte
  ts : Option (Nat × lib.Server)
  A : List Byte
  B : Option (Nat × List Byte)
  crypt : Crypt
  opens : Nat

variable {lib : Srp} (cipher : Cipher) (cfg : Config)

def Daemon.init : Daemon lib where
  state := .setUsername
  username := []
  pwSaltbuf := List.replicate maxSaltLen 0
  ts := none
  A := []
  B := none
  crypt := ⟨[], 0, 0, 0, 0⟩
  opens := 0

/-- The daemon after a crash: it is started again. -/
def Daemon.restart (d : Daemon lib) : Daemon lib := { Daemon.init with opens := d.opens }

/-! ### Passwords -/

def strchr (s : List Byte) (c : Byte) : Option Nat := s.findIdx? (· == c)

/-- The loop of `prepare_password` over the password file: the password found, and `pw_saltbuf`, which
lines that are given up later have written as well. -/
def findPassword (username : List Byte) : List CString → List Byte → Option (List Byte) × List Byte
  | [], saltbuf => (none, saltbuf)
  | line :: lines, saltbuf =>
      let str := line.bytes.drop (username.length + 1)
      if line.bytes.take username.length ≠ username then findPassword username lines saltbuf
      else if line.bytes.getD username.length 0 ≠ 0x3a then findPassword username lines saltbuf
      else if str.take 3 ≠ ofChars "$1$" then findPassword username lines saltbuf
      else
        match strchr (str.drop 3) 0x24 with
        | none => findPassword username lines saltbuf
        | some i =>
            let saltLen := 3 + i
            if maxSaltLen ≤ saltLen then findPassword username lines saltbuf
            else
              let saltbuf := splice saltbuf 0 (str.take saltLen ++ [0])
              match strchr (str.drop saltLen) 0x3a with
              | none => findPassword username lines saltbuf
              | some j =>
                  if maxParamLen ≤ saltLen + j then findPassword username lines saltbuf
                  else (some (str.take (saltLen + j)), saltbuf)

/-- `prepare_password`: the verifier -/
def preparePassword (host : Host) (d : Daemon lib) : Option (List Byte) × Daemon lib :=
  let found := findPassword d.username cfg.passwd d.pwSaltbuf
  (found.1.map fun password => lib.verifier d.username password host.random,
    { d with pwSaltbuf := found.2 })

/-! ### States -/

/-- `set_state` -/
def setState (host : Host) (nstate : EadType) (d : Daemon lib) : Daemon lib × List (Event lib.Server) :=
  if d.state = nstate then (d, [])
  else if nstate < d.state then
    if nstate < .getPrime ∧ .getPrime ≤ d.state then ({ d with ts := none, state := nstate }, [])
    else ({ d with state := nstate }, [])
  else
    match d.state with
    | .setUsername =>
        let prepared := preparePassword cfg host d
        match prepared.1 with
        | none => (prepared.2, [])
        | some verifier =>
            if !host.malloc then ({ prepared.2 with ts := none }, [])
            else
              ({ prepared.2 with
                  ts := some (d.opens, lib.serverOpenRaw d.username verifier)
                  opens := d.opens + 1
                  state := nstate },
                [.opened d.opens d.username])
    | .getPrime =>
        match d.ts with
        | none => (d.restart, [.died])
        | some (n, ts) =>
            let exp := lib.serverGenExp ts host.random
            ({ d with ts := some (n, exp.2), B := some (n, exp.1), state := nstate }, [])
    | .sendA =>
        match d.ts with
        | none => (d.restart, [.died])
        | some (n, ts) =>
            let key := lib.serverGetKey ts d.A
            match key.1 with
            | none => ({ d with ts := some (n, key.2) }, [])
            | some skey =>
                ({ d with
                    ts := some (n, key.2)
                    crypt := setKey cfg.bigEndian skey d.crypt
                    state := nstate },
                  [.keyed n skey])
    | _ => ({ d with state := nstate }, [])

/-! ### Handlers -/

/-- What a handler does: the daemon and the events, the response if it returns `true`, and `*nstate`. -/
structure Handled (lib : Srp) where
  daemon : Daemon lib
  events : List (Event lib.Server)
  reply : Option Reply
  nstate : EadType

def handlePing (d : Daemon lib) : Handled lib where
  daemon := d
  events := []
  reply := some (.pong 1 (cfg.devName.take 1024))
  nstate := d.state

def handleSetUsername (host : Host) (pkt : Packet) (d : Daemon lib) : Handled lib :=
  let cleared := setState cfg host .setUsername d
  let name := (CString.ofBytes (pkt.data.take 31)).bytes
  { daemon := { cleared.1 with username := name }
    events := cleared.2 ++ [.user name]
    reply := some .ackUsername
    nstate := .getPrime }

/-- No result: a pointer that is `NULL` is followed. -/
def handleGetPrime (d : Daemon lib) : Option (Handled lib) :=
  d.ts.map fun ts =>
    { daemon := d
      events := []
      reply := some (.prime lib.prime (lib.salt ts.2) d.pwSaltbuf)
      nstate := .sendA }

/-- No result: `memcpy` of a negative length, or a pointer that is `NULL`. -/
def handleSendA (pkt : Packet) (d : Daemon lib) : Option (Handled lib) :=
  let len := toCInt (pkt.msgLen.toNat - 1)
  if maxParamLen + 1 < len then some ⟨d, [], none, d.state⟩
  else if len < 0 then none
  else d.B.map fun B =>
    { daemon := { d with A := (pkt.data.drop 1).take len.toNat }
      events := []
      reply := some (.sendB B.2)
      nstate := .sendAuth }

def handleSendAuth (pkt : Packet) (d : Daemon lib) : Option (Handled lib) :=
  d.ts.map fun ts =>
    let proof := pkt.data.take 20
    let verify := lib.serverVerify ts.2 proof
    let d := { d with ts := some (ts.1, verify.2) }
    if verify.1 then
      { daemon := d
        events := [.verified ts.1 ts.2 proof]
        reply := some (.doneAuth (lib.serverResponse verify.2))
        nstate := .sendCmd }
    else ⟨d, [], none, .setUsername⟩

/-- What `handle_send_cmd` does with a message: the command that it runs, the messages that it sends
while the command runs, and the one it ends with. -/
structure Commanded where
  crypt : Crypt
  accepted : Bool
  command : Option (List Byte)
  stream : List (List Byte)
  last : Option (List Byte)

/-- `ntohs` of a byte -/
def ntohsByte (b : Byte) : Nat := if cfg.bigEndian then b.toNat else b.toNat * 256

/-- The messages with what the command prints, and `done` not set. -/
def streamOutput : List (List Byte × (Nat → Byte)) → Crypt → List (List Byte) × Crypt
  | [], c => ([], c)
  | (bytes, buffer) :: output, c =>
      let enc := encryptMessage cipher (0 :: bytes.take 1024) buffer c
      let rest := streamOutput output enc.2
      (enc.1 :: rest.1, rest.2)

/-- The message that `handle_send_cmd` ends with. -/
def sayDone (buffer : Nat → Byte) (done : Commanded) : Commanded :=
  let enc := encryptMessage cipher [1] buffer done.crypt
  { done with crypt := enc.2, last := some enc.1 }

/-- `handle_send_cmd` -/
def handleSendCmd (host : Host) (buffer : Nat → Byte) (len : Word) (data : List Byte) (c : Crypt) :
    Commanded :=
  let r := decryptMessage cipher len data c
  match r.1 with
  | none => ⟨r.2, false, none, [], none⟩
  | some (ret, plain) =>
      let refused : Commanded := ⟨r.2, true, none, [], none⟩
      let datalen := toCInt (ret - 3)
      if datalen ≤ 0 then refused
      else
        let command := (CString.ofBytes (slice plain 28 datalen.toNat)).bytes
        let type := ntohsByte cfg (plain.getD 25 0)
        if type = 0 then
          if !host.pipe || !host.fork then refused
          else
            let out := streamOutput cipher host.output r.2
            let ran : Commanded := ⟨out.2, true, some command, out.1, none⟩
            if host.timedOut then ran else sayDone cipher buffer ran
        else if type = 1 then
          if !host.fork then refused
          else sayDone cipher buffer ⟨r.2, true, some command, [], none⟩
        else refused

def commandHandled (host : Host) (buffer : Nat → Byte) (pkt : Packet) (d : Daemon lib) : Handled lib :=
  let done := handleSendCmd cipher cfg host buffer pkt.msgLen pkt.data d.crypt
  { daemon := { d with crypt := done.crypt }
    events := (done.command.map fun command => .ran d.crypt.skey command).toList ++
      done.stream.map fun enc => .sent pkt.sid (.resultCmd enc)
    reply := done.last.map .resultCmd
    nstate := d.state }

/-! ### Packets -/

/-- The handler of a type and the bytes its message has at least. -/
def dispatch (host : Host) (buffer : Nat → Byte) (pkt : Packet) (d : Daemon lib) :
    Option (Nat × Option (Handled lib)) :=
  match pkt.type.toInt with
  | 0 => some (0, some (handlePing cfg d))
  | 2 => some (32, some (handleSetUsername cfg host pkt d))
  | 4 => some (0, handleGetPrime d)
  | 6 => some (1, handleSendA pkt d)
  | 8 => some (20, handleSendAuth pkt d)
  | 10 => some (3 + sizeofEncrypted, some (commandHandled cipher cfg host buffer pkt d))
  | _ => none

/-- The rest of `parse_message` after its handler. -/
def finish (host : Host) (pkt : Packet) (d : Daemon lib) :
    Option (Handled lib) → Daemon lib × List (Event lib.Server)
  | none => (d.restart, [.died])
  | some r =>
      let moved := setState cfg host r.nstate r.daemon
      (moved.1, r.events ++ (r.reply.map fun reply => .sent pkt.sid reply).toList ++ moved.2)

/-- `parse_message` -/
def parseMessage (host : Host) (buffer : Nat → Byte) (pkt : Packet) (d : Daemon lib) :
    Daemon lib × List (Event lib.Server) :=
  let type := pkt.type.toInt
  if EadType.getPrime.toInt ≤ type ∧ d.state.toInt ≠ type then (d, [])
  else if type ≠ EadType.ping.toInt ∧ ((pkt.sid &&& 0xf000) >>> 12).toNat ≠ cfg.id then (d, [])
  else
    match dispatch cipher cfg host buffer pkt d with
    | none => (d, [])
    | some (minLen, handled) =>
        if pkt.len < sizeofPacket + minLen then (d, []) else finish cfg host pkt d handled

/-- `handle_packet` -/
def handlePacket (host : Host) (buffer : Nat → Byte) (pkt : Packet) (d : Daemon lib) :
    Daemon lib × List (Event lib.Server) :=
  if pkt.len < sizeofPacket then (d, [])
  else if pkt.etherType ≠ 0x0800 then (d, [])
  else if pkt.etherDhost ≠ List.replicate 6 0xff then (d, [])
  else if pkt.proto ≠ 17 then (d, [])
  else if pkt.destport ≠ eadPort then (d, [])
  else if pkt.magic ≠ eadMagic then (d, [])
  else if pkt.len < (sizeofPacket + pkt.msgLen.toNat) % 2 ^ cfg.sizeBits then (d, [])
  else if pkt.nid ≠ 0xffff ∧ pkt.nid ≠ cfg.nid then (d, [])
  else parseMessage cipher cfg host buffer pkt d

/-- A packet with what the system does while it is handled. -/
structure Received where
  pkt : Packet
  host : Host
  buffer : Nat → Byte

/-- `ead_pktloop` over the packets received -/
def pktloop : List Received → Daemon lib → Daemon lib × List (Event lib.Server)
  | [], d => (d, [])
  | r :: rs, d =>
      let handled := handlePacket cipher cfg r.host r.buffer r.pkt d
      let rest := pktloop rs handled.1
      (rest.1, handled.2 ++ rest.2)

end Immwrt.Ead
