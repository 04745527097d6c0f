import Immwrt.Ead.Daemon
import Immwrt.Lib.Run

/-!
# What the daemon accesses

The accesses that the handling of a packet makes to the packet and to the static buffers of `ead.c`, in their order. A
packet is a place in memory of which some bytes were captured; what stands behind them is read as well.
-/

namespace Immwrt.Ead

/-- The buffers of daemon and client. -/
inductive Region
  | packet | abuf | pktbuf | username | null
  | received | msgbuf | bbuf | saltbuf | pwSalt
  deriving DecidableEq

/-- A read, a write or a copy of some bytes. -/
structure Access where
  region : Region
  off : Nat
  len : Int
  deriving DecidableEq

/-- The length is not negative, and the bytes are in the buffer. -/
def Access.Ok (size : Region → Nat) (access : Access) : Prop :=
  0 ≤ access.len ∧ access.off + access.len ≤ size access.region

def InBounds (size : Region → Nat) (accesses : List Access) : Prop := ∀ access ∈ accesses, access.Ok size

/-! ### Frames -/

/-- What `handle_packet` gets: the memory at the packet, `h->len`, and how many bytes were captured. -/
structure Frame where
  mem : Nat → Byte
  len : Word
  caplen : Nat

def Frame.half (f : Frame) (off : Nat) : HalfWord := ofBe16 (bytesAt f.mem off 2)

def Frame.word (f : Frame) (off : Nat) : Word := ofBe (bytesAt f.mem off 4)

/-- The packet in a frame, with as much data as is looked at. -/
def Frame.packet (f : Frame) : Packet where
  len := f.len.toNat
  etherDhost := bytesAt f.mem 0 6
  etherType := f.half 12
  proto := f.mem 23
  destport := f.half 36
  magic := f.word 42
  msgLen := f.word 46
  type := f.word 50
  nid := f.half 54
  sid := f.half 56
  data := bytesAt f.mem sizeofPacket (max (maxParamLen + 2) (f.word 46).toNat)

def pcapMru : Nat := 1600

/-- The buffers of the daemon. -/
def Frame.size (f : Frame) : Region → Nat
  | .packet => f.caplen
  | .abuf => maxParamLen + 1
  | .pktbuf => pcapMru
  | .username => 32
  | _ => 0

/-! ### Responses -/

def packetAt (off : Nat) (len : Int) : Access := ⟨.packet, off, len⟩

def pktbufAt (off : Nat) (len : Int) : Access := ⟨.pktbuf, off, len⟩

/-- `ead_send_packet_clone` for a message of `len` bytes. -/
def sendPacketClone (len : Nat) : List Access :=
  [packetAt 0 42, pktbufAt 0 42, pktbufAt 6 6, packetAt 6 6, pktbufAt 0 6, pktbufAt 46 4, pktbufAt 16 2,
    packetAt 58 4, pktbufAt 26 4, packetAt 26 4, pktbufAt 30 4, pktbufAt 24 2, pktbufAt 14 20,
    packetAt 36 2, pktbufAt 34 2, packetAt 34 2, pktbufAt 36 2, pktbufAt 38 4, pktbufAt 26 8,
    pktbufAt 34 (28 + len), pktbufAt 0 (62 + len)]

/-- `ead_encrypt_message` of a payload. -/
def encryptedLen (len : Nat) : Nat := len + sizeofEncrypted + padding len

def encryptAccesses (len : Nat) : List Access := [pktbufAt 46 4, pktbufAt sizeofPacket (encryptedLen len)]

/-! ### Handlers -/

section Handlers

variable {lib : Srp} (cipher : Cipher) (cfg : Config) (host : Host) (f : Frame) (d : Daemon lib)

/-- `handle_ping` -/
def pingAccesses : List Access :=
  let slen := min cfg.devName.length 1024
  [pktbufAt 46 4, pktbufAt 64 slen, pktbufAt (64 + slen) 1, pktbufAt 62 2] ++ sendPacketClone (2 + slen)

/-- How many bytes `strncpy` reads: up to the first zero. -/
def strncpyReads (mem : Nat → Byte) : Nat → Nat → Nat
  | _, 0 => 0
  | off, n + 1 => if mem off = 0 then 1 else 1 + strncpyReads mem (off + 1) n

/-- `handle_set_username` -/
def setUsernameAccesses : List Access :=
  [packetAt 62 (strncpyReads f.mem 62 32), ⟨.username, 0, 32⟩, ⟨.username, 31, 1⟩, pktbufAt 46 4] ++ sendPacketClone 0

/-- `handle_get_prime` -/
def getPrimeAccesses : List Access :=
  match d.ts with
  | none => [⟨.null, 0, 1⟩]
  | some ts =>
    [pktbufAt 46 4, pktbufAt 62 1, pktbufAt 63 1, pktbufAt 64 (lib.salt ts.2).length, pktbufAt 96 maxSaltLen] ++
      sendPacketClone 66

/-- `handle_send_a` -/
def sendAAccesses : List Access :=
  let len := toCInt (f.packet.msgLen.toNat - 1)
  packetAt 46 4 ::
    if maxParamLen + 1 < len then []
    else
      [packetAt 63 len, ⟨.abuf, 0, len⟩] ++
        match d.B with
        | none => [⟨.null, 0, 1⟩]
        | some B => [pktbufAt 46 4, pktbufAt 63 B.2.length] ++ sendPacketClone (1 + B.2.length)

/-- `handle_send_auth` -/
def sendAuthAccesses : List Access :=
  match d.ts with
  | none => [⟨.null, 0, 1⟩]
  | some ts =>
    packetAt 62 20 ::
      if (lib.serverVerify ts.2 (f.packet.data.take 20)).1 then
        [pktbufAt 46 4, pktbufAt 62 20] ++ sendPacketClone 20
      else []

/-- `ead_decrypt_message` behind the length, on what stands at an offset of a buffer. -/
def decryptAccesses (region : Region) (off : Nat) (len : Word) (data : List Byte) (c : Crypt) : List Access :=
  if len.toInt = 0 ∨ 0 < len.toInt.tmod encPad then []
  else
    let enclen := len.toInt.toNat
    let plain := onBlocks (cipher.decrypt c.skey) ((enclen + 15) / 16) data
    ((List.range ((enclen + 15) / 16)).map fun i => ⟨region, off + 16 * i, 16⟩) ++ ⟨region, off + 24, 1⟩ ::
      if encPad ≤ (plain.getD 24 0).toNat then []
      else ⟨region, off + 20, 4⟩ ::
        if !(checkRxIv (ofBe (slice plain 20 4)) c).1 then []
        else ⟨region, off, 20⟩ :: (List.range ((enclen + 63) / 64)).map fun i => ⟨region, off + 64 * i, 64⟩

/-- The message that `handle_send_cmd` ends with. -/
def doneAccesses : List Access := pktbufAt 87 1 :: encryptAccesses 1 ++ sendPacketClone (encryptedLen 1)

/-- The messages with what the command prints. -/
def streamAccesses (output : List (List Byte × (Nat → Byte))) : List Access :=
  output.flatMap fun read =>
    [pktbufAt 87 1, pktbufAt 88 1024] ++ encryptAccesses (1 + min read.1.length 1024) ++
      sendPacketClone (encryptedLen (1 + min read.1.length 1024))

/-- `handle_send_cmd` behind the decryption; the command is read up to its end. -/
def commandAccesses : Option (Int × List Byte) → List Access
  | none => []
  | some (ret, plain) =>
    let datalen := toCInt (ret - 3)
    if datalen ≤ 0 then []
    else
      let command := (CString.ofBytes (slice plain 28 datalen.toNat)).bytes
      let type := ntohsByte cfg (plain.getD 25 0)
      [packetAt 87 1, packetAt 88 2, packetAt (90 + datalen.toNat) 1] ++
        if type = 0 then
          if !host.pipe || !host.fork then []
          else packetAt 90 (command.length + 1) ::
            streamAccesses host.output ++ if host.timedOut then [] else doneAccesses
        else if type = 1 then
          if !host.fork then [] else packetAt 90 (command.length + 1) :: doneAccesses
        else []

/-- `handle_send_cmd` -/
def sendCmdAccesses : List Access :=
  let pkt := f.packet
  packetAt 46 4 :: decryptAccesses cipher .packet sizeofPacket pkt.msgLen pkt.data d.crypt ++
    commandAccesses cfg host (decryptMessage cipher pkt.msgLen pkt.data d.crypt).1

/-! ### Packets -/

/-- A field that is looked at, and whether the packet is handled further. -/
structure Check where
  off : Nat
  size : Nat
  passes : Bool

/-- The fields that `handle_packet` and `parse_message` look at before a handler is called. -/
def headerChecks : List Check :=
  let pkt := f.packet
  let type := pkt.type.toInt
  [⟨12, 2, pkt.etherType == 0x0800⟩, ⟨0, 6, pkt.etherDhost == List.replicate 6 0xff⟩, ⟨23, 1, pkt.proto == 17⟩,
    ⟨36, 2, pkt.destport == eadPort⟩, ⟨42, 4, pkt.magic == eadMagic⟩,
    ⟨46, 4, decide ((sizeofPacket + pkt.msgLen.toNat) % 2 ^ cfg.sizeBits ≤ pkt.len)⟩,
    ⟨54, 2, pkt.nid == 0xffff || pkt.nid == cfg.nid⟩,
    ⟨50, 4, decide (EadType.getPrime.toInt ≤ type → d.state.toInt = type)⟩] ++
    if type = EadType.ping.toInt then []
    else [⟨56, 2, decide (((pkt.sid &&& 0xf000) >>> 12).toNat = cfg.id)⟩]

/-- Those of some fields that are looked at: nothing behind the first that does not pass. -/
def looked : List Check → List Check
  | [] => []
  | check :: checks => check :: if check.passes then looked checks else []

/-- The bytes that the message of a type has at least, if it has a handler. -/
def minLen (type : Int) : Option Nat :=
  match type with
  | 0 => some 0
  | 2 => some 32
  | 4 => some 0
  | 6 => some 1
  | 8 => some 20
  | 10 => some (3 + sizeofEncrypted)
  | _ => none

/-- The handler of a type. -/
def handlerAccesses : List Access :=
  match f.packet.type.toInt with
  | 0 => pingAccesses cfg
  | 2 => setUsernameAccesses f
  | 4 => getPrimeAccesses d
  | 6 => sendAAccesses f d
  | 8 => sendAuthAccesses f d
  | 10 => sendCmdAccesses cipher cfg host f d
  | _ => []

/-- `parse_message` behind its checks of the header; the length is an `int` there. -/
def parseAccesses : List Access :=
  match minLen f.packet.type.toInt with
  | none => []
  | some least =>
    if f.len.toInt < sizeofPacket + least then []
    else [pktbufAt 42 4, pktbufAt 50 4, pktbufAt 54 2, packetAt 56 2, pktbufAt 56 2, pktbufAt 46 4] ++
      handlerAccesses cipher cfg host f d

/-- `handle_packet` -/
def packetAccesses : List Access :=
  if f.len.toNat < sizeofPacket then []
  else
    let checks := headerChecks cfg f d
    (looked checks).map (fun check => packetAt check.off check.size) ++
      if checks.all Check.passes then parseAccesses cipher cfg host f d else []

/-! ### What is to be captured -/

/-- An encrypted message fits in some bytes behind the header. -/
def EncryptedFits (len : Word) (room : Int) : Prop :=
  (len.toInt < 0 → sizeofEncrypted ≤ room) ∧ (0 < len.toInt → len.toInt.tmod encPad = 0 → len.toInt ≤ room)

/-- Behind a command that is taken there is a byte more: in its padding, or captured behind the message. -/
def CommandFits : Option (Int × List Byte) → Prop
  | none => True
  | some (ret, _) => 0 < toCInt (ret - 3) → 90 + toCInt (ret - 3) < f.caplen

/-- What a handler needs. A message that is longer than `abuf`, or that is not encrypted in blocks, is refused before its
data is looked at. -/
def HandlerFits : Prop :=
  let pkt := f.packet
  let len := toCInt (pkt.msgLen.toNat - 1)
  match pkt.type.toInt with
  | 0 => sizeofPacket ≤ f.caplen
  | 2 => sizeofPacket + strncpyReads f.mem 62 32 ≤ f.caplen
  | 4 => sizeofPacket ≤ f.caplen
  | 6 => maxParamLen + 1 < len ∨ 0 ≤ len ∧ sizeofPacket + 1 + len ≤ f.caplen
  | 8 => sizeofPacket + 20 ≤ f.caplen
  | 10 => EncryptedFits pkt.msgLen (f.caplen - sizeofPacket) ∧
      CommandFits f (decryptMessage cipher pkt.msgLen pkt.data d.crypt).1
  | _ => True

/-- A handler is called. -/
def Called : Prop :=
  (headerChecks cfg f d).all Check.passes = true ∧
    ∃ least, minLen f.packet.type.toInt = some least ∧ sizeofPacket + least ≤ f.len.toInt

/-- The fields of the header that are looked at were captured, and what the handler needs if one is called. -/
def Fits : Prop :=
  sizeofPacket ≤ f.len.toNat →
    (∀ check ∈ looked (headerChecks cfg f d), check.off + check.size ≤ f.caplen) ∧
      (Called cfg f d → HandlerFits cipher f d)

end Handlers

/-- The daemon behind a packet. -/
def afterPacket {lib : Srp} (cipher : Cipher) (cfg : Config) (d : Daemon lib) (r : Received) : Daemon lib :=
  (handlePacket cipher cfg r.host r.buffer r.pkt d).1

end Immwrt.Ead
