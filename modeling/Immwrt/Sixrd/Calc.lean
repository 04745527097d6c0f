import Immwrt.Lib.Bits
import Immwrt.Lib.Text
import Immwrt.Lib.Traced

/-!
# 6rd prefixes

`6rdcalc` puts the last bits of an IPv4 address behind an IPv6 prefix. Both loops note the bytes of the two addresses
that they touch.
-/

namespace Immwrt.Sixrd

open Traced

/-- `byteCount` bytes from `off` on, of an address of `size` bytes. -/
structure Access where
  size : Nat
  off : Nat
  byteCount : Nat
  deriving DecidableEq

def Access.Ok (access : Access) : Prop := access.off + access.byteCount ≤ access.size

/-- The sizes of `struct in6_addr` and `struct in_addr`. -/
def in6AddrSize : Nat := 16

def inAddrSize : Nat := 4

/-- `128 >> (it & 0x07)` -/
def bitMask (it : Nat) : Byte := (128 : Byte) >>> (it &&& 7)

/-- `*byte |= bit` or `*byte &= ~bit` for the bit of a position. -/
def writeBit (addr : Octets) (it : Nat) (value : Bool) : Octets :=
  Function.update addr (it >>> 3)
    (if value then addr (it >>> 3) ||| bitMask it else addr (it >>> 3) &&& ~~~bitMask it)

/-- Combine the addresses: `v6` and `v6it` behind the loop. -/
def combine (v4 v6 : Octets) (v4it v6it : Nat) : Traced Access (Octets × Nat) :=
  if v4it < 32 then do
    emit ⟨inAddrSize, v4it >>> 3, 1⟩
    emit ⟨in6AddrSize, v6it >>> 3, 1⟩
    let value := v4 (v4it >>> 3) &&& bitMask v4it ≠ 0
    combine v4 (writeBit v6 v6it value) (v4it + 1) (v6it + 1)
  else pure (v6, v6it)
termination_by 32 - v4it

/-- Clear remaining bits. -/
def clearRest (v6 : Octets) (v6it : Nat) : Traced Access Octets :=
  if v6it < 128 then do
    emit ⟨in6AddrSize, v6it >>> 3, 1⟩
    clearRest (writeBit v6 v6it false) (v6it + 1)
  else pure v6
termination_by 128 - v6it

/-- `main` behind the parsing of its arguments: the prefix and the mask that it prints, unless the combined mask is out
of bounds. -/
def subnet (v6 : Octets) (v6it : Nat) (v4 : Octets) (v4it : Nat) : Traced Access (Option (Octets × Nat)) := do
  let mask := (32 - v4it) + v6it
  if mask > 128 then pure none
  else
    let combined ← combine v4 v6 v4it v6it
    let v6 ← clearRest combined.1 combined.2
    pure (some (v6, mask))

/-! ### The arguments -/

/-- What `6rdcalc` gets from its library: `inet_pton`, and the bits of an `unsigned long`. -/
structure Host where
  /-- `inet_pton(AF_INET, ...)`; `none` is a result other than 1. -/
  inetPton4 : List Byte → Option Octets
  /-- `inet_pton(AF_INET6, ...)` -/
  inetPton6 : List Byte → Option Octets
  longBits : Nat

/-- `parse_str`; `none` when it exits. -/
def parseStr (host : Host) (inetPton : List Byte → Option Octets) (maxMask : Nat) (str : List Byte) :
    Option (Octets × Nat) :=
  if 0x2F ∈ str then
    (inetPton (str.takeWhile (· ≠ 0x2F))).bind fun addr =>
      let mask := strtoul host.longBits 10 ((str.dropWhile (· ≠ 0x2F)).drop 1)
      if maxMask < mask then none else some (addr, mask)
  else none

/-- `INET6_PREFIXSTRLEN` and `INET_PREFIXSTRLEN` -/
def inet6PrefixStrlen : Nat := 46 + 4

def inetPrefixStrlen : Nat := 16 + 3

/-- The copy of the first argument. -/
def v6str (arg6 : CString) : List Byte := arg6.bytes.take (inet6PrefixStrlen - 1)

/-- The copy of the second argument. Its terminator is written to `v6str`, so that an argument which fills `v4str` goes
on with what is `behind` it. -/
def v4str (behind : List Byte) (arg4 : CString) : List Byte :=
  if arg4.bytes.length < inetPrefixStrlen then arg4.bytes else arg4.bytes.take inetPrefixStrlen ++ behind

/-- `main` of two arguments. -/
def main (host : Host) (behind : List Byte) (arg6 arg4 : CString) : Traced Access (Option (Octets × Nat)) :=
  match parseStr host host.inetPton6 128 (v6str arg6) with
  | none => pure none
  | some (v6, v6it) =>
    match parseStr host host.inetPton4 32 (v4str behind arg4) with
    | none => pure none
    | some (v4, v4it) => subnet v6 v6it v4 v4it

/-! ### What it is to print -/

/-- The prefix made of the first `n` bits of an IPv6 address and the last `32 - m` bits of an IPv4 address. -/
structure IsSubnet (p : Octets) (n : Nat) (a : Octets) (m : Nat) (v6 : Octets) : Prop where
  leading : ∀ i < n, bitAt v6 i = bitAt p i
  middle : ∀ i < 32 - m, bitAt v6 (n + i) = bitAt a (m + i)
  rest : ∀ i, n + (32 - m) ≤ i → i < 128 → bitAt v6 i = false

end Immwrt.Sixrd
