import Immwrt.Lib.Text
import Immwrt.Lib.File
import Immwrt.Mapcalc.BitCopy

/-!
# Looking for a delegated prefix

The interfaces that `ubus` reports have delegated prefixes and addresses. A rule takes the longest prefix
that starts with its own; for lw4over6 an address, reported with a mask of 128, stands for its /64.
-/

namespace Immwrt.Mapcalc

open Traced

/-- What `mapcalc` gets from its libraries and its machine. -/
structure Host where
  /-- `(int)strtoul(value, NULL, 0)`; `none` when it sets `errno`. -/
  strtoul : List Byte → Option Word
  /-- `inet_pton(AF_INET, ...)`; `none` is a result other than 1, which leaves the buffer alone. -/
  inetPton4 : List Byte → Option Octets
  /-- `inet_pton(AF_INET6, ...)` -/
  inetPton6 : List Byte → Option Octets
  /-- What the machine makes of `x >> 32`, which C does not define. -/
  shr32 : Nat → Nat

/-- The sizes of `struct in6_addr` and `struct in_addr`. -/
def in6AddrSize : Nat := 16

def inAddrSize : Nat := 4

/-- `IN6ADDR_ANY_INIT`, and `INADDR_ANY`. -/
def addrAny : Octets := fun _ => 0

/-- An element of `ipv6-prefix` or `ipv6-address`, where one of the attributes may be missing. -/
structure PrefixAttrs where
  address : Option (List Byte)
  mask : Option Word

/-- An interface of the dump; an attribute that is missing or no array is `none`. -/
structure IfaceAttrs where
  interface : Option (List Byte)
  prefixes : Option (List PrefixAttrs)
  addresses : Option (List PrefixAttrs)

section MatchPrefix

variable (host : Host) (ipv6Prefix : Octets) (prefix6len : Int) (lw4o6 : Bool)

/-- What an element of the list says: its address, and its mask as `match_prefix` takes it. -/
def entryOf (d : PrefixAttrs) : Option (Octets × Int) :=
  match d.address, d.mask with
  | some address, some mask =>
    -- lw4over6 /128-address-as-PD matching madness workaround
    some ((host.inetPton6 address).getD addrAny, if lw4o6 ∧ mask.toInt = 128 then 64 else mask.toInt)
  | _, _ => none

/-- A turn of the loop, for one entry. -/
def matchEntry (pdlen : Int) (pd : Octets) (addr : Octets) (mask : Int) :
    Traced Access (Int × Octets) := do
  let cmp ←
    if pdlen < mask ∧ mask ≥ prefix6len then
      bmemcmp in6AddrSize in6AddrSize addr ipv6Prefix (toSize prefix6len)
    else pure 1
  if cmp = 0 then
    let pd ← bmemcpy in6AddrSize in6AddrSize pd addr (toSize mask)
    pure (mask, pd)
  else
    let cmp ←
      if lw4o6 ∧ pdlen < prefix6len ∧ mask < prefix6len then
        bmemcmp in6AddrSize in6AddrSize addr ipv6Prefix (toSize mask)
      else pure 1
    if cmp = 0 then
      let pd ← bmemcpy in6AddrSize in6AddrSize pd ipv6Prefix (toSize prefix6len)
      pure (prefix6len, pd)
    else pure (pdlen, pd)

/-- `match_prefix` with the values it leaves in `pdlen` and `pd`. -/
def matchPrefix (pdlen : Int) (pd : Octets) (cur : Option (List PrefixAttrs)) :
    Traced Access (Int × Octets) :=
  ((cur.getD []).filterMap (entryOf host lw4o6)).foldlM
    (fun state entry => matchEntry ipv6Prefix prefix6len lw4o6 state.1 state.2 entry.1 entry.2)
    (pdlen, pd)

/-- The loop over the interfaces of the dump that `arg` means, which ends at the first with a match. -/
def findPdLoop (arg iface : List Byte) (pdlen : Int) (pd : Octets) :
    List IfaceAttrs → Traced Access (Int × Octets × List Byte)
  | [] => pure (pdlen, pd, iface)
  | c :: dump => do
    match c.interface with
    | none => findPdLoop arg iface pdlen pd dump
    | some interface =>
      if arg ≠ ofChars "*" ∧ arg ≠ interface then findPdLoop arg iface pdlen pd dump
      else
        let (pdlen, pd) ← matchPrefix host ipv6Prefix prefix6len lw4o6 pdlen pd c.prefixes
        let (pdlen, pd) ←
          if lw4o6 then matchPrefix host ipv6Prefix prefix6len lw4o6 pdlen pd c.addresses
          else pure (pdlen, pd)
        if pdlen ≥ 0 then pure (pdlen, pd, interface)
        else findPdLoop arg iface pdlen pd dump

end MatchPrefix

end Immwrt.Mapcalc
