import Immwrt.Sfe6.Engine

/-!
# Extension headers

The walk over the extension headers with the turns it takes and the bytes it reads, and the chain of headers
as their formats define it. The engine takes every header to be as long as its second byte says in units of
eight bytes; the fragment header has no length there and the authentication header counts in other units.
-/

namespace Immwrt.Sfe6

variable (bytes : Nat → Byte) (pulled : Nat)

/-! ### The loop, turn by turn -/

/-- What a turn reads of a header before it asks for more bytes. -/
def headerReads (nextHdr : Byte) (ihl : Nat) : List Nat :=
  if nextHdr = extHdrFrag then
    if fragOffset bytes ihl ≠ 0 then [ihl + 2, ihl + 3] else [ihl + 2, ihl + 3, ihl + 1]
  else [ihl + 1]

/-- `n` turns of the loop over the extension headers, when `got` bytes have been pulled: the result, `none`
if it is still running, and the offsets of the bytes read, each with what had been pulled by then. -/
def extHdrTurns : Nat → Byte → Nat → Nat → Option (Except Exception (Byte × Nat)) × List (Nat × Nat)
  | 0, _, _, _ => (none, [])
  | n + 1, nextHdr, ihl, got =>
    if isExtHdr nextHdr then
      let reads := (headerReads bytes nextHdr ihl).map fun x => (x, got)
      if nextHdr = extHdrFrag ∧ fragOffset bytes ihl ≠ 0 then (some (.error .nonInitialFragment), reads)
      else
        let next := ihl + extHdrLen bytes ihl
        if pulled < next + 8 then (some (.error .headerIncomplete), reads)
        else
          let r := extHdrTurns n (bytes ihl) next (next + 8)
          (r.1, reads ++ (ihl, next + 8) :: r.2)
    else (some (.ok (nextHdr, ihl)), [])

/-- The headers that the loop steps over, each by its type and its offset. -/
def extHdrs (nextHdr : Byte) (ihl : Nat) : List (Byte × Nat) :=
  if isExtHdr nextHdr ∧ ¬ (nextHdr = extHdrFrag ∧ fragOffset bytes ihl ≠ 0) ∧
      ihl + extHdrLen bytes ihl + 8 ≤ pulled then
    (nextHdr, ihl) :: extHdrs (bytes ihl) (ihl + extHdrLen bytes ihl)
  else []
termination_by pulled - ihl
decreasing_by
  rw [extHdrLen] at *
  omega

/-! ### The formats -/

/-- The length of an extension header. -/
def formatLen (h : Byte × Nat) : Nat :=
  if h.1 = extHdrFrag then 8
  else if h.1 = extHdrAh then ((bytes (h.2 + 1)).toNat + 2) * 4
  else ((bytes (h.2 + 1)).toNat + 1) * 8

/-- The header after an extension header. -/
def formatNext (h : Byte × Nat) : Byte × Nat := (bytes h.2, h.2 + formatLen bytes h)

/-- The header `h'` is in the chain of headers that begins with `h`. -/
inductive InChain : Byte × Nat → Byte × Nat → Prop
  | here (h : Byte × Nat) : InChain h h
  | next {h h' : Byte × Nat} (hext : isExtHdr h.1 = true) (hrest : InChain (formatNext bytes h) h') : InChain h h'

/-- The second byte of a fragment or authentication header is zero. -/
def Conforms (h : Byte × Nat) : Prop := h.1 = extHdrFrag ∨ h.1 = extHdrAh → bytes (h.2 + 1) = 0

/-- The engine handles what comes after the extension headers. -/
def IsUpper (nextHdr : Byte) : Prop :=
  nextHdr = Sfe.ipprotoUdp ∨ nextHdr = Sfe.ipprotoTcp ∨ nextHdr = ipprotoIcmpv6

/-- The walk of `sfe_ipv6_recv` ends, reads only pulled bytes, and, when it ends in a header that the engine
handles, has stepped over the extension headers of the packet one by one and is at the header after them. -/
structure Packet.WalkedByFormat (p : Packet) : Prop where
  ends : ∃ n, (extHdrTurns p.bytes p.pulled n (nexthdr p.bytes 0) 40 48).1
    = some (extHdrLoop p.bytes p.pulled (nexthdr p.bytes 0) 40)
  reads : ∀ n, ∀ x ∈ (extHdrTurns p.bytes p.pulled n (nexthdr p.bytes 0) 40 48).2, x.1 < x.2 ∧ x.2 ≤ p.pulled
  steps : ∀ h, extHdrLoop p.bytes p.pulled (nexthdr p.bytes 0) 40 = .ok h → IsUpper h.1 →
    InChain p.bytes (nexthdr p.bytes 0, 40) h ∧
    (extHdrs p.bytes p.pulled (nexthdr p.bytes 0) 40 ++ [h]).IsChain fun h h' => h' = formatNext p.bytes h

end Immwrt.Sfe6
