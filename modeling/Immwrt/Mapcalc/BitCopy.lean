import Immwrt.Lib.Bits
import Immwrt.Lib.Traced

/-!
# Bit copies

`mapcalc` compares and copies the leading bits of buffers, and cuts a field of bits out of one through a
64-bit number. Each function notes the bytes of its buffers that it touches and the counts it shifts by.
-/

namespace Immwrt.Mapcalc

open Traced

inductive Access where
  /-- `n` bytes from `off` on, of a buffer of `size` bytes. -/
  | touch (size off n : Nat)
  | shift (count : Int)
  deriving DecidableEq

/-- The bytes are in the buffer, the count is one that C defines for an `int`. -/
def Access.Ok : Access → Prop
  | touch size off n => n = 0 ∨ off + n ≤ size
  | shift count => 0 ≤ count ∧ count ≤ 31

instance (access : Access) : Decidable access.Ok := by
  cases access <;> unfold Access.Ok <;> infer_instance

/-- The steps of a computation stay in its buffers and shift by counts that C defines. -/
abbrev Safe {α : Type} (x : Traced Access α) : Prop := Every Access.Ok x

def touch (size off n : Nat) : Traced Access Unit := emit (.touch size off n)

def shift (count : Int) : Traced Access Unit := emit (.shift count)

def memcmp (a b : Octets) : Nat → Nat → Int
  | _, 0 => 0
  | off, n + 1 => if a off = b off then memcmp a b (off + 1) n else (a off).toNat - (b off).toNat

section Copies

variable (asize bsize : Nat)

def bmemcmp (a b : Octets) (bits : Nat) : Traced Access Int := do
  let bytes := bits / 8
  let bits := bits % 8
  touch asize 0 bytes
  touch bsize 0 bytes
  let res := memcmp a b 0 bytes
  if res = 0 ∧ bits > 0 then
    touch asize bytes 1
    touch bsize bytes 1
    shift (8 - bits)
    pure ((a bytes >>> (8 - bits)).toNat - (b bytes >>> (8 - bits)).toNat)
  else pure res

def bmemcpy (a b : Octets) (bits : Nat) : Traced Access Octets := do
  let bytes := bits / 8
  let bits := bits % 8
  touch asize 0 bytes
  touch bsize 0 bytes
  let a : Octets := fun x => if x < bytes then b x else a x
  if bits > 0 then
    shift (8 - bits)
    let mask := (1 : Byte) <<< (8 - bits) - 1
    touch asize bytes 1
    touch bsize bytes 1
    pure (Function.update a bytes ((a bytes &&& mask) ||| (~~~mask &&& b bytes)))
  else pure a

def bmemcpys64 (a b : Octets) (frombits nbits : Nat) : Traced Access Octets := do
  let frombyte := frombits / 8
  let tobyte := (frombits + nbits) / 8
  touch 8 0 (tobyte - frombyte + 1)
  touch bsize frombyte (tobyte - frombyte + 1)
  let buf : Octets := fun x => if x < tobyte - frombyte + 1 then b (frombyte + x) else 0
  shift (frombits % 8 : Nat)
  bmemcpy asize 8 a (natOctets (beNat buf 8 <<< (frombits % 8) % 2 ^ 64) 8) nbits

end Copies

end Immwrt.Mapcalc
