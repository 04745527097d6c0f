import Immwrt.Lib.Align
import Immwrt.Lib.Endian
import Immwrt.Lib.File
import Immwrt.Lib.Traced

/-!
# RouterBOOT flash data

What the drivers of the configuration partitions share: the search for a tag in a chain of nodes, and the
run-length decoder of the calibration data. Nodes are words in the byte order of the CPU.
-/

namespace Immwrt.Routerboot

/-- A word in the byte order of the CPU, which may be big-endian. -/
def cpuWord (big : Bool) (bytes : List Byte) : Word := if big then ofBe bytes else ofLe bytes

/-! ### Tags -/

section Tags

variable (big : Bool) (buf : List Byte)

/-- The node at an offset of the buffer. -/
def nodeAt (ofs : Nat) : Word := cpuWord big (slice buf ofs 4)

/-- `node & 0xFFFF` -/
def nodeId (node : Word) : HalfWord := node.extractLsb' 0 16

/-- `node >> 16` -/
def nodeLen (node : Word) : HalfWord := node.extractLsb' 16 16

/-- The loop of the search from `ofs` on, with the offsets of the bytes that it reads. -/
def tagFindLoop (tagId : HalfWord) (ofs : Nat) : Traced Nat (Except Errno (HalfWord × HalfWord)) :=
  if ofs < buf.length then do
    (List.range' ofs 4).forM Traced.emit
    let node := nodeAt big buf ofs
    if node = 0 then pure (.error .enoent)
    else if tagId = nodeId node then
      if buf.length ≤ ofs + 4 then pure (.error .enoent)
      else pure (.ok (BitVec.ofNat 16 (ofs + 4), nodeLen node))
    else tagFindLoop tagId (ofs + 4 + (alignUp 2 (nodeLen node)).toNat)
  else pure (.error .enoent)
termination_by buf.length - ofs

/-- The offset and the length of the payload of a tag. -/
def routerbootTagFind (tagId : HalfWord) : Traced Nat (Except Errno (HalfWord × HalfWord)) :=
  if tagId = 0 then pure (.error .einval) else tagFindLoop big buf tagId 0

end Tags

/-! ### Run-length encoding -/

/-- An access to a byte of the input or of the output. -/
inductive Access where
  | read (i : Nat)
  | write (i : Nat)

/-- What `routerboot_rle_decode` returns, with the bytes that it has written to the output. -/
structure Decoded (w : Nat) where
  ret : Except Errno Unit
  out : List Byte
  outlen : BitVec w

section Rle

variable (input : List Byte)

def readByte (i : Nat) : Traced Access Byte := do
  Traced.emit (.read i)
  return input.getD i 0

/-- `while (run-- > 0) *out++ = *in++` -/
def copyRun : (run pos : Nat) → (out : List Byte) → Traced Access (List Byte)
  | 0, _, out => pure out
  | run + 1, pos, out => do
    let byte ← readByte input pos
    Traced.emit (.write out.length)
    copyRun run (pos + 1) (out ++ [byte])

/-- `while (run-- > 0) *out++ = byte` -/
def fillRun (byte : Byte) : (run : Nat) → (out : List Byte) → Traced Access (List Byte)
  | 0, out => pure out
  | run + 1, out => do
    Traced.emit (.write out.length)
    fillRun byte run (out ++ [byte])

/-- The comparison `nbytes > *outlen` of an `int` with a `size_t` of `w` bits. -/
def exceeds {w : Nat} (nbytes : BitVec 32) (outlen : BitVec w) : Prop := outlen.toNat < (nbytes.signExtend w).toNat

instance {w : Nat} (nbytes : BitVec 32) (outlen : BitVec w) : Decidable (exceeds nbytes outlen) :=
  inferInstanceAs (Decidable (_ < _))

/-- `fail: *outlen = nbytes; return ret` -/
def Decoded.of (w : Nat) (ret : Except Errno Unit) (nbytes : BitVec 32) (out : List Byte) : Decoded w where
  ret := ret
  out := out
  outlen := nbytes.signExtend w

/-- The loop with `inlen` bytes of the input left, the first of them at `pos`. -/
def rleLoop {w : Nat} (outlen : BitVec w) (inlen pos : Nat) (nbytes : BitVec 32) (out : List Byte) :
    Traced Access (Decoded w) :=
  if 2 ≤ inlen then do
    let byte ← readByte input pos
    if byte &&& 0x80 ≠ 0 then
      let run := (~~~ byte).toNat + 1
      if inlen - 1 < run then return .of w (.error .enospc) nbytes out
      let nbytes := nbytes + BitVec.ofNat 32 run
      if exceeds nbytes outlen then return .of w (.error .enospc) nbytes out
      let out ← copyRun input run (pos + 1) out
      rleLoop outlen (inlen - 1 - run) (pos + 1 + run) nbytes out
    else
      let run := byte.toNat
      let byte ← readByte input (pos + 1)
      let nbytes := nbytes + BitVec.ofNat 32 run
      if exceeds nbytes outlen then return .of w (.error .enospc) nbytes out
      let out ← fillRun byte run out
      rleLoop outlen (inlen - 2) (pos + 2) nbytes out
  else return .of w (.ok ()) nbytes out
termination_by inlen

/-- The decoder with a `size_t` of `w` bits. -/
def routerbootRleDecode {w : Nat} (outlen : BitVec w) : Traced Access (Decoded w) :=
  if input.length < 2 then return { ret := .error .einval, out := [], outlen := outlen }
  else rleLoop input outlen input.length 0 0 []

end Rle

end Immwrt.Routerboot
