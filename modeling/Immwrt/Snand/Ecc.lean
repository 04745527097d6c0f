import Immwrt.Snand.Page

/-!
# Empty sectors

A sector that was never programmed has no parity, so the ECC engine cannot correct it. The driver counts
its zero bits, and if there are no more than the engine corrects, it sets them.
-/

namespace Immwrt.Snand

def ebadmsg : Int := -74

/-! ### Zero bits -/

/-- `bitflips += bits - weight` -/
def addZeros {w : Nat} (bitflips : Word) (x : BitVec w) : Word :=
  bitflips + (BitVec.ofNat 32 w - x.cpop.setWidth 32)

/-- The word at an offset, as it is loaded. -/
def wordAt (buf : Buf) (off : Nat) : Word := buf (off + 3) ++ buf (off + 2) ++ buf (off + 1) ++ buf off

section Count

variable (base : Nat) (strength : Byte) (buf : Buf)

/-- The loop up to a word boundary: what is left, and the zero bits so far. `base` is the address of the
buffer. -/
def headLoop : Nat → Nat → Word → Option (Nat × Nat × Word)
  | 0, off, bitflips => some (0, off, bitflips)
  | len + 1, off, bitflips =>
    if (base + off) % 4 = 0 then some (len + 1, off, bitflips)
    else
      let bitflips := addZeros bitflips (buf off)
      if strength.setWidth 32 < bitflips then none else headLoop len (off + 1) bitflips

/-- The loop over words. -/
def wordLoop : Nat → Nat → Word → Option (Nat × Nat × Word)
  | len + 4, off, bitflips =>
    let d := wordAt buf off
    let bitflips := if d ≠ ~~~0 then addZeros bitflips d else bitflips
    if strength.setWidth 32 < bitflips then none else wordLoop len (off + 4) bitflips
  | len, off, bitflips => some (len, off, bitflips)

/-- The loop over the bytes after the last word. -/
def tailLoop : Nat → Nat → Word → Option (Nat × Nat × Word)
  | 0, off, bitflips => some (0, off, bitflips)
  | len + 1, off, bitflips =>
    let bitflips := addZeros bitflips (buf off)
    if strength.setWidth 32 < bitflips then none else tailLoop len (off + 1) bitflips

/-- The three loops of `mtk_ecc_check_buf_bitflips`. -/
def countLoops (len off : Nat) (bitflips : Word) : Option (Nat × Nat × Word) := do
  let (len, off, bitflips) ← headLoop base strength buf len off bitflips
  let (len, off, bitflips) ← wordLoop strength buf len off bitflips
  tailLoop strength buf len off bitflips

/-- `mtk_ecc_check_buf_bitflips` -/
def checkBufBitflips (off len : Nat) (bitflips : Word) : Int :=
  match countLoops base strength buf len off bitflips with
  | none => ebadmsg
  | some (_, _, bitflips) => bitflips.toInt

/-- `mtk_ecc_check_parity_bitflips` -/
def checkParityBitflips (off bits : Nat) (bitflips : Word) : Int :=
  let len := bits / 8
  let bits := bits % 8
  let rc := checkBufBitflips base strength buf off len bitflips
  if bits = 0 ∨ rc < 0 then rc
  else
    let b := buf (off + len)
    let bitflips := (List.range bits).foldl (fun bitflips i => if b.getLsbD i then bitflips else bitflips + 1)
      (BitVec.ofInt 32 rc)
    if strength.setWidth 32 < bitflips then ebadmsg else bitflips.toInt

end Count

/-- `GENMASK(h, 0)`, of which a byte takes what it holds. -/
def genmask (h : Nat) : Byte := (BitVec.allOnes (h + 1)).setWidth 8

/-- `mtk_ecc_reset_parity` -/
def resetParity (buf : Buf) (off bits : Nat) : Buf :=
  let len := bits / 8
  let bits := bits % 8
  let buf := memset buf 0xff off len
  if bits = 0 then buf else Function.update buf (off + len) (buf (off + len) ||| genmask (bits - 1))

def fls (x : Nat) : Nat := x.size

namespace Geometry

variable (g : Geometry)

def dataPtr (sect : Nat) : Nat := sect * g.sectorSize

def fdmPtr (sect : Nat) : Nat := g.writesize + sect * g.fdmSize

def eccPtr (sect : Nat) : Nat := g.writesize + (g.eccSteps * g.fdmSize + sect * g.eccBytes)

def eccBits (strength : Byte) : Nat := strength.toNat * fls (g.sectorSize * 8)

/-- The strength that there is room for. `mtk_ecc_setup` takes no greater one. -/
def setupStrength : Nat := g.eccBytes * 8 / fls (1 + 8 * (g.sectorSize + g.fdmEccSize))

/-- `mtk_ecc_fixup_empty_sector`: what it returns, and the page cache. -/
def fixupEmptySector (base : Nat) (strength : Byte) (sect : Nat) (pageCache : Buf) : Int × Buf :=
  let bitflips := checkBufBitflips base strength pageCache (g.dataPtr sect) g.sectorSize 0
  if bitflips < 0 then (ebadmsg, pageCache)
  else
    let bitflips := checkBufBitflips base strength pageCache (g.fdmPtr sect) g.fdmEccSize
      (BitVec.ofInt 32 bitflips)
    if bitflips < 0 then (ebadmsg, pageCache)
    else
      let bitflips := checkParityBitflips base strength pageCache (g.eccPtr sect) (g.eccBits strength)
        (BitVec.ofInt 32 bitflips)
      if bitflips < 0 then (ebadmsg, pageCache)
      else if bitflips = 0 then (0, pageCache)
      else
        let pageCache := memset pageCache 0xff (g.dataPtr sect) g.sectorSize
        let pageCache := memset pageCache 0xff (g.fdmPtr sect) g.fdmEccSize
        (bitflips, resetParity pageCache (g.eccPtr sect) (g.eccBits strength))

end Geometry

end Immwrt.Snand
