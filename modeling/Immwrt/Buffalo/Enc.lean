import Immwrt.Lib.Endian
import Immwrt.Lib.Text

/-!
# Buffalo images

`buffalo-enc` puts a header in front of a payload and encrypts product name, version and payload with a
stream cipher whose state is permuted by the key. Each part is keyed with the first encrypted byte of the
one before it. Allocations succeed, and an `unsigned long` has 64 bits.
-/

namespace Immwrt.Buffalo

/-! ### The cipher -/

structure BcryptCtx where
  i : Nat
  j : Nat
  state : List Byte
  stateLen : Nat

/-- One round of the loop that permutes the state: `state[i]` and `state[k]` change places. -/
def bcryptInitStep (key : List Byte) (stateLen : Nat) (loop : List Byte × Nat × Nat) (i : Nat) :
    List Byte × Nat × Nat :=
  let (state, j, k) := loop
  let t := state.getD i 0
  let k := (k + (key.getD j 0).toNat + t.toNat) % stateLen
  ((state.set i (state.getD k 0)).set k t, (j + 1) % key.length, k)

def bcryptInit (key : List Byte) (stateLen : Nat) : BcryptCtx :=
  let state := (List.range stateLen).map fun i => BitVec.ofNat 8 i
  let (state, _, _) := (List.range stateLen).foldl (bcryptInitStep key stateLen) (state, 0, 0)
  { i := 0, j := 0, state := state, stateLen := stateLen }

/-- What a round does before it gives out a byte. The indices are `unsigned char`. -/
def BcryptCtx.step (ctx : BcryptCtx) : BcryptCtx :=
  let i := (ctx.i + 1) % ctx.stateLen % 256
  let j := (ctx.j + (ctx.state.getD i 0).toNat) % ctx.stateLen % 256
  let t := ctx.state.getD j 0
  { ctx with i := i, j := j, state := (ctx.state.set j (ctx.state.getD i 0)).set i t }

/-- The byte a round gives out. -/
def BcryptCtx.output (ctx : BcryptCtx) : Byte :=
  ctx.state.getD
    (((ctx.state.getD ctx.i 0).toNat + (ctx.state.getD ctx.j 0).toNat) % ctx.stateLen) 0

/-- `src` and `dst` are places in one buffer. -/
def bcryptProcess : Nat → BcryptCtx → List Byte → Nat → Nat → List Byte
  | 0, _, buf, _, _ => buf
  | len + 1, ctx, buf, src, dst =>
    let ctx := ctx.step
    bcryptProcess len ctx (buf.set dst (buf.getD src 0 ^^^ ctx.output)) (src + 1) (dst + 1)

def bcryptDefaultStateLen : Nat := 256

def bcryptBuf (seed : Byte) (key : CString) (buf : List Byte) (src dst len : Nat) (longstate : Bool) :
    List Byte :=
  let bckey := seed :: key.bytes
  bcryptProcess len (bcryptInit bckey (if longstate then len else bcryptDefaultStateLen)) buf src dst

/-! ### Checksum and lengths -/

/-- The bytes are signed. -/
def csumByte (csum : Word) (byte : Byte) : Word := crcShift^[8] (csum ^^^ byte.signExtend 32)

def buffaloCsum (csum : Word) (buf : List Byte) : Word := buf.foldl csumByte csum

def encMagicLen : Nat := 6

def encProductLen : Nat := 32

def encVersionLen : Nat := 8

def encComputeHeaderLen (product version : CString) : Nat :=
  encMagicLen + 1 + product.strlen + 1 + version.strlen + 1 + 3 * 4

def encComputeBufLen (product version : CString) (datalen : Nat) : Nat :=
  let ret := encComputeHeaderLen product version + (datalen + 4)
  ret + (4 - ret % 4)

structure EncParam where
  key : CString
  magic : List Byte
  product : List Byte
  version : List Byte
  seed : Byte
  longstate : Bool
  datalen : Word
  csum : Word

def strlen (buf : List Byte) : Nat := (CString.ofBytes buf).strlen

/-- `ep` after `memset`, with the key and the mode set. -/
def EncParam.cleared (key : CString) (longstate : Bool) : EncParam where
  key := key
  magic := List.replicate encMagicLen 0
  product := List.replicate encProductLen 0
  version := List.replicate encVersionLen 0
  seed := 0
  longstate := longstate
  datalen := 0
  csum := 0

def strcpy (buf : List Byte) (s : CString) : List Byte := splice buf 0 (s.bytes ++ [0])

/-! ### Encryption -/

/-- The header is written at the start of the buffer, and the payload at `data` is encrypted in place. -/
def encryptBuf (ep : EncParam) (buf : List Byte) (data : Nat) : List Byte :=
  let p := 0
  -- setup magic
  let len := strlen ep.magic + 1
  let buf := splice buf p (ep.magic.take len)
  let p := p + len
  -- setup seed
  let buf := splice buf p [ep.seed]
  let p := p + 1
  -- put product len, copy and crypt product name
  let len := strlen ep.product + 1
  let buf := splice buf p (wordBe (BitVec.ofNat 32 len))
  let p := p + 4
  let buf := splice buf p (ep.product.take len)
  let buf := bcryptBuf ep.seed ep.key buf p p len ep.longstate
  let s := buf.getD p 0
  let p := p + len
  -- put version length, copy and crypt version
  let len := strlen ep.version + 1
  let buf := splice buf p (wordBe (BitVec.ofNat 32 len))
  let p := p + 4
  let buf := splice buf p (ep.version.take len)
  let buf := bcryptBuf s ep.key buf p p len ep.longstate
  let s := buf.getD p 0
  let p := p + len
  -- put data length, encrypt data, put checksum
  let buf := splice buf p (wordBe ep.datalen)
  let buf := bcryptBuf s ep.key buf data data ep.datalen.toNat ep.longstate
  splice buf (data + ep.datalen.toNat) (wordBe ep.csum)

/-- The length of the buffer that `encrypt_file` allocates. -/
def totlen (product version : CString) (srcLen size : Nat) : Nat :=
  if size ≠ 0 then encComputeBufLen product version size + (srcLen - size)
  else encComputeBufLen product version srcLen

/-- The buffer of `encrypt_file` with the file behind the room for the header, and the length of the
payload. `size` is the value of `-S`, 0 without it: what follows the payload in the file is moved behind
the room for the checksum and the padding. -/
def placeFile (product version : CString) (size : Nat) (src heap : List Byte) : List Byte × Nat :=
  let hdrlen := encComputeHeaderLen product version
  let buf := splice heap hdrlen src
  if size ≠ 0 then
    let tailDst := encComputeBufLen product version size
    let tailLen := src.length - size
    let tailSrc := hdrlen + size
    let buf := splice buf tailDst (slice buf tailSrc tailLen)
    (splice buf tailSrc (List.replicate (tailDst - tailSrc) 0), size)
  else (buf, src.length)

/-- The buffer that `encrypt_file` writes out, made from what `malloc` returned. -/
def encryptFile (key magic product version : CString) (seed : Byte) (longstate : Bool) (size : Nat)
    (src heap : List Byte) : List Byte :=
  let hdrlen := encComputeHeaderLen product version
  let (buf, srcLen) := placeFile product version size src heap
  let ep := EncParam.cleared key longstate
  let ep := { ep with
    seed := seed
    csum := buffaloCsum (BitVec.ofNat 32 srcLen) (slice buf hdrlen srcLen)
    datalen := BitVec.ofNat 32 srcLen
    magic := strcpy ep.magic magic
    product := strcpy ep.product product
    version := strcpy ep.version version }
  encryptBuf ep buf hdrlen

/-! ### Decryption -/

/-- The place in the data, and what is left of it. -/
structure Reader where
  p : Nat
  remain : Nat

/-- `CHECKLEN` and `INCP` around a field. -/
def Reader.read (r : Reader) (data : List Byte) (len : Nat) : Option (List Byte × Reader) :=
  if r.remain < len then none
  else some (slice data r.p len, { p := r.p + len, remain := r.remain - len })

def startMagic : List Byte := ofChars "start" ++ [0]

def asar1Magic : List Byte := ofChars "asar1" ++ [0]

/-- The parameters and the data, `none` when the data is refused. The payload is decrypted onto the start
of the data. -/
def decryptBuf (ep : EncParam) (data : List Byte) (datalen : Nat) : Option (EncParam × List Byte) := do
  let r : Reader := { p := 0, remain := datalen }
  let (magic, r) ← r.read data encMagicLen
  if magic ≠ startMagic ∧ magic ≠ asar1Magic then none
  let ep := { ep with magic := magic }
  let (seed, r) ← r.read data 1
  let ep := { ep with seed := seed.getD 0 0 }
  let (prodLen, r) ← r.read data 4
  let prodLen := (ofBe prodLen).toNat
  if prodLen > encProductLen then none
  let (product, r) ← r.read data prodLen
  let ep := { ep with product := splice ep.product 0 product }
  let (verLen, r) ← r.read data 4
  let verLen := (ofBe verLen).toNat
  if verLen > encVersionLen then none
  let (version, r) ← r.read data verLen
  let ep := { ep with version := splice ep.version 0 version }
  let (len, r) ← r.read data 4
  let ep := { ep with datalen := ofBe len }
  let (_, r') ← r.read data ep.datalen.toNat
  let data := bcryptBuf (ep.version.getD 0 0) ep.key data r.p 0 ep.datalen.toNat ep.longstate
  let (csum, _) ← r'.read data 4
  let ep := { ep with csum := ofBe csum }
  if buffaloCsum ep.datalen (slice data 0 ep.datalen.toNat) ≠ ep.csum then none
  let ep := { ep with
    version := bcryptBuf (ep.product.getD 0 0) ep.key ep.version 0 0 verLen ep.longstate }
  let ep := { ep with product := bcryptBuf ep.seed ep.key ep.product 0 0 prodLen ep.longstate }
  some (ep, data)

end Immwrt.Buffalo
