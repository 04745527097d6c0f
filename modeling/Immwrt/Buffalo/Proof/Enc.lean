import Immwrt.Buffalo.Enc

/-!
# Decryption undoes encryption

The cipher adds a key stream that depends on the key, the seed, the mode and the length only, so the same
call undoes it, in place or onto an earlier part of the same buffer. The rest is layout: the fields that
encryption writes one after another are the ones that decryption reads.
-/

namespace Immwrt.Buffalo

/-! ### The key stream -/

def keystream : Nat → BcryptCtx → List Byte
  | 0, _ => []
  | n + 1, ctx => ctx.step.output :: keystream n ctx.step

def bcryptStart (seed : Byte) (key : CString) (longstate : Bool) (len : Nat) : BcryptCtx :=
  bcryptInit (seed :: key.bytes) (if longstate then len else bcryptDefaultStateLen)

def cipher (seed : Byte) (key : CString) (longstate : Bool) (data : List Byte) : List Byte :=
  List.zipWith (· ^^^ ·) data (keystream data.length (bcryptStart seed key longstate data.length))

@[simp]
theorem length_keystream (n : Nat) (ctx : BcryptCtx) : (keystream n ctx).length = n := by
  induction n generalizing ctx with
  | zero => rfl
  | succ n ih => rw [keystream, List.length_cons, ih]

@[simp]
theorem length_cipher (seed : Byte) (key : CString) (longstate : Bool) (data : List Byte) :
    (cipher seed key longstate data).length = data.length := by
  rw [cipher, List.length_zipWith, length_keystream, min_self]

theorem zipWith_xor_cancel {data stream : List Byte} (hlen : stream.length = data.length) :
    List.zipWith (· ^^^ ·) (List.zipWith (· ^^^ ·) data stream) stream = data := by
  induction data generalizing stream with
  | nil => rfl
  | cons byte data ih =>
    obtain ⟨key, keys, rfl⟩ := List.exists_cons_of_length_eq_add_one hlen
    rw [List.zipWith_cons_cons, List.zipWith_cons_cons, BitVec.xor_assoc, BitVec.xor_self,
      BitVec.xor_zero, ih (Nat.succ.inj hlen)]

/-- The cipher is its own inverse. -/
theorem cipher_cipher (seed : Byte) (key : CString) (longstate : Bool) (data : List Byte) :
    cipher seed key longstate (cipher seed key longstate data) = data := by
  rw [cipher, length_cipher]
  exact zipWith_xor_cancel (length_keystream _ _)

/-- The loop adds the key stream to what was at `src` before it, also when it writes over the bytes that
come before those it still has to read. -/
theorem bcryptProcess_eq {len : Nat} {ctx : BcryptCtx} {buf : List Byte} {src dst : Nat}
    (hle : dst ≤ src) (hsrc : src + len ≤ buf.length) :
    bcryptProcess len ctx buf src dst =
      splice buf dst (List.zipWith (· ^^^ ·) (slice buf src len) (keystream len ctx)) := by
  induction len generalizing ctx buf src dst with
  | zero =>
    rw [bcryptProcess, keystream, List.zipWith_nil_right, splice_nil]
  | succ len ih =>
    have hlt : src < buf.length := by omega
    have hslice : slice buf src (len + 1) = buf.getD src 0 :: slice buf (src + 1) len := by
      rw [slice, List.drop_eq_getElem_cons hlt, List.take_succ_cons, 
        List.getD_eq_getElem?_getD, List.getElem?_eq_getElem hlt]
      rfl
    have hset : ∀ v, buf.set dst v = splice buf dst [v] := by
      intro v
      rw [List.set_eq_take_append_cons_drop, if_pos (by omega), splice, List.append_assoc]
      rfl
    rw [bcryptProcess, hset, ih (by omega) (by rw [length_splice (by simp; omega)]; omega),
      slice_splice_of_disjoint (by omega) (Or.inr (by simp; omega)), hslice, keystream,
      List.zipWith_cons_cons]
    exact splice_splice_append [_] _ (by omega)

theorem bcryptBuf_eq {seed : Byte} {key : CString} {buf : List Byte} {src dst len : Nat}
    {longstate : Bool} (hle : dst ≤ src) (hsrc : src + len ≤ buf.length) :
    bcryptBuf seed key buf src dst len longstate =
      splice buf dst (cipher seed key longstate (slice buf src len)) := by
  have hlen : (slice buf src len).length = len := by
    rw [slice, List.length_take, List.length_drop, min_eq_left (by omega)]
  rw [bcryptBuf, bcryptProcess_eq hle hsrc, cipher, hlen]
  rfl

/-- In place, behind what is already written. -/
theorem bcryptBuf_append (seed : Byte) (key : CString) (front data rest : List Byte)
    (longstate : Bool) :
    bcryptBuf seed key (front ++ data ++ rest) front.length front.length data.length longstate =
      front ++ cipher seed key longstate data ++ rest := by
  rw [bcryptBuf_eq le_rfl (by simp only [List.length_append]; omega), slice, List.append_assoc,
    List.drop_left, List.take_left, splice, List.take_left, length_cipher, ← List.drop_drop,
    List.drop_left, List.drop_left]

/-! ### What encryption writes -/

/-- A buffer of which the front has been written. -/
def overwritten (buf front : List Byte) : List Byte := front ++ buf.drop front.length

theorem splice_overwritten (buf front data : List Byte) {p : Nat} (hp : p = front.length) :
    splice (overwritten buf front) p data = overwritten buf (front ++ data) := by
  rw [hp, splice, overwritten, List.take_left, ← List.drop_drop, List.drop_left, List.drop_drop,
    overwritten, List.length_append]

theorem bcryptBuf_overwritten (seed : Byte) (key : CString) (buf front data : List Byte)
    (longstate : Bool) {p len : Nat} (hp : p = front.length) (hlen : len = data.length) :
    bcryptBuf seed key (overwritten buf (front ++ data)) p p len longstate =
      overwritten buf (front ++ cipher seed key longstate data) := by
  rw [hp, hlen, overwritten, bcryptBuf_append, overwritten, List.length_append, List.length_append,
    length_cipher]

theorem getD_overwritten (buf front : List Byte) {data : List Byte} (hdata : data ≠ []) {p : Nat}
    (hp : p = front.length) : (overwritten buf (front ++ data)).getD p 0 = data.getD 0 0 := by
  obtain ⟨byte, data, rfl⟩ := List.exists_cons_of_ne_nil hdata
  rw [hp, overwritten, List.append_assoc, List.getD_eq_getElem?_getD,
    List.getElem?_append_right le_rfl, Nat.sub_self]
  rfl

/-- A string in a field that was cleared before. -/
theorem strlen_strcpy (s : CString) (n : Nat) : strlen (strcpy (List.replicate n 0) s) = s.strlen := by
  have hfield : strcpy (List.replicate n 0) s =
      s.bytes ++ 0 :: (List.replicate n 0).drop (s.bytes ++ [0]).length := by
    rw [strcpy, splice, List.take_zero, List.nil_append, Nat.zero_add, List.append_assoc]
    rfl
  rw [strlen, hfield, CString.ofBytes_append]

theorem take_strcpy (s : CString) (buf : List Byte) :
    (strcpy buf s).take (s.strlen + 1) = s.bytes ++ [0] := by
  rw [strcpy, splice, List.take_zero, List.nil_append]
  exact List.take_left' (by simp [CString.strlen])

/-- The parts of an encrypted image. -/
structure Sealed where
  key : CString
  magic : CString
  product : CString
  version : CString
  seed : Byte
  longstate : Bool
  payload : List Byte

namespace Sealed

variable (e : Sealed)

def encProduct : List Byte := cipher e.seed e.key e.longstate (e.product.bytes ++ [0])

def encVersion : List Byte :=
  cipher (e.encProduct.getD 0 0) e.key e.longstate (e.version.bytes ++ [0])

def encPayload : List Byte := cipher (e.encVersion.getD 0 0) e.key e.longstate e.payload

def header : List Byte :=
  (e.magic.bytes ++ [0]) ++ [e.seed] ++ wordBe (BitVec.ofNat 32 (e.product.strlen + 1)) ++
    e.encProduct ++ wordBe (BitVec.ofNat 32 (e.version.strlen + 1)) ++ e.encVersion ++
    wordBe (BitVec.ofNat 32 e.payload.length)

def csum : Word := buffaloCsum (BitVec.ofNat 32 e.payload.length) e.payload

/-- The parameters that `encrypt_file` passes on. -/
def param : EncParam :=
  { EncParam.cleared e.key e.longstate with
    seed := e.seed
    csum := e.csum
    datalen := BitVec.ofNat 32 e.payload.length
    magic := strcpy (List.replicate encMagicLen 0) e.magic
    product := strcpy (List.replicate encProductLen 0) e.product
    version := strcpy (List.replicate encVersionLen 0) e.version }

theorem length_encProduct : e.encProduct.length = e.product.strlen + 1 := by
  rw [encProduct, length_cipher, List.length_append]
  rfl

theorem length_encVersion : e.encVersion.length = e.version.strlen + 1 := by
  rw [encVersion, length_cipher, List.length_append]
  rfl

theorem length_header (hmagic : e.magic.strlen = 5) :
    e.header.length = encComputeHeaderLen e.product e.version := by
  have hbytes : e.magic.bytes.length = 5 := hmagic
  simp only [header, List.length_append, length_encProduct, length_encVersion, length_wordBe, hbytes,
    List.length_singleton, encComputeHeaderLen, encMagicLen]
  omega

/-- Encryption of a buffer that has room for the header, the payload and some bytes behind it. -/
theorem encryptBuf_param (hmagic : e.magic.strlen = 5) (hsize : e.payload.length < 2 ^ 32)
    (room pad : List Byte) (hroom : room.length = encComputeHeaderLen e.product e.version) :
    encryptBuf e.param (room ++ (e.payload ++ pad)) (encComputeHeaderLen e.product e.version) =
      e.header ++ e.encPayload ++ wordBe e.csum ++ pad.drop 4 := by
  have hlenMagic : strlen e.param.magic = e.magic.strlen := strlen_strcpy _ _
  have hlenProduct : strlen e.param.product = e.product.strlen := strlen_strcpy _ _
  have hlenVersion : strlen e.param.version = e.version.strlen := strlen_strcpy _ _
  have htakeMagic : e.param.magic.take (e.magic.strlen + 1) = e.magic.bytes ++ [0] := take_strcpy _ _
  have htakeProduct : e.param.product.take (e.product.strlen + 1) = e.product.bytes ++ [0] :=
    take_strcpy _ _
  have htakeVersion : e.param.version.take (e.version.strlen + 1) = e.version.bytes ++ [0] :=
    take_strcpy _ _
  have hdatalen : e.param.datalen.toNat = e.payload.length := by
    rw [param, BitVec.toNat_ofNat, Nat.mod_eq_of_lt hsize]
  have hneProduct : e.encProduct ≠ [] := List.ne_nil_of_length_eq_add_one e.length_encProduct
  have hneVersion : e.encVersion ≠ [] := List.ne_nil_of_length_eq_add_one e.length_encVersion
  generalize hbuf : room ++ (e.payload ++ pad) = buf
  have hheader : overwritten buf e.header = e.header ++ e.payload ++ pad := by
    rw [overwritten, e.length_header hmagic, ← hbuf, List.drop_left' hroom, List.append_assoc]
  have hproductLen : e.product.strlen + 1 = (e.product.bytes ++ [0]).length := by simp [CString.strlen]
  have hversionLen : e.version.strlen + 1 = (e.version.bytes ++ [0]).length := by simp [CString.strlen]
  -- the fields up to the length of the product name
  have hfront : splice (splice (splice buf 0 (e.magic.bytes ++ [0])) (0 + (e.magic.strlen + 1)) [e.seed])
      (0 + (e.magic.strlen + 1) + 1) (wordBe (BitVec.ofNat 32 (e.product.strlen + 1))) =
      overwritten buf (e.magic.bytes ++ [0] ++ [e.seed] ++
        wordBe (BitVec.ofNat 32 (e.product.strlen + 1))) := by
    have hstart : splice buf 0 (e.magic.bytes ++ [0]) = overwritten buf (e.magic.bytes ++ [0]) :=
      splice_overwritten buf [] _ rfl
    rw [hstart, splice_overwritten _ _ _ (by simp [CString.strlen]),
      splice_overwritten _ _ _ (by simp [CString.strlen])]
  generalize hfront1 : e.magic.bytes ++ [0] ++ [e.seed] ++
    wordBe (BitVec.ofNat 32 (e.product.strlen + 1)) = front1 at hfront
  have hlen1 : 0 + (e.magic.strlen + 1) + 1 + 4 = front1.length := by
    rw [← hfront1]
    simp [CString.strlen]
  -- the product name and the length of the version
  have hproduct : bcryptBuf e.seed e.key (splice (overwritten buf front1) front1.length
      (e.product.bytes ++ [0])) front1.length front1.length (e.product.strlen + 1) e.longstate =
      overwritten buf (front1 ++ e.encProduct) := by
    rw [splice_overwritten _ _ _ rfl, bcryptBuf_overwritten _ _ _ _ _ _ rfl hproductLen]
    rfl
  generalize hfront2 : front1 ++ e.encProduct ++ wordBe (BitVec.ofNat 32 (e.version.strlen + 1)) = front2
  have hlen2 : front1.length + (e.product.strlen + 1) = (front1 ++ e.encProduct).length := by
    rw [List.length_append, length_encProduct]
  have hlen2' : (front1 ++ e.encProduct).length + 4 = front2.length := by
    rw [← hfront2, ← length_wordBe (BitVec.ofNat 32 (e.version.strlen + 1)), ← List.length_append]
  have hversion : bcryptBuf (e.encProduct.getD 0 0) e.key (splice (overwritten buf front2) front2.length
      (e.version.bytes ++ [0])) front2.length front2.length (e.version.strlen + 1) e.longstate =
      overwritten buf (front2 ++ e.encVersion) := by
    rw [splice_overwritten _ _ _ rfl, bcryptBuf_overwritten _ _ _ _ _ _ rfl hversionLen]
    rfl
  have hlen3 : front2.length + (e.version.strlen + 1) = (front2 ++ e.encVersion).length := by
    rw [List.length_append, length_encVersion]
  have hfront3 : front2 ++ e.encVersion ++ wordBe (BitVec.ofNat 32 e.payload.length) = e.header := by
    rw [← hfront2, ← hfront1]
    rfl
  unfold encryptBuf
  simp only [hlenMagic, hlenProduct, hlenVersion, htakeMagic, htakeProduct, htakeVersion, hdatalen]
  rw [show e.param.seed = e.seed from rfl, show e.param.key = e.key from rfl,
    show e.param.longstate = e.longstate from rfl, show e.param.csum = e.csum from rfl,
    show e.param.datalen = BitVec.ofNat 32 e.payload.length from rfl, hfront, hlen1, hproduct,
    getD_overwritten _ _ hneProduct rfl, hlen2, splice_overwritten _ _ _ rfl, hfront2, hlen2', hversion,
    getD_overwritten _ _ hneVersion rfl, hlen3, splice_overwritten _ _ _ rfl, hfront3, hheader,
    ← e.length_header hmagic, bcryptBuf_append]
  change splice (e.header ++ e.encPayload ++ pad) (e.header.length + e.payload.length) _ = _
  have hend : (e.header ++ e.encPayload).length = e.header.length + e.payload.length := by
    rw [List.length_append, encPayload, length_cipher]
  rw [splice, ← List.drop_drop, List.take_left' hend, List.drop_left' hend, length_wordBe]

/-! ### What decryption reads -/

end Sealed

/-- What is left of the data is `rest`. -/
structure Reader.At (r : Reader) (data rest : List Byte) : Prop where
  drop : data.drop r.p = rest
  remain : r.remain = rest.length

theorem Reader.At.read {r : Reader} {data field rest : List Byte} (hat : r.At data (field ++ rest))
    (len : Nat) (hlen : len = field.length) :
    ∃ r' : Reader, r.read data len = some (field, r') ∧ r'.p = r.p + len ∧ r'.At data rest := by
  refine ⟨{ p := r.p + len, remain := r.remain - len }, ?_, rfl, ?_, ?_⟩
  · have hremain : ¬ r.remain < len := by
      rw [hat.remain, List.length_append]
      omega
    rw [Reader.read, if_neg hremain, slice, hat.drop, hlen, List.take_left]
  · rw [← List.drop_drop, hat.drop, hlen, List.drop_left]
  · dsimp only
    rw [hat.remain, List.length_append, hlen, Nat.add_sub_cancel_left]

namespace Sealed

variable (e : Sealed)

/-- The cleared field with an encrypted string in it. -/
theorem getD_splice_field {data : List Byte} (hdata : data ≠ []) (n : Nat) :
    (splice (List.replicate n 0) 0 data).getD 0 0 = data.getD 0 0 := by
  obtain ⟨byte, data, rfl⟩ := List.exists_cons_of_ne_nil hdata
  rfl

/-- Decrypting a field in place leaves the string that was copied into it. -/
theorem bcryptBuf_field (seed : Byte) (key : CString) (longstate : Bool) (s : CString) {n len : Nat}
    (hlen : len = s.strlen + 1) :
    bcryptBuf seed key (splice (List.replicate n 0) 0 (cipher seed key longstate (s.bytes ++ [0]))) 0 0
        len longstate = strcpy (List.replicate n 0) s := by
  have hfield : splice (List.replicate n (0 : Byte)) 0 (cipher seed key longstate (s.bytes ++ [0])) =
      [] ++ cipher seed key longstate (s.bytes ++ [0]) ++
        (List.replicate n 0).drop (s.bytes ++ [0]).length := by
    rw [splice, List.take_zero, Nat.zero_add, length_cipher]
  have hbytes : len = (cipher seed key longstate (s.bytes ++ [0])).length := by
    rw [hlen, length_cipher]
    simp [CString.strlen]
  rw [hfield, hbytes]
  refine (bcryptBuf_append seed key [] _ _ longstate).trans ?_
  rw [cipher_cipher, strcpy, splice, List.take_zero, Nat.zero_add]

/-- What decryption of an image gives back. -/
structure Restored (buf : List Byte) (ep : EncParam) (data : List Byte) : Prop where
  decrypted : decryptBuf (EncParam.cleared e.key e.longstate) buf buf.length = some (ep, data)
  product : ep.product = strcpy (List.replicate encProductLen 0) e.product
  version : ep.version = strcpy (List.replicate encVersionLen 0) e.version
  seed : ep.seed = e.seed
  datalen : ep.datalen.toNat = e.payload.length
  payload : data.take e.payload.length = e.payload

theorem restored (hmagic : e.magic.bytes ++ [0] = startMagic ∨ e.magic.bytes ++ [0] = asar1Magic)
    (hproduct : e.product.strlen ≤ 31) (hversion : e.version.strlen ≤ 7)
    (hsize : e.payload.length < 2 ^ 32) (pad : List Byte) :
    ∃ ep data, e.Restored (e.header ++ e.encPayload ++ wordBe e.csum ++ pad) ep data := by
  have hprodLen : (BitVec.ofNat 32 (e.product.strlen + 1)).toNat = e.product.strlen + 1 := by
    rw [BitVec.toNat_ofNat, Nat.mod_eq_of_lt (by omega)]
  have hverLen : (BitVec.ofNat 32 (e.version.strlen + 1)).toNat = e.version.strlen + 1 := by
    rw [BitVec.toNat_ofNat, Nat.mod_eq_of_lt (by omega)]
  have hdatalen : (BitVec.ofNat 32 e.payload.length).toNat = e.payload.length := by
    rw [BitVec.toNat_ofNat, Nat.mod_eq_of_lt hsize]
  have hmagicLen : encMagicLen = (e.magic.bytes ++ [0]).length := by
    rcases hmagic with h | h
    · rw [h]
      rfl
    · rw [h]
      rfl
  generalize hbuf : e.header ++ e.encPayload ++ wordBe e.csum ++ pad = buf
  have hat0 : Reader.At { p := 0, remain := buf.length } buf
      ((e.magic.bytes ++ [0]) ++ ([e.seed] ++ (wordBe (BitVec.ofNat 32 (e.product.strlen + 1)) ++
        (e.encProduct ++ (wordBe (BitVec.ofNat 32 (e.version.strlen + 1)) ++ (e.encVersion ++
          (wordBe (BitVec.ofNat 32 e.payload.length) ++ (e.encPayload ++
            (wordBe e.csum ++ pad))))))))) := by
    constructor
    · rw [List.drop_zero, ← hbuf, header]
      simp only [List.append_assoc]
    · rw [← hbuf, header]
      simp only [List.append_assoc]
  obtain ⟨r1, hread1, -, hat1⟩ := hat0.read encMagicLen hmagicLen
  obtain ⟨r2, hread2, -, hat2⟩ := hat1.read 1 rfl
  obtain ⟨r3, hread3, -, hat3⟩ := hat2.read 4 rfl
  obtain ⟨r4, hread4, -, hat4⟩ := hat3.read (e.product.strlen + 1) e.length_encProduct.symm
  obtain ⟨r5, hread5, -, hat5⟩ := hat4.read 4 rfl
  obtain ⟨r6, hread6, -, hat6⟩ := hat5.read (e.version.strlen + 1) e.length_encVersion.symm
  obtain ⟨r7, hread7, -, hat7⟩ := hat6.read 4 rfl
  have hencLen : e.payload.length = e.encPayload.length := by rw [encPayload, length_cipher]
  obtain ⟨r8, hread8, hp8, hat8⟩ := hat7.read e.payload.length hencLen
  -- the payload is decrypted onto the start of the data, before anything that is still to be read
  have hroom : r7.p + e.payload.length ≤ buf.length := by
    have hlen := congrArg List.length hat7.drop
    rw [List.length_drop, List.length_append, List.length_append, length_wordBe] at hlen
    omega
  have hdata : bcryptBuf (e.encVersion.getD 0 0) e.key buf r7.p 0 e.payload.length e.longstate =
      splice buf 0 e.payload := by
    rw [bcryptBuf_eq (Nat.zero_le _) hroom, slice, hat7.drop, hencLen, List.take_left, encPayload,
      cipher_cipher]
  have hat8' : r8.At (splice buf 0 e.payload) (wordBe e.csum ++ pad) := by
    refine ⟨?_, hat8.remain⟩
    rw [← hat8.drop, splice, List.take_zero, List.nil_append, Nat.zero_add, hp8, Nat.add_comm,
      ← List.drop_drop, List.drop_left, List.drop_drop]
  obtain ⟨r9, hread9, -, -⟩ := hat8'.read 4 rfl
  have hcsum : buffaloCsum (BitVec.ofNat 32 e.payload.length)
      (slice (splice buf 0 e.payload) 0 e.payload.length) = e.csum := by
    rw [slice_splice_self (Nat.zero_le _)]
    rfl
  have hneProduct : e.encProduct ≠ [] := List.ne_nil_of_length_eq_add_one e.length_encProduct
  have hneVersion : e.encVersion ≠ [] := List.ne_nil_of_length_eq_add_one e.length_encVersion
  have hverField : bcryptBuf (e.encProduct.getD 0 0) e.key
      (splice (List.replicate encVersionLen 0) 0 e.encVersion) 0 0 (e.version.strlen + 1) e.longstate =
      strcpy (List.replicate encVersionLen 0) e.version := bcryptBuf_field _ _ _ _ rfl
  have hprodField : bcryptBuf e.seed e.key
      (splice (List.replicate encProductLen 0) 0 e.encProduct) 0 0 (e.product.strlen + 1) e.longstate =
      strcpy (List.replicate encProductLen 0) e.product := bcryptBuf_field _ _ _ _ rfl
  refine ⟨{ EncParam.cleared e.key e.longstate with
    magic := e.magic.bytes ++ [0]
    seed := e.seed
    product := strcpy (List.replicate encProductLen 0) e.product
    version := strcpy (List.replicate encVersionLen 0) e.version
    datalen := BitVec.ofNat 32 e.payload.length
    csum := e.csum }, splice buf 0 e.payload, ?_, rfl, rfl, rfl, ?_, ?_⟩
  · have hgood : ¬ (e.magic.bytes ++ [0] ≠ startMagic ∧ e.magic.bytes ++ [0] ≠ asar1Magic) := by tauto
    have hprodFits : ¬ e.product.strlen + 1 > encProductLen := by
      unfold encProductLen
      omega
    have hverFits : ¬ e.version.strlen + 1 > encVersionLen := by
      unfold encVersionLen
      omega
    simp only [decryptBuf, hread1, Option.bind_eq_bind, Option.bind_some, hgood, if_false, hread2, hread3,
      hprodLen, hprodFits, hread4, hread5, hverLen, hverFits, hread6, hread7, hdatalen, hread8, ofBe_wordBe]
    simp only [EncParam.cleared, getD_splice_field hneVersion, getD_splice_field hneProduct, hdata, hread9,
      Option.bind_some, ofBe_wordBe, hcsum, ne_eq, not_true_eq_false, if_false, List.getD_cons_zero,
      hverField, hprodField]
  · exact hdatalen
  · rw [splice, List.take_zero, List.nil_append, List.take_left]

/-- Encryption of a buffer that holds the payload behind the room for the header. -/
theorem encryptBuf_slice (hmagic : e.magic.strlen = 5) (hlen : e.payload.length < 2 ^ 32)
    {buf : List Byte}
    (hroom : encComputeHeaderLen e.product e.version + e.payload.length ≤ buf.length)
    (hpayload : slice buf (encComputeHeaderLen e.product e.version) e.payload.length = e.payload) :
    ∃ pad, encryptBuf e.param buf (encComputeHeaderLen e.product e.version) =
      e.header ++ e.encPayload ++ wordBe e.csum ++ pad := by
  generalize hhdrlen : encComputeHeaderLen e.product e.version = hdrlen at hroom hpayload
  have hbuf : buf = buf.take hdrlen ++ (e.payload ++ buf.drop (hdrlen + e.payload.length)) := by
    have hdrop : e.payload ++ buf.drop (hdrlen + e.payload.length) = buf.drop hdrlen := by
      conv_lhs => rw [← List.drop_drop, ← hpayload, slice, List.length_take, List.length_drop,
        min_eq_left (by omega), List.take_append_drop]
    rw [hdrop, List.take_append_drop]
  have hencrypt := e.encryptBuf_param hmagic hlen (buf.take hdrlen)
    (buf.drop (hdrlen + e.payload.length)) (by rw [hhdrlen, List.length_take]; omega)
  rw [← hbuf, hhdrlen] at hencrypt
  exact ⟨_, hencrypt⟩

/-- The payload stands behind the room for the header. -/
theorem placeFile_spec {product version : CString} {size : Nat} {src heap payload : List Byte}
    (hsize : size ≤ src.length) (hpayload : payload = if size ≠ 0 then src.take size else src)
    (hheap : heap.length = totlen product version src.length size) :
    (placeFile product version size src heap).2 = payload.length ∧
      slice (placeFile product version size src heap).1 (encComputeHeaderLen product version)
        payload.length = payload ∧
      encComputeHeaderLen product version + payload.length ≤
        (placeFile product version size src heap).1.length := by
  have hbufLen : ∀ datalen, encComputeHeaderLen product version + datalen + 4 ≤
      encComputeBufLen product version datalen := by
    intro datalen
    rw [encComputeBufLen]
    omega
  unfold placeFile
  generalize hhdrlen : encComputeHeaderLen product version = hdrlen at hbufLen
  dsimp only
  by_cases hzero : size = 0
  · have hroom := hbufLen src.length
    have hneg : ¬ size ≠ 0 := by simpa using hzero
    rw [totlen, if_neg hneg] at hheap
    rw [if_neg hneg] at hpayload ⊢
    rw [hpayload]
    refine ⟨rfl, slice_splice_self (by omega), ?_⟩
    rw [length_splice (by omega)]
    omega
  · have hroom := hbufLen size
    rw [totlen, if_pos hzero] at hheap
    rw [if_pos hzero] at hpayload ⊢
    have hpayloadLen : payload.length = size := by
      rw [hpayload, List.length_take, min_eq_left hsize]
    rw [hpayloadLen]
    have hbuf : (splice heap hdrlen src).length = heap.length := length_splice (by omega)
    generalize htail : slice (splice heap hdrlen src) (hdrlen + size) (src.length - size) = tail
    have htailLen : tail.length = src.length - size := by
      rw [← htail, slice, List.length_take, List.length_drop, hbuf]
      omega
    have hmoved : (splice (splice heap hdrlen src) (encComputeBufLen product version size) tail).length =
        heap.length := by
      rw [length_splice (by omega), hbuf]
    refine ⟨rfl, ?_, ?_⟩
    · rw [slice_splice_of_disjoint (by omega) (Or.inl (by omega)),
        slice_splice_of_disjoint (by omega) (Or.inl (by omega)), hpayload]
      have hwhole : slice (splice heap hdrlen src) hdrlen src.length = src :=
        slice_splice_self (by omega)
      conv_rhs => rw [← hwhole, slice, List.take_take, min_eq_left hsize]
      rfl
    · dsimp only
      rw [length_splice (by rw [List.length_replicate]; omega)]
      omega

/-- The buffer of `encrypt_file`: the header, the payload, the checksum and what lies behind them. -/
theorem encryptFile_eq (hmagic : e.magic.strlen = 5) (hlen : e.payload.length < 2 ^ 32) {size : Nat}
    {src heap : List Byte} (hsize : size ≤ src.length)
    (hpayload : e.payload = if size ≠ 0 then src.take size else src)
    (hheap : heap.length = totlen e.product e.version src.length size) :
    ∃ pad, encryptFile e.key e.magic e.product e.version e.seed e.longstate size src heap =
      e.header ++ e.encPayload ++ wordBe e.csum ++ pad := by
  obtain ⟨hsrcLen, hslice, hroom⟩ := placeFile_spec hsize hpayload hheap
  obtain ⟨pad, hpad⟩ := e.encryptBuf_slice hmagic hlen hroom hslice
  refine ⟨pad, ?_⟩
  rw [← hpad]
  unfold encryptFile
  generalize placeFile e.product e.version size src heap = placed at hsrcLen hslice ⊢
  obtain ⟨buf, srcLen⟩ := placed
  subst hsrcLen
  dsimp only at hslice ⊢
  rw [hslice]
  rfl

end Sealed

/-- The image of a payload with the tool's own defaults for key, magic and seed. -/
def defaultImage (payload : List Byte) : Sealed where
  key := CString.lit "Buffalo"
  magic := CString.lit "start"
  product := CString.lit "WZR-HP-AG300H"
  version := CString.lit "1.99"
  seed := 0x4f
  longstate := false
  payload := payload

end Immwrt.Buffalo
