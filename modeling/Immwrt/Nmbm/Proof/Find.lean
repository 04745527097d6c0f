import Immwrt.Nmbm.Proof.Image

/-!
# The signature search

`nmbm_find_signature` counts an unsigned block number down to a limit that it rounds its own way:
the writer's boundary is `block_count * (16 - ratio) / 16`, in 32 bits, and the search stops below
`block_count / 16 * (16 - ratio)`. Chips have a power of two of blocks, so from 16 blocks on the two
are the same number as long as the product fits; below 16 blocks the limit is zero, which an
unsigned counter never passes.
-/

namespace Immwrt.Nmbm

variable {nld : LowerDevice}

section Search

variable (nld)

/-- One turn of the search on block `ba`: the signature it shows. -/
def inspectBlock (ba : Nat) (d : Device) : Option (List Byte) × Device :=
  let c := checkBadPhysBlock nld ba d
  if c.1 then (none, c.2) else findInPages nld nld.pagesPerBlock (nld.ba2addr ba) c.2

/-- The blocks that `n` turns of the search inspect. -/
def inspectedLoop : Nat → Nat → Device → List Nat
  | 0, _, _ => []
  | n + 1, ba, d =>
      if ba < nld.signatureLimit then []
      else
        let ba := sub32 ba 1
        let r := inspectBlock nld ba d
        ba :: if r.1.isSome then [] else inspectedLoop n ba r.2

/-- The device when the search has inspected the last `n` blocks of the chip. -/
def deviceAfter (d : Device) : Nat → Device
  | 0 => d
  | n + 1 => (inspectBlock nld (nld.blockCount32 - 1 - n) (deviceAfter d n)).2

/-- The device when the scan of a block that starts at `addr` has read `k` pages. -/
def afterPages (addr : Nat) (d : Device) : Nat → Device
  | 0 => d
  | k + 1 => (readData nld (addr + k * nld.writesize) signatureSize (afterPages addr d k)).2

/-- When the search gets to block `ba`, the block passes for good and a page reads without an error
as bytes of which `p` holds. -/
def PageReads (p : List Byte → Prop) (ba : Nat) (d : Device) : Prop :=
  let c := checkBadPhysBlock nld ba (deviceAfter nld d (nld.blockCount32 - 1 - ba))
  c.1 = false ∧ ∃ k < nld.pagesPerBlock, ∃ bytes, p bytes ∧
    (readData nld (nld.ba2addr ba + k * nld.writesize) signatureSize
      (afterPages nld (nld.ba2addr ba) c.2 k)).1 = (0, bytes)

end Search

/-- The header checks and has the magic of a signature. -/
def ValidSignature (bytes : List Byte) : Prop :=
  checkHeader bytes signatureSize = true ∧ getU32 bytes hdrMagic = magicSignature

/-! ### One block -/

theorem findSignatureLoop_succ (n ba : Nat) (d : Device) :
    findSignatureLoop nld (n + 1) ba d =
      if ba < nld.signatureLimit then (.absent, d)
      else
        match (inspectBlock nld (sub32 ba 1) d).1 with
        | some sig => (.found (sub32 ba 1, sig), (inspectBlock nld (sub32 ba 1) d).2)
        | none => findSignatureLoop nld n (sub32 ba 1) (inspectBlock nld (sub32 ba 1) d).2 := by
  rw [findSignatureLoop]
  split
  · rfl
  unfold inspectBlock
  dsimp only
  split
  · rfl
  · rfl

theorem afterPages_succ (addr k : Nat) (d : Device) :
    afterPages nld addr d (k + 1)
      = afterPages nld (addr + nld.writesize) (readData nld addr signatureSize d).2 k := by
  induction k with
  | zero => simp [afterPages]
  | succ k ih =>
      rw [afterPages, ih]
      have haddr : addr + (k + 1) * nld.writesize = addr + nld.writesize + k * nld.writesize := by
        ring
      rw [haddr]
      rfl

/-- The scan of a block finds a signature if and only if one of its pages reads as one. -/
theorem findInPages_isSome (n addr : Nat) (d : Device) :
    (findInPages nld n addr d).1.isSome = true ↔
      ∃ k < n, ∃ bytes, ValidSignature bytes ∧
        (readData nld (addr + k * nld.writesize) signatureSize (afterPages nld addr d k)).1
          = (0, bytes) := by
  induction n generalizing addr d with
  | zero => simp [findInPages]
  | succ n ih =>
      rw [findInPages]
      split
      · rename_i hvalid
        refine ⟨fun _ => ⟨0, n.succ_pos, _, hvalid.2, ?_⟩, fun _ => rfl⟩
        rw [Nat.zero_mul, Nat.add_zero]
        exact Prod.ext hvalid.1 rfl
      rename_i hinvalid
      rw [ih]
      constructor
      · rintro ⟨k, hk, bytes, hbytes, hread⟩
        refine ⟨k + 1, by omega, bytes, hbytes, ?_⟩
        rw [afterPages_succ, ← hread]
        congr 2
        ring
      · rintro ⟨k, hk, bytes, hbytes, hread⟩
        cases k with
        | zero =>
            rw [Nat.zero_mul, Nat.add_zero] at hread
            have hread' : (readData nld addr signatureSize d).1 = (0, bytes) := hread
            rw [hread'] at hinvalid
            exact absurd ⟨rfl, hbytes⟩ hinvalid
        | succ k =>
            refine ⟨k, by omega, bytes, hbytes, ?_⟩
            rw [afterPages_succ] at hread
            rw [← hread]
            congr 2
            ring

theorem inspectBlock_isSome (ba : Nat) (d : Device) :
    (inspectBlock nld ba (deviceAfter nld d (nld.blockCount32 - 1 - ba))).1.isSome = true ↔
      PageReads nld ValidSignature ba d := by
  unfold inspectBlock PageReads
  dsimp only
  split
  · rename_i hbad
    simp [hbad]
  · rename_i hgood
    rw [findInPages_isSome]
    simp [hgood]

theorem PageReads.mono {p q : List Byte → Prop} (hpq : ∀ bytes, p bytes → q bytes) {ba : Nat}
    {d : Device} (h : PageReads nld p ba d) : PageReads nld q ba d := by
  obtain ⟨hgood, k, hk, bytes, hbytes, hread⟩ := h
  exact ⟨hgood, k, hk, bytes, hpq _ hbytes, hread⟩

/-! ### The whole search -/

theorem sub32_one {ba : Nat} (hpos : 0 < ba) (hlt : ba < 2 ^ 32) : sub32 ba 1 = ba - 1 := by
  unfold sub32
  omega

/-- Above a positive limit the counter does not wrap: the search ends. -/
theorem findSignatureLoop_ends (hlimit : 0 < nld.signatureLimit) {n ba : Nat} (hba : ba < 2 ^ 32)
    (hn : ba < n) (d : Device) : (findSignatureLoop nld n ba d).1 ≠ .running := by
  induction n generalizing ba d with
  | zero => omega
  | succ n ih =>
      rw [findSignatureLoop_succ]
      split
      · simp
      rename_i hge
      rw [sub32_one (by omega) hba]
      split
      · simp
      · exact ih (by omega) (by omega) _

theorem inspectedLoop_lt (hlimit : 0 < nld.signatureLimit) {n ba : Nat} (hba : ba < 2 ^ 32)
    (d : Device) : ∀ b ∈ inspectedLoop nld n ba d, b < ba := by
  induction n generalizing ba d with
  | zero => simp [inspectedLoop]
  | succ n ih =>
      intro b hb
      rw [inspectedLoop] at hb
      split at hb
      · simp at hb
      dsimp only at hb
      rw [sub32_one (by omega) hba, List.mem_cons] at hb
      rcases hb with rfl | hb
      · omega
      · split at hb
        · simp at hb
        · have := ih (by omega) _ b hb
          omega

/-- What the search finds lies no further below the limit than the block before it. -/
theorem findSignatureLoop_found {n ba sig : Nat} {bytes : List Byte} {d : Device}
    (hlimit : 0 < nld.signatureLimit) (hba : ba < 2 ^ 32)
    (h : (findSignatureLoop nld n ba d).1 = .found (sig, bytes)) :
    nld.signatureLimit ≤ sig + 1 := by
  induction n generalizing ba d with
  | zero => simp [findSignatureLoop] at h
  | succ n ih =>
      rw [findSignatureLoop_succ] at h
      split at h
      · simp at h
      rw [sub32_one (by omega) hba] at h
      split at h
      · obtain ⟨rfl, -⟩ : ba - 1 = sig ∧ _ := by simpa using h
        omega
      · exact ih (by omega) h

/-- The search passes over blocks that show nothing. -/
theorem findSignatureLoop_skips {d : Device} {n ba : Nat} (hlt : nld.blockCount32 < 2 ^ 32)
    (hba : ba < nld.blockCount32) (hlimit : nld.signatureLimit ≤ ba + 1)
    (hnone : ∀ b, ba < b → b < nld.blockCount32 → ¬ PageReads nld ValidSignature b d)
    (hn : n ≤ nld.blockCount32 - 1 - ba) (fuel : Nat) :
    findSignatureLoop nld (n + fuel) nld.blockCount32 d
      = findSignatureLoop nld fuel (nld.blockCount32 - n) (deviceAfter nld d n) := by
  induction n generalizing fuel with
  | zero => simp [deviceAfter]
  | succ n ih =>
      have hturn := ih (by omega) (fuel + 1)
      rw [show n + 1 + fuel = n + (fuel + 1) by omega, hturn, findSignatureLoop_succ,
        if_neg (by omega), sub32_one (by omega) (by omega)]
      have hb : nld.blockCount32 - 1 - (nld.blockCount32 - n - 1) = n := by omega
      have hskip := hnone (nld.blockCount32 - n - 1) (by omega) (by omega)
      rw [← inspectBlock_isSome, hb, Bool.not_eq_true, Option.isSome_eq_false_iff,
        Option.isNone_iff_eq_none] at hskip
      rw [hskip]
      simp only [deviceAfter]
      rw [show nld.blockCount32 - 1 - n = nld.blockCount32 - n - 1 by omega,
        show nld.blockCount32 - (n + 1) = nld.blockCount32 - n - 1 by omega]

/-- The highest block that shows a signature is found, if the limit is at most the next block. -/
theorem findSignature_finds {d : Device} {ba : Nat} (hlt : nld.blockCount32 < 2 ^ 32)
    (hba : ba < nld.blockCount32) (hlimit : nld.signatureLimit ≤ ba + 1)
    (hnone : ∀ b, ba < b → b < nld.blockCount32 → ¬ PageReads nld ValidSignature b d)
    (hshows : PageReads nld ValidSignature ba d) :
    ∃ sig, (findSignature nld d).1 = .found (ba, sig) := by
  unfold findSignature
  have hskips := findSignatureLoop_skips hlt hba hlimit hnone le_rfl (ba + 2 + 1)
  rw [show nld.blockCount32 + 2 = nld.blockCount32 - 1 - ba + (ba + 2 + 1) by omega, hskips,
    findSignatureLoop_succ, if_neg (by omega),
    show nld.blockCount32 - (nld.blockCount32 - 1 - ba) = ba + 1 by omega,
    sub32_one (by omega) (by omega), Nat.add_sub_cancel]
  rw [← inspectBlock_isSome] at hshows
  obtain ⟨sig, hsig⟩ := Option.isSome_iff_exists.mp hshows
  rw [hsig]
  exact ⟨sig, rfl⟩

/-! ### Where the writer and the search stop -/

/-- What `nmbm_check_lower_members` leaves of the members. -/
structure LowerDevice.Checked (nld : LowerDevice) : Prop where
  size : isPowerOf2 nld.size = true
  erasesize : isPowerOf2 nld.erasesize = true
  writesize : isPowerOf2 nld.writesize = true
  ratio_pos : 0 < nld.maxRatio
  ratio_lt : nld.maxRatio < mgmtDiv - 1
  reserved : nld.maxReservedBlocks = 0 ∨ mgmtBlocksMin ≤ nld.maxReservedBlocks

theorem checkLowerMembers_checked {given : LowerDevice} (h : checkLowerMembers given = some nld) :
    nld.Checked := by
  unfold checkLowerMembers at h
  split at h
  · cases h
  rename_i hsize
  split at h
  · cases h
  rename_i herase
  split at h
  · cases h
  rename_i hwrite
  split at h
  · cases h
  dsimp only at h
  generalize hfilled : (if given.maxRatio = 0 then { given with maxRatio := 1 } else given) = filled
    at h
  split at h
  · cases h
  rename_i hratio
  split at h
  · cases h
  rename_i hreserved
  obtain rfl : filled = nld := Option.some.inj h
  have hmembers : filled.size = given.size ∧ filled.erasesize = given.erasesize ∧
      filled.writesize = given.writesize ∧ 0 < filled.maxRatio := by
    rw [← hfilled]
    split
    · exact ⟨rfl, rfl, rfl, Nat.one_pos⟩
    · exact ⟨rfl, rfl, rfl, by omega⟩
  obtain ⟨hs, he, hw, hpos⟩ := hmembers
  exact ⟨by simpa [hs] using hsize, by simpa [he] using herase, by simpa [hw] using hwrite, hpos,
    by omega, by omega⟩

theorem exists_pow_of_isPowerOf2 {n : Nat} (h : isPowerOf2 n = true) : ∃ k, n = 2 ^ k := by
  have hbits : n ≠ 0 ∧ n &&& (n - 1) = 0 := by
    simpa [isPowerOf2] using h
  exact Nat.ne_zero_and_sub_one_eq_zero_iff_isPowerOfTwo.mp hbits

/-- The number of blocks is a power of two; what 32 bits keep of it is all of it or nothing. -/
theorem LowerDevice.Checked.blockCount32 (hchk : nld.Checked) (hmany : 16 ≤ nld.blockCount32) :
    nld.blockCount32 = nld.blockCount ∧ 16 ∣ nld.blockCount := by
  obtain ⟨a, ha⟩ := exists_pow_of_isPowerOf2 hchk.size
  obtain ⟨b, hb⟩ := exists_pow_of_isPowerOf2 hchk.erasesize
  have hmod : nld.blockCount32 = nld.blockCount % 2 ^ 32 := rfl
  have hcount : nld.blockCount = 2 ^ a / 2 ^ b := by
    rw [LowerDevice.blockCount, ha, hb]
  by_cases hle : b ≤ a
  · rw [Nat.pow_div hle (by norm_num)] at hcount
    have hhigh : a - b < 32 := by
      by_contra hge
      rw [hcount, Nat.mod_eq_zero_of_dvd (Nat.pow_dvd_pow 2 (by omega))] at hmod
      omega
    have hfit : nld.blockCount < 2 ^ 32 := by
      rw [hcount]
      exact Nat.pow_lt_pow_right (by norm_num) hhigh
    rw [Nat.mod_eq_of_lt hfit] at hmod
    have hlow : 4 ≤ a - b := by
      by_contra hlt
      have := Nat.pow_lt_pow_right (show 1 < 2 by norm_num) (show a - b < 4 by omega)
      omega
    refine ⟨hmod, ?_⟩
    rw [hcount]
    exact Nat.pow_dvd_pow 2 hlow
  · rw [Nat.div_eq_of_lt (Nat.pow_lt_pow_right (by norm_num) (by omega))] at hcount
    rw [hcount] at hmod
    omega

/-- With fewer than 16 blocks the search has no limit. -/
theorem LowerDevice.Checked.signatureLimit_eq_zero (hchk : nld.Checked) (hfew : nld.blockCount32 < 16) :
    nld.signatureLimit = 0 := by
  have hreserved : nld.maxReservedBlocks = 0 ∨ 32 ≤ nld.maxReservedBlocks := hchk.reserved
  have hzero : nld.blockCount32 / mgmtDiv * (mgmtDiv - nld.maxRatio) = 0 := by
    rw [show nld.blockCount32 / mgmtDiv = 0 from Nat.div_eq_of_lt hfew, Nat.zero_mul]
  unfold LowerDevice.signatureLimit
  dsimp only
  rw [hzero, if_neg (by omega)]

/-- Neither boundary is below what the search reaches: the writer's product fits 32 bits, or the
reserved blocks make up for it. -/
def BoundariesMeet (nld : LowerDevice) : Prop :=
  nld.blockCount * (mgmtDiv - nld.maxRatio) < 2 ^ 32 ∨
    nld.maxReservedBlocks ≠ 0 ∧
      nld.maxReservedBlocks ≤ nld.blockCount / mgmtDiv * nld.maxRatio + 2

theorem LowerDevice.Checked.limits (hchk : nld.Checked) (hmany : 16 ≤ nld.blockCount32) :
    0 < nld.signatureLimit ∧ nld.signatureLimit < nld.blockCount ∧
      (nld.signatureLimit ≤ nld.mgmtStart + 2 ↔ BoundariesMeet nld) := by
  obtain ⟨hcount, m, hm⟩ := hchk.blockCount32 hmany
  have hpos := hchk.ratio_pos
  have hlt : nld.maxRatio < 15 := hchk.ratio_lt
  have hreserved : nld.maxReservedBlocks = 0 ∨ 32 ≤ nld.maxReservedBlocks := hchk.reserved
  have hsixteenth : 16 * m / 16 = m := Nat.mul_div_cancel_left m (by norm_num)
  simp only [LowerDevice.signatureLimit, LowerDevice.mgmtStart, BoundariesMeet, mgmtDiv, hcount, hm,
    hsixteenth, Nat.mul_assoc]
  -- both boundaries are affine in the product of `m` and the data share
  have hsplit : m * (16 - nld.maxRatio) + m * nld.maxRatio = 16 * m := by
    rw [← Nat.mul_add, Nat.sub_add_cancel (by omega), Nat.mul_comm]
  have hshare : m ≤ m * nld.maxRatio := Nat.le_mul_of_pos_right m hpos
  have hdata : m ≤ m * (16 - nld.maxRatio) := Nat.le_mul_of_pos_right m (by omega)
  generalize m * (16 - nld.maxRatio) = data at *
  generalize m * nld.maxRatio = share at *
  refine ⟨?_, ?_, ?_⟩
  · split <;> omega
  · split <;> omega
  · split <;> split <;> omega

/-! ### The signature that is written -/

theorem length_newSignature (nld : LowerDevice) :
    nld.newSignature.bytes.length = signatureSize := by
  unfold Signature.bytes
  rw [length_updateChecksum (by simp [headerSize]), length_wordsLe]
  rfl

theorem newSignature_valid (nld : LowerDevice) : ValidSignature nld.newSignature.bytes := by
  unfold Signature.bytes
  set words := wordsLe _ with hwords
  have hlen : headerSize ≤ words.length := by
    simp [hwords, headerSize]
  have hsize : getU32 words hdrSize = BitVec.ofNat 32 signatureSize :=
    getU32_of_slice rfl
  constructor
  · apply checkHeader_updateChecksum hlen
    · rw [hsize]
      decide
    · rw [hsize]
      decide
  · rw [getU32_congr (updateChecksum_slice hlen (.inl (by decide)))]
    exact getU32_of_slice rfl

/-- A block is reported only on a device that can be written, with pages that hold a signature. -/
theorem writeSignatureLoop_writable {signature : List Byte} {n ba sig : Nat} {s : Sys}
    (h : (writeSignatureLoop nld signature n ba s).1 = some sig) :
    nld.readOnly = false ∧ signature.length ≤ nld.writesize := by
  induction n generalizing ba s with
  | zero => simp [writeSignatureLoop] at h
  | succ n ih =>
      rw [writeSignatureLoop] at h
      dsimp only at h
      split at h
      · exact ih h
      rename_i hprep
      split at h
      · rename_i hwrite
        constructor
        · by_contra hro
          rw [Bool.not_eq_false] at hro
          have herase : ∀ addr d, (erasePhysBlock nld addr d).1 = false := by
            intro addr d
            simp [erasePhysBlock, hro]
          apply hprep
          unfold prepareBlock eraseBlockAndCheck
          dsimp only
          simp only [herase, Bool.not_false, if_true]
          split
          · rfl
          · split <;> rfl
        · by_contra hlarge
          rw [writeRepeatedData, if_pos (by omega)] at hwrite
          cases hwrite
      · exact ih h

/-! ### A block written where the search does not look -/

theorem writePhysPage_first (hrw : nld.readOnly = false) {d : Device} (hd : d.Healthy) (addr : Nat)
    (data : List Byte) (mode : OobMode) :
    writePhysPage nld addr (some data) none mode d
      = (true, d.record nld addr (d.flash.withBlock nld (d.flash.program addr (some data) none mode)
          (addr / nld.erasesize))) := by
  have hret : d.answer.writeRet = 0 := hd.answer.2.1
  simp only [writePhysPage, hrw, tryCount, writePhysPageTry, Device.writePage, hret]
  rfl

/-- Data that fits a page is written and verified on a device that does not fail; where a page is
larger than a block, what follows the block is there already. -/
theorem writeRepeatedLoop_healthy (hrw : nld.readOnly = false) {data : List Byte} {ba n addr : Nat}
    {d : Device} (hlen : data.length ≤ nld.writesize) (hd : d.Healthy)
    (hblock : ∀ k < n, (addr + k * nld.writesize) / nld.erasesize = ba)
    (hout : ∀ k < n, ∀ i < data.length, (addr + k * nld.writesize + i) / nld.erasesize ≠ ba →
      data[i]? = some (d.flash.mem (addr + k * nld.writesize + i))) :
    (writeRepeatedLoop nld data n addr d).1 = true := by
  induction n generalizing addr d with
  | zero => rfl
  | succ n ih =>
      have haddr : addr / nld.erasesize = ba := by
        have := hblock 0 n.succ_pos
        rwa [Nat.zero_mul, Nat.add_zero] at this
      rw [writeRepeatedLoop]
      set page := data ++ List.replicate (nld.writesize - data.length) 0xff with hpage
      set d₀ : Device := { d with pageCache := page ++ List.replicate nld.oobsize 0xff } with hd₀
      have hd₀h : d₀.Healthy := hd
      dsimp only
      rw [writePhysPage_first hrw hd₀h, haddr]
      set d₁ := d₀.record nld addr (d₀.flash.withBlock nld
        (d₀.flash.program addr (some page) none .placeOob) ba) with hd₁
      have hd₁h : d₁.Healthy := fun i hi => hd i ((Nat.le_succ _).trans hi)
      have hmem : ∀ x, d₁.flash.mem x
          = if x / nld.erasesize = ba then store d.flash.mem addr page x else d.flash.mem x := by
        intro x
        rfl
      simp only [Bool.not_true, Bool.false_eq_true, if_false]
      rw [if_neg (not_lt.mpr (readPhysPage_healthy nld hd₁h addr)),
        readPhysPage_data (readPhysPage_healthy nld hd₁h addr), take_bytesAt _ _ hlen]
      have hread : bytesAt d₁.flash.mem addr data.length = data := by
        apply List.ext_getElem?
        intro i
        by_cases hi : i < data.length
        · rw [getElem?_bytesAt _ _ _ _ hi, hmem]
          split
          · have hroom : data.length ≤ page.length := by
              simp [hpage]
            rw [store, if_pos (by omega), Nat.add_sub_cancel_left, hpage,
              List.getD_eq_getElem?_getD, List.getElem?_append_left hi, List.getElem?_eq_getElem hi]
            rfl
          · rename_i hne
            have := hout 0 n.succ_pos i hi (by rwa [Nat.zero_mul, Nat.add_zero])
            rw [this, Nat.zero_mul, Nat.add_zero]
        · rw [List.getElem?_eq_none (by rw [length_bytesAt]; omega),
            List.getElem?_eq_none (by omega)]
      rw [if_neg (by rw [hread]; simp)]
      have hflash := readPhysPage_flash nld addr d₁
      refine ih (((readPhysPage_touches nld ∅ addr d₁).cache _).healthy hd₁h) ?_ ?_
      · intro k hk
        rw [← hblock (k + 1) (by omega)]
        congr 1
        ring
      · intro k hk i hi hne
        have hshift : addr + nld.writesize + k * nld.writesize
            = addr + (k + 1) * nld.writesize := by
          ring
        simp only [hflash, hmem, hshift] at hne ⊢
        rw [if_neg hne]
        exact hout (k + 1) (by omega) i hi hne

/-- The device does not fail from here on and stores `f`. -/
def Stores (f : Flash) (d : Device) : Prop := d.Healthy ∧ d.flash = f

theorem findInPages_stores {f : Flash} {n addr : Nat} {d : Device} (hd : Stores f d) :
    Stores f (findInPages nld n addr d).2 := by
  induction n generalizing addr d with
  | zero => exact hd
  | succ n ih =>
      have hread : Stores f (readData nld addr signatureSize d).2 :=
        ⟨(readData_touches ∅ _ _ d).healthy hd.1, (readData_flash _ _ d).trans hd.2⟩
      rw [findInPages]
      split
      · exact hread
      · exact ih hread

theorem checkBadPhysBlock_stores (nld : LowerDevice) {f : Flash} {d : Device} (hd : Stores f d)
    (ba : Nat) :
    Stores f (checkBadPhysBlock nld ba d).2 :=
  ⟨(checkBadPhysBlock_touches nld ∅ ba d).healthy hd.1, (checkBadPhysBlock_flash ba d).trans hd.2⟩

theorem inspectBlock_stores {f : Flash} {d : Device} (hd : Stores f d) (ba : Nat) :
    Stores f (inspectBlock nld ba d).2 := by
  have hcheck := checkBadPhysBlock_stores nld hd ba
  unfold inspectBlock
  dsimp only
  split
  · exact hcheck
  · exact findInPages_stores hcheck

theorem deviceAfter_stores (nld : LowerDevice) {f : Flash} {d : Device} (hd : Stores f d)
    (n : Nat) : Stores f (deviceAfter nld d n) := by
  induction n with
  | zero => exact hd
  | succ n ih => exact inspectBlock_stores ih _

/-- Block `target` begins with a signature; every other block is marked bad. -/
def signedFlash (nld : LowerDevice) (target : Nat) : Flash where
  mem x := nld.newSignature.bytes.getD (x - nld.ba2addr target) 0xff
  oob addr _ := if addr = nld.ba2addr target then 0xff else 0

def signedDevice (nld : LowerDevice) (target : Nat) : Device where
  flash := signedFlash nld target
  tape _ := .good
  pos := 0
  ops := []
  pageCache := []

theorem signedDevice_stores (nld : LowerDevice) (target : Nat) :
    Stores (signedFlash nld target) (signedDevice nld target) :=
  ⟨fun _ _ => ⟨le_rfl, rfl, rfl, rfl, rfl⟩, rfl⟩

theorem signedFlash_marked (hpos : 0 < nld.erasesize) (target ba : Nat) :
    (signedFlash nld target).marked nld ba = decide (ba ≠ target) := by
  have haddr : nld.ba2addr ba = nld.ba2addr target ↔ ba = target :=
    Nat.mul_left_inj hpos.ne'
  by_cases hba : ba = target
  · simp [Flash.marked, signedFlash, hba]
  · simp [Flash.marked, signedFlash, haddr, hba]

theorem signedDevice_pageReads (hes : 0 < nld.erasesize) (hws : 0 < nld.writesize) (target : Nat) :
    PageReads nld (· = nld.newSignature.bytes) target (signedDevice nld target) := by
  set before := deviceAfter nld (signedDevice nld target) (nld.blockCount32 - 1 - target)
  have hbefore : Stores (signedFlash nld target) before :=
    deviceAfter_stores nld (signedDevice_stores nld target) _
  refine ⟨?_, 0, ?_, _, rfl, ?_⟩
  · rw [checkBadPhysBlock_healthy hbefore.1, hbefore.2, signedFlash_marked hes]
    simp
  · exact Nat.div_pos (by omega) hws
  · have hchecked := checkBadPhysBlock_stores nld hbefore target
    rw [afterPages, Nat.zero_mul, Nat.add_zero, readData_healthy hws hchecked.1, hchecked.2]
    congr 1
    apply List.ext_getElem?
    intro i
    by_cases hi : i < signatureSize
    · have hi' := (length_newSignature nld).symm ▸ hi
      rw [getElem?_bytesAt _ _ _ _ hi]
      simp [signedFlash, List.getD_eq_getElem?_getD, List.getElem?_eq_getElem hi']
    · have hlen := length_newSignature nld
      rw [List.getElem?_eq_none (by rw [length_bytesAt]; omega), List.getElem?_eq_none (by omega)]

theorem signedDevice_not_pageReads (hes : 0 < nld.erasesize) {target ba : Nat} (hne : ba ≠ target)
    (p : List Byte → Prop) : ¬ PageReads nld p ba (signedDevice nld target) := by
  intro hreads
  have hbefore := deviceAfter_stores nld (signedDevice_stores nld target)
    (nld.blockCount32 - 1 - ba)
  have hgood := hreads.1
  rw [checkBadPhysBlock_healthy hbefore.1, hbefore.2, signedFlash_marked hes] at hgood
  simp [hne] at hgood

/-- An instance on this device, whose block states have `target` for the only good block. -/
def signer (nld : LowerDevice) (target : Nat) : Sys where
  ni := { initStructure nld with
    blockState := setBlockStateRaw (List.replicate (target / 16 + 1) 0) target blockStGood }
  dev := signedDevice nld target
  hist := ⟨[], [], [], [], 0, 0, []⟩

theorem signer_getBlockState (nld : LowerDevice) (target ba : Nat) :
    (signer nld target).ni.getBlockState ba = blockStGood ↔ ba = target := by
  constructor
  · intro hgood
    by_contra hne
    have hother : (signer nld target).ni.getBlockState ba
        = getBlockStateRaw (List.replicate (target / 16 + 1) 0) ba :=
      getBlockStateRaw_set_of_ne _ _ hne
    have hzero : (List.replicate (target / 16 + 1) (0 : Word)).getD (ba / 16) 0 = 0 := by
      rw [List.getD_eq_getElem?_getD, List.getElem?_replicate]
      split <;> rfl
    rw [hother, getBlockStateRaw, hzero] at hgood
    simp [blockStGood] at hgood
  · rintro rfl
    exact getBlockStateRaw_set_self _ (by simp)

theorem LowerDevice.Checked.pages (hchk : nld.Checked) {k i : Nat} (hk : k < nld.pagesPerBlock)
    (hi : i < nld.writesize) : k * nld.writesize < nld.erasesize ∧
      (nld.erasesize ≤ k * nld.writesize + i → k = 0) := by
  have hws := pos_of_isPowerOf2 hchk.writesize
  have hes := pos_of_isPowerOf2 hchk.erasesize
  have hstart : k * nld.writesize < nld.erasesize := by
    have hle : (k + 1) * nld.writesize ≤ nld.erasesize + nld.writesize - 1 :=
      (Nat.le_div_iff_mul_le hws).mp hk
    rw [Nat.add_mul] at hle
    omega
  refine ⟨hstart, fun hcross => ?_⟩
  obtain ⟨a, ha⟩ := exists_pow_of_isPowerOf2 hchk.erasesize
  obtain ⟨b, hb⟩ := exists_pow_of_isPowerOf2 hchk.writesize
  by_cases hle : b ≤ a
  · -- whole pages: the page that starts in the block ends in it
    obtain ⟨m, hm⟩ : nld.writesize ∣ nld.erasesize := by
      rw [ha, hb]
      exact Nat.pow_dvd_pow 2 hle
    rw [hm, Nat.mul_comm] at hstart
    have hnext : nld.writesize * (k + 1) ≤ nld.writesize * m :=
      Nat.mul_le_mul_left _ (Nat.lt_of_mul_lt_mul_left hstart)
    rw [Nat.mul_add] at hnext
    rw [Nat.mul_comm] at hcross
    omega
  · have hsmall : nld.erasesize < nld.writesize := by
      rw [ha, hb]
      exact Nat.pow_lt_pow_right (by norm_num) (by omega)
    by_contra hne
    have := Nat.mul_le_mul_right nld.writesize (show 1 ≤ k by omega)
    omega

/-- The signature is written to the only good block, wherever that is. -/
theorem writeSignatureLoop_signer (hchk : nld.Checked) (hrw : nld.readOnly = false)
    (hfits : signatureSize ≤ nld.writesize) (target n : Nat) :
    (writeSignatureLoop nld nld.newSignature.bytes (n + 1) (target + n) (signer nld target)).1
      = some target := by
  have hes := pos_of_isPowerOf2 hchk.erasesize
  induction n with
  | succ n ih =>
      have hskip : prepareBlock nld (target + (n + 1)) (signer nld target)
          = (false, signer nld target) := by
        rw [prepareBlock, if_pos]
        rw [Ne, signer_getBlockState]
        omega
      rw [writeSignatureLoop]
      dsimp only
      rw [hskip]
      exact ih
  | zero =>
      have hsigned := signedDevice_stores nld target
      have hstores := checkBadPhysBlock_stores nld hsigned target
      set d := (checkBadPhysBlock nld target (signedDevice nld target)).2 with hd
      set e := eraseBlockAndCheck nld target d with he
      have hgood : (checkBadPhysBlock nld target (signedDevice nld target)).1 = false := by
        rw [checkBadPhysBlock_healthy hsigned.1, hsigned.2, signedFlash_marked hes]
        simp
      have herased : e.1 = true := eraseBlockAndCheck_healthy hrw hstores.1 target
      have htouch : Touches nld {target} d e.2 := eraseBlockAndCheck_touches hes target d
      have hprep : (prepareBlock nld target (signer nld target)).1 = true ∧
          (prepareBlock nld target (signer nld target)).2.dev = e.2 := by
        rw [prepareBlock, if_neg (not_not.mpr ((signer_getBlockState nld target target).mpr rfl))]
        dsimp only
        rw [show (signer nld target).dev = signedDevice nld target from rfl, hgood, ← hd, ← he,
          herased]
        exact ⟨rfl, rfl⟩
      have hwritten : (writeRepeatedData nld target nld.newSignature.bytes e.2).1 = true := by
        have hlen := length_newSignature nld
        rw [writeRepeatedData, if_neg (by omega)]
        apply writeRepeatedLoop_healthy hrw (by omega) (htouch.healthy hstores.1)
        · intro k hk
          have hstart := (hchk.pages hk (pos_of_isPowerOf2 hchk.writesize)).1
          exact div_eq_of_block (Nat.le_add_right _ _) (by omega)
        · intro k hk i hi hne
          -- bytes past the block's end are those of the first and only page
          have hzero : k = 0 := by
            apply (hchk.pages hk (show i < nld.writesize by omega)).2
            by_contra hin
            exact hne (div_eq_of_block (by omega) (by omega))
          have hsame := (htouch.agreeOff _ (by simpa using hne) _ rfl).1
          rw [← hsame, hstores.2, signedFlash, hzero]
          simp [List.getD_eq_getElem?_getD, List.getElem?_eq_getElem hi]
      rw [writeSignatureLoop, Nat.add_zero]
      dsimp only
      rw [hprep.1]
      simp only [Bool.not_true, Bool.false_eq_true, if_false]
      rw [hprep.2, if_pos hwritten]

/-! ### A blank chip -/

def blankFlash : Flash := ⟨fun _ => 0xff, fun _ _ => 0xff⟩

theorem bytesAt_blankFlash (addr n : Nat) :
    bytesAt blankFlash.mem addr n = List.replicate n 0xff := by
  apply List.ext_getElem?
  intro i
  by_cases hi : i < n
  · rw [getElem?_bytesAt _ _ _ _ hi, List.getElem?_replicate, if_pos hi]
    rfl
  · rw [List.getElem?_eq_none (by rw [length_bytesAt]; omega),
      List.getElem?_eq_none (by rw [List.length_replicate]; omega)]

theorem inspectBlock_blank (hws : 0 < nld.writesize) {ba : Nat} {d : Device}
    (hd : Stores blankFlash d) : (inspectBlock nld ba d).1 = none := by
  have hpages : ∀ n addr (d : Device), Stores blankFlash d →
      (findInPages nld n addr d).1 = none := by
    intro n
    induction n with
    | zero =>
        intro addr d _
        rfl
    | succ n ih =>
        intro addr d hd
        have hread := readData_healthy hws hd.1 addr signatureSize
        rw [hd.2, bytesAt_blankFlash] at hread
        rw [findInPages, hread, if_neg (by decide)]
        exact ih _ _ ⟨(readData_touches ∅ _ _ d).healthy hd.1, (readData_flash _ _ d).trans hd.2⟩
  unfold inspectBlock
  dsimp only
  split
  · rfl
  · exact hpages _ _ _ (checkBadPhysBlock_stores nld hd ba)

/-- Without a limit the search of a blank chip does not come to an end. -/
theorem findSignatureLoop_blank (hws : 0 < nld.writesize) (hlimit : nld.signatureLimit = 0)
    {n ba : Nat} {d : Device} (hd : Stores blankFlash d) :
    (findSignatureLoop nld n ba d).1 = .running := by
  induction n generalizing ba d with
  | zero => rfl
  | succ n ih =>
      rw [findSignatureLoop_succ, if_neg (by omega), inspectBlock_blank hws hd]
      exact ih (inspectBlock_stores hd _)

theorem blankDevice_stores : Stores blankFlash (blankDevice []) :=
  ⟨blankDevice_healthy [], by simp [blankDevice, blankFlash]⟩

/-! ### The search as a whole -/

/-- Whatever the chip stores and the device answers, the search ends, and every block it inspects is
a block of the chip. -/
def SearchEnds (nld : LowerDevice) : Prop :=
  ∀ d, (∃ n, (findSignatureLoop nld n nld.blockCount32 d).1 ≠ .running) ∧
    ∀ n, ∀ b ∈ inspectedLoop nld n nld.blockCount32 d, b < nld.blockCount32

/-- The search finds the block `nmbm_write_signature` reported, if one of its pages still reads back
and no higher block reads as a valid signature. -/
def SearchFindsWritten (nld : LowerDevice) : Prop :=
  ∀ s ba, (writeSignature nld nld.mgmtStart nld.newSignature.bytes s).1 = some ba →
    ∀ d, (∀ b, ba < b → b < nld.blockCount32 → ¬ PageReads nld ValidSignature b d) →
      PageReads nld (· = nld.newSignature.bytes) ba d →
      ∃ n sig, (findSignatureLoop nld n nld.blockCount32 d).1 = .found (ba, sig)

theorem searchEnds_iff (hchk : nld.Checked) : SearchEnds nld ↔ 16 ≤ nld.blockCount32 := by
  have hlt : nld.blockCount32 < 2 ^ 32 := Nat.mod_lt _ (by norm_num)
  constructor
  · intro hends
    by_contra hfew
    obtain ⟨n, hn⟩ := (hends (blankDevice [])).1
    have hlimit := hchk.signatureLimit_eq_zero (by omega)
    exact hn (findSignatureLoop_blank (pos_of_isPowerOf2 hchk.writesize) hlimit blankDevice_stores)
  · intro hmany d
    obtain ⟨hpos, -, -⟩ := hchk.limits hmany
    exact ⟨⟨_, findSignatureLoop_ends hpos hlt (Nat.lt_succ_self _) d⟩,
      fun n => inspectedLoop_lt hpos hlt d⟩

/-- If the writer's boundary is too low, a chip whose only good block is right above it is signed
there, where the search does not look. -/
theorem not_searchFindsWritten (hchk : nld.Checked) (hmany : 16 ≤ nld.blockCount32)
    (happart : ¬ BoundariesMeet nld) (hrw : nld.readOnly = false)
    (hfits : signatureSize ≤ nld.writesize) : ¬ SearchFindsWritten nld := by
  intro hfinds
  have hes := pos_of_isPowerOf2 hchk.erasesize
  obtain ⟨hpos, hchip, hmeet⟩ := hchk.limits hmany
  rw [← hmeet] at happart
  have hwritten := writeSignatureLoop_signer hchk hrw hfits (nld.mgmtStart + 1)
    (nld.blockCount - 2 - nld.mgmtStart)
  rw [show nld.mgmtStart + 1 + (nld.blockCount - 2 - nld.mgmtStart) = nld.blockCount - 1 by omega,
    show nld.blockCount - 2 - nld.mgmtStart + 1 = nld.blockCount - 1 - nld.mgmtStart by omega]
    at hwritten
  obtain ⟨n, sig, hfound⟩ := hfinds _ _ hwritten (signedDevice nld (nld.mgmtStart + 1))
    (fun b hb _ => signedDevice_not_pageReads hes (by omega) _)
    (signedDevice_pageReads hes (pos_of_isPowerOf2 hchk.writesize) _)
  have := findSignatureLoop_found hpos (Nat.mod_lt _ (by norm_num)) hfound
  omega

theorem searchFindsWritten (hchk : nld.Checked) (hmany : 16 ≤ nld.blockCount32)
    (hcond : BoundariesMeet nld ∨ nld.readOnly = true ∨ nld.writesize < signatureSize) :
    SearchFindsWritten nld := by
  obtain ⟨-, -, hmeet⟩ := hchk.limits hmany
  obtain ⟨hcount, -⟩ := hchk.blockCount32 hmany
  intro s ba hwritten d hnone hreads
  obtain ⟨hrw, hfits⟩ := writeSignatureLoop_writable hwritten
  obtain ⟨hlo, hhi⟩ := writeSignatureLoop_some (by omega) hwritten
  have hlen := length_newSignature nld
  have hreach : nld.signatureLimit ≤ nld.mgmtStart + 2 := by
    rcases hcond with hmeets | hro | hsmall
    · exact hmeet.mpr hmeets
    · rw [hrw] at hro
      cases hro
    · omega
  obtain ⟨sig, hfound⟩ := findSignature_finds (Nat.mod_lt _ (by norm_num)) (by omega) (by omega)
    hnone (hreads.mono (by rintro bytes rfl; exact newSignature_valid nld))
  exact ⟨_, sig, hfound⟩

/-- The search of an accepted device always ends on the chip and finds what was written, if and only
if the chip has 16 blocks and either the two boundaries meet or no block is ever reported. -/
theorem findSignature_iff {given : LowerDevice} (hchecked : checkLowerMembers given = some nld) :
    SearchEnds nld ∧ SearchFindsWritten nld ↔
      16 ≤ nld.blockCount32 ∧
        (BoundariesMeet nld ∨ nld.readOnly = true ∨ nld.writesize < signatureSize) := by
  have hchk := checkLowerMembers_checked hchecked
  rw [searchEnds_iff hchk, and_congr_right_iff]
  intro hmany
  constructor
  · intro hfinds
    by_contra hfail
    push Not at hfail
    obtain ⟨happart, hrw, hfits⟩ := hfail
    exact not_searchFindsWritten hchk hmany happart (by simpa using hrw) hfits hfinds
  · exact searchFindsWritten hchk hmany

theorem findSignature_smallChip :
    SearchEnds (smallChip 16 8) ∧ SearchFindsWritten (smallChip 16 8) :=
  have hchecked : checkLowerMembers (smallChip 16 8) = some (smallChip 16 8) := by decide
  (findSignature_iff hchecked).mpr ⟨by decide, .inl (.inl (by decide))⟩

set_option maxRecDepth 100000 in
/-- A blank chip of eight blocks is accepted, and searched for ever from block `2 ^ 32 - 1` down. -/
theorem findSignature_endless :
    checkLowerMembers (smallChip 8 1) = some (smallChip 8 1) ∧
    (∀ n, (findSignatureLoop (smallChip 8 1) n (smallChip 8 1).blockCount32 (blankDevice [])).1
      = .running) ∧
    2 ^ 32 - 1 ∈ inspectedLoop (smallChip 8 1) 9 (smallChip 8 1).blockCount32 (blankDevice []) := by
  refine ⟨by decide, ?_, by decide +kernel⟩
  intro n
  exact findSignatureLoop_blank (by decide) (by decide) blankDevice_stores

end Immwrt.Nmbm
