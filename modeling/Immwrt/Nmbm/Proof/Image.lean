import Immwrt.Nmbm.Proof.Create
import Immwrt.Nmbm.Proof.Load

/-!
# Table images

An image holds its tables where its header says, and its checksum, which is written in one piece and
checked in two, is right. So a table in consecutive blocks is loaded as it was written. The reader
does not look further than the writer would have needed without bad blocks: a table with a gap is
lost.
-/

namespace Immwrt.Nmbm

variable {nld : LowerDevice} {s s' : Sys}

/-! ### Checksums -/

theorem zeroChecksum_slice {buf : List Byte} {off n : Nat} (hlen : hdrChecksum ≤ buf.length)
    (hoff : off + n ≤ hdrChecksum ∨ headerSize ≤ off) :
    slice (zeroChecksum buf) off n = slice buf off n :=
  slice_splice_of_disjoint hlen hoff

theorem length_zeroChecksum {buf : List Byte} (hlen : headerSize ≤ buf.length) :
    (zeroChecksum buf).length = buf.length :=
  length_splice (by simpa [hdrChecksum, headerSize] using hlen)

theorem length_updateChecksum {buf : List Byte} (hlen : headerSize ≤ buf.length) :
    (updateChecksum buf).length = buf.length := by
  have hzero := length_zeroChecksum hlen
  unfold updateChecksum
  rw [length_splice, hzero]
  simpa [hdrChecksum, headerSize, hzero] using hlen

/-- Nothing but the checksum changes. -/
theorem updateChecksum_slice {buf : List Byte} {off n : Nat} (hlen : headerSize ≤ buf.length)
    (hoff : off + n ≤ hdrChecksum ∨ headerSize ≤ off) :
    slice (updateChecksum buf) off n = slice buf off n := by
  have hle : hdrChecksum ≤ headerSize := by decide
  unfold updateChecksum
  rw [slice_splice_of_disjoint, zeroChecksum_slice (hle.trans hlen) hoff]
  · rw [length_zeroChecksum hlen]
    exact hle.trans hlen
  · simpa [hdrChecksum, headerSize] using hoff

theorem zeroChecksum_updateChecksum {buf : List Byte} (hlen : headerSize ≤ buf.length) :
    zeroChecksum (updateChecksum buf) = zeroChecksum buf := by
  have hle : hdrChecksum ≤ buf.length := le_trans (by decide) hlen
  unfold updateChecksum zeroChecksum
  have hlen' : hdrChecksum ≤ (splice buf hdrChecksum (u32le 0)).length := by
    rwa [show splice buf hdrChecksum (u32le 0) = zeroChecksum buf from rfl,
      length_zeroChecksum hlen]
  rw [splice_splice_self hlen' (by simp), splice_splice_self hle (by simp)]

/-- A header whose checksum was just updated checks. -/
theorem checkHeader_updateChecksum {buf : List Byte} {size : Nat} (hlen : headerSize ≤ buf.length)
    (hsize : (getU32 buf hdrSize).toNat ≤ size) (hhdr : headerSize ≤ (getU32 buf hdrSize).toNat) :
    checkHeader (updateChecksum buf) size = true := by
  set n := (getU32 buf hdrSize).toNat with hn
  have hsize' : getU32 (updateChecksum buf) hdrSize = getU32 buf hdrSize :=
    getU32_congr (updateChecksum_slice hlen (.inl (by decide)))
  have hzero := length_zeroChecksum hlen
  have hrest : slice (updateChecksum buf) headerSize (n - headerSize)
      = ((zeroChecksum buf).drop headerSize).take (n - headerSize) := by
    rw [updateChecksum_slice hlen (.inr le_rfl),
      ← zeroChecksum_slice (le_trans (by decide) hlen) (.inr le_rfl)]
    rfl
  have hsum : getU32 (updateChecksum buf) hdrChecksum = crc32 0 ((zeroChecksum buf).take n) := by
    apply getU32_of_slice
    unfold updateChecksum
    rw [← hn]
    apply slice_splice_self
    rw [hzero]
    exact le_trans (by decide) hlen
  have hpieces : (zeroChecksum buf).take n = (zeroChecksum buf).take headerSize ++
      ((zeroChecksum buf).drop headerSize).take (n - headerSize) := by
    conv_lhs => rw [show n = headerSize + (n - headerSize) by omega, List.take_add]
  unfold checkHeader
  dsimp only
  rw [hsize', ← hn, if_neg (by omega), zeroChecksum_updateChecksum hlen, hsum, hpieces,
    crc32_append, hrest]
  split
  · simp
  · rename_i hle
    have hzero' : n - headerSize = 0 := by omega
    simp [hzero', crc32]

/-! ### Images -/

/-- A header and tables an image can hold. -/
structure Formatted (nld : LowerDevice) (hdr : InfoTableHeader) (blockState : List Word)
    (blockMapping : List Int) : Prop where
  magic : hdr.magic = magicInfoTable
  size : hdr.size = BitVec.ofNat 32 nld.infoTableSize
  stateTableOff : hdr.stateTableOff = BitVec.ofNat 32 nld.stateTableOff
  mappingTableOff : hdr.mappingTableOff = BitVec.ofNat 32 nld.mappingTableOff
  stateLength : blockState.length = nld.stateWords
  mappingLength : blockMapping.length = nld.blockCount
  range : ∀ v ∈ blockMapping, -2 ^ 31 ≤ v ∧ v < 2 ^ 31

/-- Where the parts of an image are. -/
theorem Geometry.layout (hg : Geometry nld) :
    infoTableHeaderSize ≤ nld.stateTableOff ∧
      nld.stateTableOff + 4 * nld.stateWords ≤ nld.mappingTableOff ∧
      nld.mappingTableOff + 4 * nld.blockCount ≤ nld.infoTableSize := by
  have hstate := le_align nld.stateTableSize hg.writesize_pos
  have hmapping := le_align nld.mappingTableSize hg.writesize_pos
  refine ⟨le_align _ hg.writesize_pos, ?_, ?_⟩
  · unfold LowerDevice.mappingTableOff
    unfold LowerDevice.stateTableSize at hstate ⊢
    omega
  · unfold LowerDevice.infoTableSize
    unfold LowerDevice.mappingTableSize at hmapping ⊢
    omega

theorem toNat_ofNat_word {n : Nat} (h : n < 2 ^ 32) : (BitVec.ofNat 32 n).toNat = n := by
  rw [BitVec.toNat_ofNat, Nat.mod_eq_of_lt h]

theorem toInt32_ofInt32 {v : Int} (hlo : -2 ^ 31 ≤ v) (hhi : v < 2 ^ 31) :
    toInt32 (ofInt32 v) = v := by
  unfold toInt32 ofInt32
  rw [BitVec.toInt_ofInt, Int.bmod_eq_of_le] <;> omega

section

variable {hdr : InfoTableHeader} {blockState : List Word} {blockMapping : List Int}

/-- The image before its checksum is written. -/
def imageBody (nld : LowerDevice) (hdr : InfoTableHeader) (blockState : List Word)
    (blockMapping : List Int) : List Byte :=
  splice (splice (splice (List.replicate nld.infoTableSize 0xff) hdr.stateTableOff.toNat
    (wordsLe blockState)) hdr.mappingTableOff.toNat (wordsLe (blockMapping.map ofInt32))) 0 hdr.bytes

theorem length_hdr_bytes (hdr : InfoTableHeader) : hdr.bytes.length = infoTableHeaderSize := by
  rw [InfoTableHeader.bytes, length_wordsLe]
  rfl

/-- What is where in the image. -/
theorem imageBody_slices (hg : Geometry nld) (hf : Formatted nld hdr blockState blockMapping) :
    (imageBody nld hdr blockState blockMapping).length = nld.infoTableSize ∧
      slice (imageBody nld hdr blockState blockMapping) 0 infoTableHeaderSize = hdr.bytes ∧
      slice (imageBody nld hdr blockState blockMapping) nld.stateTableOff (4 * nld.stateWords)
        = wordsLe blockState ∧
      slice (imageBody nld hdr blockState blockMapping) nld.mappingTableOff (4 * nld.blockCount)
        = wordsLe (blockMapping.map ofInt32) := by
  obtain ⟨hstate, hmapping, hend⟩ := hg.layout
  have hfits := hg.fits
  have hso : hdr.stateTableOff.toNat = nld.stateTableOff := by
    rw [hf.stateTableOff, toNat_ofNat_word (by omega)]
  have hmo : hdr.mappingTableOff.toNat = nld.mappingTableOff := by
    rw [hf.mappingTableOff, toNat_ofNat_word (by omega)]
  have hslen : (wordsLe blockState).length = 4 * nld.stateWords := by
    rw [length_wordsLe, hf.stateLength]
  have hmlen : (wordsLe (blockMapping.map ofInt32)).length = 4 * nld.blockCount := by
    rw [length_wordsLe, List.length_map, hf.mappingLength]
  have hhlen := length_hdr_bytes hdr
  unfold imageBody
  rw [hso, hmo]
  set blank := List.replicate nld.infoTableSize (0xff : Byte) with hblank
  have hblank' : blank.length = nld.infoTableSize := List.length_replicate
  set withState := splice blank nld.stateTableOff (wordsLe blockState) with hwithState
  have hwithState' : withState.length = nld.infoTableSize := by
    rw [hwithState, length_splice (by omega), hblank']
  set withMapping := splice withState nld.mappingTableOff (wordsLe (blockMapping.map ofInt32))
    with hwithMapping
  have hwithMapping' : withMapping.length = nld.infoTableSize := by
    rw [hwithMapping, length_splice (by omega), hwithState']
  refine ⟨by rw [length_splice (by omega), hwithMapping'], ?_, ?_, ?_⟩
  · rw [← hhlen]
    exact slice_splice_self (Nat.zero_le _)
  · rw [slice_splice_of_disjoint (Nat.zero_le _) (by omega),
      hwithMapping, slice_splice_of_disjoint (by omega) (by omega), ← hslen]
    exact slice_splice_self (by omega)
  · rw [slice_splice_of_disjoint (Nat.zero_le _) (by omega), ← hmlen]
    exact slice_splice_self (by omega)

/-- The words of a header, read from its bytes. -/
theorem getU32_hdr_bytes {buf : List Byte} (h : slice buf 0 infoTableHeaderSize = hdr.bytes) :
    getWords buf 0 8 = [hdr.magic, hdr.version, hdr.size, hdr.checksum, hdr.writeCount,
      hdr.stateTableOff, hdr.mappingTableOff, hdr.padding] :=
  @getWords_of_slice [hdr.magic, hdr.version, hdr.size, hdr.checksum, hdr.writeCount,
    hdr.stateTableOff, hdr.mappingTableOff, hdr.padding] buf 0 h

/-- The header of an image is the one it was made with, but for the checksum. -/
theorem ofBytes_infoTableImage (hg : Geometry nld) (hf : Formatted nld hdr blockState blockMapping) :
    InfoTableHeader.ofBytes (infoTableImage nld hdr blockState blockMapping)
      = { hdr with
          checksum := getU32 (infoTableImage nld hdr blockState blockMapping) hdrChecksum } := by
  obtain ⟨hlen, hhdr, -, -⟩ := imageBody_slices hg hf
  have hle : headerSize ≤ (imageBody nld hdr blockState blockMapping).length := by
    rw [hlen]
    exact le_trans (by decide) hg.header_le
  have hword : ∀ off, off + 4 ≤ hdrChecksum ∨ headerSize ≤ off →
      getU32 (infoTableImage nld hdr blockState blockMapping) off
        = getU32 (imageBody nld hdr blockState blockMapping) off :=
    fun off hoff => getU32_congr (updateChecksum_slice hle hoff)
  have hwords := getU32_hdr_bytes hhdr
  simp only [getWords, Nat.zero_add, Nat.reduceAdd, List.cons.injEq] at hwords
  obtain ⟨h0, h4, h8, -, h16, h20, h24, h28, -⟩ := hwords
  unfold InfoTableHeader.ofBytes
  rw [hword 0 (by decide), hword 4 (by decide), hword 8 (by decide), hword 16 (by decide),
    hword 20 (by decide), hword 24 (by decide), hword 28 (by decide), h0, h4, h8, h16, h20, h24, h28]
  rfl

/-- An image has the size of an info table, passes both checks of its header, and holds the tables it
was made from. -/
theorem infoTableImage_spec (hg : Geometry nld) (hf : Formatted nld hdr blockState blockMapping) :
    (infoTableImage nld hdr blockState blockMapping).length = nld.infoTableSize ∧
      checkInfoTableHeader nld (infoTableImage nld hdr blockState blockMapping) = true ∧
      checkHeader (infoTableImage nld hdr blockState blockMapping) nld.infoTableSize = true ∧
      imageState nld (infoTableImage nld hdr blockState blockMapping) = blockState ∧
      imageMapping nld (infoTableImage nld hdr blockState blockMapping) = blockMapping := by
  obtain ⟨hlen, hhdr, hstate, hmapping⟩ := imageBody_slices hg hf
  obtain ⟨hso, hmo, hend⟩ := hg.layout
  have hfits := hg.fits
  have hheader := ofBytes_infoTableImage hg hf
  have hsmall : headerSize ≤ infoTableHeaderSize := by decide
  have hle : headerSize ≤ (imageBody nld hdr blockState blockMapping).length := by omega
  have hsize : getU32 (imageBody nld hdr blockState blockMapping) hdrSize = hdr.size := by
    have hwords := getU32_hdr_bytes hhdr
    simp only [getWords, Nat.zero_add, Nat.reduceAdd, List.cons.injEq] at hwords
    exact hwords.2.2.1
  have hsize' : hdr.size.toNat = nld.infoTableSize := by rw [hf.size, toNat_ofNat_word hfits]
  have hstateOff : hdr.stateTableOff.toNat = nld.stateTableOff := by
    rw [hf.stateTableOff, toNat_ofNat_word (by omega)]
  have hmappingOff : hdr.mappingTableOff.toNat = nld.mappingTableOff := by
    rw [hf.mappingTableOff, toNat_ofNat_word (by omega)]
  have hbody : ∀ {off n : Nat}, headerSize ≤ off →
      slice (infoTableImage nld hdr blockState blockMapping) off n
        = slice (imageBody nld hdr blockState blockMapping) off n :=
    fun hoff => updateChecksum_slice hle (.inr hoff)
  refine ⟨?_, ?_, ?_, ?_, ?_⟩
  · exact (length_updateChecksum hle).trans hlen
  · unfold checkInfoTableHeader
    rw [hheader]
    simp only [hf.magic, hf.size, hf.stateTableOff, hf.mappingTableOff, beq_self_eq_true,
      Bool.true_and, Bool.and_eq_true, decide_eq_true_eq]
    unfold LowerDevice.stateTableSize LowerDevice.mappingTableSize
    rw [BitVec.toNat_sub_of_le, BitVec.toNat_sub_of_le, toNat_ofNat_word (by omega),
      toNat_ofNat_word (by omega), toNat_ofNat_word hfits]
    · omega
    · rw [BitVec.le_def, toNat_ofNat_word (by omega), toNat_ofNat_word hfits]
      omega
    · rw [BitVec.le_def, toNat_ofNat_word (by omega), toNat_ofNat_word (by omega)]
      omega
  · apply checkHeader_updateChecksum hle
    · show (getU32 (imageBody nld hdr blockState blockMapping) hdrSize).toNat ≤ _
      rw [hsize, hsize']
    · show _ ≤ (getU32 (imageBody nld hdr blockState blockMapping) hdrSize).toNat
      rw [hsize, hsize']
      omega
  · unfold imageState
    rw [hheader]
    simp only [hstateOff]
    rw [← hf.stateLength]
    apply getWords_of_slice
    rw [hbody (by omega), hf.stateLength, hstate]
  · unfold imageMapping
    rw [hheader]
    simp only [hmappingOff]
    have hwords : getWords (infoTableImage nld hdr blockState blockMapping) nld.mappingTableOff
        (blockMapping.map ofInt32).length = blockMapping.map ofInt32 := by
      apply getWords_of_slice
      rw [hbody (by omega), List.length_map, hf.mappingLength, hmapping]
    rw [List.length_map, hf.mappingLength] at hwords
    rw [hwords, List.map_map]
    have hid : blockMapping.map (toInt32 ∘ ofInt32) = blockMapping.map id :=
      List.map_congr_left fun v hv => toInt32_ofInt32 (hf.range v hv).1 (hf.range v hv).2
    rw [hid, List.map_id]

end

/-! ### Writing and loading -/

theorem Geometry.blockCount_pos (hg : Geometry nld) : 0 < nld.blockCount := by
  obtain ⟨herase, -, hsize, -⟩ := hg.members
  exact Nat.div_pos (Nat.le_of_dvd hsize hg.erasesize_dvd) herase

theorem Geometry.stateWords_lt (hg : Geometry nld) : nld.stateWords * 16 < 2 ^ 31 := by
  have hlayout := hg.layout
  have hfits := hg.fits
  have hword : nld.stateWords * 16 < nld.blockCount + 16 := by
    unfold LowerDevice.stateWords
    omega
  omega

/-- An instance that is about to load: no block is known to be bad yet. -/
def loader (nld : LowerDevice) (dataBlockCount signatureBa : Nat) (d : Device) : Sys :=
  { fresh nld d with
    ni := { initStructure nld with dataBlockCount := dataBlockCount, signatureBa := signatureBa } }

theorem allOnes_good {n ba : Nat} (h : ba / 16 < n) :
    getBlockStateRaw (List.replicate n (BitVec.allOnes 32)) ba = blockStGood := by
  unfold getBlockStateRaw
  rw [List.getD_eq_getElem?_getD, List.getElem?_replicate, if_pos h, Option.getD_some]
  apply BitVec.eq_of_getLsbD_eq
  intro i hi
  have hbit : ba % 16 * 2 + i < 32 := by omega
  have hgood : blockStGood.getLsbD i = true := by
    interval_cases i <;> rfl
  rw [BitVec.getLsbD_extractLsb', BitVec.getLsbD_allOnes, hgood]
  simp [hi, hbit]

/-- What the check of a table amounts to, for an instance that knows no bad block. -/
theorem checkInfoTable_isSome {ni : Instance} {a e : Nat} {data : List Byte}
    (he : e ≤ 2 ^ 31) (hsig : ni.signatureBa < 2 ^ 31) :
    (checkInfoTable nld ni a e data).isSome = true ↔
      (∀ lb, lb < ni.dataBlockCount → 0 ≤ tableTarget nld data lb →
        (tableTarget nld data lb < ni.dataBlockCount ∨ e ≤ tableTarget nld data lb) ∧
          tableTarget nld data lb ≠ ni.signatureBa) ∧
      ∀ ba, a ≤ ba → ba < e → ni.getBlockState ba = blockStGood →
        getBlockStateRaw (imageState nld data) ba = blockStGood := by
  have hbad : ((imageMapping nld data).take ni.dataBlockCount).any (badMapping ni e) = false ↔
      ∀ lb, lb < ni.dataBlockCount → 0 ≤ tableTarget nld data lb →
        (tableTarget nld data lb < ni.dataBlockCount ∨ e ≤ tableTarget nld data lb) ∧
          tableTarget nld data lb ≠ ni.signatureBa := by
    rw [List.any_eq_false]
    constructor
    · intro h lb hlb hnn
      have hv := asUInt32_of_nonneg hnn (tableTarget_range nld data lb).2
      have hbad := h _ (tableTarget_mem_take hlb hnn)
      simp only [badMapping, Bool.or_eq_true, Bool.and_eq_true, decide_eq_true_eq,
        beq_iff_eq] at hbad
      omega
    · intro h v hv
      obtain ⟨lb, hlb, rfl⟩ := mem_take_imageMapping hv
      have hrange := tableTarget_range nld data lb
      simp only [badMapping, Bool.or_eq_true, Bool.and_eq_true, decide_eq_true_eq, beq_iff_eq]
      by_cases hnn : 0 ≤ tableTarget nld data lb
      · have hv := asUInt32_of_nonneg hnn hrange.2
        have := h lb hlb hnn
        omega
      · have := asUInt32_of_neg hrange.1 (by omega)
        omega
  have hstate : ((List.range' a (e - a)).any fun ba => decide (ni.getBlockState ba = blockStGood ∧
        getBlockStateRaw (imageState nld data) ba ≠ blockStGood)) = false ↔
      ∀ ba, a ≤ ba → ba < e → ni.getBlockState ba = blockStGood →
        getBlockStateRaw (imageState nld data) ba = blockStGood := by
    rw [List.any_eq_false]
    constructor
    · intro h ba hlo hhi hgood
      have := h ba (List.mem_range'_1.mpr ⟨hlo, by omega⟩)
      simpa [hgood] using this
    · intro h ba hmem
      rw [List.mem_range'_1] at hmem
      simp only [decide_eq_true_eq, not_and, not_not]
      exact h ba hmem.1 (by omega)
  rw [← hbad, ← hstate]
  unfold checkInfoTable
  dsimp only
  split
  · rename_i h1
    simp [h1]
  · rename_i h1
    split
    · rename_i h2
      simp only [h2, Option.isSome_none, Bool.false_eq_true, Bool.true_eq_false, and_false]
    · rename_i h2
      simp only [Option.isSome_some, true_iff]
      exact ⟨by simpa using h1, by simpa using h2⟩

/-- A block that does not hold a header: the reader's cache still has zeros where the offsets are. -/
theorem readTableLoop_no_header (hg : Geometry nld) (hsmall : nld.erasesize < infoTableHeaderSize)
    (hd : s.dev.Healthy) (hzero : getU32 s.ni.infoTableCache 20 = getU32 s.ni.infoTableCache 24)
    (n ba : Nat) : (readTableLoop nld n ba 0 none s).1 = none := by
  have hsize : 0 < nld.infoTableSize := lt_of_lt_of_le (by decide) hg.header_le
  have herase : nld.erasesize ≤ 16 := by
    have hpow : isPowerOf2 nld.erasesize = true := by
      have hchecked := hg.checked
      unfold checkLowerMembers at hchecked
      by_contra hnot
      simp [hnot] at hchecked
    have hall : ∀ k < infoTableHeaderSize, isPowerOf2 k = true → k ≤ 16 := by decide
    exact hall _ hsmall hpow
  induction n generalizing ba s with
  | zero =>
      rw [readTableLoop, if_neg (by omega)]
  | succ n ih =>
      by_cases hgood : s.ni.getBlockState ba = blockStGood
      · rw [readTableLoop_succ n ba 0 none s (by omega) hgood]
        dsimp only
        have hd' := (checkBadPhysBlock_touches nld ∅ ba s.dev).healthy hd
        split
        · exact ih (s := Sys.setBad { s with dev := (checkBadPhysBlock nld ba s.dev).2 } ba) hd' hzero _
        rw [readData_healthy hg.writesize_pos hd']
        rw [if_neg (lt_irrefl _), if_neg (lt_irrefl _), if_pos]
        simp only [Option.isNone_none, Bool.true_and, Bool.not_eq_true', List.drop_zero]
        have hcache : (afterChunk nld ba 0 s).ni.infoTableCache = splice s.ni.infoTableCache 0
            (bytesAt s.dev.flash.mem (nld.ba2addr ba) (min nld.infoTableSize nld.erasesize)) := by
          simp only [afterChunk, Nat.sub_zero, readData_healthy hg.writesize_pos hd', checkBadPhysBlock_flash]
        have hword : ∀ off, 16 ≤ off → getU32 (afterChunk nld ba 0 s).ni.infoTableCache off
            = getU32 s.ni.infoTableCache off := by
          intro off hoff
          rw [hcache]
          apply getU32_congr
          apply slice_splice_of_disjoint (Nat.zero_le _)
          rw [length_bytesAt]
          omega
        have hwords : 0 < nld.stateTableSize := by
          have := hg.blockCount_pos
          unfold LowerDevice.stateTableSize LowerDevice.stateWords
          omega
        unfold checkInfoTableHeader InfoTableHeader.ofBytes
        simp only [hword 20 (by omega), hword 24 (by omega), hzero, BitVec.sub_self]
        simp
        omega
      · rw [readTableLoop, if_neg (by omega), if_pos hgood]
        exact ih hd hzero (ba + 1)

/-- The arrays of an instance have the sizes they were allocated with, and the offsets of its header
are those of the geometry. -/
structure Sized (nld : LowerDevice) (s : Sys) : Prop where
  stateTableOff : s.ni.infoTable.stateTableOff = BitVec.ofNat 32 nld.stateTableOff
  mappingTableOff : s.ni.infoTable.mappingTableOff = BitVec.ofNat 32 nld.mappingTableOff
  stateLength : s.ni.blockState.length = nld.stateWords
  mappingLength : s.ni.blockMapping.length = nld.blockCount
  range : ∀ v ∈ s.ni.blockMapping, -2 ^ 31 ≤ v ∧ v < 2 ^ 31

theorem Sized.congr (h : Sized nld s)
    (hoff : s'.ni.infoTable.stateTableOff = s.ni.infoTable.stateTableOff ∧
      s'.ni.infoTable.mappingTableOff = s.ni.infoTable.mappingTableOff)
    (hlength : s'.ni.blockState.length = s.ni.blockState.length)
    (hmap : s'.ni.blockMapping = s.ni.blockMapping) : Sized nld s' :=
  ⟨hoff.1.trans h.stateTableOff, hoff.2.trans h.mappingTableOff, hlength.trans h.stateLength,
    hmap ▸ h.mappingLength, hmap ▸ h.range⟩

theorem Keeps.sized (h : Keeps nld s s') (hs : Sized nld s) : Sized nld s' :=
  hs.congr h.offsets h.length (by rw [h.rest])

theorem fresh_sized (nld : LowerDevice) (d : Device) : Sized nld (fresh nld d) where
  stateTableOff := rfl
  mappingTableOff := rfl
  stateLength := List.length_replicate
  mappingLength := List.length_replicate
  range v hv := by
    obtain rfl := List.eq_of_mem_replicate hv
    decide

theorem Imaged.formatted {st : List Word} (h : Imaged nld st s) (hs : Sized nld s) :
    Formatted nld s.ni.infoTable st s.ni.blockMapping :=
  ⟨h.magic, h.size, hs.stateTableOff, hs.mappingTableOff, h.length.symm.trans hs.stateLength,
    hs.mappingLength, hs.range⟩

/-- What the chip has where a table without a gap was written. -/
theorem Written.table (hg : Geometry nld) {st : List Word} {a : Nat} (himg : Imaged nld st s)
    (hs : Sized nld s) (hw : Written nld a s.ni.infoTableCache s) :
    tableImage nld s.dev.flash a = s.ni.infoTableCache ∧ TableAt nld s.dev.flash a ∧
      imageState nld (tableImage nld s.dev.flash a) = st ∧
      imageMapping nld (tableImage nld s.dev.flash a) = s.ni.blockMapping := by
  obtain ⟨hlen, hhdr, hsum, hstate, hmapping⟩ := infoTableImage_spec hg (himg.formatted hs)
  rw [← himg.cache] at hlen hhdr hsum hstate hmapping
  have htable : tableImage nld s.dev.flash a = s.ni.infoTableCache := by
    have := hw.bytes
    rwa [hlen] at this
  rw [TableAt, htable]
  exact ⟨rfl, ⟨hhdr, hsum⟩, hstate, hmapping⟩

theorem tableTarget_of_imageMapping {data : List Byte} {ni : Instance}
    (h : imageMapping nld data = ni.blockMapping) (lb : Nat) :
    tableTarget nld data lb = ni.mapping lb := by
  rw [tableTarget, h, Instance.mapping]

/-- A table in good blocks whose mapping keeps clear of it is accepted. -/
theorem Written.accepts (hg : Geometry nld) {st : List Word} {a : Nat} (himg : Imaged nld st s)
    (hs : Sized nld s) (hw : Written nld a s.ni.infoTableCache s) {ni : Instance}
    (hgood : ∀ i, i < nld.infoTableBlocks → ni.getBlockState (a + i) = blockStGood)
    (hsmall : ni.signatureBa < 2 ^ 31)
    (hmap : ∀ lb, lb < ni.dataBlockCount → 0 ≤ s.ni.mapping lb →
      (s.ni.mapping lb < ni.dataBlockCount ∨
        (a + nld.infoTableBlocks : Nat) ≤ s.ni.mapping lb) ∧ s.ni.mapping lb ≠ ni.signatureBa) :
    Accepts nld ni s.dev.flash a := by
  obtain ⟨htable, htableAt, hstate, hmapping⟩ := hw.table hg himg hs
  have hlen : s.ni.infoTableCache.length = nld.infoTableSize := by
    rw [himg.cache]
    exact (infoTableImage_spec hg (himg.formatted hs)).1
  have hblocks : nld.size2blk s.ni.infoTableCache.length = nld.infoTableBlocks := by
    rw [hlen]
    rfl
  have hwgood := hw.good
  rw [hblocks] at hwgood
  have hend : a + nld.infoTableBlocks ≤ 2 ^ 31 := by
    have hpos : 0 < nld.infoTableBlocks := by
      have := size2blk_pos hg (lt_of_lt_of_le (by decide) hg.header_le : 0 < nld.infoTableSize)
      unfold LowerDevice.infoTableBlocks
      omega
    have hlast := hwgood (nld.infoTableBlocks - 1) (by omega)
    have hword := length_of_getBlockStateRaw (fun hbad => good_ne_bad (hlast.symm.trans hbad))
    rw [hs.stateLength] at hword
    have := hg.stateWords_lt
    omega
  refine ⟨hgood, by simpa only [hblocks] using hw.unmarked, htableAt, ?_⟩
  rw [checkInfoTable_isSome hend hsmall]
  refine ⟨fun lb hlb => ?_, fun b hlo hhi _ => ?_⟩
  · rw [tableTarget_of_imageMapping hmapping]
    exact hmap lb hlb
  · rw [hstate]
    obtain ⟨i, rfl⟩ := Nat.exists_eq_add_of_le hlo
    exact himg.good _ (hwgood i (by omega))

theorem getU32_replicate {n off : Nat} (h : off + 4 ≤ n) :
    getU32 (List.replicate n (0 : Byte)) off = ofLe (List.replicate 4 0) := by
  rw [getU32, slice, List.drop_replicate, List.take_replicate, min_eq_left (by omega)]

/-- A table that was written from block `a` to block `e` is loaded from there, with the same end and
the same tables, exactly when it has no gap, its header fits a block and it maps nothing to the
signature. -/
theorem written_table_loads_iff (hg : Geometry nld) {st : List Word} {ba limit a e : Nat}
    (count sig : Nat) (himg : Imaged nld st s) (hs : Sized nld s)
    (hw : writeInfoTable nld ba limit s = (some (a, e), s')) {d : Device}
    (hflash : d.flash = s'.dev.flash) (hd : d.Healthy) (hsig : sig < nld.blockCount)
    (hmap : ∀ lb, lb < count → s.ni.mapping lb < count ∨ e ≤ s.ni.mapping lb) :
    (∃ found t, tryLoadInfoTable nld a false (loader nld count sig d) = (some found, t) ∧
      found.endBa = e ∧ t.ni.blockState = st ∧ t.ni.blockMapping = s.ni.blockMapping) ↔
    e = a + nld.infoTableBlocks ∧ infoTableHeaderSize ≤ nld.erasesize ∧
      ∀ lb, lb < count → s.ni.mapping lb ≠ sig := by
  have hlayout := hg.layout
  have hfits := hg.fits
  have hcache : s.ni.infoTableCache ≠ [] := by
    rw [himg.cache]
    exact infoTableImage_ne_nil _ _ _
  have hlen : s.ni.infoTableCache.length = nld.infoTableSize := by
    rw [himg.cache]
    exact (infoTableImage_spec hg (himg.formatted hs)).1
  obtain ⟨hworks, hsome⟩ := writeInfoTable_cases hg hcache hw
  obtain ⟨-, -, -, hwrote⟩ := hsome a e rfl
  have hcache' : s'.ni.infoTableCache = s.ni.infoTableCache := hworks.infoTableCache
  have hblocks : s'.tableBlocks nld = nld.infoTableBlocks := by
    rw [Sys.tableBlocks, hcache', hlen]
    rfl
  have hmapping' : s'.ni.blockMapping = s.ni.blockMapping := by rw [hworks.rest]
  have himg' : Imaged nld st s' := himg.of_works hworks
  have hs' : Sized nld s' := hs.congr (by rw [hworks.rest]; exact ⟨rfl, rfl⟩) hworks.length hmapping'
  have hcacheLen : (loader nld count sig d).ni.infoTableCache.length = nld.infoTableSize :=
    List.length_replicate
  have hsize := hg.header_le
  constructor
  · rintro ⟨found, t, hload, hend, -, -⟩
    have hfit : infoTableHeaderSize ≤ nld.erasesize := by
      by_contra hsmall
      have hnone : (readTableLoop nld nld.infoTableBlocks a 0 none (loader nld count sig d)).1
          = none := by
        apply readTableLoop_no_header hg (by omega) hd
        show getU32 (List.replicate nld.infoTableSize 0) 20
          = getU32 (List.replicate nld.infoTableSize 0) 24
        have hfits' : 32 ≤ nld.infoTableSize := hsize
        rw [getU32_replicate (by omega), getU32_replicate (by omega)]
      unfold tryLoadInfoTable at hload
      simp only [hnone] at hload
      cases hload
    have hl := tryLoadInfoTable_some ⟨hg, hfit⟩ hcacheLen hload
    have he : e = a + nld.infoTableBlocks := hend.symm.trans hl.endBa
    refine ⟨he, hfit, fun lb hlb heq => ?_⟩
    have hwritten := hwrote.written (by rw [hblocks]; exact he)
    obtain ⟨-, -, -, hmapping⟩ := hwritten.table hg himg' hs'
    have hbad : ((imageMapping nld (tableImage nld d.flash a)).take count).any
        (badMapping (loader nld count sig d).ni (a + nld.infoTableBlocks)) = true := by
      rw [List.any_eq_true]
      have htarget : tableTarget nld (tableImage nld d.flash a) lb = s.ni.mapping lb := by
        rw [hflash, tableTarget_of_imageMapping hmapping, Instance.mapping, hmapping']
        rfl
      have hnn : 0 ≤ tableTarget nld (tableImage nld d.flash a) lb := by omega
      refine ⟨_, tableTarget_mem_take hlb hnn, ?_⟩
      have hv := asUInt32_of_nonneg hnn (tableTarget_range nld _ lb).2
      have hsame : asUInt32 (tableTarget nld (tableImage nld d.flash a) lb) = sig := by omega
      simp [badMapping, hsame, loader]
    have hnone : checkInfoTable nld (loader nld count sig d).ni a (a + nld.infoTableBlocks)
        (tableImage nld d.flash a) = none := by
      unfold checkInfoTable
      exact if_pos hbad
    cases hnone.symm.trans hl.top
  · rintro ⟨he, hfit, hnosig⟩
    have hwritten := hwrote.written (by rw [hblocks]; exact he)
    obtain ⟨htable, -, hstate, hmapping⟩ := hwritten.table hg himg' hs'
    have hgood : ∀ i, i < nld.infoTableBlocks →
        (loader nld count sig d).ni.getBlockState (a + i) = blockStGood := by
      intro i hi
      apply allOnes_good
      have hlast := hwritten.good i (by rw [hcache', hlen]; exact hi)
      have hword := length_of_getBlockStateRaw (fun hbad => good_ne_bad (hlast.symm.trans hbad))
      rwa [hs'.stateLength] at hword
    have hacc : Accepts nld (loader nld count sig d).ni (loader nld count sig d).dev.flash a := by
      show Accepts nld (loader nld count sig d).ni d.flash a
      rw [hflash]
      refine hwritten.accepts hg himg' hs' hgood (by show sig < 2 ^ 31; omega) fun lb hlb hnn => ?_
      rw [Instance.mapping, hmapping'] at hnn ⊢
      rw [he] at hmap
      exact ⟨hmap lb hlb, hnosig lb hlb⟩
    have hfound := tryLoadInfoTable_healthy ⟨hg, hfit⟩ false hcacheLen hd hacc
    rcases hload : tryLoadInfoTable nld a false (loader nld count sig d) with ⟨r, t⟩
    rw [hload] at hfound
    obtain ⟨found, rfl⟩ := Option.isSome_iff_exists.mp hfound
    have hl := tryLoadInfoTable_some ⟨hg, hfit⟩ hcacheLen hload
    have hni := hl.ni
    have hflash' : (loader nld count sig d).dev.flash = s'.dev.flash := hflash
    rw [if_pos (by simp), hflash'] at hni
    refine ⟨found, t, rfl, hl.endBa.trans he.symm, ?_, ?_⟩
    · rw [hni]
      exact hstate
    · rw [hni]
      exact hmapping.trans hmapping'

theorem blankDevice_healthy (marked : List Nat) : (blankDevice marked).Healthy :=
  fun _ _ => ⟨le_rfl, rfl, rfl, rfl, rfl⟩

/-- An instance of a small chip with an image in its cache. -/
def imagedSys (nld : LowerDevice) (marked : List Nat) : Sys :=
  (generateInfoTableCache nld (fresh nld (blankDevice marked))).2

set_option maxRecDepth 100000 in
theorem written_table_loads_smallChip :
    (writeInfoTable (smallChip 16 8) 8 14 (imagedSys (smallChip 16 8) [])).1 = some (8, 9) ∧
    ∃ found t, tryLoadInfoTable (smallChip 16 8) 8 false (loader (smallChip 16 8) 8 15
        (writeInfoTable (smallChip 16 8) 8 14 (imagedSys (smallChip 16 8) [])).2.dev)
        = (some found, t) ∧ found.endBa = 9 := by
  have hsome : (writeInfoTable (smallChip 16 8) 8 14 (imagedSys (smallChip 16 8) [])).1
      = some (8, 9) := by decide +kernel
  have hmap : ∀ lb, (imagedSys (smallChip 16 8) []).ni.mapping lb ≤ 0 := by
    intro lb
    unfold Instance.mapping
    rw [List.getD_eq_getElem?_getD]
    show ((List.replicate 16 (0 : Int))[lb]?).getD (-1) ≤ 0
    rw [List.getElem?_replicate]
    split <;> simp
  have hworks := writeInfoTable_works smallChip_geometry 8 14 (imagedSys (smallChip 16 8) [])
  have hsized : Sized (smallChip 16 8) (imagedSys (smallChip 16 8) []) :=
    (generate_keeps _).sized (fresh_sized _ _)
  have hwritten : writeInfoTable (smallChip 16 8) 8 14 (imagedSys (smallChip 16 8) []) =
      (some (8, 9), (writeInfoTable (smallChip 16 8) 8 14 (imagedSys (smallChip 16 8) [])).2) := by
    rw [← hsome]
  obtain ⟨found, t, hload, hend, -⟩ := (written_table_loads_iff (s := imagedSys (smallChip 16 8) [])
    smallChip_geometry 8 15 (generate_imaged _) hsized hwritten rfl
    (hworks.touches.healthy (blankDevice_healthy [])) (by decide) (fun lb _ => .inl (by
      have := hmap lb
      omega))).mpr ⟨by decide, by decide, fun lb _ => by
        have := hmap lb
        omega⟩
  exact ⟨hsome, found, t, hload, hend⟩

set_option maxRecDepth 100000 in
/-- A table of two blocks is written around a bad block, and is not found again. -/
theorem written_table_lost :
    Geometry (smallChip 64 8) ∧
    (writeInfoTable (smallChip 64 8) 40 60 (imagedSys (smallChip 64 8) [41])).1 = some (40, 43) ∧
    (writeInfoTable (smallChip 64 8) 40 60 (imagedSys (smallChip 64 8) [41])).2.dev.Healthy ∧
    (∀ lb, lb < 32 → (imagedSys (smallChip 64 8) [41]).ni.mapping lb < 32 ∧
      (imagedSys (smallChip 64 8) [41]).ni.mapping lb ≠ 63) ∧
    (tryLoadInfoTable (smallChip 64 8) 40 false (loader (smallChip 64 8) 32 63
      (writeInfoTable (smallChip 64 8) 40 60 (imagedSys (smallChip 64 8) [41])).2.dev)).1 = none := by
  have hg : Geometry (smallChip 64 8) := ⟨by decide, by decide, by decide, by decide⟩
  refine ⟨hg, by decide +kernel, ?_, by decide +kernel, by decide +kernel⟩
  exact (writeInfoTable_works hg 40 60 _).touches.healthy (blankDevice_healthy [41])

end Immwrt.Nmbm
