import Immwrt.Mtd.Trx

/-!
# The fixed header of a trx image

On the range that was asked for, the loop of `mtd_fixtrx` collects the bytes of the good blocks, wherever the
range starts and whatever its blocks are. The header is then right, and found so by a second run, whenever
its first 12 bytes lie in one erase block; the fields of a header that crosses the end of its block are looked
for behind the block buffer.
-/

namespace Immwrt.Mtd.Trx

variable {d : Flash} {w : Nat} {cells : Nat → Byte}

/-! ### Blocks -/

theorem Flash.inBlock_eq (d : Flash) (x : Nat) : d.inBlock x = x % d.erasesize := by
  rw [Flash.inBlock, d.erasesize_eq, Nat.and_two_pow_sub_one_eq_mod]

theorem Flash.blockOffset_eq (d : Flash) (x : Nat) : d.blockOffset x = x / d.erasesize * d.erasesize := by
  have := Nat.div_add_mod' x d.erasesize
  rw [Flash.blockOffset, d.inBlock_eq]
  omega

theorem Flash.blockOffset_add_mod (d : Flash) (x : Nat) :
    d.blockOffset x + x % d.erasesize = x := by
  rw [d.blockOffset_eq]
  exact Nat.div_add_mod' x d.erasesize

/-- A block that starts on the device ends on it. -/
theorem Flash.block_le_size (d : Flash) {x : Nat} (hx : d.blockOffset x < d.size) :
    d.blockOffset x + d.erasesize ≤ d.size := by
  rw [d.blockOffset_eq] at hx ⊢
  have hlt : x / d.erasesize < d.blocks := Nat.lt_of_mul_lt_mul_right hx
  rw [← Nat.succ_mul]
  exact Nat.mul_le_mul_right _ hlt

theorem Flash.div_blockOffset (d : Flash) (x : Nat) :
    d.blockOffset x / d.erasesize = x / d.erasesize := by
  rw [d.blockOffset_eq, Nat.mul_div_cancel _ d.erasesize_pos]

/-- What lies between a byte and the end of its block is in the same block. -/
theorem div_eq_of_inBlock (d : Flash) {start x : Nat} (hle : start ≤ x)
    (hlt : x < start + (d.erasesize - start % d.erasesize)) : x / d.erasesize = start / d.erasesize := by
  have hpos := d.erasesize_pos
  have hmod := Nat.mod_lt start hpos
  have hsplit := Nat.div_add_mod' start d.erasesize
  apply Nat.div_eq_of_lt_le
  · omega
  · rw [Nat.succ_mul]
    omega

theorem Flash.bad_of_blockIsBad {offset : Nat} {bad : Bool} (h : d.blockIsBad offset = some bad) :
    d.bad (offset / d.erasesize) = bad := by
  rw [Flash.blockIsBad] at h
  split at h
  · rw [Nand.blockIsBad] at h
    split at h
    · exact Option.some.inj h
    · cases h
  · rename_i hnand
    rw [← Option.some.inj h, Bool.eq_false_iff]
    exact fun hbad => hnand (d.nand_of_bad _ hbad)

theorem Flash.lt_size_of_blockIsBad {offset : Nat} (h : d.blockIsBad offset = some true) :
    offset < d.size := by
  rw [Flash.blockIsBad] at h
  split at h
  · exact d.toNand.lt_size_of_blockIsBad h
  · cases h

theorem Flash.blockIsBad_of_lt {offset : Nat} (h : offset < d.size) :
    d.blockIsBad offset = some (d.bad (offset / d.erasesize)) := by
  cases hnand : d.nand with
  | true => rw [Flash.blockIsBad, if_pos hnand, Nand.blockIsBad, if_pos h]
  | false =>
      have hgood : d.bad (offset / d.erasesize) = false := by
        rw [Bool.eq_false_iff]
        intro hbad
        rw [d.nand_of_bad _ hbad] at hnand
        cases hnand
      rw [Flash.blockIsBad, hnand, hgood, if_neg Bool.false_ne_true]

/-! ### The bytes of the good blocks -/

theorem isGood_eq_true_iff {x : Nat} :
    d.isGood x = true ↔ x < d.size ∧ d.bad (x / d.erasesize) = false := by
  simp [Flash.isGood]

theorem goodBytes_add (cells : Nat → Byte) (start m n : Nat) :
    goodBytes d cells start (m + n) = goodBytes d cells start m ++ goodBytes d cells (start + m) n := by
  rw [goodBytes, ← List.range'_append_1, List.filter_append, List.map_append, goodBytes, goodBytes]

theorem goodBytes_isPrefix (cells : Nat → Byte) (start : Nat) {m n : Nat} (hle : m ≤ n) :
    goodBytes d cells start m <+: goodBytes d cells start n := by
  rw [← Nat.add_sub_cancel' hle, goodBytes_add]
  exact List.prefix_append ..

theorem goodBytes_eq_nil_iff {start count : Nat} :
    goodBytes d cells start count = [] ↔ ∀ x, start ≤ x → x < start + count → d.isGood x = false := by
  rw [goodBytes, List.map_eq_nil_iff, List.filter_eq_nil_iff]
  constructor
  · intro h x hle hlt
    exact Bool.eq_false_iff.mpr (h x (List.mem_range'_1.mpr ⟨hle, hlt⟩))
  · intro h x hx
    obtain ⟨hle, hlt⟩ := List.mem_range'_1.mp hx
    rw [h x hle hlt]
    exact Bool.false_ne_true

theorem map_range'_eq_bytesAt (cells : Nat → Byte) (start count : Nat) :
    (List.range' start count).map cells = bytesAt cells start count := by
  induction count generalizing start with
  | zero => rfl
  | succ count ih => rw [List.range'_succ, List.map_cons, ih, bytesAt]

/-- A stretch of good bytes is read as it is. -/
theorem goodBytes_of_good {start count : Nat}
    (h : ∀ x, start ≤ x → x < start + count → d.isGood x = true) :
    goodBytes d cells start count = bytesAt cells start count := by
  rw [goodBytes, List.filter_eq_self.mpr, map_range'_eq_bytesAt]
  intro x hx
  obtain ⟨hle, hlt⟩ := List.mem_range'_1.mp hx
  exact h x hle hlt

theorem goodBytes_congr {cells' : Nat → Byte} {start count : Nat}
    (h : ∀ x, start ≤ x → x < start + count → cells' x = cells x) :
    goodBytes d cells' start count = goodBytes d cells start count := by
  apply List.map_congr_left
  intro x hx
  obtain ⟨hle, hlt⟩ := List.mem_range'_1.mp (List.mem_of_mem_filter hx)
  exact h x hle hlt

theorem length_goodBytes_le (cells : Nat → Byte) (start count : Nat) :
    (goodBytes d cells start count).length ≤ count := by
  rw [goodBytes, List.length_map]
  exact (List.length_filter_le _ _).trans (List.length_range' ..).le

theorem length_goodBytes_congr (cells cells' : Nat → Byte) (start count : Nat) :
    (goodBytes d cells' start count).length = (goodBytes d cells start count).length := by
  rw [goodBytes, goodBytes, List.length_map, List.length_map]

/-- Two ranges with the same start have the same good bytes when what one has more is in no good block. -/
theorem goodBytes_length_eq_iff {start m n : Nat} (hle : m ≤ n) :
    (goodBytes d cells start m).length = (goodBytes d cells start n).length ↔
      ∀ x, start + m ≤ x → x < start + n → d.isGood x = false := by
  have hsplit : n = m + (n - m) := by omega
  rw [hsplit, goodBytes_add, List.length_append, Nat.left_eq_add, List.length_eq_zero_iff,
    goodBytes_eq_nil_iff, Nat.add_assoc]

/-! ### The loop -/

theorem length_pread (cells : Nat → Byte) (count offset : Nat) :
    (d.pread cells count offset).length = min count (d.size - offset) := by
  rw [Flash.pread, length_bytesAt]

/-- The loop returns when the range is empty or on the device, with the bytes of its good blocks. -/
theorem readLoop_eq_ok_iff (hw : 31 ≤ w) {dataOffset dataSize : Nat} {out buf : List Byte} :
    readLoop d w cells dataOffset dataSize out = .ok buf ↔
      (dataSize = 0 ∨ dataOffset + dataSize ≤ d.size) ∧
        buf = out ++ goodBytes d cells dataOffset dataSize := by
  by_cases hmore : dataSize = 0
  · subst hmore
    rw [readLoop, dif_pos rfl]
    simp [goodBytes, eq_comm]
  have hpos := d.erasesize_pos
  have hmod := Nat.mod_lt dataOffset hpos
  have hstart := d.blockOffset_add_mod dataOffset
  -- the piece of the range that lies in the first block
  obtain ⟨chunk, hchunk⟩ : ∃ chunk, chunk = min (d.erasesize - dataOffset % d.erasesize) dataSize := ⟨_, rfl⟩
  have hblock : ∀ x, dataOffset ≤ x → x < dataOffset + chunk →
      x / d.erasesize = dataOffset / d.erasesize :=
    fun x hle hlt => div_eq_of_inBlock d hle (by omega)
  have hnext : dataOffset + chunk ≤ d.size → (dataOffset + chunk) % 2 ^ w = dataOffset + chunk := by
    intro hle
    have := Nat.pow_le_pow_right (show 0 < 2 by omega) hw
    exact Nat.mod_eq_of_lt (by have := d.size_lt; omega)
  have hsplit : goodBytes d cells dataOffset dataSize =
      goodBytes d cells dataOffset chunk ++ goodBytes d cells (dataOffset + chunk) (dataSize - chunk) := by
    rw [← goodBytes_add]
    congr 1
    omega
  rw [readLoop, dif_neg hmore]
  simp only [d.inBlock_eq, ← hchunk, length_pread]
  cases hbad : d.blockIsBad (d.blockOffset dataOffset) with
  | none =>
      have hout : ¬ d.blockOffset dataOffset < d.size := fun hlt => by
        rw [d.blockIsBad_of_lt hlt] at hbad
        cases hbad
      simp only [reduceCtorEq, false_iff]
      omega
  | some bad =>
      have hval := Flash.bad_of_blockIsBad hbad
      rw [d.div_blockOffset] at hval
      cases bad with
      | true =>
          have hroom := d.block_le_size (Flash.lt_size_of_blockIsBad hbad)
          have hnone : goodBytes d cells dataOffset chunk = [] := by
            rw [goodBytes_eq_nil_iff]
            intro x hle hlt
            rw [Bool.eq_false_iff, ne_eq, isGood_eq_true_iff, hblock x hle hlt, hval]
            simp
          simp only
          rw [hnext (by omega), readLoop_eq_ok_iff hw, hsplit, hnone, List.nil_append]
          refine and_congr_left fun _ => ?_
          omega
      | false =>
          by_cases hfull : dataOffset + chunk ≤ d.size
          · have hread : goodBytes d cells dataOffset chunk = bytesAt cells dataOffset chunk := by
              apply goodBytes_of_good
              intro x hle hlt
              rw [isGood_eq_true_iff, hblock x hle hlt]
              exact ⟨by omega, hval⟩
            have hpread : d.pread cells chunk dataOffset = bytesAt cells dataOffset chunk := by
              rw [Flash.pread, min_eq_left (by omega)]
            simp only
            rw [if_neg (by omega), hnext hfull, readLoop_eq_ok_iff hw, hsplit, hread, hpread,
              List.append_assoc]
            refine and_congr_left fun _ => ?_
            omega
          · simp only
            rw [if_pos (by omega)]
            simp only [reduceCtorEq, false_iff]
            omega
termination_by dataSize
decreasing_by all_goals omega

/-! ### The fields -/

/-- The fields of the header at `off` are those of the data `buf`. -/
structure FieldsOk (mem : Nat → Byte) (off : Nat) (buf : List Byte) : Prop where
  len : field mem (off + 4) = BitVec.ofNat 32 (buf.length + 12)
  crc : field mem (off + 8) = crc32buf buf

/-- The header fields as they are stored. -/
def setMem (mem : Nat → Byte) (off : Nat) (buf : List Byte) : Nat → Byte :=
  store (store mem (off + 4) (u32le (BitVec.ofNat 32 (buf.length + 12)))) (off + 8) (u32le (crc32buf buf))

theorem fieldsOk_setMem (mem : Nat → Byte) (off : Nat) (buf : List Byte) :
    FieldsOk (setMem mem off buf) off buf := by
  constructor
  · rw [field, setMem, bytesAt_store_of_disjoint _ _ (by simp), ← length_u32le (BitVec.ofNat 32 _),
      bytesAt_store_self, ofLe_u32le]
  · rw [field, setMem, ← length_u32le (crc32buf buf), bytesAt_store_self, ofLe_u32le]

theorem setMem_of_outside (mem : Nat → Byte) {off : Nat} (buf : List Byte) {x : Nat}
    (hx : x < off + 4 ∨ off + 12 ≤ x) : setMem mem off buf x = mem x := by
  rcases hx with hx | hx
  · rw [setMem, store_of_lt _ _ (by omega), store_of_lt _ _ hx]
  · rw [setMem, store_of_ge _ _ (by rw [length_u32le]; omega), store_of_ge _ _ (by rw [length_u32le]; omega)]

theorem field_congr {mem mem' : Nat → Byte} {off off' : Nat}
    (h : ∀ i < 4, mem (off + i) = mem' (off' + i)) : field mem off = field mem' off' := by
  have h0 := h 0 (by omega)
  have h1 := h 1 (by omega)
  have h2 := h 2 (by omega)
  have h3 := h 3 (by omega)
  simp only [field, bytesAt, Nat.add_assoc, Nat.add_zero] at h0 ⊢
  rw [h0, h1, h2, h3]

theorem FieldsOk.congr {mem mem' : Nat → Byte} {off off' : Nat} {buf : List Byte}
    (h : FieldsOk mem off buf) (hmem : ∀ i, 4 ≤ i → i < 12 → mem' (off' + i) = mem (off + i)) :
    FieldsOk mem' off' buf := by
  constructor
  · rw [← h.len]
    apply field_congr
    intro i hi
    rw [Nat.add_assoc, Nat.add_assoc]
    exact hmem (4 + i) (by omega) (by omega)
  · rw [← h.crc]
    apply field_congr
    intro i hi
    rw [Nat.add_assoc, Nat.add_assoc]
    exact hmem (8 + i) (by omega) (by omega)

theorem val_setFields_of_fieldsOk {mem : Nat → Byte} {off : Nat} {buf : List Byte}
    (h : FieldsOk mem off buf) : (setFields mem off buf).val = none := by
  simp [setFields, h.len, h.crc]

theorem val_setFields_of_not {mem : Nat → Byte} {off : Nat} {buf : List Byte}
    (h : ¬ FieldsOk mem off buf) : (setFields mem off buf).val = some (setMem mem off buf) := by
  by_cases hlen : field mem (off + 4) = BitVec.ofNat 32 (buf.length + 12)
  · have hcrc : field mem (off + 8) ≠ crc32buf buf := fun hcrc => h ⟨hlen, hcrc⟩
    simp [setFields, hlen, hcrc, setMem]
  · simp [setFields, hlen, setMem]

/-- Whatever the fields hold, both of them are touched: the second is compared, or set. -/
theorem every_setFields_iff (mem : Nat → Byte) (off : Nat) (buf : List Byte) (n : Nat) :
    (setFields mem off buf).Every (fun access => access.off + access.len ≤ n) ↔ off + 12 ≤ n := by
  by_cases hlen : field mem (off + 4) = BitVec.ofNat 32 (buf.length + 12)
  · by_cases hcrc : field mem (off + 8) = crc32buf buf
    · simp [setFields, hlen, hcrc]
      omega
    · simp [setFields, hlen, hcrc]
      omega
  · simp [setFields, hlen]
    omega

/-! ### Writing the block back -/

/-- After the block is written back, the device holds the buffer there, and elsewhere what it held. -/
theorem after_rewrite {mem : Nat → Byte} {x₀ : Nat} {trace : List Event}
    (h : rewrite d mem (d.blockOffset x₀) = .ok trace) (x : Nat) :
    after cells trace x =
      if x / d.erasesize = x₀ / d.erasesize then mem (x - d.blockOffset x₀) else cells x := by
  have hpos := d.erasesize_pos
  rw [rewrite] at h
  split at h
  · cases h
  · split at h
    · cases h
    · have hblock : d.blockOffset x₀ ≤ x ∧ x < d.blockOffset x₀ + d.erasesize ↔
          x / d.erasesize = x₀ / d.erasesize := by
        rw [d.blockOffset_eq, ← Nat.succ_mul]
        constructor
        · rintro ⟨hle, hlt⟩
          exact Nat.div_eq_of_lt_le hle hlt
        · intro heq
          rw [← heq]
          exact ⟨Nat.div_mul_le_self _ _, Nat.lt_mul_of_div_lt (Nat.lt_succ_self _) hpos⟩
      cases h
      simp only [after, replay, List.foldl_cons, List.foldl_nil, Event.apply, length_bytesAt, true_and,
        d.div_blockOffset, hblock]
      split
      · rename_i hin
        obtain ⟨hle, hlt⟩ := hblock.mpr hin
        rw [List.getD_eq_getElem?_getD, getElem?_bytesAt _ _ _ _ (by omega), Nat.zero_add,
          Option.getD_some]
        exact BitVec.allOnes_and
      · rfl

theorem exists_rewrite (mem : Nat → Byte) {x : Nat} (hx : x < d.size)
    (herase : d.eraseBlock (d.blockOffset x)) : ∃ trace, rewrite d mem (d.blockOffset x) = .ok trace := by
  have hstart := d.blockOffset_add_mod x
  have hfull := d.block_le_size (x := x) (by omega)
  rw [rewrite, if_neg (not_not.mpr herase), if_neg (by omega)]
  exact ⟨_, rfl⟩

/-! ### A run -/

section Run

variable {malloc : Nat → Bool} {heap : Nat → Byte} {offset data_size : BitVec w}

/-- The block buffer, and what is behind it. -/
def blockMem (d : Flash) (heap cells : Nat → Byte) (x : Nat) : Nat → Byte :=
  store heap 0 (d.pread cells d.erasesize (d.blockOffset x))

/-- What a run needs to get as far as the fields. -/
structure Reached (d : Flash) (malloc : Nat → Bool) (heap cells : Nat → Byte) (offset data_size : BitVec w) :
    Prop where
  room : (offset + 12 + d.dataSize data_size).toNat ≤ d.size
  malloc_block : malloc d.erasesize = true
  block : offset.toNat < d.size
  magic : field (blockMem d heap cells offset.toNat) (offset.toNat % d.erasesize) = magic
  malloc_data : malloc (d.dataSize data_size).toNat = true
  range : (d.dataSize data_size).toNat = 0 ∨
    (offset + 12).toNat + (d.dataSize data_size).toNat ≤ d.size

/-- The data the checksum is taken of. -/
def read (d : Flash) (cells : Nat → Byte) (offset data_size : BitVec w) : List Byte :=
  goodBytes d cells (offset + 12).toNat (d.dataSize data_size).toNat

theorem length_firstBlock_iff {x : Nat} :
    (d.pread cells d.erasesize (d.blockOffset x)).length = d.erasesize ↔ x < d.size := by
  have hpos := d.erasesize_pos
  have hstart := d.blockOffset_add_mod x
  have hmod := Nat.mod_lt x hpos
  rw [length_pread]
  constructor
  · intro h
    omega
  · intro hlt
    have := d.block_le_size (x := x) (by omega)
    omega

theorem mtdFixtrx_eq_of_reached (hw : 31 ≤ w) (h : Reached d malloc heap cells offset data_size) :
    mtdFixtrx d malloc heap cells offset data_size = (do
      Traced.emit ⟨offset.toNat % d.erasesize, 4⟩
      match ← setFields (blockMem d heap cells offset.toNat) (offset.toNat % d.erasesize)
          (read d cells offset data_size) with
      | none => pure (.ok [])
      | some fixedMem => pure (rewrite d fixedMem (d.blockOffset offset.toNat))) := by
  have hread : readLoop d w cells (offset + 12).toNat (d.dataSize data_size).toNat [] =
      .ok (read d cells offset data_size) := (readLoop_eq_ok_iff hw).mpr ⟨h.range, rfl⟩
  have hoff : offset.toNat - d.blockOffset offset.toNat = offset.toNat % d.erasesize := by
    have := d.blockOffset_add_mod offset.toNat
    omega
  have hmagic := h.magic
  rw [blockMem] at hmagic
  simp only [mtdFixtrx, hoff]
  rw [if_neg (Nat.not_lt.mpr h.room), if_neg (not_not.mpr h.malloc_block),
    if_neg (not_not.mpr (length_firstBlock_iff.mpr h.block)), hmagic, if_neg (not_not.mpr rfl),
    if_neg (not_not.mpr h.malloc_data), hread]
  rfl

theorem reached_of_ok (hw : 31 ≤ w) {trace : List Event}
    (h : (mtdFixtrx d malloc heap cells offset data_size).val = .ok trace) :
    Reached d malloc heap cells offset data_size := by
  have hoff : offset.toNat - d.blockOffset offset.toNat = offset.toNat % d.erasesize := by
    have := d.blockOffset_add_mod offset.toNat
    omega
  simp only [mtdFixtrx, hoff] at h
  split at h
  · cases h
  · rename_i hroom
    split at h
    · cases h
    · rename_i hblock
      split at h
      · cases h
      · rename_i hfirst
        rw [Traced.val_bind] at h
        split at h
        · cases h
        · rename_i hmagic
          split at h
          · cases h
          · rename_i hdata
            split at h
            · cases h
            · rename_i buf hread
              exact
                { room := Nat.not_lt.mp hroom
                  malloc_block := not_not.mp hblock
                  block := length_firstBlock_iff.mp (not_not.mp hfirst)
                  magic := not_not.mp hmagic
                  malloc_data := not_not.mp hdata
                  range := ((readLoop_eq_ok_iff hw).mp hread).1 }

theorem blockMem_eq {x : Nat} (hx : x < d.size) {i : Nat} (hi : i < d.erasesize) :
    blockMem d heap cells x i = cells (d.blockOffset x + i) := by
  have hlen : (d.pread cells d.erasesize (d.blockOffset x)).length = d.erasesize :=
    length_firstBlock_iff.mpr hx
  have hcount : min d.erasesize (d.size - d.blockOffset x) = d.erasesize := by rw [← length_pread, hlen]
  rw [blockMem, store, hlen, if_pos ⟨Nat.zero_le _, by omega⟩, Flash.pread, hcount,
    List.getD_eq_getElem?_getD, getElem?_bytesAt _ _ _ _ (by omega), Option.getD_some, Nat.sub_zero]

/-- A header that lies in its block has its fields on the device afterwards, and nothing else has changed. -/
theorem fieldsOk_after (hw : 31 ≤ w) {trace : List Event}
    (hrun : (mtdFixtrx d malloc heap cells offset data_size).val = .ok trace)
    (hin : offset.toNat % d.erasesize + 12 ≤ d.erasesize) :
    FieldsOk (after cells trace) offset.toNat (read d cells offset data_size) ∧
      ∀ x, x < offset.toNat + 4 ∨ offset.toNat + 12 ≤ x → after cells trace x = cells x := by
  have hreached := reached_of_ok hw hrun
  have hstart := d.blockOffset_add_mod offset.toNat
  have hmem : ∀ i, i < 12 → blockMem d heap cells offset.toNat (offset.toNat % d.erasesize + i) =
      cells (offset.toNat + i) := by
    intro i hi
    rw [blockMem_eq hreached.block (by omega)]
    congr 1
    omega
  rw [mtdFixtrx_eq_of_reached hw hreached, Traced.val_bind, Traced.val_bind] at hrun
  by_cases hok : FieldsOk (blockMem d heap cells offset.toNat) (offset.toNat % d.erasesize)
      (read d cells offset data_size)
  · rw [val_setFields_of_fieldsOk hok] at hrun
    obtain rfl : [] = trace := Except.ok.inj hrun
    exact ⟨hok.congr fun i _ hi => (hmem i hi).symm, fun _ _ => rfl⟩
  · rw [val_setFields_of_not hok] at hrun
    have hafter : ∀ x, after cells trace x = _ := after_rewrite hrun
    constructor
    · apply (fieldsOk_setMem (blockMem d heap cells offset.toNat) (offset.toNat % d.erasesize) _).congr
      intro i _ hi
      rw [hafter, if_pos (div_eq_of_inBlock d (Nat.le_add_right _ _) (by omega))]
      congr 1
      omega
    · intro x hx
      rw [hafter]
      split
      · rename_i hblock
        have hxstart := d.blockOffset_add_mod x
        have hmod := Nat.mod_lt x d.erasesize_pos
        have hsame : d.blockOffset x = d.blockOffset offset.toNat := by
          rw [d.blockOffset_eq, d.blockOffset_eq, hblock]
        rw [setMem_of_outside _ _ (by omega), blockMem_eq hreached.block (by omega)]
        congr 1
        omega
      · rfl

/-- A run does nothing to a device where the fields are right already. -/
theorem val_mtdFixtrx_of_fieldsOk (hw : 31 ≤ w) (h : Reached d malloc heap cells offset data_size)
    (hin : offset.toNat % d.erasesize + 12 ≤ d.erasesize)
    (hok : FieldsOk cells offset.toNat (read d cells offset data_size)) :
    (mtdFixtrx d malloc heap cells offset data_size).val = .ok [] := by
  have hstart := d.blockOffset_add_mod offset.toNat
  rw [mtdFixtrx_eq_of_reached hw h, Traced.val_bind, Traced.val_bind, val_setFields_of_fieldsOk]
  · rfl
  · apply hok.congr
    intro i _ hi
    rw [blockMem_eq h.block (by omega)]
    congr 1
    omega

/-- The bytes a run looks at before the fields are not the fields. -/
theorem Reached.congr {heap' cells' : Nat → Byte} (h : Reached d malloc heap cells offset data_size)
    (hin : offset.toNat % d.erasesize + 12 ≤ d.erasesize)
    (hcells : ∀ x, x < offset.toNat + 4 ∨ offset.toNat + 12 ≤ x → cells' x = cells x) :
    Reached d malloc heap' cells' offset data_size := by
  refine { h with magic := ?_ }
  have hstart := d.blockOffset_add_mod offset.toNat
  rw [← h.magic]
  apply field_congr
  intro i hi
  rw [blockMem_eq h.block (by omega), blockMem_eq h.block (by omega), hcells _ (by omega)]

end Run

/-! ### What was asked for -/

section Requested

variable {offset data_size : BitVec w}

theorem toNat_small (hw : 32 ≤ w) {n : Nat} (hn : n < 2 ^ 32) : (BitVec.ofNat w n).toNat = n :=
  Nat.mod_eq_of_lt (hn.trans_le (Nat.pow_le_pow_right (by omega) hw))

theorem toNat_dataOffset (hw : 32 ≤ w) (h : offset.toNat < d.size) :
    (offset + 12).toNat = offset.toNat + 12 := by
  have hpow := Nat.pow_le_pow_right (show 0 < 2 by omega) hw
  have hsize := d.size_lt
  have h12 : (12 : BitVec w).toNat = 12 := toNat_small hw (n := 12) (by omega)
  rw [BitVec.toNat_add, h12, Nat.mod_eq_of_lt (by omega)]

theorem toNat_dataSize (hw : 32 ≤ w) (h12 : 12 ≤ d.erasesize) (hlt : d.erasesize < 2 ^ w)
    (hfits : data_size.toNat + 16 < 2 ^ w) : (d.dataSize data_size).toNat = d.requested data_size := by
  have hpow := Nat.pow_le_pow_right (show 0 < 2 by omega) hw
  by_cases hzero : data_size = 0
  · have h12' : (12 : BitVec w).toNat = 12 := toNat_small hw (n := 12) (by omega)
    have hes : (BitVec.ofNat w d.erasesize).toNat = d.erasesize := Nat.mod_eq_of_lt hlt
    rw [Flash.dataSize, if_neg (not_not.mpr hzero), Flash.requested, if_pos hzero,
      BitVec.toNat_sub_of_le (by rw [BitVec.le_def, h12', hes]; exact h12), hes, h12']
  · have h16 : (16 : BitVec w).toNat = 16 := toNat_small hw (n := 16) (by omega)
    rw [Flash.dataSize, if_pos hzero, Flash.requested, if_neg hzero, BitVec.toNat_add, h16,
      Nat.mod_eq_of_lt hfits]

/-- A size near the end of `size_t` wraps. -/
theorem toNat_dataSize_wrapped (hw : 32 ≤ w) (hover : 2 ^ w ≤ data_size.toNat + 16) :
    (d.dataSize data_size).toNat = data_size.toNat + 16 - 2 ^ w ∧
      d.requested data_size = data_size.toNat + 16 := by
  have hpow := Nat.pow_le_pow_right (show 0 < 2 by omega) hw
  have hlt := data_size.isLt
  have hzero : data_size ≠ 0 := by
    rintro rfl
    rw [BitVec.ofNat_eq_ofNat, BitVec.toNat_zero] at hover
    omega
  have h16 : (16 : BitVec w).toNat = 16 := toNat_small hw (n := 16) (by omega)
  constructor
  · rw [Flash.dataSize, if_pos hzero, BitVec.toNat_add, h16, Nat.mod_eq_sub_mod hover,
      Nat.mod_eq_of_lt (by omega)]
  · rw [Flash.requested, if_neg hzero]

theorem dataSize_le_requested (hw : 32 ≤ w) (h12 : 12 ≤ d.erasesize) (hlt : d.erasesize < 2 ^ w) :
    (d.dataSize data_size).toNat ≤ d.requested data_size := by
  by_cases hfits : data_size.toNat + 16 < 2 ^ w
  · exact (toNat_dataSize hw h12 hlt hfits).le
  · obtain ⟨hdata, hrequested⟩ := toNat_dataSize_wrapped (d := d) hw (Nat.not_lt.mp hfits)
    omega

end Requested

/-! ### The header is fixed -/

section Fixed

variable {malloc : Nat → Bool} {heap : Nat → Byte} {offset data_size : BitVec w} {trace : List Event}

variable (d cells malloc heap offset data_size trace) in
/-- What a run should have done that returned after the operations `trace`. -/
structure Fixed : Prop where
  inside : (mtdFixtrx d malloc heap cells offset data_size).Every
    fun access => access.off + access.len ≤ d.erasesize
  len : (field (after cells trace) (offset.toNat + 4)).toNat =
    12 + (goodBytes d (after cells trace) (offset.toNat + 12) (d.requested data_size)).length
  crc : field (after cells trace) (offset.toNat + 8) =
    crc32buf (goodBytes d (after cells trace) (offset.toNat + 12) (d.requested data_size))
  others : ∀ x, x < offset.toNat + 4 ∨ offset.toNat + 12 ≤ x → after cells trace x = cells x
  again : ∀ heap', (mtdFixtrx d malloc heap' (after cells trace) offset data_size).val = .ok []

/-- The header is touched within its block exactly when its first 12 bytes lie there. -/
theorem every_inside_iff (hw : 31 ≤ w) (h : Reached d malloc heap cells offset data_size) :
    ((mtdFixtrx d malloc heap cells offset data_size).Every fun access =>
      access.off + access.len ≤ d.erasesize) ↔ offset.toNat % d.erasesize + 12 ≤ d.erasesize := by
  rw [mtdFixtrx_eq_of_reached hw h, Traced.every_bind, Traced.every_emit, Traced.every_bind,
    every_setFields_iff]
  constructor
  · exact fun hevery => hevery.2.1
  · intro hin
    refine ⟨show offset.toNat % d.erasesize + 4 ≤ d.erasesize by omega, hin, ?_⟩
    split
    · exact Traced.every_pure _
    · exact Traced.every_pure _

/-- `mtd_fixtrx` fixes the header of an accepted range if and only if the first 12 bytes of the header lie in
one erase block and the size with the 16 bytes of the header is one of `size_t`, or what it loses by the wrap
around lies in bad blocks. -/
theorem mtdFixtrx_fixed_iff (hw : 32 ≤ w)
    (hrun : (mtdFixtrx d malloc heap cells offset data_size).val = .ok trace) :
    Fixed d cells malloc heap offset data_size trace ↔
      offset.toNat % d.erasesize + 12 ≤ d.erasesize ∧
        (data_size.toNat + 16 < 2 ^ w ∨
          ∀ x, offset.toNat + 12 + (data_size.toNat + 16 - 2 ^ w) ≤ x → x < d.size →
            d.bad (x / d.erasesize) = true) := by
  have hw' : 31 ≤ w := by omega
  have hpow := Nat.pow_le_pow_right (show 0 < 2 by omega) hw
  have hsize := d.size_lt
  have hreached := reached_of_ok hw' hrun
  have hoffset := toNat_dataOffset hw hreached.block
  have hes : d.erasesize ≤ d.size := by
    have := d.block_le_size (x := offset.toNat) (by
      have := d.blockOffset_add_mod offset.toNat
      have := hreached.block
      omega)
    omega
  -- the condition on the size says that the good bytes that were asked for are those that were read
  have hcount : 12 ≤ d.erasesize →
      ((read d cells offset data_size).length =
          (goodBytes d cells (offset.toNat + 12) (d.requested data_size)).length ↔
        (data_size.toNat + 16 < 2 ^ w ∨
          ∀ x, offset.toNat + 12 + (data_size.toNat + 16 - 2 ^ w) ≤ x → x < d.size →
            d.bad (x / d.erasesize) = true)) := by
    intro h12
    by_cases hfits : data_size.toNat + 16 < 2 ^ w
    · rw [read, hoffset, toNat_dataSize hw h12 (by omega) hfits]
      exact iff_of_true rfl (Or.inl hfits)
    · obtain ⟨hdata, hrequested⟩ := toNat_dataSize_wrapped (d := d) hw (Nat.not_lt.mp hfits)
      rw [read, hoffset, hdata, hrequested, goodBytes_length_eq_iff (by omega), or_iff_right hfits]
      refine forall_congr' fun x => imp_congr_right fun _ => ?_
      rw [Bool.eq_false_iff, ne_eq, isGood_eq_true_iff, not_and, Bool.not_eq_false]
      constructor
      · exact fun h hlt => h (by omega) hlt
      · exact fun h _ hlt => h hlt
  have hroom : (read d cells offset data_size).length + 12 < 2 ^ 32 := by
    have hle := length_goodBytes_le (d := d) cells (offset + 12).toNat (d.dataSize data_size).toNat
    have := hreached.range
    rw [read]
    omega
  constructor
  · intro hfixed
    have hin := (every_inside_iff hw' hreached).mp hfixed.inside
    obtain ⟨hok, -⟩ := fieldsOk_after hw' hrun hin
    refine ⟨hin, (hcount (by omega)).mp ?_⟩
    have hlen := hfixed.len
    rw [hok.len, BitVec.toNat_ofNat, Nat.mod_eq_of_lt hroom, length_goodBytes_congr cells] at hlen
    omega
  · rintro ⟨hin, hsizes⟩
    obtain ⟨hok, hothers⟩ := fieldsOk_after hw' hrun hin
    have hlen := (hcount (by omega)).mpr hsizes
    have hsame : read d cells offset data_size =
        goodBytes d (after cells trace) (offset.toNat + 12) (d.requested data_size) := by
      rw [goodBytes_congr fun x hx _ => hothers x (Or.inr hx)]
      rw [read, hoffset] at hlen ⊢
      exact (goodBytes_isPrefix cells _ (dataSize_le_requested hw (by omega) (by omega))).eq_of_length hlen
    exact
      { inside := (every_inside_iff hw' hreached).mpr hin
        len := by
          rw [hok.len, BitVec.toNat_ofNat, Nat.mod_eq_of_lt hroom, hsame, Nat.add_comm]
        crc := by rw [hok.crc, hsame]
        others := hothers
        again := fun heap' => by
          apply val_mtdFixtrx_of_fieldsOk hw' (hreached.congr hin hothers) hin
          have hread : read d (after cells trace) offset data_size = read d cells offset data_size :=
            goodBytes_congr fun x hx _ => hothers x (Or.inr (by omega))
          rw [hread]
          exact hok }

theorem exists_ok_of_reached (hw : 31 ≤ w) (h : Reached d malloc heap cells offset data_size)
    (herase : d.eraseBlock (d.blockOffset offset.toNat)) :
    ∃ trace, (mtdFixtrx d malloc heap cells offset data_size).val = .ok trace := by
  rw [mtdFixtrx_eq_of_reached hw h, Traced.val_bind, Traced.val_bind]
  by_cases hok : FieldsOk (blockMem d heap cells offset.toNat) (offset.toNat % d.erasesize)
      (read d cells offset data_size)
  · rw [val_setFields_of_fieldsOk hok]
    exact ⟨[], rfl⟩
  · rw [val_setFields_of_not hok]
    exact exists_rewrite _ h.block herase

end Fixed

/-- Two blocks of NOR flash. -/
def norFlash : Flash where
  erasesize := 65536
  blocks := 2
  bad := fun _ => false
  worn := fun _ => false
  erasesize_pos := by decide
  shift := 16
  nand := false
  erasesize_eq := by decide
  size_lt := by decide
  nand_of_bad := fun _ h => by cases h

/-- Erased flash with the magic of a header at `off`. -/
def magicAt (off : Nat) : Nat → Byte := store (fun _ => 0xff) off (u32le magic)

theorem field_magicAt (off : Nat) : field (magicAt off) off = magic := by
  rw [field, magicAt, ← length_u32le magic, bytesAt_store_self, ofLe_u32le]

/-- On `norFlash`, a header magic in the first block is all a run without a size asks for. -/
theorem reached_magicAt {offset : BitVec 32} (hoffset : offset.toNat ≤ 65532) :
    Reached norFlash (fun _ => true) (fun _ => 0) (magicAt offset.toNat) offset 0 := by
  have hblock : offset.toNat < norFlash.size := hoffset.trans_lt (by decide)
  have hoff : offset.toNat % norFlash.erasesize = offset.toNat := Nat.mod_eq_of_lt (hoffset.trans_lt (by decide))
  have hdata : (norFlash.dataSize (0 : BitVec 32)).toNat = 65524 := by decide
  have hstart : (offset + 12).toNat = offset.toNat + 12 := toNat_dataOffset le_rfl hblock
  have hsize : norFlash.size = 131072 := rfl
  refine ⟨?_, rfl, hblock, ?_, rfl, Or.inr ?_⟩
  · rw [BitVec.toNat_add, hstart, hdata, Nat.mod_eq_of_lt (by omega)]
    omega
  · rw [hoff, ← field_magicAt offset.toNat]
    apply field_congr
    intro i hi
    have hbase := norFlash.blockOffset_add_mod offset.toNat
    rw [blockMem_eq hblock (show offset.toNat + i < 65536 by omega)]
    congr 1
    omega
  · omega

theorem mtdFixtrx_fixed_iff_first_block :
    ∃ trace, (mtdFixtrx norFlash (fun _ => true) (fun _ => 0) (magicAt 0) (0 : BitVec 32) 0).val = .ok trace ∧
      Fixed norFlash (magicAt 0) (fun _ => true) (fun _ => 0) (0 : BitVec 32) 0 trace := by
  have hreached := @reached_magicAt 0 (by decide)
  obtain ⟨trace, hrun⟩ := exists_ok_of_reached (by decide) hreached (by decide)
  exact ⟨trace, hrun, (mtdFixtrx_fixed_iff le_rfl hrun).mpr ⟨by decide, Or.inl (by decide)⟩⟩

/-- A header whose magic is the last word of its block is accepted, and its fields are looked for behind the
block buffer. -/
theorem mtdFixtrx_not_fixed :
    ∃ trace,
      (mtdFixtrx norFlash (fun _ => true) (fun _ => 0) (magicAt 65532) (65532 : BitVec 32) 0).val = .ok trace ∧
        ¬ Fixed norFlash (magicAt 65532) (fun _ => true) (fun _ => 0) (65532 : BitVec 32) 0 trace := by
  have hreached := @reached_magicAt 65532 (by decide)
  obtain ⟨trace, hrun⟩ := exists_ok_of_reached (by decide) hreached (by decide)
  refine ⟨trace, hrun, fun hfixed => ?_⟩
  have hin := (every_inside_iff (by decide) hreached).mp hfixed.inside
  exact absurd hin (by decide)

end Immwrt.Mtd.Trx
