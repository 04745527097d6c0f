import Immwrt.Nmbm.Phys

/-!
# What the page and block operations do to the chip

Two kinds of facts. For every device: an operation on a block touches that block only, and what it
reports as done is done. For a device that does not fail: it reports success.
-/

namespace Immwrt.Nmbm

variable {nld : LowerDevice}

/-! ### Geometry -/

theorem pos_of_isPowerOf2 {n : Nat} (h : isPowerOf2 n = true) : 0 < n := by
  by_contra hn
  have hzero : n = 0 := by omega
  simp [isPowerOf2, hzero] at h

/-- What `nmbm_check_lower_members` checked. -/
theorem Geometry.members (hg : Geometry nld) :
    0 < nld.erasesize ∧ 0 < nld.writesize ∧ 0 < nld.size ∧ 0 < nld.maxRatio ∧
      nld.maxRatio < mgmtDiv - 1 := by
  have hchecked := hg.checked
  unfold checkLowerMembers at hchecked
  split at hchecked
  · cases hchecked
  rename_i hsize
  split at hchecked
  · cases hchecked
  rename_i herase
  split at hchecked
  · cases hchecked
  rename_i hwrite
  split at hchecked
  · cases hchecked
  refine ⟨pos_of_isPowerOf2 (by simpa using herase), pos_of_isPowerOf2 (by simpa using hwrite),
    pos_of_isPowerOf2 (by simpa using hsize), ?_⟩
  by_cases hratio : nld.maxRatio = 0
  · simp only [hratio, if_true] at hchecked
    split at hchecked
    · cases hchecked
    split at hchecked
    · cases hchecked
    · have := congrArg LowerDevice.maxRatio (Option.some.inj hchecked)
      simp [hratio] at this
  · simp only [hratio, if_false] at hchecked
    split at hchecked
    · cases hchecked
    · omega

theorem Geometry.erasesize_pos (hg : Geometry nld) : 0 < nld.erasesize := hg.members.1

theorem Geometry.writesize_pos (hg : Geometry nld) : 0 < nld.writesize := hg.members.2.1

theorem Geometry.pages_mul (hg : Geometry nld) : nld.pagesPerBlock * nld.writesize = nld.erasesize := by
  obtain ⟨k, hk⟩ := hg.writesize_dvd
  have hpos := hg.writesize_pos
  rw [LowerDevice.pagesPerBlock, hk, Nat.add_sub_assoc hpos, Nat.mul_add_div hpos,
    Nat.div_eq_of_lt (by omega), Nat.add_zero, Nat.mul_comm]

/-- A page lies in one block. -/
theorem Geometry.page_div (hg : Geometry nld) (off : Nat) :
    (off - off % nld.writesize) / nld.erasesize = off / nld.erasesize := by
  obtain ⟨k, hk⟩ := hg.writesize_dvd
  have hpage : off - off % nld.writesize = nld.writesize * (off / nld.writesize) := by
    have := Nat.div_add_mod off nld.writesize
    omega
  rw [hpage, hk, ← Nat.div_div_eq_div_mul, ← Nat.div_div_eq_div_mul,
    Nat.mul_div_cancel_left _ hg.writesize_pos]

@[simp]
theorem Geometry.ba2addr_div (hg : Geometry nld) (ba : Nat) :
    nld.ba2addr ba / nld.erasesize = ba :=
  Nat.mul_div_cancel _ hg.erasesize_pos

theorem div_eq_of_block {ba x : Nat} (hlo : nld.ba2addr ba ≤ x)
    (hhi : x < nld.ba2addr ba + nld.erasesize) : x / nld.erasesize = ba := by
  unfold LowerDevice.ba2addr at hlo hhi
  apply Nat.div_eq_of_lt_le
  · exact hlo
  · rw [Nat.succ_mul]
    exact hhi

/-! ### Blocks -/

/-- Two flashes have the same contents in a block. -/
def Flash.Same (nld : LowerDevice) (ba : Nat) (f g : Flash) : Prop :=
  ∀ x, x / nld.erasesize = ba → f.mem x = g.mem x ∧ f.oob x = g.oob x

theorem Flash.same_equivalence (ba : Nat) : Equivalence (Flash.Same nld ba) where
  refl _ _ _ := ⟨rfl, rfl⟩
  symm h x hx := ⟨(h x hx).1.symm, (h x hx).2.symm⟩
  trans hfg hgh x hx := ⟨(hfg x hx).1.trans (hgh x hx).1, (hfg x hx).2.trans (hgh x hx).2⟩

theorem Flash.Same.symm {ba : Nat} {f g : Flash} (h : Flash.Same nld ba f g) :
    Flash.Same nld ba g f :=
  (same_equivalence ba).symm h

theorem Flash.Same.marked {ba : Nat} {f g : Flash} (hg : Geometry nld)
    (h : Flash.Same nld ba f g) : f.marked nld ba = g.marked nld ba := by
  unfold Flash.marked
  rw [(h _ (hg.ba2addr_div ba)).2]

/-- Bytes of a run of blocks that did not change. -/
theorem bytesAt_of_same {ba n size : Nat} {f g : Flash} (hg : Geometry nld)
    (hsize : size ≤ n * nld.erasesize) (h : ∀ i, i < n → Flash.Same nld (ba + i) f g) :
    bytesAt f.mem (nld.ba2addr ba) size = bytesAt g.mem (nld.ba2addr ba) size := by
  apply bytesAt_congr
  intro x hlo hhi
  have hlt : x / nld.erasesize < ba + n := by
    apply Nat.div_lt_of_lt_mul
    unfold LowerDevice.ba2addr at hhi
    rw [Nat.mul_add, Nat.mul_comm _ ba, Nat.mul_comm _ n]
    omega
  have hle : ba ≤ x / nld.erasesize := by
    rw [Nat.le_div_iff_mul_le hg.erasesize_pos]
    exact hlo
  obtain ⟨i, hi⟩ := Nat.exists_eq_add_of_le hle
  exact (h i (by omega) x hi).1

theorem Flash.withBlock_agreeOff (f g : Flash) (ba : Nat) :
    AgreeOff (Flash.Same nld) {ba} f (f.withBlock nld g ba) := by
  intro b hb x hx
  have hne : x / nld.erasesize ≠ ba := by
    rw [hx]
    simpa using hb
  simp [Flash.withBlock, hne]

theorem Flash.withBlock_withBlock (f g h : Flash) (ba : Nat) :
    (f.withBlock nld g ba).withBlock nld h ba = f.withBlock nld h ba := by
  unfold Flash.withBlock
  congr 1 <;> funext x <;> by_cases hx : x / nld.erasesize = ba <;> simp [hx]

/-- Programming the main area of a page is a store to memory. -/
theorem Flash.withBlock_program (hg : Geometry nld) {f : Flash} {addr : Nat} {bytes : List Byte}
    (mode : OobMode) (haligned : nld.writesize ∣ addr) (hlen : bytes.length = nld.writesize) :
    f.withBlock nld (f.program addr (some bytes) none mode) (addr / nld.erasesize)
      = { f with mem := store f.mem addr bytes } := by
  unfold Flash.withBlock Flash.program
  congr 1 <;> funext x
  · simp only
    split
    · rfl
    · rename_i hne
      rw [store, if_neg]
      rintro ⟨hlo, hhi⟩
      apply hne
      obtain ⟨k, hk⟩ := haligned
      have hpage : x - x % nld.writesize = addr := by
        have hx : x / nld.writesize = k := by
          apply Nat.div_eq_of_lt_le
          · rw [Nat.mul_comm]
            omega
          · rw [Nat.succ_mul, Nat.mul_comm]
            omega
        have := Nat.div_add_mod x nld.writesize
        rw [hx, ← hk] at this
        omega
      rw [← hg.page_div x, hpage]
  · simp

/-! ### Touching blocks -/

/-- From `d` to `d'` the device erased or programmed blocks of `S` only. -/
structure Touches (nld : LowerDevice) (S : Set Nat) (d d' : Device) : Prop where
  tape : d'.tape = d.tape
  pos : d.pos ≤ d'.pos
  log : ∃ new, d'.ops = new ++ d.ops ∧ Replays (Flash.Same nld) d.flash new d'.flash ∧
    ∀ w ∈ new, w.ba ∈ S

variable {S T : Set Nat} {d d' d'' : Device}

theorem Touches.refl (S : Set Nat) (d : Device) : Touches nld S d d :=
  ⟨rfl, le_rfl, [], rfl, .nil, by simp⟩

theorem Touches.trans (h : Touches nld S d d') (h' : Touches nld S d' d'') :
    Touches nld S d d'' := by
  obtain ⟨new, hops, hrep, hmem⟩ := h.log
  obtain ⟨new', hops', hrep', hmem'⟩ := h'.log
  refine ⟨h'.tape.trans h.tape, h.pos.trans h'.pos, new' ++ new, ?_, hrep.append hrep', ?_⟩
  · rw [hops', hops, List.append_assoc]
  · intro w hw
    rcases List.mem_append.mp hw with hw | hw
    · exact hmem' w hw
    · exact hmem w hw

theorem Touches.mono (hsub : S ⊆ T) (h : Touches nld S d d') : Touches nld T d d' := by
  obtain ⟨new, hops, hrep, hmem⟩ := h.log
  exact ⟨h.tape, h.pos, new, hops, hrep, fun w hw => hsub (hmem w hw)⟩

/-- The page cache is not on the chip. -/
theorem Touches.cache (h : Touches nld S d d') (cache : List Byte) :
    Touches nld S d { d' with pageCache := cache } :=
  ⟨h.tape, h.pos, h.log⟩

theorem Touches.of_cache {cache : List Byte}
    (h : Touches nld S { d with pageCache := cache } d') : Touches nld S d d' :=
  ⟨h.tape, h.pos, h.log⟩

theorem Touches.agreeOff (h : Touches nld S d d') :
    AgreeOff (Flash.Same nld) S d.flash d'.flash := by
  obtain ⟨new, -, hrep, hmem⟩ := h.log
  exact hrep.agreeOff Flash.same_equivalence hmem

theorem Touches.healthy (h : Touches nld S d d') (hd : d.Healthy) : d'.Healthy := by
  intro i hi
  rw [h.tape]
  exact hd i (h.pos.trans hi)

theorem Device.Healthy.answer (hd : d.Healthy) : d.answer.Ok := hd d.pos le_rfl

theorem next_touches (S : Set Nat) (d : Device) : Touches nld S d d.next :=
  ⟨rfl, Nat.le_succ _, [], rfl, .nil, by simp⟩

theorem record_touches (nld : LowerDevice) (d : Device) (addr : Nat) (g : Flash) :
    Touches nld {addr / nld.erasesize} d
      (d.record nld addr (d.flash.withBlock nld g (addr / nld.erasesize))) :=
  ⟨rfl, Nat.le_succ _, [⟨_, _⟩], rfl, .cons .nil (Flash.withBlock_agreeOff _ _ _), by simp⟩

/-! ### Reading -/

theorem readPhysPage_touches (nld : LowerDevice) (S : Set Nat) (addr : Nat) (d : Device) :
    Touches nld S d (readPhysPage nld addr d).2 := by
  unfold readPhysPage
  generalize tryCount - 1 = n
  induction n generalizing d with
  | zero => exact next_touches S d
  | succ n ih =>
      rw [readPhysPageTry]
      split
      · exact next_touches S d
      · exact (next_touches S d).trans (ih d.next)

theorem readPhysPage_flash (nld : LowerDevice) (addr : Nat) (d : Device) :
    (readPhysPage nld addr d).2.flash = d.flash := by
  unfold readPhysPage
  generalize tryCount - 1 = n
  induction n generalizing d with
  | zero => rfl
  | succ n ih =>
      rw [readPhysPageTry]
      split
      · rfl
      · exact ih d.next

theorem readPhysPage_length (nld : LowerDevice) (addr : Nat) (d : Device) :
    (readPhysPage nld addr d).1.2.length = nld.writesize := by
  unfold readPhysPage
  generalize tryCount - 1 = n
  induction n generalizing d with
  | zero => simp [readPhysPageTry, Device.readPage]
  | succ n ih =>
      rw [readPhysPageTry]
      split
      · simp [Device.readPage]
      · exact ih d.next

/-- A page that was read is the page on the chip. -/
theorem readPhysPage_data {nld : LowerDevice} {addr : Nat} {d : Device} (h : 0 ≤ (readPhysPage nld addr d).1.1) :
    (readPhysPage nld addr d).1.2 = bytesAt d.flash.mem addr nld.writesize := by
  unfold readPhysPage at h ⊢
  generalize tryCount - 1 = n at h ⊢
  induction n generalizing d with
  | zero =>
      rw [readPhysPageTry, Device.readPage] at h ⊢
      simp only at h ⊢
      rw [if_pos h]
  | succ n ih =>
      rw [readPhysPageTry] at h ⊢
      split
      · rename_i hret
        rw [Device.readPage] at hret ⊢
        simp only at hret ⊢
        rw [if_pos hret]
      · rename_i hret
        rw [if_neg hret] at h
        exact ih h

theorem readPhysPage_healthy (nld : LowerDevice) (hd : d.Healthy) (addr : Nat) :
    0 ≤ (readPhysPage nld addr d).1.1 := by
  have hret : 0 ≤ (d.readPage nld addr).1.1 := hd.answer.1
  unfold readPhysPage
  generalize tryCount - 1 = n
  cases n with
  | zero => exact hret
  | succ n =>
      rw [readPhysPageTry]
      rw [if_pos hret]
      exact hret

theorem readPhysMarkTry_touches (S : Set Nat) (addr n : Nat) (d : Device) :
    Touches nld S d (readPhysMarkTry addr n d).2 := by
  induction n generalizing d with
  | zero => exact next_touches S d
  | succ n ih =>
      rw [readPhysMarkTry]
      split
      · exact next_touches S d
      · exact (next_touches S d).trans (ih d.next)

theorem readPhysMarkTry_flash (addr n : Nat) (d : Device) :
    (readPhysMarkTry addr n d).2.flash = d.flash := by
  induction n generalizing d with
  | zero => rfl
  | succ n ih =>
      rw [readPhysMarkTry]
      split
      · rfl
      · exact ih d.next

theorem readPhysMarkTry_healthy (hd : d.Healthy) (addr n : Nat) :
    (readPhysMarkTry addr n d).1 = (d.answer.readRet, d.flash.oob addr 0) := by
  have hret : 0 ≤ d.answer.readRet := hd.answer.1
  have hread : (d.readMark addr).1 = (d.answer.readRet, d.flash.oob addr 0) := by
    simp [Device.readMark, hret]
  cases n with
  | zero => exact hread
  | succ n =>
      rw [readPhysMarkTry]
      rw [if_pos (by rw [hread]; exact hret)]
      exact hread

theorem checkBadPhysBlock_touches (nld : LowerDevice) (S : Set Nat) (ba : Nat) (d : Device) :
    Touches nld S d (checkBadPhysBlock nld ba d).2 := by
  unfold checkBadPhysBlock
  split
  · exact next_touches S d
  · dsimp only
    split
    · exact readPhysMarkTry_touches S _ _ d
    · exact (readPhysMarkTry_touches S _ _ d).cache _

theorem checkBadPhysBlock_flash (ba : Nat) (d : Device) :
    (checkBadPhysBlock nld ba d).2.flash = d.flash := by
  unfold checkBadPhysBlock
  split
  · rfl
  · dsimp only
    split <;> exact readPhysMarkTry_flash _ _ d

/-- Marks are seen by a device that does not fail. -/
theorem checkBadPhysBlock_healthy (hd : d.Healthy) (ba : Nat) :
    (checkBadPhysBlock nld ba d).1 = d.flash.marked nld ba := by
  obtain ⟨hread, -, -, -, hlie⟩ := hd.answer
  unfold checkBadPhysBlock
  split
  · simp [Device.isBadBlock, hlie]
  · dsimp only
    rw [readPhysMarkTry_healthy hd]
    simp only
    rw [if_neg (by omega)]
    rfl

/-! ### Programming and erasing -/

theorem writePhysPage_touches (nld : LowerDevice) (addr : Nat) (data oob : Option (List Byte)) (mode : OobMode)
    (d : Device) :
    Touches nld {addr / nld.erasesize} d (writePhysPage nld addr data oob mode d).2 := by
  unfold writePhysPage
  split
  · exact .refl _ d
  generalize tryCount = n
  induction n generalizing d with
  | zero => exact .refl _ d
  | succ n ih =>
      rw [writePhysPageTry]
      have hfirst : Touches nld {addr / nld.erasesize} d (d.writePage nld addr data oob mode).2 :=
        record_touches nld d addr _
      split
      · exact hfirst
      · exact hfirst.trans (ih _)

/-- A page that was programmed holds the data, and nothing else changed. -/
theorem writePhysPage_flash (hg : Geometry nld) {addr : Nat} {bytes : List Byte} {mode : OobMode}
    {d : Device} (haligned : nld.writesize ∣ addr) (hlen : bytes.length = nld.writesize)
    (h : (writePhysPage nld addr (some bytes) none mode d).1 = true) :
    (writePhysPage nld addr (some bytes) none mode d).2.flash
      = { d.flash with mem := store d.flash.mem addr bytes } := by
  unfold writePhysPage at h ⊢
  split
  · rename_i hro
    simp [hro] at h
  rename_i hro
  rw [if_neg hro] at h
  generalize tryCount = n at h ⊢
  induction n generalizing d with
  | zero => simp [writePhysPageTry] at h
  | succ n ih =>
      rw [writePhysPageTry] at h ⊢
      dsimp only at h ⊢
      split
      · rename_i hret
        simp only [Device.writePage] at hret
        simp only [Device.writePage, Device.record, hret, if_true]
        exact Flash.withBlock_program hg mode haligned hlen
      · rename_i hret
        rw [if_neg hret] at h
        rw [ih h]
        simp only [Device.writePage] at hret
        simp only [Device.writePage, Device.record, hret, if_false, Option.map_some,
          Option.map_none]
        rw [Flash.withBlock_program hg mode haligned (by simpa using hlen)]
        congr 1
        funext x
        simp only [store, length_bytesAt]
        split <;> rfl

theorem writePhysPage_healthy (hrw : nld.readOnly = false) (hd : d.Healthy) (addr : Nat)
    (data oob : Option (List Byte)) (mode : OobMode) :
    (writePhysPage nld addr data oob mode d).1 = true := by
  simp only [writePhysPage, hrw, tryCount]
  rw [if_neg (by simp), writePhysPageTry]
  have hret : (d.writePage nld addr data oob mode).1 = 0 := hd.answer.2.1
  rw [if_pos hret]

theorem erasePhysBlock_touches (nld : LowerDevice) (addr : Nat) (d : Device) :
    Touches nld {addr / nld.erasesize} d (erasePhysBlock nld addr d).2 := by
  unfold erasePhysBlock
  split
  · exact .refl _ d
  generalize tryCount = n
  induction n generalizing d with
  | zero => exact .refl _ d
  | succ n ih =>
      rw [erasePhysBlockTry]
      have hfirst : Touches nld {addr / nld.erasesize} d (d.eraseBlock nld addr).2 :=
        record_touches nld d addr _
      split
      · exact hfirst
      · exact hfirst.trans (ih _)

theorem erasePhysBlock_flash (hg : Geometry nld) {ba : Nat} {d : Device}
    (h : (erasePhysBlock nld (nld.ba2addr ba) d).1 = true) :
    (erasePhysBlock nld (nld.ba2addr ba) d).2.flash = d.flash.withBlock nld .erased ba := by
  unfold erasePhysBlock at h ⊢
  split
  · rename_i hro
    simp [hro] at h
  rename_i hro
  rw [if_neg hro] at h
  generalize tryCount = n at h ⊢
  induction n generalizing d with
  | zero => simp [erasePhysBlockTry] at h
  | succ n ih =>
      rw [erasePhysBlockTry] at h ⊢
      split
      · rename_i hret
        simp only [Device.eraseBlock] at hret
        simp only [Device.eraseBlock, Device.record, hret, if_true, hg.ba2addr_div]
      · rename_i hret
        rw [if_neg hret] at h
        rw [ih h]
        simp only [Device.eraseBlock, Device.record, hg.ba2addr_div]
        exact Flash.withBlock_withBlock _ _ _ _

theorem erasePhysBlock_healthy (hrw : nld.readOnly = false) (hd : d.Healthy) (addr : Nat) :
    (erasePhysBlock nld addr d).1 = true := by
  simp only [erasePhysBlock, hrw, tryCount]
  rw [if_neg (by simp), erasePhysBlockTry]
  have hret : (d.eraseBlock nld addr).1 = 0 := hd.answer.2.2.1
  rw [if_pos hret]

theorem checkEmptyPages_touches (S : Set Nat) (addr n : Nat) (d : Device) :
    Touches nld S d (checkEmptyPages nld addr n d).2 := by
  induction n generalizing addr d with
  | zero => exact .refl S d
  | succ n ih =>
      rw [checkEmptyPages]
      dsimp only
      have hread := (readPhysPage_touches nld S addr d).cache
        (splice (readPhysPage nld addr d).2.pageCache 0 (readPhysPage nld addr d).1.2)
      split
      · exact hread
      · exact hread.trans (ih _ _)

theorem checkEmptyPages_flash (addr n : Nat) (d : Device) :
    (checkEmptyPages nld addr n d).2.flash = d.flash := by
  induction n generalizing addr d with
  | zero => rfl
  | succ n ih =>
      rw [checkEmptyPages]
      dsimp only
      split
      · exact readPhysPage_flash nld addr d
      · rw [ih]
        exact readPhysPage_flash nld addr d

theorem checkEmptyPages_healthy (hd : d.Healthy) (addr n : Nat) :
    (checkEmptyPages nld addr n d).1 = true := by
  induction n generalizing addr d with
  | zero => rfl
  | succ n ih =>
      rw [checkEmptyPages]
      dsimp only
      have hret := readPhysPage_healthy nld hd addr
      rw [if_neg (by simp only [ebadmsg]; omega)]
      exact ih (((readPhysPage_touches nld ∅ addr d).cache _).healthy hd) _

theorem eraseBlockAndCheck_touches (hpos : 0 < nld.erasesize) (ba : Nat) (d : Device) :
    Touches nld {ba} d (eraseBlockAndCheck nld ba d).2 := by
  unfold eraseBlockAndCheck
  dsimp only
  have herase := erasePhysBlock_touches nld (nld.ba2addr ba) d
  rw [LowerDevice.ba2addr, Nat.mul_div_cancel _ hpos] at herase
  split
  · exact herase
  split
  · exact herase
  · exact herase.trans (checkEmptyPages_touches _ _ _ _)

/-- A block that was erased and checked is empty, and nothing else changed. -/
theorem eraseBlockAndCheck_flash (hg : Geometry nld) {ba : Nat} {d : Device}
    (h : (eraseBlockAndCheck nld ba d).1 = true) :
    (eraseBlockAndCheck nld ba d).2.flash = d.flash.withBlock nld .erased ba := by
  unfold eraseBlockAndCheck at h ⊢
  dsimp only at h ⊢
  cases herase : (erasePhysBlock nld (nld.ba2addr ba) d).1 with
  | false => simp [herase] at h
  | true =>
      have hflash := erasePhysBlock_flash hg herase
      simp only [Bool.not_true, Bool.false_eq_true, if_false]
      split
      · exact hflash
      · rw [checkEmptyPages_flash, hflash]

theorem eraseBlockAndCheck_healthy (hrw : nld.readOnly = false) (hd : d.Healthy)
    (ba : Nat) : (eraseBlockAndCheck nld ba d).1 = true := by
  unfold eraseBlockAndCheck
  dsimp only
  rw [erasePhysBlock_healthy hrw hd]
  simp only [Bool.not_true, Bool.false_eq_true, if_false]
  split
  · rfl
  · exact checkEmptyPages_healthy ((erasePhysBlock_touches nld _ d).healthy hd) _ _

theorem zeroPages_touches (hg : Geometry nld) (ba k n : Nat) (d : Device)
    (hpages : k + n = nld.pagesPerBlock) :
    Touches nld {ba} d (zeroPages nld (nld.ba2addr ba + k * nld.writesize) n d) := by
  induction n generalizing k d with
  | zero => exact .refl _ d
  | succ n ih =>
      rw [zeroPages, Nat.add_assoc, ← Nat.succ_mul]
      refine Touches.trans ?_ (ih _ _ (by omega))
      have hblock : (nld.ba2addr ba + k * nld.writesize) / nld.erasesize = ba := by
        apply div_eq_of_block (by omega)
        have hlt : k * nld.writesize < nld.pagesPerBlock * nld.writesize :=
          Nat.mul_lt_mul_of_pos_right (by omega) hg.writesize_pos
        rw [hg.pages_mul] at hlt
        omega
      have hwrite := writePhysPage_touches nld (nld.ba2addr ba + k * nld.writesize)
        (some (List.replicate nld.writesize 0)) (some (List.replicate nld.oobsize 0)) .raw d
      rwa [hblock] at hwrite

theorem markPhysBadBlock_touches (hg : Geometry nld) (ba : Nat) (d : Device) :
    Touches nld {ba} d (markPhysBadBlock nld ba d) := by
  unfold markPhysBadBlock
  split
  · exact .refl _ d
  split
  · have hrecord := record_touches nld d (nld.ba2addr ba)
    rw [hg.ba2addr_div] at hrecord
    exact hrecord _
  · have hzero := zeroPages_touches hg ba 0 nld.pagesPerBlock
      { d with pageCache := List.replicate (nld.writesize + nld.oobsize) 0 } (Nat.zero_add _)
    rw [Nat.zero_mul, Nat.add_zero] at hzero
    exact hzero.of_cache

/-! ### Runs of bytes -/

theorem LowerDevice.chunk_le (nld : LowerDevice) (off size : Nat) : nld.chunk off size ≤ size := min_le_right _ _

theorem chunk_pos (hpos : 0 < nld.writesize) {off size : Nat} (hsize : 0 < size) :
    0 < nld.chunk off size := by
  have hmod := Nat.mod_lt off hpos
  unfold LowerDevice.chunk
  omega

theorem chunk_aligned {off : Nat} (haligned : nld.writesize ∣ off) (size : Nat) :
    nld.chunk off size = min nld.writesize size := by
  rw [LowerDevice.chunk, Nat.mod_eq_zero_of_dvd haligned, Nat.sub_zero]

theorem readDataLoop_touches (S : Set Nat) (n off size : Nat) (d : Device) :
    Touches nld S d (readDataLoop nld n off size d).2 := by
  induction n generalizing off size d with
  | zero => exact .refl S d
  | succ n ih =>
      rw [readDataLoop]
      split
      · exact .refl S d
      dsimp only
      have hread := readPhysPage_touches nld S (off - off % nld.writesize) d
      split <;> split
      · exact hread
      · exact hread.cache _
      · exact hread.trans (ih _ _ _)
      · exact (hread.cache _).trans (ih _ _ _)

theorem readDataLoop_flash (n off size : Nat) (d : Device) :
    (readDataLoop nld n off size d).2.flash = d.flash := by
  induction n generalizing off size d with
  | zero => rfl
  | succ n ih =>
      rw [readDataLoop]
      split
      · rfl
      dsimp only
      have hread := readPhysPage_flash nld (off - off % nld.writesize) d
      split <;> split
      · exact hread
      · exact hread
      · rw [ih]
        exact hread
      · rw [ih]
        exact hread

/-- Bytes that were read are the bytes on the chip. -/
theorem readDataLoop_data (hpos : 0 < nld.writesize) {n off size : Nat} {d : Device} (hn : size ≤ n)
    (h : 0 ≤ (readDataLoop nld n off size d).1.1) :
    (readDataLoop nld n off size d).1 = (0, bytesAt d.flash.mem off size) := by
  induction n generalizing off size d with
  | zero =>
      obtain rfl : size = 0 := by omega
      rfl
  | succ n ih =>
      rw [readDataLoop] at h ⊢
      by_cases hsize : size = 0
      · rw [if_pos hsize]
        subst hsize
        rfl
      rw [if_neg hsize] at h ⊢
      dsimp only at h ⊢
      set r := readPhysPage nld (off - off % nld.writesize) d with hr
      set c := nld.chunk off size with hc
      have hmod := Nat.mod_lt off hpos
      have hcpos : 0 < c := chunk_pos hpos (by omega)
      have hcle : c ≤ size := nld.chunk_le off size
      have hcpage : off % nld.writesize + c ≤ nld.writesize := by
        rw [hc, LowerDevice.chunk]
        omega
      by_cases hret : r.1.1 < 0
      · rw [if_pos hret] at h
        exact absurd h (by simpa using hret)
      rw [if_neg hret] at h ⊢
      have hdata : r.1.2 = bytesAt d.flash.mem (off - off % nld.writesize) nld.writesize :=
        readPhysPage_data (by rw [← hr]; omega)
      have hslice : slice r.1.2 (off % nld.writesize) c = bytesAt d.flash.mem off c := by
        rw [hdata, slice_bytesAt _ _ hcpage]
        congr 1
        have := Nat.mod_le off nld.writesize
        omega
      have hflash : ∀ e : Device, e = r.2 ∨ e = { r.2 with pageCache := splice r.2.pageCache 0 r.1.2 } →
          e.flash = d.flash := by
        rintro e (rfl | rfl) <;> rw [hr] <;> exact readPhysPage_flash nld _ d
      set e : Device := if c = nld.writesize then r.2
        else { r.2 with pageCache := splice r.2.pageCache 0 r.1.2 } with he
      have heflash : e.flash = d.flash := by
        apply hflash
        rw [he]
        split
        · exact .inl rfl
        · exact .inr rfl
      rw [ih (by omega) h]
      rw [hslice, heflash, ← bytesAt_add, Nat.add_sub_cancel' hcle]

theorem readDataLoop_healthy (hd : d.Healthy) (n off size : Nat) :
    0 ≤ (readDataLoop nld n off size d).1.1 := by
  induction n generalizing off size d with
  | zero => exact le_rfl
  | succ n ih =>
      rw [readDataLoop]
      split
      · exact le_rfl
      dsimp only
      have hread := readPhysPage_healthy nld hd (off - off % nld.writesize)
      have htouch := readPhysPage_touches nld ∅ (off - off % nld.writesize) d
      rw [if_neg (by omega)]
      split
      · exact ih (htouch.healthy hd) _ _
      · exact ih ((htouch.cache _).healthy hd) _ _

theorem readData_touches (S : Set Nat) (addr size : Nat) (d : Device) :
    Touches nld S d (readData nld addr size d).2 :=
  readDataLoop_touches S size addr size d

theorem readData_flash (addr size : Nat) (d : Device) :
    (readData nld addr size d).2.flash = d.flash :=
  readDataLoop_flash size addr size d

theorem readData_data (hpos : 0 < nld.writesize) {addr size : Nat} {d : Device}
    (h : 0 ≤ (readData nld addr size d).1.1) :
    (readData nld addr size d).1 = (0, bytesAt d.flash.mem addr size) :=
  readDataLoop_data hpos le_rfl h

theorem readData_healthy (hpos : 0 < nld.writesize) (hd : d.Healthy) (addr size : Nat) :
    (readData nld addr size d).1 = (0, bytesAt d.flash.mem addr size) :=
  readData_data hpos (readDataLoop_healthy hd size addr size)

theorem dvd_page (off : Nat) : nld.writesize ∣ off - off % nld.writesize := by
  refine ⟨off / nld.writesize, ?_⟩
  have := Nat.div_add_mod off nld.writesize
  omega

theorem writeVerifyDataLoop_touches (hg : Geometry nld) {ba n off : Nat} {data : List Byte}
    (d : Device) (hlo : nld.ba2addr ba ≤ off)
    (hhi : off + data.length ≤ nld.ba2addr ba + nld.erasesize) :
    Touches nld {ba} d (writeVerifyDataLoop nld n off data d).2 := by
  induction n generalizing off data d with
  | zero => exact .refl _ d
  | succ n ih =>
      rw [writeVerifyDataLoop]
      split
      · exact .refl _ d
      rename_i hdata
      dsimp only
      have hpos : 0 < data.length := by
        apply List.length_pos_of_ne_nil
        simpa using hdata
      have hblock : (off - off % nld.writesize) / nld.erasesize = ba := by
        rw [hg.page_div]
        exact div_eq_of_block hlo (by omega)
      generalize hpage : splice (List.replicate nld.writesize 0xff) (off % nld.writesize)
        (data.take (nld.chunk off data.length)) = page
      have hwrite := (writePhysPage_touches nld (off - off % nld.writesize) (some page) none
        .placeOob { d with pageCache := page ++ List.replicate nld.oobsize 0xff }).of_cache
      rw [hblock] at hwrite
      split
      · exact hwrite
      have hread := hwrite.trans (readPhysPage_touches nld _ (off - off % nld.writesize) _)
      split
      · exact hread.cache _
      split
      · exact hread.cache _
      · refine (hread.cache _).trans (ih _ (by omega) ?_)
        have hchunk := nld.chunk_le off data.length
        rw [List.length_drop]
        omega

/-- Data that was written and verified is on the chip, and the spare area is as it was. -/
theorem writeVerifyDataLoop_flash (hg : Geometry nld) {n off : Nat} {data : List Byte} {d : Device}
    (hn : data.length ≤ n) (haligned : nld.writesize ∣ off ∨ data = [])
    (h : (writeVerifyDataLoop nld n off data d).1 = true) :
    ∃ mem, (writeVerifyDataLoop nld n off data d).2.flash = { d.flash with mem := mem } ∧
      bytesAt mem off data.length = data ∧ ∀ x, x < off → mem x = d.flash.mem x := by
  induction n generalizing off data d with
  | zero =>
      obtain rfl : data = [] := List.length_eq_zero_iff.mp (by omega)
      exact ⟨d.flash.mem, rfl, rfl, fun x _ => rfl⟩
  | succ n ih =>
      rw [writeVerifyDataLoop] at h ⊢
      by_cases hempty : data = []
      · subst hempty
        exact ⟨d.flash.mem, rfl, rfl, fun x _ => rfl⟩
      have haligned := haligned.resolve_right hempty
      have hmod : off % nld.writesize = 0 := Nat.mod_eq_zero_of_dvd haligned
      have hpos := List.length_pos_of_ne_nil hempty
      rw [if_neg (by simpa using hempty)] at h ⊢
      dsimp only at h ⊢
      rw [chunk_aligned haligned, hmod, Nat.sub_zero] at h ⊢
      set c := min nld.writesize data.length with hc
      set page := splice (List.replicate nld.writesize 0xff) 0 (data.take c) with hpage
      set w := writePhysPage nld off (some page) none .placeOob
        { d with pageCache := page ++ List.replicate nld.oobsize 0xff } with hw
      have hclen : (data.take c).length = c := by simp [hc]
      have hlen : page.length = nld.writesize := by
        rw [hpage, length_splice] <;> simp [hc]
      cases hok : w.1 with
      | false => simp [hok] at h
      | true =>
          simp only [hok, Bool.not_true, Bool.false_eq_true, if_false] at h ⊢
          have hflash := writePhysPage_flash hg haligned hlen hok
          rw [← hw] at hflash
          split
          · rename_i hret
            simp [hret] at h
          rename_i hret
          rw [if_neg hret] at h
          split
          · rename_i hne
            rw [if_pos hne] at h
            exact absurd h (by simp)
          rename_i heq
          rw [if_neg heq] at h
          have hrest : nld.writesize ∣ off + c ∨ data.drop c = [] := by
            by_cases hle : nld.writesize ≤ data.length
            · rw [hc, min_eq_left hle]
              exact .inl (Nat.dvd_add haligned (dvd_refl _))
            · rw [hc, min_eq_right (by omega)]
              exact .inr (List.drop_length)
          have hwpos := hg.writesize_pos
          obtain ⟨mem, hmem, hbytes, hbelow⟩ := ih (by rw [List.length_drop]; omega) hrest h
          have hread : (readPhysPage nld off w.2).2.flash
              = { d.flash with mem := store d.flash.mem off page } := by
            rw [readPhysPage_flash nld, hflash]
          simp only [hread] at hbelow
          refine ⟨mem, hmem.trans (by simp only [hread]), ?_, fun x hx => ?_⟩
          · have hhead : bytesAt mem off c = data.take c := by
              rw [bytesAt_congr fun x _ hx => hbelow x hx]
              rw [← take_bytesAt _ _ (n := nld.writesize) (by omega), ← hlen, bytesAt_store_self,
                hpage]
              rw [splice, List.take_zero, List.nil_append, List.take_left' hclen]
            have hsplit : data.length = c + (data.drop c).length := by
              rw [List.length_drop]
              omega
            rw [hsplit, bytesAt_add, hhead, hbytes, List.take_append_drop]
          · rw [hbelow x (by omega)]
            exact store_of_lt _ _ hx

theorem writeVerifyDataLoop_healthy (hg : Geometry nld) (hrw : nld.readOnly = false)
    (hd : d.Healthy) (n off : Nat) (data : List Byte) :
    (writeVerifyDataLoop nld n off data d).1 = true := by
  induction n generalizing off data d with
  | zero => rfl
  | succ n ih =>
      rw [writeVerifyDataLoop]
      split
      · rfl
      dsimp only
      generalize hpage : splice (List.replicate nld.writesize 0xff) (off % nld.writesize)
        (data.take (nld.chunk off data.length)) = page
      have hmod := Nat.mod_lt off hg.writesize_pos
      have hclen : (data.take (nld.chunk off data.length)).length = nld.chunk off data.length := by
        simp [LowerDevice.chunk_le]
      have hroom : off % nld.writesize + (data.take (nld.chunk off data.length)).length
          ≤ (List.replicate nld.writesize (0xff : Byte)).length := by
        rw [hclen, List.length_replicate, LowerDevice.chunk]
        omega
      have hlen : page.length = nld.writesize := by
        rw [← hpage, length_splice hroom, List.length_replicate]
      set w := writePhysPage nld (off - off % nld.writesize) (some page) none .placeOob
        { d with pageCache := page ++ List.replicate nld.oobsize 0xff } with hw
      have hd' : Device.Healthy { d with pageCache := page ++ List.replicate nld.oobsize 0xff } :=
        hd
      have hok : w.1 = true := writePhysPage_healthy hrw hd' _ _ _ _
      have hflash := writePhysPage_flash hg (dvd_page off) hlen hok
      rw [← hw] at hflash
      have hw' : w.2.Healthy := (writePhysPage_touches nld _ _ _ _ _).healthy hd'
      have hret := readPhysPage_healthy nld hw' (off - off % nld.writesize)
      have hread : (readPhysPage nld (off - off % nld.writesize) w.2).1.2 = page := by
        rw [readPhysPage_data hret, hflash]
        simp only
        rw [← hlen, bytesAt_store_self]
      have hback : slice page (off % nld.writesize) (nld.chunk off data.length)
          = data.take (nld.chunk off data.length) := by
        have hleading : off % nld.writesize ≤ (List.replicate nld.writesize (0xff : Byte)).length := by
          rw [List.length_replicate]
          omega
        have hself := @slice_splice_self _ _ (data.take (nld.chunk off data.length)) hleading
        rwa [hclen, hpage] at hself
      rw [hok]
      simp only [Bool.not_true, Bool.false_eq_true, if_false]
      rw [if_neg (by omega), hread, if_neg (by simpa using hback)]
      exact ih (((readPhysPage_touches nld ∅ _ _).cache _).healthy hw') _ _

theorem writeVerifyData_touches (hg : Geometry nld) (ba : Nat) {data : List Byte} (d : Device)
    (hlen : data.length ≤ nld.erasesize) :
    Touches nld {ba} d (writeVerifyData nld (nld.ba2addr ba) data d).2 :=
  writeVerifyDataLoop_touches hg d le_rfl (by omega)

theorem writeVerifyData_flash (hg : Geometry nld) {ba : Nat} {data : List Byte} {d : Device}
    (h : (writeVerifyData nld (nld.ba2addr ba) data d).1 = true) :
    ∃ mem, (writeVerifyData nld (nld.ba2addr ba) data d).2.flash = { d.flash with mem := mem } ∧
      bytesAt mem (nld.ba2addr ba) data.length = data := by
  obtain ⟨mem, hflash, hbytes, -⟩ := writeVerifyDataLoop_flash hg le_rfl
    (.inl (hg.writesize_dvd.mul_left ba)) h
  exact ⟨mem, hflash, hbytes⟩

theorem writeVerifyData_healthy (hg : Geometry nld) (hrw : nld.readOnly = false) (hd : d.Healthy)
    (addr : Nat) (data : List Byte) : (writeVerifyData nld addr data d).1 = true :=
  writeVerifyDataLoop_healthy hg hrw hd _ _ _

end Immwrt.Nmbm
