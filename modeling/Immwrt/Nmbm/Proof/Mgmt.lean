import Immwrt.Nmbm.Table
import Immwrt.Nmbm.Proof.Device
import Immwrt.Nmbm.Proof.State

/-!
# What the management loops do

`Works lo hi s s'` is all the info-table code can do between two recordings: it erases and programs
blocks of `[lo, hi)`, and turns good blocks among them bad. Everything else of the instance is as it
was. A table that is written in consecutive blocks is on the chip when the write returns.
-/

namespace Immwrt.Nmbm

variable {nld : LowerDevice}

/-! ### Frames -/

/-- From `s` to `s'` the info-table code worked on blocks of `[lo, hi)`. -/
structure Works (nld : LowerDevice) (lo hi : Nat) (s s' : Sys) : Prop where
  rest : s'.ni = { s.ni with
    blockState := s'.ni.blockState, blockStateChanged := s'.ni.blockStateChanged }
  length : s'.ni.blockState.length = s.ni.blockState.length
  state : ∀ ba, s'.ni.getBlockState ba = s.ni.getBlockState ba ∨
    lo ≤ ba ∧ ba < hi ∧ s.ni.getBlockState ba = blockStGood ∧ s'.ni.getBlockState ba = blockStBad
  found : s'.hist.badFound = s.hist.badFound ∧ s'.ni = s.ni ∨
    s'.hist.badFound ≠ [] ∧ s.ni.blockStateChanged < s'.ni.blockStateChanged ∧
      ∃ ba, s.ni.getBlockState ba = blockStGood ∧ s'.ni.getBlockState ba = blockStBad
  touches : Touches nld {ba | lo ≤ ba ∧ ba < hi} s.dev s'.dev
  access : ∀ a ∈ s'.hist.mgmt, a ∈ s.hist.mgmt ∨ lo ≤ a.ba ∧ a.ba < hi ∧
    a.blockMapping = s.ni.blockMapping ∧ a.dataBlockCount = s.ni.dataBlockCount ∧
    a.signatureBa = s.ni.signatureBa
  tables : s.hist.tables <:+ s'.hist.tables
  hist : s'.hist = { s.hist with
    mgmt := s'.hist.mgmt, badFound := s'.hist.badFound, tables := s'.hist.tables }

variable {lo hi lo' hi' : Nat} {s s' s'' : Sys}

theorem good_ne_bad : blockStGood ≠ blockStBad := by decide

theorem Works.refl (lo hi : Nat) (s : Sys) : Works nld lo hi s s where
  rest := rfl
  length := rfl
  state _ := .inl rfl
  found := .inl ⟨rfl, rfl⟩
  touches := .refl _ _
  access _ ha := .inl ha
  tables := List.suffix_rfl
  hist := rfl

theorem Works.mono (hlo : lo' ≤ lo) (hhi : hi ≤ hi') (h : Works nld lo hi s s') :
    Works nld lo' hi' s s' where
  rest := h.rest
  length := h.length
  state ba := (h.state ba).imp_right fun ⟨h1, h2, h3⟩ => ⟨by omega, by omega, h3⟩
  found := h.found
  touches := h.touches.mono fun _ hba => ⟨hlo.trans hba.1, hba.2.trans_le hhi⟩
  access a ha := (h.access a ha).imp_right fun ⟨h1, h2, h3⟩ => ⟨by omega, by omega, h3⟩
  tables := h.tables
  hist := h.hist

/-- A block that is good afterwards was good before. -/
theorem Works.good_of (h : Works nld lo hi s s') {ba : Nat}
    (hgood : s'.ni.getBlockState ba = blockStGood) : s.ni.getBlockState ba = blockStGood := by
  rcases h.state ba with hsame | ⟨-, -, hgood', -⟩
  · rwa [← hsame]
  · exact hgood'

/-- A block outside the range keeps its state. -/
theorem Works.state_of_not_mem (h : Works nld lo hi s s') {ba : Nat} (hba : ba < lo ∨ hi ≤ ba) :
    s'.ni.getBlockState ba = s.ni.getBlockState ba := by
  rcases h.state ba with hsame | ⟨hlo, hhi, -⟩
  · exact hsame
  · omega

theorem Works.bad_of (h : Works nld lo hi s s') {ba : Nat}
    (hbad : s.ni.getBlockState ba = blockStBad) : s'.ni.getBlockState ba = blockStBad := by
  rcases h.state ba with hsame | ⟨-, -, hgood, -⟩
  · rwa [hsame]
  · rw [hbad] at hgood
    exact absurd hgood.symm good_ne_bad

theorem Works.trans (h : Works nld lo hi s s') (h' : Works nld lo hi s' s'') :
    Works nld lo hi s s'' where
  rest := by rw [h'.rest, h.rest]
  length := h'.length.trans h.length
  state ba := by
    rcases h'.state ba with hsame | ⟨hlo, hhi, hgood, hbad⟩
    · rw [hsame]
      exact h.state ba
    · exact .inr ⟨hlo, hhi, h.good_of hgood, hbad⟩
  found := by
    rcases h.found with ⟨hfound, hni⟩ | ⟨hfound, hcount, ba, hgood, hbad⟩
    · rcases h'.found with ⟨hfound', hni'⟩ | ⟨hfound', hcount', ba, hgood', hbad'⟩
      · exact .inl ⟨hfound'.trans hfound, hni'.trans hni⟩
      · rw [hni] at hcount' hgood'
        exact .inr ⟨hfound', hcount', ba, hgood', hbad'⟩
    · rcases h'.found with ⟨hfound', hni'⟩ | ⟨hfound', hcount', -⟩
      · rw [← hni'] at hcount hbad
        exact .inr ⟨hfound' ▸ hfound, hcount, ba, hgood, hbad⟩
      · exact .inr ⟨hfound', hcount.trans hcount', ba, hgood, h'.bad_of hbad⟩
  touches := h.touches.trans h'.touches
  access a ha := by
    rcases h'.access a ha with ha | ha
    · exact h.access a ha
    · rw [h.rest] at ha
      exact .inr ha
  tables := h.tables.trans h'.tables
  hist := by rw [h'.hist, h.hist]

/-- The device moved on without the instance noticing. -/
theorem Works.of_touches {d : Device} (h : Touches nld {ba | lo ≤ ba ∧ ba < hi} s.dev d) :
    Works nld lo hi s { s with dev := d } where
  rest := rfl
  length := rfl
  state _ := .inl rfl
  found := .inl ⟨rfl, rfl⟩
  touches := h
  access _ ha := .inl ha
  tables := List.suffix_rfl
  hist := rfl

theorem touches_of_singleton {ba : Nat} {d d' : Device} (h : Touches nld {ba} d d') :
    Touches nld {b | ba ≤ b ∧ b < ba + 1} d d' := by
  apply h.mono
  rintro b rfl
  exact ⟨le_rfl, Nat.lt_succ_self b⟩

theorem foundBad_works (ba : Nat) (s : Sys) (hgood : s.ni.getBlockState ba = blockStGood) :
    Works nld ba (ba + 1) s (foundBad ba s) := by
  have hlen : ba / 16 < s.ni.blockState.length := by
    apply length_of_getBlockStateRaw
    rw [show getBlockStateRaw s.ni.blockState ba = blockStGood from hgood]
    exact good_ne_bad
  have hset : (foundBad ba s).ni.getBlockState ba = blockStBad :=
    getBlockStateRaw_set_self blockStBad hlen
  refine ⟨rfl, length_setBlockStateRaw _ _ _, fun b => ?_, .inr ⟨?_, ?_, ba, hgood, hset⟩,
    .refl _ _, fun a ha => .inl ha, List.suffix_rfl, rfl⟩
  · rcases getBlockState_set s.ni ba b blockStBad with hsame | ⟨rfl, hbad⟩
    · exact .inl hsame
    · exact .inr ⟨le_rfl, Nat.lt_succ_self b, hgood, hbad⟩
  · simp [foundBad]
  · have hne : s.ni.getBlockState ba ≠ blockStBad := hgood ▸ good_ne_bad
    simp [foundBad, Instance.setBlockState, hne]

theorem skipBadBlock_works (hg : Geometry nld) (ba : Nat) (s : Sys)
    (hgood : s.ni.getBlockState ba = blockStGood) :
    Works nld ba (ba + 1) s (skipBadBlock nld ba s) :=
  (Works.of_touches (touches_of_singleton (markPhysBadBlock_touches hg ba s.dev))).trans
    (foundBad_works ba _ hgood)

theorem logAccess_works (ba : Nat) (s : Sys) : Works nld ba (ba + 1) s (logAccess ba s) := by
  refine ⟨rfl, rfl, fun _ => .inl rfl, .inl ⟨rfl, rfl⟩, .refl _ _, fun a ha => ?_,
    List.suffix_rfl, rfl⟩
  rcases List.mem_cons.mp ha with rfl | ha
  · exact .inr ⟨le_rfl, Nat.lt_succ_self ba, rfl, rfl, rfl⟩
  · exact .inl ha

/-! ### One block -/

theorem prepareBlock_works (hg : Geometry nld) (ba : Nat) (s : Sys) :
    Works nld ba (ba + 1) s (prepareBlock nld ba s).2 := by
  unfold prepareBlock
  split
  · exact .refl _ _ s
  rename_i hgood
  have hgood : s.ni.getBlockState ba = blockStGood := by simpa using hgood
  dsimp only
  split
  · exact (Works.of_touches (checkBadPhysBlock_touches nld _ ba s.dev)).trans
      (foundBad_works ba _ hgood)
  · have herase : Works nld ba (ba + 1) s (logAccess ba
        { s with dev := (eraseBlockAndCheck nld ba (checkBadPhysBlock nld ba s.dev).2).2 }) := by
      refine (Works.of_touches ?_).trans (logAccess_works ba _)
      exact (checkBadPhysBlock_touches nld _ ba s.dev).trans
        (touches_of_singleton (eraseBlockAndCheck_touches hg.erasesize_pos ba _))
    split
    · exact herase
    · exact herase.trans (skipBadBlock_works hg ba _ hgood)

/-- A block that was prepared was good and is empty. -/
theorem prepareBlock_ok (hg : Geometry nld) {ba : Nat} {s : Sys}
    (h : (prepareBlock nld ba s).1 = true) :
    s.ni.getBlockState ba = blockStGood ∧ (prepareBlock nld ba s).2.ni = s.ni ∧
      (prepareBlock nld ba s).2.hist.badFound = s.hist.badFound ∧
      (prepareBlock nld ba s).2.dev.flash = s.dev.flash.withBlock nld .erased ba := by
  unfold prepareBlock at h ⊢
  split
  · rename_i hbad
    simp [hbad] at h
  rename_i hgood
  rw [if_neg hgood] at h
  dsimp only at h ⊢
  split
  · rename_i hmark
    simp [hmark] at h
  rename_i hmark
  rw [if_neg hmark] at h
  split
  · rename_i herase
    refine ⟨by simpa using hgood, rfl, rfl, ?_⟩
    have hflash := eraseBlockAndCheck_flash hg herase
    rw [checkBadPhysBlock_flash] at hflash
    exact hflash
  · rename_i herase
    rw [if_neg herase] at h
    exact absurd h (by simp)

theorem eraseRangeLoop_works (hg : Geometry nld) (n ba : Nat) (s : Sys) :
    Works nld ba (ba + n) s (eraseRangeLoop nld n ba s) := by
  induction n generalizing ba s with
  | zero => exact .refl _ _ s
  | succ n ih =>
      rw [eraseRangeLoop]
      exact ((prepareBlock_works hg ba s).mono le_rfl (by omega)).trans
        ((ih (ba + 1) _).mono (by omega) (by omega))

theorem eraseRange_works (hg : Geometry nld) (ba limit : Nat) (s : Sys) :
    Works nld ba limit s (eraseRange nld ba limit s) := by
  unfold eraseRange
  by_cases hle : ba ≤ limit
  · have := eraseRangeLoop_works hg (limit - ba) ba s
    rwa [Nat.add_sub_cancel' hle] at this
  · rw [Nat.sub_eq_zero_of_le (by omega)]
    exact .refl _ _ s

theorem writeMgmtBlock_works (hg : Geometry nld) (ba : Nat) {chunk : List Byte} (s : Sys)
    (hlen : chunk.length ≤ nld.erasesize) :
    Works nld ba (ba + 1) s (writeMgmtBlock nld ba chunk s).2 := by
  unfold writeMgmtBlock
  dsimp only
  have hprep := prepareBlock_works hg ba s
  cases hok : (prepareBlock nld ba s).1 with
  | false => simpa using hprep
  | true =>
      have hwrite := hprep.trans (Works.of_touches (touches_of_singleton
        (writeVerifyData_touches hg ba (prepareBlock nld ba s).2.dev hlen)))
      simp only [Bool.not_true, Bool.false_eq_true, if_false]
      split
      · exact hwrite
      · refine hwrite.trans (skipBadBlock_works hg ba _ ?_)
        have hgood := prepareBlock_ok hg hok
        rw [show Instance.getBlockState _ _ = s.ni.getBlockState ba by rw [hgood.2.1]]
        exact hgood.1

/-- A block that was written was good, holds the data and carries no mark. -/
theorem writeMgmtBlock_ok (hg : Geometry nld) {ba : Nat} {chunk : List Byte} {s : Sys}
    (h : (writeMgmtBlock nld ba chunk s).1 = true) :
    s.ni.getBlockState ba = blockStGood ∧ (writeMgmtBlock nld ba chunk s).2.ni = s.ni ∧
      bytesAt (writeMgmtBlock nld ba chunk s).2.dev.flash.mem (nld.ba2addr ba) chunk.length = chunk ∧
      (writeMgmtBlock nld ba chunk s).2.dev.flash.marked nld ba = false := by
  unfold writeMgmtBlock at h ⊢
  dsimp only at h ⊢
  cases hok : (prepareBlock nld ba s).1 with
  | false => simp [hok] at h
  | true =>
      obtain ⟨hgood, hni, -, hflash⟩ := prepareBlock_ok hg hok
      simp only [hok, Bool.not_true, Bool.false_eq_true, if_false] at h ⊢
      split
      · rename_i hwrite
        obtain ⟨mem, hmem, hbytes⟩ := writeVerifyData_flash hg hwrite
        refine ⟨hgood, hni, ?_, ?_⟩
        · simp only [hmem]
          exact hbytes
        · simp only [hmem, hflash, Flash.marked, Flash.withBlock, hg.ba2addr_div, if_true]
          rfl
      · rename_i hwrite
        rw [if_neg hwrite] at h
        exact absurd h (by simp)

/-! ### A run of blocks -/

/-- `data` is in the blocks from `ba` on: they are good and carry no mark. -/
structure Written (nld : LowerDevice) (ba : Nat) (data : List Byte) (s : Sys) : Prop where
  bytes : bytesAt s.dev.flash.mem (nld.ba2addr ba) data.length = data
  unmarked : ∀ i, i < nld.size2blk data.length → s.dev.flash.marked nld (ba + i) = false
  good : ∀ i, i < nld.size2blk data.length → s.ni.getBlockState (ba + i) = blockStGood

theorem size2blk_pos (hg : Geometry nld) {size : Nat} (hsize : 0 < size) :
    nld.size2blk size = nld.size2blk (size - nld.erasesize) + 1 := by
  have hpos := hg.erasesize_pos
  unfold LowerDevice.size2blk
  by_cases hle : nld.erasesize ≤ size
  · rw [← Nat.add_div_right _ hpos]
    congr 1
    omega
  · have hnone : (size - nld.erasesize + nld.erasesize - 1) / nld.erasesize = 0 :=
      Nat.div_eq_of_lt (by omega)
    rw [hnone]
    apply Nat.div_eq_of_lt_le <;> omega

theorem size2blk_zero (hg : Geometry nld) : nld.size2blk 0 = 0 := by
  have hpos := hg.erasesize_pos
  exact Nat.div_eq_of_lt (by omega)

theorem le_size2blk_mul (hg : Geometry nld) (size : Nat) :
    size ≤ nld.size2blk size * nld.erasesize := by
  have hpos := hg.erasesize_pos
  have hdiv := Nat.div_add_mod (size + nld.erasesize - 1) nld.erasesize
  have hmod := Nat.mod_lt (size + nld.erasesize - 1) hpos
  unfold LowerDevice.size2blk
  rw [Nat.mul_comm]
  omega

/-- A run of blocks nobody works on stays written. -/
theorem Written.of_works (hg : Geometry nld) {ba : Nat} {data : List Byte}
    (h : Written nld ba data s) (hw : Works nld lo hi s s')
    (hdisj : ba + nld.size2blk data.length ≤ lo ∨ hi ≤ ba) : Written nld ba data s' := by
  have hsame : ∀ i, i < nld.size2blk data.length →
      Flash.Same nld (ba + i) s.dev.flash s'.dev.flash := by
    intro i hi'
    apply hw.touches.agreeOff
    rintro ⟨h1, h2⟩
    omega
  refine ⟨?_, fun i hi' => ?_, fun i hi' => ?_⟩
  · rw [← bytesAt_of_same hg (le_size2blk_mul hg _) hsame]
    exact h.bytes
  · rw [← (hsame i hi').marked hg]
    exact h.unmarked i hi'
  · rw [hw.state_of_not_mem (by omega)]
    exact h.good i hi'

/-- One block more in front. -/
theorem Written.cons (hg : Geometry nld) {ba : Nat} {data : List Byte}
    (h : Written nld (ba + 1) (data.drop nld.erasesize) s) (hdata : data ≠ [])
    (hbytes : bytesAt s.dev.flash.mem (nld.ba2addr ba) (data.take nld.erasesize).length
      = data.take nld.erasesize)
    (hmark : s.dev.flash.marked nld ba = false) (hgood : s.ni.getBlockState ba = blockStGood) :
    Written nld ba data s := by
  have hblocks := size2blk_pos hg (List.length_pos_of_ne_nil hdata)
  have hrest := h.bytes
  have hunmarked := h.unmarked
  have hgoods := h.good
  rw [List.length_drop] at hrest hunmarked hgoods
  refine ⟨?_, fun i hi => ?_, fun i hi => ?_⟩
  · by_cases hle : data.length ≤ nld.erasesize
    · rw [List.take_of_length_le hle] at hbytes
      exact hbytes
    · have hlen : (data.take nld.erasesize).length = nld.erasesize := by
        rw [List.length_take]
        omega
      have hnext : nld.ba2addr (ba + 1) = nld.ba2addr ba + nld.erasesize := by
        unfold LowerDevice.ba2addr
        rw [Nat.succ_mul]
      rw [hlen] at hbytes
      rw [hnext] at hrest
      rw [show data.length = nld.erasesize + (data.length - nld.erasesize) by omega, bytesAt_add,
        hbytes, hrest, List.take_append_drop]
  · cases i with
    | zero => exact hmark
    | succ i =>
        have := hunmarked i (by omega)
        rwa [show ba + (i + 1) = ba + 1 + i by omega]
  · cases i with
    | zero => exact hgood
    | succ i =>
        have := hgoods i (by omega)
        rwa [show ba + (i + 1) = ba + 1 + i by omega]

/-- The block written first, and the rest behind it. -/
theorem Written.of_block (hg : Geometry nld) {ba : Nat} {data : List Byte} (hdata : data ≠ [])
    (hok : (writeMgmtBlock nld ba (data.take nld.erasesize) s).1 = true)
    (hw : Works nld (ba + 1) hi (writeMgmtBlock nld ba (data.take nld.erasesize) s).2 s')
    (h : Written nld (ba + 1) (data.drop nld.erasesize) s') : Written nld ba data s' := by
  obtain ⟨hgood, hni, hbytes, hmark⟩ := writeMgmtBlock_ok hg hok
  have hsame : Flash.Same nld ba _ _ := hw.touches.agreeOff ba (by simp)
  refine h.cons hg hdata ?_ ?_ ?_
  · refine Eq.trans ?_ hbytes
    refine (bytesAt_of_same (n := 1) hg ?_ fun i hi => ?_).symm
    · simp
    · obtain rfl : i = 0 := by omega
      exact hsame
  · rw [← hsame.marked hg]
    exact hmark
  · rw [hw.state_of_not_mem (by omega), hni]
    exact hgood

theorem written_nil (hg : Geometry nld) (ba : Nat) (s : Sys) : Written nld ba [] s where
  bytes := rfl
  unmarked i hi := by
    rw [List.length_nil, size2blk_zero hg] at hi
    omega
  good i hi := by
    rw [List.length_nil, size2blk_zero hg] at hi
    omega

theorem writeMgmtLoop_works (hg : Geometry nld) (size n ba : Nat) (rest : List Byte) (start : Nat)
    (s : Sys) : Works nld ba (ba + n) s (writeMgmtLoop nld size n ba rest start s).2 := by
  induction n generalizing ba rest start s with
  | zero => exact .refl _ _ s
  | succ n ih =>
      rw [writeMgmtLoop]
      split
      · exact .refl _ _ s
      have hblock : Works nld ba (ba + (n + 1)) s
          (writeMgmtBlock nld ba (rest.take nld.erasesize) s).2 :=
        (writeMgmtBlock_works hg ba s (by simp)).mono le_rfl (by omega)
      dsimp only
      split
      · exact hblock.trans ((ih _ _ _ _).mono (by omega) (by omega))
      · exact hblock.trans ((ih _ _ _ _).mono (by omega) (by omega))

/-- What a table that was begun before ends as. -/
theorem writeMgmtLoop_tail (hg : Geometry nld) {size n ba start a e : Nat} {rest : List Byte}
    {s : Sys} (hlt : rest.length < size)
    (h : (writeMgmtLoop nld size n ba rest start s).1 = some (a, e)) :
    a = start ∧ ba + nld.size2blk rest.length ≤ e ∧ e ≤ ba + n ∧
      (e = ba + nld.size2blk rest.length →
        Written nld ba rest (writeMgmtLoop nld size n ba rest start s).2) := by
  induction n generalizing ba rest start s with
  | zero =>
      rw [writeMgmtLoop] at h ⊢
      by_cases hrest : rest = []
      · subst hrest
        obtain ⟨rfl, rfl⟩ : start = a ∧ ba = e := by simpa using h
        rw [List.length_nil, size2blk_zero hg]
        exact ⟨rfl, le_rfl, le_rfl, fun _ => written_nil hg _ _⟩
      · simp [hrest] at h
  | succ n ih =>
      rw [writeMgmtLoop] at h ⊢
      by_cases hrest : rest = []
      · subst hrest
        obtain ⟨rfl, rfl⟩ : start = a ∧ ba = e := by simpa using h
        rw [List.length_nil, size2blk_zero hg]
        exact ⟨rfl, le_rfl, by omega, fun _ => written_nil hg _ _⟩
      rw [if_neg (by simpa using hrest)] at h ⊢
      dsimp only at h ⊢
      have hblocks := size2blk_pos hg (List.length_pos_of_ne_nil hrest)
      split
      · rename_i hok
        rw [if_pos hok, if_neg (by omega)] at h
        rw [if_neg (by omega)]
        obtain ⟨ha, hle, hend, hcont⟩ := ih (by rw [List.length_drop]; omega) h
        rw [List.length_drop] at hle hcont
        refine ⟨ha, by omega, by omega, fun he => ?_⟩
        exact Written.of_block hg hrest hok (writeMgmtLoop_works hg _ _ _ _ _ _) (hcont (by omega))
      · rename_i hok
        rw [if_neg hok] at h
        obtain ⟨ha, hle, hend, -⟩ := ih hlt h
        exact ⟨ha, by omega, by omega, fun he => by omega⟩

/-- What a table ends as: it lies in the range, and is all there if its blocks are consecutive. -/
theorem writeMgmtLoop_some (hg : Geometry nld) {n ba start a e : Nat} {data : List Byte} {s : Sys}
    (hdata : data ≠ []) (h : (writeMgmtLoop nld data.length n ba data start s).1 = some (a, e)) :
    ba ≤ a ∧ a + nld.size2blk data.length ≤ e ∧ e ≤ ba + n ∧
      (e = a + nld.size2blk data.length →
        Written nld a data (writeMgmtLoop nld data.length n ba data start s).2) := by
  induction n generalizing ba start s with
  | zero => simp [writeMgmtLoop, hdata] at h
  | succ n ih =>
      rw [writeMgmtLoop] at h ⊢
      rw [if_neg (by simpa using hdata)] at h ⊢
      dsimp only at h ⊢
      have hpos := List.length_pos_of_ne_nil hdata
      have hblocks := size2blk_pos hg hpos
      split
      · rename_i hok
        rw [if_pos hok, if_pos rfl] at h
        rw [if_pos rfl]
        have hepos := hg.erasesize_pos
        obtain ⟨rfl, hle, hend, hcont⟩ :=
          writeMgmtLoop_tail hg (by rw [List.length_drop]; omega) h
        rw [List.length_drop] at hle hcont
        refine ⟨le_rfl, by omega, by omega, fun he => ?_⟩
        exact Written.of_block hg hdata hok (writeMgmtLoop_works hg _ _ _ _ _ _) (hcont (by omega))
      · rename_i hok
        rw [if_neg hok] at h
        obtain ⟨ha, hle, hend, hcont⟩ := ih h
        exact ⟨by omega, hle, by omega, hcont⟩

end Immwrt.Nmbm
