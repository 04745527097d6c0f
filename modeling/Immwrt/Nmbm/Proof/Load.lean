import Immwrt.Nmbm.Attach
import Immwrt.Nmbm.Proof.Mgmt

/-!
# Reading tables back

A table that was loaded is on the chip as it was read: the reader takes as many blocks as the image
needs and no more, so it never skips one. What a search that does not fail finds, is the first place
where a table passes every check.
-/

namespace Immwrt.Nmbm

variable {nld : LowerDevice} {s s' s'' : Sys}

/-! ### Frames -/

/-- From `s` to `s'` the chip was only read. Blocks may have been found bad; a device that does not
fail finds only those that carry a mark. -/
structure Reads (nld : LowerDevice) (s s' : Sys) : Prop where
  rest : s'.ni = { s.ni with
    infoTableCache := s'.ni.infoTableCache
    blockState := s'.ni.blockState
    blockStateChanged := s'.ni.blockStateChanged }
  hist : s'.hist = s.hist
  flash : s'.dev.flash = s.dev.flash
  touches : Touches nld ∅ s.dev s'.dev
  length : s'.ni.blockState.length = s.ni.blockState.length
  cacheLength : s'.ni.infoTableCache.length = s.ni.infoTableCache.length
  state : ∀ ba, s'.ni.getBlockState ba = s.ni.getBlockState ba ∨
    s.ni.getBlockState ba = blockStGood ∧ s'.ni.getBlockState ba = blockStBad ∧
      (s.dev.Healthy → s.dev.flash.marked nld ba = true)

theorem Reads.refl (s : Sys) : Reads nld s s :=
  ⟨rfl, rfl, rfl, .refl _ _, rfl, rfl, fun _ => .inl rfl⟩

theorem Reads.trans (h : Reads nld s s') (h' : Reads nld s' s'') : Reads nld s s'' where
  rest := by rw [h'.rest, h.rest]
  hist := h'.hist.trans h.hist
  flash := h'.flash.trans h.flash
  touches := h.touches.trans h'.touches
  length := h'.length.trans h.length
  cacheLength := h'.cacheLength.trans h.cacheLength
  state ba := by
    rcases h'.state ba with hsame | ⟨hgood, hbad, hmark⟩
    · rw [hsame]
      exact h.state ba
    · rcases h.state ba with hsame | ⟨-, hbad', -⟩
      · refine .inr ⟨hsame ▸ hgood, hbad, fun hd => ?_⟩
        rw [← h.flash]
        exact hmark (h.touches.healthy hd)
      · rw [hbad'] at hgood
        exact absurd hgood.symm good_ne_bad

/-- The device was read, and nothing came of it. -/
theorem Reads.of_device {d : Device} (hflash : d.flash = s.dev.flash)
    (htouch : Touches nld ∅ s.dev d) : Reads nld s { s with dev := d } :=
  ⟨rfl, rfl, hflash, htouch, rfl, rfl, fun _ => .inl rfl⟩

theorem Reads.setBad (h : Reads nld s s') {ba : Nat} (hgood : s.ni.getBlockState ba = blockStGood)
    (hmark : s.dev.Healthy → s.dev.flash.marked nld ba = true) : Reads nld s (s'.setBad ba) := by
  refine ⟨by rw [Sys.setBad, Instance.setBlockState, h.rest], h.hist, h.flash, h.touches,
    (length_setBlockStateRaw _ _ _).trans h.length, h.cacheLength, fun b => ?_⟩
  rcases getBlockState_set s'.ni ba b blockStBad with hsame | ⟨rfl, hbad⟩
  · rw [show (s'.setBad ba).ni.getBlockState b = s'.ni.getBlockState b from hsame]
    exact h.state b
  · exact .inr ⟨hgood, hbad, hmark⟩

variable (nld) in
theorem readDataLoop_length (n off size : Nat) (d : Device) :
    (readDataLoop nld n off size d).1.2.length ≤ size := by
  induction n generalizing off size d with
  | zero => simp [readDataLoop]
  | succ n ih =>
      rw [readDataLoop]
      split
      · simp
      rename_i hsize
      have hle := nld.chunk_le off size
      have hlen := readPhysPage_length nld (off - off % nld.writesize) d
      dsimp only
      split
      · split
        · rename_i hchunk
          simp only
          omega
        · simp
      · rw [List.length_append]
        have hslice : (slice (readPhysPage nld (off - off % nld.writesize) d).1.2
            (off % nld.writesize) (nld.chunk off size)).length ≤ nld.chunk off size := by
          simp [slice]
        exact (Nat.add_le_add hslice (ih _ _ _)).trans (by omega)

/-- From here on the device reports the marks on blocks truly. -/
def Device.Honest (d : Device) : Prop := ∀ i, d.pos ≤ i → (d.tape i).lie = false

theorem Device.Healthy.honest {d : Device} (hd : d.Healthy) : d.Honest :=
  fun i hi => (hd i hi).2.2.2.2

theorem readPhysMarkTry_data {addr n : Nat} {d : Device}
    (h : 0 ≤ (readPhysMarkTry addr n d).1.1 ∨ (readPhysMarkTry addr n d).1.1 = -ebadmsg) :
    (readPhysMarkTry addr n d).1.2 = d.flash.oob addr 0 := by
  induction n generalizing d with
  | zero =>
      simp only [readPhysMarkTry, Device.readMark] at h ⊢
      rw [if_pos h]
  | succ n ih =>
      rw [readPhysMarkTry] at h ⊢
      split
      · rename_i hret
        simp only [Device.readMark] at hret ⊢
        rw [if_pos (.inl hret)]
      · rename_i hret
        rw [if_neg hret] at h
        exact ih h

theorem checkBadPhysBlock_honest {ba : Nat} {d : Device} (hd : d.Honest)
    (h : (checkBadPhysBlock nld ba d).1 = false) : d.flash.marked nld ba = false := by
  unfold checkBadPhysBlock at h
  split at h
  · simpa [Device.isBadBlock, Device.answer, hd d.pos le_rfl] using h
  · dsimp only at h
    split at h
    · cases h
    · rename_i hret
      have hdata : (readPhysMarkTry (nld.ba2addr ba) (tryCount - 1) d).1.2
          = d.flash.oob (nld.ba2addr ba) 0 := readPhysMarkTry_data (by omega)
      simp only [hdata] at h
      exact h

/-! ### The read loop -/

/-- The state after a chunk was read. -/
def afterChunk (nld : LowerDevice) (ba off : Nat) (s : Sys) : Sys :=
  let c := checkBadPhysBlock nld ba s.dev
  let r := readData nld (nld.ba2addr ba) (min (nld.infoTableSize - off) nld.erasesize) c.2
  { s with
    dev := r.2
    ni := { s.ni with infoTableCache := splice s.ni.infoTableCache off r.1.2 } }

theorem afterChunk_reads (ba : Nat) {off : Nat}
    (hoff : off ≤ nld.infoTableSize) (hcache : s.ni.infoTableCache.length = nld.infoTableSize) :
    Reads nld s (afterChunk nld ba off s) := by
  have hlen : off + (readData nld (nld.ba2addr ba) (min (nld.infoTableSize - off) nld.erasesize)
      (checkBadPhysBlock nld ba s.dev).2).1.2.length ≤ s.ni.infoTableCache.length := by
    have := readDataLoop_length nld (min (nld.infoTableSize - off) nld.erasesize) (nld.ba2addr ba)
      (min (nld.infoTableSize - off) nld.erasesize) (checkBadPhysBlock nld ba s.dev).2
    unfold readData
    omega
  refine ⟨rfl, rfl, ?_, ?_, rfl, length_splice hlen, fun _ => .inl rfl⟩
  · exact (readData_flash _ _ _).trans (checkBadPhysBlock_flash _ _)
  · exact (checkBadPhysBlock_touches nld _ _ _).trans (readData_touches _ _ _ _)

/-- One turn of the read loop. -/
theorem readTableLoop_succ (n ba off : Nat) (start : Option Nat) (s : Sys)
    (hoff : off ≠ nld.infoTableSize) (hgood : s.ni.getBlockState ba = blockStGood) :
    readTableLoop nld (n + 1) ba off start s =
      let c := checkBadPhysBlock nld ba s.dev
      let chunksize := min (nld.infoTableSize - off) nld.erasesize
      let r := readData nld (nld.ba2addr ba) chunksize c.2
      let s' := afterChunk nld ba off s
      if c.1 then readTableLoop nld n (ba + 1) off start (Sys.setBad { s with dev := c.2 } ba)
      else if r.1.1 < 0 then readTableLoop nld n (ba + 1) off start (s'.setBad ba)
      else if r.1.1 > 0 then (none, s')
      else if start.isNone && !checkInfoTableHeader nld (s'.ni.infoTableCache.drop off) then
        (none, s')
      else readTableLoop nld n (ba + 1) (off + chunksize) (some (start.getD ba)) s' := by
  rw [readTableLoop, if_neg hoff, if_neg (by simpa using hgood)]
  rfl

theorem readTableLoop_reads (hg : Geometry nld) (n ba : Nat) {off : Nat} (start : Option Nat)
    (hoff : off ≤ nld.infoTableSize) (hcache : s.ni.infoTableCache.length = nld.infoTableSize) :
    Reads nld s (readTableLoop nld n ba off start s).2 := by
  induction n generalizing ba off start s with
  | zero => exact .refl s
  | succ n ih =>
      by_cases hdone : off = nld.infoTableSize
      · rw [readTableLoop, if_pos hdone]
        exact .refl s
      by_cases hgood : s.ni.getBlockState ba = blockStGood
      · rw [readTableLoop_succ n ba off start s hdone hgood]
        dsimp only
        have hcheck : Reads nld s { s with dev := (checkBadPhysBlock nld ba s.dev).2 } :=
          .of_device (checkBadPhysBlock_flash _ _) (checkBadPhysBlock_touches nld _ _ _)
        have hchunk := afterChunk_reads ba hoff hcache
        split
        · rename_i hbad
          refine (hcheck.setBad hgood fun hd => ?_).trans (ih _ _ hoff hcache)
          rw [← checkBadPhysBlock_healthy hd]
          exact hbad
        split
        · rename_i hret
          refine (hchunk.setBad hgood fun hd => ?_).trans
            (ih _ _ hoff (hchunk.cacheLength.trans hcache))
          rw [readData_healthy hg.writesize_pos ((checkBadPhysBlock_touches nld ∅ ba s.dev).healthy hd)] at hret
          exact absurd hret (lt_irrefl 0)
        split
        · exact hchunk
        split
        · exact hchunk
        · refine hchunk.trans (ih _ _ ?_ (hchunk.cacheLength.trans hcache))
          omega
      · rw [readTableLoop, if_neg hdone, if_pos hgood]
        exact ih _ _ hoff hcache

/-- Too few blocks for the rest of the image. -/
theorem readTableLoop_short (hg : Geometry nld) {n ba off : Nat} {start : Option Nat}
    (hoff : off ≤ nld.infoTableSize) (hn : n < nld.size2blk (nld.infoTableSize - off)) :
    (readTableLoop nld n ba off start s).1 = none := by
  have hdone : off ≠ nld.infoTableSize := by
    rintro rfl
    rw [Nat.sub_self, size2blk_zero hg] at hn
    omega
  induction n generalizing ba off start s with
  | zero =>
      rw [readTableLoop, if_neg hdone]
  | succ n ih =>
      by_cases hgood : s.ni.getBlockState ba = blockStGood
      · rw [readTableLoop_succ n ba off start s hdone hgood]
        dsimp only
        have hblocks := size2blk_pos hg (show 0 < nld.infoTableSize - off by omega)
        split
        · exact ih hoff (by omega) hdone
        split
        · exact ih hoff (by omega) hdone
        split
        · rfl
        split
        · rfl
        · have hrest : nld.infoTableSize - (off + min (nld.infoTableSize - off) nld.erasesize)
              = nld.infoTableSize - off - nld.erasesize := by omega
          refine ih (by omega) (by rw [hrest]; omega) fun hfull => ?_
          rw [hrest] at *
          have hzero : nld.infoTableSize - off - nld.erasesize = 0 := by omega
          rw [hzero, size2blk_zero hg] at hblocks
          omega
      · rw [readTableLoop, if_neg hdone, if_pos hgood]
        exact ih hoff (by omega) hdone

/-- What a table that was read is: its blocks were good, and the cache has what is on the chip. -/
structure TableRead (nld : LowerDevice) (n ba off : Nat) (s s' : Sys) : Prop where
  ni : s'.ni = { s.ni with infoTableCache := s'.ni.infoTableCache }
  cache : s'.ni.infoTableCache = s.ni.infoTableCache.take off ++
    bytesAt s.dev.flash.mem (nld.ba2addr ba) (nld.infoTableSize - off)
  good : ∀ i, i < n → s.ni.getBlockState (ba + i) = blockStGood
  unmarked : s.dev.Honest → ∀ i, i < n → s.dev.flash.marked nld (ba + i) = false

theorem Touches.honest {S : Set Nat} {d d' : Device} (h : Touches nld S d d') (hd : d.Honest) :
    d'.Honest := by
  intro i hi
  rw [h.tape]
  exact hd i (h.pos.trans hi)

/-- A block that was read goes before the rest of the table. -/
theorem TableRead.cons (hg : Geometry nld) {n ba off : Nat} {s s' : Sys}
    (hoff : off < nld.infoTableSize) (hcache : s.ni.infoTableCache.length = nld.infoTableSize)
    (hgood : s.ni.getBlockState ba = blockStGood)
    (hcheck : (checkBadPhysBlock nld ba s.dev).1 = false)
    (hret : 0 ≤ (readData nld (nld.ba2addr ba) (min (nld.infoTableSize - off) nld.erasesize)
      (checkBadPhysBlock nld ba s.dev).2).1.1)
    (hread : TableRead nld n (ba + 1) (off + min (nld.infoTableSize - off) nld.erasesize)
      (afterChunk nld ba off s) s') :
    TableRead nld (n + 1) ba off s s' := by
  have hreads := afterChunk_reads ba hoff.le hcache
  have hdata := readData_data hg.writesize_pos hret
  rw [checkBadPhysBlock_flash] at hdata
  refine ⟨?_, ?_, ?_, ?_⟩
  · rw [hread.ni]
    rfl
  · set c := min (nld.infoTableSize - off) nld.erasesize with hc
    have hsplice : (afterChunk nld ba off s).ni.infoTableCache
        = splice s.ni.infoTableCache off (bytesAt s.dev.flash.mem (nld.ba2addr ba) c) := by
      simp only [afterChunk, ← hc, hdata]
    have htake : (splice s.ni.infoTableCache off
        (bytesAt s.dev.flash.mem (nld.ba2addr ba) c)).take (off + c)
        = s.ni.infoTableCache.take off ++ bytesAt s.dev.flash.mem (nld.ba2addr ba) c := by
      rw [splice, List.take_left']
      simp only [List.length_append, List.length_take, length_bytesAt]
      omega
    rw [hread.cache, hreads.flash, hsplice, htake, List.append_assoc]
    congr 1
    -- The block is either the last one, cut to what is missing, or a whole one.
    by_cases hle : nld.infoTableSize - off ≤ nld.erasesize
    · have hcut : nld.infoTableSize - (off + c) = 0 := by omega
      rw [hcut, bytesAt, List.append_nil]
      congr 1
      omega
    · have hcut : c = nld.erasesize := by omega
      have hnext : nld.ba2addr (ba + 1) = nld.ba2addr ba + nld.erasesize := by
        unfold LowerDevice.ba2addr
        rw [Nat.succ_mul]
      rw [hnext, hcut, ← bytesAt_add]
      congr 1
      omega
  · intro i hi
    cases i with
    | zero => exact hgood
    | succ i =>
        have := hread.good i (by omega)
        rwa [show ba + (i + 1) = ba + 1 + i by omega]
  · intro hd i hi
    cases i with
    | zero => exact checkBadPhysBlock_honest hd hcheck
    | succ i =>
        have := hread.unmarked (hreads.touches.honest hd) i (by omega)
        rw [hreads.flash] at this
        rwa [show ba + (i + 1) = ba + 1 + i by omega]

theorem readTableLoop_some (hg : Geometry nld) {n ba off a e : Nat} {start : Option Nat}
    (hoff : off ≤ nld.infoTableSize) (hcache : s.ni.infoTableCache.length = nld.infoTableSize)
    (hn : n = nld.size2blk (nld.infoTableSize - off))
    (h : (readTableLoop nld n ba off start s).1 = some (a, e)) :
    e = ba + n ∧ (off < nld.infoTableSize → a = start.getD ba) ∧
      (off = nld.infoTableSize → a = start.getD 0) ∧
      TableRead nld n ba off s (readTableLoop nld n ba off start s).2 ∧
      (start = none → off < nld.infoTableSize →
        0 ≤ (readData nld (nld.ba2addr ba) (min (nld.infoTableSize - off) nld.erasesize)
          (checkBadPhysBlock nld ba s.dev).2).1.1 ∧
        checkInfoTableHeader nld ((afterChunk nld ba off s).ni.infoTableCache.drop off) = true) := by
  induction n generalizing ba off start s with
  | zero =>
      rw [readTableLoop] at h ⊢
      split at h
      · rename_i hdone
        subst hdone
        obtain ⟨rfl, rfl⟩ : start.getD 0 = a ∧ ba = e := by simpa using h
        refine ⟨rfl, fun hlt => absurd hlt (lt_irrefl _), fun _ => rfl, ⟨rfl, ?_, ?_, ?_⟩,
          fun _ hlt => absurd hlt (lt_irrefl _)⟩
        · rw [Nat.sub_self, bytesAt, List.append_nil, ← hcache, List.take_length]
        · exact fun i hi => absurd hi (Nat.not_lt_zero i)
        · exact fun _ i hi => absurd hi (Nat.not_lt_zero i)
      · cases h
  | succ n ih =>
      have hdone : off ≠ nld.infoTableSize := by
        rintro rfl
        rw [Nat.sub_self, size2blk_zero hg] at hn
        omega
      have hblocks := size2blk_pos hg (show 0 < nld.infoTableSize - off by omega)
      have hskip : ∀ {t : Sys} {st : Option Nat},
          (readTableLoop nld n (ba + 1) off st t).1 ≠ some (a, e) := by
        intro t st hsome
        rw [readTableLoop_short hg hoff (by omega)] at hsome
        cases hsome
      by_cases hgood : s.ni.getBlockState ba = blockStGood
      · rw [readTableLoop_succ n ba off start s hdone hgood] at h ⊢
        dsimp only at h ⊢
        split at h
        · exact absurd h hskip
        rename_i hcheck
        rw [if_neg hcheck]
        split at h
        · exact absurd h hskip
        rename_i hret
        rw [if_neg hret]
        split at h
        · cases h
        rename_i hpos
        rw [if_neg hpos]
        split at h
        · cases h
        rename_i hhdr
        rw [if_neg hhdr]
        set c := min (nld.infoTableSize - off) nld.erasesize with hc
        have hreads := afterChunk_reads ba hoff hcache
        have hrest : nld.infoTableSize - (off + c) = nld.infoTableSize - off - nld.erasesize := by
          omega
        obtain ⟨he, ha, ha', hread, -⟩ := ih (by omega) (hreads.cacheLength.trans hcache)
          (by rw [hrest]; omega) h
        have hstart : a = start.getD ba := by
          by_cases hlt : off + c < nld.infoTableSize
          · exact ha hlt
          · exact ha' (by omega)
        refine ⟨by omega, fun _ => hstart, fun hfull => absurd hfull hdone,
          .cons hg (by omega) hcache hgood (by simpa using hcheck) (not_lt.mp hret) hread, fun hnone _ => ?_⟩
        exact ⟨by omega, by simpa [hnone] using hhdr⟩
      · rw [readTableLoop, if_neg hdone, if_pos hgood] at h
        exact absurd h hskip

/-- A device that does not fail reads good blocks to the end, unless the header does not check. -/
theorem readTableLoop_healthy (hg : Geometry nld) {n ba off : Nat} {start : Option Nat}
    (hd : s.dev.Healthy) (hoff : off ≤ nld.infoTableSize)
    (hcache : s.ni.infoTableCache.length = nld.infoTableSize)
    (hn : n = nld.size2blk (nld.infoTableSize - off))
    (hgood : ∀ i, i < n → s.ni.getBlockState (ba + i) = blockStGood)
    (hmark : ∀ i, i < n → s.dev.flash.marked nld (ba + i) = false)
    (hhdr : start = none → off < nld.infoTableSize → checkInfoTableHeader nld
      ((afterChunk nld ba off s).ni.infoTableCache.drop off) = true) :
    (readTableLoop nld n ba off start s).1.isSome = true := by
  induction n generalizing ba off start s with
  | zero =>
      have hdone : off = nld.infoTableSize := by
        by_contra hne
        have := size2blk_pos hg (show 0 < nld.infoTableSize - off by omega)
        omega
      rw [readTableLoop, if_pos hdone]
      rfl
  | succ n ih =>
      have hdone : off ≠ nld.infoTableSize := by
        rintro rfl
        rw [Nat.sub_self, size2blk_zero hg] at hn
        omega
      have hblocks := size2blk_pos hg (show 0 < nld.infoTableSize - off by omega)
      have hd' := (checkBadPhysBlock_touches nld ∅ ba s.dev).healthy hd
      have hreads := afterChunk_reads ba hoff hcache
      have hrest : nld.infoTableSize - (off + min (nld.infoTableSize - off) nld.erasesize)
          = nld.infoTableSize - off - nld.erasesize := by omega
      rw [readTableLoop_succ n ba off start s hdone (hgood 0 (by omega))]
      dsimp only
      have hunmarked : (checkBadPhysBlock nld ba s.dev).1 = false := by
        rw [checkBadPhysBlock_healthy hd]
        exact hmark 0 (by omega)
      rw [hunmarked, readData_healthy hg.writesize_pos hd']
      simp only [Bool.false_eq_true, if_false, lt_irrefl]
      rw [if_neg (by
        cases start with
        | none => simp [hhdr rfl (by omega)]
        | some _ => simp)]
      refine ih (hreads.touches.healthy hd) (by omega) (hreads.cacheLength.trans hcache)
        (by rw [hrest]; omega) ?_ ?_ (by simp)
      · intro i hi
        have := hgood (i + 1) (by omega)
        rw [show ba + (i + 1) = ba + 1 + i by omega] at this
        exact this
      · intro i hi
        have := hmark (i + 1) (by omega)
        rw [show ba + (i + 1) = ba + 1 + i by omega] at this
        rw [hreads.flash]
        exact this

/-! ### One table -/

theorem le_align (v : Nat) {a : Nat} (ha : 0 < a) : v ≤ align v a := by
  unfold align
  have hdiv := Nat.div_add_mod (v + a - 1) a
  have hmod := Nat.mod_lt (v + a - 1) ha
  rw [Nat.mul_comm]
  omega

/-- A chip whose blocks hold the header of a table. -/
structure Chip (nld : LowerDevice) : Prop extends Geometry nld where
  header_fits : infoTableHeaderSize ≤ nld.erasesize

theorem Geometry.header_le (hg : Geometry nld) : infoTableHeaderSize ≤ nld.infoTableSize := by
  have := le_align infoTableHeaderSize hg.writesize_pos
  unfold LowerDevice.infoTableSize LowerDevice.mappingTableOff LowerDevice.stateTableOff
  omega

theorem ofBytes_congr {buf buf' : List Byte}
    (h : buf.take infoTableHeaderSize = buf'.take infoTableHeaderSize) :
    InfoTableHeader.ofBytes buf = InfoTableHeader.ofBytes buf' := by
  have hword : ∀ off, off + 4 ≤ infoTableHeaderSize → getU32 buf off = getU32 buf' off := by
    intro off hoff
    apply getU32_congr
    rw [← slice_take hoff, h, slice_take hoff]
  unfold InfoTableHeader.ofBytes
  rw [hword 0 (by decide), hword 4 (by decide), hword 8 (by decide), hword 12 (by decide),
    hword 16 (by decide), hword 20 (by decide), hword 24 (by decide), hword 28 (by decide)]

/-- The bytes of a table that starts at block `ba`. -/
def tableImage (nld : LowerDevice) (f : Flash) (ba : Nat) : List Byte :=
  bytesAt f.mem (nld.ba2addr ba) nld.infoTableSize

/-- The header and the checksum of a table at block `ba` are right. -/
def TableAt (nld : LowerDevice) (f : Flash) (ba : Nat) : Prop :=
  checkInfoTableHeader nld (tableImage nld f ba) = true ∧
    checkHeader (tableImage nld f ba) nld.infoTableSize = true

theorem afterChunk_header (hc : Chip nld) (ba : Nat) {d : Device}
    (hret : 0 ≤ (readData nld (nld.ba2addr ba) (min nld.infoTableSize nld.erasesize) d).1.1) :
    (splice s.ni.infoTableCache 0
      (readData nld (nld.ba2addr ba) (min nld.infoTableSize nld.erasesize) d).1.2).take
        infoTableHeaderSize
      = (tableImage nld d.flash ba).take infoTableHeaderSize := by
  have hsize := hc.toGeometry.header_le
  have herase := hc.header_fits
  rw [readData_data hc.writesize_pos hret, splice, List.take_zero, List.nil_append,
    List.take_append_of_le_length (by rw [length_bytesAt]; omega), take_bytesAt _ _ (by omega),
    tableImage, take_bytesAt _ _ hsize]

theorem checkInfoTableHeader_congr {buf buf' : List Byte}
    (h : buf.take infoTableHeaderSize = buf'.take infoTableHeaderSize) :
    checkInfoTableHeader nld buf = checkInfoTableHeader nld buf' := by
  unfold checkInfoTableHeader
  rw [ofBytes_congr h]

/-- What `nmbm_try_load_info_table` does with a table it accepts. -/
structure Loaded (nld : LowerDevice) (ba : Nat) (tableLoaded : Bool) (s s' : Sys) (found : Found) :
    Prop where
  startBa : found.startBa = ba
  endBa : found.endBa = ba + nld.infoTableBlocks
  writeCount : found.writeCount
    = (InfoTableHeader.ofBytes (tableImage nld s.dev.flash ba)).writeCount
  table : TableAt nld s.dev.flash ba
  top : checkInfoTable nld s.ni ba (ba + nld.infoTableBlocks) (tableImage nld s.dev.flash ba)
    = some found.topBa
  good : ∀ i, i < nld.infoTableBlocks → s.ni.getBlockState (ba + i) = blockStGood
  unmarked : s.dev.Honest → ∀ i, i < nld.infoTableBlocks →
    s.dev.flash.marked nld (ba + i) = false
  ni : s'.ni = if !tableLoaded || s.ni.infoTable.writeCount < found.writeCount then
      { s.ni with
        infoTableCache := tableImage nld s.dev.flash ba
        infoTable := InfoTableHeader.ofBytes (tableImage nld s.dev.flash ba)
        blockState := imageState nld (tableImage nld s.dev.flash ba)
        blockMapping := imageMapping nld (tableImage nld s.dev.flash ba) }
    else { s.ni with infoTableCache := tableImage nld s.dev.flash ba }
  hist : s'.hist = s.hist
  flash : s'.dev.flash = s.dev.flash
  touches : Touches nld ∅ s.dev s'.dev

theorem tryLoadInfoTable_some (hc : Chip nld) {ba : Nat} {tableLoaded : Bool} {found : Found}
    (hcache : s.ni.infoTableCache.length = nld.infoTableSize)
    (h : tryLoadInfoTable nld ba tableLoaded s = (some found, s')) :
    Loaded nld ba tableLoaded s s' found := by
  have hg := hc.toGeometry
  have hsize : 0 < nld.infoTableSize := lt_of_lt_of_le (by decide) hg.header_le
  unfold tryLoadInfoTable at h
  dsimp only at h
  rcases hloop : readTableLoop nld nld.infoTableBlocks ba 0 none s with ⟨r, t⟩
  rw [hloop] at h
  cases r with
  | none => simp at h
  | some p =>
      obtain ⟨a, e⟩ := p
      have hreads := readTableLoop_reads hg nld.infoTableBlocks ba none (Nat.zero_le _) hcache
      have hfound : (readTableLoop nld nld.infoTableBlocks ba 0 none s).1 = some (a, e) := by
        rw [hloop]
      have hblocks : nld.infoTableBlocks = nld.size2blk (nld.infoTableSize - 0) := rfl
      have hsome := readTableLoop_some hg (Nat.zero_le _) hcache hblocks hfound
      rw [hloop] at hreads hsome
      obtain ⟨rfl, ha, -, hread, hhdr⟩ := hsome
      obtain rfl : a = ba := ha hsize
      obtain ⟨hret, hhdr⟩ := hhdr rfl hsize
      have hcachet : t.ni.infoTableCache = tableImage nld s.dev.flash a := by
        rw [hread.cache]
        simp [tableImage]
      have hheader : checkInfoTableHeader nld (tableImage nld s.dev.flash a) = true := by
        rw [← hhdr]
        apply checkInfoTableHeader_congr
        have := afterChunk_header (s := s) hc a hret
        rw [checkBadPhysBlock_flash] at this
        exact this.symm
      dsimp only at h
      rw [hcachet] at h
      split at h
      · simp at h
      rename_i hsum
      have hcheck : checkInfoTable nld t.ni a (a + nld.infoTableBlocks)
          (tableImage nld s.dev.flash a) = checkInfoTable nld s.ni a (a + nld.infoTableBlocks)
          (tableImage nld s.dev.flash a) := by
        rw [hread.ni]
        rfl
      rw [hcheck] at h
      split at h
      · simp at h
      rename_i top htop
      obtain ⟨hfnd, rfl⟩ := Prod.mk.inj h
      obtain rfl := Option.some.inj hfnd
      have hni : t.ni = { s.ni with infoTableCache := tableImage nld s.dev.flash a } := by
        rw [hread.ni, hcachet]
      refine ⟨rfl, rfl, rfl, ⟨hheader, by simpa using hsum⟩, htop, hread.good, hread.unmarked, ?_,
        ?_, ?_, ?_⟩
      · rw [show t.ni.infoTable = s.ni.infoTable by rw [hni]]
        split
        · rw [hni]
        · exact hni
      · split <;> exact hreads.hist
      · split <;> exact hreads.flash
      · split <;> exact hreads.touches

theorem tryLoadInfoTable_none (hg : Geometry nld) {ba : Nat} {tableLoaded : Bool}
    (hcache : s.ni.infoTableCache.length = nld.infoTableSize)
    (h : tryLoadInfoTable nld ba tableLoaded s = (none, s')) : Reads nld s s' := by
  have hreads := readTableLoop_reads hg nld.infoTableBlocks ba none (Nat.zero_le _) hcache
  unfold tryLoadInfoTable at h
  dsimp only at h
  split at h
  · obtain ⟨-, rfl⟩ := Prod.mk.inj h
    exact hreads
  split at h
  · obtain ⟨-, rfl⟩ := Prod.mk.inj h
    exact hreads
  split at h
  · obtain ⟨-, rfl⟩ := Prod.mk.inj h
    exact hreads
  · simp at h

/-- A table at `ba` passes every check of an instance. -/
structure Accepts (nld : LowerDevice) (ni : Instance) (f : Flash) (ba : Nat) : Prop where
  good : ∀ i, i < nld.infoTableBlocks → ni.getBlockState (ba + i) = blockStGood
  unmarked : ∀ i, i < nld.infoTableBlocks → f.marked nld (ba + i) = false
  table : TableAt nld f ba
  check : (checkInfoTable nld ni ba (ba + nld.infoTableBlocks) (tableImage nld f ba)).isSome = true

/-- The check of a table in good blocks does not depend on any other block. -/
theorem checkInfoTable_congr {ni ni' : Instance} {a e : Nat} (data : List Byte)
    (hcount : ni'.dataBlockCount = ni.dataBlockCount) (hsig : ni'.signatureBa = ni.signatureBa)
    (hgood : ∀ ba, a ≤ ba → ba < e → ni.getBlockState ba = blockStGood)
    (hgood' : ∀ ba, a ≤ ba → ba < e → ni'.getBlockState ba = blockStGood) :
    checkInfoTable nld ni' a e data = checkInfoTable nld ni a e data := by
  have hbad : badMapping ni' e = badMapping ni e := by
    funext v
    simp only [badMapping, hcount, hsig]
  have hany : (List.range' a (e - a)).any (fun ba => decide (ni'.getBlockState ba = blockStGood ∧
        getBlockStateRaw (imageState nld data) ba ≠ blockStGood))
      = (List.range' a (e - a)).any (fun ba => decide (ni.getBlockState ba = blockStGood ∧
        getBlockStateRaw (imageState nld data) ba ≠ blockStGood)) := by
    rw [Bool.eq_iff_iff, List.any_eq_true, List.any_eq_true]
    refine exists_congr fun ba => and_congr_right fun hmem => ?_
    rw [List.mem_range'_1] at hmem
    rw [hgood ba hmem.1 (by omega), hgood' ba hmem.1 (by omega)]
  unfold checkInfoTable
  simp only [hbad, hcount, hsig, hany]

theorem Accepts.of_reads {ba : Nat} (h : Accepts nld s.ni s.dev.flash ba) (hr : Reads nld s s')
    (hd : s.dev.Healthy) : Accepts nld s'.ni s'.dev.flash ba := by
  have hgood : ∀ i, i < nld.infoTableBlocks → s'.ni.getBlockState (ba + i) = blockStGood := by
    intro i hi
    rcases hr.state (ba + i) with hsame | ⟨-, -, hmark⟩
    · rw [hsame]
      exact h.good i hi
    · rw [h.unmarked i hi] at hmark
      exact absurd (hmark hd) (by simp)
  have hblock : ∀ {ni : Instance}, (∀ i, i < nld.infoTableBlocks →
      ni.getBlockState (ba + i) = blockStGood) → ∀ b, ba ≤ b → b < ba + nld.infoTableBlocks →
      ni.getBlockState b = blockStGood := by
    intro ni hni b hlo hhi
    obtain ⟨i, rfl⟩ := Nat.exists_eq_add_of_le hlo
    exact hni i (by omega)
  refine ⟨hgood, by rw [hr.flash]; exact h.unmarked, by rw [hr.flash]; exact h.table, ?_⟩
  rw [hr.flash, checkInfoTable_congr _ (by rw [hr.rest]) (by rw [hr.rest]) (hblock h.good)
    (hblock hgood)]
  exact h.check

theorem tryLoadInfoTable_healthy (hc : Chip nld) {ba : Nat} (tableLoaded : Bool)
    (hcache : s.ni.infoTableCache.length = nld.infoTableSize) (hd : s.dev.Healthy)
    (hacc : Accepts nld s.ni s.dev.flash ba) :
    (tryLoadInfoTable nld ba tableLoaded s).1.isSome = true := by
  have hg := hc.toGeometry
  have hd' := (checkBadPhysBlock_touches nld ∅ ba s.dev).healthy hd
  have hblocks : nld.infoTableBlocks = nld.size2blk (nld.infoTableSize - 0) := rfl
  have hsome : (readTableLoop nld nld.infoTableBlocks ba 0 none s).1.isSome = true :=
    readTableLoop_healthy hg hd (Nat.zero_le _) hcache hblocks hacc.good hacc.unmarked (by
      intro _ _
      rw [← hacc.table.1]
      apply checkInfoTableHeader_congr
      have := afterChunk_header (s := s) hc ba (d := (checkBadPhysBlock nld ba s.dev).2)
        (by rw [readData_healthy hg.writesize_pos hd'])
      rwa [checkBadPhysBlock_flash] at this)
  unfold tryLoadInfoTable
  dsimp only
  rcases hloop : readTableLoop nld nld.infoTableBlocks ba 0 none s with ⟨r, t⟩
  rw [hloop] at hsome
  cases r with
  | none => simp at hsome
  | some p =>
      obtain ⟨a, e⟩ := p
      have hfound : (readTableLoop nld nld.infoTableBlocks ba 0 none s).1 = some (a, e) := by
        rw [hloop]
      obtain ⟨rfl, ha, -, hread, -⟩ := readTableLoop_some hg (Nat.zero_le _) hcache hblocks hfound
      obtain rfl : a = ba := ha (lt_of_lt_of_le (by decide) hg.header_le)
      rw [hloop] at hread
      have hcachet : t.ni.infoTableCache = tableImage nld s.dev.flash a := by
        rw [hread.cache]
        simp [tableImage]
      have hcheck : checkInfoTable nld t.ni a (a + nld.infoTableBlocks)
          (tableImage nld s.dev.flash a) = checkInfoTable nld s.ni a (a + nld.infoTableBlocks)
          (tableImage nld s.dev.flash a) := by
        rw [hread.ni]
        rfl
      dsimp only
      rw [hcachet, hacc.table.2, hcheck]
      obtain ⟨top, htop⟩ := Option.isSome_iff_exists.mp hacc.check
      rw [htop]
      rfl

/-! ### Searching -/

/-- A search stopped at the first table it accepted, or found none. -/
theorem searchInfoTableLoop_cases (hc : Chip nld) (tableLoaded : Bool) (n ba : Nat)
    (hcache : s.ni.infoTableCache.length = nld.infoTableSize) :
    (∃ t, searchInfoTableLoop nld tableLoaded n ba s = (none, t) ∧ Reads nld s t ∧
      (s.dev.Healthy → ∀ b, ba ≤ b → b < ba + n → ¬ Accepts nld s.ni s.dev.flash b)) ∨
    ∃ b t t' found, searchInfoTableLoop nld tableLoaded n ba s = (some found, t') ∧ ba ≤ b ∧
      b < ba + n ∧ Reads nld s t ∧ Loaded nld b tableLoaded t t' found ∧
      (s.dev.Healthy → ∀ b', ba ≤ b' → b' < b → ¬ Accepts nld s.ni s.dev.flash b') := by
  induction n generalizing ba s with
  | zero => exact .inl ⟨s, rfl, .refl s, fun _ b hlo hhi => by omega⟩
  | succ n ih =>
      rw [searchInfoTableLoop]
      rcases htry : tryLoadInfoTable nld ba tableLoaded s with ⟨r, t⟩
      cases r with
      | some found =>
          exact .inr ⟨ba, s, t, found, rfl, le_rfl, by omega, .refl s,
            tryLoadInfoTable_some hc hcache htry, fun _ b' hlo hhi => by omega⟩
      | none =>
          have hreads := tryLoadInfoTable_none hc.toGeometry hcache htry
          have hreject : s.dev.Healthy → ¬ Accepts nld s.ni s.dev.flash ba := by
            intro hd hacc
            have hsome := tryLoadInfoTable_healthy hc tableLoaded hcache hd hacc
            rw [htry] at hsome
            cases hsome
          have hmore : ∀ b', s.dev.Healthy → ¬ Accepts nld t.ni t.dev.flash b' →
              ¬ Accepts nld s.ni s.dev.flash b' :=
            fun b' hd hnot hacc => hnot (hacc.of_reads hreads hd)
          simp only [Option.isSome_none, Bool.false_eq_true, if_false]
          rcases ih (ba + 1) (hreads.cacheLength.trans hcache) with
            ⟨t', heq, hreads', hnone⟩ | ⟨b, t', t'', found, heq, hlo, hhi, hreads', hload, hfirst⟩
          · refine .inl ⟨t', heq, hreads.trans hreads', fun hd b hlo hhi => ?_⟩
            by_cases hb : b = ba
            · subst hb
              exact hreject hd
            · exact hmore b hd (hnone (hreads.touches.healthy hd) b (by omega) (by omega))
          · refine .inr ⟨b, t', t'', found, heq, by omega, by omega, hreads.trans hreads', hload,
              fun hd b' hlo' hhi' => ?_⟩
            by_cases hb : b' = ba
            · subst hb
              exact hreject hd
            · exact hmore b' hd (hfirst (hreads.touches.healthy hd) b' (by omega) hhi')

/-! ### The mapping of a table -/

/-- The block that logical block `lb` has in a table image. -/
def tableTarget (nld : LowerDevice) (data : List Byte) (lb : Nat) : Int :=
  (imageMapping nld data).getD lb (-1)

theorem tableTarget_range (nld : LowerDevice) (data : List Byte) (lb : Nat) :
    -2 ^ 31 ≤ tableTarget nld data lb ∧ tableTarget nld data lb < 2 ^ 31 := by
  unfold tableTarget imageMapping
  rw [List.getD_eq_getElem?_getD, List.getElem?_map]
  cases (getWords data (InfoTableHeader.ofBytes data).mappingTableOff.toNat nld.blockCount)[lb]? with
  | none => simp
  | some w =>
      have hlo := BitVec.le_toInt w
      have hhi := w.toInt_lt
      exact ⟨by simpa [toInt32] using hlo, by simpa [toInt32] using hhi⟩

theorem asUInt32_of_nonneg {v : Int} (hlo : 0 ≤ v) (hhi : v < 2 ^ 31) : (asUInt32 v : Int) = v := by
  unfold asUInt32
  omega

theorem asUInt32_of_neg {v : Int} (hlo : -2 ^ 31 ≤ v) (hhi : v < 0) : 2 ^ 31 ≤ asUInt32 v := by
  unfold asUInt32
  omega

theorem foldl_minimumMapping (endBa acc : Nat) (vs : List Int) :
    vs.foldl (minimumMapping endBa) acc ≤ acc ∧
      (∀ v ∈ vs, endBa ≤ asUInt32 v → vs.foldl (minimumMapping endBa) acc ≤ asUInt32 v) ∧
      (vs.foldl (minimumMapping endBa) acc = acc ∨
        ∃ v ∈ vs, endBa ≤ asUInt32 v ∧ vs.foldl (minimumMapping endBa) acc = asUInt32 v ∧
          asUInt32 v < acc) := by
  induction vs generalizing acc with
  | nil => exact ⟨le_rfl, by simp, .inl rfl⟩
  | cons v vs ih =>
      obtain ⟨hle, hmem, hcase⟩ := ih (minimumMapping endBa acc v)
      have hstep : minimumMapping endBa acc v ≤ acc ∧
          (endBa ≤ asUInt32 v → minimumMapping endBa acc v ≤ asUInt32 v) ∧
          (minimumMapping endBa acc v = acc ∨ endBa ≤ asUInt32 v ∧
            minimumMapping endBa acc v = asUInt32 v ∧ asUInt32 v < acc) := by
        unfold minimumMapping
        split
        · exact ⟨by omega, fun _ => le_rfl, .inr ⟨by omega, rfl, by omega⟩⟩
        · exact ⟨le_rfl, fun _ => by omega, .inl rfl⟩
      rw [List.foldl_cons]
      refine ⟨hle.trans hstep.1, fun w hw hend => ?_, ?_⟩
      · rcases List.mem_cons.mp hw with rfl | hw
        · exact hle.trans (hstep.2.1 hend)
        · exact hmem w hw hend
      · rcases hcase with heq | ⟨w, hw, hend, heq, hlt⟩
        · rw [heq]
          rcases hstep.2.2 with hsame | ⟨hend, hv, hlt⟩
          · exact .inl hsame
          · exact .inr ⟨v, List.mem_cons_self, hend, hv, hlt⟩
        · exact .inr ⟨w, List.mem_cons_of_mem _ hw, hend, heq, by omega⟩

theorem mem_take_imageMapping {data : List Byte} {n : Nat} {v : Int}
    (h : v ∈ (imageMapping nld data).take n) : ∃ lb, lb < n ∧ tableTarget nld data lb = v := by
  obtain ⟨lb, hlt, rfl⟩ := List.mem_iff_getElem.mp h
  rw [List.length_take] at hlt
  refine ⟨lb, by omega, ?_⟩
  rw [tableTarget, List.getD_eq_getElem?_getD, List.getElem_take,
    List.getElem?_eq_getElem (by omega), Option.getD_some]

theorem tableTarget_mem_take {data : List Byte} {n lb : Nat} (hlb : lb < n)
    (h : 0 ≤ tableTarget nld data lb) :
    tableTarget nld data lb ∈ (imageMapping nld data).take n := by
  have hlen : lb < (imageMapping nld data).length := by
    by_contra hge
    rw [tableTarget, List.getD_eq_getElem?_getD, List.getElem?_eq_none (by omega)] at h
    simp at h
  apply List.mem_of_getElem? (i := lb)
  rw [List.getElem?_take_of_lt hlb, tableTarget, List.getD_eq_getElem?_getD,
    List.getElem?_eq_getElem hlen, Option.getD_some]

/-- What a table that was checked says: no block of it lies between the data area and its end, and the
pool's top is right below the lowest block it maps to above its end. -/
theorem checkInfoTable_some {ni : Instance} {a e top : Nat} {data : List Byte}
    (h : checkInfoTable nld ni a e data = some top) (he : 0 < e) (hsig : 0 < ni.signatureBa)
    (hsmall : ni.signatureBa ≤ 2 ^ 31) :
    top < ni.signatureBa ∧
      (∀ lb, lb < ni.dataBlockCount → (e : Int) ≤ tableTarget nld data lb →
        (top : Int) < tableTarget nld data lb) ∧
      (∀ m : Nat, m < ni.signatureBa → (∀ lb, lb < ni.dataBlockCount →
        (e : Int) ≤ tableTarget nld data lb → (m : Int) < tableTarget nld data lb) → m ≤ top) := by
  unfold checkInfoTable at h
  dsimp only at h
  split at h
  · cases h
  split at h
  · cases h
  obtain rfl := Option.some.inj h
  obtain ⟨hle, hmem, hcase⟩ :=
    foldl_minimumMapping e ni.signatureBa ((imageMapping nld data).take ni.dataBlockCount)
  set low := ((imageMapping nld data).take ni.dataBlockCount).foldl (minimumMapping e)
    ni.signatureBa with hlow
  have hpos : 0 < low := by
    rcases hcase with heq | ⟨v, -, hend, heq, -⟩ <;> omega
  refine ⟨by omega, fun lb hlb hend => ?_, fun m hm hall => ?_⟩
  · have hrange := tableTarget_range nld data lb
    have hnn : 0 ≤ tableTarget nld data lb := by omega
    have hval := asUInt32_of_nonneg hnn hrange.2
    have hlow' := hmem _ (tableTarget_mem_take hlb hnn) (by omega)
    omega
  · rcases hcase with heq | ⟨v, hv, hend, heq, hlt⟩
    · omega
    · obtain ⟨lb, hlb, rfl⟩ := mem_take_imageMapping hv
      have hrange := tableTarget_range nld data lb
      have hnn : 0 ≤ tableTarget nld data lb := by
        by_contra hneg
        have := asUInt32_of_neg hrange.1 (by omega)
        omega
      have hval := asUInt32_of_nonneg hnn hrange.2
      have := hall lb hlb (by omega)
      omega

end Immwrt.Nmbm
