import Immwrt.Nmbm.Proof.Load
import Immwrt.Nmbm.Proof.Mapping
import Immwrt.Nmbm.Proof.Persist
import Immwrt.Nmbm.Proof.Sync

/-!
# Attaching

What `nmbm_attach` has in memory when it returns comes from one table on the chip, the newest of the
first two it found. Where the pool ends is derived from that table's mapping, so the mapping is clear of
the tables and the pool from the start.
-/

namespace Immwrt.Nmbm

variable {nld : LowerDevice} {s s' : Sys}

/-! ### The two tables -/

/-- A table that a search on `s` found below `limit`. -/
structure Hit (nld : LowerDevice) (s : Sys) (lo limit : Nat) (x : Found) : Prop where
  lo_le : lo ≤ x.startBa
  lt_limit : x.startBa < limit
  endBa : x.endBa = x.startBa + nld.infoTableBlocks
  writeCount : x.writeCount = tableCount nld s.dev.flash x.startBa
  table : TableAt nld s.dev.flash x.startBa
  top : ∃ ni : Instance, ni.dataBlockCount = s.ni.dataBlockCount ∧
    ni.signatureBa = s.ni.signatureBa ∧
    (∀ i, i < nld.infoTableBlocks → ni.getBlockState (x.startBa + i) = blockStGood) ∧
    checkInfoTable nld ni x.startBa x.endBa (tableImage nld s.dev.flash x.startBa) = some x.topBa
  unmarked : s.dev.Honest → ∀ i, i < nld.infoTableBlocks →
    s.dev.flash.marked nld (x.startBa + i) = false

/-- The newest of the tables found. -/
def newestOf (first : Found) (second : Option Found) : Found :=
  if first.writeCount < (second.getD first).writeCount then second.getD first else first

/-- The instance of the second search: it knows what the first table says about the blocks. -/
def Sys.secondLook (nld : LowerDevice) (s : Sys) (first : Found) : Instance :=
  { s.ni with blockState := imageState nld (tableImage nld s.dev.flash first.startBa) }

/-- The members that a search does not set. -/
def SameBounds (ni ni' : Instance) : Prop :=
  ni' = { ni with
    infoTableCache := ni'.infoTableCache
    infoTable := ni'.infoTable
    blockState := ni'.blockState
    blockStateChanged := ni'.blockStateChanged
    blockMapping := ni'.blockMapping }

theorem SameBounds.trans {ni ni' ni'' : Instance} (h : SameBounds ni ni') (h' : SameBounds ni' ni'') :
    SameBounds ni ni'' := by
  unfold SameBounds at *
  rw [h', h]

theorem Reads.sameBounds (h : Reads nld s s') : SameBounds s.ni s'.ni := by
  unfold SameBounds
  rw [h.rest]

theorem Loaded.sameBounds {b : Nat} {loaded : Bool} {x : Found} (h : Loaded nld b loaded s s' x) :
    SameBounds s.ni s'.ni := by
  unfold SameBounds
  rw [h.ni]
  split <;> rfl

section

variable {ni ni' : Instance} (h : SameBounds ni ni')
include h

theorem SameBounds.dataBlockCount : ni'.dataBlockCount = ni.dataBlockCount := by rw [h]

theorem SameBounds.signatureBa : ni'.signatureBa = ni.signatureBa := by rw [h]

end

/-- What two searches from `s` come to. -/
structure Picked (nld : LowerDevice) (lo limit : Nat) (first : Found) (second : Option Found)
    (s s' : Sys) : Prop where
  rest : SameBounds s.ni s'.ni
  hist : s'.hist = s.hist
  flash : s'.dev.flash = s.dev.flash
  touches : Touches nld ∅ s.dev s'.dev
  first_hit : Hit nld s lo limit first
  second_hit : ∀ x, second = some x → Hit nld s first.endBa limit x
  infoTable : s'.ni.infoTable
    = InfoTableHeader.ofBytes (tableImage nld s.dev.flash (newestOf first second).startBa)
  blockMapping : s'.ni.blockMapping
    = imageMapping nld (tableImage nld s.dev.flash (newestOf first second).startBa)
  blockState : ∀ ba, s'.ni.getBlockState ba = getBlockStateRaw (imageState nld
      (tableImage nld s.dev.flash (newestOf first second).startBa)) ba ∨
    s'.ni.getBlockState ba = blockStBad ∧ (s.dev.Healthy → s.dev.flash.marked nld ba = true)
  length : s'.ni.blockState.length = nld.stateWords
  first_least : s.dev.Healthy → ∀ b, lo ≤ b → b < first.startBa → ¬ Accepts nld s.ni s.dev.flash b
  second_least : s.dev.Healthy → ∀ b, first.endBa ≤ b →
    b < (second.map Found.startBa).getD limit → ¬ Accepts nld (s.secondLook nld first) s.dev.flash b

theorem length_getWords (buf : List Byte) (off n : Nat) : (getWords buf off n).length = n := by
  induction n generalizing off with
  | zero => rfl
  | succ n ih => rw [getWords, List.length_cons, ih]

theorem length_imageState (nld : LowerDevice) (data : List Byte) :
    (imageState nld data).length = nld.stateWords := by
  unfold imageState
  exact length_getWords _ _ _

theorem Accepts.congr {ni ni' : Instance} {f : Flash} {ba : Nat} (h : Accepts nld ni f ba)
    (hstate : ∀ b, ni'.getBlockState b = ni.getBlockState b)
    (hcount : ni'.dataBlockCount = ni.dataBlockCount) (hsig : ni'.signatureBa = ni.signatureBa) :
    Accepts nld ni' f ba := by
  have hblock : ∀ b, ba ≤ b → b < ba + nld.infoTableBlocks → ni.getBlockState b = blockStGood := by
    intro b hlo hhi
    obtain ⟨i, rfl⟩ := Nat.exists_eq_add_of_le hlo
    exact h.good i (by omega)
  refine ⟨fun i hi => (hstate _).trans (h.good i hi), h.unmarked, h.table, ?_⟩
  rw [checkInfoTable_congr _ hcount hsig hblock fun b hlo hhi => (hstate b).trans (hblock b hlo hhi)]
  exact h.check

/-- A loaded table is a hit. -/
theorem Loaded.hit {b lo limit : Nat} {loaded : Bool} {t t' : Sys} {x : Found}
    (h : Loaded nld b loaded t t' x) (hflash : t.dev.flash = s.dev.flash)
    (hcount : t.ni.dataBlockCount = s.ni.dataBlockCount)
    (hsig : t.ni.signatureBa = s.ni.signatureBa) (hhonest : s.dev.Honest → t.dev.Honest)
    (hlo : lo ≤ b) (hhi : b < limit) : Hit nld s lo limit x := by
  obtain ⟨hstart, hend, hwc, htable, htop, hgood, hunmarked, -, -, -, -⟩ := h
  subst hstart
  rw [hflash] at hwc htable htop hunmarked
  exact ⟨hlo, hhi, hend, hwc, htable, ⟨t.ni, hcount, hsig, hgood, hend ▸ htop⟩,
    fun hd => hunmarked (hhonest hd)⟩

/-- What is in memory after the first search. -/
theorem Loaded.memory {b : Nat} {x : Found} (h : Loaded nld b false s s' x) :
    s'.ni.infoTable = InfoTableHeader.ofBytes (tableImage nld s.dev.flash b) ∧
      s'.ni.blockState = imageState nld (tableImage nld s.dev.flash b) ∧
      s'.ni.blockMapping = imageMapping nld (tableImage nld s.dev.flash b) ∧
      s'.ni.infoTableCache = tableImage nld s.dev.flash b := by
  rw [h.ni, if_pos (by simp)]
  exact ⟨rfl, rfl, rfl, rfl⟩

/-- What is in memory after the second search. -/
theorem Loaded.memory_second {b : Nat} {x : Found} (h : Loaded nld b true s s' x) :
    if s.ni.infoTable.writeCount < x.writeCount then
      s'.ni.infoTable = InfoTableHeader.ofBytes (tableImage nld s.dev.flash b) ∧
        s'.ni.blockState = imageState nld (tableImage nld s.dev.flash b) ∧
        s'.ni.blockMapping = imageMapping nld (tableImage nld s.dev.flash b)
    else s'.ni.infoTable = s.ni.infoTable ∧ s'.ni.blockState = s.ni.blockState ∧
      s'.ni.blockMapping = s.ni.blockMapping := by
  rw [h.ni]
  split
  · rename_i hlt
    rw [if_pos (by simpa using hlt)]
    exact ⟨rfl, rfl, rfl⟩
  · rename_i hlt
    rw [if_neg (by simpa using hlt)]
    exact ⟨rfl, rfl, rfl⟩

theorem Reads.infoTable (h : Reads nld s s') : s'.ni.infoTable = s.ni.infoTable := by rw [h.rest]

theorem Reads.blockMapping (h : Reads nld s s') : s'.ni.blockMapping = s.ni.blockMapping := by
  rw [h.rest]

/-- The two searches of `nmbm_load_info_table`. -/
theorem search_picks (hc : Chip nld) {lo limit : Nat}
    (hcache : s.ni.infoTableCache.length = nld.infoTableSize) :
    (∃ t, searchInfoTable nld lo limit false s = (none, t) ∧ Reads nld s t ∧
      (s.dev.Healthy → ∀ b, lo ≤ b → b < sub32 limit nld.infoTableBlocks →
        ¬ Accepts nld s.ni s.dev.flash b)) ∨
    ∃ first second t t', searchInfoTable nld lo limit false s = (some first, t) ∧
      searchInfoTable nld first.endBa limit true t = (second, t') ∧
      Picked nld lo (sub32 limit nld.infoTableBlocks) first second s t' := by
  unfold searchInfoTable
  generalize sub32 limit nld.infoTableBlocks = lim
  rcases searchInfoTableLoop_cases hc false (lim - lo) lo hcache with
    ⟨t, heq, hreads, hnone⟩ | ⟨b, t, t', first, heq, hlo, hhi, hreads, hload, hfirst⟩
  · exact .inl ⟨t, heq, hreads, fun hd b hlo hhi => hnone hd b hlo (by omega)⟩
  right
  have hhit : Hit nld s lo lim first := hload.hit hreads.flash hreads.sameBounds.dataBlockCount
    hreads.sameBounds.signatureBa hreads.touches.honest hlo (by omega)
  obtain rfl : first.startBa = b := hload.startBa
  obtain ⟨hhdr, hstate, hmapping, hcached⟩ := hload.memory
  rw [hreads.flash] at hhdr hstate hmapping hcached
  have hbounds := hreads.sameBounds.trans hload.sameBounds
  have hflash' : t'.dev.flash = s.dev.flash := hload.flash.trans hreads.flash
  have htouch' : Touches nld ∅ s.dev t'.dev := hreads.touches.trans hload.touches
  have hcache' : t'.ni.infoTableCache.length = nld.infoTableSize := by
    rw [hcached]
    exact length_bytesAt _ _ _
  have hfirstLeast : s.dev.Healthy → ∀ b, lo ≤ b → b < first.startBa →
      ¬ Accepts nld s.ni s.dev.flash b := hfirst
  have hlook : ∀ b', Accepts nld (s.secondLook nld first) s.dev.flash b' →
      Accepts nld t'.ni t'.dev.flash b' := by
    intro b' hacc
    rw [hflash']
    refine hacc.congr (fun ba => ?_) hbounds.dataBlockCount hbounds.signatureBa
    rw [Instance.getBlockState, hstate]
    rfl
  rcases searchInfoTableLoop_cases hc true (lim - first.endBa) first.endBa hcache' with
    ⟨u, heq2, hreads2, hnone2⟩ | ⟨b2, u, u', second, heq2, hlo2, hhi2, hreads2, hload2, hfirst2⟩
  · refine ⟨first, none, t', u, heq, heq2, ?_⟩
    have hnew : newestOf first none = first := by simp [newestOf]
    refine ⟨hbounds.trans hreads2.sameBounds, ?_, hreads2.flash.trans hflash',
      htouch'.trans hreads2.touches, hhit, by simp, ?_, ?_, fun ba => ?_, ?_, hfirstLeast,
      fun hd b' hlo' hhi' hacc => ?_⟩
    · rw [hreads2.hist, hload.hist, hreads.hist]
    · rw [hnew, hreads2.infoTable, hhdr]
    · rw [hnew, hreads2.blockMapping, hmapping]
    · rw [hnew]
      rcases hreads2.state ba with hsame | ⟨-, hbad, hmark⟩
      · left
        rw [hsame, Instance.getBlockState, hstate]
      · refine .inr ⟨hbad, fun hd => ?_⟩
        rw [← hflash']
        exact hmark (htouch'.healthy hd)
    · rw [hreads2.length, hstate, length_imageState]
    · rw [Option.map_none, Option.getD_none] at hhi'
      exact hnone2 (htouch'.healthy hd) b' hlo' (by omega) (hlook b' hacc)
  · obtain rfl : second.startBa = b2 := hload2.startBa
    refine ⟨first, some second, t', u', heq, heq2, ?_⟩
    have hflashu : u.dev.flash = s.dev.flash := hreads2.flash.trans hflash'
    have hbounds2 := hbounds.trans hreads2.sameBounds
    have hmem := hload2.memory_second
    have hcount : u.ni.infoTable.writeCount = first.writeCount := by
      rw [hreads2.infoTable, hhdr, hhit.writeCount]
      rfl
    rw [hcount, hflashu] at hmem
    have hnew : newestOf first (some second)
        = if first.writeCount < second.writeCount then second else first := rfl
    have hsecondHit : ∀ x, some second = some x → Hit nld s first.endBa lim x := by
      intro x hx
      obtain rfl := Option.some.inj hx
      exact hload2.hit hflashu hbounds2.dataBlockCount hbounds2.signatureBa
        (htouch'.trans hreads2.touches).honest hlo2 (by omega)
    have hsecondLeast : s.dev.Healthy → ∀ b', first.endBa ≤ b' →
        b' < ((some second).map Found.startBa).getD lim →
        ¬ Accepts nld (s.secondLook nld first) s.dev.flash b' := fun hd b' hlo' hhi' hacc =>
      hfirst2 (htouch'.healthy hd) b' hlo' (by simpa using hhi') (hlook b' hacc)
    have hhist : u'.hist = s.hist := by rw [hload2.hist, hreads2.hist, hload.hist, hreads.hist]
    have htouches := (htouch'.trans hreads2.touches).trans hload2.touches
    split at hmem
    · rename_i hlt
      obtain ⟨hhdr2, hstate2, hmapping2⟩ := hmem
      refine ⟨hbounds2.trans hload2.sameBounds, hhist, hload2.flash.trans hflashu, htouches, hhit,
        hsecondHit, ?_, ?_, fun ba => ?_, ?_, hfirstLeast, hsecondLeast⟩
      · rw [hnew, if_pos hlt, hhdr2]
      · rw [hnew, if_pos hlt, hmapping2]
      · rw [hnew, if_pos hlt, Instance.getBlockState, hstate2]
        exact .inl rfl
      · rw [hstate2, length_imageState]
    · rename_i hlt
      obtain ⟨hhdr2, hstate2, hmapping2⟩ := hmem
      refine ⟨hbounds2.trans hload2.sameBounds, hhist, hload2.flash.trans hflashu, htouches, hhit,
        hsecondHit, ?_, ?_, fun ba => ?_, ?_, hfirstLeast, hsecondLeast⟩
      · rw [hnew, if_neg hlt, hhdr2, hreads2.infoTable, hhdr]
      · rw [hnew, if_neg hlt, hmapping2, hreads2.blockMapping, hmapping]
      · rw [hnew, if_neg hlt]
        have hsame' : u'.ni.getBlockState ba = u.ni.getBlockState ba := by
          rw [Instance.getBlockState, hstate2]
          rfl
        rw [hsame']
        rcases hreads2.state ba with hsame | ⟨-, hbad, hmark⟩
        · left
          rw [hsame, Instance.getBlockState, hstate]
        · refine .inr ⟨hbad, fun hd => ?_⟩
          rw [← hflash']
          exact hmark (htouch'.healthy hd)
      · rw [hstate2, hreads2.length, hstate, length_imageState]

/-! ### A chip NMBM wrote -/

/-- A page that `nmbm_find_signature` takes for a signature. -/
def SignatureAt (f : Flash) (addr : Nat) : Prop :=
  checkHeader (bytesAt f.mem addr signatureSize) signatureSize = true ∧
    getU32 (bytesAt f.mem addr signatureSize) hdrMagic = magicSignature

/-- What a table maps, as NMBM writes it when the data area ends at `m`: distinct blocks, below the
management region or past the end of the table. -/
structure LegalTable (nld : LowerDevice) (m : Nat) (f : Flash) (ba : Nat) : Prop where
  clear : ∀ lb, 0 ≤ tableTarget nld (tableImage nld f ba) lb →
    tableTarget nld (tableImage nld f ba) lb < m ∨
      ((ba + nld.infoTableBlocks : Nat) : Int) < tableTarget nld (tableImage nld f ba) lb
  injective : ∀ lb lb', lb ≠ lb' → 0 ≤ tableTarget nld (tableImage nld f ba) lb →
    0 ≤ tableTarget nld (tableImage nld f ba) lb' →
    tableTarget nld (tableImage nld f ba) lb ≠ tableTarget nld (tableImage nld f ba) lb'
  outside : ∀ lb, m ≤ lb → tableTarget nld (tableImage nld f ba) lb < 0

/-- A chip that NMBM wrote, with a data area of `m` blocks: its signatures say so and leave room for a
table, its tables are legal, and two of the same write count have the same mapping. -/
structure LegalFlash (nld : LowerDevice) (m : Nat) (f : Flash) : Prop where
  start : 0 < m
  page : signatureSize ≤ nld.writesize
  signature : ∀ ba k, k < nld.pagesPerBlock → SignatureAt f (nld.ba2addr ba + k * nld.writesize) →
    (Signature.ofBytes (bytesAt f.mem (nld.ba2addr ba + k * nld.writesize)
      signatureSize)).mgmtStartPb = m ∧ m + nld.infoTableBlocks < ba ∧ ba < nld.blockCount
  table : ∀ ba, TableAt nld f ba → LegalTable nld m f ba
  same : ∀ ba ba', TableAt nld f ba → TableAt nld f ba' → tableCount nld f ba = tableCount nld f ba' →
    imageMapping nld (tableImage nld f ba) = imageMapping nld (tableImage nld f ba')

theorem newestOf_hit {lo limit : Nat} {first : Found} {second : Option Found}
    (hp : Picked nld lo limit first second s s') : Hit nld s lo limit (newestOf first second) := by
  unfold newestOf
  split
  · cases hsecond : second with
    | none => exact hp.first_hit
    | some x =>
        have hx := hp.second_hit x hsecond
        have hlo := hp.first_hit.lo_le
        have hend := hp.first_hit.endBa
        exact { hx with lo_le := by have := hx.lo_le; simp only [Option.getD_some]; omega }
  · exact hp.first_hit

/-- What the check of a table that was found says about its mapping. -/
theorem Hit.bounds {lo limit : Nat} {x : Found} (h : Hit nld s lo limit x)
    (hend : 0 < x.endBa) (hend' : x.endBa ≤ 2 ^ 31) (hsig : 0 < s.ni.signatureBa)
    (hsmall : s.ni.signatureBa < 2 ^ 31) :
    x.topBa < s.ni.signatureBa ∧
      (∀ lb, lb < s.ni.dataBlockCount →
        0 ≤ tableTarget nld (tableImage nld s.dev.flash x.startBa) lb →
        (tableTarget nld (tableImage nld s.dev.flash x.startBa) lb < s.ni.dataBlockCount ∨
          (x.topBa : Int) < tableTarget nld (tableImage nld s.dev.flash x.startBa) lb) ∧
        tableTarget nld (tableImage nld s.dev.flash x.startBa) lb ≠ s.ni.signatureBa) ∧
      (∀ m : Nat, m < s.ni.signatureBa → (∀ lb, lb < s.ni.dataBlockCount →
        (x.endBa : Int) ≤ tableTarget nld (tableImage nld s.dev.flash x.startBa) lb →
        (m : Int) < tableTarget nld (tableImage nld s.dev.flash x.startBa) lb) → m ≤ x.topBa) := by
  obtain ⟨ni, hcount, hsigni, -, htop⟩ := h.top
  have hchecked := checkInfoTable_some htop hend (hsigni ▸ hsig) (hsigni ▸ hsmall.le)
  have hsome := (checkInfoTable_isSome hend' (hsigni ▸ hsmall)).mp (Option.isSome_of_eq_some htop)
  rw [hcount, hsigni] at hchecked hsome
  obtain ⟨hlt, habove, hmax⟩ := hchecked
  refine ⟨hlt, fun lb hlb hnn => ?_, hmax⟩
  obtain ⟨hclear, hne⟩ := hsome.1 lb hlb hnn
  exact ⟨hclear.imp_right (habove lb hlb), hne⟩

/-! ### Loading -/

/-- An instance that is about to search a chip with a data area of `m` blocks: its signature is above
the first table there can be. -/
structure Searching (nld : LowerDevice) (m : Nat) (s : Sys) : Prop where
  mgmtStartBa : s.ni.mgmtStartBa = m
  dataBlockCount : s.ni.dataBlockCount = m
  room : m + nld.infoTableBlocks < s.ni.signatureBa
  small : s.ni.signatureBa < nld.blockCount
  mgmt : s.hist.mgmt = []
  cache : s.ni.infoTableCache.length = nld.infoTableSize

theorem Geometry.blockCount_lt (hg : Geometry nld) : nld.blockCount < 2 ^ 30 := by
  have hlayout := hg.layout
  have hfits := hg.fits
  omega

theorem Geometry.infoTableBlocks_pos (hg : Geometry nld) : 0 < nld.infoTableBlocks := by
  have := size2blk_pos hg (lt_of_lt_of_le (by decide) hg.header_le : 0 < nld.infoTableSize)
  unfold LowerDevice.infoTableBlocks
  omega

theorem sub32_of_le {a b : Nat} (hle : b ≤ a) (hlt : a < 2 ^ 32) : sub32 a b = a - b := by
  unfold sub32
  omega

section

variable {m : Nat} {first : Found} {second : Option Found}

/-- Where the tables are that were found. -/
theorem Picked.places (hg : Geometry nld) (hsearch : Searching nld m s)
    (hp : Picked nld m (sub32 s.ni.signatureBa nld.infoTableBlocks) first second s s') :
    m ≤ first.startBa ∧ first.endBa = first.startBa + nld.infoTableBlocks ∧
      first.endBa ≤ (second.getD first).endBa ∧ (second.getD first).endBa < s.ni.signatureBa ∧
      ∀ x, second = some x → first.endBa ≤ x.startBa ∧
        x.endBa = x.startBa + nld.infoTableBlocks := by
  have hroom := hsearch.room
  have hsmall := hsearch.small
  have hcount := hg.blockCount_lt
  have hlimit : sub32 s.ni.signatureBa nld.infoTableBlocks
      = s.ni.signatureBa - nld.infoTableBlocks := sub32_of_le (by omega) (by omega)
  have hf := hp.first_hit
  have hlo := hf.lo_le
  have hlt := hf.lt_limit
  have hend := hf.endBa
  refine ⟨hlo, hend, ?_, ?_, fun x hx => ⟨(hp.second_hit x hx).lo_le, (hp.second_hit x hx).endBa⟩⟩
  · cases hsecond : second with
    | none => exact le_rfl
    | some x =>
        have hx := hp.second_hit x hsecond
        have := hx.lo_le
        have := hx.endBa
        simp only [Option.getD_some]
        omega
  · cases hsecond : second with
    | none =>
        simp only [Option.getD_none]
        omega
    | some x =>
        have hx := hp.second_hit x hsecond
        have := hx.lt_limit
        have := hx.endBa
        simp only [Option.getD_some]
        omega

theorem Picked.mapping (hp : Picked nld m (sub32 s.ni.signatureBa nld.infoTableBlocks) first second
    s s') (lb : Nat) : s'.ni.mapping lb
      = tableTarget nld (tableImage nld s.dev.flash (newestOf first second).startBa) lb := by
  rw [Instance.mapping, hp.blockMapping, tableTarget]

/-- What the newest table says about the mapping. -/
theorem Picked.newest_bounds (hg : Geometry nld) (hsearch : Searching nld m s)
    (hp : Picked nld m (sub32 s.ni.signatureBa nld.infoTableBlocks) first second s s') :
    (newestOf first second).topBa < s.ni.signatureBa ∧
      (∀ lb, lb < m → 0 ≤ s'.ni.mapping lb →
        (s'.ni.mapping lb < m ∨ ((newestOf first second).topBa : Int) < s'.ni.mapping lb) ∧
          s'.ni.mapping lb ≠ s.ni.signatureBa) ∧
      (∀ k : Nat, k < s.ni.signatureBa → (∀ lb, lb < m →
        ((newestOf first second).endBa : Int) ≤ s'.ni.mapping lb → (k : Int) < s'.ni.mapping lb) →
        k ≤ (newestOf first second).topBa) := by
  have hhit := newestOf_hit hp
  have hpos := hg.infoTableBlocks_pos
  have hcount := hg.blockCount_lt
  have hroom := hsearch.room
  have hsmall := hsearch.small
  have hend := hhit.endBa
  have hlt := hhit.lt_limit
  rw [sub32_of_le (by omega) (by omega)] at hlt
  have hb := hhit.bounds (by omega) (by omega) (by omega) (by omega)
  rw [hsearch.dataBlockCount] at hb
  simp only [hp.mapping]
  exact hb

theorem finishLoad_rest (nld : LowerDevice) (first : Found) (second : Option Found) (s : Sys) :
    (finishLoad nld first second s).ni.blockMapping = s.ni.blockMapping ∧
      (finishLoad nld first second s).ni.mappingBlocksTopBa = (newestOf first second).topBa ∧
      (finishLoad nld first second s).ni.mappingBlocksBa = (second.getD first).endBa ∧
      (finishLoad nld first second s).ni.mainTableBa = first.startBa ∧
      (finishLoad nld first second s).ni.backupTableBa = (second.map Found.startBa).getD 0 ∧
      (finishLoad nld first second s).hist.mainTableEba = first.endBa ∧
      (finishLoad nld first second s).hist.backupTableEba = (second.getD first).endBa ∧
      (finishLoad nld first second s).ni.mgmtStartBa = s.ni.mgmtStartBa ∧
      (finishLoad nld first second s).ni.signatureBa = s.ni.signatureBa ∧
      (finishLoad nld first second s).hist.mgmt = s.hist.mgmt ∧
      (finishLoad nld first second s).ni.infoTableCache ≠ [] :=
  ⟨rfl, rfl, rfl, rfl, rfl, rfl, rfl, rfl, rfl, rfl, infoTableImage_ne_nil _ _ _⟩

theorem SameBounds.mgmtStartBa {ni ni' : Instance} (h : SameBounds ni ni') :
    ni'.mgmtStartBa = ni.mgmtStartBa := by rw [h]

/-- The mapping that was loaded is in order. -/
theorem finishLoad_mapped (hg : Geometry nld) (hlegal : LegalFlash nld m s.dev.flash)
    (hsearch : Searching nld m s)
    (hp : Picked nld m (sub32 s.ni.signatureBa nld.infoTableBlocks) first second s s') :
    Mapped (finishLoad nld first second s') := by
  obtain ⟨hmapping, htop, -, -, -, -, -, hstart, hsig, hmgmt, -⟩ :=
    finishLoad_rest nld first second s'
  obtain ⟨-, hbounds, -⟩ := hp.newest_bounds hg hsearch
  have hleg := hlegal.table _ (newestOf_hit hp).table
  have hmap : ∀ lb, (finishLoad nld first second s').ni.mapping lb = s'.ni.mapping lb := by
    intro lb
    rw [Instance.mapping, hmapping]
    rfl
  have houtside : ∀ lb, m ≤ lb → s'.ni.mapping lb < 0 := by
    intro lb hlb
    rw [hp.mapping]
    exact hleg.outside lb hlb
  refine ⟨fun lb hnn => ?_, fun lb lb' hne hnn hnn' => ?_, fun lb => ?_, fun a ha => ?_⟩
  · rw [hmap] at hnn ⊢
    rw [hstart, htop, hp.rest.mgmtStartBa, hsearch.mgmtStartBa]
    by_cases hlb : lb < m
    · exact (hbounds lb hlb hnn).1
    · have := houtside lb (by omega)
      omega
  · rw [hmap, hp.mapping] at hnn hnn' ⊢
    rw [hmap, hp.mapping]
    exact hleg.injective lb lb' hne hnn hnn'
  · rw [hmap, hsig, hp.rest.signatureBa]
    by_cases hlb : lb < m
    · by_cases hnn : 0 ≤ s'.ni.mapping lb
      · exact (hbounds lb hlb hnn).2
      · omega
    · have := houtside lb (by omega)
      omega
  · rw [hmgmt, hp.hist, hsearch.mgmt] at ha
    cases ha

/-- The regions are in order, if the second table is not behind the first. -/
theorem finishLoad_regions (hg : Geometry nld) (hlegal : LegalFlash nld m s.dev.flash)
    (hsearch : Searching nld m s)
    (hp : Picked nld m (sub32 s.ni.signatureBa nld.infoTableBlocks) first second s s')
    (hcount : first.writeCount ≤ (second.getD first).writeCount) :
    Regions (finishLoad nld first second s') := by
  obtain ⟨hmapping, htop, hblocks, hmain, hbackup, hmainEnd, hbackupEnd, hstart, hsig, -, -⟩ :=
    finishLoad_rest nld first second s'
  obtain ⟨hlo, hend, hle, hlt, hsecond⟩ := hp.places hg hsearch
  obtain ⟨htopSig, -, hmax⟩ := hp.newest_bounds hg hsearch
  have hpos := hg.infoTableBlocks_pos
  have hstart' : (finishLoad nld first second s').ni.mgmtStartBa = m :=
    hstart.trans (hp.rest.mgmtStartBa.trans hsearch.mgmtStartBa)
  have hsig' : (finishLoad nld first second s').ni.signatureBa = s.ni.signatureBa :=
    hsig.trans hp.rest.signatureBa
  -- the mapping is clear of the last table, which is the newest or has the newest's mapping
  have hclear : ∀ lb, 0 ≤ s'.ni.mapping lb → s'.ni.mapping lb < m ∨
      ((second.getD first).endBa : Int) < s'.ni.mapping lb := by
    intro lb hnn
    have hlast : Hit nld s m (sub32 s.ni.signatureBa nld.infoTableBlocks) (second.getD first) := by
      cases h : second with
      | none => exact hp.first_hit
      | some x =>
          have hx := hp.second_hit x h
          exact { hx with lo_le := by have := hx.lo_le; simp only [Option.getD_some]; omega }
    have hsame : imageMapping nld (tableImage nld s.dev.flash (newestOf first second).startBa)
        = imageMapping nld (tableImage nld s.dev.flash (second.getD first).startBa) := by
      unfold newestOf
      split
      · rfl
      · rename_i hnot
        have heq : first.writeCount = (second.getD first).writeCount :=
          BitVec.le_antisymm hcount (BitVec.not_lt.mp hnot)
        apply hlegal.same _ _ hp.first_hit.table hlast.table
        rw [← hp.first_hit.writeCount, ← hlast.writeCount, heq]
    have hleg := (hlegal.table _ hlast.table).clear lb
    have htarget : s'.ni.mapping lb
        = tableTarget nld (tableImage nld s.dev.flash (second.getD first).startBa) lb := by
      rw [Instance.mapping, hp.blockMapping, hsame, tableTarget]
    rw [← htarget, ← hlast.endBa] at hleg
    exact hleg hnn
  have hletop : (second.getD first).endBa ≤ (newestOf first second).topBa := by
    refine hmax _ hlt fun lb hlb hge => ?_
    have hnewEnd : first.endBa ≤ (newestOf first second).endBa := by
      unfold newestOf
      split
      · exact hle
      · exact le_rfl
    rcases hclear lb (by omega) with h | h
    · omega
    · exact h
  rcases Option.eq_none_or_eq_some second with rfl | ⟨x, rfl⟩
  · simp only [Option.getD_none] at hblocks hbackupEnd hle hlt hletop
    exact ⟨by omega, by omega, by omega, fun _ => by omega, fun hne => absurd hbackup hne,
      fun _ hne => absurd hbackup hne⟩
  · obtain ⟨hafter, hxend⟩ := hsecond x rfl
    simp only [Option.map_some, Option.getD_some] at hblocks hbackup hbackupEnd hle hlt hletop
    exact ⟨by omega, by omega, by omega, fun _ => by omega, fun _ => by omega, fun _ _ => by omega⟩

/-- One table was written if need be, the other kept. -/
theorem syncTables_keeps (hg : Geometry nld) (hlegal : LegalFlash nld m s.dev.flash)
    (hsearch : Searching nld m s)
    (hp : Picked nld m (sub32 s.ni.signatureBa nld.infoTableBlocks) first second s s') :
    Syncs nld (newestOf first second).startBa (newestOf first second).endBa
        (finishLoad nld first second s') (syncTables nld first second
          (finishLoad nld first second s')) ∨
      syncTables nld first second (finishLoad nld first second s')
        = (true, finishLoad nld first second s') ∧ Regions (finishLoad nld first second s') := by
  obtain ⟨-, htop, hblocks, hmain, hbackup, hmainEnd, hbackupEnd, hstart, hsig, -, hcache⟩ :=
    finishLoad_rest nld first second s'
  obtain ⟨hlo, hend, hle, hlt, hsecond⟩ := hp.places hg hsearch
  obtain ⟨htopSig, -, -⟩ := hp.newest_bounds hg hsearch
  have hm := hlegal.start
  have hpos := hg.infoTableBlocks_pos
  have hregions := finishLoad_regions hg hlegal hsearch hp
  have hsig' : (finishLoad nld first second s').ni.signatureBa = s.ni.signatureBa :=
    hsig.trans hp.rest.signatureBa
  have hstart' : (finishLoad nld first second s').ni.mgmtStartBa = m :=
    hstart.trans (hp.rest.mgmtStartBa.trans hsearch.mgmtStartBa)
  rcases Option.eq_none_or_eq_some second with rfl | ⟨x, rfl⟩
  · left
    have hsync := rescueSingleInfoTable_syncs hg hcache (hregions (BitVec.le_refl _)) (by omega)
    rw [hmain, hmainEnd] at hsync
    have hnew : newestOf first none = first := by simp [newestOf]
    rw [hnew]
    exact hsync
  · obtain ⟨hafter, hxend⟩ := hsecond x rfl
    simp only [Option.map_some, Option.getD_some] at hblocks hbackup hbackupEnd hle hlt
    have hnew : newestOf first (some x) = if first.writeCount < x.writeCount then x else first := rfl
    have hsync : syncTables nld first (some x) (finishLoad nld first (some x) s')
        = if first.writeCount ≠ x.writeCount then
            updateSingleInfoTable nld (first.writeCount < x.writeCount)
              { finishLoad nld first (some x) s' with
                ni := { (finishLoad nld first (some x) s').ni with
                  blockStateChanged := 1, blockMappingChanged := 1 } }
          else (true, finishLoad nld first (some x) s') := rfl
    rw [hnew, hsync]
    set s2 : Sys := { finishLoad nld first (some x) s' with
      ni := { (finishLoad nld first (some x) s').ni with
        blockStateChanged := 1, blockMappingChanged := 1 } } with hs2
    have hu : Updates nld (finishLoad nld first (some x) s') s2 := (Updates.refl _).record rfl id rfl rfl
    have hgo : ∀ {a e : Nat} {r : Bool × Sys}, Syncs nld a e s2 r →
        Syncs nld a e (finishLoad nld first (some x) s') r :=
      fun h => ⟨hu.trans h.updates, h.regions, h.isProtected, h.main, h.backup⟩
    by_cases hne : first.writeCount ≠ x.writeCount
    · rw [if_pos hne]
      left
      by_cases hcount : first.writeCount < x.writeCount
      · rw [if_pos hcount]
        have hr := hregions (BitVec.le_of_lt hcount)
        have hr2 : Regions s2 :=
          ⟨hr.start_le, hr.le_top, hr.top_lt, hr.main, hr.backup, hr.apart⟩
        have hsync2 := updateSingleInfoTable_main hg (s := s2) hcache hr2
          (by show (finishLoad nld first (some x) s').ni.mainTableBa ≠ 0; omega)
          (by show (finishLoad nld first (some x) s').ni.backupTableBa ≠ 0; omega)
        rw [decide_eq_true hcount]
        have hba : s2.ni.backupTableBa = x.startBa := hbackup
        have hbe : s2.hist.backupTableEba = x.endBa := hbackupEnd
        rw [hba, hbe] at hsync2
        exact hgo hsync2
      · rw [if_neg hcount]
        have hsync2 := updateSingleInfoTable_backup hg (s := s2) hcache
          (by show (finishLoad nld first (some x) s').ni.mgmtStartBa
                ≤ (finishLoad nld first (some x) s').ni.mainTableBa
              omega)
          (by show (finishLoad nld first (some x) s').ni.mainTableBa
                < (finishLoad nld first (some x) s').hist.mainTableEba
              omega)
          (by show (finishLoad nld first (some x) s').hist.mainTableEba
                ≤ (finishLoad nld first (some x) s').ni.backupTableBa
              omega)
          (by show (finishLoad nld first (some x) s').ni.mappingBlocksTopBa
                < (finishLoad nld first (some x) s').ni.signatureBa
              omega)
        rw [decide_eq_false hcount]
        have hba : s2.ni.mainTableBa = first.startBa := hmain
        have hbe : s2.hist.mainTableEba = first.endBa := hmainEnd
        rw [hba, hbe] at hsync2
        exact hgo hsync2
    · rw [if_neg hne]
      right
      have heq : first.writeCount = x.writeCount := by simpa using hne
      exact ⟨rfl, hregions (by rw [Option.getD_some, heq]; exact BitVec.le_refl _)⟩

end

end Immwrt.Nmbm
