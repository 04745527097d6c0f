import Immwrt.Nmbm.Proof.Image

/-!
# What an update leaves on the chip

An update that ends well has its last image on the chip, and no newer table is there. The image was
generated before the tables were written: a block found bad on the way is noted in memory, and
forgotten when the tables are marked clean.
-/

namespace Immwrt.Nmbm

variable {nld : LowerDevice} {s s' : Sys}

def tableCount (nld : LowerDevice) (f : Flash) (ba : Nat) : Word :=
  (InfoTableHeader.ofBytes (tableImage nld f ba)).writeCount

/-- The table at `ba` is valid, and none is newer. -/
def Newest (nld : LowerDevice) (f : Flash) (ba : Nat) : Prop :=
  ba + nld.infoTableBlocks ≤ nld.blockCount ∧ TableAt nld f ba ∧
    ∀ b, b + nld.infoTableBlocks ≤ nld.blockCount → TableAt nld f b →
      tableCount nld f b ≤ tableCount nld f ba

/-- The newest table on the chip is the one in memory. -/
def Persisted (nld : LowerDevice) (s : Sys) : Prop :=
  (∃ ba, Newest nld s.dev.flash ba) ∧ ∀ ba, Newest nld s.dev.flash ba →
    imageState nld (tableImage nld s.dev.flash ba) = s.ni.blockState ∧
      imageMapping nld (tableImage nld s.dev.flash ba) = s.ni.blockMapping

/-- Every table on the chip that is not the one in the cache is older. -/
def NoStray (nld : LowerDevice) (s : Sys) : Prop :=
  ∀ ba, ba + nld.infoTableBlocks ≤ nld.blockCount → TableAt nld s.dev.flash ba →
    tableImage nld s.dev.flash ba = s.ni.infoTableCache ∨
      tableCount nld s.dev.flash ba < s.ni.infoTable.writeCount

/-- Every table that was written has its blocks in a row. -/
def NoGaps (nld : LowerDevice) (s : Sys) : Prop :=
  ∀ t ∈ s.hist.tables, t.2 = t.1 + nld.infoTableBlocks

theorem Imaged.cache_length (hg : Geometry nld) {st : List Word} (himg : Imaged nld st s)
    (hs : Sized nld s) : s.ni.infoTableCache.length = nld.infoTableSize := by
  rw [himg.cache]
  exact (infoTableImage_spec hg (himg.formatted hs)).1

theorem Imaged.cache_count (hg : Geometry nld) {st : List Word} (himg : Imaged nld st s)
    (hs : Sized nld s) :
    (InfoTableHeader.ofBytes s.ni.infoTableCache).writeCount = s.ni.infoTable.writeCount := by
  rw [himg.cache, ofBytes_infoTableImage hg (himg.formatted hs)]

/-- A table that was written without a gap is the newest. -/
theorem Wrote.newest (hg : Geometry nld) {st : List Word} {a e : Nat} (himg : Imaged nld st s)
    (hs : Sized nld s) (hw : Wrote nld a e s) (hgap : NoGaps nld s) (hend : e ≤ nld.blockCount)
    (hstray : NoStray nld s) :
    Newest nld s.dev.flash a ∧ tableCount nld s.dev.flash a = s.ni.infoTable.writeCount := by
  have he : e = a + nld.infoTableBlocks := hgap _ hw.logged
  have hblocks : s.tableBlocks nld = nld.infoTableBlocks := by
    rw [Sys.tableBlocks, himg.cache_length hg hs]
    rfl
  obtain ⟨htable, htableAt, -, -⟩ := (hw.written (by rw [hblocks]; exact he)).table hg himg hs
  have hcount : tableCount nld s.dev.flash a = s.ni.infoTable.writeCount := by
    rw [tableCount, htable, himg.cache_count hg hs]
  refine ⟨⟨he ▸ hend, htableAt, fun b hb hbAt => ?_⟩, hcount⟩
  rw [hcount]
  rcases hstray b hb hbAt with hsame | holder
  · rw [tableCount, hsame, himg.cache_count hg hs]
    exact BitVec.le_refl _
  · exact BitVec.le_of_lt holder

/-- Only the image in the cache can be newest, once it is on the chip. -/
theorem NoStray.newest_image {a b : Nat} (hstray : NoStray nld s)
    (ha : Newest nld s.dev.flash a) (hcount : tableCount nld s.dev.flash a
      = s.ni.infoTable.writeCount) (hb : Newest nld s.dev.flash b) :
    tableImage nld s.dev.flash b = s.ni.infoTableCache := by
  rcases hstray b hb.1 hb.2.1 with hsame | holder
  · exact hsame
  · have hle := hb.2.2 a ha.1 ha.2.1
    rw [hcount] at hle
    exact absurd holder (BitVec.not_lt.mpr hle)

/-- What was written last is in memory, unless a block was found bad after the image was made. -/
theorem Imaged.state_iff {st : List Word} (himg : Imaged nld st s) :
    st = s.ni.blockState ↔ s.hist.badFound = [] := by
  rcases himg.found with ⟨hnone, hst⟩ | ⟨hsome, ba, hgood, hbad⟩
  · exact iff_of_true hst.symm hnone
  · refine iff_of_false (fun heq => ?_) hsome
    rw [heq] at hgood
    exact good_ne_bad (hgood.symm.trans hbad)

instance (f : Flash) (ba : Nat) : Decidable (TableAt nld f ba) :=
  inferInstanceAs (Decidable (_ ∧ _))

/-- A created chip on which a page of block 0 could not be programmed, before the tables are
updated. -/
def pendingSys (nld : LowerDevice) (d : Device) : Sys :=
  let s := (createNew nld (fresh nld d)).2
  { s with ni := s.ni.setBlockState 0 blockStNeedRemap }

/-- A device that does not fail, but for erasing from answer `lo` to answer `hi`. -/
def failingErase (lo hi : Nat) : Device :=
  { blankDevice [] with
    tape := fun i => if lo ≤ i ∧ i < hi then { Answer.good with eraseRet := 1 } else .good }

theorem pendingSys_regions (d : Device)
    (h : (createNew (smallChip 16 8) (fresh (smallChip 16 8) d)).1 = true) :
    Regions (pendingSys (smallChip 16 8) d) :=
  (createNew_regions smallChip_geometry rfl h).setBlockState 0 _

end Immwrt.Nmbm
