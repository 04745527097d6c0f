import Mathlib.Data.List.TakeWhile
import Immwrt.Tffs.Proof.Entry
import Immwrt.Tffs.Proof.Nor

/-!
# A robust reader of NAND flash

The scan marks sectors with numbers from the headers of blocks, which it does not look at. It gets through if all of them
are numbers of sectors.
-/

namespace Immwrt.Tffs

open Checked

namespace Sectors

variable {sectors sectors' : Sectors}

/-- No sector gets good again. -/
structure Within (sectors' sectors : Sectors) : Prop where
  numSectors : sectors'.numSectors = sectors.numSectors
  good : ∀ k, sectors'.isGood k = true → sectors.isGood k = true

theorem Within.refl (sectors : Sectors) : Within sectors sectors := ⟨rfl, fun _ h => h⟩

theorem Within.trans {sectors'' : Sectors} (h : Within sectors'' sectors') (h' : Within sectors' sectors) :
    Within sectors'' sectors :=
  ⟨h.numSectors.trans h'.numSectors, fun k hk => h'.good k (h.good k hk)⟩

theorem Within.bad (h : Within sectors' sectors) {k : Nat} (hk : sectors.isGood k = false) :
    sectors'.isGood k = false := by
  rw [← Bool.not_eq_true] at hk ⊢
  exact fun hgood => hk (h.good k hgood)

theorem markBad_ok {num : Int} (h : sectors.markBad num = .ok sectors') :
    sectors'.Within sectors ∧ sectors'.isGood num.toNat = false := by
  rw [markBad] at h
  by_cases hnum : 0 ≤ num ∧ num < sectors.numSectors
  · rw [if_pos hnum] at h
    obtain rfl := Except.ok.inj h
    have hbits : ∀ i, (sectors.bits.modify (num.toNat / 8) (· &&& ~~~ (0x80#8 >>> (num.toNat % 8)))).getD i 0 =
        if num.toNat / 8 = i then sectors.bits.getD i 0 &&& ~~~ (0x80#8 >>> (num.toNat % 8))
        else sectors.bits.getD i 0 := by
      intro i
      rw [List.getD_eq_getElem?_getD, List.getD_eq_getElem?_getD, List.getElem?_modify]
      by_cases hi : num.toNat / 8 = i
      · cases sectors.bits[i]? <;> simp [hi]
      · cases sectors.bits[i]? <;> simp [hi]
    refine ⟨⟨rfl, fun k hk => ?_⟩, ?_⟩
    rotate_left
    · rw [isGood, hbits, if_pos rfl, BitVec.and_assoc, BitVec.and_comm (~~~ _), BitVec.and_not_self]
      simp
    · rw [isGood, hbits] at hk
      rw [isGood]
      by_cases hk' : num.toNat / 8 = k / 8
      · rw [if_pos hk'] at hk
        rw [decide_eq_true_iff] at hk ⊢
        intro hzero
        apply hk
        rw [BitVec.and_assoc, BitVec.and_comm (~~~ _), ← BitVec.and_assoc, hzero]
        simp
      · rwa [if_neg hk'] at hk
  · rw [if_neg hnum] at h
    cases h

/-- The sectors there are can be marked, and no others. -/
theorem markBad_iff {num : Int} :
    (0 ≤ num ∧ num < sectors.numSectors → ∃ sectors', sectors.markBad num = .ok sectors' ∧ sectors'.Within sectors ∧
        sectors'.isGood num.toNat = false) ∧
      (¬ (0 ≤ num ∧ num < sectors.numSectors) → sectors.markBad num = .error .overrun) := by
  refine ⟨fun h => ?_, fun h => if_neg h⟩
  have hok : sectors.markBad num = .ok _ := if_pos h
  exact ⟨_, hok, markBad_ok hok⟩

end Sectors

namespace Nand

open Segment

variable {nand : Nand}

/-! ### The scan -/

/-- The number of sectors. -/
def numSectors (nand : Nand) : Nat := nand.size.toNat / tffsSectorSize

theorem numSectors_lt (nand : Nand) : nand.numSectors < 2 ^ 21 := by
  have hsize := nand.size.isLt
  rw [numSectors, tffsSectorSize]
  omega

/-- The header of a block has numbers of sectors. -/
def HeaderInside (nand : Nand) (sector : Nat) : Prop :=
  nand.IsFirst sector → nand.HasHeader sector → ∀ i < 2, (nand.hdrBad sector i).toNat < nand.numSectors

theorem hdrBad_inside_iff {sector i : Nat} :
    (0 ≤ (nand.hdrBad sector i).toInt ∧ (nand.hdrBad sector i).toInt < nand.numSectors) ↔
      (nand.hdrBad sector i).toNat < nand.numSectors := by
  have hlt := nand.numSectors_lt
  have hbad := (nand.hdrBad sector i).isLt
  rw [BitVec.toInt_eq_toNat_cond]
  split <;> omega

theorem markHdrBad_iff {sector i : Nat} {sectors : Sectors} (hsectors : sectors.numSectors = nand.numSectors) :
    ((nand.hdrBad sector i).toNat < nand.numSectors →
        ∃ sectors', nand.markHdrBad sector sectors i = .ok sectors' ∧ sectors'.Within sectors) ∧
      (¬ (nand.hdrBad sector i).toNat < nand.numSectors → nand.markHdrBad sector sectors i = .error .overrun) := by
  rw [← hdrBad_inside_iff, ← hsectors]
  refine ⟨fun h => ?_, fun h => Sectors.markBad_iff.2 h⟩
  obtain ⟨sectors', hok, hwithin, -⟩ := Sectors.markBad_iff.1 h
  exact ⟨sectors', hok, hwithin⟩

/-- A header gets through if all sectors that it names are there. -/
theorem checkBlock_iff {sector : Nat} {sectors : Sectors} (hsectors : sectors.numSectors = nand.numSectors)
    (hfirst : nand.IsFirst sector) :
    (nand.HeaderInside sector → ∃ blockOk sectors', nand.checkBlock sectors sector = .ok (blockOk, sectors') ∧
        sectors'.Within sectors) ∧
      (¬ nand.HeaderInside sector → nand.checkBlock sectors sector = .error .overrun) := by
  by_cases hheader : nand.HasHeader sector
  · have hcount : (nand.readUint32 (nand.sectorBuf sector) 0x0c).toNat = 2 := by
      rw [hheader.2.2.2]
      rfl
    have hinside : nand.HeaderInside sector ↔
        Throughout (fun _ i => (nand.hdrBad sector i).toNat < nand.numSectors) (List.range 2) := by
      rw [throughout_iff_forall, HeaderInside]
      constructor
      · exact fun h i hi => h hfirst hheader i (List.mem_range.1 hi)
      · exact fun h _ _ i hi => h i (List.mem_range.2 hi)
    have hmarks := foldlM_iff (fun _ sectors' => sectors'.Within sectors)
      (fun _ i => (nand.hdrBad sector i).toNat < nand.numSectors) (· = NandFault.overrun)
      (fun _ i sectors' hwithin hlt => by
        obtain ⟨sectors'', hok, hless⟩ :=
          (nand.markHdrBad_iff (hwithin.numSectors.trans hsectors)).1 hlt
        exact ⟨sectors'', hok, hless.trans hwithin⟩)
      (fun _ i sectors' hwithin hnot =>
        ⟨_, (nand.markHdrBad_iff (hwithin.numSectors.trans hsectors)).2 hnot, rfl⟩)
      (Sectors.Within.refl sectors) (List.range 2)
    rw [checkBlock, if_pos hheader, hcount, hinside]
    refine ⟨fun h => ?_, fun h => ?_⟩
    · obtain ⟨sectors', hok, hwithin⟩ := hmarks.1 h
      rw [hok]
      exact ⟨true, sectors', rfl, hwithin⟩
    · obtain ⟨fault, hfault, rfl⟩ := hmarks.2 h
      rw [hfault]
  · have hinside : nand.HeaderInside sector := fun _ h => absurd h hheader
    refine ⟨fun _ => ⟨false, sectors, if_neg hheader, .refl sectors⟩, fun h => absurd hinside h⟩

/-- The scan has marked the first sectors of the blocks so far. -/
structure Scanned (nand : Nand) (before : List Nat) (s : ScanState) : Prop where
  numSectors : s.sectors.numSectors = nand.numSectors
  first : ∀ sector ∈ before, nand.IsFirst sector → s.sectors.isGood sector = false

theorem Scanned.snoc {before : List Nat} {s s' : ScanState} {sector : Nat} (hs : nand.Scanned before s)
    (hwithin : s'.sectors.Within s.sectors)
    (hfirst : nand.IsFirst sector → s'.sectors.isGood sector = false) : nand.Scanned (before ++ [sector]) s' := by
  refine ⟨hwithin.numSectors.trans hs.numSectors, fun k hk hfirst' => ?_⟩
  rcases List.mem_append.1 hk with hold | hnew
  · exact hwithin.bad (hs.first k hold hfirst')
  · rw [List.mem_singleton.1 hnew] at hfirst' ⊢
    exact hfirst hfirst'

theorem Scanned.mark_iff {before : List Nat} {s : ScanState} (hs : nand.Scanned before s) {sectors : Sectors}
    (hwithin : sectors.Within s.sectors) (sector : Nat) :
    (sector < nand.numSectors → ∃ sectors', sectors.markBad sector = .ok sectors' ∧ sectors'.Within s.sectors ∧
        sectors'.isGood sector = false) ∧
      (¬ sector < nand.numSectors → sectors.markBad sector = .error .overrun) := by
  have hnum := hwithin.numSectors.trans hs.numSectors
  have hiff : (0 ≤ (sector : Int) ∧ (sector : Int) < sectors.numSectors) ↔ sector < nand.numSectors := by
    rw [hnum]
    omega
  rw [← hiff]
  refine ⟨fun h => ?_, fun h => Sectors.markBad_iff.2 h⟩
  obtain ⟨sectors', hok, hless, hbad⟩ := Sectors.markBad_iff.1 h
  exact ⟨sectors', hok, hless.trans hwithin, hbad⟩

/-- A turn of the scan gets through if its sector is there, and all that its header names. -/
theorem Scanned.turn {before : List Nat} {s : ScanState} (hs : nand.Scanned before s) (sector : Nat) :
    (sector < nand.numSectors ∧ nand.HeaderInside sector →
        ∃ s', nand.scanTurn s sector = .ok s' ∧ nand.Scanned (before ++ [sector]) s') ∧
      (¬ (sector < nand.numSectors ∧ nand.HeaderInside sector) → nand.scanTurn s sector = .error .overrun) := by
  by_cases hfirst : nand.IsFirst sector
  · have hcheck := checkBlock_iff hs.numSectors hfirst
    rw [scanTurn, if_pos hfirst]
    by_cases hheader : nand.HeaderInside sector
    · obtain ⟨blockOk, sectors, hok, hwithin⟩ := hcheck.1 hheader
      have hmark := hs.mark_iff hwithin sector
      rw [hok]
      dsimp only
      constructor
      · rintro ⟨hlt, -⟩
        obtain ⟨sectors', hok', hwithin', hbad⟩ := hmark.1 hlt
        rw [hok']
        exact ⟨_, rfl, hs.snoc hwithin' fun _ => hbad⟩
      · intro hnot
        rw [hmark.2 fun hlt => hnot ⟨hlt, hheader⟩]
    · rw [hcheck.2 hheader]
      exact ⟨fun h => absurd h.2 hheader, fun _ => rfl⟩
  · have hheader : nand.HeaderInside sector := fun h => absurd h hfirst
    have hmark := hs.mark_iff (.refl s.sectors) sector
    rw [scanTurn, if_neg hfirst]
    dsimp only
    by_cases hlt : sector < nand.numSectors
    · obtain ⟨sectors', hok, hwithin, -⟩ := hmark.1 hlt
      have hget : s.sectors.getGood sector = .ok (s.sectors.isGood sector) :=
        getGood_of_lt (by rw [hs.numSectors]; exact hlt)
      have hmarked : nand.Scanned (before ++ [sector]) { s with sectors := sectors' } :=
        hs.snoc hwithin fun h => absurd h hfirst
      have hkept : nand.Scanned (before ++ [sector]) s := hs.snoc (.refl _) fun h => absurd h hfirst
      rw [hok, hget]
      dsimp only
      refine ⟨fun _ => ?_, fun hnot => absurd ⟨hlt, hheader⟩ hnot⟩
      split
      · exact ⟨_, rfl, hmarked⟩
      · split
        · exact ⟨_, rfl, hmarked⟩
        · exact ⟨_, rfl, hkept⟩
    · have hget : s.sectors.getGood sector = .error .overrun := by
        refine if_neg fun h => hlt ?_
        rw [hs.numSectors] at h
        omega
      rw [hmark.2 hlt, hget]
      refine ⟨fun h => absurd h.1 hlt, fun _ => ?_⟩
      split <;> rfl

/-- The device ends with a sector, and the headers of its blocks have numbers of sectors. -/
structure ScanInside (nand : Nand) : Prop where
  size : nand.size.toNat % tffsSectorSize = 0
  headers : ∀ sector < nand.numSectors, nand.HeaderInside sector

theorem scanMtd_iff :
    (nand.ScanInside → ∃ s, nand.scanMtd = .ok s ∧ s.sectors.numSectors = nand.numSectors ∧
        ∀ sector < nand.numSectors, nand.IsFirst sector → s.sectors.isGood sector = false) ∧
      (¬ nand.ScanInside → nand.scanMtd = .error .overrun) := by
  have hinside : nand.ScanInside ↔ Throughout (fun _ sector => sector < nand.numSectors ∧ nand.HeaderInside sector)
      (List.range ((nand.size.toNat + (tffsSectorSize - 1)) / tffsSectorSize)) := by
    have hturns : nand.size.toNat % tffsSectorSize = 0 →
        (nand.size.toNat + (tffsSectorSize - 1)) / tffsSectorSize = nand.numSectors := by
      rw [numSectors, tffsSectorSize]
      omega
    rw [throughout_iff_forall]
    constructor
    · rintro ⟨hsize, hheaders⟩ sector hsector
      rw [hturns hsize, List.mem_range] at hsector
      exact ⟨hsector, hheaders sector hsector⟩
    · intro h
      have hsize : nand.size.toNat % tffsSectorSize = 0 := by
        by_contra hrest
        have hlast := (h nand.numSectors (List.mem_range.2 (by rw [numSectors, tffsSectorSize] at *; omega))).1
        exact Nat.lt_irrefl _ hlast
      refine ⟨hsize, fun sector hsector => (h sector ?_).2⟩
      rw [hturns hsize, List.mem_range]
      exact hsector
  have hscan := foldlM_iff nand.Scanned (fun _ sector => sector < nand.numSectors ∧ nand.HeaderInside sector)
    (· = NandFault.overrun) (fun _ sector s hs => (hs.turn sector).1)
    (fun _ sector s hs hnot => ⟨_, (hs.turn sector).2 hnot, rfl⟩)
    (show nand.Scanned [] ⟨nand.allSectors, false, 0⟩ from ⟨rfl, fun sector h => by cases h⟩)
    (List.range ((nand.size.toNat + (tffsSectorSize - 1)) / tffsSectorSize))
  rw [hinside]
  refine ⟨fun h => ?_, fun h => ?_⟩
  · obtain ⟨s, hok, hs⟩ := hscan.1 h
    refine ⟨s, hok, hs.numSectors, fun sector hsector hfirst => hs.first sector (List.mem_range.2 ?_) hfirst⟩
    rw [numSectors, tffsSectorSize] at hsector
    rw [tffsSectorSize]
    omega
  · obtain ⟨fault, hfault, rfl⟩ := hscan.2 h
    exact hfault

/-- What a scan leaves good is usable, as far as it can be read. -/
theorem usable_of_scan {s : ScanState} (hscan : nand.scanMtd = .ok s)
    (hreadable : ∀ sector < nand.numSectors, nand.oobReadable sector ∧ nand.readable sector) :
    nand.Usable s.sectors := by
  by_cases hinside : nand.ScanInside
  · obtain ⟨s', hok, hnum, hfirst⟩ := scanMtd_iff.1 hinside
    obtain rfl := Except.ok.inj (hok.symm.trans hscan)
    refine ⟨fun sector hsector => hfirst sector (hnum ▸ hsector), fun sector hsector _ => ?_⟩
    exact hreadable sector (hnum ▸ hsector)
  · rw [scanMtd_iff.2 hinside] at hscan
    cases hscan

/-! ### The length of a value -/

/-- The bytes in all slots. -/
def filled (slots : List (Option (List Byte))) : Nat := (slots.map fun slot => (slot.getD []).length).sum

theorem filled_set_le (slots : List (Option (List Byte))) (i : Nat) (val : List Byte) :
    filled (slots.set i (some val)) ≤ filled slots + val.length := by
  induction slots generalizing i with
  | nil => exact Nat.zero_le _
  | cons slot slots ih =>
      cases i with
      | zero =>
          simp only [List.set_cons_zero, filled, List.map_cons, List.sum_cons, Option.getD_some]
          omega
      | succ i =>
          have h := ih i
          simp only [List.set_cons_succ, filled, List.map_cons, List.sum_cons] at h ⊢
          omega

theorem filled_fill_le (slots : List (Option (List Byte))) (segments : List Segment) :
    filled (fill slots segments) ≤ filled slots + (segments.map fun segment => segment.val.length).sum := by
  induction segments generalizing slots with
  | nil => exact le_rfl
  | cons segment segments ih =>
      have hset := filled_set_le slots segment.seg.toNat segment.val
      have hrest := ih (slots.set segment.seg.toNat (some segment.val))
      rw [fill, List.foldl_cons, List.map_cons, List.sum_cons]
      rw [fill] at hrest
      omega

theorem filled_array_le (segments : List Segment) :
    filled (array segments) ≤ (segments.map fun segment => segment.val.length).sum := by
  cases segments with
  | nil => exact le_rfl
  | cons first rest =>
      have hempty : filled (List.replicate first.count none) = 0 := by
        rw [filled, List.map_replicate, List.sum_replicate]
        rfl
      have h := filled_fill_le (List.replicate first.count none) (first :: rest)
      rwa [hempty, Nat.zero_add] at h

theorem length_value {s : Assembly} {table : List Byte} (h : s.value = some table) :
    table.length = filled s.segments := by
  rw [Assembly.value] at h
  split at h
  · cases h
  obtain ⟨vals, hvals, rfl⟩ := Option.map_eq_some_iff.1 h
  have hlength : ∀ (slots : List (Option (List Byte))) (vals : List (List Byte)), slots.mapM id = some vals →
      vals.flatten.length = filled slots := by
    intro slots
    induction slots with
    | nil =>
        intro vals h
        obtain rfl := Option.some.inj h
        rfl
    | cons slot slots ih =>
        intro vals h
        rw [List.mapM_cons] at h
        obtain ⟨val, hval, h⟩ := Option.bind_eq_some_iff.1 h
        obtain ⟨rest, hrest, h⟩ := Option.bind_eq_some_iff.1 h
        obtain rfl := Option.some.inj h
        obtain rfl : slot = some val := hval
        have h := ih rest hrest
        rw [filled] at h ⊢
        simp only [List.flatten_cons, List.length_append, List.map_cons, List.sum_cons, Option.getD_some, h]
  exact hlength _ _ hvals

theorem sum_map_le {α : Type} {f : α → Nat} {bound : Nat} {l : List α} (h : ∀ a ∈ l, f a ≤ bound) :
    (l.map f).sum ≤ l.length * bound := by
  rw [← List.length_map f]
  exact List.sum_le_card_nsmul _ _ (by simpa using h)

theorem look_segment {id : Word} {sector : Nat} {segment : Segment} (h : nand.look id sector = .segment segment) :
    segment.val.length ≤ tffsMaximumSegmentSize := by
  rw [look] at h
  split at h
  · cases h
  split at h
  · cases h
  dsimp only at h
  split at h
  · cases h
  split at h
  · cases h
  case isFalse hlong =>
    split at h
    · obtain rfl := Look.segment.inj h
      rw [segmentAt, length_bytesAt]
      exact Nat.le_of_not_lt hlong
    · cases h

theorem walkTurn_seen (sectors : Sectors) (id : Word) (w : Walk) (sector : Nat) :
    (nand.walkTurn sectors id w sector).seen = w.seen ∨
      ∃ segment, nand.look id sector = .segment segment ∧
        (nand.walkTurn sectors id w sector).seen = w.seen ++ [segment] := by
  rw [walkTurn]
  split
  · exact .inl rfl
  split
  · exact .inl rfl
  split
  · exact .inl rfl
  cases hlook : nand.look id sector with
  | segment segment => exact .inr ⟨segment, rfl, rfl⟩
  | _ => exact .inl rfl

/-- Each sector has at most one segment, which is not long. -/
theorem walk_seen (nand : Nand) (sectors : Sectors) (id : Word) (n : Nat) :
    (nand.walk sectors id n).seen.length ≤ n ∧
      ∀ segment ∈ (nand.walk sectors id n).seen, segment.val.length ≤ tffsMaximumSegmentSize := by
  induction n with
  | zero => exact ⟨le_rfl, fun segment h => by cases h⟩
  | succ n ih =>
      rw [walk_succ]
      rcases nand.walkTurn_seen sectors id (nand.walk sectors id n) n with hseen | ⟨segment, hlook, hseen⟩
      · rw [hseen]
        exact ⟨Nat.le_succ_of_le ih.1, ih.2⟩
      · rw [hseen]
        refine ⟨?_, fun other hother => ?_⟩
        · rw [List.length_append, List.length_singleton]
          exact Nat.succ_le_succ ih.1
        · rcases List.mem_append.1 hother with hold | hnew
          · exact ih.2 other hold
          · rw [List.mem_singleton.1 hnew]
            exact look_segment hlook

theorem length_table_le {sectors : Sectors} {id : Word} {table : List Byte}
    (h : nand.findEntry sectors id = .ok (some table)) :
    table.length ≤ sectors.numSectors * tffsMaximumSegmentSize := by
  obtain ⟨hcount, hlong⟩ := nand.walk_seen sectors id sectors.numSectors
  have htake := nand.takeSegments (nand.walk sectors id sectors.numSectors).seen
  rw [findEntry, foldlM_findTurn le_rfl, stateAt] at h
  by_cases hfits : Throughout nand.Fits (nand.walk sectors id sectors.numSectors).seen
  · obtain ⟨s, hs, hassembled⟩ := htake.1 hfits
    rw [hs] at h
    dsimp only at h
    by_cases hstopped : (nand.walk sectors id sectors.numSectors).stopped = true
    · rw [if_pos hstopped] at h
      cases h
    · rw [if_neg hstopped] at h
      have hlive : (live (nand.walk sectors id sectors.numSectors).seen).Sublist
          (nand.walk sectors id sectors.numSectors).seen := List.filter_sublist.trans List.filter_sublist
      calc
        table.length = filled s.segments := length_value (Except.ok.inj h)
        _ ≤ ((live (nand.walk sectors id sectors.numSectors).seen).map fun segment => segment.val.length).sum := by
          rw [hassembled.slots]
          exact filled_array_le _
        _ ≤ (live (nand.walk sectors id sectors.numSectors).seen).length * tffsMaximumSegmentSize :=
          sum_map_le fun segment hsegment => hlong segment (hlive.subset hsegment)
        _ ≤ sectors.numSectors * tffsMaximumSegmentSize :=
          Nat.mul_le_mul_right _ (hlive.length_le.trans hcount)
  · rw [htake.2 hfits] at h
    cases h

/-! ### Names -/

/-- The offset of the name after one, if it is in the table. -/
def nameNext (table : List Byte) (pos : Nat) : Option Nat :=
  let next := pos + 4 + (((table.drop (pos + 4)).takeWhile (· ≠ 0)).length + 4) / 4 * 4
  if next < table.length then some next else none

/-- All names of a table end in it. -/
def NamesInside (table : List Byte) : Prop :=
  ∀ k pos, Partial.iterate (nameNext table) k 0 = some pos → 0 ∈ table.drop (pos + 4)

/-- A table with which offsets do not wrap. -/
def Short (table : List Byte) : Prop := table.length + 8 < 2 ^ 32

def namesStep (nand : Nand) (table : List Byte) (state : Word × List (Word × List Byte)) :
    Option (Word × List (Word × List Byte)) :=
  (nameNext table state.1.toNat).map fun next =>
    (BitVec.ofNat 32 next, state.2 ++ [(nand.readUint32 (table.getD · 0) state.1.toNat,
      (table.drop (state.1.toNat + 4)).takeWhile (· ≠ 0))])

theorem namesStep_fst (nand : Nand) {table : List Byte} (hshort : Short table)
    (state : Word × List (Word × List Byte)) :
    (nand.namesStep table state).map (fun state => state.1.toNat) = nameNext table state.1.toNat := by
  rw [namesStep]
  cases hnext : nameNext table state.1.toNat with
  | none => rfl
  | some next =>
      have hlt : next < table.length := by
        rw [nameNext] at hnext
        split at hnext
        case isTrue hlt => exact Option.some.inj hnext ▸ hlt
        case isFalse => cases hnext
      rw [Short] at hshort
      rw [Option.map_some, Option.map_some, BitVec.toNat_ofNat, Nat.mod_eq_of_lt (by omega)]

theorem nameNext_gt {table : List Byte} {pos next : Nat} (h : nameNext table pos = some next) :
    pos < next ∧ next < table.length := by
  rw [nameNext] at h
  split at h
  case isTrue hlt =>
    obtain rfl := Option.some.inj h
    exact ⟨by omega, hlt⟩
  case isFalse => cases h

/-- The offsets in a table come to an end. -/
theorem nameNext_ends (table : List Byte) : Partial.Ends (nameNext table) 0 := by
  have hbound : ∀ a, nameNext table a ≠ none → a < table.length := by
    intro a h
    obtain ⟨next, hnext⟩ := Option.ne_none_iff_exists'.1 h
    exact (nameNext_gt hnext).1.trans (nameNext_gt hnext).2
  exact (Partial.ends_iff_increasing (fun a b h => (nameNext_gt h).1.le) hbound).2 fun n a b _ h => (nameNext_gt h).1

theorem namesTurn_unterminated {table : List Byte} {pos : Word} {items : List (Word × List Byte)}
    (hshort : Short table) (hend : 0 ∉ table.drop (pos.toNat + 4)) :
    nand.namesTurn table (pos, items) = .inl (.error .overrun) := by
  rw [namesTurn]
  by_cases hid : pos.toNat + 4 ≤ table.length
  · have hfour : (pos + 4).toNat = pos.toNat + 4 := by
      rw [Short] at hshort
      rw [BitVec.toNat_add, show (4 : Word).toNat = 4 from rfl, Nat.mod_eq_of_lt (by omega)]
    rw [if_pos hid]
    dsimp only
    rw [hfour, if_neg hend]
  · rw [if_neg hid]

theorem namesTurn_eq {table : List Byte} {pos : Word} {items : List (Word × List Byte)}
    (hshort : Short table) (hend : 0 ∈ table.drop (pos.toNat + 4)) :
    nand.namesTurn table (pos, items) =
      match nand.namesStep table (pos, items) with
      | some state => .inr state
      | none => .inl (.ok (items ++ [(nand.readUint32 (table.getD · 0) pos.toNat,
          (table.drop (pos.toNat + 4)).takeWhile (· ≠ 0))])) := by
  rw [Short] at hshort
  have hroom : ((table.drop (pos.toNat + 4)).takeWhile (· ≠ 0)).length < (table.drop (pos.toNat + 4)).length := by
    refine Nat.lt_of_le_of_ne (List.takeWhile_prefix _).length_le fun heq => ?_
    have hall := (List.takeWhile_prefix _).eq_of_length heq
    rw [← hall] at hend
    have hne := List.mem_takeWhile_imp (p := fun x : Byte => decide (x ≠ 0)) hend
    exact absurd rfl (of_decide_eq_true hne)
  rw [List.length_drop] at hroom
  have hfour : (pos + 4).toNat = pos.toNat + 4 := by
    rw [BitVec.toNat_add, show (4 : Word).toNat = 4 from rfl, Nat.mod_eq_of_lt (by omega)]
  rw [namesTurn, if_pos (by omega)]
  dsimp only
  rw [hfour, if_pos hend, namesStep, nameNext]
  dsimp only
  generalize hname : (table.drop (pos.toNat + 4)).takeWhile (· ≠ 0) = name at *
  have hwide : (BitVec.ofNat 32 (name.length + 1)).toNat = name.length + 1 := by
    rw [BitVec.toNat_ofNat, Nat.mod_eq_of_lt (by omega)]
  have hnext : (pos + 4 + Nor.walkSize (BitVec.ofNat 32 (name.length + 1))).toNat =
      pos.toNat + 4 + (name.length + 4) / 4 * 4 := by
    rw [BitVec.toNat_add, hfour, Nor.toNat_walkSize _ (by omega), hwide, Nat.mod_eq_of_lt (by omega)]
  have hlt : pos + 4 + Nor.walkSize (BitVec.ofNat 32 (name.length + 1)) < BitVec.ofNat 32 table.length ↔
      pos.toNat + 4 + (name.length + 4) / 4 * 4 < table.length := by
    rw [BitVec.lt_def, hnext, BitVec.toNat_ofNat, Nat.mod_eq_of_lt (by omega)]
  by_cases hgo : pos.toNat + 4 + (name.length + 4) / 4 * 4 < table.length
  · rw [if_pos (hlt.2 hgo), if_pos hgo, Option.map_some, ← hnext, BitVec.ofNat_toNat, BitVec.setWidth_eq]
  · rw [if_neg fun h => hgo (hlt.1 h), if_neg hgo, Option.map_none]

theorem next_namesTurn {table : List Byte} (hshort : Short table) (state : Word × List (Word × List Byte))
    (hend : 0 ∈ table.drop (state.1.toNat + 4)) :
    Loop.next (nand.namesTurn table) state = nand.namesStep table state := by
  rw [Loop.next, namesTurn_eq hshort hend]
  cases nand.namesStep table state <;> rfl

theorem namesTurn_inl {table : List Byte} (hshort : Short table) (state : Word × List (Word × List Byte))
    (result : Except NandFault (List (Word × List Byte))) (hend : 0 ∈ table.drop (state.1.toNat + 4))
    (hturn : nand.namesTurn table state = .inl result) : ∃ items, result = .ok items := by
  rw [namesTurn_eq hshort hend] at hturn
  cases hnext : nand.namesStep table state with
  | none =>
      rw [hnext] at hturn
      exact ⟨_, (Sum.inl.inj hturn).symm⟩
  | some next =>
      rw [hnext] at hturn
      cases hturn

theorem namesInside_iff {table : List Byte} (hshort : Short table) :
    (∃ fuel items, nand.parseKeyNames table fuel = some (.ok items)) ↔ NamesInside table := by
  have hloop : (∃ result, Loop.Returns (nand.namesTurn table) (0, []) result ∧ ∃ items, result = .ok items) ↔ _ :=
    Loop.exists_returns_and_iff_of_good
      (fun state : Word × List (Word × List Byte) => 0 ∈ table.drop (state.1.toNat + 4)) (next_namesTurn hshort)
      (namesTurn_inl hshort) fun state hend =>
        ⟨_, namesTurn_unterminated hshort hend, by rintro ⟨items, hitems⟩; cases hitems⟩
  have hends : Partial.Ends (nand.namesStep table) (0, []) :=
    (Partial.ends_map (nand.namesStep_fst hshort)).2 (nameNext_ends table)
  refine Loop.exists_run_iff.trans (hloop.trans ?_)
  rw [and_iff_right hends]
  exact Partial.forall_iterate_map (nand.namesStep_fst hshort) (fun pos => 0 ∈ table.drop (pos + 4)) (0, [])

theorem short_table {s : ScanState} {id : Word} {table : List Byte} (hscan : nand.scanMtd = .ok s)
    (h : nand.findEntry s.sectors id = .ok (some table)) : Short table := by
  have hlength := length_table_le h
  have hlt := nand.numSectors_lt
  by_cases hinside : nand.ScanInside
  · obtain ⟨s', hok, hnum, -⟩ := scanMtd_iff.1 hinside
    obtain rfl := Except.ok.inj (hok.symm.trans hscan)
    rw [hnum, tffsMaximumSegmentSize, tffsSectorSize, tffsEntryHeaderSize] at hlength
    rw [Short]
    omega
  · rw [scanMtd_iff.2 hinside] at hscan
    cases hscan

/-! ### The reader -/

/-- A device whose headers have numbers of sectors, whose segments fit in with the first one of their revision, and whose
names end in the name table. -/
structure Orderly (nand : Nand) : Prop where
  scan : nand.ScanInside
  segments : ∀ s id, nand.scanMtd = .ok s → Throughout nand.Fits (nand.seen s.sectors id)
  names : ∀ s table, nand.scanMtd = .ok s → nand.findEntry s.sectors tffsIdTableName = .ok (some table) →
    NamesInside table

/-- The reader is robust if and only if the device is orderly. -/
theorem robust_iff (nand : Nand) : nand.Robust ↔ nand.Orderly := by
  constructor
  · rintro ⟨⟨s, hscan⟩, hfinds, hnames⟩
    refine ⟨?_, fun s' id hs' => findEntry_overrun_iff.1 (hfinds s' id hs'), fun s' table hs' htable => ?_⟩
    · by_contra hnot
      rw [scanMtd_iff.2 hnot] at hscan
      cases hscan
    · exact (namesInside_iff (short_table hs' htable)).1 (hnames s' table hs' htable)
  · rintro ⟨hinside, hsegments, hnames⟩
    obtain ⟨s, hscan, -⟩ := scanMtd_iff.1 hinside
    refine ⟨⟨s, hscan⟩, fun s' id hs' => findEntry_overrun_iff.2 (hsegments s' id hs'), fun s' table hs' htable => ?_⟩
    exact (namesInside_iff (short_table hs' htable)).2 (hnames s' table hs' htable)

/-- A block whose header names a sector that is not there. -/
def wildHeaderNand : Nand where
  size := 0x1000
  erasesize := 0x1000
  flash a := ([0x53, 0x46, 0x46, 0x54, 0x5f, 0x4d, 0x56, 0x41, 0, 0, 0, 0, 2, 0, 0, 0, 0, 0, 0, 0, 0, 0, 0, 0, 0, 0, 0, 0,
    0x08] : List Byte).getD a 0
  oob _ _ := 0xff
  readable _ := true
  oobReadable _ := true
  bigEndian := false
  swapBytes := false
  readOobSectorHealth := false
  heap := 0x10000
  erasesize_pos := by decide
  sectorSize_dvd := by decide

/-- A bit behind those of the sectors is cleared. -/
theorem not_robust_wildHeader : ¬ wildHeaderNand.Robust := by
  rintro ⟨⟨s, hscan⟩, -, -⟩
  have hnone : wildHeaderNand.scanMtd.toOption.map ScanState.sectors = none := by decide +kernel
  rw [hscan] at hnone
  cases hnone

end Nand

end Immwrt.Tffs
