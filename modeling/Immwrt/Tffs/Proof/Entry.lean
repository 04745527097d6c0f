import Immwrt.Tffs.Proof.Segments

/-!
# Entries in NAND flash

Which segments a search sees depends on the flash alone, and what becomes of them on the array alone.
-/

namespace Immwrt.Tffs.Nand

open Checked Segment

variable {nand : Nand} {sectors : Sectors} {id : Word}

/-! ### What a search sees -/

/-- The segments seen, whether the block has an end marker, and whether a good sector could not be read. -/
structure Walk where
  blockEnd : Bool
  seen : List Segment
  stopped : Bool

def walkTurn (nand : Nand) (sectors : Sectors) (id : Word) (w : Walk) (sector : Nat) : Walk :=
  if w.stopped then w
  else if w.blockEnd then { w with blockEnd := ¬ nand.IsFirst sector }
  else if ¬ sectors.isGood sector then w
  else
    match nand.look id sector with
    | .unreadable => { w with stopped := true }
    | .nothing => w
    | .endMarker => { w with blockEnd := true }
    | .segment segment => { w with seen := w.seen ++ [segment] }

def walk (nand : Nand) (sectors : Sectors) (id : Word) (n : Nat) : Walk :=
  (List.range n).foldl (nand.walkTurn sectors id) ⟨false, [], false⟩

theorem walk_succ (n : Nat) : nand.walk sectors id (n + 1) = nand.walkTurn sectors id (nand.walk sectors id n) n := by
  rw [walk, List.range_succ, List.foldl_append]
  rfl

/-- The segments of an id that a search sees before it ends. -/
def seen (nand : Nand) (sectors : Sectors) (id : Word) : List Segment := (nand.walk sectors id sectors.numSectors).seen

theorem getGood_of_lt {sector : Nat} (h : sector < sectors.numSectors) :
    sectors.getGood sector = .ok (sectors.isGood sector) :=
  if_pos ⟨Int.natCast_nonneg sector, Int.ofNat_lt.2 h⟩

/-- The state of a search after a walk. -/
def stateAt (nand : Nand) (w : Walk) : Except NandFault FindState :=
  match w.seen.foldlM nand.takeSegment ⟨0, []⟩ with
  | .error fault => .error fault
  | .ok assembly => if w.stopped then .error .unreadable else .ok ⟨w.blockEnd, assembly⟩

theorem stateAt_findTurn (w : Walk) {sector : Nat} (h : sector < sectors.numSectors) :
    (nand.stateAt w).bind (fun s => nand.findTurn sectors id s sector) =
      nand.stateAt (nand.walkTurn sectors id w sector) := by
  by_cases hstopped : w.stopped
  · rw [walkTurn, if_pos hstopped, stateAt]
    cases w.seen.foldlM nand.takeSegment ⟨0, []⟩ with
    | error fault => rfl
    | ok assembly =>
        dsimp only
        rw [if_pos hstopped]
        rfl
  rw [walkTurn, if_neg hstopped]
  cases hseen : w.seen.foldlM nand.takeSegment ⟨0, []⟩ with
  | error fault =>
      have herror : ∀ w' : Walk, w'.seen.foldlM nand.takeSegment ⟨0, []⟩ = .error fault →
          nand.stateAt w' = .error fault := by
        intro w' hw'
        rw [stateAt, hw']
      have hsnoc : ∀ segment, (w.seen ++ [segment]).foldlM nand.takeSegment ⟨0, []⟩ = .error fault := by
        intro segment
        rw [foldlM_snoc, hseen]
        rfl
      rw [herror w hseen]
      symm
      apply herror
      split
      · exact hseen
      · split
        · exact hseen
        · cases nand.look id sector with
          | segment segment => exact hsnoc segment
          | _ => exact hseen
  | ok assembly =>
      have hstate : nand.stateAt w = .ok ⟨w.blockEnd, assembly⟩ := by
        rw [stateAt, hseen]
        exact if_neg hstopped
      have hkept : ∀ blockEnd, nand.stateAt { w with blockEnd } = .ok ⟨blockEnd, assembly⟩ := by
        intro blockEnd
        rw [stateAt, hseen]
        exact if_neg hstopped
      rw [hstate, Except.bind, findTurn, getGood_of_lt h]
      by_cases hend : w.blockEnd
      · rw [if_pos hend, if_pos hend, hkept]
      · rw [if_neg hend, if_neg hend]
        cases hgood : sectors.isGood sector with
        | false =>
            rw [if_pos Bool.false_ne_true, hstate]
        | true =>
            rw [if_neg (not_not.2 rfl)]
            dsimp only
            cases hlook : nand.look id sector with
            | unreadable =>
                rw [stateAt, hseen]
                rfl
            | nothing => rw [hstate]
            | endMarker => rw [hkept]
            | segment segment =>
                dsimp only
                rw [stateAt, foldlM_snoc, hseen, Except.bind]
                cases nand.takeSegment assembly segment with
                | error fault => rfl
                | ok assembly' =>
                    dsimp only
                    rw [if_neg hstopped]

theorem foldlM_findTurn {n : Nat} (h : n ≤ sectors.numSectors) :
    (List.range n).foldlM (nand.findTurn sectors id) ⟨false, 0, []⟩ = nand.stateAt (nand.walk sectors id n) := by
  induction n with
  | zero => rfl
  | succ n ih =>
      rw [List.range_succ, foldlM_snoc, ih (by omega), walk_succ, stateAt_findTurn _ (by omega)]

/-- A search accesses the array only where it has slots if and only if the segments seen fit. -/
theorem findEntry_overrun_iff :
    nand.findEntry sectors id ≠ .error .overrun ↔ Throughout nand.Fits (nand.seen sectors id) := by
  have htake := nand.takeSegments (nand.seen sectors id)
  rw [findEntry, foldlM_findTurn le_rfl, stateAt]
  by_cases hfits : Throughout nand.Fits (nand.seen sectors id)
  · obtain ⟨s, hs, -⟩ := htake.1 hfits
    rw [seen] at hs
    rw [hs]
    dsimp only
    refine iff_of_true ?_ hfits
    by_cases hstopped : (nand.walk sectors id sectors.numSectors).stopped
    · rw [if_pos hstopped]
      exact fun h => NandFault.noConfusion (Except.error.inj h)
    · rw [if_neg hstopped]
      exact fun h => by cases h
  · have hfault := htake.2 hfits
    rw [seen] at hfault
    rw [hfault]
    exact iff_of_false (fun h => h rfl) hfits

/-! ### Segments of usable sectors -/

/-- The block of a sector. -/
def block (nand : Nand) (sector : Nat) : Nat := sector * tffsSectorSize / nand.erasesize.toNat

theorem block_eq (nand : Nand) :
    ∃ q, 0 < q ∧ (∀ sector, nand.block sector = sector / q) ∧ ∀ sector, nand.IsFirst sector ↔ sector % q = 0 := by
  obtain ⟨q, hq⟩ := nand.sectorSize_dvd
  have hpos : 0 < tffsSectorSize := by decide
  have hqpos : 0 < q := Nat.pos_of_mul_pos_left (hq ▸ nand.erasesize_pos)
  refine ⟨q, hqpos, fun sector => ?_, fun sector => ?_⟩
  · rw [block, hq, Nat.mul_comm sector, Nat.mul_div_mul_left _ _ hpos]
  · rw [IsFirst, hq, Nat.mul_comm sector, Nat.mul_mod_mul_left, Nat.mul_eq_zero, or_iff_right hpos.ne']

/-- There is an end marker in the block of a sector, and it comes before some sector. -/
def EndsBefore (nand : Nand) (sectors : Sectors) (sector n : Nat) : Prop :=
  ∃ before < n, nand.block before = nand.block sector ∧ nand.EndsBlock sectors before

theorem endsBefore_succ_iff {sector n : Nat} :
    nand.EndsBefore sectors sector (n + 1) ↔
      nand.EndsBefore sectors sector n ∨ (nand.block n = nand.block sector ∧ nand.EndsBlock sectors n) := by
  constructor
  · rintro ⟨before, hlt, hblock, hends⟩
    rcases Nat.lt_succ_iff_lt_or_eq.1 hlt with hlt | rfl
    · exact .inl ⟨before, hlt, hblock, hends⟩
    · exact .inr ⟨hblock, hends⟩
  · rintro (⟨before, hlt, h⟩ | h)
    · exact ⟨before, by omega, h⟩
    · exact ⟨n, Nat.lt_succ_self n, h⟩

/-- Nothing comes before the first sector of a block. -/
theorem not_endsBefore_first {sector : Nat} (hfirst : nand.IsFirst sector) :
    ¬ nand.EndsBefore sectors sector sector := by
  obtain ⟨q, hq, hblock, hmod⟩ := nand.block_eq
  rintro ⟨before, hlt, hsame, -⟩
  rw [hblock, hblock] at hsame
  have hzero := (hmod sector).1 hfirst
  have := Nat.div_add_mod before q
  have := Nat.div_add_mod sector q
  have := Nat.mod_lt before hq
  rw [hsame] at *
  omega

/-- A sector that is not the first of its block is in that of the sector before. -/
theorem block_succ {sector : Nat} (h : ¬ nand.IsFirst (sector + 1)) :
    nand.block (sector + 1) = nand.block sector := by
  obtain ⟨q, hq, hblock, hmod⟩ := nand.block_eq
  rw [hmod] at h
  rw [hblock, hblock, Nat.succ_div, if_neg (fun hdvd => h (Nat.mod_eq_zero_of_dvd hdvd)), Nat.add_zero]

theorem hasSegment_iff {sector : Nat} :
    nand.HasSegment sectors id sector ↔
      sectors.isGood sector ∧ ¬ nand.EndsBefore sectors sector sector ∧ nand.Consistent sector ∧ id ≠ tffsIdEnd ∧
        nand.readUint32 (nand.sectorBuf sector) 0x00 = id ∧
        (nand.readUint32 (nand.sectorBuf sector) 0x04).toNat ≤ tffsMaximumSegmentSize := by
  rw [HasSegment, EndsBefore]
  refine and_congr_right fun _ => and_congr_left fun _ => ?_
  simp only [not_exists, not_and, block]

/-- A walk through usable sectors. -/
structure Walked (nand : Nand) (sectors : Sectors) (id : Word) (n : Nat) (w : Walk) : Prop where
  goesOn : w.stopped = false
  start : n = 0 → w.blockEnd = false
  blockEnd : ∀ sector, n = sector + 1 → (w.blockEnd = true ↔ nand.EndsBefore sectors sector n)
  seen : w.seen = ((List.range n).filter fun sector => nand.HasSegment sectors id sector).map nand.segmentAt

theorem Walked.blockEnd_iff {n : Nat} {w : Walk} (hw : nand.Walked sectors id n w) (hfirst : ¬ nand.IsFirst n) :
    w.blockEnd = true ↔ nand.EndsBefore sectors n n := by
  cases n with
  | zero =>
      refine absurd ?_ hfirst
      rw [IsFirst, Nat.zero_mul, Nat.zero_mod]
  | succ n =>
      rw [hw.blockEnd n rfl, EndsBefore, EndsBefore, block_succ hfirst]

theorem filter_range_succ_of_neg {n : Nat} (h : ¬ nand.HasSegment sectors id n) :
    ((List.range (n + 1)).filter fun sector => nand.HasSegment sectors id sector) =
      (List.range n).filter fun sector => nand.HasSegment sectors id sector := by
  have hnone : ([n].filter fun sector => nand.HasSegment sectors id sector) = [] := by
    rw [List.filter_eq_nil_iff]
    intro sector hsector hsegment
    rw [List.mem_singleton.1 hsector] at hsegment
    exact h (of_decide_eq_true hsegment)
  rw [List.range_succ, List.filter_append, hnone, List.append_nil]

theorem filter_range_succ_of_pos {n : Nat} (h : nand.HasSegment sectors id n) :
    ((List.range (n + 1)).filter fun sector => nand.HasSegment sectors id sector) =
      ((List.range n).filter fun sector => nand.HasSegment sectors id sector) ++ [n] := by
  have hone : ([n].filter fun sector => nand.HasSegment sectors id sector) = [n] := by
    rw [List.filter_eq_self]
    intro sector hsector
    rw [List.mem_singleton.1 hsector]
    exact decide_eq_true h
  rw [List.range_succ, List.filter_append, hone]

/-- A sector without a segment. -/
theorem Walked.pass {n : Nat} {w : Walk} (hw : nand.Walked sectors id n w) (blockEnd : Bool)
    (hnone : ¬ nand.HasSegment sectors id n) (hend : blockEnd = true ↔ nand.EndsBefore sectors n (n + 1)) :
    nand.Walked sectors id (n + 1) { w with blockEnd } where
  goesOn := hw.goesOn
  start h := absurd h (Nat.succ_ne_zero n)
  blockEnd := by
    rintro sector hsector
    obtain rfl := Nat.succ.inj hsector
    exact hend
  seen := by
    rw [filter_range_succ_of_neg hnone]
    exact hw.seen

theorem Walked.turn (husable : nand.Usable sectors) {n : Nat} (hn : n < sectors.numSectors) {w : Walk}
    (hw : nand.Walked sectors id n w) : nand.Walked sectors id (n + 1) (nand.walkTurn sectors id w n) := by
  rw [walkTurn, if_neg (by rw [hw.goesOn]; exact Bool.false_ne_true)]
  by_cases hfirst : nand.IsFirst n
  · have hbad : ¬ sectors.isGood n = true := by
      rw [husable.first n hn hfirst]
      exact Bool.false_ne_true
    have hnone : ¬ nand.HasSegment sectors id n := fun h => hbad h.1
    have hclear : ¬ nand.EndsBefore sectors n (n + 1) := by
      rw [endsBefore_succ_iff]
      rintro (h | h)
      · exact not_endsBefore_first hfirst h
      · exact hbad h.2.1
    by_cases hend : w.blockEnd = true
    · rw [if_pos hend]
      exact hw.pass _ hnone (iff_of_false (by simpa using hfirst) hclear)
    · rw [if_neg hend, if_pos hbad]
      exact hw.pass w.blockEnd hnone (iff_of_false hend hclear)
  by_cases hend : w.blockEnd = true
  · have hbefore := (hw.blockEnd_iff hfirst).1 hend
    rw [if_pos hend]
    refine hw.pass _ (fun h => (hasSegment_iff.1 h).2.1 hbefore) (iff_of_true (by simpa using hfirst) ?_)
    exact endsBefore_succ_iff.2 (.inl hbefore)
  have hclear : ¬ nand.EndsBefore sectors n n := fun h => hend ((hw.blockEnd_iff hfirst).2 h)
  -- the block goes on, unless it ends here
  have hends : nand.EndsBefore sectors n (n + 1) ↔ nand.EndsBlock sectors n := by
    rw [endsBefore_succ_iff, or_iff_right hclear, and_iff_right rfl]
  rw [if_neg hend]
  by_cases hgood : sectors.isGood n = true
  · obtain ⟨hoob, hread⟩ := husable.readable n hn hgood
    rw [if_neg (not_not.2 hgood), look, if_neg (not_not.2 ⟨hoob, hread⟩)]
    by_cases hconsistent : nand.Consistent n
    · rw [if_neg (not_not.2 hconsistent)]
      dsimp only
      by_cases hmarker : nand.readUint32 (nand.sectorBuf n) 0x00 = tffsIdEnd
      · rw [if_pos hmarker]
        refine hw.pass true (fun h => ?_) (iff_of_true rfl (hends.2 ⟨hgood, hconsistent, hmarker⟩))
        obtain ⟨-, -, -, hne, hid, -⟩ := hasSegment_iff.1 h
        exact hne (hid.symm.trans hmarker)
      · have hnotEnd : ¬ nand.EndsBefore sectors n (n + 1) := fun h => hmarker (hends.1 h).2.2
        rw [if_neg hmarker]
        by_cases hlong : tffsMaximumSegmentSize < (nand.readUint32 (nand.sectorBuf n) 0x04).toNat
        · rw [if_pos hlong]
          refine hw.pass w.blockEnd (fun h => ?_) (iff_of_false hend hnotEnd)
          exact absurd (hasSegment_iff.1 h).2.2.2.2.2 (Nat.not_le.2 hlong)
        · rw [if_neg hlong]
          by_cases hid : nand.readUint32 (nand.sectorBuf n) 0x00 = id
          · rw [if_pos hid]
            have hsegment : nand.HasSegment sectors id n :=
              hasSegment_iff.2 ⟨hgood, hclear, hconsistent, hid ▸ hmarker, hid, Nat.le_of_not_lt hlong⟩
            refine ⟨hw.goesOn, fun h => absurd h (Nat.succ_ne_zero n), ?_, ?_⟩
            · rintro sector hsector
              obtain rfl := Nat.succ.inj hsector
              exact iff_of_false hend hnotEnd
            · rw [filter_range_succ_of_pos hsegment, List.map_append, ← hw.seen]
              rfl
          · rw [if_neg hid]
            refine hw.pass w.blockEnd (fun h => ?_) (iff_of_false hend hnotEnd)
            exact hid (hasSegment_iff.1 h).2.2.2.2.1
    · rw [if_pos hconsistent]
      refine hw.pass w.blockEnd (fun h => ?_) (iff_of_false hend fun h => hconsistent (hends.1 h).2.1)
      exact hconsistent (hasSegment_iff.1 h).2.2.1
  · rw [if_pos hgood]
    exact hw.pass w.blockEnd (fun h => hgood h.1) (iff_of_false hend fun h => hgood (hends.1 h).1)

theorem walked (husable : nand.Usable sectors) (id : Word) {n : Nat} (hn : n ≤ sectors.numSectors) :
    nand.Walked sectors id n (nand.walk sectors id n) := by
  induction n with
  | zero => exact ⟨rfl, fun _ => rfl, fun sector h => absurd h.symm (Nat.succ_ne_zero sector), rfl⟩
  | succ n ih =>
      rw [walk_succ]
      exact (ih (by omega)).turn husable hn

/-- Of usable sectors a search sees all segments of its id. -/
theorem seen_eq (husable : nand.Usable sectors) : nand.seen sectors id = nand.segmentsOf sectors id :=
  (walked husable id le_rfl).seen

theorem findEntry_eq (husable : nand.Usable sectors) :
    nand.findEntry sectors id =
      match (nand.segmentsOf sectors id).foldlM nand.takeSegment ⟨0, []⟩ with
      | .error fault => .error fault
      | .ok s => .ok s.value := by
  have hw := walked husable id le_rfl
  rw [findEntry, foldlM_findTurn le_rfl, stateAt, ← seen_eq husable, seen]
  cases (nand.walk sectors id sectors.numSectors).seen.foldlM nand.takeSegment ⟨0, []⟩ with
  | error fault => rfl
  | ok s =>
      dsimp only
      rw [if_neg (by rw [hw.goesOn]; exact Bool.false_ne_true)]

/-- A search returns the parts of the highest revision in their order if and only if, in each revision that a search
takes up, the first segment seen asks for enough slots for those after it and for itself. -/
theorem findEntry_joined_iff (husable : nand.Usable sectors) {n : Nat} {missing : Option Nat}
    (hparts : Parts (nand.segmentsOf sectors id) n missing) :
    nand.findEntry sectors id = .ok (joined (nand.segmentsOf sectors id) n missing) ↔
      Throughout nand.Fits (nand.segmentsOf sectors id) := by
  have htake := nand.takeSegments (nand.segmentsOf sectors id)
  rw [findEntry_eq husable]
  by_cases hfits : Throughout nand.Fits (nand.segmentsOf sectors id)
  · obtain ⟨s, hs, hassembled⟩ := htake.1 hfits
    rw [hs]
    dsimp only
    rw [hparts.value_eq hassembled]
    exact iff_of_true rfl hfits
  · rw [htake.2 hfits]
    exact iff_of_false (fun h => by cases h) hfits

/-! ### Three segments -/

/-- A block with a header and an entry of three segments, which come in their order or the other way round. -/
def threeNand (reversed : Bool) : Nand where
  size := 0x2000
  erasesize := 0x2000
  flash a :=
    let sector := a / 0x800
    let seg := if reversed then 3 - sector else sector - 1
    if sector = 0 then
      ([0x53, 0x46, 0x46, 0x54, 0x5f, 0x4d, 0x56, 0x41, 0, 0, 0, 0, 2] : List Byte).getD a 0
    else
      match a % 0x800 with
      | 0x01 => 1
      | 0x04 => 1
      | 0x0c => 1
      | 0x10 => BitVec.ofNat 8 seg
      | 0x14 => if seg = 2 then 0 else BitVec.ofNat 8 (seg + 1)
      | 0x18 => BitVec.ofNat 8 (0x30 + seg)
      | _ => 0
  oob _ _ := 0xff
  readable _ := true
  oobReadable _ := true
  bigEndian := false
  swapBytes := false
  readOobSectorHealth := false
  heap := 0x10000
  erasesize_pos := by decide
  sectorSize_dvd := by decide

/-- All sectors but the first. -/
def threeSectors : Sectors := ⟨4, [0x7f]⟩

theorem scanMtd_three (reversed : Bool) :
    (threeNand reversed).scanMtd.toOption.map ScanState.sectors = some threeSectors := by
  cases reversed <;> decide +kernel

theorem segmentsOf_three (reversed : Bool) : (threeNand reversed).segmentsOf threeSectors 0x100 =
    if reversed then [⟨1, 2, 0, [0x32]⟩, ⟨1, 1, 2, [0x31]⟩, ⟨1, 0, 1, [0x30]⟩]
    else [⟨1, 0, 1, [0x30]⟩, ⟨1, 1, 2, [0x31]⟩, ⟨1, 2, 0, [0x32]⟩] := by
  cases reversed <;> decide +kernel

theorem usable_three (reversed : Bool) : (threeNand reversed).Usable threeSectors := by
  refine ⟨?_, fun _ _ _ => ⟨rfl, rfl⟩⟩
  cases reversed <;> decide +kernel

theorem parts_three (reversed : Bool) : Parts ((threeNand reversed).segmentsOf threeSectors 0x100) 3 none := by
  rw [segmentsOf_three]
  cases reversed <;>
  · refine ⟨by decide, by decide, nofun, by decide, by decide, fun i => ?_, by decide⟩
    constructor
    · rintro ⟨segment, hsegment, rfl⟩
      revert segment
      decide
    · rintro ⟨hi, -⟩
      interval_cases i <;> decide

theorem findEntry_three (reversed : Bool) : ((threeNand reversed).findEntry threeSectors 0x100).toOption =
    if reversed then some (some [0x30, 0x31, 0x32]) else none := by
  cases reversed <;> decide +kernel

/-- In their order, the third one does not get its slot. -/
theorem not_joined_inOrder :
    (threeNand false).Usable threeSectors ∧ Parts ((threeNand false).segmentsOf threeSectors 0x100) 3 none ∧
      (threeNand false).findEntry threeSectors 0x100 ≠
        .ok (joined ((threeNand false).segmentsOf threeSectors 0x100) 3 none) := by
  refine ⟨usable_three false, parts_three false, fun h => ?_⟩
  have hnone := findEntry_three false
  rw [h] at hnone
  cases hnone

theorem joined_reversed : Throughout (threeNand true).Fits ((threeNand true).segmentsOf threeSectors 0x100) := by
  refine (findEntry_joined_iff (usable_three true) (parts_three true)).1 ?_
  have hjoined : joined ((threeNand true).segmentsOf threeSectors 0x100) 3 none = some [0x30, 0x31, 0x32] := by
    rw [segmentsOf_three]
    decide
  rw [hjoined]
  cases hfind : (threeNand true).findEntry threeSectors 0x100 with
  | error fault =>
      have hsome := findEntry_three true
      rw [hfind] at hsome
      cases hsome
  | ok value =>
      have hsome := findEntry_three true
      rw [hfind] at hsome
      exact congrArg Except.ok (Option.some.inj hsome)

end Immwrt.Tffs.Nand
