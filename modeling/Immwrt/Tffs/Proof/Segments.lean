import Immwrt.Lib.Checked
import Immwrt.Tffs.Nand

/-!
# The array of the segments

The first segment of a revision gives the array its slots. There are as many as the segment asks for, and no segment
that comes later gets more.
-/

namespace Immwrt.Tffs.Nand

open Checked

variable {nand : Nand}

/-! ### Revisions -/

namespace Segment

theorem topRev_snoc (segments : List Segment) (segment : Segment) :
    topRev (segments ++ [segment]) = max (topRev segments) segment.rev.toNat := by
  rw [topRev, List.foldl_append]
  rfl

theorem rev_le_topRev {segments : List Segment} {segment : Segment} (h : segment ∈ segments) :
    segment.rev.toNat ≤ topRev segments := by
  induction segments using List.reverseRecOn with
  | nil => cases h
  | append_singleton segments last ih =>
      rw [topRev_snoc]
      rcases List.mem_append.1 h with h | h
      · exact (ih h).trans (Nat.le_max_left _ _)
      · rw [List.mem_singleton.1 h]
        exact Nat.le_max_right _ _

theorem newest_snoc_of_lt {segments : List Segment} {segment : Segment}
    (h : segment.rev.toNat < topRev segments) : newest (segments ++ [segment]) = newest segments := by
  have htop : topRev (segments ++ [segment]) = topRev segments := by
    rw [topRev_snoc, Nat.max_eq_left h.le]
  rw [newest, htop, List.filter_append, List.filter_cons_of_neg (by simpa using h.ne), List.filter_nil, List.append_nil]
  rfl

theorem newest_snoc_of_eq {segments : List Segment} {segment : Segment}
    (h : segment.rev.toNat = topRev segments) : newest (segments ++ [segment]) = newest segments ++ [segment] := by
  have htop : topRev (segments ++ [segment]) = topRev segments := by
    rw [topRev_snoc, h, Nat.max_self]
  rw [newest, htop, List.filter_append, List.filter_cons_of_pos (by simpa using h), List.filter_nil]
  rfl

theorem newest_snoc_of_gt {segments : List Segment} {segment : Segment}
    (h : topRev segments < segment.rev.toNat) : newest (segments ++ [segment]) = [segment] := by
  have htop : topRev (segments ++ [segment]) = segment.rev.toNat := by
    rw [topRev_snoc, Nat.max_eq_right h.le]
  have hnone : segments.filter (fun other => other.rev.toNat = segment.rev.toNat) = [] := by
    rw [List.filter_eq_nil_iff]
    intro other hother heq
    have := rev_le_topRev hother
    have : other.rev.toNat = segment.rev.toNat := by simpa using heq
    omega
  rw [newest, htop, List.filter_append, List.filter_cons_of_pos (by simp), List.filter_nil, hnone, List.nil_append]

/-- The segments of the highest revision that are not cleared. -/
def live (segments : List Segment) : List Segment :=
  (newest segments).filter fun segment => segment.seg ≠ tffsSegmentCleared

theorem live_snoc_of_lt {segments : List Segment} {segment : Segment}
    (h : segment.rev.toNat < topRev segments) : live (segments ++ [segment]) = live segments := by
  rw [live, newest_snoc_of_lt h]
  rfl

theorem live_snoc_of_eq {segments : List Segment} {segment : Segment} (h : segment.rev.toNat = topRev segments)
    (hlive : segment.seg ≠ tffsSegmentCleared) : live (segments ++ [segment]) = live segments ++ [segment] := by
  rw [live, newest_snoc_of_eq h, List.filter_append, List.filter_cons_of_pos (by simpa using hlive), List.filter_nil]
  rfl

theorem live_snoc_of_gt {segments : List Segment} {segment : Segment} (h : topRev segments < segment.rev.toNat)
    (hlive : segment.seg ≠ tffsSegmentCleared) : live (segments ++ [segment]) = [segment] := by
  rw [live, newest_snoc_of_gt h, List.filter_cons_of_pos (by simpa using hlive), List.filter_nil]

theorem live_snoc_cleared_of_eq {segments : List Segment} {segment : Segment}
    (h : segment.rev.toNat = topRev segments) (hcleared : segment.seg = tffsSegmentCleared) :
    live (segments ++ [segment]) = live segments := by
  rw [live, newest_snoc_of_eq h, List.filter_append, List.filter_cons_of_neg (by simpa using hcleared), List.filter_nil,
    List.append_nil]
  rfl

theorem live_snoc_cleared_of_gt {segments : List Segment} {segment : Segment}
    (h : topRev segments < segment.rev.toNat) (hcleared : segment.seg = tffsSegmentCleared) :
    live (segments ++ [segment]) = [] := by
  rw [live, newest_snoc_of_gt h, List.filter_cons_of_neg (by simpa using hcleared), List.filter_nil]

/-! ### Slots -/

/-- The segments put into their slots. -/
def fill (slots : List (Option (List Byte))) (segments : List Segment) : List (Option (List Byte)) :=
  segments.foldl (fun slots segment => slots.set segment.seg.toNat (some segment.val)) slots

/-- The array that has as many slots as the first segment asks for. -/
def array : List Segment → List (Option (List Byte))
  | [] => []
  | first :: rest => fill (List.replicate first.count none) (first :: rest)

@[simp]
theorem length_fill (slots : List (Option (List Byte))) (segments : List Segment) :
    (fill slots segments).length = slots.length := by
  induction segments generalizing slots with
  | nil => rfl
  | cons segment segments ih =>
      rw [fill, List.foldl_cons]
      exact (ih _).trans List.length_set

theorem length_array_cons (first : Segment) (rest : List Segment) : (array (first :: rest)).length = first.count := by
  rw [array, length_fill, List.length_replicate]

theorem array_snoc (first : Segment) (rest : List Segment) (segment : Segment) :
    array (first :: rest ++ [segment]) = (array (first :: rest)).set segment.seg.toNat (some segment.val) := by
  rw [List.cons_append, array, array, fill, ← List.cons_append, List.foldl_append]
  rfl

end Segment

open Segment

/-! ### One segment -/

/-- A segment needs no more slots than another one asked for. -/
structure FitsIn (nand : Nand) (first segment : Segment) : Prop where
  seg : segment.seg.toNat < first.count
  count : segment.count ≤ first.count
  heap : first.count * segmentSlotSize ≤ nand.heap

/-- A segment fits in with the first one of its revision. -/
def Fits (nand : Nand) (before : List Segment) (segment : Segment) : Prop :=
  topRev before ≤ segment.rev.toNat → segment.seg ≠ tffsSegmentCleared →
    ∀ first, (live (before ++ [segment])).head? = some first → nand.FitsIn first segment

/-- The array after some segments. -/
structure Assembled (nand : Nand) (segments : List Segment) (s : Assembly) : Prop where
  rev : s.rev.toNat = topRev segments
  slots : s.segments = array (live segments)
  fits : ∀ first, (live segments).head? = some first → ∀ segment ∈ live segments, nand.FitsIn first segment

theorem assembled_nil : nand.Assembled [] ⟨0, []⟩ where
  rev := rfl
  slots := rfl
  fits _ h := by cases h

theorem grow_eq (nand : Nand) (segments : List (Option (List Byte))) (count : Nat) (hlt : segments.length < count) :
    nand.grow segments count =
      if segments = [] ∧ count * segmentSlotSize ≤ nand.heap then .ok (List.replicate count none)
      else .error .overrun := by
  rw [grow]
  cases segments with
  | nil =>
      simp only [List.length_nil, Nat.zero_mul, Nat.sub_zero, Nat.zero_add, le_refl, and_true, true_and,
        List.nil_append]
  | cons slot slots =>
      rw [if_neg, if_neg]
      · rintro ⟨h, -⟩
        cases h
      · rintro ⟨-, h⟩
        rw [List.length_cons, segmentSlotSize] at h
        rw [List.length_cons] at hlt
        omega

/-- A segment of an older revision is passed over. -/
theorem takeSegment_of_lt {s : Assembly} {segment : Segment} (h : segment.rev.toNat < s.rev.toNat) :
    nand.takeSegment s segment = .ok s := if_pos h

/-- The array that a segment finds. -/
def start (s : Assembly) (segment : Segment) : List (Option (List Byte)) :=
  if s.rev < segment.rev then [] else s.segments

theorem start_of_eq {s : Assembly} {segment : Segment} (h : s.rev.toNat = segment.rev.toNat) :
    start s segment = s.segments :=
  if_neg fun hlt => absurd (show s.rev.toNat < segment.rev.toNat from hlt) (Nat.not_lt.2 h.ge)

theorem start_of_lt {s : Assembly} {segment : Segment} (h : s.rev.toNat < segment.rev.toNat) :
    start s segment = [] := if_pos h

theorem takeSegment_of_le {s : Assembly} {segment : Segment} (h : s.rev.toNat ≤ segment.rev.toNat) :
    nand.takeSegment s segment =
      if segment.seg = tffsSegmentCleared then .ok ⟨segment.rev, start s segment⟩
      else
        match (if (start s segment).length < segment.count then nand.grow (start s segment) segment.count
          else .ok (start s segment)) with
        | .error fault => .error fault
        | .ok segments =>
          if segment.seg.toNat < segments.length then
            .ok ⟨segment.rev, segments.set segment.seg.toNat (some segment.val)⟩
          else .error .overrun := by
  have hle : ¬ segment.rev < s.rev := fun hlt => Nat.not_lt.2 h hlt
  rw [takeSegment, if_neg hle, start]
  by_cases hnew : s.rev < segment.rev
  · rewrite [if_pos hnew, if_pos hnew]
    rfl
  · have hrev : segment.rev = s.rev := BitVec.eq_of_toNat_eq (Nat.le_antisymm (Nat.le_of_not_lt hnew) h)
    rewrite [if_neg hnew, if_neg hnew, hrev]
    rfl

/-- The first segment of a revision makes the array. -/
theorem takeSegment_first {s : Assembly} {segment : Segment} (h : s.rev.toNat ≤ segment.rev.toNat)
    (hlive : segment.seg ≠ tffsSegmentCleared) (hstart : start s segment = []) :
    nand.takeSegment s segment =
      if segment.seg.toNat < segment.count ∧ segment.count * segmentSlotSize ≤ nand.heap then
        .ok ⟨segment.rev, array [segment]⟩
      else .error .overrun := by
  rw [takeSegment_of_le h, if_neg hlive, hstart, List.length_nil]
  by_cases hcount : 0 < segment.count
  · rw [if_pos hcount, grow_eq nand [] segment.count hcount]
    by_cases hheap : segment.count * segmentSlotSize ≤ nand.heap
    · rw [if_pos ⟨rfl, hheap⟩]
      dsimp only
      rw [List.length_replicate]
      by_cases hseg : segment.seg.toNat < segment.count
      · rw [if_pos hseg, if_pos ⟨hseg, hheap⟩]
        rfl
      · rw [if_neg hseg, if_neg fun hboth => hseg hboth.1]
    · rw [if_neg fun hboth => hheap hboth.2, if_neg fun hboth => hheap hboth.2]
  · rw [if_neg hcount]
    dsimp only
    rw [List.length_nil, if_neg (Nat.not_lt_zero _), if_neg fun hboth => hcount (Nat.zero_lt_of_lt hboth.1)]

/-- A later one must fit. -/
theorem takeSegment_later {s : Assembly} {segment : Segment} (h : s.rev.toNat ≤ segment.rev.toNat)
    (hlive : segment.seg ≠ tffsSegmentCleared) (hstart : start s segment ≠ []) :
    nand.takeSegment s segment =
      if segment.seg.toNat < (start s segment).length ∧ segment.count ≤ (start s segment).length then
        .ok ⟨segment.rev, (start s segment).set segment.seg.toNat (some segment.val)⟩
      else .error .overrun := by
  rw [takeSegment_of_le h, if_neg hlive]
  by_cases hcount : (start s segment).length < segment.count
  · rw [if_pos hcount, grow_eq nand _ _ hcount, if_neg fun hboth => hstart hboth.1,
      if_neg fun hboth => Nat.not_le.2 hcount hboth.2]
  · rw [if_neg hcount]
    dsimp only
    simp only [Nat.le_of_not_lt hcount, and_true]

/-- What becomes of the array with a segment. -/
def Takes (nand : Nand) (before : List Segment) (s : Assembly) (segment : Segment) : Prop :=
  (nand.Fits before segment →
      ∃ s', nand.takeSegment s segment = .ok s' ∧ nand.Assembled (before ++ [segment]) s') ∧
    (¬ nand.Fits before segment → nand.takeSegment s segment = .error .overrun)

section

variable {before : List Segment} {s : Assembly} {segment : Segment}

theorem Assembled.takes_older (hs : nand.Assembled before s) (h : segment.rev.toNat < s.rev.toNat) :
    nand.Takes before s segment := by
  have htop : segment.rev.toNat < topRev before := hs.rev ▸ h
  have hfits : nand.Fits before segment := fun hle => absurd hle (Nat.not_le.2 htop)
  refine ⟨fun _ => ⟨s, takeSegment_of_lt h, ?_, ?_, ?_⟩, fun hnot => absurd hfits hnot⟩
  · rw [topRev_snoc, Nat.max_eq_left htop.le, hs.rev]
  · rw [live_snoc_of_lt htop, hs.slots]
  · rw [live_snoc_of_lt htop]
    exact hs.fits

theorem Assembled.rev_snoc (hs : nand.Assembled before s) (h : s.rev.toNat ≤ segment.rev.toNat) :
    segment.rev.toNat = topRev (before ++ [segment]) := by
  rw [topRev_snoc, ← hs.rev, Nat.max_eq_right h]

theorem Assembled.takes_cleared (hs : nand.Assembled before s) (h : s.rev.toNat ≤ segment.rev.toNat)
    (hcleared : segment.seg = tffsSegmentCleared) : nand.Takes before s segment := by
  have hfits : nand.Fits before segment := fun _ hlive => absurd hcleared hlive
  refine ⟨fun _ => ⟨⟨segment.rev, start s segment⟩, ?_, hs.rev_snoc h, ?_, ?_⟩, fun hnot => absurd hfits hnot⟩
  · rw [takeSegment_of_le h, if_pos hcleared]
  · rcases Nat.eq_or_lt_of_le h with heq | hlt
    · rw [live_snoc_cleared_of_eq (heq.symm.trans hs.rev) hcleared, ← hs.slots]
      exact start_of_eq heq
    · rw [live_snoc_cleared_of_gt (hs.rev ▸ hlt) hcleared]
      exact start_of_lt hlt
  · intro first hfirst
    rcases Nat.eq_or_lt_of_le h with heq | hlt
    · rw [live_snoc_cleared_of_eq (heq.symm.trans hs.rev) hcleared] at hfirst ⊢
      exact hs.fits first hfirst
    · rw [live_snoc_cleared_of_gt (hs.rev ▸ hlt) hcleared] at hfirst
      cases hfirst

theorem Assembled.takes_first (hs : nand.Assembled before s) (h : s.rev.toNat ≤ segment.rev.toNat)
    (hlive : segment.seg ≠ tffsSegmentCleared) (hstart : start s segment = [])
    (hsnoc : live (before ++ [segment]) = [segment]) : nand.Takes before s segment := by
  have hfits : nand.Fits before segment ↔
      segment.seg.toNat < segment.count ∧ segment.count * segmentSlotSize ≤ nand.heap := by
    rw [Fits, hsnoc]
    constructor
    · intro hfits
      have hself := hfits (hs.rev ▸ h) hlive segment rfl
      exact ⟨hself.seg, hself.heap⟩
    · rintro ⟨hseg, hheap⟩ - - first hfirst
      obtain rfl := Option.some.inj hfirst
      exact ⟨hseg, le_rfl, hheap⟩
  rw [Takes, hfits, takeSegment_first h hlive hstart]
  refine ⟨fun hboth => ⟨_, if_pos hboth, hs.rev_snoc h, ?_, ?_⟩, fun hnot => if_neg hnot⟩
  · rw [hsnoc]
  · rw [hsnoc]
    intro first hfirst other hother
    obtain rfl := Option.some.inj hfirst
    rw [List.mem_singleton.1 hother]
    exact ⟨hboth.1, le_rfl, hboth.2⟩

theorem Assembled.takes_later (hs : nand.Assembled before s) (heq : s.rev.toNat = segment.rev.toNat)
    (hlive : segment.seg ≠ tffsSegmentCleared) {first : Segment} {rest : List Segment}
    (hbefore : live before = first :: rest) : nand.Takes before s segment := by
  have hsnoc : live (before ++ [segment]) = first :: rest ++ [segment] := by
    rw [live_snoc_of_eq (heq.symm.trans hs.rev) hlive, hbefore]
  have hstart : start s segment = array (first :: rest) := by
    rw [start_of_eq heq, hs.slots, hbefore]
  have hfirst : ∀ other ∈ live before, nand.FitsIn first other := hs.fits first (by rw [hbefore]; rfl)
  have hself : nand.FitsIn first first := hfirst first (by rw [hbefore]; exact List.mem_cons_self)
  have hlength := length_array_cons first rest
  have hfits : nand.Fits before segment ↔ segment.seg.toNat < first.count ∧ segment.count ≤ first.count := by
    rw [Fits, hsnoc]
    constructor
    · intro hfits
      have hnew := hfits (hs.rev ▸ heq.le) hlive first rfl
      exact ⟨hnew.seg, hnew.count⟩
    · rintro ⟨hseg, hcount⟩ - - first' hfirst'
      obtain rfl := Option.some.inj hfirst'
      exact ⟨hseg, hcount, hself.heap⟩
  have hne : start s segment ≠ [] := by
    rw [hstart, ← List.length_pos_iff, hlength]
    exact Nat.zero_lt_of_lt hself.seg
  rw [Takes, hfits, takeSegment_later heq.le hlive hne, hstart, hlength]
  refine ⟨fun hboth => ⟨_, if_pos hboth, hs.rev_snoc heq.le, ?_, ?_⟩, fun hnot => if_neg hnot⟩
  · rw [hsnoc, array_snoc]
  · rw [hsnoc]
    intro first' hfirst' other hother
    obtain rfl := Option.some.inj hfirst'
    rcases List.mem_append.1 hother with hold | hnew
    · exact hfirst other (hbefore ▸ hold)
    · rw [List.mem_singleton.1 hnew]
      exact ⟨hboth.1, hboth.2, hself.heap⟩

/-- A segment that fits is put into the array, and no other. -/
theorem Assembled.takes (hs : nand.Assembled before s) (segment : Segment) : nand.Takes before s segment := by
  rcases Nat.lt_or_ge segment.rev.toNat s.rev.toNat with hlt | h
  · exact hs.takes_older hlt
  by_cases hcleared : segment.seg = tffsSegmentCleared
  · exact hs.takes_cleared h hcleared
  rcases Nat.eq_or_lt_of_le h with heq | hgt
  · cases hbefore : live before with
    | nil =>
        refine hs.takes_first h hcleared ?_ ?_
        · rw [start_of_eq heq, hs.slots, hbefore]
          rfl
        · rw [live_snoc_of_eq (heq.symm.trans hs.rev) hcleared, hbefore, List.nil_append]
    | cons first rest => exact hs.takes_later heq hcleared hbefore
  · exact hs.takes_first h hcleared (start_of_lt hgt) (live_snoc_of_gt (hs.rev ▸ hgt) hcleared)

end

/-- The segments are put together if and only if each of them fits. -/
theorem takeSegments (nand : Nand) (segments : List Segment) :
    (Throughout nand.Fits segments →
        ∃ s, segments.foldlM nand.takeSegment ⟨0, []⟩ = .ok s ∧ nand.Assembled segments s) ∧
      (¬ Throughout nand.Fits segments → segments.foldlM nand.takeSegment ⟨0, []⟩ = .error .overrun) := by
  have hiff := foldlM_iff nand.Assembled nand.Fits (· = NandFault.overrun)
    (fun before segment s hs => (hs.takes segment).1) (fun before segment s hs hnot => ⟨_, (hs.takes segment).2 hnot, rfl⟩) nand.assembled_nil segments
  refine ⟨hiff.1, fun hnot => ?_⟩
  obtain ⟨fault, hfault, rfl⟩ := hiff.2 hnot
  exact hfault

/-! ### Values -/

theorem getElem?_fill (slots : List (Option (List Byte))) {segments : List Segment}
    (hnodup : (segments.map Segment.seg).Nodup) {i : Nat} (hi : i < slots.length) :
    (fill slots segments)[i]? =
      match segments.find? fun segment => segment.seg.toNat = i with
      | some segment => some (some segment.val)
      | none => slots[i]? := by
  induction segments generalizing slots with
  | nil => rfl
  | cons segment segments ih =>
      rw [List.map_cons, List.nodup_cons] at hnodup
      have hrest := ih (slots.set segment.seg.toNat (some segment.val)) hnodup.2 (by rwa [List.length_set])
      rw [fill, List.foldl_cons]
      rw [fill] at hrest
      rw [hrest]
      by_cases hseg : segment.seg.toNat = i
      · have hnone : (segments.find? fun other => other.seg.toNat = i) = none := by
          rw [List.find?_eq_none]
          intro other hother heq
          refine hnodup.1 (List.mem_map.2 ⟨other, hother, BitVec.eq_of_toNat_eq ?_⟩)
          rw [hseg]
          exact of_decide_eq_true heq
        rw [hnone, List.find?_cons_of_pos (by simpa using hseg)]
        dsimp only
        rw [← hseg, List.getElem?_set_self (hseg ▸ hi)]
      · rw [List.find?_cons_of_neg (by simpa using hseg), List.getElem?_set_ne hseg]

theorem mapM_id_of_mem {slots : List (Option (List Byte))} (h : none ∈ slots) : slots.mapM id = none := by
  induction slots with
  | nil => cases h
  | cons slot slots ih =>
      rw [List.mapM_cons]
      cases slot with
      | none => rfl
      | some val =>
          rw [ih (by simpa using h)]
          rfl

theorem mapM_id_map_some {α : Type} (f : α → List Byte) (l : List α) :
    (l.map fun a => some (f a)).mapM id = some (l.map f) := by
  induction l with
  | nil => rfl
  | cons a l ih =>
      rw [List.map_cons, List.mapM_cons, ih]
      rfl

section Parts

variable {segments : List Segment} {n : Nat} {missing : Option Nat}

theorem Segment.Parts.live_eq (h : Parts segments n missing) : live segments = newest segments := by
  rw [live, List.filter_eq_self]
  intro segment hsegment
  exact decide_eq_true (h.uncleared segment hsegment)

theorem Segment.Parts.seg_lt (h : Parts segments n missing) {segment : Segment} (hsegment : segment ∈ newest segments) :
    segment.seg.toNat < n :=
  ((h.numbers segment.seg.toNat).1 ⟨segment, hsegment, rfl⟩).1

/-- The last part and the one before it ask for all slots. -/
theorem Segment.Parts.count_eq (h : Parts segments n missing) {segment : Segment}
    (hsegment : segment ∈ newest segments) : segment.count = min n (segment.seg.toNat + 2) := by
  have hlt := h.seg_lt hsegment
  have hle := h.le
  have hlink := h.links segment hsegment
  have hcleared : tffsSegmentCleared.toNat = 2 ^ 32 - 1 := rfl
  have hone : (1 : Word).toNat = 1 := rfl
  have hzero : (0 : Word).toNat = 0 := rfl
  rw [Segment.count]
  by_cases hnext : segment.seg.toNat + 1 < n
  · rw [if_pos hnext] at hlink
    have hne : segment.nextSeg ≠ 0 := by
      intro heq
      rw [heq, hzero] at hlink
      omega
    rw [if_neg hne, BitVec.toNat_add, hlink, hone, Nat.mod_eq_of_lt (by omega)]
    omega
  · rw [if_neg hnext] at hlink
    have heq : segment.nextSeg = 0 := BitVec.eq_of_toNat_eq (hlink.trans hzero.symm)
    rw [if_pos heq, BitVec.toNat_add, hone, Nat.mod_eq_of_lt (by omega)]
    omega

/-- If all parts fit in with one of them, that one asks for all slots. -/
theorem Segment.Parts.first_count (h : Parts segments n missing) {first : Segment} (hfirst : first ∈ newest segments)
    (hfits : ∀ segment ∈ newest segments, nand.FitsIn first segment) : first.count = n := by
  have hle : first.count ≤ n := by
    rw [h.count_eq hfirst]
    exact Nat.min_le_left _ _
  refine Nat.le_antisymm hle ?_
  obtain ⟨i, hi⟩ : ∃ i, (∃ segment ∈ newest segments, segment.seg.toNat = i) ∧ n ≤ i + 2 := by
    have hpos := h.pos
    by_cases hlast : missing = some (n - 1)
    · have hne : n ≠ 1 := by
        rintro rfl
        obtain ⟨hlt, hpresent⟩ := (h.numbers first.seg.toNat).1 ⟨first, hfirst, rfl⟩
        obtain hzero := Nat.lt_one_iff.1 hlt
        rw [hzero] at hpresent
        exact hpresent hlast
      refine ⟨n - 2, (h.numbers _).2 ⟨by omega, ?_⟩, by omega⟩
      rw [hlast]
      intro heq
      have := Option.some.inj heq
      omega
    · exact ⟨n - 1, (h.numbers _).2 ⟨by omega, hlast⟩, by omega⟩
  obtain ⟨⟨segment, hsegment, rfl⟩, hlarge⟩ := hi
  have hcount := (hfits segment hsegment).count
  rw [h.count_eq hsegment] at hcount
  omega

/-- The slots of all parts. -/
theorem Segment.Parts.array_eq (h : Parts segments n missing) {first : Segment} {rest : List Segment}
    (hnewest : newest segments = first :: rest) (hfits : ∀ segment ∈ newest segments, nand.FitsIn first segment) :
    array (newest segments) = (List.range n).map fun i =>
      ((newest segments).find? fun segment => segment.seg.toNat = i).map Segment.val := by
  have hfirst : first.count = n := h.first_count (by rw [hnewest]; exact List.mem_cons_self) hfits
  have harray : array (newest segments) = fill (List.replicate n none) (newest segments) := by
    rw [hnewest, array, hfirst]
  rw [harray]
  apply List.ext_getElem?
  intro i
  by_cases hi : i < n
  · rw [getElem?_fill _ h.nodup (by rwa [List.length_replicate]), List.getElem?_map, List.getElem?_range hi,
      List.getElem?_replicate_of_lt hi, Option.map_some]
    cases (newest segments).find? fun segment => segment.seg.toNat = i <;> rfl
  · rw [List.getElem?_eq_none (by simpa using hi), List.getElem?_eq_none (by simpa using hi)]

/-- Parts that fit are put together in their order, unless one is missing. -/
theorem Segment.Parts.value_eq (h : Parts segments n missing) {s : Assembly} (hs : nand.Assembled segments s) :
    s.value = joined segments n missing := by
  rw [Assembly.value, hs.slots, h.live_eq]
  cases hnewest : newest segments with
  | nil =>
      rw [if_pos (show (array []).length = 0 from rfl)]
      cases missing with
      | none =>
          obtain ⟨segment, hsegment, -⟩ := (h.numbers 0).2 ⟨h.pos, nofun⟩
          rw [hnewest] at hsegment
          cases hsegment
      | some i => rfl
  | cons first rest =>
      have hfits : ∀ segment ∈ newest segments, nand.FitsIn first segment := by
        rw [← h.live_eq]
        exact hs.fits first (by rw [h.live_eq, hnewest]; rfl)
      have harray := h.array_eq hnewest hfits
      rw [hnewest] at harray
      rw [harray, List.length_map, List.length_range, if_neg h.pos.ne', ← hnewest]
      cases missing with
      | none =>
          have hparts : ((List.range n).map fun i =>
              ((newest segments).find? fun segment => segment.seg.toNat = i).map Segment.val) =
                (List.range n).map fun i => some (part segments i) := by
            apply List.map_congr_left
            intro i hi
            obtain ⟨segment, hsegment, hseg⟩ := (h.numbers i).2 ⟨List.mem_range.1 hi, nofun⟩
            rw [part]
            cases hfind : (newest segments).find? fun segment => segment.seg.toNat = i with
            | none => exact absurd (decide_eq_true hseg) (List.find?_eq_none.1 hfind segment hsegment)
            | some found => rfl
          rw [hparts, mapM_id_map_some, Option.map_some, joined, List.flatMap_def]
      | some i =>
          have hnone : none ∈ (List.range n).map fun i =>
              ((newest segments).find? fun segment => segment.seg.toNat = i).map Segment.val := by
            refine List.mem_map.2 ⟨i, List.mem_range.2 (h.lt i rfl), ?_⟩
            rw [Option.map_eq_none_iff, List.find?_eq_none]
            intro segment hsegment hseg
            exact ((h.numbers i).1 ⟨segment, hsegment, of_decide_eq_true hseg⟩).2 rfl
          rw [mapM_id_of_mem hnone]
          rfl

end Parts

end Immwrt.Tffs.Nand
