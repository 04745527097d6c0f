import Immwrt.Nvram.Bounds
import Immwrt.Nvram.Proof.Open

/-!
# What a commit writes

The tuples of a bucket are written up to the first one that would pass the last two bytes of the partition, so a commit
leaves the text of the tuples that fit, with one zero behind it. The padding behind the zero is what decides whether a
commit stays in the partition: its length is computed from the address as an `int`, which is negative in the upper half.
-/

namespace Immwrt.Nvram

open Handle

variable {tgt : Target} {addr stop : Nat} {h h' : Handle}

/-! ### The tuples that fit -/

theorem fitting_le (tuples : List (CString × CString)) {ptr : Nat} (hptr : ptr ≤ stop) :
    ptr + ((fitting stop tuples ptr).flatMap encodeTuple).length ≤ stop := by
  induction tuples generalizing ptr with
  | nil => exact hptr
  | cons tuple tuples ih =>
      rw [fitting]
      split
      · exact hptr
      · have hlen := length_encodeTuple tuple
        have hroom : ptr + (encodeTuple tuple).length ≤ stop := by omega
        have hnext := ih hroom
        rw [List.flatMap_cons, List.length_append]
        omega

theorem fittingAll_le (buckets : List (List (CString × CString))) {ptr : Nat} (hptr : ptr ≤ stop) :
    ptr + ((fittingAll stop buckets ptr).flatMap encodeTuple).length ≤ stop := by
  induction buckets generalizing ptr with
  | nil => exact hptr
  | cons tuples buckets ih =>
      have hnext := ih (fitting_le tuples hptr)
      rw [fittingAll, List.flatMap_append, List.length_append, ← Nat.add_assoc]
      exact hnext

theorem fitting_of_le {tuples : List (CString × CString)} {ptr : Nat}
    (hfits : ptr + (tuples.flatMap encodeTuple).length ≤ stop) : fitting stop tuples ptr = tuples := by
  induction tuples generalizing ptr with
  | nil => rfl
  | cons tuple tuples ih =>
      have hlen := length_encodeTuple tuple
      rw [List.flatMap_cons, List.length_append] at hfits
      rw [fitting, if_neg (by omega), ih (by omega)]

theorem fittingAll_of_le {buckets : List (List (CString × CString))} {ptr : Nat}
    (hfits : ptr + (buckets.flatten.flatMap encodeTuple).length ≤ stop) :
    fittingAll stop buckets ptr = buckets.flatten := by
  induction buckets generalizing ptr with
  | nil => rfl
  | cons tuples buckets ih =>
      rw [List.flatten_cons, List.flatMap_append, List.length_append] at hfits
      rw [fittingAll, fitting_of_le (by omega), ih (by omega), List.flatten_cons]

theorem flatten_buckets (h : Handle) : ((List.finRange nvramArraysize).map h.bucketTuples).flatten = allTuples h :=
  List.flatMap_def.symm

/-- A table that fits is written as a whole. -/
theorem writtenTuples_of_fits (hfits : h.offset.toNat + headerSize + (tableText h).length + 2 ≤ h.length.toNat) :
    h.writtenTuples = allTuples h := by
  rw [writtenTuples, fittingAll_of_le, flatten_buckets]
  rw [flatten_buckets, ← tableText]
  omega

theorem fitting_sublist (stop : Nat) (tuples : List (CString × CString)) (ptr : Nat) :
    (fitting stop tuples ptr).Sublist tuples := by
  induction tuples generalizing ptr with
  | nil => exact List.Sublist.slnil
  | cons tuple tuples ih =>
      rw [fitting]
      split
      · exact List.nil_sublist _
      · exact (ih _).cons_cons tuple

theorem fittingAll_sublist (stop : Nat) (buckets : List (List (CString × CString))) (ptr : Nat) :
    (fittingAll stop buckets ptr).Sublist buckets.flatten := by
  induction buckets generalizing ptr with
  | nil => exact List.Sublist.slnil
  | cons tuples buckets ih => exact (fitting_sublist stop tuples ptr).append (ih _)

theorem writeBucket_fitting (stop : Nat) (tuples : List (CString × CString)) (front rest : List Byte) :
    writeBucket stop tuples (front ++ rest, front.length) =
      (front ++ (fitting stop tuples front.length).flatMap encodeTuple ++
        rest.drop ((fitting stop tuples front.length).flatMap encodeTuple).length,
        front.length + ((fitting stop tuples front.length).flatMap encodeTuple).length) := by
  induction tuples generalizing front rest with
  | nil => simp [writeBucket, fitting]
  | cons tuple tuples ih =>
      rw [writeBucket, fitting]
      split
      · simp
      · have hnext := ih (front ++ encodeTuple tuple) (rest.drop (encodeTuple tuple).length)
        rw [List.length_append] at hnext
        rw [splice_append _ _ _ rfl, hnext, List.drop_drop, List.flatMap_cons, List.length_append]
        simp only [List.append_assoc, Nat.add_assoc]

theorem writeBuckets_fitting (stop : Nat) (h : Handle) (buckets : List (Fin nvramArraysize)) (front rest : List Byte) :
    buckets.foldl (fun state i => writeBucket stop (h.bucketTuples i) state) (front ++ rest, front.length) =
      (front ++ (fittingAll stop (buckets.map h.bucketTuples) front.length).flatMap encodeTuple ++
        rest.drop ((fittingAll stop (buckets.map h.bucketTuples) front.length).flatMap encodeTuple).length,
        front.length + ((fittingAll stop (buckets.map h.bucketTuples) front.length).flatMap encodeTuple).length) := by
  induction buckets generalizing front rest with
  | nil => simp [fittingAll]
  | cons i buckets ih =>
      have hnext := ih (front ++ (fitting stop (h.bucketTuples i) front.length).flatMap encodeTuple)
        (rest.drop ((fitting stop (h.bucketTuples i) front.length).flatMap encodeTuple).length)
      rw [List.length_append] at hnext
      rw [List.foldl_cons, writeBucket_fitting, hnext, List.drop_drop, List.map_cons, fittingAll]
      simp only [List.flatMap_append, List.length_append, List.append_assoc, Nat.add_assoc]

/-- The ranges of a bucket end where its tuples do, and before the end of the partition. -/
theorem writeRanges_spec (stop : Nat) (tuples : List (CString × CString)) (ranges : List (Nat × Nat)) (ptr : Nat) :
    (writeRanges stop tuples (ranges, ptr)).2 = ptr + ((fitting stop tuples ptr).flatMap encodeTuple).length ∧
      ((∀ range ∈ ranges, range.1 + range.2 ≤ stop) →
        ∀ range ∈ (writeRanges stop tuples (ranges, ptr)).1, range.1 + range.2 ≤ stop) := by
  induction tuples generalizing ranges ptr with
  | nil => exact ⟨rfl, id⟩
  | cons tuple tuples ih =>
      have hlen := length_encodeTuple tuple
      rw [writeRanges, fitting]
      split
      · exact ⟨rfl, id⟩
      · obtain ⟨hptr, hin⟩ := ih (ranges ++ [(ptr, (encodeTuple tuple).length)]) (ptr + (encodeTuple tuple).length)
        rw [hptr, List.flatMap_cons, List.length_append, Nat.add_assoc]
        refine ⟨rfl, fun hranges => hin fun range hrange => ?_⟩
        cases List.mem_append.1 hrange with
        | inl hrange => exact hranges range hrange
        | inr hrange =>
            rw [List.mem_singleton.1 hrange]
            dsimp only
            omega

theorem writeRanges_all (stop : Nat) (h : Handle) (buckets : List (Fin nvramArraysize)) (ranges : List (Nat × Nat))
    (ptr : Nat) :
    let state := buckets.foldl (fun state i => writeRanges stop (h.bucketTuples i) state) (ranges, ptr)
    state.2 = ptr + ((fittingAll stop (buckets.map h.bucketTuples) ptr).flatMap encodeTuple).length ∧
      ((∀ range ∈ ranges, range.1 + range.2 ≤ stop) → ∀ range ∈ state.1, range.1 + range.2 ≤ stop) := by
  induction buckets generalizing ranges ptr with
  | nil => exact ⟨rfl, id⟩
  | cons i buckets ih =>
      obtain ⟨hptr, hin⟩ := writeRanges_spec stop (h.bucketTuples i) ranges ptr
      obtain ⟨hptr', hin'⟩ := ih (writeRanges stop (h.bucketTuples i) (ranges, ptr)).1
        (ptr + ((fitting stop (h.bucketTuples i) ptr).flatMap encodeTuple).length)
      rw [← hptr] at hptr' hin'
      rw [List.map_cons, fittingAll, List.flatMap_append, List.length_append, ← Nat.add_assoc, ← hptr]
      exact ⟨hptr', fun hranges => hin' (hin hranges)⟩

/-! ### The handle after a commit -/

/-- A handle as a commit leaves it, before the table is filled again. -/
structure Committed (tgt : Target) (h h₁ : Handle) : Prop where
  length : h₁.length = h.length
  offset : h₁.offset = h.offset
  header : ∃ crc : Byte, h₁.nvramHeader =
    { h.commitHeader tgt with
      len := h.writtenLen
      crcVerInit := (h.commitHeader tgt).crcVerInit ||| crc.zeroExtend 32 }
  text : ∃ rest, h₁.mmap.drop (h.offset.toNat + headerSize) = h.writtenText ++ 0 :: rest

theorem nvramHeader_putHeader (hdr : Header) (hroom : h.offset.toNat ≤ h.mmap.length) :
    (h.putHeader hdr).nvramHeader = hdr := by
  have hslice : slice (splice h.mmap h.offset.toNat hdr.bytes) h.offset.toNat hdr.bytes.length = hdr.bytes :=
    slice_splice_self hroom
  rw [Header.length_bytes] at hslice
  rw [nvramHeader, putHeader]
  dsimp only
  rw [hslice, Header.ofBytes_bytes]

theorem drop_putHeader (hdr : Header) (hroom : h.offset.toNat ≤ h.mmap.length) :
    (h.putHeader hdr).mmap.drop (h.offset.toNat + headerSize) = h.mmap.drop (h.offset.toNat + headerSize) := by
  have hlen : (h.mmap.take h.offset.toNat ++ hdr.bytes).length = h.offset.toNat + headerSize := by
    rw [List.length_append, List.length_take, min_eq_left hroom, Header.length_bytes]
  rw [putHeader]
  dsimp only
  rw [splice, Header.length_bytes, ← hlen, List.drop_left]

theorem nvramCommit_committed (tgt : Target) (addr : Nat) (hmapped : h.mmap.length = h.length.toNat) (hend : h.writtenEnd + 1 ≤ h.length.toNat) :
    ∃ h₁, Committed tgt h h₁ ∧
      h.nvramCommit tgt addr =
        if h.writtenEnd + 1 + (padding addr (h.writtenEnd + 1)).length > h.length.toNat then none
        else some (h₁.nvramRehash tgt) := by
  have hroom : h.offset.toNat + headerSize ≤ h.length.toNat := by
    rw [writtenEnd] at hend
    omega
  have hfront : (h.mmap.take h.offset.toNat).length = h.offset.toNat := by
    rw [List.length_take]
    omega
  generalize hpre : h.mmap.take h.offset.toNat = front at hfront
  have hput : (h.putHeader (h.commitHeader tgt)).mmap =
      (front ++ (h.commitHeader tgt).bytes) ++ h.mmap.drop (h.offset.toNat + headerSize) := by
    simp only [putHeader, splice, hpre, Header.length_bytes]
  generalize hhdr : front ++ (h.commitHeader tgt).bytes = head at hput
  have hhead : h.offset.toNat + headerSize = head.length := by
    rw [← hhdr, List.length_append, hfront, Header.length_bytes]
  generalize harea : h.length.toNat - h.offset.toNat - headerSize = area
  have hclear : splice (h.putHeader (h.commitHeader tgt)).mmap (h.offset.toNat + headerSize)
      (List.replicate area 0xFF) = head ++ List.replicate area 0xFF := by
    rw [hput, splice_append _ _ _ hhead, List.length_replicate, List.drop_drop, List.drop_eq_nil_of_le,
      List.append_nil]
    omega
  have hwrite := writeBuckets_fitting (h.length.toNat - 2) h (List.finRange nvramArraysize) head
    (List.replicate area 0xFF)
  rw [← hhead, ← writtenTuples, ← writtenText, ← writtenEnd] at hwrite
  have htext : h.writtenEnd = (head ++ h.writtenText).length := by
    rw [List.length_append, ← hhead, writtenEnd]
  have hterm : splice (head ++ h.writtenText ++ (List.replicate area 0xFF).drop h.writtenText.length) h.writtenEnd [0] =
      head ++ (h.writtenText ++ [0]) ++ (List.replicate area 0xFF).drop (h.writtenText.length + 1) := by
    rw [splice_append _ _ _ htext, List.drop_drop]
    simp only [List.length_singleton, List.append_assoc]
  have hzero : h.writtenEnd + 1 = (head ++ (h.writtenText ++ [0])).length := by
    rw [htext]
    simp only [List.length_append, List.length_singleton, Nat.add_assoc]
  have hlength : (head ++ (h.writtenText ++ [0]) ++
      (List.replicate area (0xFF : Byte)).drop (h.writtenText.length + 1)).length = h.length.toNat := by
    rw [List.length_append, ← hzero, List.length_drop, List.length_replicate]
    rw [writtenEnd] at hend ⊢
    omega
  have hpadded := splice_append (head ++ (h.writtenText ++ [0]))
    ((List.replicate area (0xFF : Byte)).drop (h.writtenText.length + 1)) (padding addr (h.writtenEnd + 1)) hzero
  have hlen : BitVec.ofNat 32 (nvramRoundup (h.writtenEnd + 2 - h.offset.toNat) 4) = h.writtenLen := by
    rw [writtenLen, writtenEnd]
    congr 2
    omega
  generalize hmem : head ++ (h.writtenText ++ [0]) ++ padding addr (h.writtenEnd + 1) ++
    ((List.replicate area 0xFF).drop (h.writtenText.length + 1)).drop (padding addr (h.writtenEnd + 1)).length = mem
    at hpadded
  have hoffset : h.offset.toNat ≤ mem.length := by
    have hle : head.length ≤ mem.length := by
      rw [← hmem]
      simp only [List.length_append]
      omega
    omega
  have hdrop : ∃ rest, mem.drop (h.offset.toNat + headerSize) = h.writtenText ++ 0 :: rest := by
    rw [← hmem, hhead, List.append_assoc, List.append_assoc, List.drop_left, List.append_assoc]
    exact ⟨_, rfl⟩
  obtain ⟨crc, hcommit⟩ : ∃ crc : Byte, h.nvramCommit tgt addr =
      if h.writtenEnd + 1 + (padding addr (h.writtenEnd + 1)).length > h.length.toNat then none
      else some (nvramRehash tgt (Handle.putHeader { h with mmap := mem }
        { h.commitHeader tgt with
          len := h.writtenLen
          crcVerInit := (h.commitHeader tgt).crcVerInit ||| crc.zeroExtend 32 })) := by
    unfold nvramCommit
    simp only [harea, hclear, hwrite, hterm, hlength, hpadded, hlen]
    exact ⟨_, rfl⟩
  obtain ⟨rest, hrest⟩ := hdrop
  refine ⟨_, ?_, hcommit⟩
  constructor
  · rfl
  · rfl
  · exact ⟨crc, nvramHeader_putHeader (h := { h with mmap := mem }) _ hoffset⟩
  · exact ⟨rest, (drop_putHeader (h := { h with mmap := mem }) _ hoffset).trans hrest⟩

/-! ### Staying in the partition -/

theorem ptrMod4_low {ptr : Nat} (hlow : addr + ptr < 2 ^ 31) : ptrMod4 addr ptr = ((addr + ptr) % 4 : Nat) := by
  rw [ptrMod4, BitVec.toInt_eq_toNat_cond, BitVec.toNat_ofNat, Nat.mod_eq_of_lt (by omega), if_pos (by omega),
    Int.tmod_eq_emod_of_nonneg (by omega), Int.natCast_mod]
  rfl

theorem ptrMod4_high {ptr : Nat} (hhigh : 2 ^ 31 ≤ addr + ptr) (htop : addr + ptr < 2 ^ 32) :
    ptrMod4 addr ptr = -((2 ^ 32 - (addr + ptr)) % 4 : Nat) := by
  have hneg : ((addr + ptr : Nat) : Int) - (2 ^ 32 : Nat) = -((2 ^ 32 - (addr + ptr) : Nat) : Int) := by
    omega
  rw [ptrMod4, BitVec.toInt_eq_toNat_cond, BitVec.toNat_ofNat, Nat.mod_eq_of_lt htop, if_neg (by omega), hneg,
    Int.neg_tmod, Int.tmod_eq_emod_of_nonneg (by omega), Int.natCast_mod]
  rfl

/-- The padding behind a place, in the lower half of the addresses and in the upper one. -/
theorem length_padding (addr ptr : Nat) (haddr : addr % 4 = 0) (htop : addr + ptr ≤ 2 ^ 32) :
    (padding addr ptr).length =
      if ptr % 4 = 0 then 0 else if addr + ptr < 2 ^ 31 then 4 - ptr % 4 else 8 - ptr % 4 := by
  by_cases hfull : addr + ptr = 2 ^ 32
  · have hptr : ptr % 4 = 0 := by omega
    rw [padding, ptrMod4, hfull, if_pos hptr]
    rfl
  · by_cases hlow : addr + ptr < 2 ^ 31
    · rw [padding, ptrMod4_low hlow, if_pos hlow]
      split_ifs <;> simp only [List.length_nil, List.length_replicate] <;> omega
    · rw [padding, ptrMod4_high (by omega) (by omega), if_neg hlow]
      split_ifs <;> simp only [List.length_nil, List.length_replicate] <;> omega

theorem commitRanges_eq (addr : Nat) (h : Handle) :
    ∃ ranges, (∀ range ∈ ranges, range.1 + range.2 ≤ h.length.toNat - 2) ∧
      h.commitRanges addr =
        [(h.offset.toNat, 4), (h.offset.toNat + 8, 4), (h.offset.toNat + 12, 4), (h.offset.toNat + 16, 4),
          (h.offset.toNat + headerSize, (h.length - h.offset - 20).toNat)] ++ ranges ++
        [(h.writtenEnd, 1), (h.writtenEnd + 1, (padding addr (h.writtenEnd + 1)).length), (h.offset.toNat + 4, 4),
          (h.offset.toNat + 8, 4)] := by
  obtain ⟨hptr, hin⟩ := writeRanges_all (h.length.toNat - 2) h (List.finRange nvramArraysize) []
    (h.offset.toNat + headerSize)
  rw [← writtenTuples, ← writtenText, ← writtenEnd] at hptr
  refine ⟨_, hin fun range hrange => absurd hrange List.not_mem_nil, ?_⟩
  rw [← hptr]
  rfl

/-- What a commit writes is in the partition if the padding is. -/
theorem commitRanges_inside (addr : Nat) (h : Handle) :
    (∀ range ∈ h.commitRanges addr, range.1 + range.2 ≤ h.length.toNat) ↔
      h.writtenEnd + 1 + (padding addr (h.writtenEnd + 1)).length ≤ h.length.toNat := by
  obtain ⟨ranges, hranges, heq⟩ := commitRanges_eq addr h
  have hstart : h.offset.toNat + headerSize ≤ h.writtenEnd := Nat.le_add_right _ _
  rw [headerSize] at hstart
  constructor
  · intro hin
    refine hin (h.writtenEnd + 1, (padding addr (h.writtenEnd + 1)).length) ?_
    rw [heq]
    exact List.mem_append_right _ (List.mem_cons_of_mem _ List.mem_cons_self)
  · intro hend range hrange
    have hclear : h.offset.toNat + headerSize + (h.length - h.offset - 20).toNat = h.length.toNat := by
      have hoffset : h.offset ≤ h.length := BitVec.le_def.2 (by omega)
      have htwenty : (20 : Word) ≤ h.length - h.offset := by
        rw [BitVec.le_def, BitVec.toNat_sub_of_le hoffset]
        change 20 ≤ _
        omega
      rw [BitVec.toNat_sub_of_le htwenty, BitVec.toNat_sub_of_le hoffset, headerSize]
      change _ + 20 + (_ - _ - 20) = _
      omega
    rw [heq] at hrange
    simp only [List.mem_append, List.mem_cons, List.not_mem_nil, or_false, or_assoc] at hrange
    rcases hrange with rfl | rfl | rfl | rfl | rfl | hmem | rfl | rfl | rfl | rfl
    case inr.inr.inr.inr.inr.inl => exact (hranges range hmem).trans (Nat.sub_le _ _)
    case inr.inr.inr.inr.inl => exact hclear.le
    all_goals
      dsimp only
      omega

/-- The scan of the text that a commit leaves ends at the zero behind it. -/
theorem Committed.rehash_isSome {h₁ : Handle} (hcommitted : Committed tgt h h₁) :
    (h₁.nvramRehashIn tgt).isSome = true := by
  obtain ⟨rest, htext⟩ := hcommitted.text
  rw [nvramRehashIn_isSome, hcommitted.offset, htext, writtenText]
  generalize h.writtenTuples = tuples
  induction tuples with
  | nil =>
      have hnil : (0 : Byte) ∉ [] := List.not_mem_nil
      exact (hasEnd_line hnil).2 (.inl List.not_mem_nil)
  | cons tuple tuples ih =>
      rw [List.flatMap_cons, List.append_assoc, hasEnd_tuple]
      exact ih

/-- Filling the table again leaves the partition as it is. -/
theorem nvramRehash_header (tgt : Target) (h : Handle) : (h.nvramRehash tgt).nvramHeader = h.nvramHeader := by
  obtain ⟨hmmap, -, hoffset⟩ := (nvramRehash_keeps tgt h).2
  rw [nvramHeader, nvramHeader, hmmap, hoffset]

theorem toNat_writtenLen (hend : h.writtenEnd + 1 ≤ h.length.toNat) (hlength : h.length.toNat + 4096 ≤ 2 ^ 32) :
    h.writtenLen.toNat = nvramRoundup (headerSize + h.writtenText.length + 2) 4 := by
  rw [writtenEnd] at hend
  rw [writtenLen, BitVec.toNat_ofNat, Nat.mod_eq_of_lt]
  rw [nvramRoundup]
  omega

theorem oneVariable_offset (tgt : Target) (size : Nat) : (oneVariable tgt size).offset = 0 := by
  have hfresh : WellFormed tgt (freshHandle blankPartition 0) := nvramFree_wellFormed tgt (freshHandle blankPartition 0)
  have hstep : Op.step tgt (freshHandle blankPartition 0) (.set varName (varValue size)) = oneVariable tgt size := rfl
  obtain ⟨-, ⟨-, -, hoffset⟩, -⟩ := hfresh.step (.set varName (varValue size))
  rw [← hstep, hoffset]
  rfl

/-- Where the text of the table with one variable ends. -/
theorem oneVariable_end (tgt : Target) {size : Nat} (hsize : size < 0x7FE8) :
    (oneVariable tgt size).writtenEnd = size + 23 ∧ (oneVariable tgt size).length.toNat = 0x8000 := by
  have hone := oneVariable_spec tgt size (by omega)
  have htext := hone.text
  have hspace := hone.space
  have hoffset := oneVariable_offset tgt size
  generalize oneVariable tgt size = h at hone htext hspace hoffset ⊢
  have hzero : h.offset.toNat = 0 := congrArg BitVec.toNat hoffset
  have hlength : h.length.toNat = 0x8000 := by
    unfold Nvram.space at hspace
    omega
  refine ⟨?_, hlength⟩
  rw [writtenEnd, writtenText, writtenTuples_of_fits, ← tableText, htext, hzero, headerSize]
  · omega
  · rw [htext, hzero, hlength, headerSize]
    omega

end Immwrt.Nvram
