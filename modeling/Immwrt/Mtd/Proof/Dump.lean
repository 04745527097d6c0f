import Immwrt.Mtd.Proof.Write

/-!
# Reading back what was written

`mtd_dump` asks the bad block table about its own offset, which starts at 0 wherever the reading starts;
`mtd_verify` never asks it. So the two agree with `mtd_write` on the images that meet no bad block.
-/

namespace Immwrt.Mtd

variable {d : Nand} {cells : Nat → Byte}

/-! ### The dump -/

/-- What became of a chunk was decided by some block of the device. -/
theorem mem_dumpLoop {pos offset size : Nat} (hle : offset ≤ pos) {chunk : Chunk}
    (h : chunk ∈ dumpLoop d cells pos offset size) :
    chunk.pos < d.size ∧ ∃ k < d.blocks, chunk.skipped = d.bad k := by
  rw [dumpLoop] at h
  split at h
  · rename_i hread
    have hlt : offset < d.size := by omega
    have hblock : offset / d.erasesize < d.blocks := Nat.div_lt_of_lt_mul (Nat.mul_comm _ _ ▸ hlt)
    rw [Nand.blockIsBad, if_pos hlt] at h
    cases hbad : d.bad (offset / d.erasesize) with
    | true =>
        simp only [hbad, List.mem_cons] at h
        rcases h with rfl | h
        · exact ⟨by simp only; omega, _, hblock, hbad.symm⟩
        · exact mem_dumpLoop (by omega) h
    | false =>
        simp only [hbad, List.mem_cons] at h
        rcases h with rfl | h
        · exact ⟨by simp only; omega, _, hblock, hbad.symm⟩
        · split at h
          · exact mem_dumpLoop (by omega) h
          · simp at h
  · simp at h
termination_by d.size - pos
decreasing_by all_goals omega

/-- Where the blocks read are good, the dump is what the device holds. -/
theorem dumped_good {j n : Nat} (hn : 0 < n) (hsize : j * d.erasesize + n ≤ d.size)
    (hgood : ∀ k, j ≤ k → k * d.erasesize < j * d.erasesize + n → d.bad k = false) :
    dumped (dumpLoop d cells (j * d.erasesize) (j * d.erasesize) n) =
      bytesAt cells (j * d.erasesize) n := by
  have hpos := d.erasesize_pos
  have hblocks : j < d.blocks := (lt_size_iff d j).mp (by omega)
  have hj : d.bad j = false := hgood j le_rfl (by omega)
  rw [dumpLoop]
  rw [if_pos (by omega), blockIsBad_mul, if_pos hblocks, hj]
  simp only
  split
  · rename_i hmore
    have hlen : min n d.erasesize = d.erasesize := by omega
    have hnext : j * d.erasesize + d.erasesize = (j + 1) * d.erasesize := by rw [Nat.add_mul, Nat.one_mul]
    rw [hlen] at hmore ⊢
    rw [hnext]
    have ih := dumped_good (j := j + 1) hmore (by omega)
      fun k hk hlt => hgood k (by omega) (by omega)
    have hsplit := bytesAt_add cells (j * d.erasesize) d.erasesize (n - d.erasesize)
    rw [Nat.add_sub_cancel' (by omega), hnext, ← ih] at hsplit
    rw [hsplit]
    simp [dumped]
  · rename_i hlast
    have hlen : min n d.erasesize = n := by omega
    simp [dumped, hlen]
termination_by n
decreasing_by omega

/-- A dump of the whole device that meets a good block is not empty. -/
theorem dumped_ne_nil {j k n : Nat} (hjk : j ≤ k) (hk : k < d.blocks) (hgood : d.bad k = false)
    (hn : d.erasesize ≤ n) :
    dumped (dumpLoop d cells (j * d.erasesize) (j * d.erasesize) n) ≠ [] := by
  have hpos := d.erasesize_pos
  have hroom := (le_size_iff d (j + 1)).mpr (by omega)
  have hnext : j * d.erasesize + d.erasesize = (j + 1) * d.erasesize := by rw [Nat.add_mul, Nat.one_mul]
  have hlen : min n d.erasesize = d.erasesize := by omega
  rw [dumpLoop]
  simp only [hlen]
  rw [if_pos (by omega), blockIsBad_mul, if_pos (by omega)]
  cases hbad : d.bad j with
  | true =>
      have hne : j ≠ k := by
        rintro rfl
        rw [hgood] at hbad
        cases hbad
      have ih := dumped_ne_nil (j := j + 1) (by omega) hk hgood hn
      simp only [hnext]
      simpa [dumped] using ih
  | false =>
      obtain ⟨e, he⟩ : ∃ e, d.erasesize = e + 1 := ⟨d.erasesize - 1, by omega⟩
      simp [dumped, he, bytesAt]
termination_by k - j
decreasing_by omega

/-- Wherever a dump starts, block 0 decides what becomes of its first byte. -/
theorem exists_chunk (cells : Nat → Byte) {k : Nat} (hk : k < d.blocks) :
    ∃ chunk ∈ mtdDump d cells (k * d.erasesize) 1,
      chunk.pos = k * d.erasesize ∧ chunk.skipped = d.bad 0 := by
  have hpos := d.erasesize_pos
  have hsize := (lt_size_iff d k).mpr hk
  have hstart : (if k * d.erasesize = 0 then 0 else d.lseek 0 (k * d.erasesize)) = k * d.erasesize := by
    rw [Nand.lseek, if_pos hsize.le]
    split
    · omega
    · rfl
  rw [mtdDump, hstart, if_neg Nat.one_ne_zero, dumpLoop, if_pos (by omega), Nand.blockIsBad,
    if_pos (by omega), Nat.zero_div]
  cases d.bad 0 with
  | true => exact ⟨_, List.mem_cons_self, rfl, rfl⟩
  | false => exact ⟨_, List.mem_cons_self, rfl, rfl⟩

/-! ### The verification -/

theorem verifyLoop_eq {pos size : Nat} (hsize : pos + size ≤ d.size) :
    verifyLoop d cells pos size = bytesAt cells pos size := by
  rw [verifyLoop]
  have hrlen : min (min size 256) (d.size - pos) = min size 256 := by omega
  rw [hrlen]
  split
  · split
    · rename_i hmore
      have hlen : min size 256 = 256 := by omega
      have hsplit : size = 256 + (size - 256) := by omega
      rw [hlen, verifyLoop_eq (by omega), ← bytesAt_add, ← hsplit]
    · have hlen : min size 256 = size := by omega
      rw [hlen, List.append_nil]
  · have hzero : size = 0 := by omega
    subst hzero
    rfl
termination_by size
decreasing_by omega

/-! ### After a write at offset 0 -/

theorem replay_congr {cells cells' : Nat → Nat → Byte} {dev x : Nat} (h : cells dev x = cells' dev x)
    (trace : List Event) : replay cells trace dev x = replay cells' trace dev x := by
  induction trace generalizing cells cells' with
  | nil => exact h
  | cons event trace ih =>
      refine ih ?_
      cases event with
      | erase i erasesize k => simp only [Event.apply, h]
      | program i pos data => simp only [Event.apply, h]

theorem bytesAt_eq_append (mem : Nat → Byte) {x n : Nat} (hx : x < n) :
    bytesAt mem 0 n = bytesAt mem 0 x ++ mem x :: bytesAt mem (x + 1) (n - x - 1) := by
  have hsplit := bytesAt_add mem 0 x (n - x - 1 + 1)
  rw [Nat.zero_add, bytesAt] at hsplit
  rw [← hsplit]
  congr 1
  omega

theorem flatMap_range' (d : Nand) (cells : Nat → Byte) (k : Nat) :
    ((List.range' 0 k).flatMap fun j => bytesAt cells (j * d.erasesize) d.erasesize) =
      bytesAt cells 0 (k * d.erasesize) := by
  induction k with
  | zero => simp [bytesAt]
  | succ k ih =>
      rw [List.range'_concat, List.flatMap_append, ih, Nat.add_mul, Nat.one_mul, bytesAt_add]
      simp

section

variable {mem : Nat → Byte} {head image : List Byte} {trace : List Event}

theorem mtdWrite_zero (hhead : head.length ≤ d.erasesize)
    (hdone : mtdWrite 0 d [] mem head image = .done trace) :
    ∃ k ≤ d.blocks, trace = placement d 0 (head ++ image) k ∧ Last d (head ++ image) k ∧
      d.count k = blockCount d.erasesize (head ++ image).length := by
  have hdone' : mtdWrite (0 * d.erasesize) d [] mem head image = .done trace := by
    rwa [Nat.zero_mul]
  obtain ⟨k, htrace, htakes, hlast, hcount⟩ | ⟨_, _, _, hrest, -⟩ := mtdWrite_cases hhead hdone'
  · refine ⟨k, ?_, htrace, hlast, hcount⟩
    rcases Nat.eq_zero_or_pos k with rfl | hk
    · exact Nat.zero_le _
    · have := (htakes (k - 1) (by omega) (hlast.good (Nat.sub_lt hk Nat.one_pos))).1
      omega
  · cases hrest

/-- On an image that meets no bad block, the device holds the image from its start on. -/
theorem bytesAt_written (hhead : head.length ≤ d.erasesize)
    (hdone : mtdWrite 0 d [] mem head image = .done trace)
    (hgood : ∀ k < blockCount d.erasesize (head ++ image).length, d.bad k = false)
    (cells : Nat → Nat → Byte) :
    bytesAt (replay cells trace 0) 0 (head ++ image).length = head ++ image := by
  obtain ⟨k, hk, rfl, hlast, hcount⟩ := mtdWrite_zero hhead hdone
  have hall : d.count (blockCount d.erasesize (head ++ image).length) =
      blockCount d.erasesize (head ++ image).length := Nat.count_of_forall hgood
  obtain rfl : k = blockCount d.erasesize (head ++ image).length := by
    rcases lt_trichotomy k (blockCount d.erasesize (head ++ image).length) with hlt | heq | hgt
    · have hcount' : d.count k = k := Nat.count_of_forall fun j hj => hgood j (hj.trans hlt)
      omega
    · exact heq
    · have := hlast.count_lt hgt
      omega
  have hread := @read_placement d 0 (head ++ image) cells _ (fun j _ => by rw [Nat.zero_add]) hcount.le
  have hfilter : (List.range' 0 (blockCount d.erasesize (head ++ image).length)).filter
      (fun j => !d.bad j) = List.range' 0 (blockCount d.erasesize (head ++ image).length) := by
    rw [List.filter_eq_self]
    intro j hj
    simpa using hgood j (by simpa using hj)
  rw [hfilter, flatMap_range', hcount, ← length_padded d.erasesize_pos, List.take_length] at hread
  rw [← take_bytesAt _ _ (le_blockCount_mul d.erasesize_pos _), ← length_padded d.erasesize_pos, hread,
    padded, List.take_left]

/-- A write leaves room for its image on the device. -/
theorem length_le_size (hhead : head.length ≤ d.erasesize)
    (hdone : mtdWrite 0 d [] mem head image = .done trace) : (head ++ image).length ≤ d.size := by
  obtain ⟨k, hk, -, -, hcount⟩ := mtdWrite_zero hhead hdone
  have hle := le_blockCount_mul d.erasesize_pos (head ++ image).length
  have hcount' : d.count k ≤ k := Nat.count_le _
  exact hle.trans ((le_size_iff d _).mpr (by omega))

/-- A bad block among those the image takes is not erased, so it keeps what it held. -/
theorem replay_bad (hhead : head.length ≤ d.erasesize)
    (hdone : mtdWrite 0 d [] mem head image = .done trace) {k : Nat} (hbad : d.bad k = true)
    (cells : Nat → Nat → Byte) :
    replay cells trace 0 (k * d.erasesize) = cells 0 (k * d.erasesize) := by
  obtain ⟨k', -, rfl, -, -⟩ := mtdWrite_zero hhead hdone
  refine (erasedFirst_placement d 0 _ k').replay_eq (fun event hmem herases => ?_) cells
  obtain ⟨j, -, hgood, htouch⟩ := mem_placement hmem
  have hdiv := (htouch 0 _ (Or.inl herases)).2
  rw [Nat.mul_div_cancel _ d.erasesize_pos, Nat.zero_add] at hdiv
  subst hdiv
  rw [hbad] at hgood
  cases hgood

variable {Digest : Type} [DecidableEq Digest] {md5 : List Byte → Digest}

/-- The digest of what is read depends on the byte a bad block happens to hold. -/
theorem not_verified_of_bad
    (hmd5 : ∀ before after, ∃ v v' : Byte, md5 (before ++ v :: after) ≠ md5 (before ++ v' :: after))
    (hhead : head.length ≤ d.erasesize) (hdone : mtdWrite 0 d [] mem head image = .done trace) {k : Nat}
    (hk : k < blockCount d.erasesize (head ++ image).length) (hbad : d.bad k = true) :
    ¬ ∀ cells, mtdVerify md5 d (replay cells trace 0) (head ++ image) = true := by
  intro hverify
  have hlt := (lt_blockCount_iff d.erasesize_pos _ k).mp hk
  have hsize := length_le_size hhead hdone
  have hread (v : Byte) : md5 (head ++ image) =
      md5 (bytesAt (replay (fun _ _ => 0) trace 0) 0 (k * d.erasesize) ++ v ::
        bytesAt (replay (fun _ _ => 0) trace 0) (k * d.erasesize + 1)
          ((head ++ image).length - k * d.erasesize - 1)) := by
    have hv := hverify fun _ x => if x = k * d.erasesize then v else 0
    have hother {x : Nat} (hx : x ≠ k * d.erasesize) :
        replay (fun _ x => if x = k * d.erasesize then v else 0) trace 0 x =
          replay (fun _ _ => 0) trace 0 x := replay_congr (if_neg hx) trace
    rw [mtdVerify, verifyLoop_eq (by omega), decide_eq_true_iff, bytesAt_eq_append _ hlt,
      replay_bad hhead hdone hbad, if_pos rfl] at hv
    rw [hv]
    congr 2
    · exact bytesAt_congr fun x _ hx => hother (by omega)
    · exact congrArg _ (bytesAt_congr fun x hx _ => hother (Nat.ne_of_gt hx))
  obtain ⟨v, v', hne⟩ := hmd5 _ _
  exact hne ((hread v).symm.trans (hread v'))

/-- **Agreement.** After a write at offset 0 that ended well, the image verifies and is dumped back,
whatever the device held before, exactly when no block it reaches is bad and it is not empty (a dump of
size 0 is one of the whole device, and so empty only if all of it is bad). A dump from every offset passes
over the bad blocks it reads exactly when all blocks of the device are alike. -/
theorem written_dumps_and_verifies_iff
    (hmd5 : ∀ before after, ∃ v v' : Byte, md5 (before ++ v :: after) ≠ md5 (before ++ v' :: after))
    (hhead : head.length ≤ d.erasesize) (hdone : mtdWrite 0 d [] mem head image = .done trace) :
    ((∀ cells, mtdVerify md5 d (replay cells trace 0) (head ++ image) = true ∧
        dumped (mtdDump d (replay cells trace 0) 0 (head ++ image).length) = head ++ image) ↔
      (∀ k < blockCount d.erasesize (head ++ image).length, d.bad k = false) ∧
        (head ++ image = [] → ∀ k < d.blocks, d.bad k = true)) ∧
    ((∀ (cells : Nat → Byte) partOffset size, ∀ chunk ∈ mtdDump d cells partOffset size,
        chunk.skipped = d.bad (chunk.pos / d.erasesize)) ↔
      ∀ k < d.blocks, d.bad k = d.bad 0) := by
  refine ⟨⟨fun h => ⟨?_, ?_⟩, ?_⟩, ?_, ?_⟩
  · intro k hk
    by_contra hbad
    exact not_verified_of_bad hmd5 hhead hdone hk (by simpa using hbad) fun cells => (h cells).1
  · intro hempty k hk
    by_contra hgood
    have hsize := (lt_size_iff d k).mpr hk
    have hroom : d.erasesize ≤ d.size := Nat.le_mul_of_pos_left _ (by omega)
    have hdump := (h fun _ _ => 0).2
    rw [hempty, mtdDump, if_pos rfl, List.length_nil, if_pos rfl, ← Nat.zero_mul d.erasesize] at hdump
    exact dumped_ne_nil (Nat.zero_le k) hk (by simpa using hgood) hroom hdump
  · rintro ⟨hgood, hempty⟩ cells
    have hread := bytesAt_written hhead hdone hgood cells
    have hsize := length_le_size hhead hdone
    refine ⟨?_, ?_⟩
    · rw [mtdVerify, verifyLoop_eq (by omega), hread, decide_eq_true_iff]
    · rcases Nat.eq_zero_or_pos (head ++ image).length with hzero | hpos
      · have hnil := List.eq_nil_of_length_eq_zero hzero
        rw [hnil, dumped, List.flatMap_eq_nil_iff]
        intro chunk hmem
        obtain ⟨hmem, hkept⟩ := List.mem_filter.mp hmem
        obtain ⟨-, k, hk, hskipped⟩ := mem_dumpLoop le_rfl hmem
        rw [hempty hnil k hk] at hskipped
        simp [hskipped] at hkept
      · have hdump := @dumped_good d (replay cells trace 0) 0 _ hpos (by omega)
          fun k _ hlt => hgood k ((lt_blockCount_iff d.erasesize_pos _ k).mpr (by omega))
        rw [Nat.zero_mul, hread] at hdump
        rw [mtdDump, if_pos rfl, if_neg hpos.ne', hdump]
  · intro h k hk
    obtain ⟨chunk, hmem, hpos, hskipped⟩ := exists_chunk (fun _ => 0) hk
    rw [← hskipped, h _ _ _ chunk hmem, hpos, Nat.mul_div_cancel _ d.erasesize_pos]
  · intro hsame cells partOffset size chunk hmem
    have hpos : 0 < d.erasesize := d.erasesize_pos
    obtain ⟨hlt, k, hk, hskipped⟩ := mem_dumpLoop (Nat.zero_le _) hmem
    rw [hskipped, hsame k hk, hsame _ (Nat.div_lt_of_lt_mul (Nat.mul_comm _ _ ▸ hlt))]

end

/-- A device of four blocks of two bytes, all good. -/
def allGood : Nand := { firstBad with bad := fun _ => false }

theorem written_dumps_and_verifies_allGood :
    mtdWrite 0 allGood [] (fun _ => 0) [] [1, 2, 3] =
      .done [.erase 0 2 0, .program 0 0 [1, 2], .erase 0 2 1, .program 0 2 [3, 0xff]] ∧
    (∀ cells, mtdVerify id allGood (replay cells
        [.erase 0 2 0, .program 0 0 [1, 2], .erase 0 2 1, .program 0 2 [3, 0xff]] 0) [1, 2, 3] = true ∧
      dumped (mtdDump allGood (replay cells
        [.erase 0 2 0, .program 0 0 [1, 2], .erase 0 2 1, .program 0 2 [3, 0xff]] 0) 0 3) = [1, 2, 3]) ∧
    ∀ (cells : Nat → Byte) partOffset size, ∀ chunk ∈ mtdDump allGood cells partOffset size,
      chunk.skipped = allGood.bad (chunk.pos / allGood.erasesize) := by
  have hmd5 : ∀ before after : List Byte, ∃ v v' : Byte,
      id (before ++ v :: after) ≠ id (before ++ v' :: after) := by
    intro before after
    exact ⟨0, 1, by simp⟩
  have hdone : mtdWrite 0 allGood [] (fun _ => 0) [] [1, 2, 3] =
      .done [.erase 0 2 0, .program 0 0 [1, 2], .erase 0 2 1, .program 0 2 [3, 0xff]] := by
    decide +kernel
  obtain ⟨hread, hdump⟩ := written_dumps_and_verifies_iff hmd5 (by decide) hdone
  exact ⟨hdone, hread.mpr ⟨fun _ _ => rfl, fun h => absurd h (by decide)⟩, hdump.mpr fun _ _ => rfl⟩

/-- The image lies behind the bad block 0; the verification reads that block, and a dump from block 1 on
passes over it because block 0 is bad. -/
theorem written_not_verified_firstBad :
    ¬ ∀ (d : Nand) (mem : Nat → Byte) (head image : List Byte) (trace : List Event),
        head.length ≤ d.erasesize → mtdWrite 0 d [] mem head image = .done trace →
        (∀ cells, mtdVerify id d (replay cells trace 0) (head ++ image) = true ∧
          dumped (mtdDump d (replay cells trace 0) 0 (head ++ image).length) = head ++ image) ∧
        ∀ (cells : Nat → Byte) partOffset size, ∀ chunk ∈ mtdDump d cells partOffset size,
          chunk.skipped = d.bad (chunk.pos / d.erasesize) := by
  intro h
  have hdone : mtdWrite 0 firstBad [] (fun _ => 0) [] [1, 2, 3] =
      .done [.erase 0 2 1, .program 0 2 [1, 2], .erase 0 2 2, .program 0 4 [3, 0xff]] := by
    decide +kernel
  have hverify := ((h firstBad (fun _ => 0) [] [1, 2, 3] _ (by decide) hdone).1 fun _ _ => 0).1
  revert hverify
  decide +kernel

end Immwrt.Mtd
