import Immwrt.Mtd.Jffs2Write
import Immwrt.Mtd.Proof.Write

/-!
# Where blocks go on the device

A block goes to the next good block of the device, and the file position keeps in step with the offset that is
counted.
-/

namespace Immwrt.Mtd.Jffs2

section Device

variable {d : Nand}

/-- What was programmed, and where. -/
def programs (trace : List Event) : List (Nat × List Byte) :=
  trace.filterMap fun event =>
    match event with
    | .erase .. => none
    | .program _ pos data => some (pos, data)

theorem goodBlocks_eq (d : Nand) (k : Nat) :
    d.goodBlocks k =
      if k < d.blocks then if d.bad k then d.goodBlocks (k + 1) else k :: d.goodBlocks (k + 1) else [] := by
  by_cases hlt : k < d.blocks
  · have hrange : d.blocks - k = d.blocks - (k + 1) + 1 := by omega
    rw [if_pos hlt, Nand.goodBlocks, hrange, List.range'_succ, List.filter_cons]
    cases hbad : d.bad k <;> simp [Nand.goodBlocks]
  · rw [if_neg hlt, Nand.goodBlocks, Nat.sub_eq_zero_of_le (not_lt.mp hlt), List.range'_zero, List.filter_nil]

theorem lt_of_goodBlocks {k g : Nat} {rest : List Nat} (hgood : d.goodBlocks k = g :: rest) : k < d.blocks := by
  by_contra hge
  rw [goodBlocks_eq, if_neg hge] at hgood
  cases hgood

theorem le_of_mem_goodBlocks {k g : Nat} (hg : g ∈ d.goodBlocks k) : k ≤ g :=
  (List.mem_range'_1.mp (List.mem_filter.mp hg).1).1

theorem goodBlocks_tail {k g : Nat} {rest : List Nat} (hgood : d.goodBlocks k = g :: rest) :
    d.goodBlocks (g + 1) = rest := by
  have hlt := lt_of_goodBlocks hgood
  rw [goodBlocks_eq, if_pos hlt] at hgood
  by_cases hbad : d.bad k = true
  · rw [if_pos hbad] at hgood
    exact goodBlocks_tail hgood
  · rw [if_neg hbad] at hgood
    obtain ⟨rfl, hrest⟩ := List.cons.inj hgood
    exact hrest
termination_by d.blocks - k

/-! ### Writing blocks -/

/-- The next operation is on block `k`, or the first good one behind it. The file position is `shift` bytes
further on. -/
structure AtBlock (d : Nand) (shift k : Nat) (disk : Disk) : Prop where
  mtdofs : disk.mtdofs = k * d.erasesize
  pos : disk.pos = k * d.erasesize + shift
  running : disk.exited = false

variable {shift : Nat}

theorem AtBlock.status {k : Nat} {disk : Disk} (h : AtBlock d shift k disk) (hlt : k < d.blocks) :
    d.blockIsBad disk.mtdofs = some (d.bad k) ∧ disk.mtdofs < d.size := by
  rw [h.mtdofs, blockIsBad_mul, if_pos hlt]
  exact ⟨rfl, (lt_size_iff d k).mpr hlt⟩

/-- The loop over the bad blocks moves both to the next good one. -/
theorem AtBlock.skipBad {k g : Nat} {rest : List Nat} {disk : Disk} (h : AtBlock d shift k disk)
    (hgood : d.goodBlocks k = g :: rest) (hroom : (g + 1) * d.erasesize + shift ≤ d.size) :
    AtBlock d shift g (disk.skipBad d) ∧ (disk.skipBad d).trace = disk.trace := by
  have hlt := lt_of_goodBlocks hgood
  obtain ⟨hbad, hofs⟩ := h.status hlt
  rw [goodBlocks_eq, if_pos hlt] at hgood
  fun_induction Disk.skipBad d disk generalizing k with
  | case1 disk hnone =>
      rw [hnone] at hbad
      cases hbad
  | case2 disk bad hstatus hskip ih =>
      have hbad' : d.bad k = true := (Option.some.inj (hstatus.symm.trans hbad)).symm.trans hskip.1
      rw [if_pos hbad'] at hgood
      have hnext : k * d.erasesize + d.erasesize = (k + 1) * d.erasesize := (Nat.succ_mul k d.erasesize).symm
      have hle : (k + 1) * d.erasesize ≤ (g + 1) * d.erasesize := by
        have hkg : k + 1 ≤ g := le_of_mem_goodBlocks (hgood ▸ List.mem_cons_self)
        exact Nat.mul_le_mul_right _ (by omega)
      have hmoved : AtBlock d shift (k + 1) { disk with
          mtdofs := disk.mtdofs + d.erasesize
          pos := d.lseek disk.pos (disk.pos + d.erasesize) } := by
        refine ⟨?_, ?_, h.running⟩
        · rw [h.mtdofs, hnext]
        · rw [h.pos, Nand.lseek, Nat.add_right_comm, hnext, if_pos (by omega)]
      have hlt' := lt_of_goodBlocks hgood
      obtain ⟨hbad, hofs⟩ := hmoved.status hlt'
      rw [goodBlocks_eq, if_pos hlt'] at hgood
      exact ih hmoved hgood hlt' hbad hofs
  | case3 disk bad hstatus hstay =>
      have hbad' : ¬ d.bad k = true := fun htrue =>
        hstay ⟨(Option.some.inj (hstatus.symm.trans hbad)).trans htrue, hofs⟩
      rw [if_neg hbad'] at hgood
      obtain ⟨rfl, -⟩ := List.cons.inj hgood
      exact ⟨h, rfl⟩

theorem programs_append (trace trace' : List Event) : programs (trace ++ trace') = programs trace ++ programs trace' :=
  List.filterMap_append

/-- A block goes to the next good block of the device. -/
theorem AtBlock.put {k g : Nat} {rest : List Nat} {disk : Disk} (h : AtBlock d shift k disk)
    (hgood : d.goodBlocks k = g :: rest) (hroom : (g + 1) * d.erasesize + shift ≤ d.size) {block : List Byte}
    (hlen : block.length = d.erasesize) :
    AtBlock d shift (g + 1) (disk.put d block) ∧
      programs (disk.put d block).trace = programs disk.trace ++ [(g * d.erasesize + shift, block)] := by
  obtain ⟨hskip, htrace⟩ := h.skipBad hgood hroom
  have hnext : g * d.erasesize + d.erasesize = (g + 1) * d.erasesize := (Nat.succ_mul g d.erasesize).symm
  have hpos : (disk.skipBad d).pos < d.size := by
    have := d.erasesize_pos
    rw [hskip.pos]
    omega
  have hfits : block.length ≤ d.size - (disk.skipBad d).pos := by
    rw [hskip.pos, hlen]
    omega
  obtain ⟨trace', hprograms, hput⟩ : ∃ trace', programs trace' = programs disk.trace ∧
      disk.put d block = {
        mtdofs := (disk.skipBad d).mtdofs + d.erasesize
        pos := (disk.skipBad d).pos + block.length
        trace := trace' ++ [.program 0 (disk.skipBad d).pos block]
        exited := (disk.skipBad d).exited } := by
    by_cases herase : d.eraseBlock (disk.skipBad d).mtdofs = true
    · refine ⟨(disk.skipBad d).trace ++
        [.erase 0 d.erasesize ((disk.skipBad d).mtdofs / d.erasesize)], ?_, ?_⟩
      · rw [programs_append, htrace]
        exact List.append_nil _
      · simp only [Disk.put, h.running, hskip.running, if_pos herase, if_pos hpos, min_eq_left hfits,
          List.take_length, Bool.false_eq_true, if_false]
    · refine ⟨(disk.skipBad d).trace, by rw [htrace], ?_⟩
      simp only [Disk.put, h.running, hskip.running, if_neg herase, if_pos hpos, min_eq_left hfits,
        List.take_length, Bool.false_eq_true, if_false]
  rw [hput]
  refine ⟨⟨?_, ?_, hskip.running⟩, ?_⟩
  · exact (congrArg (· + d.erasesize) hskip.mtdofs).trans hnext
  · change (disk.skipBad d).pos + block.length = _
    rw [hskip.pos, hlen, Nat.add_right_comm, hnext]
  · rw [programs_append, hprograms, hskip.pos]
    rfl

/-- The block behind the first `n` good ones from block `k` on. -/
def behind (d : Nand) (k n : Nat) : Nat := ((d.goodBlocks k).take n).getLast?.elim k (· + 1)

/-- There are enough good blocks, and the file position gets past them. -/
structure Room (d : Nand) (shift k n : Nat) : Prop where
  good : n ≤ (d.goodBlocks k).length
  size : behind d k n * d.erasesize + shift ≤ d.size

theorem le_behind (d : Nand) (k n : Nat) : k ≤ behind d k n := by
  unfold behind
  cases hlast : ((d.goodBlocks k).take n).getLast? with
  | none => exact le_rfl
  | some g => exact (le_of_mem_goodBlocks (List.mem_of_mem_take (List.mem_of_getLast? hlast))).trans (Nat.le_succ g)

theorem behind_cons {k g : Nat} {rest : List Nat} (hgood : d.goodBlocks k = g :: rest) (n : Nat) :
    behind d k (n + 1) = behind d (g + 1) n := by
  rw [behind, behind, hgood, goodBlocks_tail hgood, List.take_succ_cons, List.getLast?_cons]
  cases (rest.take n).getLast? <;> rfl

/-- Blocks go to the good blocks of the device in turn. -/
theorem AtBlock.foldl_put {blocks : List (List Byte)} (hlen : ∀ block ∈ blocks, block.length = d.erasesize)
    {k : Nat} {disk : Disk} (h : AtBlock d shift k disk) (hroom : Room d shift k blocks.length) :
    AtBlock d shift (behind d k blocks.length) (blocks.foldl (Disk.put d) disk) ∧
      programs (blocks.foldl (Disk.put d) disk).trace =
        programs disk.trace ++ ((d.goodBlocks k).map fun g => g * d.erasesize + shift).zip blocks := by
  induction blocks generalizing k disk with
  | nil =>
      rw [List.zip_nil_right, List.append_nil]
      exact ⟨h, rfl⟩
  | cons block blocks ih =>
      obtain ⟨hcount, hsize⟩ := hroom
      cases hgood : d.goodBlocks k with
      | nil =>
          rw [hgood] at hcount
          exact absurd hcount (Nat.not_succ_le_zero _)
      | cons g rest =>
          have hrest := goodBlocks_tail hgood
          have hbehind := behind_cons hgood blocks.length
          rw [List.length_cons, hbehind] at hsize
          rw [hgood, ← hrest] at hcount
          have hg : (g + 1) * d.erasesize ≤ behind d (g + 1) blocks.length * d.erasesize :=
            Nat.mul_le_mul_right _ (le_behind d (g + 1) blocks.length)
          obtain ⟨hput, htrace⟩ := h.put hgood (by omega) (hlen block List.mem_cons_self)
          obtain ⟨hend, hprograms⟩ := ih (fun b hb => hlen b (List.mem_cons_of_mem block hb)) hput
            ⟨Nat.le_of_succ_le_succ hcount, hsize⟩
          refine ⟨?_, ?_⟩
          · rw [List.length_cons, hbehind]
            exact hend
          · rw [List.foldl_cons, hprograms, htrace, hrest, List.append_assoc]
            rfl

theorem behind_le {k : Nat} (hk : k ≤ d.blocks) (n : Nat) : behind d k n ≤ d.blocks := by
  unfold behind
  cases hlast : ((d.goodBlocks k).take n).getLast? with
  | none => exact hk
  | some g =>
      have hmem := List.mem_of_mem_take (List.mem_of_getLast? hlast)
      have hrange := List.mem_range'_1.mp (List.mem_filter.mp hmem).1
      change g + 1 ≤ d.blocks
      omega

/-- With the file position at the offset, enough good blocks are enough. -/
theorem Room.of_le {k n : Nat} (hk : k ≤ d.blocks) (hgood : n ≤ (d.goodBlocks k).length) : Room d 0 k n where
  good := hgood
  size := Nat.mul_le_mul_right d.erasesize (behind_le hk n)

theorem length_goodBlocks_le (d : Nand) (k : Nat) : (d.goodBlocks k).length ≤ d.blocks := by
  have hle := List.length_filter_le (fun k => !d.bad k) (List.range' k (d.blocks - k))
  rw [List.length_range'] at hle
  exact hle.trans (Nat.sub_le _ _)

theorem goodBlocks_of_good (hgood : ∀ k, d.bad k = false) (k : Nat) :
    d.goodBlocks k = List.range' k (d.blocks - k) := by
  refine List.filter_eq_self.mpr fun g _ => ?_
  rw [hgood g]
  rfl

end Device

end Immwrt.Mtd.Jffs2
