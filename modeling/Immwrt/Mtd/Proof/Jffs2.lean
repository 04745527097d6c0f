import Immwrt.Mtd.Jffs2

/-!
# Where the chain of nodes leads

The loop follows the lengths of the nodes modulo `2 ^ 32`. It ends if it comes to no offset twice, and it
stays in the block if what it looks at of each node on the way is in the block.
-/

namespace Immwrt.Mtd.Jffs2

open Traced

section Chain

variable (big : Bool) (erasesize : Nat) (mem : Octets) (dir : CString)

/-- There is a node at an offset. -/
def IsNode (off : Nat) : Prop := half big (bytesAt mem off 2) = magicBitmask

instance (off : Nat) : Decidable (IsNode big mem off) := inferInstanceAs (Decidable (_ = _))

/-- The node at an offset says that it is a directory entry. -/
def IsDirent (off : Nat) : Prop := half big (bytesAt mem (off + 2) 2) = nodetypeDirent

instance (off : Nat) : Decidable (IsDirent big mem off) := inferInstanceAs (Decidable (_ = _))

/-- The offset behind the node at an offset of the block. -/
def next (ofs : Word) : Option Word :=
  if ofs.toNat < erasesize ∧ IsNode big mem ofs.toNat then
    some (ofs + pad4 (word big (bytesAt mem (ofs.toNat + 4) 4)))
  else none

/-- The offset after `n` nodes. -/
def offsets (n : Nat) : Option Word := Partial.iterate (next big erasesize mem) n 0

/-- How many bytes of the name in memory the comparison with a string looks at. -/
def compared (off : Nat) : List Byte → Nat → Nat
  | _, 0 => 0
  | [], _ + 1 => 1
  | x :: s, n + 1 => if mem off = x then compared (off + 1) s n + 1 else 1

/-- What the loop looks at of the node at an offset is in the block. -/
structure Inside (off : Nat) : Prop where
  magic : off + 2 ≤ erasesize
  header : IsNode big mem off → off + 8 ≤ erasesize
  dirent : IsNode big mem off → IsDirent big mem off → off + 24 ≤ erasesize
  name : IsNode big mem off → IsDirent big mem off → dir.bytes ≠ [] →
    word big (bytesAt mem (off + 12) 4) = 1 →
      off + 29 ≤ erasesize ∧ (compared mem (off + 40) dir.bytes (mem (off + 28)).toNat = 0 ∨
        off + 40 + compared mem (off + 40) dir.bytes (mem (off + 28)).toNat ≤ erasesize)

end Chain

variable {big : Bool} {erasesize : Nat} {mem : Octets} {dir : CString}

def Read.InBlock (erasesize : Nat) (read : Read) : Prop := read.off + read.n ≤ erasesize

/-! ### One node -/

theorem every_loadHalf {p : Read → Prop} (off : Nat) : Every p (loadHalf big mem off) ↔ p ⟨off, 2⟩ := by
  simp [loadHalf]

theorem every_loadWord {p : Read → Prop} (off : Nat) : Every p (loadWord big mem off) ↔ p ⟨off, 4⟩ := by
  simp [loadWord]

theorem every_loadByte {p : Read → Prop} (off : Nat) : Every p (loadByte mem off) ↔ p ⟨off, 1⟩ := by
  simp [loadByte]

theorem strncmp_inBlock_iff (off : Nat) (s : List Byte) (n : Nat) :
    Every (Read.InBlock erasesize) (strncmp mem off s n) ↔
      compared mem off s n = 0 ∨ off + compared mem off s n ≤ erasesize := by
  induction s generalizing off n with
  | nil =>
      cases n with
      | zero => simp [strncmp, compared]
      | succ n => simp [strncmp, compared, every_loadByte, Read.InBlock]
  | cons x s ih =>
      cases n with
      | zero => simp [strncmp, compared]
      | succ n =>
          have hbyte : (loadByte mem off).val = mem off := rfl
          rw [strncmp, compared, every_bind, every_loadByte, hbyte]
          by_cases heq : mem off = x
          · rw [if_pos heq, if_pos heq, ih]
            change off + 1 ≤ erasesize ∧ _ ↔ _
            omega
          · rw [if_neg heq, if_neg heq]
            change off + 1 ≤ erasesize ∧ _ ↔ _
            simp

theorem matchDir_inBlock_iff (off : Nat) (globals : Globals) :
    Every (Read.InBlock erasesize) (matchDir big mem dir off globals) ↔ (dir.bytes ≠ [] →
      off + 16 ≤ erasesize ∧ (word big (bytesAt mem (off + 12) 4) = 1 →
        off + 29 ≤ erasesize ∧ (compared mem (off + 40) dir.bytes (mem (off + 28)).toNat = 0 ∨
          off + 40 + compared mem (off + 40) dir.bytes (mem (off + 28)).toNat ≤ erasesize) ∧
        ((strncmp mem (off + 40) dir.bytes (mem (off + 28)).toNat).val = true → off + 24 ≤ erasesize))) := by
  have hpino : (loadWord big mem (off + 12)).val = word big (bytesAt mem (off + 12) 4) := rfl
  have hnsize : (loadByte mem (off + 28)).val = mem (off + 28) := rfl
  simp only [matchDir, every_ite, every_bind, every_loadWord, every_loadByte, every_pure, hpino, hnsize,
    strncmp_inBlock_iff, Read.InBlock, and_true, implies_true]

theorem parseTurn_inBlock_iff (s : Scan) :
    Every (Read.InBlock erasesize) (parseTurn big erasesize mem dir s) ↔
      (s.ofs.toNat < erasesize → Inside big erasesize mem dir s.ofs.toNat) := by
  have hmagic : (loadHalf big mem s.ofs.toNat).val = half big (bytesAt mem s.ofs.toNat 2) := rfl
  have htype : (loadHalf big mem (s.ofs.toNat + 2)).val = half big (bytesAt mem (s.ofs.toNat + 2) 2) := rfl
  simp only [parseTurn, parseDirent, every_ite, every_bind, every_loadHalf, every_loadWord, every_pure, hmagic,
    htype, matchDir_inBlock_iff, and_true, implies_true]
  refine imp_congr Iff.rfl ?_
  simp only [Read.InBlock]
  constructor
  · rintro ⟨hmagic, h⟩
    refine ⟨hmagic, fun hnode => ?_, fun hnode hdirent => ?_, fun hnode hdirent hdir hpino => ?_⟩
    · exact (h hnode).1
    · exact ((h hnode).2.2 hdirent).2.1
    · obtain ⟨hnsize, hname, -⟩ := (((h hnode).2.2 hdirent).1 hdir).2 hpino
      exact ⟨hnsize, hname⟩
  · rintro ⟨hmagic, hheader, hfields, hname⟩
    refine ⟨hmagic, fun hnode => ⟨hheader hnode, ?_, fun hdirent => ⟨fun hdir => ⟨?_, fun hpino => ?_⟩, ?_, ?_⟩⟩⟩
    · have := hheader hnode
      omega
    · have := hfields hnode hdirent
      omega
    · obtain ⟨hnsize, hcompared⟩ := hname hnode hdirent hdir hpino
      exact ⟨hnsize, hcompared, fun _ => hfields hnode hdirent⟩
    · exact hfields hnode hdirent
    · have := hfields hnode hdirent
      omega

/-- The offset does not depend on the variables. -/
theorem parseStep_ofs (big : Bool) (erasesize : Nat) (mem : Octets) (dir : CString) (s : Scan) :
    (parseStep big erasesize mem dir s).map Scan.ofs = next big erasesize mem s.ofs := by
  have hmagic : (loadHalf big mem s.ofs.toNat).val = half big (bytesAt mem s.ofs.toNat 2) := rfl
  unfold parseStep parseTurn next
  by_cases hlt : s.ofs.toNat < erasesize
  · by_cases hnode : IsNode big mem s.ofs.toNat
    · rw [if_pos hlt, if_pos ⟨hlt, hnode⟩, val_bind, if_pos (hmagic.trans hnode)]
      simp only [val_bind]
      split <;> rfl
    · rw [if_pos hlt, if_neg fun h => hnode h.2, val_bind, if_neg fun h => hnode (hmagic.symm.trans h)]
      rfl
  · rw [if_neg hlt, if_neg fun h => hlt h.1]
    rfl

/-! ### All nodes -/

theorem ends_parseStep_iff (globals : Globals) :
    Partial.Ends (parseStep big erasesize mem dir) ⟨0, globals⟩ ↔ Partial.Ends (next big erasesize mem) 0 :=
  Partial.ends_map (parseStep_ofs big erasesize mem dir)

theorem parseTurns_ofs (n : Nat) (globals : Globals) :
    (parseTurns big erasesize mem dir n globals).map Scan.ofs = offsets big erasesize mem n :=
  Partial.iterate_map (parseStep_ofs big erasesize mem dir) n ⟨0, globals⟩

/-- The loop ends and stays in the block if and only if no offset of the chain comes again and what it looks
at of each node is in the block. -/
theorem parse_robust_iff (big : Bool) (erasesize : Nat) (mem : Octets) (dir : CString) (globals : Globals) :
    (Partial.Ends (parseStep big erasesize mem dir) ⟨0, globals⟩ ∧
        ∀ n s, parseTurns big erasesize mem dir n globals = some s →
          Every (Read.InBlock erasesize) (parseTurn big erasesize mem dir s)) ↔
      (∀ i j, i < j → offsets big erasesize mem i ≠ none →
          offsets big erasesize mem i ≠ offsets big erasesize mem j) ∧
        ∀ n ofs, offsets big erasesize mem n = some ofs → ofs.toNat < erasesize →
          Inside big erasesize mem dir ofs.toNat := by
  rw [ends_parseStep_iff, Partial.ends_iff]
  refine and_congr Iff.rfl ⟨fun h n ofs hofs hlt => ?_, fun h n s hs => ?_⟩
  · obtain ⟨s, hs, rfl⟩ := Option.map_eq_some_iff.mp ((parseTurns_ofs n globals).trans hofs)
    exact (parseTurn_inBlock_iff s).mp (h n s hs) hlt
  · have hofs := (parseTurns_ofs n globals).symm.trans (congrArg (Option.map Scan.ofs) hs)
    exact (parseTurn_inBlock_iff s).mpr (h n s.ofs hofs)

/-- A block that starts with a node of length 0. -/
def zeroLength : Octets := fun i => [0x85, 0x19, 0x03, 0x20].getD i 0

theorem parse_zeroLength_not_robust :
    ¬ (Partial.Ends (parseStep false 4096 zeroLength (.lit "tmp")) ⟨0, .initial⟩ ∧
      ∀ n s, parseTurns false 4096 zeroLength (.lit "tmp") n .initial = some s →
        Every (Read.InBlock 4096) (parseTurn false 4096 zeroLength (.lit "tmp") s)) := by
  rintro ⟨⟨n, hend⟩, -⟩
  have hagain : parseStep false 4096 zeroLength (.lit "tmp") ⟨0, .initial⟩ = some ⟨0, .initial⟩ := by
    decide
  have hsame : Partial.iterate (parseStep false 4096 zeroLength (.lit "tmp")) 0 ⟨0, .initial⟩ =
      Partial.iterate (parseStep false 4096 zeroLength (.lit "tmp")) 1 ⟨0, .initial⟩ := by
    rw [Partial.iterate, Partial.iterate, hagain]
    rfl
  exact Partial.iterate_ne_none_of_again Nat.zero_lt_one (by simp [Partial.iterate]) hsame n hend

theorem parseLoop_eq_none_iff (n : Nat) (s : Scan) :
    parseLoop big erasesize mem dir n s = none ↔
      Partial.iterate (parseStep big erasesize mem dir) n s ≠ none := by
  induction n generalizing s with
  | zero => simp [parseLoop, Partial.iterate]
  | succ n ih =>
      rw [parseLoop, Partial.iterate]
      cases parseStep big erasesize mem dir s with
      | none => simp
      | some next => exact ih next

/-- The turns that `mtd_parse_jffs2data` has are enough whenever the loop ends. -/
theorem mtdParseJffs2data_eq_none_iff (globals : Globals) :
    mtdParseJffs2data big erasesize mem dir globals = none ↔
      ¬ Partial.Ends (parseStep big erasesize mem dir) ⟨0, globals⟩ := by
  have hbound : ∀ ofs, next big erasesize mem ofs ≠ none → ofs.toNat < erasesize := by
    intro ofs hsome
    by_contra hge
    exact hsome (if_neg fun h => hge h.1)
  rw [mtdParseJffs2data, parseLoop_eq_none_iff, ends_parseStep_iff,
    Partial.ends_iff_iterate (fun _ _ h => BitVec.eq_of_toNat_eq h) hbound, not_iff_not]
  change _ ↔ offsets big erasesize mem (erasesize + 1) = none
  rw [← parseTurns_ofs, Option.map_eq_none_iff]
  exact Iff.rfl

end Immwrt.Mtd.Jffs2
