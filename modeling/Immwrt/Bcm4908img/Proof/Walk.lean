import Immwrt.Bcm4908img.Walk
import Immwrt.Bcm4908img.Proof.Rename

/-!
# Walks over the bootfs that end

A walk stays at a node for ever when its length is rounded to 0, and only then.
-/

namespace Immwrt.Bcm4908img

variable {img : List Byte} {oldname : CString} {fuel offset next : Nat}

theorem direntNsize_lt (img : List Byte) (offset : Nat) : direntNsize img offset < 256 := BitVec.isLt _

theorem nodeLength_eq (img : List Byte) (offset : Nat) :
    nodeLength img offset = (alignUp 2 (getU32 img (offset + 4))).toNat := rfl

theorem lt_length_of_goesOn (hgoes : (lsTurn img offset).goesOn = true) : offset < img.length := by
  by_contra hge
  have hnode : (slice img offset sizeofNode).length ≠ sizeofNode := by
    rw [slice, List.drop_of_length_le (by omega)]
    decide
  rw [lsTurn, if_pos hnode] at hgoes
  cases hgoes

theorem lsNext_eq_some : lsNext img offset = some next ↔
    (lsTurn img offset).goesOn = true ∧ offset + nodeLength img offset = next := by
  rw [lsNext]
  split
  case isTrue h => simp [h]
  case isFalse h => simp [h]

theorem mvNext_eq_some : mvNext img oldname offset = some next ↔
    (lsTurn img offset).found oldname = false ∧ lsNext img offset = some next := by
  rw [mvNext]
  split
  case isTrue h => simp [h]
  case isFalse h => simp [h]

/-- `bootfs mv` goes where `bootfs ls` does, until it finds the name. -/
theorem iterate_mvNext {n : Nat} {start : Nat}
    (hiterate : Partial.iterate (mvNext img oldname) n start = some offset) :
    Partial.iterate (lsNext img) n start = some offset := by
  induction n generalizing offset with
  | zero => exact hiterate
  | succ n ih =>
      rw [Partial.iterate_succ] at hiterate ⊢
      obtain ⟨before, hbefore, hnext⟩ := Option.bind_eq_some_iff.1 hiterate
      rw [ih hbefore, Option.bind_some]
      exact (mvNext_eq_some.1 hnext).2

/-! ### The loops and their walks -/

theorem lsLoop_eq_none (err : Except Errno Unit) (lines : List CString) :
    lsLoop img fuel offset err lines = none ↔ Partial.iterate (lsNext img) fuel offset ≠ none := by
  induction fuel generalizing offset err lines with
  | zero => simp [lsLoop, Partial.iterate]
  | succ fuel ih =>
      rw [lsLoop, Partial.iterate, lsNext]
      cases lsTurn img offset with
      | failed => simp [LsTurn.goesOn]
      | last => simp [LsTurn.goesOn]
      | dirent name => exact ih err (lines ++ [name])
      | tooLong => exact ih (.error .enomem) lines
      | other => exact ih err lines

/-- What a turn of the search does, by the turn of `bootfs ls` at the same node. -/
theorem findDirent_turn : findDirent img oldname (fuel + 1) offset =
    match lsTurn img offset with
    | .failed => some (.error .eio)
    | .last => some (.error .enoent)
    | .dirent name =>
      if name ≠ oldname then findDirent img oldname fuel (offset + nodeLength img offset)
      else some (.ok offset)
    | .tooLong | .other => findDirent img oldname fuel (offset + nodeLength img offset) := by
  have hnsize := direntNsize_lt img offset
  have hmax : ¬ direntNsize img offset + 1 > filenameMax := by
    rw [show filenameMax = 4096 from rfl]
    omega
  have hmax' : ¬ direntNsize img offset + 1 > filenameMax + 1 := by omega
  rw [findDirent, lsTurn]
  simp only [if_neg hmax, if_neg hmax']
  split
  · rfl
  split
  · rfl
  split
  · rfl
  split
  · rfl
  split
  · rfl
  · rfl

theorem findDirent_eq_none :
    findDirent img oldname fuel offset = none ↔ Partial.iterate (mvNext img oldname) fuel offset ≠ none := by
  induction fuel generalizing offset with
  | zero => simp [findDirent, Partial.iterate]
  | succ fuel ih =>
      rw [findDirent_turn, Partial.iterate, mvNext, lsNext]
      cases hturn : lsTurn img offset with
      | failed => simp [LsTurn.goesOn, LsTurn.found]
      | last => simp [LsTurn.goesOn, LsTurn.found]
      | dirent name =>
          by_cases hname : name = oldname
          · simp [LsTurn.found, hname]
          · simpa [LsTurn.found, LsTurn.goesOn, hname] using ih
      | tooLong => exact ih
      | other => exact ih

theorem bcm4908imgBootfsMv_eq_none {info : Info} {newname : CString} {junk : Nat → Byte} :
    bcm4908imgBootfsMv img info oldname newname junk fuel = none ↔
      newname.strlen = oldname.strlen ∧ findDirent img oldname fuel info.bootfsOffset = none := by
  rw [bcm4908imgBootfsMv]
  split
  case isTrue hlen => simp [hlen]
  case isFalse hlen =>
    rw [not_not] at hlen
    cases findDirent img oldname fuel info.bootfsOffset with
    | none => simp [hlen]
    | some r => cases r <;> simp

/-! ### Ends -/

theorem lsNext_ends_iff (start : Nat) :
    Partial.Ends (lsNext img) start ↔ Partial.Increasing (lsNext img) start := by
  have hmono : ∀ a b, lsNext img a = some b → a ≤ b := by
    intro a b hstep
    rw [← (lsNext_eq_some.1 hstep).2]
    exact Nat.le_add_right _ _
  have hbound : ∀ a, lsNext img a ≠ none → a < img.length := by
    intro a hstep
    obtain ⟨b, hb⟩ := Option.ne_none_iff_exists'.1 hstep
    exact lt_length_of_goesOn (lsNext_eq_some.1 hb).1
  exact Partial.ends_iff_increasing hmono hbound

theorem increasing_mvNext {start : Nat} (hinc : Partial.Increasing (lsNext img) start) (oldname : CString) :
    Partial.Increasing (mvNext img oldname) start := by
  intro n a b hiterate hstep
  exact hinc n a b (iterate_mvNext hiterate) (mvNext_eq_some.1 hstep).2

theorem mvNext_ends {start : Nat} (hends : Partial.Ends (lsNext img) start) (oldname : CString) :
    Partial.Ends (mvNext img oldname) start := by
  obtain ⟨n, hend⟩ := hends
  refine ⟨n, ?_⟩
  by_contra hsome
  obtain ⟨a, ha⟩ := Option.ne_none_iff_exists'.1 hsome
  rw [iterate_mvNext ha] at hend
  cases hend

theorem walksEnd_iff {info : Info} : WalksEnd img info ↔ Partial.Increasing (lsNext img) info.bootfsOffset := by
  constructor
  · exact WalksEnd.lsIncreasing
  · intro hinc
    have hends := (lsNext_ends_iff info.bootfsOffset).2 hinc
    refine ⟨?_, ?_, hinc, increasing_mvNext hinc⟩
    · obtain ⟨fuel, hend⟩ := hends
      refine ⟨fuel, fun hnone => ?_⟩
      exact (lsLoop_eq_none _ _).1 hnone hend
    · intro oldname newname junk
      obtain ⟨fuel, hend⟩ := mvNext_ends hends oldname
      refine ⟨fuel, fun hnone => ?_⟩
      exact findDirent_eq_none.1 (bcm4908imgBootfsMv_eq_none.1 hnone).2 hend


/-! ### The chain of nodes -/

/-- A node that a walk can go past: with the magic, and whole; a dirent with its name. -/
structure Passable (img : List Byte) (offset : Nat) : Prop where
  room : offset + sizeofNode ≤ img.length
  magic : ofLe16 (slice img offset 2) = jffs2MagicBitmask
  dirent : ofLe16 (slice img (offset + 2) 2) = jffs2NodetypeDirent →
    offset + sizeofDirent + direntNsize img offset ≤ img.length

/-- The chain of nodes from `start` on, each behind one that can be passed. -/
inductive Chain (img : List Byte) (start : Nat) : Nat → Prop
  | start : Chain img start start
  | next {offset : Nat} (hchain : Chain img start offset) (hpassable : Passable img offset) :
      Chain img start (offset + nodeLength img offset)

theorem goesOn_iff : (lsTurn img offset).goesOn = true ↔ Passable img offset := by
  have hnsize := direntNsize_lt img offset
  have hmax : ¬ direntNsize img offset + 1 > filenameMax + 1 := by
    rw [show filenameMax = 4096 from rfl]
    omega
  have hwhole : ∀ n, (slice img offset n).length = n ↔ n = 0 ∨ offset + n ≤ img.length := by
    intro n
    rw [slice, List.length_take, List.length_drop]
    omega
  have hname : (slice img (offset + sizeofDirent) (direntNsize img offset)).length = direntNsize img offset ↔
      direntNsize img offset = 0 ∨ offset + sizeofDirent + direntNsize img offset ≤ img.length := by
    rw [slice, List.length_take, List.length_drop]
    omega
  have hdirent : sizeofDirent = 40 := rfl
  have hnode : sizeofNode = 12 := rfl
  rw [lsTurn]
  simp only [if_neg hmax, take_slice (show 2 ≤ sizeofNode by decide),
    slice_slice img offset sizeofNode 2 2 (by decide)]
  by_cases hroom : (slice img offset sizeofNode).length = sizeofNode
  · rw [if_neg (not_not.2 hroom)]
    by_cases hmagic : ofLe16 (slice img offset 2) = jffs2MagicBitmask
    · rw [if_neg (not_not.2 hmagic)]
      by_cases htype : ofLe16 (slice img (offset + 2) 2) = jffs2NodetypeDirent
      · rw [if_neg (not_not.2 htype)]
        by_cases hwholeDirent : (slice img offset sizeofDirent).length = sizeofDirent
        · rw [if_neg (not_not.2 hwholeDirent)]
          rw [hwhole] at hroom hwholeDirent
          by_cases hwholeName :
              (slice img (offset + sizeofDirent) (direntNsize img offset)).length = direntNsize img offset
          · rw [if_neg (not_not.2 hwholeName)]
            rw [hname] at hwholeName
            exact iff_of_true rfl ⟨by omega, hmagic, fun _ => by omega⟩
          · rw [if_pos hwholeName]
            rw [hname] at hwholeName
            refine iff_of_false Bool.false_ne_true fun hpassable => hwholeName (Or.inr ?_)
            exact hpassable.dirent htype
        · rw [if_pos hwholeDirent]
          refine iff_of_false Bool.false_ne_true fun hpassable => hwholeDirent ((hwhole _).2 ?_)
          have := hpassable.dirent htype
          omega
      · rw [if_pos htype]
        rw [hwhole] at hroom
        exact iff_of_true rfl ⟨by omega, hmagic, fun h => absurd h htype⟩
    · rw [if_pos hmagic]
      exact iff_of_false Bool.false_ne_true fun hpassable => hmagic hpassable.magic
  · rw [if_pos hroom]
    exact iff_of_false Bool.false_ne_true fun hpassable => hroom ((hwhole _).2 (Or.inr hpassable.room))

theorem chain_iff {start : Nat} :
    Chain img start offset ↔ ∃ n, Partial.iterate (lsNext img) n start = some offset := by
  constructor
  · intro hchain
    induction hchain with
    | start => exact ⟨0, rfl⟩
    | next _ hpassable ih =>
        obtain ⟨n, hn⟩ := ih
        refine ⟨n + 1, ?_⟩
        rw [Partial.iterate_succ, hn, Option.bind_some]
        exact lsNext_eq_some.2 ⟨goesOn_iff.2 hpassable, rfl⟩
  · rintro ⟨n, hn⟩
    induction n generalizing offset with
    | zero =>
        obtain rfl : start = offset := Option.some.inj hn
        exact .start
    | succ n ih =>
        rw [Partial.iterate_succ] at hn
        obtain ⟨before, hbefore, hnext⟩ := Option.bind_eq_some_iff.1 hn
        obtain ⟨hgoes, rfl⟩ := lsNext_eq_some.1 hnext
        exact .next (ih hbefore) (goesOn_iff.1 hgoes)

/-- The length of a node that rounds to 0. -/
theorem nodeLength_eq_zero_iff :
    nodeLength img offset = 0 ↔
      getU32 img (offset + 4) = 0 ∨ 0xfffffffd ≤ (getU32 img (offset + 4)).toNat := by
  have hzero : getU32 img (offset + 4) = 0 ↔ (getU32 img (offset + 4)).toNat = 0 :=
    ⟨fun h => by rw [h]; rfl, fun h => BitVec.eq_of_toNat_eq h⟩
  rw [nodeLength_eq, alignUp_eq_zero_iff (by omega), hzero]
  omega

theorem increasing_lsNext_iff {start : Nat} : Partial.Increasing (lsNext img) start ↔
    ∀ offset, Chain img start offset → Passable img offset → nodeLength img offset ≠ 0 := by
  constructor
  · intro hinc offset hchain hpassable
    obtain ⟨n, hn⟩ := chain_iff.1 hchain
    have := hinc n offset _ hn (lsNext_eq_some.2 ⟨goesOn_iff.2 hpassable, rfl⟩)
    omega
  · intro hall n a b hn hstep
    obtain ⟨hgoes, rfl⟩ := lsNext_eq_some.1 hstep
    have := hall a (chain_iff.2 ⟨n, hn⟩) (goesOn_iff.1 hgoes)
    omega

/-- The walks over an accepted image end if and only if no node that they can go past has a length of 0 or of
more than `0xfffffffc`. -/
theorem bootfsWalks_end_iff (img : List Byte) (info : Info) (_ : bcm4908imgParse img = .ok info) :
    WalksEnd img info ↔
      ∀ offset, Chain img info.bootfsOffset offset → Passable img offset →
        getU32 img (offset + 4) ≠ 0 ∧ (getU32 img (offset + 4)).toNat ≤ 0xfffffffc := by
  rw [walksEnd_iff, increasing_lsNext_iff]
  refine forall_congr' fun offset => imp_congr_right fun _ => imp_congr_right fun _ => ?_
  rw [Ne, nodeLength_eq_zero_iff, not_or, not_le, Nat.lt_succ_iff]


theorem Chain.nodeAt {start : Nat} (hchain : Chain img start offset) : NodeAt img start offset := by
  induction hchain with
  | start => exact .start
  | next _ hpassable ih => exact ih.next hpassable.magic

theorem bootfsWalks_end_iff_small :
    ∃ info, bcm4908imgParse (smallImage []) = .ok info ∧ WalksEnd (smallImage []) info := by
  have hvendor : hasLinksysTail (smallImage []) = false := by
    rw [smallImage, List.append_nil]
    exact small_hasLinksysTail smallBootfs smallTail
  have htail : tailOffsetOf (smallImage []) = smallBootfs.length + smallRootfs.length := by
    rw [tailOffsetOf, hvendor, if_neg Bool.false_ne_true, smallImage, List.append_nil, List.length_append,
      length_tail, Nat.add_sub_cancel, List.length_append]
  obtain ⟨info, hparsed, hbootfs, -⟩ := smallImage_parsed (by decide) htail
  have hparse := bcm4908imgParse_eq_ok.2 hparsed
  refine ⟨info, hparse, (bootfsWalks_end_iff _ info hparse).2 fun offset hchain hpassable => ?_⟩
  have hnode := hchain.nodeAt
  rw [hbootfs, smallImage, List.append_assoc] at hnode
  rcases smallBootfs_nodeAt _ hnode with rfl | rfl
  · have htotlen : getU32 (smallImage []) (0 + 4) = 41 := by
      rw [smallImage, List.append_assoc, getU32, slice_smallBootfs _ (by decide)]
      decide
    rw [htotlen]
    decide
  · have hmagic := hpassable.magic
    rw [smallImage, List.append_assoc, slice_smallBootfs_next] at hmagic
    exact absurd hmagic (by decide)

/-- A bootfs that starts with a node of length 0. -/
def stuckBootfs : List Byte := [0x85, 0x19] ++ List.replicate (blockSize - 2) 0

theorem length_stuckBootfs : stuckBootfs.length = blockSize := by
  rw [stuckBootfs, List.length_append, List.length_replicate]
  decide

def stuckTail : Tail := { smallTail with crc32 := bcm4908imgCrc32 0xffffffff (stuckBootfs ++ smallRootfs) }

def stuckImage : List Byte := stuckBootfs ++ smallRootfs ++ (stuckTail.bytes ++ [])

theorem stuckImage_parsed : ∃ info, Parsed stuckImage info ∧ info.bootfsOffset = 0 := by
  have hstart : [0x85, 0x19] <+: stuckBootfs := ⟨_, rfl⟩
  have hno : ∀ j < 1, ¬ hasUbi stuckImage (blockSize * j) := by
    intro j hj
    refine small_not_hasUbi hstart length_stuckBootfs ?_ (by omega)
    rw [List.append_nil, length_tail]
    decide
  have hvendor : hasLinksysTail stuckImage = false := by
    rw [stuckImage, List.append_nil]
    exact small_hasLinksysTail stuckBootfs stuckTail
  have htail : tailOffsetOf stuckImage = stuckBootfs.length + smallRootfs.length := by
    rw [tailOffsetOf, hvendor, if_neg Bool.false_ne_true, stuckImage, List.append_nil, List.length_append,
      length_tail, Nat.add_sub_cancel, List.length_append]
  have hk : stuckBootfs.length = blockSize * 1 := by rw [length_stuckBootfs, Nat.mul_one]
  have hrootfs : 1024 ≤ smallRootfs.length := by rw [length_smallRootfs]
  obtain ⟨info, hparsed, hbootfs, -⟩ :=
    @parsed_layout stuckBootfs smallRootfs [] stuckTail 1 hstart hk ⟨_, rfl⟩ hrootfs hno htail
      (by simp only [stuckTail])
  exact ⟨info, hparsed, hbootfs⟩

theorem stuckImage_next : lsNext stuckImage 0 = some 0 := by
  have hfront : ∀ off n, off + n ≤ 12 → slice stuckImage off n = slice ([0x85, 0x19] ++ List.replicate 10 0) off n := by
    intro off n hle
    have hsplit : stuckImage = [0x85, 0x19] ++ List.replicate 10 0 ++
        (List.replicate (blockSize - 12) 0 ++ (smallRootfs ++ (stuckTail.bytes ++ []))) := by
      rw [stuckImage, stuckBootfs, show blockSize - 2 = 10 + (blockSize - 12) from rfl,
        ← List.replicate_append_replicate]
      simp only [List.append_assoc]
    rw [hsplit, slice_append_left hle]
  have hlen : sizeofNode ≤ stuckImage.length := by
    rw [stuckImage, List.append_assoc, List.length_append, length_stuckBootfs]
    exact Nat.le_add_right_of_le (by decide)
  have hmagic : ofLe16 (slice stuckImage 0 2) = jffs2MagicBitmask := by
    rw [hfront 0 2 (by decide)]
    decide
  have htype : ofLe16 (slice stuckImage (0 + 2) 2) ≠ jffs2NodetypeDirent := by
    rw [hfront (0 + 2) 2 (by decide)]
    decide
  have hpassable : Passable stuckImage 0 := by
    refine ⟨?_, hmagic, fun h => absurd h htype⟩
    rw [Nat.zero_add]
    exact hlen
  refine lsNext_eq_some.2 ⟨goesOn_iff.2 hpassable, ?_⟩
  rw [nodeLength, getU32, hfront (0 + 4) 4 (by decide)]
  decide

/-- `bootfs ls` of the image stays at its first node. -/
theorem bootfsWalks_stuck :
    ∃ info, bcm4908imgParse stuckImage = .ok info ∧ ¬ WalksEnd stuckImage info := by
  obtain ⟨info, hparsed, hbootfs⟩ := stuckImage_parsed
  refine ⟨info, bcm4908imgParse_eq_ok.2 hparsed, fun hends => ?_⟩
  have hinc := hends.lsIncreasing
  rw [hbootfs] at hinc
  exact absurd (hinc 0 0 0 rfl stuckImage_next) (Nat.lt_irrefl 0)

end Immwrt.Bcm4908img
