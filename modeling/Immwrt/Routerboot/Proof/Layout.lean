import Immwrt.Routerboot.Part

/-!
# The layout of the partitions

What is laid out follows the order of the nodes. A partition of size 0 before another one is possible when the
two start at the same offset, and the end of a node may wrap around.
-/

namespace Immwrt.Routerboot

variable {master : Master} {dynparts : List DynPart}

def MtdPartition.ending (part : MtdPartition) : Nat := part.offset.toNat + part.size.toNat

/-- A partition ends where the next one starts or before, and it is empty only if they start together. -/
structure Follows (part next : MtdPartition) : Prop where
  le : part.ending ≤ next.offset.toNat
  start : part.size = 0 → next.offset = part.offset

/-- The partitions of a device as they should be. -/
structure LaidOut (master : Master) (parts : List MtdPartition) : Prop where
  ordered : parts.IsChain fun part next => part.ending ≤ next.offset.toNat
  sized : ∀ i, i + 1 < parts.length → ∀ part, parts[i]? = some part → part.size ≠ 0
  inside : ∀ part ∈ parts, part.ending ≤ master.size

/-- The partitions of a device as they are: an empty one starts where the next one does, and all of them lie
inside the device unless the end of the last one is not a `size_t`. -/
structure LaidOutUnlessMisused (master : Master) (parts : List MtdPartition) : Prop where
  ordered : parts.IsChain fun part next => part.ending ≤ next.offset.toNat
  sized : parts.IsChain fun part next => part.size = 0 → next.offset = part.offset
  inside : (∀ last, parts.getLast? = some last → last.ending < 2 ^ 32) →
    ∀ part ∈ parts, part.ending ≤ master.size

/-! ### Adding a partition -/

/-- The partitions so far, the last one first. -/
structure Layout (master : Master) (parts : List MtdPartition) : Prop where
  chain : parts.IsChain fun next part => Follows part next
  offset : ∀ last ∈ parts.head?, last.offset.toNat < 2 ^ 32
  size : ∀ last ∈ parts.head?, last.size.toNat < 2 ^ 32
  inside : ∀ last ∈ parts.head?, last.ending < 2 ^ 32 → last.ending ≤ master.size

theorem Layout.nil : Layout master [] where
  chain := .nil
  offset := fun _ h => nomatch h
  size := fun _ h => nomatch h
  inside := fun _ h => nomatch h

theorem toNat_setWidth_64 (x : BitVec 32) : (x.setWidth 64).toNat = x.toNat := by
  have := x.isLt
  rw [BitVec.toNat_setWidth, Nat.mod_eq_of_lt (by omega)]

/-- What the correction leaves of the partition before a node. -/
theorem fixupPrevious_cons {offset : BitVec 32} {prev : MtdPartition} {parts fixed : List MtdPartition}
    (hoffset : prev.offset.toNat < 2 ^ 32) (hsize : prev.size.toNat < 2 ^ 32)
    (hfixup : fixupPrevious offset (prev :: parts) = .ok fixed) :
    ∃ prev', fixed = prev' :: parts ∧ prev'.offset = prev.offset ∧ prev'.ending ≤ offset.toNat ∧
      (prev'.size = 0 → offset.setWidth 64 = prev.offset) := by
  have hsum : (prev.offset + prev.size).toNat = prev.ending := by
    rw [BitVec.toNat_add, Nat.mod_eq_of_lt (by omega), MtdPartition.ending]
  rw [fixupPrevious] at hfixup
  split at hfixup
  case isTrue => cases hfixup
  case isFalse hle =>
    rw [BitVec.not_lt, BitVec.le_def, hsum, toNat_setWidth_64] at hle
    split at hfixup
    case isTrue hempty =>
      obtain rfl := Except.ok.inj hfixup
      have hstart : prev.offset.toNat ≤ offset.toNat := le_trans (Nat.le_add_right _ _) hle
      have hsub : (offset.setWidth 64 - prev.offset).toNat = offset.toNat - prev.offset.toNat := by
        rw [BitVec.toNat_sub_of_le, toNat_setWidth_64]
        rwa [BitVec.le_def, toNat_setWidth_64]
      refine ⟨_, rfl, rfl, ?_, fun hzero => ?_⟩
      · exact show prev.offset.toNat + (offset.setWidth 64 - prev.offset).toNat ≤ offset.toNat by omega
      · exact sub_eq_zero.1 hzero
    case isFalse hnonempty =>
      obtain rfl := Except.ok.inj hfixup
      exact ⟨prev, rfl, rfl, hle, fun hzero => absurd hzero hnonempty⟩

theorem Layout.cons {offset size : BitVec 32} {parts fixed : List MtdPartition} {part : MtdPartition}
    (hlayout : Layout master parts) (hfixup : fixupPrevious offset parts = .ok fixed)
    (hend : (offset + size).toNat ≤ master.size) (hoffset : part.offset = offset.setWidth 64)
    (hsize : part.size = size.setWidth 64) : Layout master (part :: fixed) := by
  have hoffset' : part.offset.toNat = offset.toNat := by rw [hoffset, toNat_setWidth_64]
  have hsize' : part.size.toNat = size.toNat := by rw [hsize, toNat_setWidth_64]
  refine ⟨?_, ?_, ?_, ?_⟩
  · cases parts with
    | nil =>
        obtain rfl := Except.ok.inj hfixup
        exact .singleton part
    | cons prev parts =>
        obtain ⟨prev', rfl, hsame, hle, hstart⟩ :=
          fixupPrevious_cons (hlayout.offset prev rfl) (hlayout.size prev rfl) hfixup
        refine .cons_cons ⟨by rwa [hoffset'], fun hzero => ?_⟩ ?_
        · rw [hoffset, hstart hzero, hsame]
        · have hchain := hlayout.chain
          cases parts with
          | nil => exact .singleton prev'
          | cons before parts =>
              rw [List.isChain_cons_cons] at hchain ⊢
              refine ⟨⟨?_, fun hzero => ?_⟩, hchain.2⟩
              · rw [hsame]
                exact hchain.1.le
              · rw [hsame]
                exact hchain.1.start hzero
  · rintro last ⟨⟩
    rw [hoffset']
    exact offset.isLt
  · rintro last ⟨⟩
    rw [hsize']
    exact size.isLt
  · rintro last ⟨⟩ hlt
    rw [MtdPartition.ending, hoffset', hsize'] at hlt ⊢
    rwa [BitVec.toNat_add, Nat.mod_eq_of_lt hlt] at hend

theorem layoutNodes_layout {nodes : List PartNode} {parts laid : List MtdPartition} {masterOfs : BitVec 32}
    (hlayout : Layout master parts) (hlaid : layoutNodes master dynparts nodes parts masterOfs = .ok laid) :
    Layout master laid := by
  induction nodes generalizing parts masterOfs with
  | nil =>
      obtain rfl := Except.ok.inj hlaid
      exact hlayout
  | cons pp nodes ih =>
      rw [layoutNodes] at hlaid
      split at hlaid
      case h_1 => cases hlaid
      case h_2 offset size hplace =>
        split at hlaid
        case h_1 => cases hlaid
        case h_2 fixed hfixup =>
          split at hlaid
          case isTrue => cases hlaid
          case isFalse hend => exact ih (hlayout.cons hfixup (not_lt.1 hend) rfl rfl) hlaid

/-! ### The whole layout -/

theorem Layout.ending_le {last : MtdPartition} {parts : List MtdPartition} (hlayout : Layout master (last :: parts))
    {part : MtdPartition} (hmem : part ∈ parts) : part.ending ≤ last.offset.toNat := by
  have hchain := hlayout.chain
  clear hlayout
  induction parts generalizing last with
  | nil => cases hmem
  | cons prev parts ih =>
      rw [List.isChain_cons_cons] at hchain
      rcases List.mem_cons.1 hmem with rfl | hmem
      · exact hchain.1.le
      · have := ih hmem hchain.2
        have := hchain.1.le
        rw [MtdPartition.ending] at this
        omega

theorem Layout.laidOut {parts : List MtdPartition} (hlayout : Layout master parts) :
    LaidOutUnlessMisused master parts.reverse where
  ordered := List.isChain_reverse.2 (hlayout.chain.imp fun _ _ h => h.le)
  sized := List.isChain_reverse.2 (hlayout.chain.imp fun _ _ h => h.start)
  inside := by
    intro hlast part hmem
    rw [List.mem_reverse] at hmem
    cases parts with
    | nil => cases hmem
    | cons last parts =>
        have hend := hlayout.inside last rfl (hlast last (by simp))
        rcases List.mem_cons.1 hmem with rfl | hmem
        · exact hend
        · have := hlayout.ending_le hmem
          rw [MtdPartition.ending] at hend
          omega

/-! ### The parser -/

/-- A dynamic node without a size. -/
def dynamicNode (name : CString) : PartNode where
  label := some name
  name := none
  nodeName := name
  reg := none
  sizeProp := none
  addrCells := 1
  sizeCells := 1
  readOnly := false
  lock := false

/-- A flash of one block that holds no well-known partition. -/
def emptyMaster : Master where
  size := 0x1000
  content := fun _ => 0
  outcome := fun _ => .done

def configNodes : List PartNode := [dynamicNode (.lit "hard_config"), dynamicNode (.lit "soft_config")]

/-- What is registered for two nodes that are not found. -/
def emptyParts : List MtdPartition :=
  [{ name := .lit "hard_config", offset := 0, size := 0, readOnly := false, lock := false },
   { name := .lit "soft_config", offset := 0, size := 0, readOnly := false, lock := false }]

theorem parse_emptyMaster :
    routerbootPartitionsParse false emptyMaster (rbDynparts false) configNodes true 2 =
      some (.ok emptyParts) := rfl

/-- Partitions that are registered are laid out, unless the parser is misused. -/
theorem routerbootPartitionsParse_laidOut (big : Bool) (master : Master) (dynparts : List DynPart)
    (nodes : List PartNode) (kcalloc : Bool) (fuel : Nat) (parts : List MtdPartition)
    (hparse : routerbootPartitionsParse big master dynparts nodes kcalloc fuel = some (.ok parts)) :
    LaidOutUnlessMisused master parts := by
  rw [routerbootPartitionsParse] at hparse
  split at hparse
  case isTrue =>
    obtain rfl := Except.ok.inj (Option.some.inj hparse)
    exact Layout.nil.laidOut
  case isFalse =>
    split at hparse
    case isTrue => cases hparse
    case isFalse =>
      split at hparse
      case h_1 => cases hparse
      case h_2 =>
        split at hparse
        case h_1 => cases hparse
        case h_2 laid hlaid =>
          obtain rfl := Except.ok.inj (Option.some.inj hparse)
          exact (layoutNodes_layout .nil hlaid).laidOut

theorem routerbootPartitionsParse_laidOut_empty : LaidOutUnlessMisused emptyMaster emptyParts :=
  routerbootPartitionsParse_laidOut false emptyMaster (rbDynparts false) configNodes true 2 emptyParts
    parse_emptyMaster

/-- Two well-known partitions that are not on the flash: the first one is registered with size 0. -/
theorem routerbootPartitionsParse_misused :
    ∃ parts, routerbootPartitionsParse false emptyMaster (rbDynparts false) configNodes true 2 = some (.ok parts) ∧
      ¬ LaidOut emptyMaster parts := by
  refine ⟨emptyParts, parse_emptyMaster, fun hlaid => ?_⟩
  exact hlaid.sized 0 (by decide) _ rfl rfl

end Immwrt.Routerboot
