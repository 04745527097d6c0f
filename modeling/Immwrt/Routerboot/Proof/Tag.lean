import Immwrt.Routerboot.Config

/-!
# Searching for a tag

The lengths of the nodes are rounded up in 16 bits and the offset of the payload is returned in 16 bits, and
the payload may run past the end of the buffer. The search is right when none of this happens.
-/

namespace Immwrt.Routerboot

section

variable (big : Bool) (buf : List Byte)

/-- The payload of the first node with a tag in the chain of nodes from `ofs` on: its offset and its
length. -/
def firstTag (tagId : HalfWord) (ofs : Nat) : Option (Nat × Nat) :=
  if ofs < buf.length then
    let node := nodeAt big buf ofs
    if node = 0 then none
    else if nodeId node = tagId then some (ofs + 4, (nodeLen node).toNat)
    else firstTag tagId (ofs + 4 + ((nodeLen node).toNat + 3) / 4 * 4)
  else none
termination_by buf.length - ofs

/-- The nodes from `ofs` on, with their offsets, when lengths are rounded up in 16 bits. -/
def nodesFrom (ofs : Nat) : List (Nat × Word) :=
  if ofs < buf.length then
    let node := nodeAt big buf ofs
    if node = 0 then []
    else (ofs, node) :: nodesFrom (ofs + 4 + (alignUp 2 (nodeLen node)).toNat)
  else []
termination_by buf.length - ofs

/-- What is found is the payload of the first node with the tag, and both the search and the payload lie inside
the buffer. -/
structure TagSound (tagId : HalfWord) (found : Traced Nat (Except Errno (HalfWord × HalfWord))) : Prop where
  inside : found.Every (· < buf.length)
  payload : ∀ pldOfs pldLen, found.val = .ok (pldOfs, pldLen) →
    firstTag big buf tagId 0 = some (pldOfs.toNat, pldLen.toNat) ∧
      pldOfs.toNat + pldLen.toNat ≤ buf.length

/-- The first of the nodes with the tag, unless it is the last word of the buffer, has an offset of 16 bits
and a payload inside the buffer, and no length before it is rounded to 0. -/
def TagInBounds (tagId : HalfWord) : Prop :=
  ∀ before ofs node after, nodesFrom big buf 0 = before ++ (ofs, node) :: after →
    (∀ b ∈ before, nodeId b.2 ≠ tagId) → nodeId node = tagId → ofs + 4 < buf.length →
    ofs + 4 < 2 ^ 16 ∧ ofs + 4 + (nodeLen node).toNat ≤ buf.length ∧
      ∀ b ∈ before, (nodeLen b.2).toNat ≤ 65532

end

section

variable {big : Bool} {buf : List Byte} {tagId : HalfWord}

theorem alignUp_of_le {len : HalfWord} (hle : len.toNat ≤ 65532) :
    (alignUp 2 len).toNat = (len.toNat + 3) / 4 * 4 := by
  rw [toNat_alignUp (by omega), Nat.mod_eq_of_lt (by omega)]
  rfl

/-! ### The search -/

theorem every_tagFindLoop (hbuf : 4 ∣ buf.length) {ofs : Nat} (hofs : 4 ∣ ofs) :
    (tagFindLoop big buf tagId ofs).Every (· < buf.length) := by
  fun_induction tagFindLoop big buf tagId ofs with
  | case1 ofs hlt ih =>
      have hread : ∀ i ∈ List.range' ofs 4, i < buf.length := by
        intro i hi
        rw [List.mem_range'_1] at hi
        omega
      have hnext : 4 ∣ ofs + 4 + (alignUp 2 (nodeLen (nodeAt big buf ofs))).toNat := by
        rw [toNat_alignUp (by omega)]
        omega
      simp only [Traced.every_bind, Traced.every_forM, Traced.every_emit, Traced.every_ite, Traced.every_pure]
      exact ⟨hread, fun _ => trivial, fun _ => ⟨fun _ => ⟨fun _ => trivial, fun _ => trivial⟩, fun _ => ih hnext⟩⟩
  | case2 ofs hge => exact Traced.every_pure _

/-- How the search ends, by the node that it meets. -/
def reported (buf : List Byte) : Option (Nat × Word) → Except Errno (HalfWord × HalfWord)
  | none => .error .enoent
  | some (ofs, node) =>
    if buf.length ≤ ofs + 4 then .error .enoent else .ok (BitVec.ofNat 16 (ofs + 4), nodeLen node)

theorem val_tagFindLoop (ofs : Nat) :
    (tagFindLoop big buf tagId ofs).val =
      reported buf ((nodesFrom big buf ofs).find? fun b => nodeId b.2 = tagId) := by
  fun_induction nodesFrom big buf ofs with
  | case1 ofs hlt node hzero =>
      rw [tagFindLoop, if_pos hlt]
      simp only [Traced.val_bind]
      rw [if_pos hzero]
      rfl
  | case2 ofs hlt node hnode ih =>
      rw [tagFindLoop, if_pos hlt]
      simp only [Traced.val_bind]
      rw [if_neg hnode]
      by_cases hid : nodeId node = tagId
      · rw [if_pos hid.symm, List.find?_cons_of_pos (by simpa using hid), reported]
        split
        · rfl
        · rfl
      · rw [if_neg (Ne.symm hid), List.find?_cons_of_neg (by simpa using hid)]
        exact ih
  | case3 ofs hge =>
      rw [tagFindLoop, if_neg hge]
      rfl

/-! ### The chain -/

theorem lt_of_firstTag {ofs pldOfs pldLen : Nat} (hfirst : firstTag big buf tagId ofs = some (pldOfs, pldLen)) :
    ofs < pldOfs := by
  fun_induction firstTag big buf tagId ofs with
  | case1 => cases hfirst
  | case2 ofs hlt node hnode hid =>
      obtain ⟨rfl, -⟩ := Prod.mk.inj (Option.some.inj hfirst)
      omega
  | case3 ofs hlt node hnode hid ih =>
      have := ih hfirst
      omega
  | case4 => cases hfirst

theorem nodesFrom_eq_cons {ofs : Nat} {b : Nat × Word} {rest : List (Nat × Word)}
    (hnodes : nodesFrom big buf ofs = b :: rest) :
    ofs < buf.length ∧ nodeAt big buf ofs ≠ 0 ∧ b = (ofs, nodeAt big buf ofs) ∧
      nodesFrom big buf (ofs + 4 + (alignUp 2 (nodeLen (nodeAt big buf ofs))).toNat) = rest := by
  rw [nodesFrom] at hnodes
  by_cases hlt : ofs < buf.length
  · by_cases hnode : nodeAt big buf ofs = 0
    · simp [hlt, hnode] at hnodes
    · simp only [if_pos hlt, if_neg hnode, List.cons.injEq] at hnodes
      exact ⟨hlt, hnode, hnodes.1.symm, hnodes.2⟩
  · rw [if_neg hlt] at hnodes
    cases hnodes

theorem firstTag_of_node {ofs : Nat} (hlt : ofs < buf.length) (hnode : nodeAt big buf ofs ≠ 0) :
    firstTag big buf tagId ofs =
      if nodeId (nodeAt big buf ofs) = tagId then some (ofs + 4, (nodeLen (nodeAt big buf ofs)).toNat)
      else firstTag big buf tagId (ofs + 4 + ((nodeLen (nodeAt big buf ofs)).toNat + 3) / 4 * 4) := by
  rw [firstTag]
  simp only [if_pos hlt, if_neg hnode]

/-- Without a length that is rounded to 0 the nodes are those of the chain. -/
theorem firstTag_of_nodes {ofs pld : Nat} {before after : List (Nat × Word)} {node : Word}
    (hnodes : nodesFrom big buf ofs = before ++ (pld, node) :: after)
    (hbefore : ∀ b ∈ before, nodeId b.2 ≠ tagId) (hid : nodeId node = tagId)
    (hlens : ∀ b ∈ before, (nodeLen b.2).toNat ≤ 65532) :
    firstTag big buf tagId ofs = some (pld + 4, (nodeLen node).toNat) := by
  induction before generalizing ofs with
  | nil =>
      obtain ⟨hlt, hnode, hfirst, -⟩ := nodesFrom_eq_cons hnodes
      obtain ⟨rfl, rfl⟩ := Prod.mk.inj hfirst
      rw [firstTag_of_node hlt hnode, if_pos hid]
  | cons first before ih =>
      rw [List.forall_mem_cons] at hbefore hlens
      obtain ⟨hlt, hnode, rfl, hrest⟩ := nodesFrom_eq_cons hnodes
      rw [firstTag_of_node hlt hnode, if_neg hbefore.1, ← alignUp_of_le hlens.1]
      exact ih hrest hbefore.2 hlens.2

/-- Behind a length that is rounded to 0 the chain goes on further than offsets of 16 bits reach. -/
theorem le_of_firstTag_of_wide {ofs pldOfs pldLen : Nat} {before after : List (Nat × Word)}
    (hnodes : nodesFrom big buf ofs = before ++ after) (hbefore : ∀ b ∈ before, nodeId b.2 ≠ tagId)
    (hwide : ∃ b ∈ before, 65532 < (nodeLen b.2).toNat)
    (hfirst : firstTag big buf tagId ofs = some (pldOfs, pldLen)) : 2 ^ 16 ≤ pldOfs := by
  induction before generalizing ofs with
  | nil =>
      obtain ⟨b, hb, -⟩ := hwide
      cases hb
  | cons first before ih =>
      rw [List.forall_mem_cons] at hbefore
      obtain ⟨hlt, hnode, rfl, hrest⟩ := nodesFrom_eq_cons hnodes
      rw [firstTag_of_node hlt hnode, if_neg hbefore.1] at hfirst
      by_cases hlen : 65532 < (nodeLen (nodeAt big buf ofs)).toNat
      · have := lt_of_firstTag hfirst
        omega
      · rw [← alignUp_of_le (by omega)] at hfirst
        refine ih hrest hbefore.2 ?_ hfirst
        obtain ⟨b, hb, hwide⟩ := hwide
        rcases List.mem_cons.1 hb with rfl | hb
        · exact absurd hwide hlen
        · exact ⟨b, hb, hwide⟩

/-! ### Soundness -/

theorem find?_nodes {pld : Nat} {node : Word} :
    ((nodesFrom big buf 0).find? fun b => nodeId b.2 = tagId) = some (pld, node) ↔
      nodeId node = tagId ∧ ∃ before after, nodesFrom big buf 0 = before ++ (pld, node) :: after ∧
        ∀ b ∈ before, nodeId b.2 ≠ tagId := by
  rw [List.find?_eq_some_iff_append]
  simp

/-- The search for a tag is sound if and only if the first node with the tag is in bounds. -/
theorem routerbootTagFind_sound_iff (big : Bool) (buf : List Byte) (tagId : HalfWord)
    (hbuf : 4 ∣ buf.length) :
    TagSound big buf tagId (routerbootTagFind big buf tagId) ↔ tagId = 0 ∨ TagInBounds big buf tagId := by
  rw [routerbootTagFind]
  by_cases htag : tagId = 0
  · rw [if_pos htag]
    exact iff_of_true ⟨Traced.every_pure _, fun _ _ h => nomatch h⟩ (Or.inl htag)
  · rw [if_neg htag, or_iff_right htag]
    constructor
    · intro hsound before ofs node after hnodes hbefore hid hroom
      have hval := @val_tagFindLoop big buf tagId 0
      rw [find?_nodes.2 ⟨hid, before, after, hnodes, hbefore⟩, reported, if_neg (by omega)] at hval
      obtain ⟨hfirst, hinside⟩ := hsound.payload _ _ hval
      have hlens : ∀ b ∈ before, (nodeLen b.2).toNat ≤ 65532 := by
        by_contra hwide
        push Not at hwide
        have := le_of_firstTag_of_wide hnodes hbefore hwide hfirst
        have := (BitVec.ofNat 16 (ofs + 4)).isLt
        omega
      have hchain := firstTag_of_nodes hnodes hbefore hid hlens
      have hpld : (BitVec.ofNat 16 (ofs + 4)).toNat = ofs + 4 :=
        (Prod.mk.inj (Option.some.inj (hfirst.symm.trans hchain))).1
      have := (BitVec.ofNat 16 (ofs + 4)).isLt
      exact ⟨by omega, by omega, hlens⟩
    · intro hbounds
      refine ⟨every_tagFindLoop hbuf (Nat.dvd_zero 4), fun pldOfs pldLen hval => ?_⟩
      rw [val_tagFindLoop] at hval
      cases hfind : (nodesFrom big buf 0).find? fun b => nodeId b.2 = tagId with
      | none =>
          rw [hfind] at hval
          cases hval
      | some found =>
          obtain ⟨ofs, node⟩ := found
          obtain ⟨hid, before, after, hnodes, hbefore⟩ := find?_nodes.1 hfind
          rw [hfind, reported] at hval
          split at hval
          case isTrue => cases hval
          case isFalse hroom =>
            obtain ⟨hofs, hinside, hlens⟩ := hbounds before ofs node after hnodes hbefore hid (by omega)
            obtain ⟨rfl, rfl⟩ := Prod.mk.inj (Except.ok.inj hval)
            rw [BitVec.toNat_ofNat, Nat.mod_eq_of_lt hofs]
            exact ⟨firstTag_of_nodes hnodes hbefore hid hlens, hinside⟩

end

theorem routerbootTagFind_sound_iff_one :
    TagSound false [1, 0, 4, 0, 7, 7, 7, 7] 1 (routerbootTagFind false [1, 0, 4, 0, 7, 7, 7, 7] 1) := by
  refine (routerbootTagFind_sound_iff false _ 1 (by decide)).2 (Or.inr ?_)
  intro before ofs node after hnodes hbefore hid hroom
  have hfirst : nodesFrom false [1, 0, 4, 0, 7, 7, 7, 7] 0 = [(0, 0x40001)] := by
    rw [nodesFrom, if_pos (by decide)]
    simp only [show nodeAt false [1, 0, 4, 0, 7, 7, 7, 7] 0 = 0x40001 by decide]
    rw [if_neg (by decide), nodesFrom, if_neg (by decide)]
  rw [hfirst] at hnodes
  obtain ⟨rfl, hlast⟩ | ⟨-, hrest⟩ := List.singleton_eq_append_iff.1 hnodes
  · obtain ⟨⟨rfl, rfl⟩, -⟩ : (ofs = 0 ∧ node = (0x40001 : Word)) ∧ after = [] := by simpa using hlast
    decide
  · cases hrest

/-- A payload of 8 bytes where 4 bytes are left. -/
theorem routerbootTagFind_unsound :
    ¬ TagSound false [1, 0, 8, 0, 7, 7, 7, 7] 1 (routerbootTagFind false [1, 0, 8, 0, 7, 7, 7, 7] 1) := by
  intro hsound
  have hval : (routerbootTagFind false [1, 0, 8, 0, 7, 7, 7, 7] 1).val = .ok (4, 8) := by
    rw [routerbootTagFind, if_neg (by decide), tagFindLoop, if_pos (by decide)]
    rfl
  exact absurd (hsound.payload 4 8 hval).2 (by decide)

end Immwrt.Routerboot
