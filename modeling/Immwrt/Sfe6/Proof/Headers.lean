import Immwrt.Sfe6.Headers

/-!
# Walking the extension headers

A header is stepped over once the eight bytes after it have been pulled, so the walk ends with the packet
and what a turn reads is there. Where the headers are by their formats is where the walk takes them to be
as long as the second bytes of all fragment and authentication headers are zero.
-/

namespace Immwrt.Sfe6

variable {bytes : Nat → Byte} {pulled : Nat}

/-! ### One turn -/

theorem extHdrLoop_ext {nextHdr : Byte} {ihl : Nat} (hext : isExtHdr nextHdr = true) :
    extHdrLoop bytes pulled nextHdr ihl =
      if nextHdr = extHdrFrag ∧ fragOffset bytes ihl ≠ 0 then .error .nonInitialFragment
      else if pulled < ihl + extHdrLen bytes ihl + 8 then .error .headerIncomplete
      else extHdrLoop bytes pulled (bytes ihl) (ihl + extHdrLen bytes ihl) := by
  rw [extHdrLoop, if_pos hext]

theorem extHdrLoop_upper {nextHdr : Byte} {ihl : Nat} (hext : ¬ isExtHdr nextHdr = true) :
    extHdrLoop bytes pulled nextHdr ihl = .ok (nextHdr, ihl) := by
  rw [extHdrLoop, if_neg hext]

theorem extHdrs_upper {nextHdr : Byte} {ihl : Nat} (hext : ¬ isExtHdr nextHdr = true) :
    extHdrs bytes pulled nextHdr ihl = [] := by
  rw [extHdrs, if_neg fun h => hext h.1]

theorem extHdrs_step {nextHdr : Byte} {ihl : Nat} (hext : isExtHdr nextHdr = true)
    (hfrag : ¬ (nextHdr = extHdrFrag ∧ fragOffset bytes ihl ≠ 0))
    (hroom : ¬ pulled < ihl + extHdrLen bytes ihl + 8) :
    extHdrs bytes pulled nextHdr ihl
      = (nextHdr, ihl) :: extHdrs bytes pulled (bytes ihl) (ihl + extHdrLen bytes ihl) := by
  rw [extHdrs, if_pos ⟨hext, hfrag, not_lt.mp hroom⟩]

theorem extHdrLen_pos (bytes : Nat → Byte) (ihl : Nat) : 8 ≤ extHdrLen bytes ihl := by
  rw [extHdrLen]
  omega

/-! ### The walk ends and stays inside -/

theorem extHdrTurns_ends {n : Nat} {nextHdr : Byte} {ihl : Nat} (hn : pulled - ihl < n) (got : Nat) :
    (extHdrTurns bytes pulled n nextHdr ihl got).1 = some (extHdrLoop bytes pulled nextHdr ihl) := by
  induction n generalizing nextHdr ihl got with
  | zero => omega
  | succ n ih =>
    have hlen := extHdrLen_pos bytes ihl
    rw [extHdrTurns]
    by_cases hext : isExtHdr nextHdr = true
    · rw [if_pos hext, extHdrLoop_ext hext]
      dsimp only
      split
      · rfl
      split
      · rfl
      next hroom =>
      exact ih (by omega) _
    · rw [if_neg hext, extHdrLoop_upper hext]

theorem headerReads_lt (nextHdr : Byte) (ihl : Nat) : ∀ x ∈ headerReads bytes nextHdr ihl, x < ihl + 8 := by
  intro x hx
  rw [headerReads] at hx
  split at hx
  · split at hx
    · simp only [List.mem_cons, List.not_mem_nil, or_false] at hx
      omega
    · simp only [List.mem_cons, List.not_mem_nil, or_false] at hx
      omega
  · simp only [List.mem_cons, List.not_mem_nil, or_false] at hx
    omega

/-- The first eight bytes of a header have been pulled when a turn comes to it. -/
theorem extHdrTurns_reads (n : Nat) {nextHdr : Byte} {ihl got : Nat} (hihl : ihl + 8 ≤ got)
    (hgot : got ≤ pulled) :
    ∀ x ∈ (extHdrTurns bytes pulled n nextHdr ihl got).2, x.1 < x.2 ∧ x.2 ≤ pulled := by
  induction n generalizing nextHdr ihl got with
  | zero => simp [extHdrTurns]
  | succ n ih =>
    have hfirst : ∀ x ∈ (headerReads bytes nextHdr ihl).map fun x => (x, got), x.1 < x.2 ∧ x.2 ≤ pulled := by
      intro x hx
      obtain ⟨off, hoff, rfl⟩ := List.mem_map.mp hx
      exact ⟨lt_of_lt_of_le (headerReads_lt _ _ off hoff) hihl, hgot⟩
    intro x hx
    rw [extHdrTurns] at hx
    split at hx
    · dsimp only at hx
      split at hx
      · exact hfirst x hx
      split at hx
      · exact hfirst x hx
      next hroom =>
      rcases List.mem_append.mp hx with hx | hx
      · exact hfirst x hx
      rcases List.mem_cons.mp hx with rfl | hx
      · exact ⟨by dsimp only; omega, not_lt.mp hroom⟩
      · exact ih le_rfl (not_lt.mp hroom) x hx
    · simp at hx

/-! ### Where the headers are -/

theorem formatLen_eq_iff (bytes : Nat → Byte) {nextHdr : Byte} (ihl : Nat) :
    formatLen bytes (nextHdr, ihl) = extHdrLen bytes ihl ↔ Conforms bytes (nextHdr, ihl) := by
  have hzero : bytes (ihl + 1) = 0 ↔ (bytes (ihl + 1)).toNat = 0 := by
    rw [← BitVec.toNat_inj]
    rfl
  rw [formatLen, extHdrLen, Conforms, hzero]
  dsimp only
  split
  · next hfrag =>
    rw [forall_prop_of_true (.inl hfrag)]
    omega
  next hfrag =>
  split
  · next hah =>
    rw [forall_prop_of_true (.inr hah)]
    omega
  next hah =>
  refine iff_of_true (by ring) ?_
  rintro (h | h)
  · exact absurd h hfrag
  · exact absurd h hah

/-- The walk is at the first header of what is left of it. -/
theorem extHdrs_head (nextHdr : Byte) (ihl : Nat) {h : Byte × Nat}
    (hloop : extHdrLoop bytes pulled nextHdr ihl = .ok h) :
    ∃ rest, extHdrs bytes pulled nextHdr ihl ++ [h] = (nextHdr, ihl) :: rest := by
  by_cases hext : isExtHdr nextHdr = true
  · rw [extHdrLoop_ext hext] at hloop
    split at hloop
    · cases hloop
    next hfrag =>
    split at hloop
    · cases hloop
    next hroom =>
    rw [extHdrs_step hext hfrag hroom]
    exact ⟨_, rfl⟩
  · rw [extHdrLoop_upper hext] at hloop
    rw [extHdrs_upper hext, ← Except.ok.inj hloop]
    exact ⟨[], rfl⟩

/-- The walk takes the steps of the formats if and only if what it steps over conforms. -/
theorem steps_iff {nextHdr : Byte} {ihl : Nat} {h : Byte × Nat}
    (hloop : extHdrLoop bytes pulled nextHdr ihl = .ok h) :
    ((extHdrs bytes pulled nextHdr ihl ++ [h]).IsChain fun h h' => h' = formatNext bytes h) ↔
      ∀ x ∈ extHdrs bytes pulled nextHdr ihl, Conforms bytes x := by
  induction nextHdr, ihl using extHdrLoop.induct bytes pulled with
  | case1 nextHdr ihl hext hfrag =>
    rw [extHdrLoop_ext hext, if_pos hfrag] at hloop
    cases hloop
  | case2 nextHdr ihl hext hfrag hroom =>
    rw [extHdrLoop_ext hext, if_neg hfrag, if_pos hroom] at hloop
    cases hloop
  | case3 nextHdr ihl hext hfrag hroom ih =>
    rw [extHdrLoop_ext hext, if_neg hfrag, if_neg hroom] at hloop
    obtain ⟨rest, hrest⟩ := extHdrs_head _ _ hloop
    have hstep : (bytes ihl, ihl + extHdrLen bytes ihl) = formatNext bytes (nextHdr, ihl) ↔
        Conforms bytes (nextHdr, ihl) := by
      rw [← formatLen_eq_iff, formatNext, Prod.mk.injEq, and_iff_right rfl, Nat.add_left_cancel_iff, eq_comm]
    rw [extHdrs_step hext hfrag hroom, List.cons_append, hrest, List.isChain_cons_cons, hstep, ← hrest, ih hloop,
      List.forall_mem_cons]
  | case4 nextHdr ihl hext =>
    rw [extHdrs_upper hext]
    simp

/-- Then it ends at a header of the chain. -/
theorem inChain_of_conforms {nextHdr : Byte} {ihl : Nat} {h : Byte × Nat}
    (hloop : extHdrLoop bytes pulled nextHdr ihl = .ok h)
    (hall : ∀ x ∈ extHdrs bytes pulled nextHdr ihl, Conforms bytes x) : InChain bytes (nextHdr, ihl) h := by
  induction nextHdr, ihl using extHdrLoop.induct bytes pulled with
  | case1 nextHdr ihl hext hfrag =>
    rw [extHdrLoop_ext hext, if_pos hfrag] at hloop
    cases hloop
  | case2 nextHdr ihl hext hfrag hroom =>
    rw [extHdrLoop_ext hext, if_neg hfrag, if_pos hroom] at hloop
    cases hloop
  | case3 nextHdr ihl hext hfrag hroom ih =>
    rw [extHdrLoop_ext hext, if_neg hfrag, if_neg hroom] at hloop
    rw [extHdrs_step hext hfrag hroom, List.forall_mem_cons] at hall
    apply InChain.next hext
    rw [formatNext, (formatLen_eq_iff bytes ihl).mpr hall.1]
    exact ih hloop hall.2
  | case4 nextHdr ihl hext =>
    rw [extHdrLoop_upper hext] at hloop
    rw [← Except.ok.inj hloop]
    exact .here _

/-- A packet whose first extension header is of type `nextHdr`, with `second` as its second byte and a TCP
header announced after it. -/
def extPacket (nextHdr second : Byte) : Packet :=
  { len := 128
    pulled := 128
    bytes := fun i =>
      if i = 0 then 0x60 else if i = 5 then 88 else if i = 6 then nextHdr
      else if i = 40 then Sfe.ipprotoTcp else if i = 41 then second else 0
    checksumPartial := false
    gso := false
    cloned := false
    unshareFails := false }

/-- Only what the formats put there is in a chain that has come to its end. -/
theorem inChain_upper {h h' : Byte × Nat} (hupper : ¬ isExtHdr h.1 = true) (hchain : InChain bytes h h') :
    h' = h := by
  cases hchain with
  | here => rfl
  | next hext hrest => exact absurd hext hupper

/-- The loop ends at no extension header. -/
theorem extHdrLoop_ok {nextHdr : Byte} {ihl : Nat} {h : Byte × Nat}
    (hloop : extHdrLoop bytes pulled nextHdr ihl = .ok h) : ¬ isExtHdr h.1 = true := by
  induction nextHdr, ihl using extHdrLoop.induct bytes pulled with
  | case1 nextHdr ihl hext hfrag =>
    rw [extHdrLoop_ext hext, if_pos hfrag] at hloop
    cases hloop
  | case2 nextHdr ihl hext hfrag hroom =>
    rw [extHdrLoop_ext hext, if_neg hfrag, if_pos hroom] at hloop
    cases hloop
  | case3 nextHdr ihl hext hfrag hroom ih =>
    rw [extHdrLoop_ext hext, if_neg hfrag, if_neg hroom] at hloop
    exact ih hloop
  | case4 nextHdr ihl hext =>
    rw [extHdrLoop_upper hext] at hloop
    rw [← Except.ok.inj hloop]
    exact hext

/-- The loop has stepped over nothing if it ends at once. -/
theorem extHdrLoop_of_extHdrs_nil {nextHdr : Byte} {ihl : Nat} {h : Byte × Nat}
    (hloop : extHdrLoop bytes pulled nextHdr ihl = .ok h) (hnil : extHdrs bytes pulled nextHdr ihl = []) :
    h = (nextHdr, ihl) := by
  obtain ⟨rest, hrest⟩ := extHdrs_head _ _ hloop
  rw [hnil] at hrest
  exact (List.cons.inj hrest).1

/-- An extension header that does not conform puts the header after it in the wrong place. -/
theorem not_inChain_of_last {nextHdr : Byte} {ihl : Nat} {h x : Byte × Nat} {front : List (Byte × Nat)}
    (hloop : extHdrLoop bytes pulled nextHdr ihl = .ok h)
    (hstepped : extHdrs bytes pulled nextHdr ihl = front ++ [x])
    (hfront : ∀ y ∈ front, Conforms bytes y) (hlast : ¬ Conforms bytes x) : ¬ InChain bytes (nextHdr, ihl) h := by
  induction nextHdr, ihl using extHdrLoop.induct bytes pulled generalizing front with
  | case1 nextHdr ihl hext hfrag =>
    rw [extHdrLoop_ext hext, if_pos hfrag] at hloop
    cases hloop
  | case2 nextHdr ihl hext hfrag hroom =>
    rw [extHdrLoop_ext hext, if_neg hfrag, if_pos hroom] at hloop
    cases hloop
  | case3 nextHdr ihl hext hfrag hroom ih =>
    rw [extHdrLoop_ext hext, if_neg hfrag, if_neg hroom] at hloop
    rw [extHdrs_step hext hfrag hroom] at hstepped
    have hupper := extHdrLoop_ok hloop
    intro hchain
    cases hchain with
    | here => exact hupper hext
    | next _ hrest =>
      cases front with
      | nil =>
        obtain ⟨rfl, hnil⟩ := List.cons.inj hstepped
        have hend := extHdrLoop_of_extHdrs_nil hloop hnil
        rw [hend] at hrest hupper
        have hnext : ¬ isExtHdr (formatNext bytes (nextHdr, ihl)).1 = true := hupper
        have hplace := (Prod.ext_iff.mp (inChain_upper hnext hrest)).2
        exact hlast ((formatLen_eq_iff bytes ihl).mp (Nat.add_left_cancel hplace.symm))
      | cons y front =>
        obtain ⟨rfl, hothers⟩ := List.cons.inj hstepped
        rw [List.forall_mem_cons] at hfront
        rw [formatNext, (formatLen_eq_iff bytes ihl).mpr hfront.1] at hrest
        exact ih hloop hothers hfront.2 hrest
  | case4 nextHdr ihl hext =>
    rw [extHdrs_upper hext] at hstepped
    simp at hstepped

end Immwrt.Sfe6
