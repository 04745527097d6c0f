import Immwrt.Tffs.Nor

/-!
# Sound searches in a TFFS image

As long as offsets do not wrap, a search goes along the headers of the image. It reads a header before it has seen
that there is room for one, and a value without having seen its end.
-/

namespace Immwrt.Tffs.Nor

variable {nor : Nor} {id : HalfWord}

/-! ### One turn -/

theorem load_eq {off len : Nat} (h : off + len ≤ nor.buffer.length) :
    nor.load off len = .ok (slice nor.buffer off len) := if_pos h

theorem load_error {off len : Nat} (h : nor.buffer.length < off + len) : nor.load off len = .error .overrun :=
  if_neg (by omega)

theorem append_eq_end_iff (a b : Byte) : a ++ b = tffsIdEnd ↔ a = 0xff ∧ b = 0xff := by
  constructor
  · intro h
    have hhigh := congrArg (BitVec.extractLsb' 8 8) h
    have hlow := congrArg (BitVec.extractLsb' 0 8) h
    rw [BitVec.extractLsb'_append_eq_left] at hhigh
    rw [BitVec.extractLsb'_append_eq_right] at hlow
    exact ⟨hhigh, hlow⟩
  · rintro ⟨rfl, rfl⟩
    rfl

/-- The end marker reads the same in either order. -/
theorem cpuHalf_eq_end_iff (bytes : List Byte) :
    nor.cpuHalf bytes = tffsIdEnd ↔ nor.getHalf bytes = tffsIdEnd := by
  have hsame : ofBe16 bytes = tffsIdEnd ↔ ofLe16 bytes = tffsIdEnd := by
    rw [ofBe16, ofLe16, append_eq_end_iff, append_eq_end_iff, and_comm]
  cases hbig : nor.bigEndian <;> cases hswap : nor.swapBytes <;> simp [getHalf, cpuHalf, hbig, hswap, hsame]

theorem lenAt_lt (pos : Nat) : nor.lenAt pos < 2 ^ 16 := (nor.getHalf _).isLt

theorem toNat_walkSize (len : Word) (hlen : len.toNat + 3 < 2 ^ 32) :
    (walkSize len).toNat = (len.toNat + 3) / 4 * 4 := by
  rw [walkSize, toNat_alignUp (by omega)]
  omega

/-- The offset of the next header. -/
def nextAt (nor : Nor) (pos : Word) : Word := BitVec.ofNat 32 (nor.stop pos.toNat)

theorem findTurn_eq {pos : Word} (hroom : pos.toNat + 4 ≤ nor.buffer.length) :
    nor.findTurn id pos =
      if nor.idAt pos.toNat = id then .inl (.ok (some pos))
      else if (nor.nextAt pos).toNat < nor.buffer.length ∧ nor.idAt pos.toNat ≠ tffsIdEnd then .inr (nor.nextAt pos)
      else .inl (.ok none) := by
  have hnext : pos + 4 + walkSize ((nor.getHalf (slice nor.buffer (pos.toNat + 2) 2)).setWidth 32) =
      nor.nextAt pos := by
    have hlen : (nor.getHalf (slice nor.buffer (pos.toNat + 2) 2)).toNat = nor.lenAt pos.toNat := rfl
    have hlt := nor.lenAt_lt pos.toNat
    have hwide : ((nor.getHalf (slice nor.buffer (pos.toNat + 2) 2)).setWidth 32).toNat = nor.lenAt pos.toNat := by
      rw [BitVec.toNat_setWidth, hlen, Nat.mod_eq_of_lt (by omega)]
    have hfour : (4 : Word).toNat = 4 := rfl
    apply BitVec.eq_of_toNat_eq
    rw [BitVec.toNat_add, BitVec.toNat_add, toNat_walkSize _ (by omega), hwide, hfour, nextAt, BitVec.toNat_ofNat, stop,
      Nat.mod_add_mod]
  rw [findTurn, load_eq (by omega)]
  dsimp only
  rw [load_eq (by omega)]
  dsimp only
  rw [hnext, idAt]
  simp only [Ne, cpuHalf_eq_end_iff]

/-- What becomes of a header for which there is no room. -/
theorem findTurn_of_lt (id : HalfWord) {pos : Word} (hroom : nor.buffer.length < pos.toNat + 4) :
    nor.findTurn id pos = .inl (.error .overrun) ∨
      nor.findTurn id pos = .inl (.ok (some pos)) := by
  rw [findTurn]
  by_cases hid : pos.toNat + 2 ≤ nor.buffer.length
  · rw [load_eq hid]
    dsimp only
    split
    · exact .inr rfl
    · rw [load_error (by omega)]
      exact .inl rfl
  · rw [load_error (by omega)]
    exact .inl rfl

/-! ### The chain -/

theorem InChain.room {pos : Nat} (h : nor.InChain pos) : pos + 4 ≤ nor.buffer.length := by
  cases h with
  | start hroom => exact hroom
  | next _ _ hroom => exact hroom

theorem lt_stop (nor : Nor) (pos : Nat) : pos + 4 ≤ nor.stop pos ∧ nor.stop pos < pos + 2 ^ 17 := by
  have hlen := nor.lenAt_lt pos
  rw [stop]
  omega

/-- The offset after one, if neither the id nor the end is there. -/
def chainNext (nor : Nor) (id : HalfWord) (pos : Word) : Option Word :=
  if nor.idAt pos.toNat = id ∨ nor.idAt pos.toNat = tffsIdEnd then none
  else if (nor.nextAt pos).toNat < nor.buffer.length then some (nor.nextAt pos)
  else none

/-- The offsets of a search. -/
def offsetAt (nor : Nor) (id : HalfWord) (k : Nat) : Option Word := Partial.iterate (nor.chainNext id) k 0

/-- A search wraps after an offset. -/
def WrapsAt (nor : Nor) (id : HalfWord) (k : Nat) : Prop :=
  ∃ pos next, nor.offsetAt id k = some pos ∧ nor.offsetAt id (k + 1) = some next ∧ next.toNat < pos.toNat

/-- A search reads headers that are there. -/
def HeadersInside (nor : Nor) (id : HalfWord) : Prop :=
  ∀ k pos, nor.offsetAt id k = some pos → pos.toNat + 4 ≤ nor.buffer.length

theorem offsetAt_succ (k : Nat) : nor.offsetAt id (k + 1) = (nor.offsetAt id k).bind (nor.chainNext id) :=
  Partial.iterate_succ k 0

theorem chainNext_eq_some {pos next : Word} :
    nor.chainNext id pos = some next ↔
      nor.idAt pos.toNat ≠ id ∧ nor.idAt pos.toNat ≠ tffsIdEnd ∧ (nor.nextAt pos).toNat < nor.buffer.length ∧
        nor.nextAt pos = next := by
  rw [chainNext]
  by_cases hid : nor.idAt pos.toNat = id
  · simp [hid]
  · by_cases hend : nor.idAt pos.toNat = tffsIdEnd
    · simp [hend]
    · simp [hid, hend]

/-- The offset after one, if the search goes on. -/
theorem offsetAt_next {k : Nat} {pos next : Word} (hpos : nor.offsetAt id k = some pos)
    (hnext : nor.offsetAt id (k + 1) = some next) :
    nor.idAt pos.toNat ≠ id ∧ nor.idAt pos.toNat ≠ tffsIdEnd ∧ next = nor.nextAt pos := by
  rw [offsetAt_succ, hpos, Option.bind_some, chainNext_eq_some] at hnext
  obtain ⟨hid, hend, -, rfl⟩ := hnext
  exact ⟨hid, hend, rfl⟩

theorem nextAt_of_lt {pos : Word} (h : nor.stop pos.toNat < 2 ^ 32) : (nor.nextAt pos).toNat = nor.stop pos.toNat := by
  rw [nextAt, BitVec.toNat_ofNat, Nat.mod_eq_of_lt h]

theorem nextAt_of_le {pos : Word} (h : 2 ^ 32 ≤ nor.stop pos.toNat) : (nor.nextAt pos).toNat < pos.toNat := by
  have := nor.lt_stop pos.toNat
  rw [nextAt, BitVec.toNat_ofNat]
  omega

/-- As long as it does not wrap, a search goes along the chain. -/
theorem inChain_of_offsetAt (hheaders : nor.HeadersInside id) {k : Nat} (hstraight : ∀ j < k, ¬ nor.WrapsAt id j)
    {pos : Word} (hpos : nor.offsetAt id k = some pos) : nor.InChain pos.toNat := by
  induction k generalizing pos with
  | zero =>
      obtain rfl := Option.some.inj hpos
      exact .start (hheaders 0 0 rfl)
  | succ k ih =>
      obtain ⟨prior, hprior, -⟩ := Option.bind_eq_some_iff.1 ((offsetAt_succ k).symm.trans hpos)
      obtain ⟨-, hend, rfl⟩ := offsetAt_next hprior hpos
      have hlt : nor.stop prior.toNat < 2 ^ 32 := by
        by_contra hwrap
        exact hstraight k (Nat.lt_succ_self k) ⟨prior, _, hprior, hpos, nextAt_of_le (Nat.le_of_not_lt hwrap)⟩
      have hroom := hheaders _ _ hpos
      rw [nextAt_of_lt hlt] at hroom ⊢
      exact .next (ih (fun j hj => hstraight j (by omega)) hprior) hend hroom

/-- A header of the chain is come to before the search wraps, or the search has found an entry or wrapped before. -/
theorem InChain.offsetAt_eq (id : HalfWord) {pos : Nat} (h : nor.InChain pos) :
    ∃ k at', (∀ j < k, ¬ nor.WrapsAt id j) ∧ nor.offsetAt id k = some at' ∧
      (at'.toNat = pos ∨ (nor.idAt at'.toNat = id ∧ at'.toNat < pos) ∨ (nor.WrapsAt id k ∧ 2 ^ 32 ≤ pos)) := by
  induction h with
  | start => exact ⟨0, 0, fun j hj => absurd hj (Nat.not_lt_zero j), rfl, .inl rfl⟩
  | @next pos hchain hend hroom ih =>
      obtain ⟨k, at', hstraight, hat, rfl | ⟨hid, hlt⟩ | ⟨hwraps, hlarge⟩⟩ := ih
      · have hstop := nor.lt_stop at'.toNat
        by_cases hid : nor.idAt at'.toNat = id
        · exact ⟨k, at', hstraight, hat, .inr (.inl ⟨hid, by omega⟩)⟩
        have hgo : (nor.nextAt at').toNat < nor.buffer.length → nor.offsetAt id (k + 1) = some (nor.nextAt at') := by
          intro hlt
          rw [offsetAt_succ, hat, Option.bind_some, chainNext_eq_some]
          exact ⟨hid, hend, hlt, rfl⟩
        by_cases hwrap : nor.stop at'.toNat < 2 ^ 32
        · have hnext := nextAt_of_lt hwrap
          refine ⟨k + 1, nor.nextAt at', fun j hj => ?_, hgo (by omega), .inl hnext⟩
          rcases Nat.lt_succ_iff_lt_or_eq.1 hj with hlt | rfl
          · exact hstraight j hlt
          · rintro ⟨pos', next, hpos', hnext', hlt⟩
            obtain rfl := Option.some.inj (hat.symm.trans hpos')
            obtain rfl := Option.some.inj ((hgo (by omega)).symm.trans hnext')
            omega
        · have hback := nextAt_of_le (Nat.le_of_not_lt hwrap)
          exact ⟨k, at', hstraight, hat, .inr (.inr ⟨⟨at', _, hat, hgo (by omega), hback⟩, by omega⟩)⟩
      · have := nor.lt_stop pos
        exact ⟨k, at', hstraight, hat, .inr (.inl ⟨hid, by omega⟩)⟩
      · have := nor.lt_stop pos
        exact ⟨k, at', hstraight, hat, .inr (.inr ⟨hwraps, by omega⟩)⟩

/-- A search that wraps has gone past all entries below the place where it does. -/
theorem EntryWith.not_wrapsAt {pos : Word} (h : nor.EntryWith id pos.toNat) (k : Nat) : ¬ nor.WrapsAt id k := by
  intro hwraps
  obtain ⟨j, at', hstraight, hat, hcase⟩ := h.1.offsetAt_eq id
  have hle : j ≤ k := by
    by_contra hlt
    exact hstraight k (by omega) hwraps
  -- the search goes on from here
  obtain ⟨next, hnext⟩ : ∃ next, nor.offsetAt id (j + 1) = some next := by
    obtain ⟨-, next, -, hnext, -⟩ := hwraps
    rw [← Option.ne_none_iff_exists']
    intro hnone
    rw [offsetAt, Partial.iterate_none_of_le hnone (by omega)] at hnext
    cases hnext
  have hid := (offsetAt_next hat hnext).1
  rcases hcase with heq | ⟨hfound, -⟩ | ⟨-, hlarge⟩
  · exact hid (heq ▸ h.2.2)
  · exact hid hfound
  · exact absurd pos.isLt (Nat.not_lt.2 hlarge)

/-- A search is over at one offset only. -/
theorem offsetAt_last {j k : Nat} {a b : Word} (ha : nor.offsetAt id j = some a) (hlasta : nor.chainNext id a = none)
    (hb : nor.offsetAt id k = some b) (hlastb : nor.chainNext id b = none) : a = b := by
  have hle : ∀ {j k : Nat} {a b : Word}, nor.offsetAt id j = some a → nor.chainNext id a = none →
      nor.offsetAt id k = some b → k ≤ j := by
    intro j k a b ha hlast hb
    by_contra hlt
    have hnone : nor.offsetAt id (j + 1) = none := by rw [offsetAt_succ, ha, Option.bind_some, hlast]
    rw [offsetAt, Partial.iterate_none_of_le hnone (by omega)] at hb
    cases hb
  obtain rfl := Nat.le_antisymm (hle ha hlasta hb) (hle hb hlastb ha)
  exact Option.some.inj (ha.symm.trans hb)

theorem chainNext_of_found {pos : Word} (hid : nor.idAt pos.toNat = id) : nor.chainNext id pos = none := by
  rw [chainNext, if_pos (.inl hid)]

/-- A search that does not wrap comes to an entry with the id if there is one, and to none behind it. -/
theorem EntryWith.found (hstraight : ∀ k, ¬ nor.WrapsAt id k) {pos : Nat} (h : nor.EntryWith id pos) :
    ∃ k at', nor.offsetAt id k = some at' ∧ nor.idAt at'.toNat = id ∧ at'.toNat ≤ pos := by
  obtain ⟨k, at', -, hat, rfl | ⟨hid, hlt⟩ | ⟨hwraps, -⟩⟩ := h.1.offsetAt_eq id
  · exact ⟨k, at', hat, h.2.2, le_rfl⟩
  · exact ⟨k, at', hat, hid, hlt.le⟩
  · exact absurd hwraps (hstraight k)

/-! ### Searches -/

/-- The search ends at an entry or at none, as is right. -/
def FoundRight (nor : Nor) (id : HalfWord) (result : Except Fault (Option Word)) : Prop :=
  ∃ found, result = .ok found ∧ nor.FindRight id found

theorem next_findTurn {pos : Word} (hroom : pos.toNat + 4 ≤ nor.buffer.length) :
    Loop.next (nor.findTurn id) pos = nor.chainNext id pos := by
  apply Option.ext
  intro next
  rw [Loop.next_eq_some, chainNext_eq_some, findTurn_eq hroom]
  by_cases hid : nor.idAt pos.toNat = id
  · simp [hid]
  · by_cases hgo : (nor.nextAt pos).toNat < nor.buffer.length ∧ nor.idAt pos.toNat ≠ tffsIdEnd
    · simp [hid, hgo]
    · simp only [hid, if_false, hgo]
      tauto

/-- A header that is not there is read, or taken for one that is. -/
theorem not_foundRight_of_lt {pos : Word} (hroom : ¬ pos.toNat + 4 ≤ nor.buffer.length) :
    ∃ result, nor.findTurn id pos = .inl result ∧ ¬ nor.FoundRight id result := by
  rcases findTurn_of_lt id (Nat.lt_of_not_le hroom) with hturn | hturn
  · refine ⟨_, hturn, ?_⟩
    rintro ⟨found, hfound, -⟩
    cases hfound
  · refine ⟨_, hturn, ?_⟩
    rintro ⟨found, hfound, hright⟩
    cases hfound
    exact hroom hright.1.1.room

theorem finds_iff :
    (∃ fuel found, nor.findEntry id fuel = some (.ok found) ∧ nor.FindRight id found) ↔
      Partial.Ends (nor.chainNext id) 0 ∧
        ∀ k pos, nor.offsetAt id k = some pos → pos.toNat + 4 ≤ nor.buffer.length ∧
          ∀ result, nor.findTurn id pos = .inl result → nor.FoundRight id result := by
  refine Iff.trans ?_ (Loop.exists_returns_and_iff (fun pos : Word => pos.toNat + 4 ≤ nor.buffer.length)
    (fun pos hroom => next_findTurn hroom) (fun pos hroom => not_foundRight_of_lt hroom))
  constructor
  · rintro ⟨fuel, found, hfound, hright⟩
    exact ⟨_, ⟨fuel, hfound⟩, found, rfl, hright⟩
  · rintro ⟨_, ⟨fuel, hfound⟩, found, rfl, hright⟩
    exact ⟨fuel, found, hfound, hright⟩

/-- What a search ends with where it is over. -/
theorem findTurn_last {pos : Word} (hroom : pos.toNat + 4 ≤ nor.buffer.length) (hlast : nor.chainNext id pos = none) :
    nor.findTurn id pos = .inl (.ok (if nor.idAt pos.toNat = id then some pos else none)) := by
  rw [findTurn_eq hroom]
  by_cases hid : nor.idAt pos.toNat = id
  · rw [if_pos hid, if_pos hid]
  · rw [if_neg hid, if_neg hid, if_neg]
    rintro ⟨hlt, hend⟩
    exact Option.some_ne_none _ ((chainNext_eq_some.2 ⟨hid, hend, hlt, rfl⟩).symm.trans hlast)

theorem chainNext_of_findTurn {pos : Word} {result : Except Fault (Option Word)}
    (hroom : pos.toNat + 4 ≤ nor.buffer.length) (hturn : nor.findTurn id pos = .inl result) :
    nor.chainNext id pos = none := by
  rw [← next_findTurn hroom, Loop.next, hturn]
  rfl

/-- No offset comes twice. -/
def Distinct (nor : Nor) (id : HalfWord) : Prop :=
  ∀ i j, i < j → nor.offsetAt id i ≠ none → nor.offsetAt id i ≠ nor.offsetAt id j

theorem ends_iff_distinct : Partial.Ends (nor.chainNext id) 0 ↔ nor.Distinct id := Partial.ends_iff

/-- A search that does not wrap goes forward. -/
theorem distinct_of_straight (hstraight : ∀ k, ¬ nor.WrapsAt id k) : nor.Distinct id := by
  have hforward : ∀ {k : Nat} {pos next : Word}, nor.offsetAt id k = some pos →
      nor.offsetAt id (k + 1) = some next → pos.toNat < next.toNat := by
    intro k pos next hpos hnext
    have hstop := nor.lt_stop pos.toNat
    have hle : pos.toNat ≤ next.toNat := Nat.le_of_not_lt fun hlt => hstraight k ⟨pos, next, hpos, hnext, hlt⟩
    obtain ⟨-, -, rfl⟩ := offsetAt_next hpos hnext
    by_contra hback
    have hwrap : 2 ^ 32 ≤ nor.stop pos.toNat := by
      by_contra hlt
      rw [nextAt_of_lt (Nat.lt_of_not_le hlt)] at hback
      omega
    exact absurd (nextAt_of_le hwrap) (Nat.not_lt.2 hle)
  have hlater : ∀ {i n : Nat} {a b : Word}, nor.offsetAt id i = some a →
      nor.offsetAt id (i + n + 1) = some b → a.toNat < b.toNat := by
    intro i n
    induction n with
    | zero => exact fun ha hb => hforward ha hb
    | succ n ih =>
        intro a b ha hb
        obtain ⟨c, hc, -⟩ := Option.bind_eq_some_iff.1 ((offsetAt_succ (i + n + 1)).symm.trans hb)
        exact (ih ha hc).trans (hforward hc hb)
  intro i j hij hsome heq
  obtain ⟨a, ha⟩ := Option.ne_none_iff_exists'.1 hsome
  obtain ⟨n, rfl⟩ : ∃ n, j = i + n + 1 := ⟨j - i - 1, by omega⟩
  exact absurd (hlater ha (heq.symm.trans ha)) (Nat.lt_irrefl _)

/-- A search that wraps ends, and finds nothing, as is right. -/
structure WrapsWell (nor : Nor) (id : HalfWord) : Prop where
  distinct : nor.Distinct id
  missed : ∀ k pos, nor.offsetAt id k = some pos → nor.idAt pos.toNat ≠ id
  absent : ∀ pos, ¬ nor.EntryWith id pos

/-- The headers are there, the end marker is not searched for, and a search does not wrap unless it does no harm. -/
structure Searchable (nor : Nor) (id : HalfWord) : Prop where
  headers : nor.HeadersInside id
  notEnd : ∀ k pos, nor.offsetAt id k = some pos → nor.idAt pos.toNat = id → id ≠ tffsIdEnd
  wraps : (∃ k, nor.WrapsAt id k) → nor.WrapsWell id

theorem foundRight_iff {pos : Word} (hroom : pos.toNat + 4 ≤ nor.buffer.length) :
    (∀ result, nor.findTurn id pos = .inl result → nor.FoundRight id result) ↔
      (nor.chainNext id pos = none → nor.FindRight id (if nor.idAt pos.toNat = id then some pos else none)) := by
  constructor
  · intro h hlast
    obtain ⟨found, hfound, hright⟩ := h _ (findTurn_last hroom hlast)
    obtain rfl := Except.ok.inj hfound
    exact hright
  · intro h result hturn
    have hlast := chainNext_of_findTurn hroom hturn
    rw [findTurn_last hroom hlast] at hturn
    exact ⟨_, (Sum.inl.inj hturn).symm, h hlast⟩

theorem finds_iff_searchable :
    (∃ fuel found, nor.findEntry id fuel = some (.ok found) ∧ nor.FindRight id found) ↔ nor.Searchable id := by
  rw [finds_iff]
  constructor
  · rintro ⟨hends, hreached⟩
    have hheaders : nor.HeadersInside id := fun k pos hpos => (hreached k pos hpos).1
    have hright : ∀ k pos, nor.offsetAt id k = some pos → nor.chainNext id pos = none →
        nor.FindRight id (if nor.idAt pos.toNat = id then some pos else none) := fun k pos hpos =>
      (foundRight_iff (hheaders k pos hpos)).1 (hreached k pos hpos).2
    have hfound : ∀ k pos, nor.offsetAt id k = some pos → nor.idAt pos.toNat = id → nor.EntryWith id pos.toNat := by
      intro k pos hpos hid
      have h := hright k pos hpos (chainNext_of_found hid)
      rw [if_pos hid] at h
      exact h.1
    refine ⟨hheaders, fun k pos hpos hid => ?_, fun ⟨j, hwraps⟩ => ?_⟩
    · rw [← hid]
      exact (hfound k pos hpos hid).2.1
    · have hmissed : ∀ k pos, nor.offsetAt id k = some pos → nor.idAt pos.toNat ≠ id := fun k pos hpos hid =>
        (hfound k pos hpos hid).not_wrapsAt j hwraps
      refine ⟨ends_iff_distinct.1 hends, hmissed, ?_⟩
      obtain ⟨k, pos, hpos, hlast⟩ := hends.exists_last
      have h := hright k pos hpos hlast
      rw [if_neg (hmissed k pos hpos)] at h
      exact h
  · rintro ⟨hheaders, hnotEnd, hwraps⟩
    by_cases hstraight : ∃ k, nor.WrapsAt id k
    · obtain ⟨hdistinct, hmissed, habsent⟩ := hwraps hstraight
      refine ⟨ends_iff_distinct.2 hdistinct, fun k pos hpos => ⟨hheaders k pos hpos, ?_⟩⟩
      rw [foundRight_iff (hheaders k pos hpos), if_neg (hmissed k pos hpos)]
      exact fun _ => habsent
    · rw [not_exists] at hstraight
      refine ⟨ends_iff_distinct.2 (distinct_of_straight hstraight), fun k pos hpos => ⟨hheaders k pos hpos, ?_⟩⟩
      rw [foundRight_iff (hheaders k pos hpos)]
      intro hlast
      by_cases hid : nor.idAt pos.toNat = id
      · rw [if_pos hid]
        refine ⟨⟨inChain_of_offsetAt hheaders (fun j _ => hstraight j) hpos, hid ▸ hnotEnd k pos hpos hid, hid⟩,
          fun pos' h => ?_⟩
        obtain ⟨j, at', hat, hid', hle⟩ := h.found hstraight
        obtain rfl := offsetAt_last hat (chainNext_of_found hid') hpos hlast
        exact hle
      · rw [if_neg hid]
        intro pos' h
        obtain ⟨j, at', hat, hid', -⟩ := h.found hstraight
        obtain rfl := offsetAt_last hat (chainNext_of_found hid') hpos hlast
        exact hid hid'

/-! ### Names -/

/-- What the name at an offset in an entry is taken from. -/
def nameBytes (nor : Nor) (pos at' : Word) : List Byte := nor.buffer.drop (pos.toNat + 4 + (at' + 4).toNat)

def nameText (nor : Nor) (pos at' : Word) : List Byte := (nor.nameBytes pos at').takeWhile (· ≠ 0)

/-- The offset of the name after one, if it is in the entry. -/
def nameNext (nor : Nor) (pos at' : Word) : Option Word :=
  let next := at' + 4 + walkSize (BitVec.ofNat 32 ((nor.nameText pos at').length + 1))
  if next.toNat < nor.lenAt pos.toNat then some next else none

/-- The offsets of the names in an entry. -/
def nameOffsetAt (nor : Nor) (pos : Word) (k : Nat) : Option Word := Partial.iterate (nor.nameNext pos) k 0

/-- All names of an entry end in the image, and none of them comes twice. -/
structure NamesInside (nor : Nor) (pos : Word) : Prop where
  distinct : ∀ i j, i < j → nor.nameOffsetAt pos i ≠ none → nor.nameOffsetAt pos i ≠ nor.nameOffsetAt pos j
  terminated : ∀ k at', nor.nameOffsetAt pos k = some at' → 0 ∈ nor.nameBytes pos at'

def namesStep (nor : Nor) (pos : Word) (state : Word × List NameItem) : Option (Word × List NameItem) :=
  (nor.nameNext pos state.1).map fun next => (next, state.2 ++ [(state.1, nor.nameText pos state.1)])

theorem namesTurn_eq {pos at' : Word} {items : List NameItem} (hroom : pos.toNat + 4 ≤ nor.buffer.length)
    (hend : 0 ∈ nor.nameBytes pos at') :
    nor.namesTurn pos (at', items) =
      match nor.nameNext pos at' with
      | some next => .inr (next, items ++ [(at', nor.nameText pos at')])
      | none => .inl (.ok (items ++ [(at', nor.nameText pos at')])) := by
  have hname : nor.loadString (pos.toNat + 4 + (at' + 4).toNat) = .ok (nor.nameText pos at') := if_pos hend
  have hlen : (nor.getHalf (slice nor.buffer (pos.toNat + 2) 2)).toNat = nor.lenAt pos.toNat := rfl
  rw [namesTurn, hname]
  dsimp only
  rw [load_eq (by omega)]
  dsimp only
  rw [hlen, nameNext]
  split <;> rfl

theorem namesTurn_unterminated {pos at' : Word} {items : List NameItem} (hend : 0 ∉ nor.nameBytes pos at') :
    nor.namesTurn pos (at', items) = .inl (.error .overrun) := by
  have hname : nor.loadString (pos.toNat + 4 + (at' + 4).toNat) = .error .overrun := if_neg hend
  rw [namesTurn, hname]

theorem next_namesTurn {pos : Word} (hroom : pos.toNat + 4 ≤ nor.buffer.length) (state : Word × List NameItem)
    (hend : 0 ∈ nor.nameBytes pos state.1) : Loop.next (nor.namesTurn pos) state = nor.namesStep pos state := by
  rw [Loop.next, namesTurn_eq hroom hend, namesStep]
  cases nor.nameNext pos state.1 <;> rfl

theorem namesStep_fst (nor : Nor) (pos : Word) (state : Word × List NameItem) :
    (nor.namesStep pos state).map Prod.fst = nor.nameNext pos state.1 := by
  rw [namesStep]
  cases nor.nameNext pos state.1 <;> rfl

/-- A walk that comes to a name which ends goes on or ends well. -/
theorem namesTurn_inl {pos : Word} (hroom : pos.toNat + 4 ≤ nor.buffer.length) (state : Word × List NameItem)
    (result : Except Fault (List NameItem)) (hend : 0 ∈ nor.nameBytes pos state.1)
    (hturn : nor.namesTurn pos state = .inl result) : ∃ items, result = .ok items := by
  rw [namesTurn_eq hroom hend] at hturn
  cases hnext : nor.nameNext pos state.1 with
  | none =>
      rw [hnext] at hturn
      exact ⟨_, (Sum.inl.inj hturn).symm⟩
  | some next =>
      rw [hnext] at hturn
      cases hturn

theorem namesInside_iff {pos : Word} (hroom : pos.toNat + 4 ≤ nor.buffer.length) :
    (∃ fuel items, nor.parseKeyNames pos fuel = some (.ok items)) ↔ nor.NamesInside pos := by
  have hloop : (∃ result, Loop.Returns (nor.namesTurn pos) (0, []) result ∧ ∃ items, result = .ok items) ↔ _ :=
    Loop.exists_returns_and_iff_of_good (fun state : Word × List NameItem => 0 ∈ nor.nameBytes pos state.1)
      (next_namesTurn hroom) (namesTurn_inl hroom) fun state hend =>
        ⟨_, namesTurn_unterminated hend, by rintro ⟨items, hitems⟩; cases hitems⟩
  have hnames := Partial.forall_iterate_map (nor.namesStep_fst pos) (fun at' => 0 ∈ nor.nameBytes pos at') (0, [])
  refine Loop.exists_run_iff.trans (hloop.trans ?_)
  rw [Partial.ends_map (nor.namesStep_fst pos), Partial.ends_iff, hnames]
  exact ⟨fun ⟨hdistinct, hterminated⟩ => ⟨hdistinct, hterminated⟩,
    fun ⟨hdistinct, hterminated⟩ => ⟨hdistinct, hterminated⟩⟩

/-! ### The reader -/

/-- An image in which an id can be searched for, whose entry with the id is there, and all names of it. -/
structure Orderly (nor : Nor) (id : HalfWord) : Prop where
  searchable : nor.Searchable id
  value : ∀ k pos, nor.offsetAt id k = some pos → nor.idAt pos.toNat = id →
    pos.toNat + 4 + nor.lenAt pos.toNat ≤ nor.buffer.length
  names : id = tffsIdTableName → ∀ k pos, nor.offsetAt id k = some pos → nor.idAt pos.toNat = id →
    nor.NamesInside pos

theorem Searchable.found_iff (h : nor.Searchable id) {pos : Word} :
    (∃ fuel, nor.findEntry id fuel = some (.ok (some pos))) ↔
      ∃ k, nor.offsetAt id k = some pos ∧ nor.idAt pos.toNat = id := by
  have hsame : ∀ k, Partial.iterate (Loop.next (nor.findTurn id)) k 0 = nor.offsetAt id k := fun k =>
    Loop.iterate_next_eq fun j _ at' hat => next_findTurn (h.headers j at' hat)
  constructor
  · intro hfound
    obtain ⟨at', hreaches, hturn⟩ := Loop.Returns.reaches hfound
    obtain ⟨k, hk⟩ := Loop.reaches_iff.1 hreaches
    rw [hsame k] at hk
    have hroom := h.headers k at' hk
    rw [findTurn_last hroom (chainNext_of_findTurn hroom hturn)] at hturn
    by_cases hid : nor.idAt at'.toNat = id
    · rw [if_pos hid] at hturn
      obtain rfl := Option.some.inj (Except.ok.inj (Sum.inl.inj hturn))
      exact ⟨k, hk, hid⟩
    · rw [if_neg hid] at hturn
      cases Except.ok.inj (Sum.inl.inj hturn)
  · rintro ⟨k, hk, hid⟩
    refine Loop.returns_of_iterate ((hsame k).trans hk) ?_
    rw [findTurn_last (h.headers k pos hk) (chainNext_of_found hid), if_pos hid]

theorem printEntryValue_iff {pos : Word} (hroom : pos.toNat + 4 ≤ nor.buffer.length) :
    (∃ value, nor.printEntryValue pos = .ok value) ↔
      pos.toNat + 4 + nor.lenAt pos.toNat ≤ nor.buffer.length := by
  have hlen : (nor.getHalf (slice nor.buffer (pos.toNat + 2) 2)).toNat = nor.lenAt pos.toNat := rfl
  rw [printEntryValue, load_eq (by omega)]
  dsimp only
  rw [hlen]
  constructor
  · rintro ⟨value, hvalue⟩
    by_contra hlt
    rw [load_error (by omega)] at hvalue
    cases hvalue
  · exact fun h => ⟨_, load_eq h⟩

/-- The reader is sound if and only if the image is orderly. -/
theorem sound_iff (nor : Nor) (id : HalfWord) : nor.Sound id ↔ nor.Orderly id := by
  constructor
  · rintro ⟨hfinds, hprints, hnames⟩
    have hsearchable := finds_iff_searchable.1 hfinds
    refine ⟨hsearchable, fun k pos hpos hid => ?_, fun htable k pos hpos hid => ?_⟩
    · obtain ⟨fuel, hfound⟩ := hsearchable.found_iff.2 ⟨k, hpos, hid⟩
      exact (printEntryValue_iff (hsearchable.headers k pos hpos)).1 (hprints fuel pos hfound)
    · obtain ⟨fuel, hfound⟩ := hsearchable.found_iff.2 ⟨k, hpos, hid⟩
      exact (namesInside_iff (hsearchable.headers k pos hpos)).1 (hnames htable fuel pos hfound)
  · rintro ⟨hsearchable, hvalue, hnames⟩
    refine ⟨finds_iff_searchable.2 hsearchable, fun fuel pos hfound => ?_, fun htable fuel pos hfound => ?_⟩
    · obtain ⟨k, hpos, hid⟩ := hsearchable.found_iff.1 ⟨fuel, hfound⟩
      exact (printEntryValue_iff (hsearchable.headers k pos hpos)).2 (hvalue k pos hpos hid)
    · obtain ⟨k, hpos, hid⟩ := hsearchable.found_iff.1 ⟨fuel, hfound⟩
      exact (namesInside_iff (hsearchable.headers k pos hpos)).2 (hnames htable k pos hpos hid)

/-- An entry without a value, and the first half of another header. -/
def cutNor : Nor where
  buffer := [0x01, 0x00, 0x00, 0x00, 0x02, 0x00]
  bigEndian := false
  swapBytes := false

/-- The other half is read behind the image. -/
theorem not_sound_cut : ¬ cutNor.Sound tffsIdTableName := by
  rintro ⟨⟨fuel, found, hfound, -⟩, -, -⟩
  have hoverrun : Loop.Returns (cutNor.findTurn tffsIdTableName) 0 (.error .overrun) := ⟨2, rfl⟩
  cases hoverrun.unique ⟨fuel, hfound⟩

end Immwrt.Tffs.Nor
