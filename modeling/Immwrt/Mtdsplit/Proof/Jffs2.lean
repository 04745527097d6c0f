import Immwrt.Mtdsplit.Jffs2

/-!
# What a JFFS2 walk reads, and when it ends

Where a walk goes from an offset depends on the offset alone. So it goes on for ever if and only if it comes to an
offset again.
-/

namespace Immwrt.Mtdsplit

open Traced

variable {big : Bool} {buf : Nat → Byte} {erasesize : Nat}

/-! ### One turn -/

abbrev IsMagic (big : Bool) (buf : Nat → Byte) (node : Nat) : Prop :=
  cpuHalfWord big (bytesAt buf node 2) = jffs2MagicBitmask

abbrev IsDirentType (big : Bool) (buf : Nat → Byte) (node : Nat) : Prop :=
  cpuHalfWord big (bytesAt buf (node + 2) 2) = jffs2NodetypeDirent

abbrev HasIno (big : Bool) (buf : Nat → Byte) (node : Nat) : Prop := cpuWord big (bytesAt buf (node + 20) 4) ≠ 0

abbrev IsIntact (big : Bool) (buf : Nat → Byte) (node : Nat) : Prop :=
  cpuWord big (bytesAt buf (node + 32) 4) = crc32 0 (bytesAt buf node 32)

/-- A directory entry, as far as a walk looks at it. -/
abbrev IsDirent (big : Bool) (buf : Nat → Byte) (node : Nat) : Prop :=
  IsMagic big buf node ∧ IsDirentType big buf node ∧ HasIno big buf node ∧ IsIntact big buf node

abbrev HasName (buf : Nat → Byte) (node : Nat) (name : List Byte) : Prop :=
  bytesAt buf (node + 40) name.length = name

theorem every_readAt {p : Access → Prop} {off len : Nat} : Every p (readAt buf off len) ↔ p (off, len) := by
  simp [readAt]

theorem val_readAt (off len : Nat) : (readAt buf off len).val = bytesAt buf off len := rfl

theorem jffs2DirentValid_iff (node : Nat) : (jffs2DirentValid big buf node).val = true ↔ IsDirent big buf node := by
  rw [jffs2DirentValid, val_bind, val_readAt]
  by_cases hmagic : IsMagic big buf node
  case neg =>
    rw [if_neg hmagic]
    exact ⟨fun h => absurd h Bool.false_ne_true, fun h => absurd h.1 hmagic⟩
  rw [if_pos hmagic, val_bind, val_readAt]
  by_cases htype : IsDirentType big buf node
  case neg =>
    rw [if_neg htype]
    exact ⟨fun h => absurd h Bool.false_ne_true, fun h => absurd h.2.1 htype⟩
  rw [if_pos htype, val_bind, val_readAt]
  by_cases hino : HasIno big buf node
  case neg =>
    rw [if_neg hino]
    exact ⟨fun h => absurd h Bool.false_ne_true, fun h => absurd h.2.2.1 hino⟩
  rw [if_pos hino]
  simp only [val_bind, val_readAt, val_pure, beq_iff_eq]
  exact ⟨fun h => ⟨hmagic, htype, hino, h⟩, fun h => h.2.2.2⟩

/-- The header of a node lies in the block as far as it is read to see whether it is an entry. -/
structure HeaderInBlock (big : Bool) (buf : Nat → Byte) (erasesize node : Nat) : Prop where
  magic : node + 2 ≤ erasesize
  nodetype : IsMagic big buf node → node + 4 ≤ erasesize
  ino : IsMagic big buf node → IsDirentType big buf node → node + 24 ≤ erasesize
  crc : IsMagic big buf node → IsDirentType big buf node → HasIno big buf node → node + 36 ≤ erasesize

theorem jffs2DirentValid_inBlock_iff {node : Nat} :
    Every (Access.InBlock erasesize) (jffs2DirentValid big buf node) ↔ HeaderInBlock big buf erasesize node := by
  simp only [jffs2DirentValid, every_bind, every_ite, every_readAt, every_pure, and_true, implies_true]
  simp only [val_readAt, Access.InBlock]
  constructor
  · rintro ⟨hmagic, h⟩
    exact ⟨hmagic, fun hm => (h hm).1, fun hm ht => ((h hm).2 ht).1, fun hm ht hi => (((h hm).2 ht).2 hi).1⟩
  · rintro ⟨hmagic, htype, hino, hcrc⟩
    refine ⟨hmagic, fun hm => ⟨htype hm, fun ht => ⟨hino hm ht, fun hi => ⟨hcrc hm ht hi, ?_⟩⟩⟩⟩
    have := hcrc hm ht hi
    omega

/-- The name of a node, up to its end or the length that the node gives. -/
def nameAt (buf : Nat → Byte) (node : Nat) : List Byte :=
  (bytesAt buf (node + 40) (buf (node + 28)).toNat).takeWhile (· ≠ 0)

/-- A node lies in the block as far as a turn looks at it. -/
structure NodeInBlock (big : Bool) (buf : Nat → Byte) (erasesize : Nat) (name : List Byte) (copies : Bool)
    (node : Nat) (valid : Bool) : Prop where
  header : HeaderInBlock big buf erasesize node
  ours : IsDirent big buf node → node + 49 ≤ erasesize
  theirs : IsDirent big buf node → ¬ HasName buf node openwrtName → node + 40 + name.length ≤ erasesize
  copy : IsDirent big buf node → ¬ HasName buf node openwrtName → HasName buf node name → valid = true →
    copies = true → node + 40 + min ((nameAt buf node).length + 1) (buf (node + 28)).toNat ≤ erasesize

variable {name : List Byte} {copies : Bool}

theorem walkTurn_inBlock_iff {place : Word × Bool} :
    Every (Access.InBlock erasesize) (walkTurn big erasesize name copies buf place) ↔
      (place.1.toNat < erasesize → NodeInBlock big buf erasesize name copies place.1.toNat place.2) := by
  obtain ⟨blockOffs, valid⟩ := place
  simp only [walkTurn, nextNode, copyName, every_bind, every_ite, every_readAt, every_pure, and_true, implies_true,
    jffs2DirentValid_inBlock_iff]
  simp only [val_readAt, jffs2DirentValid_iff, Access.InBlock]
  refine imp_congr Iff.rfl ?_
  constructor
  · rintro ⟨hheader, h⟩
    refine ⟨hheader, fun hd => (h hd).1, fun hd hopen => ((h hd).2.2 hopen).1, ?_⟩
    intro hd hopen hname hvalid hcopies
    exact ((((h hd).2.2 hopen).2.1 hname) hvalid hcopies).2
  · rintro ⟨hheader, hours, htheirs, hcopy⟩
    refine ⟨hheader, fun hd => ⟨hours hd, fun _ => ?_, fun hopen => ⟨htheirs hd hopen, ?_, fun _ => ?_⟩⟩⟩
    · have := hours hd
      omega
    · intro hname hvalid hcopies
      have := hours hd
      exact ⟨by omega, hcopy hd hopen hname hvalid hcopies⟩
    · have := hours hd
      omega

/-! ### Where a walk goes -/

/-- The offset behind a node. -/
def behind (big : Bool) (buf : Nat → Byte) (blockOffs : Word) : Word :=
  (blockOffs + cpuWord big (bytesAt buf (blockOffs.toNat + 4) 4) + 3) &&& ~~~3

/-- The offset after one, if the walk goes on. -/
def walkNext (big : Bool) (erasesize : Nat) (name : List Byte) (buf : Nat → Byte) (blockOffs : Word) : Option Word :=
  if blockOffs.toNat < erasesize then
    if IsDirent big buf blockOffs.toNat then
      if HasName buf blockOffs.toNat openwrtName ∨ ¬ HasName buf blockOffs.toNat name then
        some (behind big buf blockOffs)
      else none
    else some (blockOffs + 4)
  else none

/-- The offset does not depend on whether the file of the system has been seen. -/
theorem walkTurn_next (place : Word × Bool) :
    (Loop.next (fun place => (walkTurn big erasesize name copies buf place).val) place).map Prod.fst =
      walkNext big erasesize name buf place.1 := by
  obtain ⟨blockOffs, valid⟩ := place
  rw [Loop.next, walkNext, walkTurn]
  by_cases hin : blockOffs.toNat < erasesize
  case neg =>
    rw [if_neg hin, if_neg hin]
    rfl
  rw [if_pos hin, if_pos hin, val_bind]
  by_cases hdirent : IsDirent big buf blockOffs.toNat
  case neg =>
    rw [if_neg hdirent, if_neg ((jffs2DirentValid_iff _).not.2 hdirent)]
    rfl
  rw [if_pos hdirent, if_pos ((jffs2DirentValid_iff _).2 hdirent), val_bind, val_readAt]
  by_cases hopen : HasName buf blockOffs.toNat openwrtName
  case pos =>
    rw [if_pos hopen, if_pos (.inl hopen)]
    rfl
  rw [if_neg hopen, val_bind, val_readAt]
  by_cases hname : HasName buf blockOffs.toNat name
  case neg =>
    rw [if_neg hname, if_pos (.inr hname)]
    rfl
  rw [if_pos hname, if_neg (not_or.2 ⟨hopen, not_not.2 hname⟩)]
  cases valid <;> cases copies <;> rfl

/-! ### A search -/

/-- What a search does when a walk has ended. -/
def Search.afterWalk (search : Search) (offs : Nat) : WalkEnd → Except Errno Found ⊕ FindState
  | .found name => .inl (.ok { offs := offs, name := name })
  | .invalid => .inl (.error .einval)
  | .ended valid => .inr (.block (offs + search.mtd.erasesize) valid)

def Search.walkLoop (search : Search) (buf : List Byte) (place : Word × Bool) : WalkEnd ⊕ (Word × Bool) :=
  (search.walkTurn buf place).val

/-- The offsets of the walk through a block. -/
def Search.walkNext (search : Search) (buf : List Byte) : Word → Option Word :=
  Mtdsplit.walkNext search.big search.mtd.erasesize search.name (bufferView buf search.outside)

variable {search : Search} {stop : Int} {offs : Nat} {block : List Byte}

theorem Search.turn_walk_inr {place place' : Word × Bool} (h : search.walkLoop block place = .inr place') :
    search.turn stop (.walk offs block place) = .inr (.walk offs block place') := by
  rw [walkLoop] at h
  rw [turn, h]

theorem Search.turn_walk_inl {place : Word × Bool} {walkEnd : WalkEnd}
    (h : search.walkLoop block place = .inl walkEnd) :
    search.turn stop (.walk offs block place) = search.afterWalk offs walkEnd := by
  rw [walkLoop] at h
  rw [turn, h]
  cases walkEnd <;> rfl

theorem Search.returns_walk_iff {place : Word × Bool} {result : Except Errno Found} :
    Loop.Returns (search.turn stop) (.walk offs block place) result ↔
      ∃ walkEnd, Loop.Returns (search.walkLoop block) place walkEnd ∧
        Loop.Continues (search.turn stop) (search.afterWalk offs walkEnd) result :=
  Loop.returns_nested_iff (search.walkLoop block) (.walk offs block) (search.afterWalk offs)
    (fun _ _ => turn_walk_inr) fun _ _ => turn_walk_inl

/-- The walk through a block comes to no offset twice. -/
def Search.Distinct (search : Search) (block : List Byte) : Prop :=
  ∀ i j, i < j → Partial.iterate (search.walkNext block) i 0 ≠ none →
    Partial.iterate (search.walkNext block) i 0 ≠ Partial.iterate (search.walkNext block) j 0

theorem Search.walk_returns_iff {valid : Bool} :
    (∃ walkEnd, Loop.Returns (search.walkLoop block) (0, valid) walkEnd) ↔ search.Distinct block := by
  rw [Loop.exists_returns_iff, Distinct, ← Partial.ends_iff]
  exact Partial.ends_map fun place => walkTurn_next place

/-- A search goes from block to block. -/
theorem Search.turn_block {valid : Bool} {s : FindState}
    (h : search.turn stop (.block offs valid) = .inr s) :
    offs < stop ∧ (s = .block (offs + search.mtd.erasesize) valid ∨ ∃ buf, s = .walk offs buf (0, valid)) := by
  rw [turn] at h
  split at h
  case isFalse => cases h
  case isTrue hlt =>
    refine ⟨hlt, ?_⟩
    split at h
    · exact .inl (Sum.inr.inj h).symm
    · split at h
      · exact .inl (Sum.inr.inj h).symm
      · split at h
        · cases h
        · split at h
          · cases h
          · exact .inr ⟨_, (Sum.inr.inj h).symm⟩

theorem Search.turn_block_walk {valid : Bool} {magic buf : List Byte} (hlt : offs < stop)
    (hmagic : readFull search.mtd offs 2 = .ok magic) (hjffs2 : cpuHalfWord search.big magic = jffs2MagicBitmask)
    (hread : mtdRead search.mtd offs search.mtd.erasesize = .ok buf) (hlen : buf.length = search.mtd.erasesize) :
    search.turn stop (.block offs valid) = .inr (.walk offs buf (0, valid)) := by
  rw [turn, if_pos hlt, hmagic]
  dsimp only
  rw [if_neg (not_not.2 hjffs2), hread]
  exact if_neg (not_not.2 hlen)

theorem Search.returns_iff :
    (∃ result, Loop.Returns (search.turn stop) (.block offs false) result) ↔
      ∀ offs' buf valid, Loop.Reaches (search.turn stop) (.block offs false) (.walk offs' buf (0, valid)) →
        search.Distinct buf := by
  constructor
  · rintro ⟨result, hreturns⟩ offs' buf valid hreaches
    obtain ⟨walkEnd, hwalk, -⟩ := returns_walk_iff.1 (hreaches.returns_iff.1 hreturns)
    exact walk_returns_iff.1 ⟨walkEnd, hwalk⟩
  · intro hdistinct
    -- from every block the search comes to, by how much is left
    suffices hblock : ∀ (n offs' : Nat) (valid : Bool), (stop - offs').toNat = n →
        Loop.Reaches (search.turn stop) (.block offs false) (.block offs' valid) →
          ∃ result, Loop.Returns (search.turn stop) (.block offs' valid) result from
      hblock _ offs false rfl .refl
    intro n
    induction n using Nat.strong_induction_on with
    | _ n ih =>
        intro offs' valid hn hreaches
        have hpos := search.mtd.erasesize_pos
        cases hturn : search.turn stop (.block offs' valid) with
        | inl result => exact ⟨result, Loop.returns_of_inl hturn⟩
        | inr s =>
            have hnext := hreaches.next hturn
            suffices hrest : ∃ result, Loop.Returns (search.turn stop) s result by
              obtain ⟨result, hresult⟩ := hrest
              exact ⟨result, (Loop.returns_iff_of_inr hturn).2 hresult⟩
            obtain ⟨hlt, rfl | ⟨buf, rfl⟩⟩ := turn_block hturn
            · exact ih _ (by omega) _ valid rfl hnext
            · obtain ⟨walkEnd, hwalk⟩ := walk_returns_iff.2 (hdistinct _ _ _ hnext)
              obtain ⟨place, hplace, hlast⟩ := hwalk.reaches
              have hwalks : Loop.Reaches (search.turn stop) (.walk offs' buf (0, valid)) (.walk offs' buf place) :=
                Loop.Reaches.embed (FindState.walk offs' buf) (fun _ _ => turn_walk_inr) hplace
              have hend : search.turn stop (.walk offs' buf place) = search.afterWalk offs' walkEnd :=
                turn_walk_inl hlast
              suffices hrest : ∃ result, Loop.Returns (search.turn stop) (.walk offs' buf place) result by
                obtain ⟨result, hresult⟩ := hrest
                exact ⟨result, hwalks.returns_iff.2 hresult⟩
              cases walkEnd with
              | found name => exact ⟨_, Loop.returns_of_inl hend⟩
              | invalid => exact ⟨_, Loop.returns_of_inl hend⟩
              | ended valid' =>
                  have hafter := (hnext.trans hwalks).tail hend
                  obtain ⟨result, hresult⟩ := ih _ (by omega) _ valid' rfl hafter
                  exact ⟨result, (Loop.returns_iff_of_inr hend).2 hresult⟩

theorem erasesize4K_pos : 0 < 0x1000 := by decide

theorem erasesize4K_lt : 0x1000 < 2 ^ 32 := by decide

/-- A device that starts with a directory entry without a length. -/
def emptyNodeMtd : Mtd where
  size := 0x4000
  erasesize := 0x1000
  content
    | 0 => 0x85
    | 1 => 0x19
    | 2 => 0x01
    | 3 => 0xe0
    | 20 => 0x02
    | 32 => 0x24
    | 33 => 0x69
    | 34 => 0x55
    | 35 => 0x60
    | _ => 0
  outcome _ _ := .done
  erasesize_pos := erasesize4K_pos
  erasesize_lt := erasesize4K_lt

def emptyNodeSearch : Search where
  big := false
  mtd := emptyNodeMtd
  name := ofChars "cferam"
  copies := true
  outside _ := 0

theorem emptyNodeSearch_reaches :
    Loop.Reaches (emptyNodeSearch.turn (((0 : Nat) : Int) + 0x4000)) (.block 0 false)
      (.walk 0 (bytesAt emptyNodeMtd.content 0 0x1000) (0, false)) := by
  have hmagic : readFull emptyNodeSearch.mtd 0 2 = .ok [0x85, 0x19] := rfl
  exact Loop.Reaches.next .refl (Search.turn_block_walk (by decide) hmagic (by decide) rfl (length_bytesAt ..))

end Immwrt.Mtdsplit
