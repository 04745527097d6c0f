import Immwrt.Mtdsplit.Proof.Jffs2
import Immwrt.Mtdsplit.Wfi

/-!
# Two images

The half is selected as it is promised, and an image in it is laid out as it is promised. Without one the parsers
have the table of the two halves, but return an error with it.
-/

namespace Immwrt.Mtdsplit

variable {board : Board} {mtd : Mtd}

/-! ### Where things are found -/

theorem Search.turn_walk {search : Search} {stop : Int} {offs : Nat} {buf : List Byte} {place : Word × Bool}
    {s : FindState} (h : search.turn stop (.walk offs buf place) = .inr s) :
    (∃ place', s = .walk offs buf place') ∨ ∃ valid, s = .block (offs + search.mtd.erasesize) valid := by
  rw [turn] at h
  split at h
  · cases h
  · cases h
  · exact .inr ⟨_, (Sum.inr.inj h).symm⟩
  · exact .inl ⟨_, (Sum.inr.inj h).symm⟩

/-- A file is found in the block that is walked through. -/
theorem Search.turn_ok {search : Search} {stop : Int} {s : FindState} {found : Found}
    (h : search.turn stop s = .inl (.ok found)) : ∃ buf place, s = .walk found.offs buf place := by
  match s with
  | .walk offs buf place =>
      rw [turn] at h
      split at h
      · obtain rfl := Except.ok.inj (Sum.inl.inj h)
        exact ⟨buf, place, rfl⟩
      · cases h
      · cases h
      · cases h
  | .block offs valid =>
      rw [turn] at h
      split at h
      case isFalse => cases h
      case isTrue =>
        split at h
        · cases h
        · split at h
          · cases h
          · split at h
            · cases h
            · split at h
              · cases h
              · cases h

/-- A walk that began at `lo` is in a block before `hi`. -/
def FindState.Within (lo : Nat) (hi : Int) : FindState → Prop
  | .block offs _ => lo ≤ offs
  | .walk offs _ _ => lo ≤ offs ∧ (offs : Int) < hi

def Found.Within (lo : Nat) (hi : Int) : Except Errno Found → Prop
  | .ok found => lo ≤ found.offs ∧ (found.offs : Int) < hi
  | .error _ => True

/-- A file is found between the start and the end. -/
theorem jffs2FindFile_bounds {search : Search} {fuel offs : Nat} {size : Int} {found : Found}
    (h : jffs2FindFile search fuel offs size = some (.ok found)) :
    offs ≤ found.offs ∧ (found.offs : Int) < offs + size := by
  have hreturns : Loop.Returns (search.turn (offs + size)) (.block offs false) (.ok found) := ⟨fuel, h⟩
  have hstart : FindState.Within offs (offs + size) (.block offs false) := le_rfl
  refine hreturns.rule (FindState.Within offs (offs + size)) (Found.Within offs (offs + size)) hstart ?_ ?_
  · intro s s' hinv hturn
    cases s with
    | block offs' valid =>
        have hle : offs ≤ offs' := hinv
        obtain ⟨hlt, rfl | ⟨buf, rfl⟩⟩ := Search.turn_block hturn
        · exact hle.trans (Nat.le_add_right _ _)
        · exact ⟨hle, hlt⟩
    | walk offs' buf place =>
        obtain ⟨hle, hlt⟩ : offs ≤ offs' ∧ (offs' : Int) < offs + size := hinv
        obtain ⟨place', rfl⟩ | ⟨valid, rfl⟩ := Search.turn_walk hturn
        · exact ⟨hle, hlt⟩
        · exact hle.trans (Nat.le_add_right _ _)
  · intro s result hinv hturn
    cases result with
    | error err => trivial
    | ok found' =>
        obtain ⟨buf, place, rfl⟩ := Search.turn_ok hturn
        exact hinv

theorem ubifsFind_bounds {fuel offs r : Nat} {size : Int} (h : ubifsFind mtd fuel offs size = some (.ok r)) :
    offs ≤ r ∧ (r : Int) < offs + size := by
  let post : Except Errno Nat → Prop := fun
    | .ok r => offs ≤ r ∧ (r : Int) < offs + size
    | .error _ => True
  have hreturns : Loop.Returns (ubifsTurn mtd (offs + size)) offs (.ok r) := ⟨fuel, h⟩
  refine hreturns.rule (offs ≤ ·) post le_rfl ?_ ?_
  · intro offs' offs'' hle hturn
    rw [ubifsTurn] at hturn
    split at hturn
    · split at hturn
      · exact Sum.inr.inj hturn ▸ hle.trans (Nat.le_add_right _ _)
      · split at hturn
        · cases hturn
        · exact Sum.inr.inj hturn ▸ hle.trans (Nat.le_add_right _ _)
    · cases hturn
  · intro offs' result hle hturn
    rw [ubifsTurn] at hturn
    split at hturn
    case isFalse => exact Sum.inl.inj hturn ▸ trivial
    case isTrue hlt =>
      split at hturn
      · cases hturn
      · split at hturn
        · exact Sum.inl.inj hturn ▸ ⟨hle, hlt⟩
        · cases hturn

/-! ### An image -/

section Image

variable {fuel fuel' off size : Nat} {cfePart : Bool}

theorem findCferam_mono {result : Except Errno (Nat × Nat)}
    (h : findCferam board fuel off size cfePart = some result) (hle : fuel ≤ fuel') : findCferam board fuel' off size cfePart = some result := by
  cases cfePart with
  | false => exact h
  | true =>
      obtain ⟨found, hfound, rfl⟩ := Option.map_eq_some_iff.1 h
      exact Option.map_eq_some_iff.2 ⟨found, Loop.run_mono hfound hle, rfl⟩

/-- Where the boot loader, the kernel and the root file system are. -/
structure ImageIn (board : Board) (fuel : Nat) (half : Half) (cfePart : Bool)
    (cfeOff start kernelOff rootfsOff : Nat) : Prop where
  cferam : findCferam board fuel half.off half.size cfePart = some (.ok (cfeOff, start))
  kernel : ∃ found, found.offs = kernelOff ∧
    jffs2FindFile (board.search kernelName false) fuel start (half.size - (start - half.off)) = some (.ok found)
  rootfs : ubifsFind board.mtd fuel (kernelOff + board.mtd.erasesize)
    (half.size - ((kernelOff + board.mtd.erasesize : Nat) - half.off)) = some (.ok rootfsOff)

theorem parseBcmWfi_ok_iff {half : Half} {parts : List Partition} :
    parseBcmWfi board fuel half.off half.size cfePart = some (.ok parts) ↔
      ∃ cfeOff start kernelOff rootfsOff, ImageIn board fuel half cfePart cfeOff start kernelOff rootfsOff ∧
        parts = wfiParts half.off half.size cfeOff kernelOff rootfsOff cfePart := by
  constructor
  · intro h
    rw [parseBcmWfi] at h
    split at h
    · cases h
    · cases h
    · rename_i cfeOff start hcferam
      split at h
      · cases h
      · cases h
      · rename_i kernel hkernel
        dsimp only at h
        split at h
        · cases h
        · cases h
        · rename_i rootfsOff hrootfs
          exact ⟨cfeOff, start, kernel.offs, rootfsOff, ⟨hcferam, ⟨kernel, rfl, hkernel⟩, hrootfs⟩,
            (Except.ok.inj (Option.some.inj h)).symm⟩
  · rintro ⟨cfeOff, start, kernelOff, rootfsOff, ⟨hcferam, ⟨kernel, rfl, hkernel⟩, hrootfs⟩, rfl⟩
    rw [parseBcmWfi, hcferam]
    dsimp only
    rw [hkernel]
    dsimp only
    rw [hrootfs]

theorem parseBcmWfi_mono {result : Except Errno (List Partition)}
    (h : parseBcmWfi board fuel off size cfePart = some result) (hle : fuel ≤ fuel') :
    parseBcmWfi board fuel' off size cfePart = some result := by
  rw [parseBcmWfi] at h ⊢
  split at h
  · cases h
  · rename_i err hcferam
    rw [findCferam_mono hcferam hle]
    exact h
  · rename_i cfeOff start hcferam
    rw [findCferam_mono hcferam hle]
    dsimp only
    split at h
    · cases h
    · rename_i err hkernel
      rw [show jffs2FindFile _ fuel' _ _ = _ from Loop.run_mono hkernel hle]
      exact h
    · rename_i kernel hkernel
      rw [show jffs2FindFile _ fuel' _ _ = _ from Loop.run_mono hkernel hle]
      dsimp only at h ⊢
      split at h
      · cases h
      · rename_i err hrootfs
        rw [show ubifsFind _ fuel' _ _ = _ from Loop.run_mono hrootfs hle]
        exact h
      · rename_i rootfsOff hrootfs
        rw [show ubifsFind _ fuel' _ _ = _ from Loop.run_mono hrootfs hle]
        exact h

/-- What a parser of an image gives does not depend on the fuel. -/
theorem parseBcmWfi_unique {result result' : Except Errno (List Partition)}
    (h : parseBcmWfi board fuel off size cfePart = some result)
    (h' : parseBcmWfi board fuel' off size cfePart = some result') : result = result' := by
  have hmax := parseBcmWfi_mono h (Nat.le_max_left fuel fuel')
  rw [parseBcmWfi_mono h' (Nat.le_max_right fuel fuel')] at hmax
  exact (Option.some.inj hmax).symm

theorem findCferam_bounds {half : Half} {cfeOff start : Nat}
    (h : findCferam board fuel half.off half.size cfePart = some (.ok (cfeOff, start))) :
    half.off ≤ cfeOff ∧ cfeOff ≤ start ∧ (cfePart = true → cfeOff < half.off + half.size) := by
  cases cfePart with
  | false =>
      obtain ⟨rfl, rfl⟩ := Prod.mk.inj (Except.ok.inj (Option.some.inj h))
      exact ⟨le_rfl, le_rfl, fun hfalse => absurd hfalse Bool.false_ne_true⟩
  | true =>
      obtain ⟨found, hfound, hresult⟩ := Option.map_eq_some_iff.1 h
      match found, hfound with
      | .error err, _ => cases hresult
      | .ok found, hfound =>
          obtain ⟨rfl, rfl⟩ := Prod.mk.inj (Except.ok.inj hresult)
          obtain ⟨hle, hlt⟩ := jffs2FindFile_bounds hfound
          exact ⟨hle, Nat.le_add_right _ _, fun _ => by omega⟩

theorem ImageIn.layout {half : Half} {cfeOff start kernelOff rootfsOff : Nat}
    (h : ImageIn board fuel half cfePart cfeOff start kernelOff rootfsOff) :
    ImageLayout half (wfiParts half.off half.size cfeOff kernelOff rootfsOff cfePart) := by
  obtain ⟨hcferam, ⟨kernel, rfl, hkernel⟩, hrootfs⟩ := h
  obtain ⟨hoff, hstart, -⟩ := findCferam_bounds hcferam
  obtain ⟨hkernelOff, hkernelLt⟩ := jffs2FindFile_bounds hkernel
  obtain ⟨hrootfsOff, hrootfsLt⟩ := ubifsFind_bounds hrootfs
  constructor
  · intro part hpart
    simp only [wfiParts, List.mem_append, List.mem_cons, List.not_mem_nil, or_false] at hpart
    rcases hpart with hcfe | rfl | rfl | rfl
    · split at hcfe
      · obtain rfl := List.mem_singleton.1 hcfe
        simp only [Partition.stop]
        omega
      · exact absurd hcfe List.not_mem_nil
    · simp only [Partition.stop]
      omega
    · simp only [Partition.stop]
      omega
    · simp only [Partition.stop]
      omega
  · refine ⟨_, _, _, _, rfl, ?_, rfl, rfl, rfl, rfl, ?_, ?_⟩
    · intro part hpart
      split at hpart
      · rw [List.mem_singleton.1 hpart]
      · exact absurd hpart List.not_mem_nil
    · simp only [Partition.stop]
      omega
    · simp only [Partition.stop]
      omega

end Image

/-! ### The selection -/

/-- The searches for an image in a half find the boot loader, if it is part of it, the kernel and the root file
system. -/
def HasImage (board : Board) (half : Half) (cfePart : Bool) : Prop :=
  ∃ fuel cfeOff start kernelOff rootfsOff, ImageIn board fuel half cfePart cfeOff start kernelOff rootfsOff

section Selection

variable {cfePart : Bool} {bf1 bf2 : Int} {fuel : Nat}

/-- What both parsers make of the result for the active half. -/
def afterActive (mtd : Mtd) (inactive : Half) : Except Errno (List Partition) → ParseReturn
  | .ok parts => { ret := .ok (parts.length + 1), parts := some (parts ++ [inactive.part]) }
  | .error err => { ret := .error err, parts := some [(img1 mtd).part, (img2 mtd).part] }

theorem parseActive_eq (board : Board) (fuel : Nat) (bf1 bf2 : Int) (cfePart : Bool) :
    parseActive board fuel bf1 bf2 cfePart =
      (parseBcmWfi board fuel (activeHalf board.mtd bf1 bf2).1.off (activeHalf board.mtd bf1 bf2).1.size
        cfePart).map (afterActive board.mtd (activeHalf board.mtd bf1 bf2).2) := by
  have hhalf : activeHalf board.mtd bf1 bf2 =
      if bf1 ≥ bf2 then (img1 board.mtd, img2 board.mtd) else (img2 board.mtd, img1 board.mtd) := by
    rw [activeHalf]
    split
    case isTrue hlt => rw [if_neg (by omega)]
    case isFalse hle => rw [if_pos (by omega)]
  rw [parseActive, hhalf]
  rfl

theorem hasImage_iff {half : Half} :
    HasImage board half cfePart ↔
      ∃ fuel parts, parseBcmWfi board fuel half.off half.size cfePart = some (.ok parts) ∧
        ImageLayout half parts := by
  constructor
  · rintro ⟨fuel, cfeOff, start, kernelOff, rootfsOff, h⟩
    exact ⟨fuel, _, parseBcmWfi_ok_iff.2 ⟨cfeOff, start, kernelOff, rootfsOff, h, rfl⟩, h.layout⟩
  · rintro ⟨fuel, parts, h, -⟩
    obtain ⟨cfeOff, start, kernelOff, rootfsOff, himage, -⟩ := parseBcmWfi_ok_iff.1 h
    exact ⟨fuel, cfeOff, start, kernelOff, rootfsOff, himage⟩

/-- A result is as it is promised exactly when the active half has an image. -/
theorem selects_iff {result : ParseReturn} (h : parseActive board fuel bf1 bf2 cfePart = some result) :
    Selects board cfePart bf1 bf2 result ↔ HasImage board (activeHalf board.mtd bf1 bf2).1 cfePart := by
  rw [parseActive_eq] at h
  obtain ⟨found, hparse, rfl⟩ := Option.map_eq_some_iff.1 h
  rw [hasImage_iff]
  constructor
  · intro hselects
    match found, hparse with
    | .ok parts, hparse =>
        exact ⟨fuel, parts, hparse, (hselects.image parts ⟨fuel, hparse⟩).2⟩
    | .error err, hparse =>
        have hnone : ∀ parts, ¬ Parses board (activeHalf board.mtd bf1 bf2).1 cfePart parts := by
          rintro parts ⟨fuel', hok⟩
          cases parseBcmWfi_unique hparse hok
        cases hselects.fallback hnone
  · rintro ⟨fuel', parts, hok, hlayout⟩
    obtain rfl := parseBcmWfi_unique hok hparse
    refine ⟨?_, fun hnone => absurd ⟨fuel', hok⟩ (hnone parts)⟩
    rintro parts' ⟨fuel'', hok'⟩
    obtain rfl := Except.ok.inj (parseBcmWfi_unique hok hok')
    exact ⟨rfl, hlayout⟩

theorem HasImage.parseActive (h : HasImage board (activeHalf board.mtd bf1 bf2).1 cfePart) :
    ∃ fuel, ∀ fuel', fuel ≤ fuel' → ∃ result, parseActive board fuel' bf1 bf2 cfePart = some result := by
  obtain ⟨fuel, parts, hparse, -⟩ := hasImage_iff.1 h
  refine ⟨fuel, fun fuel' hle => ?_⟩
  rw [parseActive_eq, parseBcmWfi_mono hparse hle]
  exact ⟨_, rfl⟩

/-- The same flag twice selects the first half, as a missing second one does. -/
theorem activeHalf_tie (mtd : Mtd) {bf : Int} (hbf : 0 ≤ bf) : activeHalf mtd bf enoent = activeHalf mtd bf bf := by
  rw [activeHalf, activeHalf, enoent, if_neg (by omega), if_neg (by omega)]

/-- The first parser returns what comes of its flags. -/
theorem splitSelects_iff_hasImage {heap1 heap2 : Nat → Byte} (h1 : CferamFlag board (img1 board.mtd) heap1 bf1)
    (h2 : CferamFlag board (img2 board.mtd) heap2 bf2) :
    (∃ fuel result, mtdsplitParseBcmWfiSplit board heap1 heap2 fuel = some result ∧
      Selects board true bf1 bf2 result) ↔ HasImage board (activeHalf board.mtd bf1 bf2).1 true := by
  obtain ⟨fuel1, found1, h1, rfl⟩ := h1
  obtain ⟨fuel2, found2, h2, rfl⟩ := h2
  constructor
  · rintro ⟨fuel, result, hsplit, hselects⟩
    rw [mtdsplitParseBcmWfiSplit] at hsplit
    split at hsplit
    · rename_i found1' found2' h1' h2'
      obtain rfl := Loop.Returns.unique ⟨fuel1, h1⟩ ⟨fuel, h1'⟩
      obtain rfl := Loop.Returns.unique ⟨fuel2, h2⟩ ⟨fuel, h2'⟩
      exact (selects_iff hsplit).1 hselects
    · cases hsplit
  · intro himage
    obtain ⟨fuel, hactive⟩ := himage.parseActive
    obtain ⟨result, hresult⟩ := hactive (max fuel (max fuel1 fuel2)) (by omega)
    refine ⟨max fuel (max fuel1 fuel2), result, ?_, (selects_iff hresult).2 himage⟩
    have h1' : jffs2FindFile _ (max fuel (max fuel1 fuel2)) _ _ = _ := Loop.run_mono h1 (by omega)
    have h2' : jffs2FindFile _ (max fuel (max fuel1 fuel2)) _ _ = _ := Loop.run_mono h2 (by omega)
    rw [mtdsplitParseBcmWfiSplit, h1', h2']
    exact hresult

/-- What is promised depends on the half that the flags select. -/
theorem Selects.congr {bf1' bf2' : Int} {result : ParseReturn}
    (hhalf : activeHalf board.mtd bf1 bf2 = activeHalf board.mtd bf1' bf2')
    (h : Selects board cfePart bf1 bf2 result) : Selects board cfePart bf1' bf2' result :=
  ⟨hhalf ▸ h.image, hhalf ▸ h.fallback⟩

/-- The same flag twice is no flag of the second half, which selects the same. -/
theorem serParse_eq (board : Board) {mtdBf1 mtdBf2 : Mtd} (h1 : sercommBootflagValue mtdBf1 fuel = some bf1)
    (h2 : sercommBootflagValue mtdBf2 fuel = some bf2) :
    ∃ bf erases, mtdsplitParseSerWfi board (some mtdBf1) (some mtdBf2) fuel =
        (parseActive board fuel bf1 bf false).map (·, erases) ∧
      activeHalf board.mtd bf1 bf = activeHalf board.mtd bf1 bf2 := by
  rw [mtdsplitParseSerWfi, h1, h2]
  by_cases htie : bf1 = bf2 ∧ bf2 ≥ 0
  · obtain ⟨rfl, hpos⟩ := htie
    exact ⟨enoent, true, if_pos ⟨rfl, hpos⟩, activeHalf_tie _ hpos⟩
  · exact ⟨bf2, false, if_neg htie, rfl⟩

/-- The second parser does too. -/
theorem serSelects_iff_hasImage {mtdBf1 mtdBf2 : Mtd} (h1 : SercommFlag mtdBf1 bf1) (h2 : SercommFlag mtdBf2 bf2) :
    (∃ fuel result erases,
      mtdsplitParseSerWfi board (some mtdBf1) (some mtdBf2) fuel = some (result, erases) ∧
        Selects board false bf1 bf2 result) ↔ HasImage board (activeHalf board.mtd bf1 bf2).1 false := by
  obtain ⟨fuel1, h1⟩ := h1
  obtain ⟨fuel2, h2⟩ := h2
  constructor
  · rintro ⟨fuel, result, erases, hser, hselects⟩
    have hflags : sercommBootflagValue mtdBf1 fuel = some bf1 ∧ sercommBootflagValue mtdBf2 fuel = some bf2 := by
      rw [mtdsplitParseSerWfi] at hser
      split at hser
      · rename_i bf1' bf2' h1' h2'
        obtain rfl := Loop.Returns.unique ⟨fuel1, h1⟩ ⟨fuel, h1'⟩
        obtain rfl := Loop.Returns.unique ⟨fuel2, h2⟩ ⟨fuel, h2'⟩
        exact ⟨h1', h2'⟩
      · cases hser
    obtain ⟨bf, erases', hparse, hhalf⟩ := serParse_eq board hflags.1 hflags.2
    rw [hparse] at hser
    obtain ⟨result', hactive, hresult⟩ := Option.map_eq_some_iff.1 hser
    obtain ⟨rfl, -⟩ := Prod.mk.inj hresult
    exact hhalf ▸ (selects_iff hactive).1 (hselects.congr hhalf.symm)
  · intro himage
    obtain ⟨fuel, hactive⟩ := himage.parseActive
    obtain ⟨result, hresult⟩ := hactive (max fuel (max fuel1 fuel2)) (by omega)
    have h1' : sercommBootflagValue mtdBf1 (max fuel (max fuel1 fuel2)) = some bf1 := Loop.run_mono h1 (by omega)
    have h2' : sercommBootflagValue mtdBf2 (max fuel (max fuel1 fuel2)) = some bf2 := Loop.run_mono h2 (by omega)
    obtain ⟨bf, erases, hparse, hhalf⟩ := serParse_eq board h1' h2'
    refine ⟨max fuel (max fuel1 fuel2), result, erases, ?_, (selects_iff hresult).2 himage⟩
    rw [hparse, parseActive_eq, hhalf, ← parseActive_eq, hresult, Option.map_some]

end Selection

/-- What is promised holds exactly when the flags are found and the half they select has an image. -/
theorem wfiSelects_iff (board : Board) (heap1 heap2 : Nat → Byte) (mtdBf1 mtdBf2 : Mtd) :
    (SplitSelects board heap1 heap2 ↔
      ∃ bf1 bf2, CferamFlag board (img1 board.mtd) heap1 bf1 ∧ CferamFlag board (img2 board.mtd) heap2 bf2 ∧
        HasImage board (activeHalf board.mtd bf1 bf2).1 true) ∧
    (SerSelects board mtdBf1 mtdBf2 ↔
      ∃ bf1 bf2, SercommFlag mtdBf1 bf1 ∧ SercommFlag mtdBf2 bf2 ∧
        HasImage board (activeHalf board.mtd bf1 bf2).1 false) := by
  constructor
  · refine exists_congr fun bf1 => exists_congr fun bf2 => ?_
    exact and_congr_right fun h1 => and_congr_right fun h2 => splitSelects_iff_hasImage h1 h2
  · refine exists_congr fun bf1 => exists_congr fun bf2 => ?_
    exact and_congr_right fun h1 => and_congr_right fun h2 => serSelects_iff_hasImage h1 h2

/-- A device of four empty blocks. -/
def emptyMtd : Mtd where
  size := 0x4000
  erasesize := 0x1000
  content _ := 0xff
  outcome _ _ := .done
  erasesize_pos := emptyNodeMtd.erasesize_pos
  erasesize_lt := emptyNodeMtd.erasesize_lt

def emptyBoard : Board where
  big := false
  mtd := emptyMtd
  cferam := none
  outside _ := 0xff

/-- Nothing is found in an empty half. -/
theorem not_hasImage_emptyBoard (bf1 bf2 : Int) (cfePart : Bool) :
    ¬ HasImage emptyBoard (activeHalf emptyBoard.mtd bf1 bf2).1 cfePart := by
  have hempty : ∀ half cfePart, half = img1 emptyMtd ∨ half = img2 emptyMtd →
      parseBcmWfi emptyBoard 3 half.off half.size cfePart = some (.error .enoent) := by
    rintro half (_ | _) (rfl | rfl) <;> decide +kernel
  intro himage
  obtain ⟨fuel, parts, hparse, -⟩ := hasImage_iff.1 himage
  have hhalf : (activeHalf emptyMtd bf1 bf2).1 = img1 emptyMtd ∨
      (activeHalf emptyMtd bf1 bf2).1 = img2 emptyMtd := by
    rw [activeHalf]
    split
    · exact .inr rfl
    · exact .inl rfl
  cases parseBcmWfi_unique (hempty _ cfePart hhalf) hparse

theorem not_selects_emptyBoard :
    ¬ SplitSelects emptyBoard (fun _ => 0) (fun _ => 0) ∧ ¬ SerSelects emptyBoard emptyMtd emptyMtd := by
  constructor
  · rintro ⟨bf1, bf2, h1, h2, hselects⟩
    exact not_hasImage_emptyBoard bf1 bf2 true ((splitSelects_iff_hasImage h1 h2).1 hselects)
  · rintro ⟨bf1, bf2, h1, h2, hselects⟩
    exact not_hasImage_emptyBoard bf1 bf2 false ((serSelects_iff_hasImage h1 h2).1 hselects)

end Immwrt.Mtdsplit
