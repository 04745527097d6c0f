import Immwrt.Mtdsplit.Image
import Immwrt.Mtdsplit.Proof.Rootfs

/-!
# uImage and jImage layouts

A scan leaves behind the size from the last header it saw, also when it has not found an image. It accepts a header
by a sum of 32 bits, and so the first header that it accepts need not be one of an image.
-/

namespace Immwrt.Mtdsplit

variable {fmt : Format} {big : Bool} {mtd : Mtd} {outside : Nat → Byte}

/-! ### The scan -/

/-- The scan takes a block for one with an image of some size. -/
def Accepts (fmt : Format) (mtd : Mtd) (outside : Nat → Byte) (o size : Nat) : Prop :=
  o < mtd.size ∧ addSize o size ≤ mtd.size ∧ ∃ len, fmt.lengthAt mtd outside o = some len ∧ imageSize len = size

/-- The scan goes past a block. -/
def SkipsBlock (fmt : Format) (mtd : Mtd) (outside : Nat → Byte) (o : Nat) : Prop :=
  o < mtd.size ∧ ∀ size, ¬ Accepts fmt mtd outside o size

/-- The scan goes past its first blocks. -/
def Skipped (fmt : Format) (mtd : Mtd) (outside : Nat → Byte) (k : Nat) : Prop :=
  ∀ j < k, SkipsBlock fmt mtd outside (scanOffset mtd j)

/-- The size that the scan has before a turn, from the header in the block before. -/
def sizeBefore (fmt : Format) (mtd : Mtd) (outside : Nat → Byte) : Nat → Nat
  | 0 => 0
  | k + 1 => ((fmt.lengthAt mtd outside (scanOffset mtd k)).map imageSize).getD 0

def splitState (fmt : Format) (mtd : Mtd) (outside : Nat → Byte) (k : Nat) : Nat × Nat :=
  (scanOffset mtd k, sizeBefore fmt mtd outside k)

theorem splitState_zero : ((0, 0) : Nat × Nat) = splitState fmt mtd outside 0 := by
  rw [splitState, scanOffset, Nat.zero_mul, sizeBefore, Nat.zero_mod]

/-- How the scan ends: at a block that it accepts, or behind the last one. -/
def ScanStops (fmt : Format) (mtd : Mtd) (outside : Nat → Byte) (k size : Nat) : Prop :=
  Accepts fmt mtd outside (scanOffset mtd k) size ∨
    (mtd.size ≤ scanOffset mtd k ∧ size = sizeBefore fmt mtd outside k)

theorem Accepts.unique {o size size' : Nat} (h : Accepts fmt mtd outside o size)
    (h' : Accepts fmt mtd outside o size') : size = size' := by
  obtain ⟨-, -, len, hlen, rfl⟩ := h
  obtain ⟨-, -, len', hlen', rfl⟩ := h'
  rw [hlen] at hlen'
  rw [Option.some.inj hlen']

theorem splitTurn_skips {k : Nat} (h : SkipsBlock fmt mtd outside (scanOffset mtd k)) :
    splitTurn fmt mtd outside (splitState fmt mtd outside k) = .inr (splitState fmt mtd outside (k + 1)) := by
  rw [splitState, splitState, splitTurn, if_pos h.1, sizeBefore, ← scanOffset_succ]
  cases hlen : fmt.lengthAt mtd outside (scanOffset mtd k) with
  | none => rfl
  | some len =>
      have hlong : mtd.size < addSize (scanOffset mtd k) (imageSize len) := by
        by_contra hle
        exact h.2 _ ⟨h.1, by omega, len, hlen, rfl⟩
      exact if_pos hlong

theorem splitTurn_leaves {o s : Nat} (h : ¬ SkipsBlock fmt mtd outside o) :
    ∃ end', splitTurn fmt mtd outside (o, s) = .inl end' := by
  rw [splitTurn]
  split
  case isFalse => exact ⟨_, rfl⟩
  case isTrue hlt =>
    cases hlen : fmt.lengthAt mtd outside o with
    | none =>
        refine absurd ⟨hlt, ?_⟩ h
        rintro size ⟨-, -, len, hlen', -⟩
        rw [hlen] at hlen'
        cases hlen'
    | some len =>
        refine ⟨_, if_neg fun hlong => h ⟨hlt, ?_⟩⟩
        rintro size ⟨-, hle, len', hlen', rfl⟩
        rw [hlen] at hlen'
        obtain rfl := Option.some.inj hlen'
        omega

theorem splitTurn_inl_iff {k o size : Nat} :
    splitTurn fmt mtd outside (splitState fmt mtd outside k) = .inl (o, size) ↔
      scanOffset mtd k = o ∧ ScanStops fmt mtd outside k size := by
  rw [splitState, splitTurn, ScanStops, Accepts]
  split
  case isFalse hend =>
    constructor
    · intro h
      obtain ⟨rfl, rfl⟩ := Prod.mk.inj (Sum.inl.inj h)
      exact ⟨rfl, .inr ⟨by omega, rfl⟩⟩
    · rintro ⟨rfl, ⟨hlt, -⟩ | ⟨-, rfl⟩⟩
      · exact absurd hlt hend
      · rfl
  case isTrue hlt =>
    cases hlen : fmt.lengthAt mtd outside (scanOffset mtd k) with
    | none =>
        constructor
        · intro h
          cases h
        · rintro ⟨-, ⟨-, -, len, hlen', -⟩ | ⟨hend, -⟩⟩
          · cases hlen'
          · omega
    | some len =>
        dsimp only
        split
        case isTrue hlong =>
          constructor
          · intro h
            cases h
          · rintro ⟨-, ⟨-, hle, len', hlen', rfl⟩ | ⟨hend, -⟩⟩
            · obtain rfl := Option.some.inj hlen'
              omega
            · omega
        case isFalse hfits =>
          constructor
          · intro h
            obtain ⟨rfl, rfl⟩ := Prod.mk.inj (Sum.inl.inj h)
            exact ⟨rfl, .inl ⟨hlt, by omega, len, rfl, rfl⟩⟩
          · rintro ⟨rfl, ⟨-, -, len', hlen', rfl⟩ | ⟨hend, -⟩⟩
            · rw [Option.some.inj hlen']
            · omega

theorem splitScan_iff {o size : Nat} :
    Loop.Returns (splitTurn fmt mtd outside) (0, 0) (o, size) ↔
      ∃ k, Skipped fmt mtd outside k ∧ scanOffset mtd k = o ∧ ScanStops fmt mtd outside k size := by
  rw [splitState_zero, Loop.returns_iff_of_states (splitState fmt mtd outside)
    (fun k => SkipsBlock fmt mtd outside (scanOffset mtd k)) (fun _ hskip => splitTurn_skips hskip) fun _ hstop =>
    splitTurn_leaves hstop]
  exact exists_congr fun k => and_congr_right fun _ => splitTurn_inl_iff

theorem splitScan_exists_iff :
    (∃ s, Loop.Returns (splitTurn fmt mtd outside) (0, 0) s) ↔
      ∃ k, ¬ SkipsBlock fmt mtd outside (scanOffset mtd k) := by
  rw [splitState_zero]
  exact Loop.exists_returns_iff_of_states (splitState fmt mtd outside)
    (fun k => SkipsBlock fmt mtd outside (scanOffset mtd k)) (fun _ hskip => splitTurn_skips hskip) fun _ hstop =>
    splitTurn_leaves hstop

/-! ### The result -/

/-- What comes after the scan. -/
def Finishes (big : Bool) (mtd : Mtd) (o size : Nat) (result : Except Errno (List Partition)) : Prop :=
  (size = 0 ∧ result = .error .enodev) ∨
    (size ≠ 0 ∧ o = 0 ∧ ∃ found, Loop.Returns (findRootfsTurn big mtd (mtd.size % 2 ^ 32)) (addSize o size) found ∧
      result = rootfsAfter mtd found) ∨
    (size ≠ 0 ∧ o ≠ 0 ∧ result = rootfsBefore big mtd o size)

theorem parse_iff {result : Except Errno (List Partition)} :
    (∃ fuel, mtdsplitParse fmt big mtd outside fuel = some result) ↔
      (fmt.headerLen % 2 ^ 32 = 0 ∧ result = .error .enomem) ∨
      (fmt.headerLen % 2 ^ 32 ≠ 0 ∧ ∃ k size, Skipped fmt mtd outside k ∧ ScanStops fmt mtd outside k size ∧
        Finishes big mtd (scanOffset mtd k) size result) := by
  by_cases hbuf : fmt.headerLen % 2 ^ 32 = 0
  · constructor
    · rintro ⟨fuel, hparse⟩
      rw [mtdsplitParse, if_pos hbuf] at hparse
      exact .inl ⟨hbuf, (Option.some.inj hparse).symm⟩
    · rintro (⟨-, rfl⟩ | ⟨hbuf', -⟩)
      · exact ⟨0, if_pos hbuf⟩
      · exact absurd hbuf hbuf'
  constructor
  · rintro ⟨fuel, hparse⟩
    rw [mtdsplitParse, if_neg hbuf] at hparse
    refine .inr ⟨hbuf, ?_⟩
    split at hparse
    · cases hparse
    rename_i o size hscan
    obtain ⟨k, hskipped, rfl, hstops⟩ := splitScan_iff.1 ⟨fuel, hscan⟩
    refine ⟨k, size, hskipped, hstops, ?_⟩
    split at hparse
    case isTrue hsize => exact .inl ⟨hsize, (Option.some.inj hparse).symm⟩
    case isFalse hsize =>
      split at hparse
      case isTrue hzero =>
        obtain ⟨found, hfound, rfl⟩ := Option.map_eq_some_iff.1 hparse
        exact .inr (.inl ⟨hsize, hzero, found, ⟨fuel, hfound⟩, rfl⟩)
      case isFalse hzero => exact .inr (.inr ⟨hsize, hzero, (Option.some.inj hparse).symm⟩)
  · rintro (⟨hbuf', -⟩ | ⟨-, k, size, hskipped, hstops, hfinishes⟩)
    · exact absurd hbuf' hbuf
    obtain ⟨fuel, hscan⟩ := splitScan_iff.2 ⟨k, hskipped, rfl, hstops⟩
    rcases hfinishes with ⟨hsize, rfl⟩ | ⟨hsize, hzero, found, ⟨fuel', hfound⟩, rfl⟩ | ⟨hsize, hzero, rfl⟩
    · refine ⟨fuel, ?_⟩
      rw [mtdsplitParse, if_neg hbuf, hscan]
      exact if_pos hsize
    · have hscan' := Loop.run_mono hscan (Nat.le_max_left fuel fuel')
      have hfound' := Loop.run_mono hfound (Nat.le_max_right fuel fuel')
      refine ⟨max fuel fuel', ?_⟩
      rw [mtdsplitParse, if_neg hbuf, hscan']
      dsimp only
      rw [if_neg hsize, if_pos hzero, mtdFindRootfsFrom, hfound', Option.map_some]
    · refine ⟨fuel, ?_⟩
      rw [mtdsplitParse, if_neg hbuf, hscan]
      dsimp only
      rw [if_neg hsize, if_neg hzero]

/-! ### Headers -/

/-- Whether a header is valid depends on the header only. -/
def Format.Local (fmt : Format) : Prop :=
  ∀ buf buf' : Nat → Byte, (∀ i < fmt.headerLen, buf i = buf' i) → fmt.length buf = fmt.length buf'

/-- A field of a header that lies in a part that two buffers share. -/
theorem bytesAt_eq_of_lt {buf buf' : Nat → Byte} {len : Nat} (hsame : ∀ i < len, buf i = buf' i) {i n : Nat}
    (hle : i + n ≤ len) : bytesAt buf i n = bytesAt buf' i n :=
  bytesAt_congr fun x _ hx => hsame x (by omega)

theorem uimageFormat_local (node : Option UimageNode) : (uimageFormat node).Local := by
  intro buf buf' hsame
  have hlen : (uimageFormat node).headerLen = 64 + (uimageParseDt node).headerOffset.toNat := rfl
  rw [hlen] at hsame
  have hverify : ∀ magic type, uimageVerifyDefault buf (uimageParseDt node).headerOffset.toNat magic type =
      uimageVerifyDefault buf' (uimageParseDt node).headerOffset.toNat magic type := by
    intro magic type
    rw [uimageVerifyDefault, uimageVerifyDefault, bytesAt_eq_of_lt hsame (by omega), hsame _ (by omega),
      hsame _ (by omega)]
  simp only [uimageFormat]
  rw [bytesAt_eq_of_lt hsame (by omega), bytesAt_eq_of_lt hsame (by omega), hverify]

theorem jimageFormat_local (big : Bool) : (jimageFormat big).Local := by
  intro buf buf' (hsame : ∀ i < 56, buf i = buf' i)
  have hverify : jimageVerifyDefault big buf = jimageVerifyDefault big buf' := by
    rw [jimageVerifyDefault, jimageVerifyDefault, bytesAt_eq_of_lt hsame (by omega),
      bytesAt_eq_of_lt hsame (i := 16) (by omega), hsame 0 (by omega), hsame 1 (by omega), hsame 19 (by omega)]
  simp only [jimageFormat]
  rw [bytesAt_eq_of_lt hsame (by omega), hverify]

theorem length_readFull {off len : Nat} {bytes : List Byte} (h : readFull mtd off len = .ok bytes) :
    bytes.length = len := by
  rw [readFull] at h
  split at h
  · split at h
    · cases h
    · rename_i hlen
      rw [← Except.ok.inj h]
      exact not_not.1 hlen
  · cases h

/-- A header that fits the buffer is seen as it is. -/
theorem lengthAt_eq (hlocal : fmt.Local) (hlen : fmt.headerLen < 2 ^ 32) {o : Nat} {hdr : List Byte}
    (hread : readFull mtd o fmt.headerLen = .ok hdr) :
    fmt.lengthAt mtd outside o = fmt.length fun i => hdr.getD i 0 := by
  have hhdr := length_readFull hread
  rw [Format.lengthAt, Nat.mod_eq_of_lt hlen, hread]
  refine hlocal _ _ fun i hi => ?_
  have hin : i < hdr.length := by omega
  rw [bufferView, Nat.mod_eq_of_lt (by omega), List.getD_eq_getElem?_getD, List.getD_eq_getElem?_getD,
    List.getElem?_eq_getElem hin, Option.getD_some, Option.getD_some]

theorem imageSize_lt (len : Int) : imageSize len < 2 ^ 32 := by
  rw [imageSize]
  omega

theorem ImageAt.accepts (hlocal : fmt.Local) (hlen : fmt.headerLen < 2 ^ 32) {o : Nat} (h : ImageAt fmt mtd o) :
    ∃ size, Accepts fmt mtd outside o size := by
  obtain ⟨hdr, len, hread, hvalid, hpos, hfits⟩ := h
  refine ⟨imageSize len, by omega, ?_, len, (lengthAt_eq hlocal hlen hread).trans hvalid, rfl⟩
  have := addSize_le o (imageSize len)
  rw [imageSize] at this ⊢
  omega

/-- An image that was accepted has the size that was accepted, when its header fits the buffer. Otherwise so large a
device has room for any size. -/
theorem ImageAt.add_le (hlocal : fmt.Local) {o size : Nat} (h : ImageAt fmt mtd o)
    (haccepts : Accepts fmt mtd outside o size) : o + size ≤ mtd.size := by
  obtain ⟨hdr, len, hread, hvalid, hpos, hfits⟩ := h
  obtain ⟨-, -, len', hlen', rfl⟩ := haccepts
  have hroom := readFull_le hread
  have hlt := imageSize_lt len'
  by_cases hlen : fmt.headerLen < 2 ^ 32
  · rw [lengthAt_eq hlocal hlen hread, hvalid] at hlen'
    obtain rfl := Option.some.inj hlen'
    rw [imageSize]
    omega
  · omega

/-! ### When a parser is right -/

/-- No header is taken for one of an image that is not there, the search for the root file system does not come back
to the start, and where there is no image both the scan and the search end. -/
structure Untangled (fmt : Format) (big : Bool) (mtd : Mtd) (outside : Nat → Byte) : Prop where
  atStart : ∀ size, Accepts fmt mtd outside 0 size → size ≠ 0 → ∀ n, MeetsAt big mtd size n →
    (mtd.size - searchOffset mtd size n) % 2 ^ 32 ≠ 0 → ImageAt fmt mtd 0 ∧ searchOffset mtd size n ≠ 0
  behind : ∀ k size, Skipped fmt mtd outside k → k ≠ 0 → Accepts fmt mtd outside (scanOffset mtd k) size →
    size ≠ 0 → HasRootfs big mtd 0 → k * mtd.erasesize < 2 ^ 32 ∧ ImageAt fmt mtd (k * mtd.erasesize) ∧
      (2 ^ 32 ≤ fmt.headerLen → ∀ j < k, ¬ ImageAt fmt mtd (j * mtd.erasesize))
  stale : ∀ k, Skipped fmt mtd outside k → mtd.size ≤ scanOffset mtd k → sizeBefore fmt mtd outside k ≠ 0 →
    ¬ HasRootfs big mtd 0
  ends : (∀ o, mtd.erasesize ∣ o → ¬ ImageAt fmt mtd o) →
    (∃ k, ¬ SkipsBlock fmt mtd outside (scanOffset mtd k)) ∧
      ∀ size, Accepts fmt mtd outside 0 size → size ≠ 0 → ∃ n, ¬ Passes big mtd (searchOffset mtd size n)

theorem scanOffset_zero (mtd : Mtd) : scanOffset mtd 0 = 0 := by
  rw [scanOffset, Nat.zero_mul, Nat.zero_mod]

theorem Accepts.not_skips {o size : Nat} (h : Accepts fmt mtd outside o size) : ¬ SkipsBlock fmt mtd outside o :=
  fun hskips => hskips.2 size h

/-- The scan comes to the start once. -/
theorem scanOffset_ne_zero {k size : Nat} (hskipped : Skipped fmt mtd outside k) (hk : k ≠ 0)
    (hstops : ScanStops fmt mtd outside k size) : scanOffset mtd k ≠ 0 := by
  intro hzero
  have hstart := hskipped 0 (Nat.pos_of_ne_zero hk)
  rw [scanOffset_zero] at hstart
  rcases hstops with haccepts | ⟨hend, -⟩
  · rw [hzero] at haccepts
    exact haccepts.not_skips hstart
  · have := hstart.1
    omega

theorem Accepts.addSize_zero {size : Nat} (h : Accepts fmt mtd outside 0 size) : addSize 0 size = size := by
  obtain ⟨-, -, len, -, rfl⟩ := h
  rw [addSize, Nat.zero_add, Nat.mod_eq_of_lt (imageSize_lt len)]

/-- The layout that is promised is the one that was made. -/
theorem SplitRight.layout {parse : Nat → Option (Except Errno (List Partition))} (h : SplitRight fmt mtd parse)
    {fuel : Nat} {kernel rootfs : Partition} {parts : List Partition} (hparse : parse fuel = some (.ok parts))
    (hparts : parts = [kernel, rootfs] ∨ parts = [rootfs, kernel]) (hname : kernel.name = .kernel) :
    SplitLayout fmt mtd kernel rootfs := by
  obtain ⟨kernel', rootfs', hparts', hlayout⟩ := h.sound fuel parts hparse
  have hnames := hlayout.names
  rcases hparts with rfl | rfl <;> rcases hparts' with hparts' | hparts' <;>
    obtain ⟨rfl, rfl⟩ : _ ∧ _ := by simpa using hparts'
  · exact hlayout
  · simp [hname] at hnames
  · simp [hname] at hnames
  · exact hlayout

theorem exists_parse {k size : Nat} {result : Except Errno (List Partition)} (hbuf : fmt.headerLen % 2 ^ 32 ≠ 0)
    (hskipped : Skipped fmt mtd outside k) (hstops : ScanStops fmt mtd outside k size)
    (hfinishes : Finishes big mtd (scanOffset mtd k) size result) :
    ∃ fuel, mtdsplitParse fmt big mtd outside fuel = some result :=
  parse_iff.2 (.inr ⟨hbuf, k, size, hskipped, hstops, hfinishes⟩)

theorem rootfsBefore_ok {o size : Nat} {type : PartType} (h : mtdCheckRootfsMagic big mtd 0 = .ok type) :
    rootfsBefore big mtd o size = .ok [
      { name := rootfsName type, offset := 0, size := o },
      { name := .kernel, offset := o, size := size }] := by
  rw [rootfsBefore, h]

theorem rootfsAfter_ok {found : Except Errno (Nat × PartType)} {parts : List Partition}
    (h : rootfsAfter mtd found = .ok parts) :
    ∃ r type, found = .ok (r, type) ∧ (mtd.size - r) % 2 ^ 32 ≠ 0 ∧ parts = [
      { name := .kernel, offset := 0, size := r },
      { name := rootfsName type, offset := r, size := (mtd.size - r) % 2 ^ 32 }] := by
  match found with
  | .error err => cases h
  | .ok (r, type) =>
      rw [rootfsAfter] at h
      split at h
      case isTrue => cases h
      case isFalse hrest => exact ⟨r, type, rfl, hrest, (Except.ok.inj h).symm⟩

theorem rootfsName_or (type : PartType) : rootfsName type = .rootfs ∨ rootfsName type = .ubi := by
  cases type <;> simp [rootfsName]

/-! ### A parser that is right -/

section Right

variable (hbuf : fmt.headerLen % 2 ^ 32 ≠ 0) (h : SplitRight fmt mtd (mtdsplitParse fmt big mtd outside))
include hbuf h

/-- The layout behind the start, of what was accepted there or left over. -/
theorem layout_behind {k size : Nat} (hskipped : Skipped fmt mtd outside k) (hk : k ≠ 0)
    (hstops : ScanStops fmt mtd outside k size) (hsize : size ≠ 0) (hroot : HasRootfs big mtd 0) :
    ∃ rootfs, SplitLayout fmt mtd { name := .kernel, offset := scanOffset mtd k, size := size } rootfs := by
  obtain ⟨type, htype⟩ := hroot
  have hne := scanOffset_ne_zero hskipped hk hstops
  obtain ⟨fuel, hparse⟩ : ∃ fuel, mtdsplitParse fmt big mtd outside fuel = some (rootfsBefore big mtd _ size) :=
    exists_parse hbuf hskipped hstops (.inr (.inr ⟨hsize, hne, rfl⟩))
  rw [rootfsBefore_ok htype] at hparse
  exact ⟨_, h.layout hparse (.inr rfl) rfl⟩

theorem right_atStart {size : Nat} (haccepts : Accepts fmt mtd outside 0 size) (hsize : size ≠ 0) {n : Nat}
    (hmeets : MeetsAt big mtd size n) (hrest : (mtd.size - searchOffset mtd size n) % 2 ^ 32 ≠ 0) :
    ImageAt fmt mtd 0 ∧ searchOffset mtd size n ≠ 0 := by
  obtain ⟨type, htype⟩ := hmeets.rootfs
  have hfound := findRootfs_ok_iff.2 ⟨n, hmeets, rfl, htype⟩
  have hstops : ScanStops fmt mtd outside 0 size := by
    rw [ScanStops, scanOffset_zero]
    exact .inl haccepts
  have hfinishes : Finishes big mtd (scanOffset mtd 0) size
      (rootfsAfter mtd (.ok (searchOffset mtd size n, type))) := by
    rw [scanOffset_zero]
    exact .inr (.inl ⟨hsize, rfl, _, haccepts.addSize_zero.symm ▸ hfound, rfl⟩)
  obtain ⟨fuel, hparse⟩ := exists_parse hbuf (fun j hj => absurd hj (Nat.not_lt_zero j)) hstops hfinishes
  rw [rootfsAfter, if_neg hrest] at hparse
  have hlayout := h.layout hparse (.inl rfl) rfl
  exact ⟨hlayout.image, Nat.pos_iff_ne_zero.1 hlayout.nonempty.1⟩

theorem right_behind {k size : Nat} (hskipped : Skipped fmt mtd outside k) (hk : k ≠ 0)
    (haccepts : Accepts fmt mtd outside (scanOffset mtd k) size) (hsize : size ≠ 0) (hroot : HasRootfs big mtd 0) :
    k * mtd.erasesize < 2 ^ 32 ∧ ImageAt fmt mtd (k * mtd.erasesize) ∧
      (2 ^ 32 ≤ fmt.headerLen → ∀ j < k, ¬ ImageAt fmt mtd (j * mtd.erasesize)) := by
  obtain ⟨rootfs, hlayout⟩ := layout_behind hbuf h hskipped hk (.inl haccepts) hsize hroot
  have hlt : k * mtd.erasesize < 2 ^ 32 := by
    by_contra hwrap
    obtain ⟨j, hjk, hsame⟩ := scanOffset_again hlayout.boundary (Nat.le_of_not_lt hwrap)
    exact haccepts.not_skips (hsame ▸ hskipped j hjk)
  have himage := hlayout.image
  have hlowest := hlayout.lowest
  simp only [scanOffset_eq hlt] at himage hlowest
  refine ⟨hlt, himage, fun _ j hj => hlowest _ (Nat.dvd_mul_left _ _) ?_⟩
  exact Nat.mul_lt_mul_of_pos_right hj mtd.erasesize_pos

theorem right_stale {k : Nat} (hskipped : Skipped fmt mtd outside k) (hend : mtd.size ≤ scanOffset mtd k)
    (hsize : sizeBefore fmt mtd outside k ≠ 0) : ¬ HasRootfs big mtd 0 := by
  intro hroot
  have hk : k ≠ 0 := by
    rintro rfl
    exact hsize rfl
  obtain ⟨rootfs, hlayout⟩ := layout_behind hbuf h hskipped hk (.inr ⟨hend, rfl⟩) hsize hroot
  have hin := hlayout.inside.1
  simp only [Partition.stop] at hin
  omega

theorem right_ends (hnone : ∀ o, mtd.erasesize ∣ o → ¬ ImageAt fmt mtd o) :
    (∃ k, ¬ SkipsBlock fmt mtd outside (scanOffset mtd k)) ∧
      ∀ size, Accepts fmt mtd outside 0 size → size ≠ 0 → ∃ n, ¬ Passes big mtd (searchOffset mtd size n) := by
  obtain ⟨fuel, err, hparse⟩ := h.fails hnone
  rcases parse_iff.1 ⟨fuel, hparse⟩ with ⟨hbuf', -⟩ | ⟨-, k, size, hskipped, hstops, hfinishes⟩
  · exact absurd hbuf' hbuf
  refine ⟨⟨k, ?_⟩, fun size' haccepts hsize' => ?_⟩
  · rcases hstops with haccepts | ⟨hend, -⟩
    · exact haccepts.not_skips
    · exact fun hskips => absurd hskips.1 (by omega)
  · -- the scan has stopped at the start
    have hk : k = 0 := by
      by_contra hk
      have hstart := hskipped 0 (Nat.pos_of_ne_zero hk)
      rw [scanOffset_zero] at hstart
      exact haccepts.not_skips hstart
    obtain rfl := hk
    rw [ScanStops, scanOffset_zero] at hstops
    obtain rfl : size = size' := by
      rcases hstops with hstops | ⟨hend, -⟩
      · exact hstops.unique haccepts
      · exact absurd haccepts.1 (by omega)
    rcases hfinishes with ⟨hzero, -⟩ | ⟨-, -, found, hfound, -⟩ | ⟨-, hne, -⟩
    · exact absurd hzero hsize'
    · rw [scanOffset_zero, haccepts.addSize_zero] at hfound
      exact findRootfs_exists_returns_iff.1 ⟨found, hfound⟩
    · exact absurd (scanOffset_zero mtd) hne

theorem untangled_of_splitRight : Untangled fmt big mtd outside where
  atStart _ haccepts hsize _ hmeets hrest := right_atStart hbuf h haccepts hsize hmeets hrest
  behind _ _ hskipped hk haccepts hsize hroot := right_behind hbuf h hskipped hk haccepts hsize hroot
  stale _ hskipped hend hsize := right_stale hbuf h hskipped hend hsize
  ends hnone := right_ends hbuf h hnone

end Right

/-! ### An untangled device -/

section Untangled

variable (h : Untangled fmt big mtd outside)
include h

/-- A scan that does not stop behind the last block with a size left over stops at a header that it accepts. -/
theorem Untangled.accepts {k size : Nat} (hskipped : Skipped fmt mtd outside k)
    (hstops : ScanStops fmt mtd outside k size) (hsize : size ≠ 0)
    (hroot : scanOffset mtd k = 0 ∨ HasRootfs big mtd 0) :
    Accepts fmt mtd outside (scanOffset mtd k) size := by
  rcases hstops with haccepts | ⟨hend, rfl⟩
  · exact haccepts
  rcases hroot with hzero | hroot
  · have hk : k = 0 := by
      by_contra hk
      exact scanOffset_ne_zero hskipped hk (.inr ⟨hend, rfl⟩) hzero
    obtain rfl := hk
    exact absurd rfl hsize
  · exact absurd hroot (h.stale k hskipped hend hsize)

theorem Untangled.layout_atStart {size r : Nat} {type : PartType} (haccepts : Accepts fmt mtd outside 0 size)
    (hsize : size ≠ 0)
    (hfound : Loop.Returns (findRootfsTurn big mtd (mtd.size % 2 ^ 32)) size (.ok (r, type)))
    (hrest : (mtd.size - r) % 2 ^ 32 ≠ 0) :
    SplitLayout fmt mtd { name := .kernel, offset := 0, size := r }
      { name := rootfsName type, offset := r, size := (mtd.size - r) % 2 ^ 32 } := by
  obtain ⟨n, hmeets, rfl, -⟩ := findRootfs_ok_iff.1 hfound
  obtain ⟨himage, hne⟩ := h.atStart size haccepts hsize n hmeets hrest
  have hin : searchOffset mtd size n < mtd.size := lt_of_lt_of_le hmeets.inside (Nat.mod_le _ _)
  have hmod := Nat.mod_le (mtd.size - searchOffset mtd size n) (2 ^ 32)
  exact {
    names := ⟨rfl, rootfsName_or type⟩
    boundary := Nat.dvd_zero _
    image := himage
    lowest := fun o _ hlt => absurd hlt (Nat.not_lt_zero o)
    nonempty := ⟨Nat.pos_of_ne_zero hne, Nat.pos_of_ne_zero hrest⟩
    disjoint := .inl (by simp only [Partition.stop]; omega)
    inside := by
      simp only [Partition.stop]
      omega }

theorem Untangled.layout_behind (hlocal : fmt.Local) {k size : Nat} {type : PartType}
    (hskipped : Skipped fmt mtd outside k) (hk : k ≠ 0) (haccepts : Accepts fmt mtd outside (scanOffset mtd k) size)
    (hsize : size ≠ 0) (htype : mtdCheckRootfsMagic big mtd 0 = .ok type) :
    SplitLayout fmt mtd { name := .kernel, offset := scanOffset mtd k, size := size }
      { name := rootfsName type, offset := 0, size := scanOffset mtd k } := by
  obtain ⟨hlt, himage, hlarge⟩ := h.behind k size hskipped hk haccepts hsize ⟨type, htype⟩
  have hpos : 0 < k * mtd.erasesize := Nat.mul_pos (Nat.pos_of_ne_zero hk) mtd.erasesize_pos
  rw [scanOffset_eq hlt] at haccepts ⊢
  have hfits := himage.add_le hlocal haccepts
  exact {
    names := ⟨rfl, rootfsName_or type⟩
    boundary := Nat.dvd_mul_left _ _
    image := himage
    lowest := by
      rintro o ⟨j, rfl⟩ hlow himage'
      rw [Nat.mul_comm] at hlow himage'
      have hlow' : j * mtd.erasesize < k * mtd.erasesize := hlow
      have hjk : j < k := Nat.lt_of_mul_lt_mul_right hlow'
      by_cases hlen : fmt.headerLen < 2 ^ 32
      · obtain ⟨size', haccepts'⟩ : ∃ size', Accepts fmt mtd outside (j * mtd.erasesize) size' :=
          himage'.accepts hlocal hlen
        have hskips := hskipped j hjk
        rw [scanOffset_eq (by omega)] at hskips
        exact haccepts'.not_skips hskips
      · exact hlarge (Nat.le_of_not_lt hlen) j hjk himage'
    nonempty := ⟨Nat.pos_of_ne_zero hsize, hpos⟩
    disjoint := .inr (by simp only [Partition.stop]; omega)
    inside := by
      simp only [Partition.stop]
      omega }

theorem Untangled.sound (hlocal : fmt.Local) {fuel : Nat} {parts : List Partition}
    (hbuf : fmt.headerLen % 2 ^ 32 ≠ 0) (hparse : mtdsplitParse fmt big mtd outside fuel = some (.ok parts)) :
    ∃ kernel rootfs, (parts = [kernel, rootfs] ∨ parts = [rootfs, kernel]) ∧ SplitLayout fmt mtd kernel rootfs := by
  rcases parse_iff.1 ⟨fuel, hparse⟩ with ⟨hbuf', -⟩ | ⟨-, k, size, hskipped, hstops, hfinishes⟩
  · exact absurd hbuf' hbuf
  rcases hfinishes with ⟨-, herr⟩ | ⟨hsize, hzero, found, hfound, hok⟩ | ⟨hsize, hne, hok⟩
  · cases herr
  · obtain ⟨r, type, rfl, hrest, rfl⟩ := rootfsAfter_ok hok.symm
    have haccepts := h.accepts hskipped hstops hsize (.inl hzero)
    rw [hzero] at haccepts hfound
    rw [haccepts.addSize_zero] at hfound
    exact ⟨_, _, .inl rfl, h.layout_atStart haccepts hsize hfound hrest⟩
  · cases hcheck : mtdCheckRootfsMagic big mtd 0 with
    | error err =>
        rw [rootfsBefore, hcheck] at hok
        cases hok
    | ok type =>
        have haccepts := h.accepts hskipped hstops hsize (.inr ⟨type, hcheck⟩)
        have hk : k ≠ 0 := by
          rintro rfl
          exact hne (scanOffset_zero mtd)
        rw [rootfsBefore_ok hcheck] at hok
        obtain rfl := Except.ok.inj hok
        exact ⟨_, _, .inr rfl, h.layout_behind hlocal hskipped hk haccepts hsize hcheck⟩

theorem Untangled.fails (hnone : ∀ o, mtd.erasesize ∣ o → ¬ ImageAt fmt mtd o)
    (hbuf : fmt.headerLen % 2 ^ 32 ≠ 0) :
    ∃ fuel err, mtdsplitParse fmt big mtd outside fuel = some (.error err) := by
  obtain ⟨hscan, hsearch⟩ := h.ends hnone
  obtain ⟨⟨o, size⟩, hreturns⟩ := splitScan_exists_iff.2 hscan
  obtain ⟨k, hskipped, rfl, hstops⟩ := splitScan_iff.1 hreturns
  suffices hfinishes : ∃ err, Finishes big mtd (scanOffset mtd k) size (.error err) by
    obtain ⟨err, hfinishes⟩ := hfinishes
    obtain ⟨fuel, hparse⟩ := exists_parse hbuf hskipped hstops hfinishes
    exact ⟨fuel, err, hparse⟩
  by_cases hsize : size = 0
  · exact ⟨_, .inl ⟨hsize, rfl⟩⟩
  by_cases hzero : scanOffset mtd k = 0
  · have haccepts := h.accepts hskipped hstops hsize (.inl hzero)
    rw [hzero] at haccepts
    obtain ⟨found, hfound⟩ := findRootfs_exists_returns_iff.2 (hsearch size haccepts hsize)
    cases hafter : rootfsAfter mtd found with
    | error err =>
        refine ⟨err, .inr (.inl ⟨hsize, hzero, found, ?_, hafter.symm⟩)⟩
        rw [hzero, haccepts.addSize_zero]
        exact hfound
    | ok parts =>
        obtain ⟨r, type, rfl, hrest, -⟩ := rootfsAfter_ok hafter
        exact absurd (h.layout_atStart haccepts hsize hfound hrest).image (hnone 0 (Nat.dvd_zero _))
  · cases hcheck : mtdCheckRootfsMagic big mtd 0 with
    | error err => exact ⟨err, .inr (.inr ⟨hsize, hzero, by rw [rootfsBefore, hcheck]⟩)⟩
    | ok type =>
        have haccepts := h.accepts hskipped hstops hsize (.inr ⟨type, hcheck⟩)
        have hk : k ≠ 0 := by
          rintro rfl
          exact hzero (scanOffset_zero mtd)
        obtain ⟨-, himage, -⟩ := h.behind k size hskipped hk haccepts hsize ⟨type, hcheck⟩
        exact absurd himage (hnone _ (Nat.dvd_mul_left _ _))

end Untangled

theorem splitRight_iff (hlocal : fmt.Local) :
    SplitRight fmt mtd (mtdsplitParse fmt big mtd outside) ↔
      (fmt.headerLen % 2 ^ 32 ≠ 0 → Untangled fmt big mtd outside) := by
  constructor
  · exact fun h hbuf => untangled_of_splitRight hbuf h
  · intro h
    by_cases hbuf : fmt.headerLen % 2 ^ 32 = 0
    · have hparse : ∀ fuel, mtdsplitParse fmt big mtd outside fuel = some (.error .enomem) := fun _ => if_pos hbuf
      refine ⟨fun fuel parts hok => ?_, fun _ => ⟨0, _, hparse 0⟩⟩
      rw [hparse] at hok
      cases hok
    · exact ⟨fun _ _ hparse => (h hbuf).sound hlocal hbuf hparse, fun hnone => (h hbuf).fails hnone hbuf⟩

theorem images_splitRight_iff (node : Option UimageNode) (big : Bool) (mtd : Mtd) (outside : Nat → Byte) :
    (SplitRight (uimageFormat node) mtd (mtdsplitParseUimage node big mtd outside) ↔
      ((uimageFormat node).headerLen % 2 ^ 32 ≠ 0 → Untangled (uimageFormat node) big mtd outside)) ∧
    (SplitRight (jimageFormat big) mtd (mtdsplitParseJimage big mtd outside) ↔
      Untangled (jimageFormat big) big mtd outside) := by
  refine ⟨splitRight_iff (uimageFormat_local node), ?_⟩
  have hbuf : (jimageFormat big).headerLen % 2 ^ 32 ≠ 0 := by simp [jimageFormat, maxHeaderLen]
  refine (splitRight_iff (jimageFormat_local big)).trans ⟨fun h => h hbuf, fun h _ => h⟩

/-- Two blocks: a squashfs, and a header of an image that does not fit. -/
def staleMtd (header : Nat → Byte) : Mtd where
  size := 0x20000
  erasesize := 0x10000
  content i := if 0x10000 ≤ i then header (i - 0x10000) else (u32le squashfsMagic).getD i 0
  outcome _ _ := .done
  erasesize_pos := erasesize64K_pos
  erasesize_lt := erasesize64K_lt

def longUimage : Nat → Byte
  | 0 => 0x27
  | 1 => 0x05
  | 2 => 0x19
  | 3 => 0x56
  | 13 => 0x10
  | 28 => 0x05
  | 30 => 0x02
  | _ => 0

def longJimage : Nat → Byte
  | 0 => 0x04
  | 1 => 0x04
  | 2 => 0x24
  | 3 => 0x2b
  | 16 => 0x24
  | 17 => 0x21
  | 19 => 0x02
  | 26 => 0x10
  | _ => 0

/-- The size from the header in the last block becomes a kernel behind the end of the device. -/
theorem not_splitRight_staleMtd :
    ¬ SplitRight (uimageFormat none) (staleMtd longUimage)
        (mtdsplitParseUimage none false (staleMtd longUimage) fun _ => 0) ∧
      ¬ SplitRight (jimageFormat false) (staleMtd longJimage)
        (mtdsplitParseJimage false (staleMtd longJimage) fun _ => 0) := by
  constructor
  · intro h
    have hparse : mtdsplitParseUimage none false (staleMtd longUimage) (fun _ => 0) 3 = some (.ok [
        { name := .rootfs, offset := 0, size := 0x20000 },
        { name := .kernel, offset := 0x20000, size := 0x100040 }]) := by decide +kernel
    have hin := (h.layout hparse (.inr rfl) rfl).inside.1
    revert hin
    decide
  · intro h
    have hparse : mtdsplitParseJimage false (staleMtd longJimage) (fun _ => 0) 3 = some (.ok [
        { name := .rootfs, offset := 0, size := 0x20000 },
        { name := .kernel, offset := 0x20000, size := 0x100038 }]) := by decide +kernel
    have hin := (h.layout hparse (.inr rfl) rfl).inside.1
    revert hin
    decide

end Immwrt.Mtdsplit
