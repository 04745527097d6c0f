import Immwrt.Snand.Page
import Mathlib.Tactic

/-!
# The page formats agree

`rawPos` takes a place in the formatted page cache, data first and FDM bytes behind it, to its place on
the chip. Every formatted write leaves the same swapped bytes at these places, and every formatted read
undoes the swaps there.
-/

namespace Immwrt.Snand

namespace Geometry

variable (g : Geometry)

/-- The data bytes and the FDM bytes of a page. -/
def formattedSize : Nat := g.writesize + g.eccSteps * g.fdmSize

/-- The place on the chip of a byte of the formatted page cache. -/
def rawPos (y : Nat) : Nat :=
  if y < g.writesize then y / g.sectorSize * g.rawSectorSize + y % g.sectorSize
  else (y - g.writesize) / g.fdmSize * g.rawSectorSize + g.sectorSize + (y - g.writesize) % g.fdmSize

/-- The formatted page cache for a data and an OOB buffer. -/
def formatted (buf oob : Buf) : Buf := fun y => if y < g.writesize then buf y else oob (y - g.writesize)

variable {g}

/-! ### Places -/

theorem rawSectorSize_pos : 0 < g.rawSectorSize := by
  have hsector := g.sector_pos
  unfold rawSectorSize
  omega

theorem sector_div {i j : Nat} (hj : j < g.rawSectorSize) :
    (i * g.rawSectorSize + j) / g.rawSectorSize = i := by
  rw [Nat.mul_comm, Nat.mul_add_div rawSectorSize_pos, Nat.div_eq_of_lt hj, Nat.add_zero]

theorem sector_mod {i j : Nat} (hj : j < g.rawSectorSize) :
    (i * g.rawSectorSize + j) % g.rawSectorSize = j := by
  rw [Nat.mul_comm, Nat.mul_add_mod, Nat.mod_eq_of_lt hj]

/-- A place of the formatted page cache is a byte of a data sector or an FDM byte. -/
theorem formatted_cases {y : Nat} (hy : y < g.formattedSize) :
    (∃ i j, i < g.eccSteps ∧ j < g.sectorSize ∧ y < g.writesize ∧ y = i * g.sectorSize + j ∧
      g.rawPos y = i * g.rawSectorSize + j) ∨
    ∃ i j, i < g.eccSteps ∧ j < g.fdmSize ∧ g.writesize ≤ y ∧
      y = g.writesize + (i * g.fdmSize + j) ∧
      g.rawPos y = i * g.rawSectorSize + (g.sectorSize + j) := by
  by_cases hdata : y < g.writesize
  · refine .inl ⟨y / g.sectorSize, y % g.sectorSize, ?_, Nat.mod_lt _ g.sector_pos, hdata, ?_, ?_⟩
    · exact Nat.div_lt_of_lt_mul (by rw [Nat.mul_comm]; exact hdata)
    · rw [Nat.mul_comm, Nat.div_add_mod]
    · rw [rawPos, if_pos hdata]
  · have hlt : y - g.writesize < g.eccSteps * g.fdmSize := by
      unfold formattedSize at hy
      omega
    refine .inr ⟨(y - g.writesize) / g.fdmSize, (y - g.writesize) % g.fdmSize, ?_,
      Nat.mod_lt _ g.fdm_pos, Nat.not_lt.1 hdata, ?_, ?_⟩
    · exact Nat.div_lt_of_lt_mul (by rw [Nat.mul_comm]; exact hlt)
    · rw [Nat.mul_comm ((y - g.writesize) / g.fdmSize), Nat.div_add_mod]
      omega
    · rw [rawPos, if_neg hdata, Nat.add_assoc]

theorem data_lt_raw {j : Nat} (hj : j < g.sectorSize) : j < g.rawSectorSize := by
  unfold rawSectorSize
  omega

theorem fdm_lt_raw {j : Nat} (hj : j < g.fdmSize) : g.sectorSize + j < g.rawSectorSize := by
  have hspare := g.fdm_spare
  unfold rawSectorSize
  omega

theorem programLoad_rawPos (parity : Buf → Nat → Nat → Byte) (pageCache : Buf) {y : Nat}
    (hy : y < g.formattedSize) :
    g.programLoad parity pageCache false (g.rawPos y) = pageCache y := by
  rcases formatted_cases hy with ⟨i, j, -, hj, -, rfl, hpos⟩ | ⟨i, j, -, hj, -, rfl, hpos⟩
  · rw [hpos]
    simp only [programLoad, Bool.false_eq_true, if_false, sector_div (data_lt_raw hj),
      sector_mod (data_lt_raw hj), if_pos hj]
  · rw [hpos]
    have hdata : ¬ g.sectorSize + j < g.sectorSize := by omega
    simp only [programLoad, Bool.false_eq_true, if_false, sector_div (fdm_lt_raw hj),
      sector_mod (fdm_lt_raw hj), if_neg hdata, Nat.add_lt_add_iff_left, if_pos hj,
      Nat.add_sub_cancel_left, writeFdm]

theorem readCache_rawPos (page pageCache : Buf) {y : Nat} (hy : y < g.formattedSize) :
    g.readCache page false pageCache y = page (g.rawPos y) := by
  simp only [readCache, Bool.false_eq_true, if_false, readFdm, rawPos]
  by_cases hdata : y < g.writesize
  · rw [if_neg (by omega), if_pos hdata, if_pos hdata]
  · unfold formattedSize at hy
    rw [if_pos (by omega), if_neg hdata]

/-- Programming any page cache can be undone, so no two places meet on the chip. -/
theorem rawPos_injective {y z : Nat} (hy : y < g.formattedSize) (hz : z < g.formattedSize)
    (heq : g.rawPos y = g.rawPos z) : y = z := by
  have hsame := programLoad_rawPos (fun _ _ _ => 0) (fun x => if x = y then 1 else 0) hz
  rw [← heq, programLoad_rawPos _ _ hy, if_pos rfl] at hsame
  by_contra hne
  rw [if_neg (Ne.symm hne)] at hsame
  exact absurd hsame (by decide)

theorem rawPos_lt {y : Nat} (hy : y < g.formattedSize) :
    g.rawPos y < g.eccSteps * g.rawSectorSize := by
  have hsector : ∀ i j, i < g.eccSteps → j < g.rawSectorSize →
      i * g.rawSectorSize + j < g.eccSteps * g.rawSectorSize := by
    intro i j hi hj
    calc i * g.rawSectorSize + j < i * g.rawSectorSize + g.rawSectorSize := by omega
      _ = (i + 1) * g.rawSectorSize := by ring
      _ ≤ g.eccSteps * g.rawSectorSize := Nat.mul_le_mul_right _ hi
  rcases formatted_cases hy with ⟨i, j, hi, hj, -, -, hpos⟩ | ⟨i, j, hi, hj, -, -, hpos⟩
  · rw [hpos]
    exact hsector i j hi (data_lt_raw hj)
  · rw [hpos]
    exact hsector i _ hi (fdm_lt_raw hj)

/-! ### Swaps -/

theorem doBmSwap_apply (buf : Buf) (a b y : Nat) :
    doBmSwap buf a b y = if y = b then buf a else if y = a then buf b else buf y := by
  unfold doBmSwap
  by_cases hb : y = b
  · subst hb
    rw [Function.update_self, if_pos rfl]
  · rw [Function.update_of_ne hb, if_neg hb]
    by_cases ha : y = a
    · subst ha
      rw [Function.update_self, if_pos rfl]
    · rw [Function.update_of_ne ha, if_neg ha]

theorem doBmSwap_doBmSwap (buf : Buf) (a b : Nat) : doBmSwap (doBmSwap buf a b) a b = buf := by
  funext y
  simp only [doBmSwap_apply]
  split_ifs <;> simp_all

theorem doBmSwap_rawPos (buf : Buf) {a b y : Nat} (ha : a < g.formattedSize)
    (hb : b < g.formattedSize) (hy : y < g.formattedSize) :
    doBmSwap buf (g.rawPos a) (g.rawPos b) (g.rawPos y) =
      doBmSwap (fun y => buf (g.rawPos y)) a b y := by
  have hinj : ∀ z, z < g.formattedSize → (g.rawPos y = g.rawPos z ↔ y = z) :=
    fun z hz => ⟨rawPos_injective hy hz, fun heq => by rw [heq]⟩
  simp only [doBmSwap_apply, hinj b hb, hinj a ha]

/-- The places of the formatted page cache that the swaps touch. -/
structure SwapPlaces (g : Geometry) : Prop where
  fdm_lt : g.writesize < g.formattedSize
  last_lt : g.writesize + (g.eccSteps - 1) * g.fdmSize < g.formattedSize
  mark_lt : g.writesize - (g.eccSteps - 1) * g.sparePerSector < g.writesize
  fdm_raw : g.rawPos g.writesize = g.sectorSize
  last_raw : g.rawPos (g.writesize + (g.eccSteps - 1) * g.fdmSize) =
    (g.eccSteps - 1) * g.rawSectorSize + g.sectorSize
  mark_raw : g.rawPos (g.writesize - (g.eccSteps - 1) * g.sparePerSector) = g.writesize
  fdm_ne_last : g.writesize ≠ g.writesize + (g.eccSteps - 1) * g.fdmSize

theorem swapPlaces (hswap : ¬ (!g.bbmSwap || g.eccSteps == 1) = true)
    (hmark : (g.eccSteps - 1) * g.sparePerSector < g.sectorSize) : SwapPlaces g := by
  have hsteps : g.eccSteps ≠ 1 := by
    intro hone
    simp [hone] at hswap
  have hfdm := g.fdm_pos
  have hspare : 0 < g.sparePerSector := lt_of_lt_of_le hfdm g.fdm_spare
  obtain ⟨n, hn⟩ : ∃ n, g.eccSteps = n + 2 := ⟨g.eccSteps - 2, by have := g.steps_pos; omega⟩
  have hpred : g.eccSteps - 1 = n + 1 := by omega
  have hspares : 0 < (n + 1) * g.sparePerSector := Nat.mul_pos (Nat.succ_pos n) hspare
  have hfdms : 0 < (n + 1) * g.fdmSize := Nat.mul_pos (Nat.succ_pos n) hfdm
  have hall : (n + 2) * g.fdmSize = (n + 1) * g.fdmSize + g.fdmSize := by ring
  have hwrite : g.writesize = (n + 1) * g.sectorSize + g.sectorSize := by
    rw [writesize, hn]
    ring
  have hraw : (n + 1) * g.rawSectorSize =
      (n + 1) * g.sectorSize + (n + 1) * g.sparePerSector := by
    rw [rawSectorSize]
    ring
  rw [hpred] at hmark
  refine ⟨?_, ?_, ?_, ?_, ?_, ?_, ?_⟩
  · unfold formattedSize
    rw [hn]
    omega
  · unfold formattedSize
    rw [hn, show n + 2 - 1 = n + 1 by omega]
    omega
  · rw [hpred]
    omega
  · rw [rawPos, if_neg (Nat.lt_irrefl _), Nat.sub_self, Nat.zero_div, Nat.zero_mod]
    omega
  · rw [hpred, rawPos, if_neg (by omega), Nat.add_sub_cancel_left, Nat.mul_div_cancel _ hfdm,
      Nat.mul_mod_left, Nat.add_zero]
  · rw [hpred]
    have hsplit : g.writesize - (n + 1) * g.sparePerSector =
        g.sectorSize * (n + 1) + (g.sectorSize - (n + 1) * g.sparePerSector) := by
      rw [hwrite, Nat.mul_comm g.sectorSize]
      omega
    rw [rawPos, if_pos (by omega), hsplit, Nat.mul_add_div g.sector_pos, Nat.mul_add_mod,
      Nat.div_eq_of_lt (by omega), Nat.mod_eq_of_lt (by omega), Nat.add_zero, hraw, hwrite]
    omega
  · rw [hpred]
    omega

/-- The raw swaps are the formatted ones, seen on the chip. -/
theorem bmSwapRaw_rawPos (hmark : (g.eccSteps - 1) * g.sparePerSector < g.sectorSize) (buf : Buf)
    {y : Nat} (hy : y < g.formattedSize) :
    g.bmSwapRaw buf (g.rawPos y) = g.bmSwap (fun y => buf (g.rawPos y)) y := by
  unfold bmSwapRaw bmSwap
  split
  · rfl
  · rename_i hswap
    have hplaces := swapPlaces hswap hmark
    have hmarkLt := hplaces.mark_lt.trans hplaces.fdm_lt
    rw [← doBmSwap_rawPos _ hplaces.last_lt hmarkLt hy, hplaces.last_raw, hplaces.mark_raw]

theorem fdmBmSwapRaw_rawPos (hmark : (g.eccSteps - 1) * g.sparePerSector < g.sectorSize) (buf : Buf)
    {y : Nat} (hy : y < g.formattedSize) :
    g.fdmBmSwapRaw buf (g.rawPos y) = g.fdmBmSwap (fun y => buf (g.rawPos y)) y := by
  unfold fdmBmSwapRaw fdmBmSwap
  split
  · rfl
  · rename_i hswap
    have hplaces := swapPlaces hswap hmark
    rw [← doBmSwap_rawPos _ hplaces.fdm_lt hplaces.last_lt hy, hplaces.last_raw, hplaces.fdm_raw]

/-- Swaps only look at places of the formatted page cache. -/
theorem bmSwap_congr (hmark : (g.eccSteps - 1) * g.sparePerSector < g.sectorSize) {buf buf' : Buf}
    (heq : ∀ y, y < g.formattedSize → buf y = buf' y) {y : Nat} (hy : y < g.formattedSize) :
    g.bmSwap buf y = g.bmSwap buf' y := by
  unfold bmSwap
  split
  · exact heq y hy
  · rename_i hswap
    have hplaces := swapPlaces hswap hmark
    have hmarkLt := hplaces.mark_lt.trans hplaces.fdm_lt
    rw [doBmSwap_apply, doBmSwap_apply, heq y hy, heq _ hplaces.last_lt, heq _ hmarkLt]

theorem fdmBmSwap_congr (hmark : (g.eccSteps - 1) * g.sparePerSector < g.sectorSize)
    {buf buf' : Buf} (heq : ∀ y, y < g.formattedSize → buf y = buf' y) {y : Nat}
    (hy : y < g.formattedSize) : g.fdmBmSwap buf y = g.fdmBmSwap buf' y := by
  unfold fdmBmSwap
  split
  · exact heq y hy
  · rename_i hswap
    have hplaces := swapPlaces hswap hmark
    rw [doBmSwap_apply, doBmSwap_apply, heq y hy, heq _ hplaces.last_lt, heq _ hplaces.fdm_lt]

theorem bmSwap_bmSwap (buf : Buf) : g.bmSwap (g.bmSwap buf) = buf := by
  unfold bmSwap
  split
  · rfl
  · exact doBmSwap_doBmSwap _ _ _

theorem fdmBmSwap_fdmBmSwap (buf : Buf) : g.fdmBmSwap (g.fdmBmSwap buf) = buf := by
  unfold fdmBmSwap
  split
  · rfl
  · exact doBmSwap_doBmSwap _ _ _

/-! ### Formatting in the driver -/

/-- Byte `j` of raw sector `i`. -/
def sectorByte (g : Geometry) (buf oob : Buf) (emptyEcc : Bool) (i j : Nat) : Byte :=
  if j < g.sectorSize then buf (i * g.sectorSize + j)
  else if j < g.sectorSize + g.fdmSize then oob (i * g.fdmSize + (j - g.sectorSize))
  else if emptyEcc then 0xff
  else oob (g.eccSteps * g.fdmSize + i * g.eccBytes + (j - g.sectorSize - g.fdmSize))

/-- Bytes of different sectors are apart. -/
theorem sector_apart {size i k j : Nat} (hj : j < size) (hne : i ≠ k) :
    i * size + j < k * size ∨ k * size + size ≤ i * size + j := by
  rcases Nat.lt_or_gt_of_ne hne with hlt | hgt
  · have hle := Nat.mul_le_mul_right size hlt
    rw [Nat.succ_mul] at hle
    omega
  · have hle := Nat.mul_le_mul_right size hgt
    rw [Nat.succ_mul] at hle
    omega

theorem rawSectorSize_eq : g.rawSectorSize = g.sectorSize + g.fdmSize + g.eccBytes := by
  have hspare := g.fdm_spare
  unfold rawSectorSize eccBytes
  omega

theorem toRawSector_apply (buf oob pageCache : Buf) (emptyEcc : Bool) {k i j : Nat}
    (hj : j < g.rawSectorSize) :
    g.toRawSector (some buf) (some oob) emptyEcc k pageCache (i * g.rawSectorSize + j) =
      if i = k then sectorByte g buf oob emptyEcc k j
      else pageCache (i * g.rawSectorSize + j) := by
  have hsize := rawSectorSize_eq (g := g)
  by_cases hik : i = k
  · subst hik
    rw [if_pos rfl]
    unfold sectorByte
    by_cases hdata : j < g.sectorSize
    · rw [if_pos hdata]
      cases emptyEcc
      · simp only [toRawSector, memcpy, Bool.false_eq_true, if_false]
        rw [if_neg (by omega), if_neg (by omega), if_pos (by omega), Nat.add_sub_cancel_left]
      · simp only [toRawSector, memcpy, memset, if_true]
        rw [if_neg (by omega), if_neg (by omega), if_pos (by omega), Nat.add_sub_cancel_left]
    · rw [if_neg hdata]
      by_cases hfdm : j < g.sectorSize + g.fdmSize
      · have hoff : i * g.rawSectorSize + j - (i * g.rawSectorSize + g.sectorSize) =
            j - g.sectorSize := by omega
        rw [if_pos hfdm]
        cases emptyEcc
        · simp only [toRawSector, memcpy, Bool.false_eq_true, if_false]
          rw [if_neg (by omega), if_pos (by omega), hoff]
        · simp only [toRawSector, memcpy, memset, if_true]
          rw [if_neg (by omega), if_pos (by omega), hoff]
      · have hoff : i * g.rawSectorSize + j - (i * g.rawSectorSize + g.sectorSize + g.fdmSize) =
            j - g.sectorSize - g.fdmSize := by omega
        rw [if_neg hfdm]
        cases emptyEcc
        · simp only [toRawSector, memcpy, Bool.false_eq_true, if_false]
          rw [if_pos (by omega), hoff]
        · simp only [toRawSector, memcpy, memset, if_true]
          rw [if_pos (by omega)]
  · have hapart := sector_apart hj hik
    rw [if_neg hik]
    cases emptyEcc
    · simp only [toRawSector, memcpy, Bool.false_eq_true, if_false]
      rw [if_neg (by omega), if_neg (by omega), if_neg (by omega)]
    · simp only [toRawSector, memcpy, memset, if_true]
      rw [if_neg (by omega), if_neg (by omega), if_neg (by omega)]

/-- A loop over sectors that sets the byte `x` in turn `i` only. -/
theorem foldl_sectors {step : Buf → Nat → Buf} {n i x : Nat} {v : Byte} (start : Buf)
    (hstep : ∀ buf k, k < n → step buf k x = if i = k then v else buf x) :
    (List.range n).foldl step start x = if i < n then v else start x := by
  induction n with
  | zero => rfl
  | succ n ih =>
    have hprev := ih fun buf k hk => hstep buf k (Nat.lt_succ_of_lt hk)
    rw [List.range_succ, List.foldl_append, List.foldl_cons, List.foldl_nil,
      hstep _ n (Nat.lt_succ_self n), hprev]
    by_cases hin : i = n
    · subst hin
      rw [if_pos rfl, if_pos (by omega)]
    · rw [if_neg hin]
      by_cases hlt : i < n
      · rw [if_pos hlt, if_pos (by omega)]
      · rw [if_neg hlt, if_neg (by omega)]

theorem toRawPage_apply (buf oob pageCache : Buf) (emptyEcc : Bool) {i j : Nat}
    (hi : i < g.eccSteps) (hj : j < g.rawSectorSize) :
    g.toRawPage (some buf) (some oob) emptyEcc pageCache (i * g.rawSectorSize + j) =
      sectorByte g buf oob emptyEcc i j := by
  rw [toRawPage, foldl_sectors _ fun start k _ => ?_, if_pos hi]
  rw [toRawSector_apply _ _ _ _ hj]
  by_cases hik : i = k
  · rw [if_pos hik, if_pos hik, hik]
  · rw [if_neg hik, if_neg hik]

theorem toRawPage_rawPos (buf oob pageCache : Buf) (emptyEcc : Bool) {y : Nat}
    (hy : y < g.formattedSize) :
    g.toRawPage (some buf) (some oob) emptyEcc pageCache (g.rawPos y) = g.formatted buf oob y := by
  rcases formatted_cases hy with ⟨i, j, hi, hj, hlt, heq, hpos⟩ | ⟨i, j, hi, hj, hle, heq, hpos⟩
  · rw [hpos, toRawPage_apply _ _ _ _ hi (data_lt_raw hj), sectorByte, if_pos hj, formatted,
      if_pos hlt, heq]
  · rw [hpos, toRawPage_apply _ _ _ _ hi (fdm_lt_raw hj), sectorByte, if_neg (by omega),
      if_pos (by omega), formatted, if_neg (Nat.not_lt.2 hle), heq, Nat.add_sub_cancel_left,
      Nat.add_sub_cancel_left]

theorem fromRawPage_fold (pageCache : Buf) (buf oob : Buf) :
    g.fromRawPage pageCache (some buf) (some oob) =
      (some ((List.range g.eccSteps).foldl (fun buf i =>
        memcpy buf (i * g.sectorSize) pageCache (i * g.rawSectorSize) g.sectorSize) buf),
      some ((List.range g.eccSteps).foldl (fun oob i =>
        memcpy (memcpy oob (i * g.fdmSize) pageCache (i * g.rawSectorSize + g.sectorSize) g.fdmSize)
          (g.eccSteps * g.fdmSize + i * g.eccBytes) pageCache
          (i * g.rawSectorSize + g.sectorSize + g.fdmSize) g.eccBytes) oob)) := by
  have hloop : ∀ (sectors : List Nat) (buf oob : Buf),
      sectors.foldl (fun bufs i => g.fromRawSector pageCache i bufs) (some buf, some oob) =
      (some (sectors.foldl (fun buf i =>
        memcpy buf (i * g.sectorSize) pageCache (i * g.rawSectorSize) g.sectorSize) buf),
      some (sectors.foldl (fun oob i =>
        memcpy (memcpy oob (i * g.fdmSize) pageCache (i * g.rawSectorSize + g.sectorSize) g.fdmSize)
          (g.eccSteps * g.fdmSize + i * g.eccBytes) pageCache
          (i * g.rawSectorSize + g.sectorSize + g.fdmSize) g.eccBytes) oob)) := by
    intro sectors
    induction sectors with
    | nil => exact fun _ _ => rfl
    | cons i sectors ih => exact fun buf oob => ih _ _
  exact hloop _ buf oob

/-- What `mtk_snand_from_raw_page` copies: the data, the FDM bytes and the ECC bytes. -/
theorem fromRawPage_apply (pageCache buf oob : Buf) :
    ∃ buf' oob', g.fromRawPage pageCache (some buf) (some oob) = (some buf', some oob') ∧
      (∀ x, x < g.writesize → buf' x = pageCache (g.rawPos x)) ∧
      (∀ x, x < g.eccSteps * g.fdmSize → oob' x = pageCache (g.rawPos (g.writesize + x))) ∧
      ∀ i j, i < g.eccSteps → j < g.eccBytes →
        oob' (g.eccSteps * g.fdmSize + i * g.eccBytes + j) =
          pageCache (i * g.rawSectorSize + (g.sectorSize + g.fdmSize + j)) := by
  have hfits : ∀ k, k < g.eccSteps → k * g.fdmSize + g.fdmSize ≤ g.eccSteps * g.fdmSize := by
    intro k hk
    have hle := Nat.mul_le_mul_right g.fdmSize hk
    rwa [Nat.succ_mul] at hle
  refine ⟨_, _, fromRawPage_fold pageCache buf oob, fun x hx => ?_, fun x hx => ?_,
    fun i j hi hj => ?_⟩
  · have hy : x < g.formattedSize := by
      unfold formattedSize
      omega
    rcases formatted_cases hy with ⟨i, j, hi, hj, -, heq, hpos⟩ | ⟨i, j, -, -, hle, -, -⟩
    · rw [hpos, heq, foldl_sectors buf fun buf k _ => ?_, if_pos hi]
      by_cases hik : i = k
      · subst hik
        rw [memcpy, if_pos (by omega), if_pos rfl, Nat.add_sub_cancel_left]
      · have hapart := sector_apart hj hik
        rw [memcpy, if_neg (by omega), if_neg hik]
    · omega
  · have hy : g.writesize + x < g.formattedSize := by
      unfold formattedSize
      omega
    rcases formatted_cases hy with ⟨i, j, -, -, hlt, -, -⟩ | ⟨i, j, hi, hj, -, heq, hpos⟩
    · omega
    · have heq : x = i * g.fdmSize + j := by omega
      have hfit := hfits i hi
      rw [hpos, heq, foldl_sectors oob fun oob k hk => ?_, if_pos hi]
      by_cases hik : i = k
      · subst hik
        rw [memcpy, if_neg (by omega), memcpy, if_pos (by omega), if_pos rfl,
          Nat.add_sub_cancel_left, Nat.add_assoc]
      · have hapart := sector_apart hj hik
        rw [memcpy, if_neg (by omega), memcpy, if_neg (by omega), if_neg hik]
  · rw [foldl_sectors oob fun oob k hk => ?_, if_pos hi]
    have hfit := hfits k hk
    by_cases hik : i = k
    · subst hik
      rw [memcpy, if_pos (by omega), if_pos rfl]
      congr 1
      omega
    · have hapart := sector_apart hj hik
      rw [memcpy, if_neg (by omega), memcpy, if_neg (by omega), if_neg hik]

/-! ### Formatted writes and reads -/

theorem doWritePage_rawPos (hmark : (g.eccSteps - 1) * g.sparePerSector < g.sectorSize)
    (parity : Buf → Nat → Nat → Byte) (buf oob pageCache : Buf) (raw : Bool) {y : Nat}
    (hy : y < g.formattedSize) :
    g.doWritePage parity (some buf) (some oob) raw true pageCache (g.rawPos y) =
      g.bmSwap (g.fdmBmSwap (g.formatted buf oob)) y := by
  have hraw : ∀ emptyEcc, g.bmSwapRaw (g.fdmBmSwapRaw
      (g.toRawPage (some buf) (some oob) emptyEcc pageCache)) (g.rawPos y) =
        g.bmSwap (g.fdmBmSwap (g.formatted buf oob)) y := by
    intro emptyEcc
    rw [bmSwapRaw_rawPos hmark _ hy]
    refine bmSwap_congr hmark (fun z hz => ?_) hy
    rw [fdmBmSwapRaw_rawPos hmark _ hz]
    exact fdmBmSwap_congr hmark (fun w hw => toRawPage_rawPos buf oob pageCache emptyEcc hw) hz
  by_cases hmode : raw = true ∨ g.isEmptyPage (some buf) (some oob) = true
  · have hformat : g.writeCache (some buf) (some oob) raw true pageCache =
        (g.bmSwapRaw (g.fdmBmSwapRaw (g.toRawPage (some buf) (some oob)
          (!raw && g.isEmptyPage (some buf) (some oob)) pageCache)), true) := by
      rcases hmode with rfl | hempty
      · rfl
      · cases raw <;> simp [writeCache, hempty]
    simp only [doWritePage, hformat, programLoad, if_true]
    exact hraw _
  · obtain ⟨rfl, hempty⟩ : raw = false ∧ g.isEmptyPage (some buf) (some oob) = false := by
      simpa using hmode
    have hcache : g.writeCache (some buf) (some oob) false true pageCache =
        (g.bmSwap (g.fdmBmSwap (memcpy (memcpy (memset pageCache 0xff 0 (g.writesize + g.oobsize)) 0
          buf 0 g.writesize) g.writesize oob 0 (g.eccSteps * g.fdmSize))), false) := by
      simp [writeCache, hempty]
    simp only [doWritePage, hcache]
    rw [programLoad_rawPos _ _ hy]
    refine bmSwap_congr hmark (fun z hz => fdmBmSwap_congr hmark (fun w hw => ?_) hz) hy
    unfold formattedSize at hw
    unfold formatted
    by_cases hdata : w < g.writesize
    · rw [if_pos hdata, memcpy, if_neg (by omega), memcpy, if_pos (by omega), Nat.zero_add,
        Nat.sub_zero]
    · rw [if_neg hdata, memcpy, if_pos (by omega), Nat.zero_add]

/-- The swaps of a formatted read undo those of the write. -/
theorem doWritePage_swapped_back (hmark : (g.eccSteps - 1) * g.sparePerSector < g.sectorSize)
    (parity : Buf → Nat → Nat → Byte) (buf oob pageCache : Buf) (raw : Bool) {y : Nat}
    (hy : y < g.formattedSize) :
    g.fdmBmSwap (g.bmSwap fun y =>
      g.doWritePage parity (some buf) (some oob) raw true pageCache (g.rawPos y)) y = g.formatted buf oob y := by
  have hcongr := fdmBmSwap_congr hmark (fun z hz => bmSwap_congr hmark
    (fun w hw => doWritePage_rawPos hmark parity buf oob pageCache raw hw) hz) hy
  rw [hcongr, bmSwap_bmSwap, fdmBmSwap_fdmBmSwap]

theorem doReadPage_rawPos (hmark : (g.eccSteps - 1) * g.sparePerSector < g.sectorSize)
    (page buf oob pageCache : Buf) (raw : Bool) :
    ∃ buf' oob', g.doReadPage page (some buf) (some oob) raw true pageCache =
        (some buf', some oob') ∧
      (∀ x, x < g.writesize → buf' x =
        g.fdmBmSwap (g.bmSwap fun y => page (g.rawPos y)) x) ∧
      ∀ x, x < g.eccSteps * g.fdmSize → oob' x =
        g.fdmBmSwap (g.bmSwap fun y => page (g.rawPos y)) (g.writesize + x) := by
  cases raw with
  | true =>
    obtain ⟨buf', oob', hfrom, hdata, hoob, -⟩ := fromRawPage_apply (g := g)
      (g.fdmBmSwapRaw (g.bmSwapRaw (g.readCache page true pageCache))) buf oob
    have hcache : ∀ y, y < g.formattedSize →
        g.fdmBmSwapRaw (g.bmSwapRaw (g.readCache page true pageCache)) (g.rawPos y) =
          g.fdmBmSwap (g.bmSwap fun y => page (g.rawPos y)) y := by
      intro y hy
      rw [fdmBmSwapRaw_rawPos hmark _ hy]
      refine fdmBmSwap_congr hmark (fun z hz => ?_) hy
      rw [bmSwapRaw_rawPos hmark _ hz]
      refine bmSwap_congr hmark (fun w hw => ?_) hz
      have hlt := rawPos_lt hw
      simp only [readCache, if_true, memcpy]
      rw [if_pos (by omega), Nat.zero_add, Nat.sub_zero]
    refine ⟨buf', oob', hfrom, fun x hx => ?_, fun x hx => ?_⟩
    · rw [hdata x hx, hcache x (by unfold formattedSize; omega)]
    · rw [hoob x hx, hcache _ (by unfold formattedSize; omega)]
  | false =>
    have hcache : ∀ y, y < g.formattedSize →
        g.fdmBmSwap (g.bmSwap (g.readCache page false pageCache)) y =
          g.fdmBmSwap (g.bmSwap fun y => page (g.rawPos y)) y := by
      intro y hy
      refine fdmBmSwap_congr hmark (fun z hz => ?_) hy
      exact bmSwap_congr hmark (fun w hw => readCache_rawPos page pageCache hw) hz
    refine ⟨_, _, rfl, fun x hx => ?_, fun x hx => ?_⟩
    · simp only [Bool.false_eq_true, if_false, memcpy]
      rw [if_pos (by omega), Nat.zero_add, Nat.sub_zero,
        hcache x (by unfold formattedSize; omega)]
    · simp only [Bool.false_eq_true, if_false, memcpy]
      rw [if_pos (by omega), Nat.sub_zero, hcache _ (by unfold formattedSize; omega)]

/-! ### ECC bytes -/

/-- The place on the chip of ECC byte `j` of sector `i`. -/
def eccPos (g : Geometry) (i j : Nat) : Nat :=
  i * g.rawSectorSize + (g.sectorSize + g.fdmSize + j)

theorem rawPos_ne_eccPos {y i j : Nat} (hy : y < g.formattedSize) (hj : j < g.eccBytes) :
    eccPos g i j ≠ g.rawPos y := by
  have hsize := rawSectorSize_eq (g := g)
  have hecc : eccPos g i j % g.rawSectorSize = g.sectorSize + g.fdmSize + j :=
    sector_mod (by omega)
  intro heq
  rw [heq] at hecc
  rcases formatted_cases hy with ⟨i', j', -, hj', -, -, hpos⟩ | ⟨i', j', -, hj', -, -, hpos⟩
  · rw [hpos, sector_mod (data_lt_raw hj')] at hecc
    omega
  · rw [hpos, sector_mod (fdm_lt_raw hj')] at hecc
    omega

theorem bmSwapRaw_eccPos (hmark : (g.eccSteps - 1) * g.sparePerSector < g.sectorSize) (buf : Buf)
    {i j : Nat} (hj : j < g.eccBytes) : g.bmSwapRaw buf (eccPos g i j) = buf (eccPos g i j) := by
  unfold bmSwapRaw
  split
  · rfl
  · rename_i hswap
    have hplaces := swapPlaces hswap hmark
    have hmarkLt := hplaces.mark_lt.trans hplaces.fdm_lt
    rw [← hplaces.last_raw, doBmSwap_apply, if_neg, if_neg (rawPos_ne_eccPos hplaces.last_lt hj)]
    have hne := rawPos_ne_eccPos (i := i) hmarkLt hj
    rwa [hplaces.mark_raw] at hne

theorem fdmBmSwapRaw_eccPos (hmark : (g.eccSteps - 1) * g.sparePerSector < g.sectorSize) (buf : Buf)
    {i j : Nat} (hj : j < g.eccBytes) :
    g.fdmBmSwapRaw buf (eccPos g i j) = buf (eccPos g i j) := by
  unfold fdmBmSwapRaw
  split
  · rfl
  · rename_i hswap
    have hplaces := swapPlaces hswap hmark
    rw [← hplaces.last_raw, doBmSwap_apply, if_neg (rawPos_ne_eccPos hplaces.last_lt hj), if_neg]
    have hne := rawPos_ne_eccPos (i := i) hplaces.fdm_lt hj
    rwa [hplaces.fdm_raw] at hne

theorem doWritePage_eccPos (hmark : (g.eccSteps - 1) * g.sparePerSector < g.sectorSize)
    (parity : Buf → Nat → Nat → Byte) (buf oob pageCache : Buf) {i j : Nat} (hi : i < g.eccSteps)
    (hj : j < g.eccBytes) :
    g.doWritePage parity (some buf) (some oob) true true pageCache (eccPos g i j) =
      oob (g.eccSteps * g.fdmSize + i * g.eccBytes + j) := by
  have hsize := rawSectorSize_eq (g := g)
  have hpage : g.doWritePage parity (some buf) (some oob) true true pageCache =
      g.bmSwapRaw (g.fdmBmSwapRaw (g.toRawPage (some buf) (some oob) false pageCache)) := rfl
  rw [hpage, bmSwapRaw_eccPos hmark _ hj, fdmBmSwapRaw_eccPos hmark _ hj, eccPos,
    toRawPage_apply _ _ _ _ hi (by omega), sectorByte, if_neg (by omega), if_neg (by omega),
    if_neg Bool.false_ne_true]
  congr 1
  omega

theorem doReadPage_eccPos (hmark : (g.eccSteps - 1) * g.sparePerSector < g.sectorSize)
    (page buf oob pageCache : Buf) :
    ∃ buf' oob', g.doReadPage page (some buf) (some oob) true true pageCache =
        (some buf', some oob') ∧
      ∀ i j, i < g.eccSteps → j < g.eccBytes →
        oob' (g.eccSteps * g.fdmSize + i * g.eccBytes + j) = page (eccPos g i j) := by
  obtain ⟨buf', oob', hfrom, -, -, hecc⟩ := fromRawPage_apply (g := g)
    (g.fdmBmSwapRaw (g.bmSwapRaw (g.readCache page true pageCache))) buf oob
  refine ⟨buf', oob', hfrom, fun i j hi hj => ?_⟩
  have hsize := rawSectorSize_eq (g := g)
  have hlt : eccPos g i j < g.eccSteps * g.rawSectorSize := by
    have hle := Nat.mul_le_mul_right g.rawSectorSize hi
    rw [Nat.succ_mul] at hle
    unfold eccPos
    omega
  rw [hecc i j hi hj]
  show g.fdmBmSwapRaw _ (eccPos g i j) = _
  rw [fdmBmSwapRaw_eccPos hmark _ hj, bmSwapRaw_eccPos hmark _ hj]
  simp only [readCache, if_true, memcpy]
  rw [if_pos (by omega), Nat.zero_add, Nat.sub_zero]

/-! ### The bad block mark -/

theorem bmSwap_mark (hswap : ¬ (!g.bbmSwap || g.eccSteps == 1) = true) (buf : Buf) :
    g.bmSwap (g.fdmBmSwap buf) (g.writesize - (g.eccSteps - 1) * g.sparePerSector) =
      buf g.writesize := by
  rw [bmSwap, fdmBmSwap, if_neg hswap, if_neg hswap, doBmSwap_apply, if_pos rfl, doBmSwap_apply,
    if_pos rfl]

theorem doWritePage_mark (hmark : (g.eccSteps - 1) * g.sparePerSector < g.sectorSize)
    (hswap : g.bbmSwap = true ∨ g.eccSteps = 1) (parity : Buf → Nat → Nat → Byte)
    (buf oob pageCache : Buf) (raw format : Bool) :
    g.doWritePage parity (some buf) (some oob) raw format pageCache g.writesize = oob 0 := by
  have hzero : g.formatted buf oob g.writesize = oob 0 := by
    rw [formatted, if_neg (Nat.lt_irrefl _), Nat.sub_self]
  have hformatted :
      g.doWritePage parity (some buf) (some oob) raw true pageCache g.writesize = oob 0 := by
    by_cases hone : g.eccSteps = 1
    · have hsame : g.rawPos g.writesize = g.writesize := by
        rw [rawPos, if_neg (Nat.lt_irrefl _), Nat.sub_self, Nat.zero_div, Nat.zero_mod, writesize,
          hone]
        omega
      have hlt : g.writesize < g.formattedSize := by
        have hfdm := g.fdm_pos
        unfold formattedSize
        rw [hone]
        omega
      have hskip : (!g.bbmSwap || g.eccSteps == 1) = true := by simp [hone]
      have hpage := doWritePage_rawPos hmark parity buf oob pageCache raw hlt
      rw [hsame, bmSwap, fdmBmSwap, if_pos hskip, if_pos hskip] at hpage
      rw [hpage, hzero]
    · have hbbm : g.bbmSwap = true := hswap.resolve_right hone
      have hdo : ¬ (!g.bbmSwap || g.eccSteps == 1) = true := by simp [hbbm, hone]
      have hplaces := swapPlaces hdo hmark
      have hpage := doWritePage_rawPos hmark parity buf oob pageCache raw
        (hplaces.mark_lt.trans hplaces.fdm_lt)
      rw [hplaces.mark_raw, bmSwap_mark hdo] at hpage
      rw [hpage, hzero]
  cases format with
  | true => exact hformatted
  | false =>
    cases raw with
    | false =>
      have hsame : g.doWritePage parity (some buf) (some oob) false false pageCache =
          g.doWritePage parity (some buf) (some oob) false true pageCache := by
        unfold doWritePage writeCache
        cases g.isEmptyPage (some buf) (some oob) <;> rfl
      rw [hsame]
      exact hformatted
    | true =>
      have hspare : 0 < g.eccSteps * g.sparePerSector :=
        Nat.mul_pos g.steps_pos (lt_of_lt_of_le g.fdm_pos g.fdm_spare)
      simp only [doWritePage, writeCache, Bool.not_true, Bool.false_and, Bool.or_false,
        Bool.and_false, Bool.false_eq_true, if_false, if_true, programLoad, memcpy]
      rw [if_pos (by omega), Nat.sub_self]

theorem blockIsbadStd_eq (page bufCache pageCache : Buf) :
    g.blockIsbadStd page bufCache pageCache = decide (page g.writesize ≠ 0xff) := by
  have hspare : 0 < g.eccSteps * g.sparePerSector :=
    Nat.mul_pos g.steps_pos (lt_of_lt_of_le g.fdm_pos g.fdm_spare)
  have hraw : g.eccSteps * g.rawSectorSize = g.writesize + g.eccSteps * g.sparePerSector := by
    rw [rawSectorSize, writesize]
    ring
  have hbyte : ((g.doReadPage page none (some bufCache) true false pageCache).2.getD bufCache) 0 =
      page g.writesize := by
    simp only [doReadPage, readCache, Bool.and_false, Bool.false_eq_true, if_false, if_true,
      Option.map_some, Option.getD_some, memcpy]
    rw [if_pos (by omega), if_pos (by omega)]
    congr 1
    omega
  rw [blockIsbadStd, hbyte]

/-! ### The formats agree -/

/-- Whatever formatted write is followed by whatever formatted read, the data and the FDM bytes come
back; with raw writes and reads so does the whole spare area. Where the driver swaps bad block marks,
the first spare byte is the one that is tested. -/
theorem page_formats_agree (g : Geometry)
    (hmark : (g.eccSteps - 1) * g.sparePerSector < g.sectorSize)
    (parity : Buf → Nat → Nat → Byte) (buf oob writeCache readCache outBuf outOob : Buf) :
    (∀ rawWrite rawRead, ∃ buf' oob',
      g.doReadPage (g.doWritePage parity (some buf) (some oob) rawWrite true writeCache)
        (some outBuf) (some outOob) rawRead true readCache = (some buf', some oob') ∧
      (∀ x, x < g.writesize → buf' x = buf x) ∧
      ∀ x, x < g.eccSteps * g.fdmSize → oob' x = oob x) ∧
    (∃ buf' oob',
      g.doReadPage (g.doWritePage parity (some buf) (some oob) true true writeCache)
        (some outBuf) (some outOob) true true readCache = (some buf', some oob') ∧
      (∀ x, x < g.writesize → buf' x = buf x) ∧
      ∀ x, x < g.eccSteps * g.sparePerSector → oob' x = oob x) ∧
    (g.bbmSwap = true ∨ g.eccSteps = 1 → ∀ raw format,
      g.doWritePage parity (some buf) (some oob) raw format writeCache g.writesize = oob 0 ∧
      g.blockIsbadStd (g.doWritePage parity (some buf) (some oob) raw format writeCache) outOob
        readCache = decide (oob 0 ≠ 0xff)) := by
  have hformatted : ∀ rawWrite rawRead, ∃ buf' oob',
      g.doReadPage (g.doWritePage parity (some buf) (some oob) rawWrite true writeCache)
        (some outBuf) (some outOob) rawRead true readCache = (some buf', some oob') ∧
      (∀ x, x < g.writesize → buf' x = buf x) ∧
      ∀ x, x < g.eccSteps * g.fdmSize → oob' x = oob x := by
    intro rawWrite rawRead
    obtain ⟨buf', oob', hread, hdata, hoob⟩ := doReadPage_rawPos hmark
      (g.doWritePage parity (some buf) (some oob) rawWrite true writeCache) outBuf outOob readCache
      rawRead
    refine ⟨buf', oob', hread, fun x hx => ?_, fun x hx => ?_⟩
    · rw [hdata x hx, doWritePage_swapped_back hmark _ _ _ _ _ (by unfold formattedSize; omega), formatted,
        if_pos hx]
    · rw [hoob x hx, doWritePage_swapped_back hmark _ _ _ _ _ (by unfold formattedSize; omega), formatted,
        if_neg (by omega), Nat.add_sub_cancel_left]
  refine ⟨hformatted, ?_, fun hswap raw format => ?_⟩
  · obtain ⟨buf', oob', hread, hdata, hfdm⟩ := hformatted true true
    obtain ⟨buf'', oob'', hread', hecc⟩ := doReadPage_eccPos hmark
      (g.doWritePage parity (some buf) (some oob) true true writeCache) outBuf outOob readCache
    obtain ⟨hbuf, hoob⟩ := Prod.mk.inj (hread.symm.trans hread')
    obtain rfl := Option.some.inj hoob
    refine ⟨buf', oob', hread, hdata, fun x hx => ?_⟩
    by_cases hlt : x < g.eccSteps * g.fdmSize
    · exact hfdm x hlt
    · have hspare : g.eccSteps * g.sparePerSector =
          g.eccSteps * g.fdmSize + g.eccSteps * g.eccBytes := by
        rw [← Nat.mul_add, eccBytes, Nat.add_sub_cancel' g.fdm_spare]
      have hecc_pos : 0 < g.eccBytes := by
        by_contra hzero
        rw [Nat.eq_zero_of_not_pos hzero, Nat.mul_zero] at hspare
        omega
      have hsplit : x = g.eccSteps * g.fdmSize +
          (x - g.eccSteps * g.fdmSize) / g.eccBytes * g.eccBytes +
            (x - g.eccSteps * g.fdmSize) % g.eccBytes := by
        have hdm := Nat.div_add_mod (x - g.eccSteps * g.fdmSize) g.eccBytes
        rw [Nat.mul_comm] at hdm
        omega
      have hi : (x - g.eccSteps * g.fdmSize) / g.eccBytes < g.eccSteps :=
        (Nat.div_lt_iff_lt_mul hecc_pos).2 (by omega)
      have hj := Nat.mod_lt (x - g.eccSteps * g.fdmSize) hecc_pos
      rw [hsplit, hecc _ _ hi hj, doWritePage_eccPos hmark parity buf oob writeCache hi hj]
  · have hpage := doWritePage_mark hmark hswap parity buf oob writeCache raw format
    exact ⟨hpage, by rw [blockIsbadStd_eq, hpage]⟩

end Geometry

/-! ### Two controllers -/

/-- A geometry whose numbers fit each other. -/
def Geometry.of (sectorSize eccSteps sparePerSector fdmSize fdmEccSize oobsize : Nat) (bbmSwap : Bool)
    (h : (0 < sectorSize ∧ 0 < eccSteps ∧ 0 < fdmSize) ∧ fdmSize ≤ 8 ∧ fdmSize ≤ sparePerSector ∧
      fdmEccSize ≤ fdmSize ∧ eccSteps * sparePerSector ≤ oobsize) : Geometry :=
  { sectorSize, eccSteps, sparePerSector, fdmSize, fdmEccSize, oobsize, bbmSwap
    sector_pos := h.1.1
    steps_pos := h.1.2.1
    fdm_pos := h.1.2.2
    fdm_regs := h.2.1
    fdm_spare := h.2.2.1
    fdmEcc_le := h.2.2.2.1
    spare_oob := h.2.2.2.2 }

/-- MT7981 with pages of 2048 and 128 bytes. -/
def mt7981Page : Geometry := .of 1024 2 64 8 1 128 true (by decide)

/-- MT7622, which does not swap bad block marks, with pages of 2048 and 64 bytes. -/
def mt7622Page : Geometry := .of 512 4 16 8 1 64 false (by decide)

theorem page_formats_agree_mt7981 :
    mt7981Page.doWritePage (fun _ _ _ => 0) (some fun _ => 0x55) (some fun x => BitVec.ofNat 8 x) false
        true (fun _ => 0) mt7981Page.writesize = 0 :=
  ((Geometry.page_formats_agree mt7981Page (by decide) (fun _ _ _ => 0) (fun _ => 0x55)
    (fun x => BitVec.ofNat 8 x) (fun _ => 0) (fun _ => 0) (fun _ => 0) (fun _ => 0)).2.2 (.inl rfl)
      false true).1

/-- Without the swap, user data lies where the chip has its bad block mark. -/
theorem mt7622_mark_is_data :
    (mt7622Page.eccSteps - 1) * mt7622Page.sparePerSector < mt7622Page.sectorSize ∧
    mt7622Page.doWritePage (fun _ _ _ => 0) (some fun _ => 0x55) (some fun _ => 0xff) true true
        (fun _ => 0) mt7622Page.writesize = 0x55 ∧
    ¬ mt7622Page.doWritePage (fun _ _ _ => 0) (some fun _ => 0x55) (some fun _ => 0xff) true true
        (fun _ => 0) mt7622Page.writesize = (fun _ => 0xff : Buf) 0 := by
  decide +kernel

end Immwrt.Snand
