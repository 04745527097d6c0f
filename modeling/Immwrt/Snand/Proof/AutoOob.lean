import Immwrt.Snand.Proof.Correction

/-!
# OOB bytes come back, or stale ones do

A page that was written in the automatic mode gives its OOB bytes back whenever its read needed no correction.
If a bit was corrected, the positive return value of the read is taken for an error half way up, and the buffer
of the MTD device keeps what it had.
-/

namespace Immwrt.Snand

/-- A buffer of erased bytes. -/
def erased : Buf := fun _ => 0xff

namespace Geometry

variable {g : Geometry}

/-! ### Automatic places -/

theorem oobLoop_zero (copy : Nat → Nat → Nat → Buf → Buf) (left step off : Nat) (buf : Buf) :
    g.oobLoop copy left step off 0 buf = (0, buf) := by
  cases left with
  | zero => rfl
  | succ left => rfl

/-- How the loop fills a buffer, if a turn sets the places of its own step. -/
theorem oobLoop_apply (copy : Nat → Nat → Nat → Buf → Buf) (pos : Nat → Nat → Nat) (v : Nat → Nat → Byte)
    (hcopy : ∀ step n buf i r, n ≤ g.fdmSize - 1 → r < g.fdmSize - 1 →
      copy step (step * (g.fdmSize - 1)) n buf (pos i r) = if i = step ∧ r < n then v i r else buf (pos i r))
    (left step len : Nat) (buf : Buf) (i : Nat) {r : Nat} (hr : r < g.fdmSize - 1) :
    (g.oobLoop copy left step (step * (g.fdmSize - 1)) len buf).2 (pos i r) =
      if step ≤ i ∧ i < step + left ∧ i * (g.fdmSize - 1) + r < step * (g.fdmSize - 1) + len then v i r
      else buf (pos i r) := by
  have hle {a b : Nat} (h : a ≤ b) := Nat.mul_le_mul_right (g.fdmSize - 1) h
  induction left generalizing step len buf with
  | zero => rw [oobLoop, if_neg (by omega)]
  | succ left ih =>
    rw [oobLoop]
    by_cases hlen : len = 0
    · rw [if_pos hlen, if_neg]
      rintro ⟨hstep, -, hlt⟩
      have := hle hstep
      omega
    rw [if_neg hlen]
    dsimp only
    by_cases hlast : len < g.fdmSize - 1
    · -- the last step, which may be a part of one
      rw [if_pos hlast, Nat.sub_self, oobLoop_zero]
      dsimp only
      rw [hcopy step len buf i r hlast.le hr]
      apply if_congr _ rfl rfl
      constructor
      · rintro ⟨rfl, hrlt⟩
        omega
      · rintro ⟨hstep, -, hlt⟩
        have hi : i = step := by
          by_contra hne
          have := hle (show step + 1 ≤ i by omega)
          rw [Nat.succ_mul] at this
          omega
        subst hi
        omega
    · rw [if_neg hlast, ← Nat.succ_mul, ih]
      by_cases hi : i = step
      · subst hi
        rw [if_neg (by omega), hcopy i _ buf i r le_rfl hr, if_pos ⟨rfl, hr⟩, if_pos (by omega)]
      · have hsame : copy step (step * (g.fdmSize - 1)) (g.fdmSize - 1) buf (pos i r) = buf (pos i r) := by
          rw [hcopy step _ buf i r le_rfl hr, if_neg fun h => hi h.1]
        rw [hsame]
        apply if_congr _ rfl rfl
        rw [Nat.succ_mul]
        omega

/-- A place that no turn sets. -/
theorem oobLoop_frame {copy : Nat → Nat → Nat → Buf → Buf} {x : Nat}
    (hcopy : ∀ step off n buf, n ≤ g.fdmSize - 1 → copy step off n buf x = buf x) (left step off len : Nat)
    (buf : Buf) : (g.oobLoop copy left step off len buf).2 x = buf x := by
  induction left generalizing step off len buf with
  | zero => rfl
  | succ left ih =>
    rw [oobLoop]
    split
    · rfl
    · dsimp only
      rw [ih, hcopy]
      split
      · next hlt => exact hlt.le
      · exact le_rfl

/-- A place with a step of its own meets no other step. -/
theorem memcpy_step {width size : Nat} (hwidth : width ≤ size) (base : Nat) (dst src : Buf) (start step i : Nat)
    {n r : Nat} (hn : n ≤ width) (hr : r < width) :
    memcpy dst (base + step * size) src start n (base + (i * size + r)) =
      if i = step ∧ r < n then src (start + r) else dst (base + (i * size + r)) := by
  rw [memcpy]
  by_cases hi : i = step
  · subst hi
    have hoff : base + (i * size + r) - (base + i * size) = r := by omega
    rw [hoff]
    apply if_congr _ rfl rfl
    omega
  · have hapart := sector_apart (hr.trans_le hwidth) hi
    rw [if_neg (by omega), if_neg fun h => hi h.1]

/-- The bytes that `mtk_snand_fill_oob` fills in. -/
theorem fillOob_apply (oobraw oobbuf : Buf) (ooblen : Nat) {i r : Nat} (hi : i < g.eccSteps)
    (hr : r < g.fdmSize - 1) :
    (g.fillOob oobraw oobbuf ooblen).2 (1 + (i * g.fdmSize + r)) =
      if i * (g.fdmSize - 1) + r < ooblen then oobbuf (i * (g.fdmSize - 1) + r)
      else oobraw (1 + (i * g.fdmSize + r)) := by
  have hloop := oobLoop_apply (g := g) (fun step off n oobraw => memcpy oobraw (step * g.fdmSize + 1) oobbuf off n)
    (fun i r => 1 + (i * g.fdmSize + r)) (fun i r => oobbuf (i * (g.fdmSize - 1) + r)) ?_ g.eccSteps 0 ooblen
    oobraw i hr
  · rw [Nat.zero_mul] at hloop
    refine hloop.trans (if_congr ?_ rfl rfl)
    omega
  · intro step n buf i r hn hr
    rw [Nat.add_comm (step * g.fdmSize), memcpy_step (Nat.sub_le _ 1) 1 buf oobbuf _ step i hn hr]
    exact ite_congr rfl (fun h => by rw [h.1]) fun _ => rfl

/-- The first FDM byte of a sector is not an OOB byte. -/
theorem fillOob_first (oobraw oobbuf : Buf) (ooblen i : Nat) :
    (g.fillOob oobraw oobbuf ooblen).2 (i * g.fdmSize) = oobraw (i * g.fdmSize) := by
  apply oobLoop_frame
  intro step off n buf hn
  have hfdm := g.fdm_pos
  rw [memcpy, if_neg]
  rcases lt_trichotomy i step with hlt | rfl | hgt
  · have := Nat.mul_le_mul_right g.fdmSize hlt.le
    omega
  · omega
  · have := Nat.mul_le_mul_right g.fdmSize hgt
    rw [Nat.succ_mul] at this
    omega

/-- The bytes that `mtk_snand_transfer_oob` takes out. -/
theorem transferOob_apply (oobbuf : Buf) (ooblen : Nat) (oobraw : Buf) {i r : Nat} (hi : i < g.eccSteps)
    (hr : r < g.fdmSize - 1) :
    (g.transferOob oobbuf ooblen oobraw).2 (i * (g.fdmSize - 1) + r) =
      if i * (g.fdmSize - 1) + r < ooblen then oobraw (1 + (i * g.fdmSize + r))
      else oobbuf (i * (g.fdmSize - 1) + r) := by
  have hloop := oobLoop_apply (g := g) (fun step off n oobbuf => memcpy oobbuf off oobraw (step * g.fdmSize + 1) n)
    (fun i r => i * (g.fdmSize - 1) + r) (fun i r => oobraw (1 + (i * g.fdmSize + r))) ?_ g.eccSteps 0 ooblen
    oobbuf i hr
  · rw [Nat.zero_mul] at hloop
    refine hloop.trans (if_congr ?_ rfl rfl)
    omega
  · intro step n buf i r hn hr
    have hstep := memcpy_step le_rfl 0 buf oobraw (step * g.fdmSize + 1) step i hn hr
    rw [Nat.zero_add, Nat.zero_add] at hstep
    rw [hstep]
    refine ite_congr rfl (fun h => ?_) fun _ => rfl
    rw [h.1]
    congr 1
    omega

/-! ### Buffers that are not written -/

theorem isEmptyPage_getD (buf oob : Option Buf) :
    g.isEmptyPage buf oob = g.isEmptyPage (some (buf.getD erased)) (some (oob.getD erased)) := by
  have hdata : ((List.range g.writesize).all fun i => erased i == 0xff) = true := by simp [erased]
  have hoob : ((List.range g.eccSteps).all fun j =>
      (List.range g.fdmEccSize).all fun i => erased (j * g.fdmSize + i) == 0xff) = true := by simp [erased]
  cases buf with
  | none =>
    cases oob with
    | none =>
      rw [isEmptyPage, isEmptyPage]
      dsimp only [Option.getD_none]
      rw [hdata, hoob]
    | some oob =>
      rw [isEmptyPage, isEmptyPage]
      dsimp only [Option.getD_none, Option.getD_some]
      rw [hdata]
  | some buf =>
    cases oob with
    | none =>
      rw [isEmptyPage, isEmptyPage]
      dsimp only [Option.getD_none, Option.getD_some]
      rw [hoob]
    | some oob => rfl

/-- Copying erased bytes over erased bytes. -/
theorem memcpy_erased {buf : Buf} {off n : Nat} (h : ∀ x, off ≤ x → x < off + n → buf x = 0xff) (start : Nat) :
    memcpy buf off erased start n = buf := by
  funext x
  rw [memcpy]
  split
  · next hx => exact (h x hx.1 hx.2).symm
  · rfl

theorem memset_erased {buf : Buf} {off n : Nat} (h : ∀ x, off ≤ x → x < off + n → buf x = 0xff) :
    memset buf 0xff off n = buf := by
  funext x
  rw [memset]
  split
  · next hx => exact (h x hx.1 hx.2).symm
  · rfl

/-- In an erased page cache, a buffer that is not there leaves a sector as an erased one does. -/
theorem toRawSector_getD (buf oob : Option Buf) {i : Nat} {pageCache : Buf}
    (h : ∀ x, i * g.rawSectorSize ≤ x → x < i * g.rawSectorSize + g.rawSectorSize → pageCache x = 0xff) :
    g.toRawSector buf oob true i pageCache =
      g.toRawSector (some (buf.getD erased)) (some (oob.getD erased)) true i pageCache := by
  have hsize := rawSectorSize_eq (g := g)
  have hdata : memcpy pageCache (i * g.rawSectorSize) erased (i * g.sectorSize) g.sectorSize = pageCache :=
    memcpy_erased (fun x hle hlt => h x hle (by omega)) _
  have hspare (pageCache' : Buf) (hsame : ∀ x, i * g.rawSectorSize + g.sectorSize ≤ x →
      x < i * g.rawSectorSize + g.rawSectorSize → pageCache' x = 0xff) :
      memset (memcpy pageCache' (i * g.rawSectorSize + g.sectorSize) erased (i * g.fdmSize) g.fdmSize) 0xff
        (i * g.rawSectorSize + g.sectorSize + g.fdmSize) g.eccBytes = pageCache' := by
    rw [memcpy_erased fun x hle hlt => hsame x hle (by omega)]
    exact memset_erased fun x hle hlt => hsame x (by omega) (by omega)
  cases buf with
  | none =>
    cases oob with
    | none =>
      simp only [toRawSector, Option.getD_none, if_true]
      rw [hdata, hspare pageCache fun x hle hlt => h x (by omega) hlt]
    | some oob =>
      simp only [toRawSector, Option.getD_none, Option.getD_some]
      rw [hdata]
  | some buf =>
    cases oob with
    | none =>
      simp only [toRawSector, Option.getD_none, Option.getD_some, if_true]
      rw [hspare]
      intro x hle hlt
      rw [memcpy, if_neg (by omega), h x (by omega) hlt]
    | some oob => rfl

theorem toRawPage_getD (buf oob : Option Buf) (pageCache : Buf) :
    g.toRawPage buf oob true pageCache =
      g.toRawPage (some (buf.getD erased)) (some (oob.getD erased)) true pageCache := by
  have hspare := g.spare_oob
  have hsize : g.eccSteps * g.rawSectorSize = g.writesize + g.eccSteps * g.sparePerSector := by
    rw [rawSectorSize, writesize]
    ring
  -- the sectors to come are erased
  have hbefore : ∀ n, n ≤ g.eccSteps →
      (List.range n).foldl (fun pageCache i => g.toRawSector buf oob true i pageCache)
          (memset pageCache 0xff 0 (g.writesize + g.oobsize)) =
        (List.range n).foldl
          (fun pageCache i => g.toRawSector (some (buf.getD erased)) (some (oob.getD erased)) true i pageCache)
          (memset pageCache 0xff 0 (g.writesize + g.oobsize)) ∧
      ∀ x, n * g.rawSectorSize ≤ x → x < g.eccSteps * g.rawSectorSize →
        (List.range n).foldl
          (fun pageCache i => g.toRawSector (some (buf.getD erased)) (some (oob.getD erased)) true i pageCache)
          (memset pageCache 0xff 0 (g.writesize + g.oobsize)) x = 0xff := by
    intro n hn
    induction n with
    | zero =>
      refine ⟨rfl, ?_⟩
      intro x _ hx
      exact if_pos (by omega)
    | succ n ih =>
      obtain ⟨heq, herased⟩ := ih (by omega)
      have hle := Nat.mul_le_mul_right g.rawSectorSize hn
      rw [Nat.succ_mul] at hle
      rw [List.range_succ, List.foldl_append, List.foldl_append, heq]
      refine ⟨toRawSector_getD buf oob fun x hx hlt => herased x hx (by omega), ?_⟩
      intro x hx hlt
      rw [Nat.succ_mul] at hx
      have hdiv : n < x / g.rawSectorSize :=
        (Nat.le_div_iff_mul_le rawSectorSize_pos).mpr (by rw [Nat.succ_mul]; exact hx)
      have hmod := Nat.mod_lt x (rawSectorSize_pos (g := g))
      have hsplit : x / g.rawSectorSize * g.rawSectorSize + x % g.rawSectorSize = x := Nat.div_add_mod' x _
      have happly := toRawSector_apply (buf.getD erased) (oob.getD erased)
        ((List.range n).foldl
          (fun pageCache i => g.toRawSector (some (buf.getD erased)) (some (oob.getD erased)) true i pageCache)
          (memset pageCache 0xff 0 (g.writesize + g.oobsize))) true (k := n) (i := x / g.rawSectorSize) hmod
      rw [hsplit, if_neg (by omega)] at happly
      exact happly.trans (herased x (by omega) hlt)
  exact (hbefore g.eccSteps le_rfl).1

/-- The page cache that is programmed is the same with erased buffers for those that are not there. -/
theorem writeCache_getD (buf oob : Option Buf) (pageCache : Buf) :
    g.writeCache buf oob false true pageCache =
      g.writeCache (some (buf.getD erased)) (some (oob.getD erased)) false true pageCache := by
  have hfdm : g.eccSteps * g.fdmSize ≤ g.oobsize := (Nat.mul_le_mul_left _ g.fdm_spare).trans g.spare_oob
  have hset (x : Nat) (hx : x < g.writesize + g.oobsize) :
      memset pageCache 0xff 0 (g.writesize + g.oobsize) x = 0xff :=
    if_pos (by omega)
  have hdata : memcpy (memset pageCache 0xff 0 (g.writesize + g.oobsize)) 0 erased 0 g.writesize =
      memset pageCache 0xff 0 (g.writesize + g.oobsize) :=
    memcpy_erased (fun x _ hx => hset x (by omega)) 0
  have hoob (buf : Buf) : memcpy (memcpy (memset pageCache 0xff 0 (g.writesize + g.oobsize)) 0 buf 0 g.writesize)
      g.writesize erased 0 (g.eccSteps * g.fdmSize) =
        memcpy (memset pageCache 0xff 0 (g.writesize + g.oobsize)) 0 buf 0 g.writesize := by
    apply memcpy_erased
    intro x hle hlt
    rw [memcpy, if_neg (by omega), hset x (by omega)]
  rw [writeCache, writeCache, isEmptyPage_getD buf oob]
  cases g.isEmptyPage (some (buf.getD erased)) (some (oob.getD erased)) with
  | true => simp [toRawPage_getD buf oob]
  | false =>
    cases buf with
    | none =>
      cases oob with
      | none =>
        simp only [Bool.and_false, Bool.or_false, Bool.false_and, Bool.false_eq_true, if_false, Option.getD_none]
        rw [hoob, hdata]
      | some oob =>
        simp only [Bool.and_false, Bool.or_false, Bool.false_and, Bool.false_eq_true, if_false, Option.getD_none,
          Option.getD_some]
        rw [hdata]
    | some buf =>
      cases oob with
      | none =>
        simp only [Bool.and_false, Bool.or_false, Bool.false_and, Bool.false_eq_true, if_false, Option.getD_none,
          Option.getD_some]
        rw [hoob]
      | some oob => rfl

end Geometry

/-! ### Written pages -/

/-- A call of `mtk_snand_write_page_auto_oob` on an erased page, with the buffers it finds. -/
structure PageWrite where
  buf : Option Buf
  oob : Option Buf
  ooblen : Nat
  pageCache : Buf
  bufCache : Buf

namespace PageWrite

variable (w : PageWrite) (g : Geometry)

/-- The page that it leaves. -/
def page (parity : Buf → Nat → Nat → Byte) : Buf :=
  g.writePageAutoOob parity w.buf w.oob w.ooblen w.pageCache w.bufCache

/-- The FDM bytes of the page. -/
def fdm : Buf :=
  match w.oob with
  | none => erased
  | some oob => (g.fillOob (memset w.bufCache 0xff 0 g.oobsize) oob w.ooblen).2

/-- The controller has added parity. -/
def encoded : Bool := !g.isEmptyPage (some (w.buf.getD erased)) (some (w.fdm g))

/-- The OOB bytes of the page. -/
def oobByte (j : Nat) : Byte :=
  match w.oob with
  | none => 0xff
  | some oob => if j < w.ooblen then oob j else 0xff

variable {w g} {strength : Byte} {parity : Buf → Nat → Nat → Byte}

theorem page_eq : w.page g parity =
    g.doWritePage parity (some (w.buf.getD erased)) (some (w.fdm g)) false true w.pageCache := by
  have hgetD (oob : Option Buf) : g.doWritePage parity w.buf oob false true w.pageCache =
      g.doWritePage parity (some (w.buf.getD erased)) (some (oob.getD erased)) false true w.pageCache := by
    rw [Geometry.doWritePage, Geometry.doWritePage, Geometry.writeCache_getD]
  rw [page, fdm]
  cases w.oob with
  | none => exact hgetD none
  | some oob => exact hgetD (some _)

theorem fdm_lt_oobsize {i r : Nat} (hi : i < g.eccSteps) (hr : r < g.fdmSize) : i * g.fdmSize + r < g.oobsize := by
  have hle := Nat.mul_le_mul_right g.fdmSize hi
  have hspare := (Nat.mul_le_mul_left g.eccSteps g.fdm_spare).trans g.spare_oob
  rw [Nat.succ_mul] at hle
  omega

/-- The OOB bytes are where they are looked for. -/
theorem fdm_oob {i r : Nat} (hi : i < g.eccSteps) (hr : r < g.fdmSize - 1) :
    w.fdm g (1 + (i * g.fdmSize + r)) = w.oobByte (i * (g.fdmSize - 1) + r) := by
  rw [fdm, oobByte]
  cases w.oob with
  | none => rfl
  | some oob =>
    dsimp only
    have hlt := fdm_lt_oobsize hi (show r + 1 < g.fdmSize by omega)
    have hset : memset w.bufCache 0xff 0 g.oobsize (1 + (i * g.fdmSize + r)) = 0xff := if_pos (by omega)
    rw [Geometry.fillOob_apply _ _ _ hi hr, hset]

theorem fdm_first {i : Nat} (hi : i < g.eccSteps) : w.fdm g (i * g.fdmSize) = 0xff := by
  rw [fdm]
  cases w.oob with
  | none => rfl
  | some oob =>
    dsimp only
    have hlt := fdm_lt_oobsize hi g.fdm_pos
    rw [Geometry.fillOob_first, memset, if_pos (by omega)]

end PageWrite

namespace Geometry

variable {g : Geometry} {strength : Byte} {parity : Buf → Nat → Nat → Byte} {w : PageWrite}

theorem doBmSwap_self {buf : Buf} {a b : Nat} (h : buf a = buf b) : doBmSwap buf a b = buf := by
  funext y
  rw [doBmSwap_apply]
  split
  · next hy => rw [hy, h]
  split
  · next hy => rw [hy, h]
  · rfl

/-- What an erased page that has been programmed raw has in the bits that parity would protect. -/
theorem blank_page (hmark : (g.eccSteps - 1) * g.sparePerSector < g.sectorSize) (h : w.encoded g = false) :
    g.Blank strength (w.page g parity) := by
  intro y k hy hk hmem
  rw [PageWrite.encoded, Bool.not_eq_false', isEmptyPage, Bool.and_eq_true] at h
  simp only [List.all_eq_true, List.mem_range, beq_iff_eq] at h
  obtain ⟨hdata, hfdm⟩ := h
  have hlast : g.eccSteps - 1 < g.eccSteps := Nat.sub_lt g.steps_pos Nat.one_pos
  set f := g.formatted (w.buf.getD erased) (w.fdm g) with hf
  have hmarkFirst : f g.writesize = 0xff := by
    rw [hf, formatted, if_neg (lt_irrefl _), Nat.sub_self, ← Nat.zero_mul g.fdmSize]
    exact PageWrite.fdm_first g.steps_pos
  have hmarkLast : f (g.writesize + (g.eccSteps - 1) * g.fdmSize) = 0xff := by
    rw [hf, formatted, if_neg (by omega), Nat.add_sub_cancel_left]
    exact PageWrite.fdm_first hlast
  -- all the marks that are swapped are erased
  have hswap : g.bmSwap (g.fdmBmSwap f) = f := by
    have hfdmSwap : g.fdmBmSwap f = f := by
      rw [fdmBmSwap]
      split
      · rfl
      · exact doBmSwap_self (hmarkFirst.trans hmarkLast.symm)
    rw [hfdmSwap, bmSwap]
    split
    · rfl
    · next hswap =>
      have hlt := (swapPlaces hswap hmark).mark_lt
      apply doBmSwap_self
      rw [hmarkLast, hf, formatted, if_pos hlt, hdata _ hlt]
  have hpage : w.page g parity (g.rawPos y) = f y := by
    rw [PageWrite.page_eq, doWritePage_rawPos hmark _ _ _ _ _ hy, hswap]
  have hsector := sectorOf_lt hy
  have herased : f y = 0xff := by
    rw [protectedBits, Finset.mem_union, Finset.mem_union] at hmem
    rw [hf, formatted]
    split
    · next hlt => exact hdata y hlt
    · next hge =>
      rcases hmem with (hrun | hrun) | hrun
      · have hle := Nat.mul_le_mul_right g.sectorSize hsector
        rw [BitCount.mem_bytes hk, dataPtr] at hrun
        rw [Nat.succ_mul] at hle
        rw [writesize] at hge
        omega
      · rw [BitCount.mem_bytes hk, fdmPtr] at hrun
        have hj := hfdm (g.sectorOf y) hsector (y - g.writesize - g.sectorOf y * g.fdmSize) (by omega)
        rw [Nat.add_sub_cancel' (by omega)] at hj
        exact hj
      · rw [BitCount.mem_bitRun, eccPtr] at hrun
        rw [formattedSize] at hy
        omega
  rw [hpage, herased]
  interval_cases k <;> rfl

/-! ### Reads of a page -/

section Page

variable {base : Nat} {transfers : Nat → Transfer}

theorem readPageAutoOob_ret (hfits : g.eccBits strength ≤ 8 * g.eccBytes) (transfers : Nat → Transfer)
    (dat oob : Bool) (ooblen : Nat) (c : Caches) :
    (g.readPageAutoOob base strength transfers dat oob ooblen c).1 = g.pageRet strength transfers := by
  cases oob with
  | true =>
    rw [readPageAutoOob, if_pos rfl]
    dsimp only
    generalize (if dat then some c.datcache else none) = datcache
    split
    · exact readPage_ret base hfits transfers _ _ _
    · exact readPage_ret base hfits transfers _ _ _
  | false =>
    rw [readPageAutoOob, if_neg Bool.false_ne_true]
    exact readPage_ret base hfits transfers _ _ _

/-- A page that is read without corrections puts its OOB bytes into the buffer. After corrections the buffer has
what it had. -/
theorem readPageAutoOob_oobcache (hmark : (g.eccSteps - 1) * g.sparePerSector < g.sectorSize)
    (hfits : g.eccBits strength ≤ 8 * g.eccBytes)
    (h : g.Faithful strength (g.decisive strength transfers) (w.page g parity) (w.encoded g))
    (hret : 0 ≤ g.pageRet strength transfers) (dat : Bool) (c : Caches) {j : Nat} (hj : j < g.oobavail) :
    (g.readPageAutoOob base strength transfers dat true g.oobavail c).2.oobcache j =
      if g.Clean strength (g.decisive strength transfers) then w.oobByte j else c.oobcache j := by
  have hclean := checkRet_eq_zero hret
  have hpage := readPage_ret base hfits transfers (if dat then some c.datcache else none) (some c.bufCache)
    c.pageCache
  obtain ⟨oobraw, hraw, hbytes⟩ := readPage_bufs base hmark hfits h (blank_page hmark) hret
    (if dat then some c.datcache else none) c.bufCache c.pageCache
  have hne : g.pageRet strength transfers ≠ ebadmsg := by
    intro heq
    rw [heq] at hret
    exact absurd hret (by decide)
  rw [readPageAutoOob, if_pos rfl]
  dsimp only
  rw [hpage, hraw]
  by_cases h : g.Clean strength (g.decisive strength transfers)
  · have hzero : g.pageRet strength transfers = 0 := hclean.mpr h
    have hwidth : 0 < g.fdmSize - 1 := Nat.pos_of_mul_pos_left (Nat.zero_lt_of_lt hj)
    have hi : j / (g.fdmSize - 1) < g.eccSteps := Nat.div_lt_of_lt_mul (by rw [Nat.mul_comm]; exact hj)
    have hr := Nat.mod_lt j hwidth
    have hsplit : j / (g.fdmSize - 1) * (g.fdmSize - 1) + j % (g.fdmSize - 1) = j := Nat.div_add_mod' j _
    have hplace := Nat.mul_le_mul_right g.fdmSize hi
    rw [Nat.succ_mul] at hplace
    have htransfer := transferOob_apply c.oobcache g.oobavail oobraw hi hr
    rw [hsplit, if_pos hj, hbytes _ (by omega), PageWrite.page_eq,
      doWritePage_swapped_back hmark _ _ _ _ _ (by unfold formattedSize; omega), formatted, if_neg (by omega),
      Nat.add_sub_cancel_left, PageWrite.fdm_oob hi hr, hsplit] at htransfer
    rw [if_neg (fun hnz => hnz.1 hzero), if_pos h]
    exact htransfer
  · rw [if_pos ⟨fun hzero => h (hclean.mp hzero), hne⟩, if_neg h]

end Page

/-! ### Reads of several pages -/

section Pages

variable {base : Nat} {reads : Nat → Nat → Transfer} {writes : Nat → PageWrite} {dat oob : Bool}

/-- Whether the read of a page needs no correction. -/
def CleanRead (g : Geometry) (strength : Byte) (reads : Nat → Nat → Transfer) (page : Nat) : Prop :=
  g.Clean strength (g.decisive strength (reads page))

instance (page : Nat) : Decidable (g.CleanRead strength reads page) := inferInstanceAs (Decidable (Clean _ _ _))

/-- The OOB bytes in the buffer of the MTD device after `k` more pages, if it had `init` before. -/
def held (g : Geometry) (strength : Byte) (reads : Nat → Nat → Transfer) (writes : Nat → PageWrite) (page : Nat)
    (init : Buf) : Nat → Buf
  | 0 => if g.CleanRead strength reads page then (writes page).oobByte else init
  | k + 1 =>
    if g.CleanRead strength reads (page + (k + 1)) then (writes (page + (k + 1))).oobByte
    else held g strength reads writes page init k

theorem held_front (page : Nat) (init : Buf) (k : Nat) :
    g.held strength reads writes page init (k + 1) =
      g.held strength reads writes (page + 1) (g.held strength reads writes page init 0) k := by
  induction k with
  | zero => rfl
  | succ k ih =>
    have hpage : page + (k + 1 + 1) = page + 1 + (k + 1) := by omega
    rw [held.eq_2, ih, hpage]
    rfl

theorem held_congr (page : Nat) {init init' : Buf} {j : Nat} (h : init j = init' j) (k : Nat) :
    g.held strength reads writes page init k j = g.held strength reads writes page init' k j := by
  induction k with
  | zero =>
    rw [held, held]
    split
    · rfl
    · exact h
  | succ k ih =>
    rw [held, held]
    split
    · rfl
    · exact ih

/-- The buffer has a byte for sure if and only if the last page that put its bytes there has that byte. -/
theorem held_eq_iff (page k j : Nat) (v : Byte) :
    (∀ init, g.held strength reads writes page init k j = v) ↔
      ∃ i ≤ k, g.CleanRead strength reads (page + i) ∧
        (∀ i', i < i' → i' ≤ k → ¬ g.CleanRead strength reads (page + i')) ∧
        (writes (page + i)).oobByte j = v := by
  induction k with
  | zero =>
    by_cases hclean : g.CleanRead strength reads page
    · simp only [held, if_pos hclean, forall_const]
      constructor
      · intro h
        exact ⟨0, le_rfl, hclean, fun i' hlt hle => absurd hlt (by omega), h⟩
      · rintro ⟨i, hi, -, -, h⟩
        obtain rfl := Nat.le_zero.mp hi
        exact h
    · simp only [held, if_neg hclean]
      refine iff_of_false (fun h => ?_) ?_
      · have hne : v + 1 ≠ v := by simp
        exact hne (h fun _ => v + 1)
      · rintro ⟨i, hi, hclean', -⟩
        obtain rfl := Nat.le_zero.mp hi
        exact hclean hclean'
  | succ k ih =>
    by_cases hclean : g.CleanRead strength reads (page + (k + 1))
    · simp only [held, if_pos hclean, forall_const]
      constructor
      · intro h
        exact ⟨k + 1, le_rfl, hclean, fun i' hlt hle => absurd hlt (by omega), h⟩
      · rintro ⟨i, hi, -, hlast, h⟩
        obtain rfl : i = k + 1 := by
          by_contra hne
          exact hlast (k + 1) (by omega) le_rfl hclean
        exact h
    · simp only [held, if_neg hclean]
      rw [ih]
      constructor
      · rintro ⟨i, hi, hclean', hlast, h⟩
        refine ⟨i, by omega, hclean', fun i' hlt hle => ?_, h⟩
        rcases Nat.lt_or_eq_of_le hle with hlt' | rfl
        · exact hlast i' hlt (by omega)
        · exact hclean
      · rintro ⟨i, hi, hclean', hlast, h⟩
        rcases Nat.lt_or_eq_of_le hi with hlt | rfl
        · exact ⟨i, by omega, hclean', fun i' hlt' hle => hlast i' hlt' (by omega), h⟩
        · exact absurd hclean' hclean

/-! ### The loop over the pages -/

theorem readLoop_failed (page : Nat) (r : Request g) (maxBitflips : Int) (c : Caches) :
    (g.readLoop base strength reads dat oob page r true maxBitflips c).ret < 0 := by
  induction hn : r.len + r.ooblen using Nat.strong_induction_on generalizing page r maxBitflips c with
  | h n ih =>
    rw [readLoop]
    split
    · exact (by decide : ebadmsg < 0)
    · next hdone =>
      dsimp only
      split
      · next hneg => exact hneg.1
      · exact ih _ (hn ▸ r.next_lt hdone) (page + 1) r.next _ _ rfl

/-- What a read returns does not depend on the buffers. -/
theorem readLoop_ret (hfits : g.eccBits strength ≤ 8 * g.eccBytes) (page : Nat) (r : Request g) (eccFailed : Bool)
    (maxBitflips : Int) (c c' : Caches) :
    (g.readLoop base strength reads dat oob page r eccFailed maxBitflips c).ret =
      (g.readLoop base strength reads dat oob page r eccFailed maxBitflips c').ret := by
  induction hn : r.len + r.ooblen using Nat.strong_induction_on generalizing page r eccFailed maxBitflips c c' with
  | h n ih =>
    rw [readLoop, readLoop]
    split
    · rfl
    · next hdone =>
      dsimp only
      rw [readPageAutoOob_ret hfits, readPageAutoOob_ret hfits]
      split
      · rfl
      · exact ih _ (hn ▸ r.next_lt hdone) (page + 1) r.next _ _ _ _ rfl

/-- A page of a read that returns no error. -/
theorem readLoop_step (hfits : g.eccBits strength ≤ 8 * g.eccBytes) {page : Nat} {r : Request g} (hdone : ¬ r.done)
    {eccFailed : Bool} {maxBitflips : Int} {c : Caches}
    (hret : 0 ≤ (g.readLoop base strength reads dat oob page r eccFailed maxBitflips c).ret) :
    0 ≤ g.pageRet strength (reads page) ∧ ∃ maxBitflips',
      let c' := (g.readPageAutoOob base strength (reads page) dat oob g.oobavail c).2
      let result := g.readLoop base strength reads dat oob (page + 1) r.next eccFailed maxBitflips' c'
      (g.readLoop base strength reads dat oob page r eccFailed maxBitflips c).ret = result.ret ∧
      (g.readLoop base strength reads dat oob page r eccFailed maxBitflips c).oobbuf =
        bytesAt c'.oobcache r.ooboffs r.oobChklen ++ result.oobbuf := by
  rw [readLoop, if_neg hdone] at hret ⊢
  dsimp only at hret ⊢
  rw [readPageAutoOob_ret hfits] at hret ⊢
  by_cases hneg : g.pageRet strength (reads page) < 0
  · -- an error comes out as one
    exfalso
    by_cases hbad : g.pageRet strength (reads page) = ebadmsg
    · rw [if_neg (fun h => h.2 hbad), decide_eq_true hbad, Bool.or_true] at hret
      exact absurd hret (not_le.mpr (readLoop_failed _ _ _ _))
    · rw [if_pos ⟨hneg, hbad⟩] at hret
      exact absurd hneg (not_lt.mpr hret)
  · have hbad : g.pageRet strength (reads page) ≠ ebadmsg := by
      intro heq
      rw [heq] at hneg
      exact hneg (by decide)
    refine ⟨not_lt.mp hneg, max (g.pageRet strength (reads page)) maxBitflips, ?_⟩
    rw [if_neg (fun h => hneg h.1), if_neg hbad, decide_eq_false hbad, Bool.or_false]
    exact ⟨rfl, rfl⟩

theorem bytesAt_eq_map (mem : Buf) (off n : Nat) :
    bytesAt mem off n = (List.range n).map fun t => mem (off + t) := by
  induction n generalizing off with
  | zero => rfl
  | succ n ih =>
    rw [bytesAt, ih, List.range_succ_eq_map, List.map_cons, List.map_map, Nat.add_zero]
    congr 2
    funext t
    exact congrArg mem (by simp only [Nat.succ_eq_add_one]; omega)

theorem readLoop_oobbuf_nil {page : Nat} {r : Request g} (h : r.ooblen = 0) (eccFailed : Bool) (maxBitflips : Int)
    (c : Caches) : (g.readLoop base strength reads dat oob page r eccFailed maxBitflips c).oobbuf = [] := by
  induction hn : r.len + r.ooblen using Nat.strong_induction_on generalizing page r eccFailed maxBitflips c with
  | h n ih =>
    have hchk : r.oobChklen = 0 := by
      rw [Request.oobChklen, h, Nat.min_zero]
    have hnext : r.next.ooblen = 0 := by
      change r.ooblen - r.oobChklen = 0
      omega
    rw [readLoop]
    split
    · rfl
    · next hdone =>
      dsimp only
      split
      · rfl
      · rw [hchk, ih _ (hn ▸ r.next_lt hdone) hnext _ _ _ rfl]
        rfl

/-- The OOB bytes of a read that returns no error. -/
theorem readLoop_oobbuf (hmark : (g.eccSteps - 1) * g.sparePerSector < g.sectorSize)
    (hfits : g.eccBits strength ≤ 8 * g.eccBytes) {page : Nat} {r : Request g}
    (hfaithful : ∀ k, k * g.oobavail < r.ooboffs + r.ooblen →
      g.Faithful strength (g.decisive strength (reads (page + k))) ((writes (page + k)).page g parity)
        ((writes (page + k)).encoded g))
    {eccFailed : Bool} {maxBitflips : Int} {c : Caches}
    (hret : 0 ≤ (g.readLoop base strength reads dat true page r eccFailed maxBitflips c).ret) :
    (g.readLoop base strength reads dat true page r eccFailed maxBitflips c).oobbuf =
      (List.range r.ooblen).map fun t => g.held strength reads writes page c.oobcache
        ((r.ooboffs + t) / g.oobavail) ((r.ooboffs + t) % g.oobavail) := by
  induction hn : r.len + r.ooblen using Nat.strong_induction_on generalizing page r eccFailed maxBitflips c with
  | h n ih =>
    by_cases hnone : r.ooblen = 0
    · rw [readLoop_oobbuf_nil hnone, hnone]
      rfl
    have hdone : ¬ r.done := fun h => hnone h.2
    obtain ⟨hpage, maxBitflips', hret', hoobbuf⟩ := readLoop_step hfits hdone hret
    rw [hret'] at hret
    have hoffs := r.ooboffs_lt
    have hchk : r.oobChklen = min (g.oobavail - r.ooboffs) r.ooblen := rfl
    have hnext : r.next.ooblen = r.ooblen - r.oobChklen := rfl
    have hnextOffs : r.next.ooboffs = 0 := if_neg hnone
    have hfirst := hfaithful 0 (by omega)
    rw [Nat.add_zero] at hfirst
    have hrest := ih _ (hn ▸ r.next_lt hdone) (fun k hk => by
      have hnextFaithful := hfaithful (k + 1) (by
        rw [Nat.succ_mul]
        omega)
      rw [← Nat.add_assoc, Nat.add_right_comm] at hnextFaithful
      exact hnextFaithful) hret rfl
    -- the buffer after the first page
    have hstart {j : Nat} (hj : j < g.oobavail) :
        (g.readPageAutoOob base strength (reads page) dat true g.oobavail c).2.oobcache j =
          g.held strength reads writes page c.oobcache 0 j := by
      rw [readPageAutoOob_oobcache hmark hfits hfirst hpage dat c hj, held]
      split
      · next hclean => exact (congrFun (if_pos (c := g.CleanRead strength reads page) hclean) j).symm
      · next hclean => exact (congrFun (if_neg (c := g.CleanRead strength reads page) hclean) j).symm
    have hsplit : r.ooblen = r.oobChklen + r.next.ooblen := by omega
    rw [hoobbuf, hrest, hnextOffs, bytesAt_eq_map, hsplit, List.range_add, List.map_append, List.map_map]
    congr 1
    · apply List.map_congr_left
      intro t ht
      have hlt := List.mem_range.mp ht
      rw [Nat.div_eq_of_lt (by omega), Nat.mod_eq_of_lt (by omega)]
      exact hstart (by omega)
    · apply List.map_congr_left
      intro t ht
      have hlt := List.mem_range.mp ht
      have hpos : r.ooboffs + (r.oobChklen + t) = 0 + t + g.oobavail := by omega
      rw [Function.comp_apply, hpos, Nat.add_div_right _ (by omega), Nat.add_mod_right, held_front]
      exact held_congr _ (hstart (Nat.mod_lt _ (by omega))) _

theorem mtdReadData_oobbuf (hmark : (g.eccSteps - 1) * g.sparePerSector < g.sectorSize)
    (hfits : g.eccBits strength ≤ 8 * g.eccBytes) {page : Nat} {r : Request g}
    (hfaithful : ∀ k, k * g.oobavail < r.ooboffs + r.ooblen →
      g.Faithful strength (g.decisive strength (reads (page + k))) ((writes (page + k)).page g parity)
        ((writes (page + k)).encoded g))
    {c : Caches} (hret : 0 ≤ (g.mtdReadData base strength reads page r c).ret) :
    (g.mtdReadData base strength reads page r c).oobbuf =
      (List.range r.ooblen).map fun t => g.held strength reads writes page c.oobcache
        ((r.ooboffs + t) / g.oobavail) ((r.ooboffs + t) % g.oobavail) := by
  by_cases hnone : r.ooblen = 0
  · rw [mtdReadData, readLoop_oobbuf_nil hnone, hnone]
    rfl
  · rw [mtdReadData, decide_eq_true hnone] at hret ⊢
    exact readLoop_oobbuf hmark hfits hfaithful hret

/-- A read that returns no error delivers the OOB bytes that the pages were written with, whatever the buffers had
before, if and only if each of them comes from a page that needed no correction, or the last such page before it
in the same read has the same byte there. -/
theorem mtdReadData_oobbuf_iff (g : Geometry) (hmark : (g.eccSteps - 1) * g.sparePerSector < g.sectorSize)
    (base : Nat) (strength : Byte) (hstrength : strength.toNat ≤ g.setupStrength) (parity : Buf → Nat → Nat → Byte)
    (writes : Nat → PageWrite) (reads : Nat → Nat → Transfer) (page : Nat) (r : Request g)
    (hfaithful : ∀ k, k * g.oobavail < r.ooboffs + r.ooblen →
      g.Faithful strength (g.decisive strength (reads (page + k))) ((writes (page + k)).page g parity)
        ((writes (page + k)).encoded g))
    {c₀ : Caches} (hret : 0 ≤ (g.mtdReadData base strength reads page r c₀).ret) :
    (∀ c, (g.mtdReadData base strength reads page r c).oobbuf = (List.range r.ooblen).map fun t =>
      (writes (page + (r.ooboffs + t) / g.oobavail)).oobByte ((r.ooboffs + t) % g.oobavail)) ↔
    ∀ t < r.ooblen, ∃ k ≤ (r.ooboffs + t) / g.oobavail, g.CleanRead strength reads (page + k) ∧
      (∀ k', k < k' → k' ≤ (r.ooboffs + t) / g.oobavail → ¬ g.CleanRead strength reads (page + k')) ∧
      (writes (page + k)).oobByte ((r.ooboffs + t) % g.oobavail) =
        (writes (page + (r.ooboffs + t) / g.oobavail)).oobByte ((r.ooboffs + t) % g.oobavail) := by
  have hfits := eccBits_le hstrength
  have hdelivered (c : Caches) : (g.mtdReadData base strength reads page r c).oobbuf =
      (List.range r.ooblen).map fun t => g.held strength reads writes page c.oobcache
        ((r.ooboffs + t) / g.oobavail) ((r.ooboffs + t) % g.oobavail) := by
    rw [mtdReadData, readLoop_ret hfits _ _ _ _ c₀ c] at hret
    exact mtdReadData_oobbuf hmark hfits hfaithful hret
  have hbytes : (∀ c : Caches, ∀ t < r.ooblen, g.held strength reads writes page c.oobcache
      ((r.ooboffs + t) / g.oobavail) ((r.ooboffs + t) % g.oobavail) =
        (writes (page + (r.ooboffs + t) / g.oobavail)).oobByte ((r.ooboffs + t) % g.oobavail)) ↔
      ∀ t < r.ooblen, ∀ init, g.held strength reads writes page init
        ((r.ooboffs + t) / g.oobavail) ((r.ooboffs + t) % g.oobavail) =
          (writes (page + (r.ooboffs + t) / g.oobavail)).oobByte ((r.ooboffs + t) % g.oobavail) :=
    ⟨fun h t ht init => h { c₀ with oobcache := init } t ht, fun h c t ht => h t ht c.oobcache⟩
  calc (∀ c, (g.mtdReadData base strength reads page r c).oobbuf = (List.range r.ooblen).map fun t =>
        (writes (page + (r.ooboffs + t) / g.oobavail)).oobByte ((r.ooboffs + t) % g.oobavail))
      ↔ ∀ c : Caches, ∀ t < r.ooblen, g.held strength reads writes page c.oobcache
          ((r.ooboffs + t) / g.oobavail) ((r.ooboffs + t) % g.oobavail) =
            (writes (page + (r.ooboffs + t) / g.oobavail)).oobByte ((r.ooboffs + t) % g.oobavail) := by
        apply forall_congr'
        intro c
        rw [hdelivered c, List.map_inj_left]
        simp only [List.mem_range]
    _ ↔ _ := hbytes
    _ ↔ _ := by
      apply forall₂_congr
      intro t _
      exact held_eq_iff page _ _ _

/-- What a read of a part of one page returns. -/
theorem mtdReadData_ret (hfits : g.eccBits strength ≤ 8 * g.eccBytes) {page : Nat} {r : Request g}
    (hdone : ¬ r.done) (hnext : r.next.done) (hret : 0 ≤ g.pageRet strength (reads page)) (c : Caches) :
    (g.mtdReadData base strength reads page r c).ret = g.pageRet strength (reads page) := by
  have hbad : g.pageRet strength (reads page) ≠ ebadmsg := by
    intro heq
    rw [heq] at hret
    exact absurd hret (by decide)
  rw [mtdReadData, readLoop, if_neg hdone]
  dsimp only
  rw [readPageAutoOob_ret hfits, if_neg (fun h => absurd h.1 (not_lt.mpr hret))]
  dsimp only
  rw [readLoop, if_pos hnext, decide_eq_false hbad, if_neg hbad]
  exact max_eq_left hret

/-- Transfers that are all the same. -/
theorem decisive_const (t : Transfer) : g.decisive strength (fun _ => t) = t := by
  have hlast (left retryCnt : Nat) : g.lastTransfer strength (fun _ => t) left retryCnt = t := by
    induction left generalizing retryCnt with
    | zero => rfl
    | succ left ih =>
      rw [lastTransfer, ih]
      exact ite_self t
  exact hlast 16 0

end Pages

end Geometry

/-! ### A page with numbered bytes -/

/-- The write of a page with the OOB bytes 1 to 14. -/
def numberedWrite : PageWrite :=
  { buf := some fun _ => 0x55
    oob := some fun j => BitVec.ofNat 8 (j + 1)
    ooblen := 14
    pageCache := fun _ => 0
    bufCache := fun _ => 0 }

def numberedPage : Buf := numberedWrite.page mt7981Page fun _ _ _ => 0

/-- A transfer of the page with `n` wrong bits in every sector, which the controller corrects. -/
def numberedTransfer (n : Nat) : Transfer :=
  { seen := fun x =>
      if x % mt7981Page.rawSectorSize = 0 then numberedPage x ^^^ BitVec.ofNat 8 (2 ^ n - 1) else numberedPage x
    decoded := numberedPage
    errnum := fun _ => n }

/-- A read of the first three OOB bytes. -/
def threeBytes : Geometry.Request mt7981Page :=
  { col := 0, ooboffs := 0, len := 0, ooblen := 3, col_lt := by decide, ooboffs_lt := by decide }

/-- Buffers that have been used for a page of zeros. -/
def zeroCaches : Caches :=
  { pageCache := fun _ => 0, bufCache := fun _ => 0, datcache := fun _ => 0, oobcache := fun _ => 0 }

theorem faithful_numberedTransfer {n : Nat} (hn : n ≤ 12) :
    mt7981Page.Faithful 12 (mt7981Page.decisive 12 fun _ => numberedTransfer n) numberedPage
      (numberedWrite.encoded mt7981Page) := by
  rw [Geometry.decisive_const]
  constructor
  · intro y _ _
    rw [numberedTransfer]
  · intro y _ hlt
    exact absurd hlt (not_lt.mpr hn)

theorem strength_mt7981Page : (12 : Byte).toNat ≤ mt7981Page.setupStrength := by decide +kernel

theorem ret_numberedTransfer {n : Nat} (hret : mt7981Page.pageRet 12 (fun _ => numberedTransfer n) = n) :
    (mt7981Page.mtdReadData 0 12 (fun _ _ => numberedTransfer n) 5 threeBytes zeroCaches).ret = n := by
  have hpage : 0 ≤ mt7981Page.pageRet 12 (fun _ => numberedTransfer n) := by
    rw [hret]
    exact Int.natCast_nonneg n
  have hdone : ¬ threeBytes.done := by decide
  have hnext : threeBytes.next.done := by decide
  calc (mt7981Page.mtdReadData 0 12 (fun _ _ => numberedTransfer n) 5 threeBytes zeroCaches).ret
      = mt7981Page.pageRet 12 (fun _ => numberedTransfer n) :=
        Geometry.mtdReadData_ret (Geometry.eccBits_le strength_mt7981Page) hdone hnext hpage zeroCaches
    _ = n := hret

theorem mtdReadData_oobbuf_clean :
    (mt7981Page.mtdReadData 0 12 (fun _ _ => numberedTransfer 0) 5 threeBytes zeroCaches).oobbuf = [1, 2, 3] := by
  have hret := ret_numberedTransfer (n := 0) (by decide +kernel)
  have hiff := Geometry.mtdReadData_oobbuf_iff mt7981Page (by decide) 0 12 strength_mt7981Page (fun _ _ _ => 0)
    (fun _ => numberedWrite) (fun _ _ => numberedTransfer 0) 5 threeBytes
    (fun _ _ => faithful_numberedTransfer (by decide)) hret.ge
  have hclean : mt7981Page.Clean 12 (mt7981Page.decisive 12 fun _ => numberedTransfer 0) := by decide +kernel
  apply (hiff.mpr _ zeroCaches).trans
  · decide +kernel
  · intro t _
    exact ⟨_, le_rfl, hclean, fun k hlt hle => absurd hle (by omega), rfl⟩

/-- One corrected bit in every sector, and the OOB bytes are those of another page. -/
theorem mtdReadData_oobbuf_stale :
    mt7981Page.Faithful 12 (mt7981Page.decisive 12 fun _ => numberedTransfer 1) numberedPage
      (numberedWrite.encoded mt7981Page) ∧
    (mt7981Page.mtdReadData 0 12 (fun _ _ => numberedTransfer 1) 5 threeBytes zeroCaches).ret = 1 ∧
    (mt7981Page.mtdReadData 0 12 (fun _ _ => numberedTransfer 1) 5 threeBytes zeroCaches).oobbuf = [0, 0, 0] ∧
    ¬ (mt7981Page.mtdReadData 0 12 (fun _ _ => numberedTransfer 1) 5 threeBytes zeroCaches).oobbuf =
      (List.range 3).map numberedWrite.oobByte := by
  have hret := ret_numberedTransfer (n := 1) (by decide +kernel)
  have hfaithful := faithful_numberedTransfer (n := 1) (by decide)
  have hstale : (mt7981Page.mtdReadData 0 12 (fun _ _ => numberedTransfer 1) 5 threeBytes zeroCaches).oobbuf =
      [0, 0, 0] := by
    have hbytes : (mt7981Page.mtdReadData 0 12 (fun _ _ => numberedTransfer 1) 5 threeBytes zeroCaches).oobbuf =
        (List.range 3).map fun t => mt7981Page.held 12 (fun _ _ => numberedTransfer 1) (fun _ => numberedWrite) 5
          zeroCaches.oobcache ((0 + t) / 14) ((0 + t) % 14) :=
      Geometry.mtdReadData_oobbuf (by decide) (Geometry.eccBits_le strength_mt7981Page) (fun _ _ => hfaithful)
        (hret.ge.trans' (by decide))
    rw [hbytes]
    decide +kernel
  refine ⟨hfaithful, hret, hstale, ?_⟩
  rw [hstale]
  decide +kernel

end Immwrt.Snand
