import Immwrt.Mtd.Fis
import Mathlib.Tactic

/-!
# What remapping does to the directory

With the old descriptors next to each other, `fis_remap` puts the new ones in their place. When there
are fewer new ones than old ones it passes the negated length to `memset`, and it takes the lower one
of the first and the last old descriptor for the lowest one.
-/

namespace Immwrt.Mtd

/-- The directory `pre ++ olds ++ post ++ free`: the first three parts are in use, and `olds` are the
descriptors of the old partitions. -/
structure FisLayout (old : List FisName) (pre olds post free : List FisDesc) : Prop where
  preUsed : ∀ desc ∈ pre, ¬ desc.unused ∧ ¬ desc.isOld old
  oldsUsed : ∀ desc ∈ olds, ¬ desc.unused ∧ desc.isOld old
  postUsed : ∀ desc ∈ post, ¬ desc.unused ∧ ¬ desc.isOld old
  freeUnused : ∀ desc ∈ free.head?, desc.unused
  someOld : olds ≠ []

/-! ### Passes over the directory -/

variable {old : List FisName}

theorem scanOld_others (xs ys : List FisDesc) (i : Nat) (scan : Scan)
    (hxs : ∀ desc ∈ xs, ¬ desc.unused ∧ ¬ desc.isOld old) :
    ∃ offset, scanOld old (xs ++ ys) i scan =
      scanOld old ys (i + xs.length) { scan with offset := offset } := by
  induction xs generalizing i scan with
  | nil => exact ⟨scan.offset, rfl⟩
  | cons desc xs ih =>
    have hdesc := hxs desc List.mem_cons_self
    have hrest : ∀ desc ∈ xs, ¬ desc.unused ∧ ¬ desc.isOld old :=
      fun d hd => hxs d (List.mem_cons_of_mem _ hd)
    simp only [List.cons_append, scanOld, if_neg hdesc.1, if_neg hdesc.2]
    obtain ⟨offset, hscan⟩ := ih (i + 1) { scan with
      offset := if scan.offset < desc.flashBase then desc.flashBase else scan.offset } hrest
    refine ⟨offset, hscan.trans ?_⟩
    rw [List.length_cons, Nat.add_assoc, Nat.add_comm 1]

theorem scanOld_olds (xs ys : List FisDesc) (i : Nat) (scan : Scan)
    (hxs : ∀ desc ∈ xs, ¬ desc.unused ∧ desc.isOld old) (hne : xs ≠ []) :
    ∃ offset, scanOld old (xs ++ ys) i scan =
      scanOld old ys (i + xs.length)
        { offset := offset, first := some (scan.first.getD i),
          last := some (i + xs.length - 1) } := by
  induction xs generalizing i scan with
  | nil => exact absurd rfl hne
  | cons desc xs ih =>
    have hdesc := hxs desc List.mem_cons_self
    have hrest : ∀ desc ∈ xs, ¬ desc.unused ∧ desc.isOld old :=
      fun d hd => hxs d (List.mem_cons_of_mem _ hd)
    simp only [List.cons_append, scanOld, if_neg hdesc.1, if_pos hdesc.2]
    cases xs with
    | nil => exact ⟨_, rfl⟩
    | cons desc' xs =>
      obtain ⟨offset, hscan⟩ := ih (i + 1)
        { offset := if scan.offset < desc.flashBase then desc.flashBase else scan.offset
          first := some (scan.first.getD i), last := some i } hrest (by simp)
      refine ⟨offset, hscan.trans ?_⟩
      rw [List.length_cons, Nat.add_assoc, Nat.add_comm 1]
      rfl

theorem scanOld_free (xs : List FisDesc) (i : Nat) (scan : Scan)
    (hxs : ∀ desc ∈ xs.head?, desc.unused) : scanOld old xs i scan = scan := by
  cases xs with
  | nil => rfl
  | cons desc xs => rw [scanOld, if_pos (hxs desc rfl)]

theorem countOld_used (xs ys : List FisDesc) (hxs : ∀ desc ∈ xs, ¬ desc.unused) :
    countOld old (xs ++ ys) = (xs.filter fun desc => decide (desc.isOld old)).length +
      countOld old ys := by
  induction xs with
  | nil => simp
  | cons desc xs ih =>
    have hrest : ∀ desc ∈ xs, ¬ desc.unused := fun d hd => hxs d (List.mem_cons_of_mem _ hd)
    simp only [List.cons_append, countOld, if_neg (hxs desc List.mem_cons_self), ih hrest,
      List.filter_cons]
    by_cases hold : desc.isOld old
    · simp only [hold, decide_true, if_true, List.length_cons]
      omega
    · simp [hold]

section Layout

variable {pre olds post free : List FisDesc}

theorem FisLayout.scan (hlayout : FisLayout old pre olds post free) :
    ∃ offset, scanOld old (pre ++ olds ++ post ++ free) 0
        { offset := 0, first := none, last := none } =
      { offset := offset, first := some pre.length
        last := some (pre.length + olds.length - 1) } := by
  obtain ⟨offset, hpre⟩ := scanOld_others pre (olds ++ (post ++ free)) 0
    { offset := 0, first := none, last := none } hlayout.preUsed
  obtain ⟨offset', holds⟩ := scanOld_olds olds (post ++ free) (0 + pre.length)
    { offset := offset, first := none, last := none } hlayout.oldsUsed hlayout.someOld
  obtain ⟨offset'', hpost⟩ := scanOld_others post free (0 + pre.length + olds.length)
    { offset := offset', first := some (0 + pre.length)
      last := some (0 + pre.length + olds.length - 1) } hlayout.postUsed
  refine ⟨offset'', ?_⟩
  rw [List.append_assoc, List.append_assoc, hpre, holds, Option.getD_none, hpost,
    scanOld_free free _ _ hlayout.freeUnused]
  simp

theorem FisLayout.count (hlayout : FisLayout old pre olds post free) :
    countOld old (pre ++ olds ++ post ++ free) = olds.length := by
  have hused : ∀ desc ∈ pre ++ olds ++ post, ¬ desc.unused := by
    intro desc hdesc
    rcases List.mem_append.1 hdesc with hdesc | hdesc
    · rcases List.mem_append.1 hdesc with hdesc | hdesc
      · exact (hlayout.preUsed desc hdesc).1
      · exact (hlayout.oldsUsed desc hdesc).1
    · exact (hlayout.postUsed desc hdesc).1
  have hnone : ∀ xs : List FisDesc, (∀ desc ∈ xs, ¬ desc.unused ∧ ¬ desc.isOld old) →
      xs.filter (fun desc => decide (desc.isOld old)) = [] :=
    fun xs hxs => List.filter_eq_nil_iff.2 fun desc hdesc => by simpa using (hxs desc hdesc).2
  have hall : olds.filter (fun desc => decide (desc.isOld old)) = olds :=
    List.filter_eq_self.2 fun desc hdesc => by simpa using (hlayout.oldsUsed desc hdesc).2
  have hfree : countOld old free = 0 := by
    cases free with
    | nil => rfl
    | cons desc free => rw [countOld, if_pos (hlayout.freeUnused desc rfl)]
  rw [countOld_used _ _ hused, hfree, List.filter_append, List.filter_append,
    hnone pre hlayout.preUsed, hnone post hlayout.postUsed, hall]
  simp

/-- The old partitions are as many as their descriptors when the directory passes validation. -/
theorem FisLayout.length_old (hlayout : FisLayout old pre olds post free) {new : List FisPart}
    (hvalid : fisValidate old new (pre ++ olds ++ post ++ free) = 1) :
    olds.length = old.length := by
  unfold fisValidate at hvalid
  split at hvalid
  · exact absurd hvalid (by decide)
  · split at hvalid
    case isTrue heq => rwa [hlayout.count] at heq
    case isFalse => exact absurd hvalid (by decide)

/-! ### Moving the tail -/

theorem moveTail_grow {dir : List FisDesc} {desc last : Nat} (hle : last ≤ desc)
    (hfits : desc ≤ dir.length) :
    moveTail dir desc last = some (dir.take desc ++ (dir.drop last).take (dir.length - desc)) := by
  unfold moveTail
  by_cases heq : desc = last
  · subst heq
    have hall : (dir.drop desc).take (dir.length - desc) = dir.drop desc :=
      List.take_of_length_le (by rw [List.length_drop])
    rw [if_pos rfl, hall, List.take_append_drop]
  · have hlen : ((dir.drop last).take (dir.length - desc)).length = dir.length - desc := by
      rw [List.length_take, List.length_drop]
      omega
    have hend : desc + (dir.length - desc) = dir.length := by omega
    rw [if_neg heq]
    simp only [Nat.max_eq_left hle, if_neg (Nat.not_lt.2 hfits), writeSlots, hlen, hend, le_refl,
      if_true, if_neg (Nat.not_lt.2 hle), Option.bind_eq_bind, Option.bind_some, List.drop_length,
      List.append_nil]

/-- With fewer new descriptors than old ones, `memset` runs out of the directory. -/
theorem moveTail_shrink {dir : List FisDesc} {desc last : Nat} (hlt : desc < last)
    (hfits : last ≤ dir.length) (hsmall : 256 * dir.length < 2 ^ 31) :
    moveTail dir desc last = none := by
  have hlen : ((dir.drop last).take (dir.length - last)).length = dir.length - last := by
    rw [List.length_take, List.length_drop]
    omega
  have hbytes : ptrDiff (256 * (dir.length - (last - desc))) (256 * dir.length) =
      2 ^ 32 - 256 * (last - desc) := by
    unfold ptrDiff
    omega
  unfold moveTail
  simp only [if_neg hlt.ne, Nat.max_eq_right hlt.le, if_neg (Nat.not_lt.2 hfits), writeSlots, hlen,
    if_pos (show desc + (dir.length - last) ≤ dir.length by omega), if_pos hlt, hbytes, eraseSlots,
    Option.bind_eq_bind, Option.bind_some]
  refine if_neg ?_
  simp only [List.length_append, List.length_take, List.length_drop]
  omega

/-! ### New descriptors -/

/-- Descriptors of the partitions `new` at consecutive flash addresses from `base` on. -/
def LaidOut : Word → List FisPart → List FisDesc → Prop
  | _, [], [] => True
  | base, part :: parts, desc :: descs =>
    desc.name = part.name ∧ desc.flashBase = base ∧ desc.memBase = part.loadaddr ∧
      desc.entryPoint = part.loadaddr ∧ (part.size ≠ 0 → desc.size = part.size) ∧
      desc.dataLength = (if part.length ≠ 0 then part.length else desc.size) ∧
      desc.crcDesc = 0 ∧ desc.crcFile = part.crc ∧ (∀ i, desc.pad i = 0) ∧
      LaidOut (base + desc.size) parts descs
  | _, _, _ => False

theorem newDescs_laidOut (new : List FisPart) (offset size : Word) :
    LaidOut offset new (newDescs new offset size) := by
  induction new generalizing offset size with
  | nil => trivial
  | cons part new ih =>
    refine ⟨rfl, rfl, rfl, rfl, fun hsize => ?_, ?_, rfl, rfl, fun _ => rfl, ih _ _⟩
    · exact if_pos ((BitVec.pos_iff_ne_zero part.size).2 hsize)
    · exact if_congr (BitVec.pos_iff_ne_zero part.length) rfl rfl

theorem LaidOut.length_eq {base : Word} {new : List FisPart} {descs : List FisDesc}
    (hlaid : LaidOut base new descs) : descs.length = new.length := by
  induction new generalizing base descs with
  | nil =>
    cases descs with
    | nil => rfl
    | cons desc descs => exact hlaid.elim
  | cons part new ih =>
    cases descs with
    | nil => exact hlaid.elim
    | cons desc descs =>
      obtain ⟨-, -, -, -, -, -, -, -, -, hrest⟩ := hlaid
      rw [List.length_cons, List.length_cons, ih hrest]

theorem LaidOut.base_eq {base base' : Word} {new : List FisPart} {descs : List FisDesc}
    (hlaid : LaidOut base new descs) (hlaid' : LaidOut base' new descs) (hnew : new ≠ []) :
    base = base' := by
  cases new with
  | nil => exact absurd rfl hnew
  | cons part new =>
    cases descs with
    | nil => exact hlaid.elim
    | cons desc descs => exact hlaid.2.1.symm.trans hlaid'.2.1

/-! ### Remapping -/

/-- `base` is the lowest flash address of the descriptors. -/
def Lowest (olds : List FisDesc) (base : Word) : Prop :=
  (∃ desc ∈ olds, desc.flashBase = base) ∧ ∀ desc ∈ olds, base ≤ desc.flashBase

/-- What a remapping has to do: the new descriptors stand in the place of the old ones, at the lowest
old address, the others are kept in order, and slots freed at the end are erased. -/
def Remaps (old : List FisName) (new : List FisPart) (pre olds post free : List FisDesc) : Prop :=
  ∃ base news, Lowest olds base ∧ LaidOut base new news ∧
    fisRemap old new (pre ++ olds ++ post ++ free) =
      some (pre ++ news ++ post ++
        (free ++ List.replicate (olds.length - new.length) FisDesc.erased).take
          (olds.length + free.length - new.length))

/-- The lower one of the addresses of the first and the last old descriptor. -/
def lowerEnd (olds : List FisDesc) (hne : olds ≠ []) : Word :=
  if (olds.head hne).flashBase > (olds.getLast hne).flashBase then (olds.getLast hne).flashBase
  else (olds.head hne).flashBase

theorem FisLayout.fisRemap_eq (hlayout : FisLayout old pre olds post free) (new : List FisPart) :
    ∃ size, fisRemap old new (pre ++ olds ++ post ++ free) =
      (moveTail (pre ++ olds ++ post ++ free) (pre.length + new.length)
        (pre.length + olds.length)).bind fun dir =>
          writeSlots dir pre.length (newDescs new (lowerEnd olds hlayout.someOld) size) := by
  obtain ⟨offset, hscan⟩ := hlayout.scan
  have hpos : 0 < olds.length := List.length_pos_iff.2 hlayout.someOld
  have hfirst : (pre ++ olds ++ post ++ free)[pre.length]? =
      some (olds.head hlayout.someOld) := by
    rw [List.append_assoc, List.append_assoc, List.getElem?_append_right le_rfl, Nat.sub_self,
      List.getElem?_append_left hpos, List.head_eq_getElem, List.getElem?_eq_getElem hpos]
  have hlast : (pre ++ olds ++ post ++ free)[pre.length + olds.length - 1]? =
      some (olds.getLast hlayout.someOld) := by
    rw [List.append_assoc, List.append_assoc, List.getElem?_append_right (by omega),
      List.getElem?_append_left (by omega), List.getLast_eq_getElem,
      show pre.length + olds.length - 1 - pre.length = olds.length - 1 by omega,
      List.getElem?_eq_getElem (by omega)]
  have hnext : pre.length + olds.length - 1 + 1 = pre.length + olds.length := by omega
  unfold fisRemap
  simp only [hscan, hfirst, hlast, hnext, Option.bind_eq_bind, Option.bind_some]
  unfold lowerEnd
  split
  · exact ⟨_, rfl⟩
  · exact ⟨_, rfl⟩

theorem FisLayout.fisRemap_grow (hlayout : FisLayout old pre olds post free) {new : List FisPart}
    (hgrow : olds.length ≤ new.length)
    (hfits : pre.length + new.length + post.length ≤ (pre ++ olds ++ post ++ free).length) :
    ∃ size, fisRemap old new (pre ++ olds ++ post ++ free) =
      some (pre ++ newDescs new (lowerEnd olds hlayout.someOld) size ++ post ++
        free.take (olds.length + free.length - new.length)) := by
  obtain ⟨size, hremap⟩ := hlayout.fisRemap_eq new
  have hnews := (newDescs_laidOut new (lowerEnd olds hlayout.someOld) size).length_eq
  refine ⟨size, hremap.trans ?_⟩
  generalize newDescs new (lowerEnd olds hlayout.someOld) size = news at hremap hnews
  have hlength : (pre ++ olds ++ post ++ free).length =
      pre.length + olds.length + post.length + free.length := by
    simp only [List.length_append]
  have htail : (pre ++ olds ++ post ++ free).drop (pre.length + olds.length) = post ++ free := by
    rw [List.append_assoc, ← List.length_append, List.drop_left]
  have hkept : (post ++ free).take (pre.length + olds.length + post.length + free.length -
      (pre.length + new.length)) = post ++ free.take (olds.length + free.length - new.length) := by
    rw [List.take_append, List.take_of_length_le (by omega)]
    congr 2
    omega
  have hfront : ((pre ++ olds ++ post ++ free).take (pre.length + new.length)).length =
      pre.length + new.length := by
    rw [List.length_take]
    omega
  have hpre : ((pre ++ olds ++ post ++ free).take (pre.length + new.length)).take pre.length =
      pre := by
    rw [List.take_take, Nat.min_eq_left (by omega), List.append_assoc, List.append_assoc,
      List.take_left]
  rw [moveTail_grow (by omega) (by omega), Option.bind_some, htail, hlength, hkept, writeSlots, hnews,
    if_pos (by rw [List.length_append, hfront]; omega),
    List.take_append_of_le_length (by omega), hpre, List.drop_append_of_le_length hfront.ge,
    List.drop_eq_nil_of_le hfront.le, List.nil_append]
  simp only [List.append_assoc]

theorem FisLayout.fisRemap_shrink (hlayout : FisLayout old pre olds post free)
    {new : List FisPart} (hshrink : new.length < olds.length)
    (hsmall : 256 * (pre ++ olds ++ post ++ free).length < 2 ^ 31) :
    fisRemap old new (pre ++ olds ++ post ++ free) = none := by
  obtain ⟨size, hremap⟩ := hlayout.fisRemap_eq new
  have hlength : (pre ++ olds ++ post ++ free).length =
      pre.length + olds.length + post.length + free.length := by
    simp only [List.length_append]
  rw [hremap, moveTail_shrink (by omega) (by omega) hsmall, Option.bind_none]

theorem lowerEnd_mem (hne : olds ≠ []) : ∃ desc ∈ olds, desc.flashBase = lowerEnd olds hne := by
  unfold lowerEnd
  split
  · exact ⟨_, List.getLast_mem hne, rfl⟩
  · exact ⟨_, List.head_mem hne, rfl⟩

theorem lowerEnd_le_iff (hne : olds ≠ []) (base : Word) :
    lowerEnd olds hne ≤ base ↔
      (olds.head hne).flashBase ≤ base ∨ (olds.getLast hne).flashBase ≤ base := by
  unfold lowerEnd
  simp only [gt_iff_lt, BitVec.lt_def, BitVec.le_def]
  split <;> omega

/-- A remapping whose descriptors fit the directory does what it has to if and only if there are at
least as many new partitions as old ones and no old descriptor has a lower address than the first and
the last one. -/
theorem fisRemap_remaps_iff (hlayout : FisLayout old pre olds post free) (new : List FisPart)
    (hvalid : fisValidate old new (pre ++ olds ++ post ++ free) = 1)
    (hsmall : 256 * (pre ++ olds ++ post ++ free).length < 2 ^ 31)
    (hfits : pre.length + new.length + post.length ≤ (pre ++ olds ++ post ++ free).length) :
    Remaps old new pre olds post free ↔
      old.length ≤ new.length ∧
        ∀ desc ∈ olds, (olds.head hlayout.someOld).flashBase ≤ desc.flashBase ∨
          (olds.getLast hlayout.someOld).flashBase ≤ desc.flashBase := by
  have hlen := hlayout.length_old hvalid
  have hpos : 0 < olds.length := List.length_pos_iff.2 hlayout.someOld
  simp only [← lowerEnd_le_iff hlayout.someOld]
  constructor
  · rintro ⟨base, news, hlow, hlaid, hremap⟩
    have hgrow : olds.length ≤ new.length := by
      by_contra hshrink
      rw [hlayout.fisRemap_shrink (Nat.not_le.1 hshrink) hsmall] at hremap
      cases hremap
    refine ⟨hlen ▸ hgrow, ?_⟩
    obtain ⟨size, hgrown⟩ := hlayout.fisRemap_grow hgrow hfits
    have hlaid' := newDescs_laidOut new (lowerEnd olds hlayout.someOld) size
    have heq := Option.some.inj (hremap.symm.trans hgrown)
    simp only [List.append_assoc] at heq
    obtain ⟨hnews, -⟩ := List.append_inj (List.append_cancel_left heq)
      (hlaid.length_eq.trans hlaid'.length_eq.symm)
    have hnew : new ≠ [] := List.length_pos_iff.1 (by omega)
    rw [← hnews] at hlaid'
    rw [← hlaid.base_eq hlaid' hnew]
    exact hlow.2
  · rintro ⟨hgrow, hlow⟩
    obtain ⟨size, hgrown⟩ := hlayout.fisRemap_grow (hlen ▸ hgrow) hfits
    refine ⟨_, _, ⟨lowerEnd_mem hlayout.someOld, hlow⟩,
      newDescs_laidOut new (lowerEnd olds hlayout.someOld) size, hgrown.trans ?_⟩
    have hfreed : olds.length - new.length = 0 := by omega
    rw [hfreed, List.replicate_zero, List.append_nil]

end Layout

/-! ### A directory with three partitions -/

def letterName (c : Byte) : FisName := fun _ => c

def letterDesc (c : Byte) (base : Word) : FisDesc :=
  { FisDesc.erased with name := letterName c, flashBase := base }

def letterPart (c : Byte) (size : Word) : FisPart :=
  { name := letterName c, loadaddr := 0, size := size, length := 0, crc := 0 }

theorem letter_layout :
    FisLayout [letterName 0x62, letterName 0x63] [letterDesc 0x61 0]
      [letterDesc 0x62 0x2000, letterDesc 0x63 0x1000] [letterDesc 0x64 0x3000]
      (List.replicate 12 FisDesc.erased) :=
  ⟨by decide, by decide, by decide, by decide, by decide⟩

theorem fisRemap_remaps_letters :
    Remaps [letterName 0x62, letterName 0x63]
      [letterPart 0x78 0x800, letterPart 0x79 0x800, letterPart 0x7A 0] [letterDesc 0x61 0]
      [letterDesc 0x62 0x2000, letterDesc 0x63 0x1000] [letterDesc 0x64 0x3000]
      (List.replicate 12 FisDesc.erased) :=
  (fisRemap_remaps_iff letter_layout _ (by decide) (by decide) (by decide)).2
    ⟨by decide, by decide⟩

theorem fisRemap_shrink_faults :
    FisLayout [letterName 0x62, letterName 0x63] [letterDesc 0x61 0]
      [letterDesc 0x62 0x2000, letterDesc 0x63 0x1000] [letterDesc 0x64 0x3000]
      (List.replicate 12 FisDesc.erased) ∧
    fisValidate [letterName 0x62, letterName 0x63] [letterPart 0x78 0]
      ([letterDesc 0x61 0] ++ [letterDesc 0x62 0x2000, letterDesc 0x63 0x1000] ++
        [letterDesc 0x64 0x3000] ++ List.replicate 12 FisDesc.erased) = 1 ∧
    ¬ Remaps [letterName 0x62, letterName 0x63] [letterPart 0x78 0] [letterDesc 0x61 0]
      [letterDesc 0x62 0x2000, letterDesc 0x63 0x1000] [letterDesc 0x64 0x3000]
      (List.replicate 12 FisDesc.erased) := by
  refine ⟨letter_layout, by decide, ?_⟩
  rintro ⟨base, news, -, -, hremap⟩
  rw [letter_layout.fisRemap_shrink (by decide) (by decide)] at hremap
  cases hremap

end Immwrt.Mtd
