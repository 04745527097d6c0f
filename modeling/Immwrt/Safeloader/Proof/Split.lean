import Immwrt.Safeloader.Proof.Convert
import Immwrt.Safeloader.Split

/-!
# The divided firmware partition

The entries are moved as they should be while the array has room for one more. The size of the file system is
the size of the firmware partition less the address where the file system starts, so that the two partitions
fill the firmware partition when that starts at 0, and only then.
-/

namespace Immwrt.Safeloader

/-! ### Moving the entries -/

/-- The entries behind `front` are moved up, over the last of the array; the first of them stays behind as a
copy, which is overwritten next. -/
theorem moveUp_append (front slots : List (Option FlashPartition)) (last : Option FlashPartition)
    (rest : List (Option FlashPartition)) :
    ∃ copy, (List.range' front.length slots.length).reverse.foldl
      (fun slots i => slots.set (i + 1) (slots.getD i none)) (front ++ slots ++ last :: rest) =
        front ++ copy :: slots ++ rest := by
  induction slots using List.reverseRecOn generalizing last rest with
  | nil => exact ⟨last, by simp⟩
  | append_singleton slots slot ih =>
    have hget : (front ++ (slots ++ [slot]) ++ last :: rest).getD (front.length + slots.length) none = slot := by
      rw [List.append_assoc, List.append_assoc, ← List.append_assoc, List.getD_eq_getElem?_getD,
        List.getElem?_append_right (by simp), List.length_append, Nat.sub_self]
      rfl
    have hset : (front ++ (slots ++ [slot]) ++ last :: rest).set (front.length + slots.length + 1) slot =
        front ++ slots ++ slot :: (slot :: rest) := by
      have hlen : (front ++ slots ++ [slot]).length = front.length + slots.length + 1 := by
        rw [List.length_append, List.length_append, List.length_singleton]
      rw [← List.append_assoc, ← hlen, List.set_append_right _ _ le_rfl, Nat.sub_self, List.set_cons_zero]
      simp
    obtain ⟨copy, hcopy⟩ := ih slot (slot :: rest)
    refine ⟨copy, ?_⟩
    rw [List.length_append, List.length_singleton, List.range'_concat, List.reverse_concat, List.foldl_cons]
    simp only [Nat.one_mul]
    rw [hget, hset, hcopy]
    simp

theorem tableOf_append (table : List FlashPartition) (slots : List (Option FlashPartition)) :
    tableOf (table.map some ++ slots) = (tableOf slots).map (table ++ ·) := by
  induction table with
  | nil => simp
  | cons part table ih =>
    rw [List.map_cons, List.cons_append, tableOf, ih, Option.map_map]
    rfl

theorem tableOf_replicate (n : Nat) : tableOf (List.replicate n none) = if n = 0 then none else some [] := by
  cases n with
  | zero => rfl
  | succ n => rfl

/-! ### Finding the partition -/

theorem findFirmware_of_none {parts : List FlashPartition} (h : ∀ part ∈ parts, part.name ≠ .lit "firmware")
    (i : Nat) (index : Option Nat) : findFirmware parts i index = index := by
  induction parts generalizing i with
  | nil => rfl
  | cons part parts ih =>
    rw [findFirmware, if_neg (h part List.mem_cons_self), ih fun part hpart => h part (List.mem_cons_of_mem _ hpart)]

theorem findFirmware_append {front : List FlashPartition} (h : ∀ part ∈ front, part.name ≠ .lit "firmware")
    (parts : List FlashPartition) (i : Nat) (index : Option Nat) :
    findFirmware (front ++ parts) i index = findFirmware parts (i + front.length) index := by
  induction front generalizing i with
  | nil => rfl
  | cons part front ih =>
    rw [List.cons_append, findFirmware, if_neg (h part List.mem_cons_self),
      ih fun part hpart => h part (List.mem_cons_of_mem _ hpart), List.length_cons]
    congr 1
    omega

namespace FirmwareLayout

variable (layout : FirmwareLayout)

theorem findFirmware_eq : findFirmware layout.partitions 0 none = some layout.before.length := by
  have hbefore : ∀ part ∈ layout.before, part.name ≠ .lit "firmware" :=
    fun part hpart => (layout.others part (List.mem_append_left _ hpart)).1
  have hbehind : ∀ part ∈ layout.behind, part.name ≠ .lit "firmware" :=
    fun part hpart => (layout.others part (List.mem_append_right _ hpart)).1
  rw [partitions, findFirmware_append hbefore, findFirmware, if_pos layout.named, findFirmware_of_none hbehind,
    Nat.zero_add]

theorem getElem?_partitions : layout.partitions[layout.before.length]? = some layout.firmware := by
  rw [partitions, List.getElem?_append_right le_rfl, Nat.sub_self]
  rfl

theorem length_partitions :
    layout.partitions.length = layout.before.length + 1 + layout.behind.length := by
  rw [partitions, List.length_append, List.length_cons]
  omega

/-- The array afterwards. -/
def dividedSlots (os fs : FlashPartition) : List (Option FlashPartition) :=
  (layout.before ++ os :: fs :: layout.behind).map some ++
    List.replicate (maxPartitions - layout.partitions.length) none

theorem moveUp_slotsOf (os fs : FlashPartition) :
    ((moveUp layout.before.length (slotsOf layout.partitions)).set (layout.before.length + 1) (some fs)).set
      layout.before.length (some os) = layout.dividedSlots os fs := by
  have hcount := layout.count
  have hlen := layout.length_partitions
  have hmax : maxPartitions = 32 := rfl
  -- the entries that move, and the one at the end of the array that is lost
  obtain ⟨moved, hmoved⟩ : ∃ moved : List (Option FlashPartition),
      moved = layout.behind.map some ++ List.replicate (maxPartitions - layout.partitions.length) none := ⟨_, rfl⟩
  have hmovedLen : moved.length = maxPartitions - 1 - layout.before.length := by
    rw [hmoved, List.length_append, List.length_map, List.length_replicate]
    omega
  have hslots : slotsOf layout.partitions =
      (layout.before.map some ++ [some layout.firmware]) ++ moved ++ none :: [] := by
    rw [slotsOf, hmoved, show maxPartitions + 1 - layout.partitions.length =
      maxPartitions - layout.partitions.length + 1 by omega, List.replicate_succ']
    simp [partitions]
  obtain ⟨copy, hcopy⟩ := moveUp_append (layout.before.map some ++ [some layout.firmware]) moved none []
  have hfront : (layout.before.map some ++ [some layout.firmware]).length = layout.before.length + 1 := by simp
  rw [moveUp, hslots, ← hmovedLen, ← hfront, hcopy]
  rw [List.append_nil, List.set_append_right _ _ le_rfl, Nat.sub_self, List.set_cons_zero, List.append_assoc,
    List.set_append_right _ _ (by simp), List.length_map, Nat.sub_self, List.singleton_append,
    List.set_cons_zero, dividedSlots, hmoved]
  simp

theorem splitFirmware_eq {kernelSize : Nat} (sysupgrade : Bool)
    (hkernel : kernelSize ≤ layout.firmware.size.toNat) :
    splitFirmware layout.partitions kernelSize sysupgrade =
      some (layout.dividedSlots (osImagePartition layout.firmware kernelSize)
        (fileSystemPartition layout.firmware kernelSize sysupgrade),
        some (fileSystemPartition layout.firmware kernelSize sysupgrade)) := by
  simp only [splitFirmware, layout.findFirmware_eq, layout.getElem?_partitions]
  rw [if_neg (Nat.not_lt.mpr hkernel), layout.moveUp_slotsOf]

theorem le_of_splitFirmware {kernelSize : Nat} {sysupgrade : Bool}
    {split : List (Option FlashPartition) × Option FlashPartition}
    (h : splitFirmware layout.partitions kernelSize sysupgrade = some split) :
    kernelSize ≤ layout.firmware.size.toNat := by
  by_contra hover
  simp only [splitFirmware, layout.findFirmware_eq, layout.getElem?_partitions] at h
  rw [if_pos (Nat.not_le.mp hover)] at h
  cases h

theorem tableOf_dividedSlots (os fs : FlashPartition) :
    tableOf (layout.dividedSlots os fs) =
      if layout.partitions.length = maxPartitions then none
      else some (layout.before ++ os :: fs :: layout.behind) := by
  have hcount := layout.count
  have hlen := layout.length_partitions
  rw [dividedSlots, tableOf_append, tableOf_replicate]
  by_cases hfull : layout.partitions.length = maxPartitions
  · rw [if_pos (by omega), if_pos hfull, Option.map_none]
  · rw [if_neg (by omega), if_neg hfull, Option.map_some, List.append_nil]

/-- The entry of the file system is found by its name. -/
theorem find_fileSystem {os fs : FlashPartition} (hos : os.name = .lit "os-image")
    (hfs : fs.name = .lit "file-system") :
    (layout.before ++ os :: fs :: layout.behind).find? (fun entry => decide (entry.name = .lit "file-system")) =
      some fs := by
  have hbefore : layout.before.find? (fun entry => decide (entry.name = .lit "file-system")) = none := by
    rw [List.find?_eq_none]
    intro part hpart hname
    exact (layout.others part (List.mem_append_left _ hpart)).2.2 (of_decide_eq_true hname)
  have hne : ¬ os.name = .lit "file-system" := by
    rw [hos]
    decide
  rw [List.find?_append, hbefore, Option.none_or, List.find?_cons_of_neg (by simpa using hne),
    List.find?_cons_of_pos (by simpa using hfs)]

end FirmwareLayout

/-! ### The contents -/

theorem name_of_readFile {name : CString} {file : List Byte} {addJffs2Eof : Bool}
    {fileSystem : Option FlashPartition} {part : ImagePartition}
    (h : readFile name file addJffs2Eof fileSystem = some part) : part.name = name := by
  simp only [readFile] at h
  split at h
  · cases h
  · split at h
    · rw [← Option.some.inj h]
    · rw [← Option.some.inj h]

/-- Among partitions that fit otherwise, `put_partitions` refuses the contents that are larger than the entry
of their name. -/
theorem putPartitions_eq_none_iff {flash : List FlashPartition} {front back : List ImagePartition}
    {part : ImagePartition} {entry : FlashPartition} {image : List Byte}
    (hfind : flash.find? (fun entry => decide (entry.name = part.name)) = some entry)
    (hothers : ∀ part ∈ front ++ back, FitsFlash flash part)
    (htable : (tableText (front ++ part :: back) 0x800).length < 0x800)
    (hroom : tableOffset + 0x800 + (contents (front ++ part :: back)).length ≤ image.length) :
    putPartitions flash (front ++ part :: back) 0 0x800 image = none ↔ entry.size.toNat < part.data.length := by
  constructor
  · intro hnone
    by_contra hle
    have hall : ∀ other ∈ front ++ part :: back, FitsFlash flash other := by
      intro other hother
      rcases List.mem_append.mp hother with hfront | hback
      · exact hothers other (List.mem_append_left _ hfront)
      · rcases List.mem_cons.mp hback with rfl | hback
        · exact ⟨entry, hfind, Nat.not_lt.mp hle⟩
        · exact hothers other (List.mem_append_right _ hback)
    obtain ⟨image', hput, -⟩ := putPartitions_put hall (by rwa [Nat.zero_add]) le_rfl hroom
    rw [hnone] at hput
    cases hput
  · intro hlt
    by_contra hsome
    obtain ⟨image', hput⟩ := Option.ne_none_iff_exists'.mp hsome
    obtain ⟨hall, -⟩ := putPartitions_some hput (by decide)
    obtain ⟨entry', hfind', hle⟩ := hall part (List.mem_append_right _ List.mem_cons_self)
    rw [hfind] at hfind'
    obtain rfl := Option.some.inj hfind'
    omega

/-- The same for the turn of the loop in `generate_sysupgrade_image` with that entry. -/
theorem copyPartitions_singleton_eq_none_iff {parts : List ImagePartition} {part : ImagePartition}
    {entry : FlashPartition} {first : Word} {image : List Byte}
    (hfind : parts.find? (fun imagePart => decide (imagePart.name = entry.name)) = some part)
    (hfirst : first.toNat ≤ entry.base.toNat)
    (hroom : entry.base.toNat - first.toNat + part.data.length ≤ image.length) :
    copyPartitions parts first [entry] image = none ↔ entry.size.toNat < part.data.length := by
  rw [copyPartitions, hfind]
  simp only
  by_cases hlt : entry.size.toNat < part.data.length
  · rw [if_pos hlt]
    exact iff_of_true rfl hlt
  · rw [if_neg hlt, if_neg (by omega), copyPartitions]
    simp [hlt]

/-! ### The division -/

/-- What is left of the firmware partition behind the kernel. -/
def FirmwareLayout.remaining (layout : FirmwareLayout) (kernelSize : Nat) (sysupgrade : Bool) : Nat :=
  layout.firmware.stop - fileSystemStart layout.firmware kernelSize sysupgrade

/-- The firmware partition of the layout is divided into `os` and `fs`, and a root file system is refused
when it is larger than what is left. -/
structure Divided (layout : FirmwareLayout) (kernelSize : Nat) (sysupgrade : Bool)
    (slots : List (Option FlashPartition)) (os fs : FlashPartition) : Prop where
  table : tableOf slots = some (layout.before ++ os :: fs :: layout.behind)
  osName : os.name = .lit "os-image"
  fsName : fs.name = .lit "file-system"
  osInside : Inside os layout.firmware
  fsInside : Inside fs layout.firmware
  fsStop : fs.stop = layout.firmware.stop
  factory : sysupgrade = false → ∀ front back rootfs addJffs2Eof part image,
    readFile (.lit "file-system") rootfs addJffs2Eof (some fs) = some part →
    (∀ other ∈ front ++ back, FitsFlash (layout.before ++ os :: fs :: layout.behind) other) →
    (tableText (front ++ part :: back) 0x800).length < 0x800 →
    tableOffset + 0x800 + (contents (front ++ part :: back)).length ≤ image.length →
    (putPartitions (layout.before ++ os :: fs :: layout.behind) (front ++ part :: back) 0 0x800 image = none ↔
      layout.remaining kernelSize sysupgrade < part.data.length)
  upgrade : sysupgrade = true → ∀ parts rootfs addJffs2Eof part first image,
    readFile (.lit "file-system") rootfs addJffs2Eof (some fs) = some part →
    parts.find? (fun imagePart => decide (imagePart.name = fs.name)) = some part →
    first.toNat ≤ fs.base.toNat → fs.base.toNat - first.toNat + part.data.length ≤ image.length →
    (copyPartitions parts first [fs] image = none ↔
      layout.remaining kernelSize sysupgrade < part.data.length)

theorem alignBlock_eq (x : Nat) : alignBlock x = (x + 0xffff) / 0x10000 * 0x10000 := by
  unfold alignBlock
  omega

/-- Where the place and the size of the file system are those of the rest of the partition, it is divided. -/
theorem divided_of_rest {layout : FirmwareLayout} {kernelSize : Nat} {sysupgrade : Bool}
    (hkernel : kernelSize ≤ layout.firmware.size.toNat) (hcount : layout.partitions.length < maxPartitions)
    (hbase : (fileSystemPartition layout.firmware kernelSize sysupgrade).base.toNat =
      fileSystemStart layout.firmware kernelSize sysupgrade)
    (hsize : (fileSystemPartition layout.firmware kernelSize sysupgrade).size.toNat =
      layout.remaining kernelSize sysupgrade)
    (hstop : fileSystemStart layout.firmware kernelSize sysupgrade ≤ layout.firmware.stop) :
    Divided layout kernelSize sysupgrade
      (layout.dividedSlots (osImagePartition layout.firmware kernelSize)
        (fileSystemPartition layout.firmware kernelSize sysupgrade))
      (osImagePartition layout.firmware kernelSize)
      (fileSystemPartition layout.firmware kernelSize sysupgrade) := by
  have hfind := @FirmwareLayout.find_fileSystem layout (osImagePartition layout.firmware kernelSize)
    (fileSystemPartition layout.firmware kernelSize sysupgrade) rfl rfl
  have hstart : layout.firmware.base.toNat ≤ fileSystemStart layout.firmware kernelSize sysupgrade := by
    rw [fileSystemStart]
    split
    · exact Nat.le_add_right _ _
    · rw [alignBlock_eq]
      omega
  have hos : (osImagePartition layout.firmware kernelSize).size.toNat = kernelSize :=
    Nat.mod_eq_of_lt (hkernel.trans_lt layout.firmware.size.isLt)
  have hfsStop : (fileSystemPartition layout.firmware kernelSize sysupgrade).stop = layout.firmware.stop := by
    rw [FlashPartition.stop, hbase, hsize]
    exact Nat.add_sub_cancel' hstop
  refine ⟨?_, rfl, rfl, ⟨le_rfl, ?_⟩, ⟨?_, ?_⟩, ?_, ?_, ?_⟩
  · rw [layout.tableOf_dividedSlots, if_neg (by omega)]
  · rw [FlashPartition.stop, FlashPartition.stop, hos]
    exact Nat.add_le_add_left hkernel _
  · rw [hbase]
    exact hstart
  · exact hfsStop.le
  · exact hfsStop
  · intro _ front back rootfs addJffs2Eof part image hread hothers htable hroom
    rw [← hsize]
    rw [← name_of_readFile hread] at hfind
    exact putPartitions_eq_none_iff hfind hothers htable hroom
  · intro _ parts rootfs addJffs2Eof part first image _ hparts hfirst hroom
    rw [← hsize]
    exact copyPartitions_singleton_eq_none_iff hparts hfirst hroom

/-- The size is less than what is left by the address of the firmware partition. -/
theorem fileSystem_stop_iff (firmware : FlashPartition) (kernelSize : Nat) (sysupgrade : Bool) :
    (fileSystemPartition firmware kernelSize sysupgrade).stop = firmware.stop ↔
      firmware.base.toNat = 0 ∧ fileSystemStart firmware kernelSize sysupgrade % 2 ^ 32 ≤ firmware.size.toNat := by
  have hbase := firmware.base.isLt
  have hsize := firmware.size.isLt
  simp only [FlashPartition.stop, fileSystemPartition, BitVec.toNat_sub, BitVec.toNat_ofNat]
  omega

/-- With the firmware partition at 0, an aligned file system starts at most at the end of the address space. -/
theorem fileSystemStart_le {firmware : FlashPartition} {kernelSize : Nat} (sysupgrade : Bool)
    (hbase : firmware.base.toNat = 0) (hkernel : kernelSize ≤ firmware.size.toNat) :
    fileSystemStart firmware kernelSize sysupgrade ≤ 2 ^ 32 := by
  have hsize := firmware.size.isLt
  rw [fileSystemStart, hbase]
  split
  · omega
  · rw [alignBlock_eq]
    omega

/-- A file system that starts at the end of the address space is taken to start at 0, and to have room. -/
theorem not_divided_of_wrapped {layout : FirmwareLayout} {kernelSize : Nat} {sysupgrade : Bool}
    {slots : List (Option FlashPartition)} {os : FlashPartition} (hbase : layout.firmware.base.toNat = 0)
    (hkernel : kernelSize ≤ layout.firmware.size.toNat)
    (hstart : fileSystemStart layout.firmware kernelSize sysupgrade = 2 ^ 32) :
    ¬ Divided layout kernelSize sysupgrade slots os
      (fileSystemPartition layout.firmware kernelSize sysupgrade) := by
  intro hdivided
  have hsize := layout.firmware.size.isLt
  have hfactory : sysupgrade = false := by
    rw [Bool.eq_false_iff]
    rintro rfl
    have hplain : fileSystemStart layout.firmware kernelSize true = layout.firmware.base.toNat + kernelSize := rfl
    omega
  have hlarge : 0xffff0000 < kernelSize := by
    rw [fileSystemStart, hfactory, if_neg Bool.false_ne_true, alignBlock_eq] at hstart
    omega
  have hfs : (fileSystemPartition layout.firmware kernelSize sysupgrade).size.toNat =
      layout.firmware.size.toNat := by
    simp only [fileSystemPartition, hstart, BitVec.toNat_sub, BitVec.toNat_ofNat]
    omega
  have hfind := layout.find_fileSystem hdivided.osName hdivided.fsName
  -- a root file system of one byte
  obtain ⟨part, hpart⟩ : ∃ part : ImagePartition, part = { name := .lit "file-system", data := [0] } := ⟨_, rfl⟩
  have hread : readFile (.lit "file-system") [0] false
      (some (fileSystemPartition layout.firmware kernelSize sysupgrade)) = some part := by
    rw [hpart]
    rfl
  have htable : (tableText ([] ++ part :: []) 0x800).length < 0x800 := by
    rw [hpart]
    decide
  have hroom : tableOffset + 0x800 + (contents ([] ++ part :: [])).length ≤
      (List.replicate (tableOffset + 0x800 + 1) (0 : Byte)).length := by
    have hcontents : (contents ([] ++ part :: [])).length = 1 := by
      rw [hpart]
      rfl
    rw [List.length_replicate, hcontents]
  have hnone := hdivided.factory hfactory [] [] [0] false part _ hread (fun _ h => by cases h) htable hroom
  have hrefused := putPartitions_eq_none_iff (by rw [hpart]; exact hfind) (fun _ h => by cases h) htable hroom
  have hremaining : layout.remaining kernelSize sysupgrade < part.data.length := by
    rw [hpart, FirmwareLayout.remaining, hstart, FlashPartition.stop, List.length_singleton]
    omega
  have hlt := hrefused.mp (hnone.mpr hremaining)
  rw [hpart, hfs, List.length_singleton] at hlt
  omega

/-- A firmware partition is divided as it should be if and only if it starts at 0, the kernel, up to an erase
block in a factory image, fits it, and the array has room for one more entry. -/
theorem splitFirmware_divided_iff (layout : FirmwareLayout) (kernelSize : Nat) (sysupgrade : Bool)
    {slots : List (Option FlashPartition)} {fileSystem : Option FlashPartition}
    (hsplit : splitFirmware layout.partitions kernelSize sysupgrade = some (slots, fileSystem)) :
    (∃ os fs, fileSystem = some fs ∧ Divided layout kernelSize sysupgrade slots os fs) ↔
      layout.firmware.base.toNat = 0 ∧
        (if sysupgrade then kernelSize else alignBlock kernelSize) ≤ layout.firmware.size.toNat ∧
        layout.partitions.length < maxPartitions := by
  have hkernel := layout.le_of_splitFirmware hsplit
  rw [layout.splitFirmware_eq sysupgrade hkernel] at hsplit
  obtain ⟨rfl, rfl⟩ := Prod.mk.inj (Option.some.inj hsplit)
  have hsize := layout.firmware.size.isLt
  have hstart : layout.firmware.base.toNat = 0 →
      fileSystemStart layout.firmware kernelSize sysupgrade =
        if sysupgrade then kernelSize else alignBlock kernelSize := by
    intro hbase
    rw [fileSystemStart, hbase, Nat.zero_add]
  constructor
  · rintro ⟨os, fs, hfs, hdivided⟩
    obtain rfl := Option.some.inj hfs
    obtain ⟨hbase, hmod⟩ := (fileSystem_stop_iff _ _ _).mp hdivided.fsStop
    have hle := fileSystemStart_le sysupgrade hbase hkernel
    have hne : fileSystemStart layout.firmware kernelSize sysupgrade ≠ 2 ^ 32 :=
      fun hwrapped => not_divided_of_wrapped hbase hkernel hwrapped hdivided
    refine ⟨hbase, ?_, ?_⟩
    · rw [← hstart hbase]
      omega
    · by_contra hfull
      have hlen := layout.length_partitions
      have hcount := layout.count
      have htable := hdivided.table
      rw [layout.tableOf_dividedSlots, if_pos (by omega)] at htable
      cases htable
  · rintro ⟨hbase, hroom, hcount⟩
    rw [← hstart hbase] at hroom
    have hfsBase : (fileSystemPartition layout.firmware kernelSize sysupgrade).base.toNat =
        fileSystemStart layout.firmware kernelSize sysupgrade :=
      Nat.mod_eq_of_lt (hroom.trans_lt hsize)
    have hstop : layout.firmware.stop = layout.firmware.size.toNat := by
      rw [FlashPartition.stop, hbase, Nat.zero_add]
    refine ⟨_, _, rfl, divided_of_rest hkernel hcount hfsBase ?_ (by rw [hstop]; exact hroom)⟩
    rw [FirmwareLayout.remaining, hstop]
    have hmod : (BitVec.ofNat 32 (fileSystemStart layout.firmware kernelSize sysupgrade)).toNat =
        fileSystemStart layout.firmware kernelSize sysupgrade := hfsBase
    rw [fileSystemPartition, BitVec.toNat_sub_of_le (by rw [BitVec.le_def, hmod]; exact hroom), hmod]

/-- A layout that is all firmware up to the list of supported devices. -/
def wholeFlash : FirmwareLayout where
  before := []
  firmware := { name := .lit "firmware", base := 0, size := 0x7b0000 }
  behind := [{ name := .lit "support-list", base := 0x7b0000, size := 0x400 }]
  count := by decide
  named := rfl
  others := by decide

theorem splitFirmware_divided_iff_wholeFlash :
    ∃ slots fs, splitFirmware wholeFlash.partitions 0x123456 false = some (slots, some fs) ∧
      ∃ os, Divided wholeFlash 0x123456 false slots os fs := by
  have hsplit := @FirmwareLayout.splitFirmware_eq wholeFlash 0x123456 false (by decide)
  obtain ⟨os, fs, hfs, hdivided⟩ := (splitFirmware_divided_iff wholeFlash 0x123456 false hsplit).mpr (by decide)
  exact ⟨_, _, hsplit, os, Option.some.inj hfs ▸ hdivided⟩

/-- The layout of the CPE210 V1. -/
def cpe210 : FirmwareLayout where
  before := [{ name := .lit "fs-uboot", base := 0x00000, size := 0x20000 },
    { name := .lit "partition-table", base := 0x20000, size := 0x02000 },
    { name := .lit "default-mac", base := 0x30000, size := 0x00020 },
    { name := .lit "product-info", base := 0x31100, size := 0x00100 },
    { name := .lit "signature", base := 0x32000, size := 0x00400 }]
  firmware := { name := .lit "firmware", base := 0x40000, size := 0x770000 }
  behind := [{ name := .lit "soft-version", base := 0x7b0000, size := 0x00100 },
    { name := .lit "support-list", base := 0x7b1000, size := 0x00400 },
    { name := .lit "user-config", base := 0x7c0000, size := 0x10000 },
    { name := .lit "default-config", base := 0x7d0000, size := 0x10000 },
    { name := .lit "log", base := 0x7e0000, size := 0x10000 },
    { name := .lit "radio", base := 0x7f0000, size := 0x10000 }]
  count := by decide
  named := rfl
  others := by decide

/-- On that board the file system lacks the 256 KiB that lie before the firmware partition. -/
theorem cpe210_not_divided :
    ∃ slots fs, splitFirmware cpe210.partitions 0x123456 false = some (slots, some fs) ∧
      fs.size = 0x600000 ∧ ¬ ∃ os, Divided cpe210 0x123456 false slots os fs := by
  have hsplit := @FirmwareLayout.splitFirmware_eq cpe210 0x123456 false (by decide)
  refine ⟨_, _, hsplit, by decide, ?_⟩
  rintro ⟨os, hdivided⟩
  obtain ⟨hbase, -⟩ := (fileSystem_stop_iff _ _ _).mp hdivided.fsStop
  exact absurd hbase (by decide)

end Immwrt.Safeloader
