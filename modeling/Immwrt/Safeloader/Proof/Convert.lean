import Immwrt.Safeloader.Proof.Image

/-!
# Converting agrees with generating

A factory image has the contents of the partitions and the flash layout as text. What is converted from it is
the sysupgrade image of the same partitions, filled up to the end of the file system in the flash.
-/

namespace Immwrt.Safeloader

/-! ### Filling -/

theorem writeFfFrom_eq {size fuel offset : Nat} (hfuel : size < offset + 4096 * fuel) :
    writeFfFrom size fuel offset = List.replicate (size - offset) 0xff := by
  induction fuel generalizing offset with
  | zero => rw [writeFfFrom, Nat.sub_eq_zero_of_le (by omega), List.replicate_zero]
  | succ fuel ih =>
    rw [writeFfFrom]
    split
    case isTrue hmore =>
      rw [ih (by omega), List.replicate_append_replicate, show 4096 + (size - (offset + 4096)) = size - offset by omega]
    case isFalse hlast =>
      split
      case isTrue => rfl
      case isFalse hdone => rw [Nat.sub_eq_zero_of_le (by omega), List.replicate_zero]

theorem writeFf_eq (size : Nat) : writeFf size = List.replicate size 0xff := by
  rw [writeFf, writeFfFrom_eq (by omega), Nat.sub_zero]

theorem fwriteAt_length {file : List Byte} {pos : Nat} (hpos : file.length = pos) (data : List Byte) :
    fwriteAt file pos data = file ++ data := by
  rw [fwriteAt, ← hpos]
  split
  case isTrue hnil => rw [hnil, List.append_nil]
  case isFalse =>
    rw [List.take_length, Nat.sub_self, List.replicate_zero, List.append_nil,
      List.drop_eq_nil_of_le (Nat.le_add_right _ _), List.append_nil]

/-! ### The flash layout as text -/

/-- The entry that is read from the line of a flash partition with a name that is not too long. -/
def FlashPartition.entry (part : FlashPartition) : TableEntry where
  name := part.name
  base := part.base
  size := part.size

theorem flashLine_eq (part : FlashPartition) : flashLine part = lineText .flash part.entry := by
  have hhdr : ofChars "partition " = TableType.flash.parthdr ++ [0x20] := rfl
  have hbaseText : ofChars " base 0x" = 0x20 :: (ofChars "base" ++ 0x20 :: ofChars "0x") := rfl
  have hsizeText : ofChars " size 0x" = 0x20 :: (ofChars "size" ++ 0x20 :: ofChars "0x") := rfl
  have hend : ofChars "\n" = TableType.flash.lineEnd ++ [0x0A] := rfl
  rw [flashLine, hhdr, hbaseText, hsizeText, hend, lineText, lineBody, afterName, baseText, sizeText]
  simp only [FlashPartition.entry, List.append_assoc, List.cons_append, List.nil_append]

/-- The text of a layout. -/
def flashText (flash : List FlashPartition) : List Byte :=
  (flash.map FlashPartition.entry).flatMap (lineText .flash)

theorem putFlashLines_some {flash : List FlashPartition} {text text' : List Byte}
    (hput : putFlashLines flash text = some text') (hroom : 4 + text.length < 0x800) :
    text' = text ++ flashText flash ∧ 4 + text'.length < 0x800 := by
  induction flash generalizing text with
  | nil =>
    obtain rfl := Option.some.inj hput
    exact ⟨(List.append_nil text).symm, hroom⟩
  | cons part flash ih =>
    rw [putFlashLines] at hput
    split at hput
    case isTrue => cases hput
    case isFalse hfits =>
      obtain ⟨htext, hlength⟩ := ih hput (by rw [List.length_append]; omega)
      refine ⟨?_, hlength⟩
      rw [htext, flashLine_eq, List.append_assoc, flashText, flashText, List.map_cons, List.flatMap_cons]

/-- The `partition-table` partition: a header of four bytes, the text, terminated, and a filling. -/
structure TablePartition (flash : List FlashPartition) (table : ImagePartition) : Prop where
  name : table.name = .lit "partition-table"
  fits : 4 + (flashText flash).length < 0x800
  length : table.data.length = 0x800
  text : flash ≠ [] → slice table.data 4 ((flashText flash).length + 1) = flashText flash ++ [0]

theorem makePartitionTable_some {malloc : Byte} {flash : List FlashPartition} {table : ImagePartition}
    (hmake : makePartitionTable malloc flash = some table) : TablePartition flash table := by
  obtain ⟨text, hput, rfl⟩ := Option.map_eq_some_iff.1 hmake
  obtain ⟨htext, hlength⟩ := putFlashLines_some hput (by decide)
  rw [List.nil_append] at htext
  subst htext
  refine ⟨rfl, hlength, ?_, ?_⟩
  · simp only [List.length_append, List.length_cons, List.length_nil, List.length_replicate]
    omega
  · intro hflash
    rw [if_neg hflash]
    generalize flashText flash = text at hlength
    dsimp only
    rw [List.append_assoc, List.append_assoc, slice_append_right (by rfl), ← List.append_assoc,
      List.take_append_of_le_length (by simp), List.take_of_length_le (by simp)]

/-! ### What generating a factory image tells -/

theorem putPartitions_some {flash : List FlashPartition} {parts : List ImagePartition} {imagePt base : Nat}
    {image image' : List Byte} (hput : putPartitions flash parts imagePt base image = some image')
    (hroom : imagePt < 0x800) :
    (∀ part ∈ parts, FitsFlash flash part) ∧ imagePt + (tableText parts base).length < 0x800 := by
  induction parts generalizing imagePt base image with
  | nil =>
    refine ⟨fun part hpart => ?_, hroom⟩
    cases hpart
  | cons part parts ih =>
    rw [putPartitions] at hput
    split at hput
    case h_1 => cases hput
    case h_2 entry hfind =>
      split at hput
      case isTrue => cases hput
      case isFalse hsize =>
        dsimp only at hput
        split at hput
        case isTrue => cases hput
        case isFalse hline =>
          obtain ⟨hfits, hlength⟩ := ih hput (by omega)
          refine ⟨?_, ?_⟩
          · rw [List.forall_mem_cons]
            exact ⟨⟨entry, hfind, by omega⟩, hfits⟩
          · rw [tableText, List.length_append]
            omega

theorem generateFactoryImage_some {md5 : List Byte → Fin 16 → Byte} {info : DeviceInfo} {parts : List ImagePartition}
    {image : List Byte} (hgenerate : generateFactoryImage md5 info parts = some image) :
    (∀ part ∈ parts, FitsFlash info.partitions part) ∧ (tableText parts 0x800).length < 0x800 ∧
      Factory parts image := by
  obtain ⟨put, hput, -⟩ := Option.map_eq_some_iff.1 hgenerate
  obtain ⟨hfits, hlength⟩ := putPartitions_some hput (by decide)
  rw [Nat.zero_add] at hlength
  obtain ⟨image', hgenerate', hfactory⟩ := generateFactoryImage_factory md5 info hfits hlength
  rw [hgenerate] at hgenerate'
  rw [Option.some.inj hgenerate']
  exact ⟨hfits, hlength, hfactory⟩

/-- The header of a factory image has the length and the digest of what follows it. -/
theorem generateFactoryImage_header {md5 : List Byte → Fin 16 → Byte} {info : DeviceInfo}
    {parts : List ImagePartition} {image : List Byte} (hgenerate : generateFactoryImage md5 info parts = some image) :
    slice image 0 4 = u32be (imageLength parts) ∧ slice image 4 16 = List.ofFn (md5 (image.drop 0x14)) := by
  obtain ⟨hflash, hfits, -⟩ := generateFactoryImage_some hgenerate
  obtain ⟨hlength, -⟩ := blankImage_spec info parts
  have hlen : imageLength parts = tableOffset + 0x800 + (contents parts).length := by
    rw [imageLength, length_contents]
    rfl
  obtain ⟨put, hput, hspec⟩ : ∃ put,
      putPartitions info.partitions parts 0 0x800 (blankImage info parts) = some put ∧
        Put parts 0 0x800 (blankImage info parts) put :=
    putPartitions_put hflash (by omega) le_rfl (by omega)
  have hsize := hspec.length
  have himage : generateFactoryImage md5 info parts = some (splice put 0x04 (List.ofFn (md5 (put.drop 0x14)))) := by
    show (putPartitions info.partitions parts 0 0x800 (blankImage info parts)).map _ = _
    rw [hput, Option.map_some]
  rw [hgenerate] at himage
  obtain rfl := Option.some.inj himage
  have hdigest : (List.ofFn (md5 (put.drop 0x14))).length = 16 := List.length_ofFn
  have hdrop : (splice put 0x04 (List.ofFn (md5 (put.drop 0x14)))).drop 0x14 = put.drop 0x14 := by
    rw [splice, hdigest, List.drop_left' (by rw [List.length_append, List.length_take, hdigest]; omega)]
  refine ⟨?_, ?_⟩
  · rw [slice_splice_of_disjoint (by omega) (.inl (by decide)), hspec.before 0 4 (by decide), slice_blankImage]
  · rw [hdrop]
    generalize List.ofFn (md5 (put.drop 0x14)) = digest at hdigest
    rw [← hdigest]
    exact slice_splice_self (by omega)

/-- What has a name of its own is found by it. -/
theorem find_of_nodup {α : Type} {name : α → CString} {parts : List α} (hnodup : (parts.map name).Nodup) {part : α}
    (hmem : part ∈ parts) : parts.find? (fun entry => decide (name entry = name part)) = some part := by
  cases hfind : parts.find? fun entry => decide (name entry = name part) with
  | none => exact absurd rfl (of_decide_eq_false (Bool.eq_false_of_not_eq_true (List.find?_eq_none.1 hfind part hmem)))
  | some found =>
    have hname : name found = name part := by simpa using List.find?_some hfind
    rw [List.inj_on_of_nodup_map hnodup (List.mem_of_find?_eq_some hfind) hmem hname]

/-- The entry of a partition in the table of a factory image leads to its contents. -/
theorem findPartition_tableEntries {file : List Byte} {offset : Nat} {parts : List ImagePartition} {base : Nat}
    (hsize : base + (contents parts).length < 2 ^ 32)
    (hfile : base + offset + (contents parts).length ≤ file.length)
    (hdata : slice file (base + offset) (contents parts).length = contents parts) {name : CString}
    {part : ImagePartition} (hfind : parts.find? (fun part => decide (part.name = name)) = some part) :
    ∃ entry, findPartition (tableEntries parts base) name = some entry ∧
      entry.size = BitVec.ofNat 32 part.data.length ∧ writePartition file offset entry = some part.data := by
  induction parts generalizing base with
  | nil => cases hfind
  | cons head parts ih =>
    have hcontents : contents (head :: parts) = head.data ++ contents parts := List.flatMap_cons
    rw [hcontents, List.length_append] at hsize hfile hdata
    rw [slice_add] at hdata
    obtain ⟨hhead, htail⟩ := List.append_inj hdata (length_slice_of_le (by omega))
    rw [Nat.add_right_comm] at htail
    rw [findPartition, tableEntries_cons]
    by_cases hname : head.name = name
    · rw [List.find?_cons_of_pos (by simpa using hname)] at hfind
      obtain rfl := Option.some.inj hfind
      rw [List.find?_cons_of_pos (by simpa using hname)]
      refine ⟨_, rfl, rfl, ?_⟩
      rw [writePartition_slice (by omega) (by omega) (by omega), hhead]
    · rw [List.find?_cons_of_neg (by simpa using hname)] at hfind
      rw [List.find?_cons_of_neg (by simpa using hname)]
      exact ih (by omega) (by omega) htail hfind

/-! ### Boards -/

/-- A layout without a combined firmware partition, in which the kernel and the file system are the first and
the last partition of an upgrade and the one ends where the other begins. -/
structure Board.Upgrades (board : Board) (os fs : FlashPartition) : Prop where
  noFirmware : ∀ part ∈ board.partitions, part.name ≠ .lit "firmware"
  first : board.firstSysupgradePartition = .lit "os-image"
  last : board.lastSysupgradePartition = .lit "file-system"
  osName : os.name = .lit "os-image"
  fsName : fs.name = .lit "file-system"
  listed : [os, fs].Sublist board.partitions
  adjacent : os.base.toNat + os.size.toNat = fs.base.toNat

section Boards

variable {board : Board} {os fs : FlashPartition}

/-- A partition is found by its name. -/
theorem Board.find_eq (board : Board) {part : FlashPartition} (hmem : part ∈ board.partitions) :
    board.partitions.find? (fun entry => decide (entry.name = part.name)) = some part :=
  find_of_nodup (List.pairwise_map.2 board.distinct) hmem

theorem Board.length_le_of_fits {part : FlashPartition} (hmem : part ∈ board.partitions) {imagePart : ImagePartition}
    (hname : imagePart.name = part.name) (hfits : FitsFlash board.partitions imagePart) :
    imagePart.data.length ≤ part.size.toNat := by
  obtain ⟨entry, hfind, hsize⟩ := hfits
  rw [hname, board.find_eq hmem] at hfind
  rwa [Option.some.inj hfind]

/-- What lies between the two in the list has no place in the flash. -/
theorem Board.Upgrades.split (hboard : board.Upgrades os fs) :
    ∃ front middle back, board.partitions = front ++ os :: (middle ++ fs :: back) ∧
      ∀ part ∈ middle, part.base = fs.base ∧ part.size.toNat = 0 := by
  obtain ⟨before, after, hparts, hos, hfs⟩ := List.cons_sublist_iff.1 hboard.listed
  obtain ⟨front, left, rfl⟩ := List.append_of_mem hos
  obtain ⟨right, back, rfl⟩ := List.append_of_mem (List.singleton_sublist.1 hfs)
  refine ⟨front, left ++ right, back, by simp [hparts], fun part hpart => ?_⟩
  have hordered := board.ordered
  rw [hparts, List.append_assoc, List.cons_append, ← List.append_assoc left] at hordered
  obtain ⟨-, hordered, -⟩ := List.pairwise_append.1 hordered
  obtain ⟨hfirst, hordered⟩ := List.pairwise_cons.1 hordered
  obtain ⟨-, -, hlast⟩ := List.pairwise_append.1 hordered
  have hge := hfirst part (List.mem_append_left _ hpart)
  have hle := hlast part hpart fs List.mem_cons_self
  have hadjacent := hboard.adjacent
  exact ⟨BitVec.eq_of_toNat_eq (by omega), by omega⟩

theorem Board.Upgrades.os_mem (hboard : board.Upgrades os fs) : os ∈ board.partitions :=
  hboard.listed.subset List.mem_cons_self

theorem Board.Upgrades.fs_mem (hboard : board.Upgrades os fs) : fs ∈ board.partitions :=
  hboard.listed.subset (List.mem_cons_of_mem _ List.mem_cons_self)

theorem Board.findEnds_append (board : Board) (front back : List FlashPartition) (i : Nat) (ends : Ends) :
    board.findEnds (front ++ back) i ends = board.findEnds back (i + front.length) (board.findEnds front i ends) := by
  induction front generalizing i ends with
  | nil => rfl
  | cons part front ih =>
    rw [List.cons_append, Board.findEnds, ih, Board.findEnds, List.length_cons, Nat.add_right_comm, Nat.add_assoc]

theorem Board.findEnds_of_not {parts : List FlashPartition}
    (hnot : ∀ part ∈ parts, part.name ≠ board.firstSysupgradePartition ∧ part.name ≠ board.lastSysupgradePartition)
    (i : Nat) (ends : Ends) : board.findEnds parts i ends = ends := by
  induction parts generalizing i with
  | nil => rfl
  | cons part parts ih =>
    rw [List.forall_mem_cons] at hnot
    rw [Board.findEnds, if_neg hnot.1.1, if_neg hnot.1.2, ih hnot.2]

theorem Board.Upgrades.findEnds_eq (hboard : board.Upgrades os fs) {front middle back : List FlashPartition}
    (hparts : board.partitions = front ++ os :: (middle ++ fs :: back)) :
    board.findEnds board.partitions 0 { first := none, last := none } =
      { first := some (front.length, os), last := some (front.length + 1 + middle.length, fs) } := by
  have hdistinct := board.distinct
  rw [hparts, List.pairwise_append, List.pairwise_cons, List.pairwise_append, List.pairwise_cons] at hdistinct
  obtain ⟨-, ⟨hos, -, ⟨hfs, -⟩, hmiddle⟩, hfront⟩ := hdistinct
  have hfirst : os.name = board.firstSysupgradePartition := hboard.osName.trans hboard.first.symm
  have hlast : fs.name = board.lastSysupgradePartition := hboard.fsName.trans hboard.last.symm
  have hne : fs.name ≠ board.firstSysupgradePartition := by
    rw [hboard.fsName, hboard.first]
    decide
  have hfrontNot : ∀ part ∈ front,
      part.name ≠ board.firstSysupgradePartition ∧ part.name ≠ board.lastSysupgradePartition := by
    intro part hpart
    rw [← hfirst, ← hlast]
    exact ⟨hfront part hpart os (by simp), hfront part hpart fs (by simp)⟩
  have hmiddleNot : ∀ part ∈ middle,
      part.name ≠ board.firstSysupgradePartition ∧ part.name ≠ board.lastSysupgradePartition := by
    intro part hpart
    rw [← hfirst, ← hlast]
    exact ⟨(hos part (by simp [hpart])).symm, hmiddle part hpart fs (by simp)⟩
  have hbackNot : ∀ part ∈ back,
      part.name ≠ board.firstSysupgradePartition ∧ part.name ≠ board.lastSysupgradePartition := by
    intro part hpart
    rw [← hfirst, ← hlast]
    exact ⟨(hos part (by simp [hpart])).symm, (hfs part hpart).symm⟩
  rw [hparts, Board.findEnds_append, Board.findEnds_of_not hfrontNot, Board.findEnds, if_pos hfirst,
    Board.findEnds_append, Board.findEnds_of_not hmiddleNot, Board.findEnds, if_neg hne, if_pos hlast,
    Board.findEnds_of_not hbackNot, Nat.zero_add]

/-- Partitions without a place change nothing. -/
theorem copyPartitions_empty {imageParts : List ImagePartition} {first last : Word} {image : List Byte}
    (hle : first.toNat ≤ last.toNat) (hroom : last.toNat - first.toNat ≤ image.length)
    {empty : List FlashPartition} (hempty : ∀ part ∈ empty, part.base = last ∧ ∀ imagePart ∈ imageParts,
      imagePart.name = part.name → imagePart.data = []) (rest : List FlashPartition) :
    copyPartitions imageParts first (empty ++ rest) image = copyPartitions imageParts first rest image := by
  induction empty with
  | nil => rfl
  | cons part empty ih =>
    rw [List.forall_mem_cons] at hempty
    obtain ⟨⟨hbase, hdata⟩, hempty⟩ := hempty
    rw [List.cons_append, copyPartitions]
    split
    case h_1 => exact ih hempty
    case h_2 imagePart hfind =>
      have hname : imagePart.name = part.name := by simpa using List.find?_some hfind
      have hnil := hdata imagePart (List.mem_of_find?_eq_some hfind) hname
      rw [hnil, List.length_nil, if_neg (Nat.not_lt_zero _), hbase, if_neg (by omega), splice_nil, ih hempty]

theorem copyPartitions_cons {imageParts : List ImagePartition} {first : Word} {part : FlashPartition}
    {imagePart : ImagePartition} {image : List Byte}
    (hfind : imageParts.find? (fun imagePart => decide (imagePart.name = part.name)) = some imagePart)
    (hsize : imagePart.data.length ≤ part.size.toNat) (hle : first.toNat ≤ part.base.toNat)
    (hroom : part.base.toNat - first.toNat + imagePart.data.length ≤ image.length) (parts : List FlashPartition) :
    copyPartitions imageParts first (part :: parts) image =
      copyPartitions imageParts first parts (splice image (part.base.toNat - first.toNat) imagePart.data) := by
  rw [copyPartitions, hfind]
  dsimp only
  rw [if_neg (by omega), if_neg (by omega)]

/-- The kernel, filled up to the file system, and the file system. -/
def sysupgradeImage (os : FlashPartition) (kernel rootfs : List Byte) : List Byte :=
  kernel ++ List.replicate (os.size.toNat - kernel.length) 0xff ++ rootfs

theorem splice_blank {kernel rootfs : List Byte} {size : Nat} (hkernel : kernel.length ≤ size) :
    splice (splice (List.replicate (size + rootfs.length) 0xff) 0 kernel) size rootfs =
      kernel ++ List.replicate (size - kernel.length) 0xff ++ rootfs := by
  have hfirst : splice (List.replicate (size + rootfs.length) (0xff : Byte)) 0 kernel =
      (kernel ++ List.replicate (size - kernel.length) 0xff) ++ List.replicate rootfs.length 0xff := by
    rw [splice, List.take_zero, List.nil_append, Nat.zero_add, List.drop_replicate, List.append_assoc,
      List.replicate_append_replicate, show size + rootfs.length - kernel.length =
        size - kernel.length + rootfs.length by omega]
  rw [hfirst, splice_append _ _ _ (by rw [List.length_append, List.length_replicate]; omega), List.drop_replicate,
    Nat.sub_self, List.replicate_zero, List.append_nil]

theorem Board.Upgrades.generateSysupgradeImage_eq (hboard : board.Upgrades os fs) {parts : List ImagePartition}
    (hfits : ∀ part ∈ parts, FitsFlash board.partitions part) {kernel rootfs : List Byte}
    (hkernel : parts.find? (fun part => decide (part.name = .lit "os-image")) = some ⟨.lit "os-image", kernel⟩)
    (hrootfs : parts.find? (fun part => decide (part.name = .lit "file-system")) = some ⟨.lit "file-system", rootfs⟩) :
    board.generateSysupgradeImage parts = some (sysupgradeImage os kernel rootfs) := by
  obtain ⟨front, middle, back, hparts, hmiddle⟩ := hboard.split
  have hkernelFits : kernel.length ≤ os.size.toNat :=
    Board.length_le_of_fits hboard.os_mem hboard.osName.symm (hfits _ (List.mem_of_find?_eq_some hkernel))
  have hrootfsFits : rootfs.length ≤ fs.size.toNat :=
    Board.length_le_of_fits hboard.fs_mem hboard.fsName.symm (hfits _ (List.mem_of_find?_eq_some hrootfs))
  have hadjacent := hboard.adjacent
  have hspan : (fs.base - os.base).toNat = os.size.toNat := by
    rw [BitVec.toNat_sub_of_le (show os.base.toNat ≤ fs.base.toNat by omega)]
    omega
  have hrange : (board.partitions.drop front.length).take (front.length + 1 + middle.length + 1 - front.length) =
      os :: (middle ++ [fs]) := by
    rw [hparts, List.drop_left, show front.length + 1 + middle.length + 1 - front.length =
      middle.length + 1 + 1 by omega, List.take_succ_cons, List.take_append, List.take_of_length_le (by omega),
      Nat.add_sub_cancel_left, List.take_succ_cons, List.take_zero]
  have hempty : ∀ part ∈ middle, part.base = fs.base ∧ ∀ imagePart ∈ parts,
      imagePart.name = part.name → imagePart.data = [] := by
    intro part hpart
    refine ⟨(hmiddle part hpart).1, fun imagePart himagePart hname => ?_⟩
    have hmem : part ∈ board.partitions := by simp [hparts, hpart]
    have hlength := Board.length_le_of_fits hmem hname (hfits imagePart himagePart)
    rw [(hmiddle part hpart).2] at hlength
    exact List.eq_nil_of_length_eq_zero (Nat.le_zero.1 hlength)
  have hfirst : os.base.toNat - os.base.toNat = 0 := Nat.sub_self _
  have hlast : fs.base.toNat - os.base.toNat = os.size.toNat := by omega
  have hlength : (splice (List.replicate (os.size.toNat + rootfs.length) (0xff : Byte)) 0 kernel).length =
      os.size.toNat + rootfs.length := by
    rw [length_splice (by rw [List.length_replicate]; omega), List.length_replicate]
  rw [Board.generateSysupgradeImage, hboard.findEnds_eq hparts]
  dsimp only
  rw [if_pos (by omega), hboard.last, hrootfs]
  dsimp only
  rw [hrange, hspan, copyPartitions_cons (by rw [hboard.osName, hkernel]) hkernelFits le_rfl
    (by rw [List.length_replicate]; dsimp only; omega), hfirst]
  dsimp only
  rw [copyPartitions_empty (by omega) (by omega) hempty,
    copyPartitions_cons (by rw [hboard.fsName, hrootfs]) hrootfsFits (by omega) (by dsimp only; omega), hlast]
  dsimp only
  rw [copyPartitions, splice_blank hkernelFits, sysupgradeImage]

/-! ### The flash layout, read back -/

theorem bytes_shortName (name : CString) : (shortName name).bytes = name.bytes.take 31 :=
  congrArg CString.bytes
    (CString.ofBytes_bytes ⟨name.bytes.take 31, fun hmem => name.noNul (List.mem_of_mem_take hmem)⟩)

/-- A name that is cut is not mistaken for a short one. -/
theorem shortName_eq_iff {name short : CString} (hshort : short.strlen < 31) : shortName name = short ↔ name = short := by
  constructor
  · intro hname
    have hbytes : name.bytes.take 31 = short.bytes := by rw [← bytes_shortName, hname]
    have hlength := congrArg List.length hbytes
    rw [List.length_take] at hlength
    have hle : name.strlen ≤ 31 := by
      rw [CString.strlen] at hshort ⊢
      omega
    rw [← hname, shortName_of_le hle]
  · rintro rfl
    exact shortName_of_le hshort.le

theorem Board.findPartition_flash (board : Board) {part : FlashPartition} (hmem : part ∈ board.partitions)
    (hshort : part.name.strlen < 31) :
    findPartition ((board.partitions.map FlashPartition.entry).map TableEntry.shortened) part.name =
      some part.entry := by
  have hsame : (fun entry : TableEntry => decide (entry.name = part.name)) ∘
      (TableEntry.shortened ∘ FlashPartition.entry) = fun entry => decide (entry.name = part.name) := by
    funext entry
    exact decide_eq_decide.2 (shortName_eq_iff hshort)
  rw [findPartition, List.map_map, List.find?_map, hsame, board.find_eq hmem, Option.map_some, Function.comp_apply,
    TableEntry.shortened, show shortName part.entry.name = part.entry.name from shortName_of_le hshort.le]

theorem Board.readTable_flash (board : Board) {bits : Nat} (hbits : 32 ≤ bits) {table : ImagePartition}
    (htable : TablePartition board.partitions table) (hne : board.partitions ≠ []) {file : List Byte} {offset : Nat}
    (hfile : offset + 4 + 2048 ≤ file.length) (hdata : slice file offset 0x800 = table.data) :
    readTable bits file (offset + 4) .flash =
      some ((board.partitions.map FlashPartition.entry).map TableEntry.shortened) := by
  have hfits := htable.fits
  have htext : slice file (offset + 4) ((flashText board.partitions).length + 1) =
      flashText board.partitions ++ [0] := by
    rw [← slice_slice file offset 0x800 4 _ (by omega), hdata, htable.text hne]
  have hwords : ∀ entry ∈ board.partitions.map FlashPartition.entry, IsWord entry.name := by
    intro entry hentry
    obtain ⟨part, hpart, rfl⟩ := List.mem_map.1 hentry
    exact board.words part hpart
  have hread : readPartitionTable bits file (offset + 4) maxPartitions .flash =
      some (0, (board.partitions.map FlashPartition.entry).map TableEntry.shortened) :=
    readPartitionTable_lines hbits .flash (by simpa using hne) (by rw [List.length_map]; exact board.count)
      (by decide) hwords hfile (show (flashText board.partitions).length < 2048 by omega) htext
  rw [readTable, hread]
  rfl

/-! ### The partitions of an image -/

/-- The partitions of an image with a given table. -/
def Board.partsWith (board : Board) (table : ImagePartition) (tm : Tm) (kernel rootfs : List Byte) :
    List ImagePartition :=
  [table, board.makeSoftVersion tm, board.makeSupportList, { name := .lit "os-image", data := kernel },
    { name := .lit "file-system", data := rootfs }] ++ board.makeExtraPara

theorem Board.parts_some {malloc : Byte} {tm : Tm} {kernel rootfs : List Byte} {parts : List ImagePartition}
    (hparts : board.parts malloc tm kernel rootfs = some parts) :
    ∃ table, TablePartition board.partitions table ∧ parts = board.partsWith table tm kernel rootfs := by
  obtain ⟨table, htable, rfl⟩ := Option.map_eq_some_iff.1 hparts
  exact ⟨table, makePartitionTable_some htable, rfl⟩

theorem Board.mem_makeExtraPara {part : ImagePartition} (hpart : part ∈ board.makeExtraPara) :
    part.name = .lit "extra-para" := by
  rw [Board.makeExtraPara, Option.mem_toList] at hpart
  obtain ⟨data, -, rfl⟩ := Option.map_eq_some_iff.1 hpart
  rfl

theorem Board.length_makeExtraPara (board : Board) : board.makeExtraPara.length ≤ 1 := by
  rw [Board.makeExtraPara]
  cases board.extraPara with
  | none => exact Nat.zero_le 1
  | some data => exact le_rfl

theorem readable_of_name {part : ImagePartition} {name : CString} (hname : part.name = name)
    (hshort : name.strlen ≤ 31) (hspace : 0x20 ∉ name.bytes) (hnewline : 0x0A ∉ name.bytes) : Readable part := by
  subst hname
  exact ⟨hshort, hspace, hnewline⟩

theorem Board.partsWith_readable {table : ImagePartition} (htable : TablePartition board.partitions table) (tm : Tm)
    (kernel rootfs : List Byte) : ∀ part ∈ board.partsWith table tm kernel rootfs, Readable part := by
  intro part hpart
  rcases List.mem_append.1 hpart with hpart | hpart
  · simp only [List.mem_cons, List.not_mem_nil, or_false] at hpart
    rcases hpart with rfl | rfl | rfl | rfl | rfl
    · exact readable_of_name htable.name (by decide) (by decide) (by decide)
    · exact readable_of_name (show _ = CString.lit "soft-version" from rfl) (by decide) (by decide) (by decide)
    · exact readable_of_name (show _ = CString.lit "support-list" from rfl) (by decide) (by decide) (by decide)
    · exact readable_of_name (show _ = CString.lit "os-image" from rfl) (by decide) (by decide) (by decide)
    · exact readable_of_name (show _ = CString.lit "file-system" from rfl) (by decide) (by decide) (by decide)
  · exact readable_of_name (Board.mem_makeExtraPara hpart) (by decide) (by decide) (by decide)

theorem find_cons_of_ne {part : ImagePartition} {name : CString} (hne : part.name ≠ name)
    (parts : List ImagePartition) :
    (part :: parts).find? (fun part => decide (part.name = name)) =
      parts.find? fun part => decide (part.name = name) :=
  List.find?_cons_of_neg (by simpa using hne)

theorem find_cons_self (name : CString) (data : List Byte) (parts : List ImagePartition) :
    (ImagePartition.mk name data :: parts).find? (fun part => decide (part.name = name)) = some ⟨name, data⟩ :=
  List.find?_cons_of_pos (decide_eq_true rfl)

theorem Board.partsWith_osImage {table : ImagePartition} (htable : TablePartition board.partitions table) (tm : Tm)
    (kernel rootfs : List Byte) :
    (board.partsWith table tm kernel rootfs).find? (fun part => decide (part.name = .lit "os-image")) =
      some { name := .lit "os-image", data := kernel } := by
  have hne : table.name ≠ .lit "os-image" := by
    rw [htable.name]
    decide
  have hsoft : (board.makeSoftVersion tm).name ≠ .lit "os-image" :=
    show CString.lit "soft-version" ≠ .lit "os-image" by decide
  have hlist : board.makeSupportList.name ≠ .lit "os-image" :=
    show CString.lit "support-list" ≠ .lit "os-image" by decide
  rw [Board.partsWith, List.cons_append, find_cons_of_ne hne, List.cons_append, find_cons_of_ne hsoft,
    List.cons_append, find_cons_of_ne hlist, List.cons_append, find_cons_self]

theorem Board.partsWith_fileSystem {table : ImagePartition} (htable : TablePartition board.partitions table) (tm : Tm)
    (kernel rootfs : List Byte) :
    (board.partsWith table tm kernel rootfs).find? (fun part => decide (part.name = .lit "file-system")) =
      some { name := .lit "file-system", data := rootfs } := by
  have hne : table.name ≠ .lit "file-system" := by
    rw [htable.name]
    decide
  have hsoft : (board.makeSoftVersion tm).name ≠ .lit "file-system" :=
    show CString.lit "soft-version" ≠ .lit "file-system" by decide
  have hlist : board.makeSupportList.name ≠ .lit "file-system" :=
    show CString.lit "support-list" ≠ .lit "file-system" by decide
  have hkernel : (ImagePartition.mk (.lit "os-image") kernel).name ≠ .lit "file-system" :=
    show CString.lit "os-image" ≠ .lit "file-system" by decide
  rw [Board.partsWith, List.cons_append, find_cons_of_ne hne, List.cons_append, find_cons_of_ne hsoft,
    List.cons_append, find_cons_of_ne hlist, List.cons_append, find_cons_of_ne hkernel, List.cons_append,
    find_cons_self]

/-- What follows the table starts with the header of the soft version. -/
theorem Board.length_partsWith (board : Board) (table : ImagePartition) (tm : Tm) (kernel rootfs : List Byte) :
    table.data.length + 8 ≤ (contents (board.partsWith table tm kernel rootfs)).length := by
  have hsoft : 8 ≤ (board.makeSoftVersion tm).data.length := by
    rw [Board.makeSoftVersion, initMetaPartitionEntry]
    simp only [List.length_append, length_u32be]
    omega
  rw [Board.partsWith, contents]
  simp only [List.cons_append, List.flatMap_cons, List.length_append]
  omega

theorem Board.count_partsWith (board : Board) (table : ImagePartition) (tm : Tm) (kernel rootfs : List Byte) :
    (board.partsWith table tm kernel rootfs).length ≤ 6 := by
  have hextra := board.length_makeExtraPara
  rw [Board.partsWith, List.length_append, List.length_cons, List.length_cons, List.length_cons, List.length_cons,
    List.length_singleton]
  omega

theorem Factory.readTable_eq {parts : List ImagePartition} {image : List Byte} (hfactory : Factory parts image)
    {bits : Nat} (hbits : 32 ≤ bits) (hparts : parts ≠ []) (hcount : parts.length ≤ maxPartitions)
    (hread : ∀ part ∈ parts, Readable part) (hfits : (tableText parts 0x800).length < 0x800) :
    readTable bits image tableOffset .fwup = some (tableEntries parts 0x800) := by
  have hlength := hfactory.length
  rw [readTable, readPartitionTable_cons hbits hparts hcount (by decide) hread (by omega) hfits
    (hfactory.table hparts)]
  rfl

/-- The first partition lies right behind the table. -/
theorem Factory.slice_head {part : ImagePartition} {parts : List ImagePartition} {image : List Byte}
    (hfactory : Factory (part :: parts) image) {size : Nat} (hsize : part.data.length = size) :
    slice image (tableOffset + 0x800) size = part.data := by
  have hcontents : contents (part :: parts) = part.data ++ contents parts := List.flatMap_cons
  have hle : size ≤ (contents (part :: parts)).length := by
    rw [hcontents, List.length_append]
    omega
  rw [← take_slice hle, hfactory.data, hcontents, List.take_left' hsize]

/-- The file has a whole buffer behind the header of the `partition-table` partition. -/
theorem Board.room_of_factory {table : ImagePartition} (htable : TablePartition board.partitions table) {tm : Tm}
    {kernel rootfs image : List Byte} (hfactory : Factory (board.partsWith table tm kernel rootfs) image) :
    tableOffset + 0x800 + 4 + 2048 ≤ image.length := by
  have hlarge := board.length_partsWith table tm kernel rootfs
  rw [htable.length] at hlarge
  rw [hfactory.length]
  generalize (contents (board.partsWith table tm kernel rootfs)).length = size at hlarge ⊢
  omega

theorem toNat_sub_ofNat {size : Word} {n : Nat} (hle : n ≤ size.toNat) :
    (size - BitVec.ofNat 32 n).toNat = size.toNat - n := by
  have hn : (BitVec.ofNat 32 n).toNat = n := by
    rw [BitVec.toNat_ofNat, Nat.mod_eq_of_lt (lt_of_le_of_lt hle size.isLt)]
  rw [BitVec.toNat_sub_of_le (show (BitVec.ofNat 32 n).toNat ≤ size.toNat by rwa [hn]), hn]

/-! ### Both ways -/

end Boards

/-! ### A board of the table -/

/-- The flash layout of the EAP120. -/
def eap120Partitions : List FlashPartition :=
  [⟨.lit "fs-uboot", 0x00000, 0x20000⟩, ⟨.lit "partition-table", 0x20000, 0x02000⟩,
    ⟨.lit "default-mac", 0x30000, 0x00020⟩, ⟨.lit "support-list", 0x31000, 0x00100⟩,
    ⟨.lit "product-info", 0x31100, 0x00100⟩, ⟨.lit "soft-version", 0x32000, 0x00100⟩,
    ⟨.lit "os-image", 0x40000, 0x180000⟩, ⟨.lit "file-system", 0x1c0000, 0x600000⟩,
    ⟨.lit "user-config", 0x7c0000, 0x10000⟩, ⟨.lit "backup-config", 0x7d0000, 0x10000⟩,
    ⟨.lit "log", 0x7e0000, 0x10000⟩, ⟨.lit "radio", 0x7f0000, 0x10000⟩]

theorem eap120_flashSize : ∀ part ∈ eap120Partitions, part.size.toNat ≤ 0x2000000 := by decide +kernel

theorem eap120_ordered : eap120Partitions.Pairwise fun part next =>
    part.base.toNat + part.size.toNat ≤ next.base.toNat := by decide +kernel

theorem eap120_distinct : eap120Partitions.Pairwise fun part next => part.name ≠ next.name := by decide +kernel

theorem eap120_words : ∀ part ∈ eap120Partitions, IsWord part.name := by
  have hspace : ∀ part ∈ eap120Partitions, 0x20 ∉ part.name.bytes := by decide +kernel
  have hnewline : ∀ part ∈ eap120Partitions, 0x0A ∉ part.name.bytes := by decide +kernel
  exact fun part hpart => ⟨hspace part hpart, hnewline part hpart⟩

def eap120Vendor : CString := .lit "EAP120(TP-LINK|UN|N300-2):1.0\r\n"

theorem eap120_vendorFits : ∀ text ∈ some eap120Vendor, text.strlen ≤ 4092 := by
  intro text htext
  rw [← Option.some.inj htext]
  decide

def eap120 : Board where
  vendor := some eap120Vendor
  partitions := eap120Partitions
  vendorFits := eap120_vendorFits
  flashSize := eap120_flashSize
  id := .lit "EAP120"
  supportList := .lit "SupportList:\r\nEAP120(TP-LINK|UN|N300-2):1.0\r\n"
  partTrail := 0xff
  softVer := none
  softVerCompatLevel := 0
  firstSysupgradePartition := .lit "os-image"
  lastSysupgradePartition := .lit "file-system"
  count := show 12 ≤ 32 by decide
  ordered := eap120_ordered
  distinct := eap120_distinct
  words := eap120_words

theorem eap120_upgrades :
    eap120.Upgrades ⟨.lit "os-image", 0x40000, 0x180000⟩ ⟨.lit "file-system", 0x1c0000, 0x600000⟩ where
  noFirmware := by decide +kernel
  first := rfl
  last := rfl
  osName := rfl
  fsName := rfl
  listed := (List.take_sublist 2 (eap120Partitions.drop 6)).trans (List.drop_sublist 6 _)
  adjacent := rfl

end Immwrt.Safeloader
