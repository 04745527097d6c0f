import Immwrt.Safeloader.Proof.Table

/-!
# Extracting undoes generating

The text of the partition table is parsed line by line back into the names, bases and sizes it was
printed from, and the contents lie where the table says.
-/

namespace Immwrt.Safeloader

/-! ### Table and contents -/

/-- The text of the table. -/
def tableText : List ImagePartition → Nat → List Byte
  | [], _ => []
  | part :: parts, base =>
    tableLine part.name base part.data.length ++ tableText parts (base + part.data.length)

/-- The name, the base and the size of every partition. -/
def tableLayout : List ImagePartition → Nat → List (CString × Nat × Nat)
  | [], _ => []
  | part :: parts, base =>
    (part.name, base, part.data.length) :: tableLayout parts (base + part.data.length)

def contents (parts : List ImagePartition) : List Byte := parts.flatMap fun part => part.data

/-- The partition is in the flash layout and not larger than there. -/
def FitsFlash (flash : List FlashPartition) (part : ImagePartition) : Prop :=
  ∃ entry, flash.find? (fun entry => decide (entry.name = part.name)) = some entry ∧
    part.data.length ≤ entry.size.toNat

/-- What `put_partitions` leaves in the image: the table, terminated, and the contents; what lies before
the next line and the contents that are already there are kept. -/
structure Put (parts : List ImagePartition) (imagePt base : Nat) (image image' : List Byte) : Prop where
  length : image'.length = image.length
  table : (parts ≠ [] ∨ slice image (tableOffset + imagePt) 1 = [0]) →
    slice image' (tableOffset + imagePt) ((tableText parts base).length + 1) =
      tableText parts base ++ [0]
  data : slice image' (tableOffset + base) (contents parts).length = contents parts
  before : ∀ off n, off + n ≤ tableOffset + imagePt → slice image' off n = slice image off n
  above : ∀ off n, tableOffset + 0x800 ≤ off → off + n ≤ tableOffset + base →
    slice image' off n = slice image off n

theorem putPartitions_put {flash : List FlashPartition} {parts : List ImagePartition}
    {imagePt base : Nat} {image : List Byte} (hflash : ∀ part ∈ parts, FitsFlash flash part)
    (htable : imagePt + (tableText parts base).length < 0x800) (hbase : 0x800 ≤ base)
    (hroom : tableOffset + base + (contents parts).length ≤ image.length) :
    ∃ image', putPartitions flash parts imagePt base image = some image' ∧
      Put parts imagePt base image image' := by
  induction parts generalizing imagePt base image with
  | nil =>
    refine ⟨image, rfl, rfl, ?_, ?_, fun _ _ _ => rfl, fun _ _ _ _ => rfl⟩
    · rintro (hne | hzero)
      · exact absurd rfl hne
      · exact hzero
    · simp [contents, slice]
  | cons part parts ih =>
    obtain ⟨entry, hfind, hsize⟩ := hflash part List.mem_cons_self
    have hrest : ∀ part ∈ parts, FitsFlash flash part :=
      fun part hpart => hflash part (List.mem_cons_of_mem _ hpart)
    have hcontents : contents (part :: parts) = part.data ++ contents parts := List.flatMap_cons
    rw [tableText, List.length_append] at htable
    rw [hcontents, List.length_append] at hroom
    generalize hline : tableLine part.name base part.data.length = line at htable
    have hshort : ¬ line.length > 0x800 - imagePt - 1 := by omega
    have hdata : (splice image (tableOffset + base) part.data).length = image.length :=
      length_splice (by omega)
    have hterm : (line ++ [(0 : Byte)]).length = line.length + 1 := by simp
    generalize hfst : splice image (tableOffset + base) part.data = image1 at hdata
    have hwritten : (splice image1 (tableOffset + imagePt) (line ++ [0])).length = image1.length :=
      length_splice (by omega)
    generalize hsnd : splice image1 (tableOffset + imagePt) (line ++ [0]) = image2 at hwritten
    obtain ⟨image', hput, hspec⟩ : ∃ image',
        putPartitions flash parts (imagePt + line.length) (base + part.data.length) image2 =
          some image' ∧
        Put parts (imagePt + line.length) (base + part.data.length) image2 image' :=
      ih hrest (by omega) (by omega) (by omega)
    have hlineAt : slice image2 (tableOffset + imagePt) (line.length + 1) = line ++ [0] := by
      rw [← hsnd, ← hterm]
      exact slice_splice_self (by omega)
    have hkeptLine : ∀ off n, off + n ≤ tableOffset + imagePt ∨
        tableOffset + imagePt + (line.length + 1) ≤ off → slice image2 off n = slice image1 off n := by
      intro off n hdisj
      rw [← hsnd]
      exact slice_splice_of_disjoint (by omega) (by rw [hterm]; exact hdisj)
    have hkeptData : ∀ off n, off + n ≤ tableOffset + base ∨
        tableOffset + base + part.data.length ≤ off → slice image1 off n = slice image off n := by
      intro off n hdisj
      rw [← hfst]
      exact slice_splice_of_disjoint (by omega) hdisj
    have hsplit := hlineAt
    rw [slice_add] at hsplit
    obtain ⟨hlineOnly, hzero⟩ := List.append_inj hsplit (by
      rw [slice, List.length_take, List.length_drop]
      omega)
    refine ⟨image', ?_, ?_, ?_, ?_, ?_, ?_⟩
    · rw [putPartitions, hfind]
      simp only [if_neg (Nat.not_lt.2 hsize), hline, if_neg hshort, hfst, hsnd]
      exact hput
    · rw [hspec.length, hwritten, hdata]
    · intro _
      rw [Nat.add_assoc] at hzero
      have htail := hspec.table (.inr hzero)
      rw [tableText, hline, List.length_append, Nat.add_assoc, slice_add,
        hspec.before _ _ (by omega), hlineOnly, Nat.add_assoc tableOffset, htail, List.append_assoc]
    · rw [hcontents, List.length_append, slice_add, Nat.add_assoc tableOffset, hspec.data,
        hspec.above _ _ (by omega) (by omega), hkeptLine _ _ (by omega), ← hfst,
        slice_splice_self (by omega)]
    · intro off n hle
      rw [hspec.before off n (by omega), hkeptLine off n (by omega), hkeptData off n (by omega)]
    · intro off n hlo hhi
      rw [hspec.above off n hlo (by omega), hkeptLine off n (by omega), hkeptData off n (by omega)]

/-! ### Reading the table -/

/-- A partition whose line can be read back. -/
structure Readable (part : ImagePartition) : Prop where
  short : part.name.strlen ≤ 31
  noSpace : 0x20 ∉ part.name.bytes
  noNewline : 0x0A ∉ part.name.bytes

/-- The entries of the table. -/
def tableEntries (parts : List ImagePartition) (base : Nat) : List TableEntry :=
  (tableLayout parts base).map fun entry =>
    { name := entry.1, base := BitVec.ofNat 32 entry.2.1, size := BitVec.ofNat 32 entry.2.2 }

theorem tableEntries_cons (part : ImagePartition) (parts : List ImagePartition) (base : Nat) :
    tableEntries (part :: parts) base =
      { name := part.name, base := BitVec.ofNat 32 base, size := BitVec.ofNat 32 part.data.length } ::
        tableEntries parts (base + part.data.length) := rfl

theorem tableLine_eq (name : CString) (base size : Nat) :
    tableLine name base size =
      lineText .fwup { name := name, base := BitVec.ofNat 32 base, size := BitVec.ofNat 32 size } := by
  have hhdr : ofChars "fwup-ptn " = TableType.fwup.parthdr ++ [0x20] := rfl
  have hbaseText : ofChars " base 0x" = 0x20 :: (ofChars "base" ++ 0x20 :: ofChars "0x") := rfl
  have hsizeText : ofChars " size 0x" = 0x20 :: (ofChars "size" ++ 0x20 :: ofChars "0x") := rfl
  have hend : ofChars "\t\r\n" = TableType.fwup.lineEnd ++ [0x0A] := rfl
  rw [tableLine, hhdr, hbaseText, hsizeText, hend, lineText, lineBody, afterName, baseText, sizeText,
    BitVec.toNat_ofNat, BitVec.toNat_ofNat]
  simp only [List.append_assoc, List.cons_append, List.nil_append]

theorem tableText_eq (parts : List ImagePartition) (base : Nat) :
    tableText parts base = (tableEntries parts base).flatMap (lineText .fwup) := by
  induction parts generalizing base with
  | nil => rfl
  | cons part parts ih => rw [tableText, tableLine_eq, ih, tableEntries_cons, List.flatMap_cons]

theorem length_tableEntries (parts : List ImagePartition) (base : Nat) :
    (tableEntries parts base).length = parts.length := by
  induction parts generalizing base with
  | nil => rfl
  | cons part parts ih => rw [tableEntries_cons, List.length_cons, ih, List.length_cons]

theorem Readable.isWord {part : ImagePartition} (hread : Readable part) : IsWord part.name :=
  ⟨hread.noSpace, hread.noNewline⟩

theorem tableEntries_isWord {parts : List ImagePartition} (hread : ∀ part ∈ parts, Readable part) {base : Nat} :
    ∀ entry ∈ tableEntries parts base, IsWord entry.name := by
  induction parts generalizing base with
  | nil =>
    intro entry hentry
    cases hentry
  | cons part parts ih =>
    rw [tableEntries_cons, List.forall_mem_cons]
    rw [List.forall_mem_cons] at hread
    exact ⟨hread.1.isWord, ih hread.2⟩

theorem map_shortened {parts : List ImagePartition} (hread : ∀ part ∈ parts, Readable part) {base : Nat} :
    (tableEntries parts base).map TableEntry.shortened = tableEntries parts base := by
  induction parts generalizing base with
  | nil => rfl
  | cons part parts ih =>
    rw [List.forall_mem_cons] at hread
    rw [tableEntries_cons, List.map_cons, ih hread.2, TableEntry.shortened, shortName_of_le hread.1.short]

/-! ### Copying the contents -/

theorem writeChunks_eq {size fuel offset : Nat} {input output : List Byte}
    (hinput : size - offset ≤ input.length) (hfuel : (size - offset) / 4096 < fuel) :
    writeChunks size fuel input offset output = some (output ++ input.take (size - offset)) := by
  induction fuel generalizing input offset output with
  | zero => omega
  | succ fuel ih =>
    rw [writeChunks]
    split
    case isTrue hchunk =>
      have hread : fread input 4096 = some (input.take 4096) := if_pos (by omega)
      rw [hread, Option.bind_some, ih (by rw [List.length_drop]; omega) (by omega)]
      rw [show size - offset = 4096 + (size - (offset + 4096)) by omega, List.take_add,
        List.append_assoc]
    case isFalse =>
      split
      case isTrue =>
        have hread : fread input (size - offset) = some (input.take (size - offset)) :=
          if_pos hinput
        rw [hread, Option.map_some]
      case isFalse hdone =>
        rw [show size - offset = 0 by omega, List.take_zero, List.append_nil]

theorem writePartition_eq {file : List Byte} {offset : Nat} {entry : TableEntry}
    (hfile : entry.base.toNat + offset + entry.size.toNat ≤ file.length) :
    writePartition file offset entry = some (slice file (entry.base.toNat + offset) entry.size.toNat) := by
  unfold writePartition
  rw [writeChunks_eq (by rw [List.length_drop]; omega) (by omega), List.nil_append, Nat.sub_zero, slice]

theorem writePartition_slice {file : List Byte} {offset base size : Nat} {name : CString}
    (hbase : base < 2 ^ 32) (hsize : size < 2 ^ 32) (hfile : base + offset + size ≤ file.length) :
    writePartition file offset
        { name := name, base := BitVec.ofNat 32 base, size := BitVec.ofNat 32 size } =
      some (slice file (base + offset) size) := by
  have hbaseNat : (BitVec.ofNat 32 base).toNat = base := by
    rw [BitVec.toNat_ofNat, Nat.mod_eq_of_lt hbase]
  have hsizeNat : (BitVec.ofNat 32 size).toNat = size := by
    rw [BitVec.toNat_ofNat, Nat.mod_eq_of_lt hsize]
  rw [writePartition_eq (by rw [hbaseNat, hsizeNat]; exact hfile), hbaseNat, hsizeNat]

theorem writePartition_entries {file : List Byte} {offset : Nat} {parts : List ImagePartition}
    {base : Nat} (hsize : base + (contents parts).length < 2 ^ 32)
    (hfile : base + offset + (contents parts).length ≤ file.length)
    (hdata : slice file (base + offset) (contents parts).length = contents parts) :
    (tableEntries parts base).map (writePartition file offset) =
      parts.map fun part => some part.data := by
  induction parts generalizing base with
  | nil => rfl
  | cons part parts ih =>
    have hcontents : contents (part :: parts) = part.data ++ contents parts := List.flatMap_cons
    rw [hcontents, List.length_append] at hsize hfile hdata
    rw [slice_add] at hdata
    obtain ⟨hhead, htail⟩ := List.append_inj hdata (by
      rw [slice, List.length_take, List.length_drop]
      omega)
    rw [Nat.add_right_comm] at htail
    have hrest := ih (by omega) (by omega) htail
    rw [tableEntries_cons, List.map_cons, List.map_cons, hrest,
      writePartition_slice (by omega) (by omega) (by omega), hhead]

/-! ### Whole images -/

theorem length_u32be (n : Nat) : (u32be n).length = 4 := rfl

theorem length_contents (parts : List ImagePartition) :
    (contents parts).length = (parts.map fun part => part.data.length).sum := by
  rw [contents, List.length_flatMap]

/-- The image before the partitions are put into it. -/
def blankImage (info : DeviceInfo) (parts : List ImagePartition) : List Byte :=
  let image := splice (List.replicate (imageLength parts) 0xff) 0 (u32be (imageLength parts))
  match info.vendor with
  | none => image
  | some vendor => splice (splice image 0x14 (u32be vendor.strlen)) 0x18 vendor.bytes

theorem blankImage_spec (info : DeviceInfo) (parts : List ImagePartition) :
    (blankImage info parts).length = imageLength parts ∧
      slice (blankImage info parts) tableOffset 0x800 = List.replicate 0x800 0xff := by
  have hlen : 0x1814 ≤ imageLength parts := Nat.le_add_right _ _
  have hsize : (splice (List.replicate (imageLength parts) (0xff : Byte)) 0
      (u32be (imageLength parts))).length = imageLength parts := by
    rw [length_splice (by rw [length_u32be, List.length_replicate]; omega), List.length_replicate]
  have hbytes : slice (splice (List.replicate (imageLength parts) (0xff : Byte)) 0
      (u32be (imageLength parts))) tableOffset 0x800 = List.replicate 0x800 0xff := by
    rw [slice_splice_of_disjoint (Nat.zero_le _) (.inr (by rw [length_u32be]; decide)), slice,
      List.drop_replicate, List.take_replicate,
      Nat.min_eq_left (by unfold tableOffset; omega)]
  unfold blankImage
  generalize splice (List.replicate (imageLength parts) (0xff : Byte)) 0
    (u32be (imageLength parts)) = image at hsize hbytes ⊢
  cases hvendor : info.vendor with
  | none => exact ⟨hsize, hbytes⟩
  | some vendor =>
    have hfits : vendor.bytes.length ≤ 4092 := info.vendorFits vendor hvendor
    have hlenAt : (splice image 0x14 (u32be vendor.strlen)).length = image.length :=
      length_splice (by rw [length_u32be]; omega)
    dsimp only
    refine ⟨?_, ?_⟩
    · rw [length_splice (by omega), hlenAt, hsize]
    · rw [slice_splice_of_disjoint (by omega) (.inr (by unfold tableOffset; omega)),
        slice_splice_of_disjoint (by omega) (.inr (by rw [length_u32be]; decide)), hbytes]

theorem slice_blankImage (info : DeviceInfo) (parts : List ImagePartition) :
    slice (blankImage info parts) 0 4 = u32be (imageLength parts) := by
  have hlen : 0x1814 ≤ imageLength parts := Nat.le_add_right _ _
  have hsize : (splice (List.replicate (imageLength parts) (0xff : Byte)) 0
      (u32be (imageLength parts))).length = imageLength parts := by
    rw [length_splice (by rw [length_u32be, List.length_replicate]; omega), List.length_replicate]
  have hbytes : slice (splice (List.replicate (imageLength parts) (0xff : Byte)) 0
      (u32be (imageLength parts))) 0 4 = u32be (imageLength parts) := slice_splice_self (Nat.zero_le _)
  unfold blankImage
  generalize splice (List.replicate (imageLength parts) (0xff : Byte)) 0
    (u32be (imageLength parts)) = image at hsize hbytes ⊢
  cases info.vendor with
  | none => exact hbytes
  | some vendor =>
    have hlenAt : (splice image 0x14 (u32be vendor.strlen)).length = image.length :=
      length_splice (by rw [length_u32be]; omega)
    dsimp only
    rw [slice_splice_of_disjoint (by omega) (.inl (by decide)), slice_splice_of_disjoint (by omega) (.inl (by decide)),
      hbytes]

/-- The contents of at most 16 partitions that fit their flash partitions stay below 4 GiB. -/
theorem length_contents_le (info : DeviceInfo) {parts : List ImagePartition}
    (hflash : ∀ part ∈ parts, FitsFlash info.partitions part) :
    (contents parts).length ≤ parts.length * 0x2000000 := by
  rw [length_contents, ← List.length_map (fun part => part.data.length)]
  refine List.sum_le_card_nsmul _ _ fun n hn => ?_
  obtain ⟨part, hpart, rfl⟩ := List.mem_map.1 hn
  obtain ⟨entry, hfind, hsize⟩ := hflash part hpart
  exact hsize.trans (info.flashSize entry (List.mem_of_find?_eq_some hfind))

theorem map_tableEntries {parts : List ImagePartition} {base : Nat}
    (hsize : base + (contents parts).length < 2 ^ 32) :
    (tableEntries parts base).map (fun entry => (entry.name, entry.base.toNat, entry.size.toNat)) =
      tableLayout parts base := by
  induction parts generalizing base with
  | nil => rfl
  | cons part parts ih =>
    have hcontents : contents (part :: parts) = part.data ++ contents parts := List.flatMap_cons
    rw [hcontents, List.length_append] at hsize
    rw [tableEntries_cons, List.map_cons, ih (by omega), tableLayout, BitVec.toNat_ofNat, BitVec.toNat_ofNat,
      Nat.mod_eq_of_lt (by omega), Nat.mod_eq_of_lt (by omega)]

theorem readPartitionTable_nil {file : List Byte} (bits maxEntries : Nat)
    (hbuf : slice file tableOffset 0x800 = List.replicate 0x800 0xff) :
    readPartitionTable bits file tableOffset maxEntries .fwup = some (1, []) := by
  have hne : (splice (List.replicate 2048 (0xff : Byte)) 2047 [0]).take
      TableType.fwup.parthdr.length ≠ TableType.fwup.parthdr := by
    intro heq
    have hfirst := congrArg List.head? heq
    rw [splice, List.head?_take, List.append_assoc, List.head?_append, List.head?_take,
      List.head?_replicate] at hfirst
    exact absurd hfirst (by decide)
  have hbuf : slice file tableOffset 2048 = List.replicate 2048 0xff := hbuf
  simp only [readPartitionTable, hbuf, List.length_replicate, Nat.lt_irrefl, if_false]
  exact if_pos hne

theorem readPartitionTable_cons {bits maxEntries : Nat} (hbits : 32 ≤ bits) {file : List Byte}
    {parts : List ImagePartition} {base : Nat} (hparts : parts ≠ []) (hcount : parts.length ≤ maxEntries)
    (hshort : maxEntries < 2048) (hread : ∀ part ∈ parts, Readable part)
    (hfile : tableOffset + 0x800 ≤ file.length) (hfits : (tableText parts base).length < 0x800)
    (htable : slice file tableOffset ((tableText parts base).length + 1) =
      tableText parts base ++ [0]) :
    readPartitionTable bits file tableOffset maxEntries .fwup = some (0, tableEntries parts base) := by
  have hne : tableEntries parts base ≠ [] := by
    intro hnil
    have hlength := length_tableEntries parts base
    rw [hnil] at hlength
    exact hparts (List.eq_nil_of_length_eq_zero hlength.symm)
  rw [tableText_eq] at hfits htable
  rw [readPartitionTable_lines hbits .fwup hne (by rwa [length_tableEntries]) hshort (tableEntries_isWord hread)
    hfile hfits htable, map_shortened hread]

/-- A factory image: its table, terminated, and behind the table the contents. -/
structure Factory (parts : List ImagePartition) (image : List Byte) : Prop where
  length : image.length = tableOffset + 0x800 + (contents parts).length
  blank : parts = [] → slice image tableOffset 0x800 = List.replicate 0x800 0xff
  table : parts ≠ [] → slice image tableOffset ((tableText parts 0x800).length + 1) = tableText parts 0x800 ++ [0]
  data : slice image (tableOffset + 0x800) (contents parts).length = contents parts

theorem generateFactoryImage_factory (md5 : List Byte → Fin 16 → Byte) (info : DeviceInfo)
    {parts : List ImagePartition} (hflash : ∀ part ∈ parts, FitsFlash info.partitions part)
    (hfits : (tableText parts 0x800).length < 0x800) :
    ∃ image, generateFactoryImage md5 info parts = some image ∧ Factory parts image := by
  obtain ⟨hlength, hblank⟩ := blankImage_spec info parts
  have hlen : imageLength parts = tableOffset + 0x800 + (contents parts).length := by
    rw [imageLength, length_contents]
    rfl
  obtain ⟨image, hput, hspec⟩ : ∃ image,
      putPartitions info.partitions parts 0 0x800 (blankImage info parts) = some image ∧
        Put parts 0 0x800 (blankImage info parts) image :=
    putPartitions_put hflash (by omega) le_rfl (by omega)
  have hsize := hspec.length.trans hlength
  have hgenerate : generateFactoryImage md5 info parts =
      some (splice image 0x04 (List.ofFn (md5 (image.drop 0x14)))) := by
    show (putPartitions info.partitions parts 0 0x800 (blankImage info parts)).map _ = _
    rw [hput, Option.map_some]
  have hdigest : (List.ofFn (md5 (image.drop 0x14))).length = 16 := List.length_ofFn
  have hfile : (splice image 0x04 (List.ofFn (md5 (image.drop 0x14)))).length = image.length :=
    length_splice (by omega)
  have hkept : ∀ off n, tableOffset ≤ off →
      slice (splice image 0x04 (List.ofFn (md5 (image.drop 0x14)))) off n = slice image off n := by
    intro off n hoff
    refine slice_splice_of_disjoint (by omega) (.inr ?_)
    rw [hdigest]
    exact le_trans (by decide) hoff
  generalize splice image 0x04 (List.ofFn (md5 (image.drop 0x14))) = file at hgenerate hfile hkept
  refine ⟨file, hgenerate, by omega, ?_, ?_, ?_⟩
  · rintro rfl
    obtain rfl : blankImage info [] = image := Option.some.inj hput
    rw [hkept _ _ le_rfl, hblank]
  · intro hparts
    have htable := hspec.table (.inl hparts)
    rw [Nat.add_zero] at htable
    rw [hkept _ _ le_rfl, htable]
  · rw [hkept _ _ (by omega)]
    exact hspec.data

def kernelName : CString := .lit "os-image"

def listName : CString := .lit "support-list"

def smallBoard : DeviceInfo :=
  { vendor := none
    partitions := [⟨kernelName, 0x40000, 0x100000⟩, ⟨listName, 0x7b1000, 0x400⟩]
    vendorFits := by simp
    flashSize := by decide }

theorem smallBoard_flash : ∀ part ∈ [ImagePartition.mk kernelName (List.replicate 4097 0x55), ⟨listName, []⟩],
    FitsFlash smallBoard.partitions part := by
  intro part hpart
  rcases List.mem_pair.1 hpart with rfl | rfl
  · exact ⟨⟨kernelName, 0x40000, 0x100000⟩, rfl, by
      rw [List.length_replicate]
      decide⟩
  · exact ⟨⟨listName, 0x7b1000, 0x400⟩, rfl, by decide⟩

theorem smallBoard_fits :
    (tableText [⟨kernelName, List.replicate 4097 0x55⟩, ⟨listName, []⟩] 0x800).length < 0x800 := by
  rw [tableText, tableText, tableText, List.length_replicate]
  decide

end Immwrt.Safeloader
