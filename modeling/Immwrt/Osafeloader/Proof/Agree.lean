import Immwrt.Osafeloader.Image
import Immwrt.Safeloader.Proof.Convert

/-!
# The two readers agree

What `generate_factory_image` lays out, `osafeloader` reads as `tplink-safeloader` does: the `fscanf` of a line
gives what the line was printed from, the table ends at the same byte, and both copy the same bytes.
-/

namespace Immwrt.Osafeloader

open Safeloader

/-! ### Lines -/

/-- A name that `%s` reads into the buffer as it was printed. -/
structure IsName (name : CString) : Prop where
  nonempty : 1 ≤ name.strlen
  short : name.strlen ≤ 31
  noSpace : ∀ c ∈ name.bytes, isSpace c = false

theorem IsName.readable {part : ImagePartition} (hname : IsName part.name) : Readable part := by
  refine ⟨hname.short, fun hmem => ?_, fun hmem => ?_⟩
  · exact absurd (hname.noSpace _ hmem) (by decide)
  · exact absurd (hname.noSpace _ hmem) (by decide)

/-- The partition of an entry. -/
def toPartition (entry : TableEntry) : Partition := { name := entry.name, base := entry.base, size := entry.size }

theorem lineFormat_eq :
    lineFormat =
      literal (ofChars "fwup-ptn") ++ .space :: .string :: .space ::
        (literal (ofChars "base") ++ .space ::
          (literal (ofChars "0x") ++ .hex :: .space ::
            (literal (ofChars "size") ++ .space ::
              (literal (ofChars "0x") ++ .hex :: .space :: .space :: [.space])))) := by
  decide

theorem lineText_fwup (entry : TableEntry) (tail : List Byte) :
    lineText .fwup entry ++ tail =
      ofChars "fwup-ptn" ++ 0x20 :: (entry.name.bytes ++ 0x20 :: (ofChars "base" ++ 0x20 ::
        (ofChars "0x" ++ (printfHex false 5 entry.base.toNat ++ 0x20 :: (ofChars "size" ++ 0x20 ::
          (ofChars "0x" ++ (printfHex false 5 entry.size.toNat ++ 0x09 :: 0x0D :: 0x0A :: tail))))))) := by
  simp only [lineText, lineBody, afterName, baseText, sizeText, TableType.parthdr, TableType.lineEnd,
    List.append_assoc, List.cons_append, List.nil_append]

theorem scan_line {entry : TableEntry} (hname : IsName entry.name) {tail : List Byte} (htail : Solid tail) :
    scan lineFormat (lineText .fwup entry ++ tail) =
      ([.string entry.name.bytes, .hex entry.base, .hex entry.size], tail) := by
  have hne : entry.name.bytes ≠ [] := List.ne_nil_of_length_pos hname.nonempty
  have hspace : isSpace 0x20 = true := rfl
  have hend : scan [.space, .space, .space] (0x09 :: 0x0D :: 0x0A :: tail) = ([], tail) := by
    have hdrop : (0x09 :: 0x0D :: 0x0A :: tail).dropWhile isSpace = tail := htail
    rw [scan, hdrop, scan_space_solid _ htail, scan_space_solid _ htail, scan]
  rw [lineFormat_eq, lineText_fwup, scan_literal, scan_space hspace _ (solid_append hne hname.noSpace _),
    scan_string hne hname.noSpace hspace, scan_space_literal hspace (by decide) (by decide),
    scan_space_literal hspace (by decide) (by decide), scan_hex false (by decide) entry.base hspace,
    scan_space_literal hspace (by decide) (by decide), scan_space_literal hspace (by decide) (by decide),
    scan_hex false (by decide) entry.size rfl, hend]

theorem scanPartition_line {entry : TableEntry} (hname : IsName entry.name) {tail : List Byte} (htail : Solid tail) :
    scanPartition (lineText .fwup entry ++ tail) = some (some (toPartition entry, tail)) := by
  have hshort : ¬ entry.name.bytes.length > 31 := Nat.not_lt.2 hname.short
  rw [scanPartition, scan_line hname htail]
  simp only [if_neg hshort, CString.ofBytes_bytes, toPartition]

/-! ### The end of the table -/

/-- The first byte behind the lines: the terminator, or the filling when there is no line. -/
def EndsTable (c : Byte) : Prop := c = 0 ∨ c = 0xff

theorem EndsTable.solid {c : Byte} (hend : EndsTable c) (rest : List Byte) : Solid (c :: rest) := by
  rcases hend with rfl | rfl
  · exact solid_cons rfl rest
  · exact solid_cons rfl rest

theorem scanPartition_end {c : Byte} (hend : EndsTable c) (rest : List Byte) :
    scanPartition (c :: rest) = some none := by
  have hformat : lineFormat = .char 0x66 :: lineFormat.tail := by rw [lineFormat_eq]; rfl
  have hne : c ≠ 0x66 := by
    rcases hend with rfl | rfl
    · decide
    · decide
  rw [scanPartition, hformat, scan_char_ne hne]

theorem solid_lines {lines : List TableEntry} {c : Byte} (hend : EndsTable c) (rest : List Byte) :
    Solid (lines.flatMap (lineText .fwup) ++ c :: rest) := by
  cases lines with
  | nil => exact hend.solid rest
  | cons entry lines =>
    rw [List.flatMap_cons, List.append_assoc, lineText_fwup]
    exact solid_append (by decide) (by decide) _

/-! ### The loops over the lines -/

section Lines

variable {lines : List TableEntry} (hnames : ∀ entry ∈ lines, IsName entry.name) {c : Byte} (hend : EndsTable c)
  (rest : List Byte)

include hnames hend

theorem listPartitions_lines {fuel : Nat} (hfuel : lines.length < fuel) :
    listPartitions fuel (lines.flatMap (lineText .fwup) ++ c :: rest) = some (lines.map toPartition) := by
  induction lines generalizing fuel with
  | nil =>
    obtain ⟨fuel, rfl⟩ := Nat.exists_eq_succ_of_ne_zero (Nat.ne_of_gt hfuel)
    rw [List.flatMap_nil, List.nil_append, listPartitions, scanPartition_end hend, Option.bind_some, List.map_nil]
  | cons entry lines ih =>
    obtain ⟨fuel, rfl⟩ := Nat.exists_eq_succ_of_ne_zero (Nat.ne_of_gt (Nat.zero_lt_of_lt hfuel))
    rw [List.forall_mem_cons] at hnames
    rw [List.flatMap_cons, List.append_assoc, listPartitions, scanPartition_line hnames.1 (solid_lines hend rest),
      Option.bind_some]
    dsimp only
    rw [ih hnames.2 (Nat.lt_of_succ_lt_succ hfuel), Option.map_some, List.map_cons]

/-- The loop comes to the first line with the name, and seeks to the contents from there. -/
theorem extractLoop_lines (safeloader : List Byte) {name : CString} {entry : TableEntry}
    (hfind : findPartition lines name = some entry) {fuel : Nat} (hfuel : lines.length < fuel) :
    ∃ current, extractLoop safeloader name fuel (lines.flatMap (lineText .fwup) ++ c :: rest) =
      let input := seekSet safeloader (20 + 0x1000 + entry.base.toInt) current
      let copied := copyLoop (input.length + 1) input entry.size []
      some (if copied.2 ≠ 0 then .error .eio else .ok (), copied.1) := by
  induction lines generalizing fuel with
  | nil => cases hfind
  | cons head lines ih =>
    obtain ⟨fuel, rfl⟩ := Nat.exists_eq_succ_of_ne_zero (Nat.ne_of_gt (Nat.zero_lt_of_lt hfuel))
    rw [List.forall_mem_cons] at hnames
    rw [List.flatMap_cons, List.append_assoc, extractLoop, scanPartition_line hnames.1 (solid_lines hend rest),
      Option.bind_some]
    dsimp only
    by_cases hname : head.name = name
    · rw [findPartition, List.find?_cons_of_pos (by simpa using hname)] at hfind
      obtain rfl := Option.some.inj hfind
      rw [if_neg (by simpa [toPartition] using hname)]
      exact ⟨_, rfl⟩
    · rw [findPartition, List.find?_cons_of_neg (by simpa using hname)] at hfind
      rw [if_pos (by simpa [toPartition] using hname)]
      exact ih hnames.2 hfind (Nat.lt_of_succ_lt_succ hfuel)

end Lines

/-! ### Copying -/

theorem toSize_toInt {size : Word} (hsize : size.toNat < 2 ^ 31) : toSize size.toInt = size.toNat := by
  rw [toSize, BitVec.toInt_eq_toNat_of_lt (by omega)]
  omega

theorem copyLoop_eq {fuel : Nat} {input : List Byte} {size : Word} (out : List Byte) (hsmall : size.toNat < 2 ^ 31)
    (hinput : size.toNat ≤ input.length) (hfuel : size.toNat < fuel) :
    copyLoop fuel input size out = (out ++ input.take size.toNat, 0) := by
  induction fuel generalizing input size out with
  | zero => omega
  | succ fuel ih =>
    have hlength : (input.take (min 1024 (toSize size.toInt))).length = min 1024 size.toNat := by
      rw [List.length_take, toSize_toInt hsmall]
      omega
    rw [copyLoop, hlength, toSize_toInt hsmall]
    by_cases hzero : size.toNat = 0
    · have hsize : size = 0 := BitVec.eq_of_toNat_eq hzero
      rw [if_pos (by omega), hzero, List.take_zero, List.append_nil, hsize]
    · have hsub : (size - BitVec.ofNat 32 (min 1024 size.toNat)).toNat = size.toNat - min 1024 size.toNat :=
        toNat_sub_ofNat (Nat.min_le_right _ _)
      rw [if_neg (by omega), ih _ (by omega) (by rw [List.length_drop]; omega) (by omega), hsub, List.append_assoc]
      congr 2
      rw [← List.take_add, show min 1024 size.toNat + (size.toNat - min 1024 size.toNat) = size.toNat by omega]

/-! ### Whole images -/

theorem u32be_eq (n : Nat) : u32be n = wordBe (BitVec.ofNat 32 n) := by
  simp only [u32be, wordBe, List.cons.injEq, and_true]
  refine ⟨?_, ?_, ?_, ?_⟩ <;>
  · apply BitVec.eq_of_toNat_eq
    simp only [BitVec.toNat_ofNat, BitVec.extractLsb'_toNat, Nat.shiftRight_eq_div_pow]
    omega

theorem tableEntries_bound {parts : List ImagePartition} {base : Nat}
    (hsize : base + (contents parts).length < 2 ^ 32) :
    ∀ entry ∈ tableEntries parts base,
      entry.base.toNat + entry.size.toNat ≤ base + (contents parts).length := by
  induction parts generalizing base with
  | nil =>
    intro entry hentry
    cases hentry
  | cons part parts ih =>
    have hcontents : contents (part :: parts) = part.data ++ contents parts := List.flatMap_cons
    rw [hcontents, List.length_append] at hsize
    rw [tableEntries_cons, List.forall_mem_cons, hcontents, List.length_append, BitVec.toNat_ofNat, BitVec.toNat_ofNat,
      Nat.mod_eq_of_lt (by omega), Nat.mod_eq_of_lt (by omega)]
    refine ⟨by omega, fun entry hentry => ?_⟩
    have hbound := ih (by omega) entry hentry
    omega

theorem tableEntries_isName {parts : List ImagePartition} (hnames : ∀ part ∈ parts, IsName part.name) {base : Nat} :
    ∀ entry ∈ tableEntries parts base, IsName entry.name := by
  induction parts generalizing base with
  | nil =>
    intro entry hentry
    cases hentry
  | cons part parts ih =>
    rw [tableEntries_cons, List.forall_mem_cons]
    rw [List.forall_mem_cons] at hnames
    exact ⟨hnames.1, ih hnames.2⟩

/-- The text of the table and what ends it. -/
theorem drop_tableOffset {parts : List ImagePartition} {image : List Byte} (hfactory : Factory parts image) :
    ∃ c rest, EndsTable c ∧
      image.drop tableOffset = (tableEntries parts 0x800).flatMap (lineText .fwup) ++ c :: rest := by
  by_cases hparts : parts = []
  · have hblank := hfactory.blank hparts
    refine ⟨0xff, List.replicate 0x7ff 0xff ++ (image.drop tableOffset).drop 0x800, .inr rfl, ?_⟩
    rw [slice] at hblank
    rw [hparts, ← List.take_append_drop 0x800 (image.drop tableOffset), hblank, List.drop_left' List.length_replicate]
    rfl
  · have htable := hfactory.table hparts
    rw [slice, tableText_eq] at htable
    have hsplit := List.take_append_drop (((tableEntries parts 0x800).flatMap (lineText .fwup)).length + 1)
      (image.drop tableOffset)
    rw [htable, List.append_assoc, List.singleton_append] at hsplit
    exact ⟨0, _, .inl rfl, hsplit.symm⟩

/-- What `osafeloader` copies for an entry of the table. -/
theorem extract_entry {image : List Byte} {lines : List TableEntry} (hnames : ∀ entry ∈ lines, IsName entry.name)
    {c : Byte} (hend : EndsTable c) {rest : List Byte}
    (htext : image.drop tableOffset = lines.flatMap (lineText .fwup) ++ c :: rest)
    (hlines : lines.length ≤ image.length) {name : CString} {entry : TableEntry}
    (hfind : findPartition lines name = some entry) (hsmall : entry.base.toNat + entry.size.toNat < 2 ^ 31)
    (hfile : entry.base.toNat + tableOffset + entry.size.toNat ≤ image.length) :
    osafeloaderExtract (some image) true name =
      some (.ok (), some (slice image (entry.base.toNat + tableOffset) entry.size.toNat)) := by
  have hheader : ¬ image.length < 20 := by
    unfold tableOffset at hfile
    omega
  obtain ⟨current, hloop⟩ := extractLoop_lines hnames hend rest image hfind (Nat.lt_succ_of_le hlines)
  have hbase : entry.base.toInt = entry.base.toNat := BitVec.toInt_eq_toNat_of_lt (by omega)
  have hseek : seekSet image (20 + 0x1000 + entry.base.toInt) current =
      image.drop (entry.base.toNat + tableOffset) := by
    rw [hbase, seekSet, if_pos (by omega), show (20 + 0x1000 + (entry.base.toNat : Int)).toNat =
      entry.base.toNat + tableOffset by unfold tableOffset; omega]
  have hroom : entry.size.toNat ≤ (image.drop (entry.base.toNat + tableOffset)).length := by
    rw [List.length_drop]
    omega
  have hdrop : image.drop (20 + 0x1000) = lines.flatMap (lineText .fwup) ++ c :: rest := htext
  simp only [osafeloaderExtract, Bool.not_true, Bool.false_eq_true, if_false, if_neg hheader, hdrop, hloop, hseek,
    copyLoop_eq [] (show entry.size.toNat < 2 ^ 31 by omega) hroom (Nat.lt_succ_of_le hroom), Option.map_some,
    List.nil_append, ne_eq, not_true_eq_false, slice]

/-- The digest of a factory image is right, and the entries of its table are listed. -/
theorem info_eq {digest : List Byte → Fin 16 → Byte} {info : DeviceInfo} {parts : List ImagePartition}
    {image : List Byte} (himage : generateFactoryImage (putMd5 digest) info parts = some image)
    (hnames : ∀ part ∈ parts, IsName part.name) (hcount : parts.length ≤ 16) :
    osafeloaderInfo digest (some image) =
      some (.ok
        { imageSize := BitVec.ofNat 32 (imageLength parts), md5 := List.ofFn (putMd5 digest (image.drop 0x14))
          partitions := (tableEntries parts 0x800).map toPartition }) := by
  obtain ⟨hflash, -, hfactory⟩ := generateFactoryImage_some himage
  obtain ⟨hsize, hmd5⟩ := generateFactoryImage_header himage
  obtain ⟨c, rest, hend, htext⟩ := drop_tableOffset hfactory
  have htotal := length_contents_le info hflash
  have hlength := hfactory.length
  have hlen : imageLength parts = image.length := by
    rw [hlength, imageLength, length_contents]
    rfl
  have hheader : ¬ image.length < 20 := by
    unfold tableOffset at hlength
    omega
  have hnat : (BitVec.ofNat 32 (imageLength parts)).toNat = image.length := by
    rw [BitVec.toNat_ofNat, hlen, Nat.mod_eq_of_lt]
    unfold tableOffset at hlength
    omega
  have hread : (freadUpto 1024 (fun data buf => data ++ buf) md5Salt (image.drop 20) image.length).1 =
      Safeloader.md5Salt ++ image.drop 0x14 := by
    rw [freadUpto_eq streaming_append (by decide), List.take_of_length_le (by rw [List.length_drop]; omega)]
    rfl
  have hlist : listPartitions (image.length + 1) (image.drop 0x1014) =
      some ((tableEntries parts 0x800).map toPartition) := by
    rw [show image.drop 0x1014 = image.drop tableOffset from rfl, htext]
    refine listPartitions_lines (tableEntries_isName hnames) hend rest ?_
    rw [length_tableEntries]
    unfold tableOffset at hlength
    omega
  have hdigest : ¬ List.ofFn (digest (Safeloader.md5Salt ++ image.drop 0x14)) ≠ slice image 4 16 := by
    rw [not_not, hmd5]
    rfl
  simp only [osafeloaderInfo, if_neg hheader, hsize, u32be_eq, ofBe_wordBe, hnat, hread, if_neg hdigest, hlist,
    Option.map_some]
  rfl

end Immwrt.Osafeloader
