import Immwrt.Safeloader.Convert
import Mathlib.Tactic

/-!
# Reading a table of lines

The image partition table and the flash partition table have lines of one form, which `read_partition_table`
reads back: a header, a name, a base and a size. A name is cut to the 31 characters that the program keeps.
-/

namespace Immwrt.Safeloader

/-! ### Reading a line -/

theorem memchr_append {text rest : List Byte} {c : Byte} {n : Nat} (htext : c ∉ text)
    (hn : text.length < n) : memchr (text ++ c :: rest) c n = some text.length := by
  have htake : (text ++ c :: rest).take n = text ++ c :: rest.take (n - text.length - 1) := by
    rw [List.take_append, List.take_of_length_le hn.le,
      show n - text.length = n - text.length - 1 + 1 by omega, List.take_succ_cons]
    simp
  rw [memchr, htake, List.findIdx?_append, List.findIdx?_cons]
  have hnone : text.findIdx? (fun x => decide (x = c)) = none := by
    rw [List.findIdx?_eq_none_iff]
    intro x hx
    simpa using fun heq : x = c => htext (heq ▸ hx)
  simp [hnone]

section Elements

variable {bits maxEntries : Nat} {is : List Nat} {element line tail : List Byte} {state : LineState}

/-- The loop stands before an element that a space ends. -/
structure AtElement (state : LineState) (element line tail : List Byte) : Prop where
  space : 0x20 ∉ element
  ptr : state.ptr = element ++ 0x20 :: (line ++ 0x0A :: tail)
  left : state.left = element.length + 1 + line.length

theorem AtElement.memchr (hat : AtElement state element line tail) :
    memchr state.ptr 0x20 state.left = some element.length := by
  rw [hat.ptr, hat.left]
  exact memchr_append hat.space (by omega)

theorem AtElement.skip (hat : AtElement state element line tail) :
    state.skip (element.length + 1) =
      { state with ptr := line ++ 0x0A :: tail, left := line.length } := by
  have hdrop : state.ptr.drop (element.length + 1) = line ++ 0x0A :: tail := by
    rw [hat.ptr, ← List.drop_drop, List.drop_left]
    rfl
  have hlen : state.left - (element.length + 1) = line.length := by
    rw [hat.left]
    omega
  rw [LineState.skip, hdrop, hlen]

theorem AtElement.readElements_skip (hat : AtElement state element line tail) {i : Nat}
    (hi : i ≠ 1 ∧ i ≠ 3 ∧ i ≠ 4) :
    readElements bits maxEntries (i :: is) state =
      readElements bits maxEntries is
        { state with ptr := line ++ 0x0A :: tail, left := line.length } := by
  have hleft : state.left ≠ 0 := by
    rw [hat.left]
    omega
  simp only [readElements, if_neg hleft, hat.memchr, if_neg hi.1, if_neg hi.2.1, if_neg hi.2.2,
    hat.skip]

/-- A name that the program keeps no more than 31 characters of. -/
def shortName (name : CString) : CString := .ofBytes (name.bytes.take 31)

theorem shortName_of_le {name : CString} (hname : name.strlen ≤ 31) : shortName name = name := by
  have hbytes : name.bytes.take 31 = name.bytes := List.take_of_length_le hname
  rw [shortName, hbytes, CString.ofBytes_bytes]

theorem AtElement.readElements_name {name : CString} (hat : AtElement state name.bytes line tail) :
    readElements bits maxEntries (1 :: is) state =
      readElements bits maxEntries is
        { state with ptr := line ++ 0x0A :: tail, left := line.length, name := shortName name } := by
  have hleft : state.left ≠ 0 := by
    rw [hat.left]
    omega
  have hbytes : state.ptr.take (min name.bytes.length 31) = name.bytes.take 31 := by
    rw [hat.ptr, List.take_append_of_le_length (Nat.min_le_left _ _), Nat.min_comm, ← List.take_eq_take_min]
  simp only [readElements, if_neg hleft, hat.memchr, if_true, hbytes, hat.skip, shortName]

theorem AtElement.readElements_base (hat : AtElement state element line tail) {base : Nat}
    (hbase : strtoul bits 16 state.ptr = base) :
    readElements bits maxEntries (3 :: is) state =
      readElements bits maxEntries is
        { state with ptr := line ++ 0x0A :: tail, left := line.length, base := base } := by
  have hleft : state.left ≠ 0 := by
    rw [hat.left]
    omega
  simp only [readElements, if_neg hleft, hat.memchr, hbase, hat.skip, show ¬ (3 = 1) by decide,
    if_false, if_true]

theorem AtElement.readElements_size (hat : AtElement state element line tail) {size : Nat}
    (hsize : strtoul bits 16 (line ++ 0x0A :: tail) = size)
    (hfree : state.entries.length < maxEntries) :
    readElements bits maxEntries [4] state =
      some { state with
        ptr := tail, left := 0
        entries := state.entries ++ [{ name := state.name, base := BitVec.ofNat 32 state.base
                                       size := BitVec.ofNat 32 size }] } := by
  have hleft : state.left ≠ 0 := by
    rw [hat.left]
    omega
  have hrest : (line ++ 0x0A :: tail).drop (line.length + 1) = tail := by
    rw [← List.drop_drop, List.drop_left]
    rfl
  have hend : line.length - (line.length + 1) = 0 := by omega
  simp only [readElements, if_neg hleft, hat.memchr, hat.skip, show ¬ (4 = 1) by decide,
    show ¬ (4 = 3) by decide, if_false, if_true, hsize, addFlashPartition, if_neg hfree.ne,
    Option.bind_some]
  simp only [LineState.skip, hrest, hend]

end Elements

/-- What stands before the newline of a line. -/
def TableType.lineEnd : TableType → List Byte
  | .fwup => [0x09, 0x0D]
  | .flash => []

/-- What follows the word `size` in a line, up to the newline. -/
def sizeText (type : TableType) (size : Word) : List Byte :=
  ofChars "0x" ++ printfHex false 5 size.toNat ++ type.lineEnd

/-- What follows the word `base`. -/
def baseText (type : TableType) (base size : Word) : List Byte :=
  (ofChars "0x" ++ printfHex false 5 base.toNat) ++ 0x20 :: (ofChars "size" ++ 0x20 :: sizeText type size)

/-- What follows the name. -/
def afterName (type : TableType) (base size : Word) : List Byte := ofChars "base" ++ 0x20 :: baseText type base size

/-- A line up to the newline. -/
def lineBody (type : TableType) (entry : TableEntry) : List Byte :=
  type.parthdr ++ 0x20 :: (entry.name.bytes ++ 0x20 :: afterName type entry.base entry.size)

/-- The line of an entry. -/
def lineText (type : TableType) (entry : TableEntry) : List Byte := lineBody type entry ++ [0x0A]

/-- What is read from the line of an entry. -/
def TableEntry.shortened (entry : TableEntry) : TableEntry := { entry with name := shortName entry.name }

theorem not_mem_printfHex (width n : Nat) {c : Byte} (hc : 16 ≤ digitValue c) :
    c ∉ printfHex false width n := by
  intro hmem
  have hlt := digitValue_printfHex hmem
  omega

theorem strtoul_number {bits : Nat} (hbits : 32 ≤ bits) (n : Word) {c : Byte} (hc : 16 ≤ digitValue c)
    (rest : List Byte) : strtoul bits 16 (ofChars "0x" ++ printfHex false 5 n.toNat ++ c :: rest) = n.toNat :=
  strtoul_printfHex hbits false (by decide) n.isLt hc rest

theorem strtoul_sizeText {bits : Nat} (hbits : 32 ≤ bits) (type : TableType) (size : Word) (tail : List Byte) :
    strtoul bits 16 (sizeText type size ++ 0x0A :: tail) = size.toNat := by
  rw [sizeText, List.append_assoc]
  cases type with
  | fwup => exact strtoul_number hbits size (by decide) _
  | flash => exact strtoul_number hbits size (by decide) _

/-- A whole line adds its entry. -/
theorem readElements_line {bits maxEntries : Nat} (hbits : 32 ≤ bits) (type : TableType) (entry : TableEntry)
    (hword : IsWord entry.name) (tail : List Byte) {entries : List TableEntry}
    (hfree : entries.length < maxEntries) :
    readElements bits maxEntries [0, 1, 2, 3, 4]
        { ptr := lineText type entry ++ tail, left := (lineBody type entry).length
          name := .ofBytes [], base := 0, entries := entries } =
      some
        { ptr := tail, left := 0, name := shortName entry.name, base := entry.base.toNat
          entries := entries ++ [entry.shortened] } := by
  obtain ⟨name, base, size⟩ := entry
  have hdigit : 16 ≤ digitValue 0x20 := by decide
  have hnumber : 0x20 ∉ ofChars "0x" ++ printfHex false 5 base.toNat := by
    intro hmem
    rcases List.mem_append.1 hmem with hmem | hmem
    · exact absurd hmem (by decide)
    · exact not_mem_printfHex 5 base.toNat hdigit hmem
  have hhdr : AtElement
      ⟨lineText type ⟨name, base, size⟩ ++ tail, (lineBody type ⟨name, base, size⟩).length, .ofBytes [], 0, entries⟩
      type.parthdr (name.bytes ++ 0x20 :: afterName type base size) tail := by
    refine ⟨by cases type <;> decide, by simp [lineText, lineBody], ?_⟩
    simp only [lineBody, List.length_append, List.length_cons]
    omega
  have hnameAt : AtElement
      ⟨name.bytes ++ 0x20 :: afterName type base size ++ 0x0A :: tail,
        (name.bytes ++ 0x20 :: afterName type base size).length, .ofBytes [], 0, entries⟩
      name.bytes (afterName type base size) tail := by
    refine ⟨hword.noSpace, by simp, ?_⟩
    simp only [List.length_append, List.length_cons]
    omega
  have hbaseWord : AtElement
      ⟨afterName type base size ++ 0x0A :: tail, (afterName type base size).length, shortName name, 0, entries⟩
      (ofChars "base") (baseText type base size) tail := by
    refine ⟨by decide, by simp [afterName], ?_⟩
    simp only [afterName, List.length_append, List.length_cons]
    omega
  have hbaseAt : AtElement
      ⟨baseText type base size ++ 0x0A :: tail, (baseText type base size).length, shortName name, 0, entries⟩
      (ofChars "0x" ++ printfHex false 5 base.toNat) (ofChars "size" ++ 0x20 :: sizeText type size) tail := by
    refine ⟨hnumber, by simp [baseText], ?_⟩
    simp only [baseText, List.length_append, List.length_cons]
    omega
  have hsizeAt : AtElement
      ⟨ofChars "size" ++ 0x20 :: sizeText type size ++ 0x0A :: tail,
        (ofChars "size" ++ 0x20 :: sizeText type size).length, shortName name, base.toNat, entries⟩
      (ofChars "size") (sizeText type size) tail := by
    refine ⟨by decide, by simp, ?_⟩
    simp only [List.length_append, List.length_cons]
    omega
  have hbaseValue : strtoul bits 16 (baseText type base size ++ 0x0A :: tail) = base.toNat := by
    rw [baseText, List.append_assoc, List.cons_append]
    exact strtoul_number hbits base hdigit _
  rw [hhdr.readElements_skip ⟨by decide, by decide, by decide⟩, hnameAt.readElements_name,
    hbaseWord.readElements_skip ⟨by decide, by decide, by decide⟩, hbaseAt.readElements_base hbaseValue,
    hsizeAt.readElements_size (strtoul_sizeText hbits type size tail) hfree, BitVec.ofNat_toNat, BitVec.setWidth_eq,
    BitVec.ofNat_toNat, BitVec.setWidth_eq]
  rfl

/-! ### Reading the table -/

theorem newline_not_mem_lineBody (type : TableType) {entry : TableEntry} (hword : IsWord entry.name) :
    0x0A ∉ lineBody type entry := by
  have hdigit : 16 ≤ digitValue 0x0A := by decide
  have hbaseHex := not_mem_printfHex 5 entry.base.toNat hdigit
  have hsizeHex := not_mem_printfHex 5 entry.size.toNat hdigit
  have hx : ofChars "0x" = [0x30, 0x78] := rfl
  have hhdr : 0x0A ∉ type.parthdr := by cases type <;> decide
  have hend : 0x0A ∉ type.lineEnd := by cases type <;> decide
  have hbaseWord : 0x0A ∉ ofChars "base" := by decide
  have hsizeWord : 0x0A ∉ ofChars "size" := by decide
  rw [lineBody, afterName, baseText, sizeText, hx]
  simp only [List.mem_append, List.mem_cons, List.not_mem_nil, hhdr, hend, hword.noNewline, hbaseHex, hsizeHex,
    hbaseWord, hsizeWord, or_false, false_or]
  decide

theorem lineText_append (type : TableType) (entry : TableEntry) (tail : List Byte) :
    lineText type entry ++ tail = lineBody type entry ++ 0x0A :: tail := by
  rw [lineText, List.append_assoc, List.singleton_append]

theorem take_parthdr (type : TableType) (entry : TableEntry) (tail : List Byte) :
    (lineText type entry ++ tail).take type.parthdr.length = type.parthdr := by
  rw [lineText_append, lineBody, List.append_assoc, List.take_left]

/-- The lines are read up to the zero that ends the text. -/
theorem readLines_lines {bits maxEntries : Nat} (hbits : 32 ≤ bits) (type : TableType) {lines : List TableEntry}
    (hwords : ∀ entry ∈ lines, IsWord entry.name) (rest : List Byte) {entries : List TableEntry}
    (hfree : entries.length + lines.length ≤ maxEntries) {fuel : Nat} (hfuel : lines.length < fuel) :
    readLines bits maxEntries type.parthdr fuel (lines.flatMap (lineText type) ++ 0 :: rest) entries =
      some (entries ++ lines.map TableEntry.shortened) := by
  induction lines generalizing entries fuel with
  | nil =>
    cases fuel with
    | zero => omega
    | succ fuel =>
      have hstop : ¬ (type.parthdr.length < (0 :: rest).length ∧
          (0 :: rest).take type.parthdr.length = type.parthdr) := by
        rintro ⟨-, htake⟩
        cases type with
        | fwup =>
          have hfirst : some (0 : Byte) = TableType.fwup.parthdr.head? := congrArg List.head? htake
          exact absurd hfirst (by decide)
        | flash =>
          have hfirst : some (0 : Byte) = TableType.flash.parthdr.head? := congrArg List.head? htake
          exact absurd hfirst (by decide)
      rw [List.flatMap_nil, List.nil_append, readLines, if_neg hstop, List.map_nil, List.append_nil]
  | cons entry lines ih =>
    cases fuel with
    | zero => omega
    | succ fuel =>
      have hword := hwords entry List.mem_cons_self
      have hrest : ∀ entry ∈ lines, IsWord entry.name :=
        fun entry hentry => hwords entry (List.mem_cons_of_mem _ hentry)
      rw [List.length_cons] at hfree hfuel
      rw [List.flatMap_cons, List.append_assoc]
      generalize htail : lines.flatMap (lineText type) ++ 0 :: rest = tail at ih
      have hstart : type.parthdr.length < (lineText type entry ++ tail).length ∧
          (lineText type entry ++ tail).take type.parthdr.length = type.parthdr := by
        refine ⟨?_, take_parthdr type entry tail⟩
        rw [lineText_append, lineBody]
        simp only [List.length_append, List.length_cons]
        omega
      have hline : memchr (lineText type entry ++ tail) 0x0A (lineText type entry ++ tail).length =
          some (lineBody type entry).length := by
        rw [lineText_append]
        refine memchr_append (newline_not_mem_lineBody type hword) ?_
        simp only [List.length_append, List.length_cons]
        omega
      rw [readLines, if_pos hstart, hline]
      simp only [readElements_line hbits type entry hword tail (show entries.length < maxEntries by omega),
        Option.bind_some]
      rw [ih hrest (by rw [List.length_append, List.length_singleton]; omega) (by omega), List.map_cons,
        List.append_assoc, List.singleton_append]

/-- The text that `read_partition_table` works on. -/
theorem tableBuffer {file text : List Byte} {offset : Nat} (hfile : offset + 2048 ≤ file.length)
    (hfits : text.length < 2048) (htable : slice file offset (text.length + 1) = text ++ [0]) :
    ∃ rest, splice (slice file offset 2048) 2047 [0] = text ++ 0 :: rest := by
  have hlen : (slice file offset 2048).length = 2048 := by
    rw [slice, List.length_take, List.length_drop]
    omega
  have hbuf : slice file offset 2048 =
      text ++ 0 :: slice file (offset + (text.length + 1)) (2048 - (text.length + 1)) := by
    rw [show 2048 = text.length + 1 + (2048 - (text.length + 1)) by omega, slice_add, htable]
    simp
  have hsplice : splice (slice file offset 2048) 2047 [0] = (slice file offset 2048).take 2047 ++ [0] := by
    rw [splice, List.drop_eq_nil_of_le (by rw [hlen]; decide), List.append_nil]
  rw [hsplice, hbuf]
  by_cases hfull : text.length = 2047
  · refine ⟨[], ?_⟩
    rw [← hfull, List.take_left]
  · refine ⟨(slice file (offset + (text.length + 1)) (2048 - (text.length + 1))).take
      (2047 - text.length - 1) ++ [0], ?_⟩
    rw [List.take_append, List.take_of_length_le (by omega),
      show 2047 - text.length = 2047 - text.length - 1 + 1 by omega, List.take_succ_cons]
    simp

/-- A table of lines in a file is read back. -/
theorem readPartitionTable_lines {bits maxEntries : Nat} (hbits : 32 ≤ bits) (type : TableType) {file : List Byte}
    {offset : Nat} {lines : List TableEntry} (hlines : lines ≠ []) (hcount : lines.length ≤ maxEntries)
    (hshort : maxEntries < 2048) (hwords : ∀ entry ∈ lines, IsWord entry.name)
    (hfile : offset + 2048 ≤ file.length) (hfits : (lines.flatMap (lineText type)).length < 2048)
    (htable : slice file offset ((lines.flatMap (lineText type)).length + 1) =
      lines.flatMap (lineText type) ++ [0]) :
    readPartitionTable bits file offset maxEntries type = some (0, lines.map TableEntry.shortened) := by
  obtain ⟨rest, hbuf⟩ := tableBuffer hfile hfits htable
  have hlen : ¬ (slice file offset 2048).length < 2048 := by
    rw [slice, List.length_take, List.length_drop]
    omega
  have hhdr : ¬ (lines.flatMap (lineText type) ++ 0 :: rest).take type.parthdr.length ≠ type.parthdr := by
    cases lines with
    | nil => exact absurd rfl hlines
    | cons entry lines =>
      rw [not_not, List.flatMap_cons, List.append_assoc]
      exact take_parthdr type entry _
  simp only [readPartitionTable, if_neg hlen, hbuf, if_neg hhdr]
  rw [readLines_lines hbits type hwords rest (by simpa using hcount) (by omega), Option.map_some, List.nil_append]

end Immwrt.Safeloader
