import Immwrt.Lib.Bytes

/-!
# Files that tools read and grow

Reading a file piece by piece through a buffer, and appending to one: files, zeros, and zeros up to an
alignment. Writing to a file that is open does not fail; a file may be missing and memory may run out.
-/

namespace Immwrt

inductive Errno where
  | enoent
  | eio
  | enomem
  | eacces
  | einval
  | enospc
  | eproto
  | enodev
  | eopnotsupp
  deriving DecidableEq

/-! ### Reading through a buffer -/

section Reading

variable {σ : Type}

/-- `while ((bytes = fread(buf, 1, min(size, length), file)) > 0)`, with what each round does to a state
and `length -= bytes`. -/
def freadLoop (size : Nat) (take : σ → List Byte → σ) : Nat → σ → List Byte → Nat → σ × Nat
  | 0, s, _, length => (s, length)
  | fuel + 1, s, file, length =>
    let buf := file.take (min size length)
    if buf.length = 0 then (s, length)
    else freadLoop size take fuel (take s buf) (file.drop buf.length) (length - buf.length)

/-- The state after at most `length` bytes, and how many bytes were missing. -/
def freadUpto (size : Nat) (take : σ → List Byte → σ) (s : σ) (file : List Byte) (length : Nat) : σ × Nat :=
  freadLoop size take length s file length

/-- The state after the whole file. -/
def freadAll (size : Nat) (take : σ → List Byte → σ) (s : σ) (file : List Byte) : σ :=
  (freadUpto size take s file file.length).1

/-- What a loop does with its pieces does not depend on where they were cut. -/
structure Streaming (take : σ → List Byte → σ) : Prop where
  nil : ∀ s, take s [] = s
  append : ∀ s front back, take (take s front) back = take s (front ++ back)

variable {take : σ → List Byte → σ}

theorem freadLoop_eq (htake : Streaming take) {size : Nat} (hsize : 0 < size) {fuel : Nat} {s : σ}
    {file : List Byte} {length : Nat} (hfuel : length ≤ fuel) :
    freadLoop size take fuel s file length =
      (take s (file.take length), length - file.length) := by
  induction fuel generalizing s file length with
  | zero =>
    obtain rfl : length = 0 := by omega
    rw [freadLoop, List.take_zero, htake.nil, Nat.zero_sub]
  | succ fuel ih =>
    rw [freadLoop]
    simp only [List.length_take]
    by_cases hempty : min (min size length) file.length = 0
    · have hdone : length = 0 ∨ file.length = 0 := by omega
      rw [if_pos hempty]
      rcases hdone with hlength | hfile
      · rw [hlength, List.take_zero, htake.nil, Nat.zero_sub]
      · rw [List.eq_nil_of_length_eq_zero hfile, List.take_nil, htake.nil, List.length_nil,
          Nat.sub_zero]
    · rw [if_neg hempty, ih (by omega), htake.append, List.length_drop]
      have hbuf : file.take (min size length) = file.take (min (min size length) file.length) := by
        rw [List.take_eq_take_iff]
        omega
      have hlength : length = min (min size length) file.length +
          (length - min (min size length) file.length) := by omega
      have hsplit : file.take (min size length) ++
          (file.drop (min (min size length) file.length)).take
            (length - min (min size length) file.length) = file.take length := by
        conv_rhs => rw [hlength, List.take_add]
        rw [hbuf]
      rw [hsplit]
      congr 1
      omega

theorem freadUpto_eq (htake : Streaming take) {size : Nat} (hsize : 0 < size) (s : σ) (file : List Byte)
    (length : Nat) :
    freadUpto size take s file length = (take s (file.take length), length - file.length) :=
  freadLoop_eq htake hsize le_rfl

theorem freadAll_eq (htake : Streaming take) {size : Nat} (hsize : 0 < size) (s : σ) (file : List Byte) :
    freadAll size take s file = take s file := by
  rw [freadAll, freadUpto_eq htake hsize, List.take_length]

end Reading

theorem streaming_append : Streaming fun out buf : List Byte => out ++ buf where
  nil out := List.append_nil out
  append out front back := List.append_assoc out front back

/-! ### Appending -/

/-- A file being written, and the length of it that the program keeps count of. -/
structure Cursor where
  file : List Byte
  offset : Nat

/-- The file after an append and the number of bytes appended. -/
abbrev Appended := Except Errno (List Byte × Nat)

/-- The bytes that an append adds to a count. -/
def Appended.sbytes : Appended → Nat
  | .error _ => 0
  | .ok (_, sbytes) => sbytes

/-- `if (sbytes < 0) fprintf(stderr, ...); else offset += sbytes;` -/
def Cursor.advance (out : Cursor) : Appended → Cursor
  | .error _ => out
  | .ok (file, sbytes) => { file := file, offset := out.offset + sbytes }

theorem Cursor.advance_offset (out : Cursor) (appended : Appended) :
    (out.advance appended).offset = out.offset + appended.sbytes := by
  cases appended with
  | error err => rfl
  | ok appended => rfl

/-- Append a file that is copied through a buffer; `none` is a file that cannot be opened. -/
def appendFile (size : Nat) (out : List Byte) : Option (List Byte) → Appended
  | none => .error .eacces
  | some input =>
    .ok (freadAll size (fun out buf => out ++ buf) out input,
      freadAll size (fun length buf => length + buf.length) 0 input)

/-- `malloc` tells which sizes there is memory for. -/
def appendZeros (malloc : Nat → Bool) (out : List Byte) (length : Nat) : Appended :=
  if malloc length then .ok (out ++ List.replicate length 0, length) else .error .enomem

/-- Zeros up to the next multiple of `alignment`, a `size_t` that is not zero. -/
def appendAlign (malloc : Nat → Bool) (out : List Byte) (offset alignment : Nat) : Appended :=
  if offset &&& ((alignment + (2 ^ 64 - 1)) % 2 ^ 64) = 0 then .ok (out, 0)
  else appendZeros malloc out (alignment - offset % alignment)

/-- An alignment to 0 divides by 0, unless the offset is 0. -/
def alignTraps (offset alignment : Nat) : Prop := alignment = 0 ∧ offset ≠ 0

instance (offset alignment : Nat) : Decidable (alignTraps offset alignment) :=
  inferInstanceAs (Decidable (_ ∧ _))

/-- Zeros up to the absolute offset `target`, a `long`: the difference is taken as a `size_t` and read as
a `ssize_t`. -/
def appendUpto (malloc : Nat → Bool) (out : List Byte) (offset : Nat) (target : Int) : Appended :=
  let sbytes := Int.bmod (target - offset) (2 ^ 64)
  if sbytes < 0 then .error .einval else appendZeros malloc out sbytes.toNat

/-- A `long` taken as a `size_t`. -/
def toSize (n : Int) : Nat := (n % 2 ^ 64).toNat

/-! ### What an append leaves -/

def Cursor.append (out : Cursor) (bytes : List Byte) : Cursor where
  file := out.file ++ bytes
  offset := out.offset + bytes.length

theorem Cursor.append_append (out : Cursor) (front back : List Byte) :
    (out.append front).append back = out.append (front ++ back) := by
  simp [Cursor.append, Nat.add_assoc]

/-- The zeros that an append of zeros leaves. -/
def zerosOf (malloc : Nat → Bool) (length : Nat) : List Byte :=
  if malloc length then List.replicate length 0 else []

/-- The zeros that an alignment leaves. -/
def alignZeros (malloc : Nat → Bool) (offset alignment : Nat) : List Byte :=
  if offset &&& ((alignment + (2 ^ 64 - 1)) % 2 ^ 64) = 0 then []
  else zerosOf malloc (alignment - offset % alignment)

/-- The zeros up to an absolute offset. -/
def uptoZeros (malloc : Nat → Bool) (offset : Nat) (target : Int) : List Byte :=
  let sbytes := Int.bmod (target - offset) (2 ^ 64)
  if sbytes < 0 then [] else zerosOf malloc sbytes.toNat

theorem streaming_length : Streaming fun (length : Nat) (buf : List Byte) => length + buf.length where
  nil := Nat.add_zero
  append length front back := by rw [List.length_append, Nat.add_assoc]

theorem appendFile_some {size : Nat} (hsize : 0 < size) (out input : List Byte) :
    appendFile size out (some input) = .ok (out ++ input, input.length) := by
  rw [appendFile, freadAll_eq streaming_append hsize, freadAll_eq streaming_length hsize, Nat.zero_add]

theorem Cursor.advance_appendFile {size : Nat} (hsize : 0 < size) (out : Cursor)
    (input : Option (List Byte)) :
    out.advance (appendFile size out.file input) = out.append (input.getD []) := by
  cases input with
  | none => simp [appendFile, Cursor.advance, Cursor.append]
  | some input =>
    rw [appendFile_some hsize]
    rfl

theorem Cursor.advance_appendZeros (malloc : Nat → Bool) (out : Cursor) (length : Nat) :
    out.advance (appendZeros malloc out.file length) = out.append (zerosOf malloc length) := by
  unfold appendZeros zerosOf
  cases malloc length <;> simp [Cursor.advance, Cursor.append]

theorem Cursor.advance_appendAlign (malloc : Nat → Bool) (out : Cursor) (alignment : Nat) :
    out.advance (appendAlign malloc out.file out.offset alignment) =
      out.append (alignZeros malloc out.offset alignment) := by
  unfold appendAlign alignZeros
  split
  · simp [Cursor.advance, Cursor.append]
  · exact Cursor.advance_appendZeros malloc out _

theorem Cursor.advance_appendUpto (malloc : Nat → Bool) (out : Cursor) (target : Int) :
    out.advance (appendUpto malloc out.file out.offset target) =
      out.append (uptoZeros malloc out.offset target) := by
  unfold appendUpto uptoZeros
  dsimp only
  split
  · simp [Cursor.advance, Cursor.append]
  · exact Cursor.advance_appendZeros malloc out _

end Immwrt
