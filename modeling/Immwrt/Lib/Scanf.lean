import Immwrt.Lib.Text

/-!
# Formatted input

`scanf` reads a text along a format: white space, characters that have to be there, words, and hexadecimal
numbers. It stops at the first directive that does not match, and what was converted before stays.
-/

namespace Immwrt

inductive Directive where
  | space
  | char (c : Byte)
  | string
  | hex
  deriving DecidableEq

/-- The directives of a format. -/
def directives : List Byte → List Directive
  | [] => []
  | [c] => [if isSpace c then .space else .char c]
  | c :: d :: format =>
    if c = 0x25 ∧ d = 0x73 then .string :: directives format
    else if c = 0x25 ∧ d = 0x78 then .hex :: directives format
    else if isSpace c then .space :: directives (d :: format)
    else .char c :: directives (d :: format)

inductive ScanValue where
  | string (bytes : List Byte)
  | hex (value : Word)
  deriving DecidableEq

/-- `%s`, and the text behind it. -/
def scanString (text : List Byte) : Option (List Byte × List Byte) :=
  let text := text.dropWhile isSpace
  let word := text.takeWhile fun c => !isSpace c
  if word = [] then none else some (word, text.drop word.length)

/-- `%x` into an `unsigned`: a sign and a `0x` may stand before the digits. -/
def scanHex (text : List Byte) : Option (Word × List Byte) :=
  let text := text.dropWhile isSpace
  let body := if text.head? = some 0x2D ∨ text.head? = some 0x2B then text.tail else text
  let body :=
    if body.getD 0 0 = 0x30 ∧ (body.getD 1 0 = 0x78 ∨ body.getD 1 0 = 0x58) then body.drop 2 else body
  let digits := body.takeWhile fun c => digitValue c < 16
  if digits = [] then none
  else some (BitVec.ofNat 32 (strtoul 64 16 text), body.drop digits.length)

/-- The values that were converted and the text that is left. -/
def scan : List Directive → List Byte → List ScanValue × List Byte
  | [], text => ([], text)
  | .space :: format, text => scan format (text.dropWhile isSpace)
  | .char c :: format, text => if text.head? = some c then scan format text.tail else ([], text)
  | .string :: format, text =>
    match scanString text with
    | none => ([], text)
    | some (word, rest) => (.string word :: (scan format rest).1, (scan format rest).2)
  | .hex :: format, text =>
    match scanHex text with
    | none => ([], text)
    | some (value, rest) => (.hex value :: (scan format rest).1, (scan format rest).2)

/-! ### White space -/

theorem digitValue_of_isSpace {c : Byte} (hc : isSpace c = true) : digitValue c = 36 := by
  simp only [isSpace, Bool.or_eq_true, Bool.and_eq_true, decide_eq_true_eq] at hc
  rcases hc with rfl | ⟨hlow, hhigh⟩
  · rfl
  · simp only [digitValue, Bool.and_eq_true, decide_eq_true_eq]
    rw [if_neg (by bv_omega), if_neg (by bv_omega), if_neg (by bv_omega)]

theorem isSpace_of_digit {c : Byte} (hc : digitValue c < 16) : isSpace c = false := by
  refine Bool.eq_false_of_not_eq_true fun hspace => ?_
  rw [digitValue_of_isSpace hspace] at hc
  omega

/-- No white space stands in front. -/
def Solid (text : List Byte) : Prop := text.dropWhile isSpace = text

theorem solid_cons {c : Byte} (hc : isSpace c = false) (text : List Byte) : Solid (c :: text) :=
  List.dropWhile_cons_of_neg (by rw [hc]; exact Bool.false_ne_true)

theorem solid_append {word : List Byte} (hne : word ≠ []) (hword : ∀ c ∈ word, isSpace c = false)
    (text : List Byte) : Solid (word ++ text) := by
  obtain ⟨first, tail, rfl⟩ := List.exists_cons_of_ne_nil hne
  exact solid_cons (hword first List.mem_cons_self) (tail ++ text)

/-! ### Directives that match -/

theorem scan_space {c : Byte} (hc : isSpace c = true) (format : List Directive) {text : List Byte}
    (htext : Solid text) : scan (.space :: format) (c :: text) = scan format text := by
  rw [scan, List.dropWhile_cons_of_pos hc, htext]

theorem scan_space_solid (format : List Directive) {text : List Byte} (htext : Solid text) :
    scan (.space :: format) text = scan format text := by
  rw [scan, htext]

/-- Characters that have to be there. -/
def literal (chars : List Byte) : List Directive := chars.map .char

theorem scan_literal (chars : List Byte) (format : List Directive) (text : List Byte) :
    scan (literal chars ++ format) (chars ++ text) = scan format text := by
  induction chars with
  | nil => rfl
  | cons c chars ih =>
    rw [literal, List.map_cons, List.cons_append, List.cons_append, scan, List.head?_cons, if_pos rfl, List.tail_cons]
    exact ih

/-- White space and a word that has to be there. -/
theorem scan_space_literal {c : Byte} (hc : isSpace c = true) {word : List Byte} (hne : word ≠ [])
    (hword : ∀ c ∈ word, isSpace c = false) (format : List Directive) (text : List Byte) :
    scan (.space :: (literal word ++ format)) (c :: (word ++ text)) = scan format text := by
  rw [scan_space hc _ (solid_append hne hword text), scan_literal]

theorem scan_char_ne {c d : Byte} (hne : d ≠ c) (format : List Directive) (text : List Byte) :
    scan (.char c :: format) (d :: text) = ([], d :: text) := by
  rw [scan, List.head?_cons, if_neg (by simpa using hne)]

/-- A word that ends before white space. -/
theorem scan_string {word : List Byte} (hne : word ≠ []) (hword : ∀ c ∈ word, isSpace c = false) {c : Byte}
    (hc : isSpace c = true) (format : List Directive) (text : List Byte) :
    scan (.string :: format) (word ++ c :: text) =
      (.string word :: (scan format (c :: text)).1, (scan format (c :: text)).2) := by
  have hsolid : (word ++ c :: text).dropWhile isSpace = word ++ c :: text := solid_append hne hword _
  have htake : (word ++ c :: text).takeWhile (fun c => !isSpace c) = word := by
    rw [List.takeWhile_append_of_pos fun c hmem => by rw [hword c hmem]; rfl,
      List.takeWhile_cons_of_neg (by rw [hc]; decide), List.append_nil]
  have hscan : scanString (word ++ c :: text) = some (word, c :: text) := by
    simp only [scanString, hsolid, htake, if_neg hne, List.drop_left]
  rw [scan, hscan]

/-! ### Numbers -/

section Digits

variable {d c : Byte} {digits : List Byte} (hdigits : ∀ c ∈ d :: digits, digitValue c < 16)
  (hc : isSpace c = true) (rest : List Byte)

include hdigits hc

theorem takeWhile_digits :
    (d :: digits ++ c :: rest).takeWhile (fun c => decide (digitValue c < 16)) = d :: digits := by
  have hend : ¬ digitValue c < 16 := by
    rw [digitValue_of_isSpace hc]
    decide
  rw [List.takeWhile_append_of_pos fun c hmem => decide_eq_true (hdigits c hmem),
    List.takeWhile_cons_of_neg (by simpa using hend), List.append_nil]

/-- What follows the first digit is no letter `x`. -/
theorem not_hexStart (c' : Byte) :
    ¬ (c' = 0x30 ∧ ((d :: digits ++ c :: rest).getD 1 0 = 0x78 ∨ (d :: digits ++ c :: rest).getD 1 0 = 0x58)) := by
  have hsecond : digitValue ((d :: digits ++ c :: rest).getD 1 0) ≠ 33 := by
    cases digits with
    | nil =>
      have hvalue : digitValue c = 36 := digitValue_of_isSpace hc
      show digitValue c ≠ 33
      omega
    | cons e digits =>
      have hvalue : digitValue e < 16 := hdigits e (by simp)
      show digitValue e ≠ 33
      omega
  rintro ⟨-, heq | heq⟩
  · rw [heq] at hsecond
    exact hsecond rfl
  · rw [heq] at hsecond
    exact hsecond rfl

omit hc in
theorem not_sign : ¬ ((d :: digits ++ rest).head? = some 0x2D ∨ (d :: digits ++ rest).head? = some 0x2B) := by
  have hfirst := hdigits d List.mem_cons_self
  rintro (heq | heq)
  · rw [show d = 0x2D from Option.some.inj heq] at hfirst
    exact absurd hfirst (by decide)
  · rw [show d = 0x2B from Option.some.inj heq] at hfirst
    exact absurd hfirst (by decide)

/-- `strtoul` with base 16 reads digits up to white space. -/
theorem strtoul_digits {bits : Nat} (hlt : digitsValue 16 (d :: digits) < 2 ^ bits) :
    strtoul bits 16 (d :: digits ++ c :: rest) = digitsValue 16 (d :: digits) := by
  have hspace : (d :: digits ++ c :: rest).dropWhile isSpace = d :: digits ++ c :: rest :=
    solid_cons (isSpace_of_digit (hdigits d List.mem_cons_self)) _
  have hsign := not_sign hdigits (c :: rest)
  have hminus : ¬ (d :: digits ++ c :: rest).head? = some 0x2D := fun hhead => hsign (.inl hhead)
  have hhex : ¬ ((d :: digits ++ c :: rest).getD 0 0 = 0x30 ∧
      ((d :: digits ++ c :: rest).getD 1 0 = 0x78 ∨ (d :: digits ++ c :: rest).getD 1 0 = 0x58) ∧
      digitValue ((d :: digits ++ c :: rest).getD 2 0) < 16) := by
    rintro ⟨hzero, hletter, -⟩
    exact not_hexStart hdigits hc rest _ ⟨hzero, hletter⟩
  unfold strtoul
  simp only [hspace, if_neg hsign, OfNat.ofNat_ne_zero, false_or, true_and, if_neg hhex, if_false,
    takeWhile_digits hdigits hc rest, if_pos hlt, if_neg hminus]

theorem scanHex_digits (hlt : digitsValue 16 (d :: digits) < 2 ^ 64) :
    scanHex (d :: digits ++ c :: rest) =
      some (BitVec.ofNat 32 (digitsValue 16 (d :: digits)), c :: rest) := by
  have hspace : (d :: digits ++ c :: rest).dropWhile isSpace = d :: digits ++ c :: rest :=
    solid_cons (isSpace_of_digit (hdigits d List.mem_cons_self)) _
  have hne : ¬ d :: digits = [] := List.cons_ne_nil d digits
  simp only [scanHex, hspace, if_neg (not_sign hdigits (c :: rest)), if_neg (not_hexStart hdigits hc rest _),
    takeWhile_digits hdigits hc rest, if_neg hne, strtoul_digits hdigits hc rest hlt, List.drop_left]

end Digits

/-- `%x` reads back what `%0<width>x` printed. -/
theorem scan_hex (upper : Bool) {width : Nat} (hwidth : 0 < width) (n : Word) {c : Byte} (hc : isSpace c = true)
    (format : List Directive) (text : List Byte) :
    scan (.hex :: format) (printfHex upper width n.toNat ++ c :: text) =
      (.hex n :: (scan format (c :: text)).1, (scan format (c :: text)).2) := by
  have hvalue := digitsValue_printfHex upper width n.isLt
  have hdigits : ∀ c ∈ printfHex upper width n.toNat, digitValue c < 16 := fun c hmem => digitValue_printfHex hmem
  have hne : printfHex upper width n.toNat ≠ [] := printfHex_ne_nil upper hwidth n.toNat
  obtain ⟨d, digits, hcons⟩ := List.exists_cons_of_ne_nil hne
  rw [hcons] at hvalue hdigits ⊢
  have hlt : digitsValue 16 (d :: digits) < 2 ^ 64 := by
    rw [hvalue]
    exact n.isLt.trans (by decide)
  rw [scan, scanHex_digits hdigits hc text hlt, hvalue, BitVec.ofNat_toNat, BitVec.setWidth_eq]

end Immwrt
