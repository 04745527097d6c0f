import Immwrt.Lib.Bytes
import Mathlib.Data.List.TakeWhile

/-!
# C strings and numbers in text

NUL-terminated strings, the hexadecimal output of `printf`, and `strtoul`, which reads such a number
back.
-/

namespace Immwrt

/-- A NUL-terminated string, without its terminator. -/
structure CString where
  bytes : List Byte
  noNul : 0 ∉ bytes
  deriving DecidableEq

namespace CString

def strlen (s : CString) : Nat := s.bytes.length

/-- The string at the start of a run of memory. -/
def ofBytes (bytes : List Byte) : CString :=
  ⟨bytes.takeWhile (· ≠ 0), fun h => by simpa using List.mem_takeWhile_imp h⟩

end CString

def ofChars (s : String) : List Byte := s.toList.map fun c => BitVec.ofNat 8 c.toNat

def CString.lit (s : String) : CString := .ofBytes (ofChars s)

theorem CString.ofBytes_append (s : CString) (rest : List Byte) :
    CString.ofBytes (s.bytes ++ 0 :: rest) = s := by
  have hall : ∀ c ∈ s.bytes, decide (c ≠ 0) = true :=
    fun c hc => by simpa using fun h0 : c = 0 => s.noNul (h0 ▸ hc)
  simp only [CString.ofBytes]
  congr 1
  rw [List.takeWhile_append_of_pos hall]
  simp

theorem CString.ofBytes_bytes (s : CString) : CString.ofBytes s.bytes = s := by
  have hall : ∀ c ∈ s.bytes, decide (c ≠ 0) = true :=
    fun c hc => by simpa using fun h0 : c = 0 => s.noNul (h0 ▸ hc)
  simp only [CString.ofBytes]
  congr 1
  exact List.takeWhile_eq_self_iff.2 hall

/-! ### Numbers -/

/-- The hexadecimal digits of a number of at most `fuel` digits, without leading zeroes. -/
def hexDigits : Nat → Nat → List Nat
  | 0, _ => []
  | fuel + 1, n => if n = 0 then [] else hexDigits fuel (n / 16) ++ [n % 16]

def hexDigit (upper : Bool) (d : Nat) : Byte :=
  BitVec.ofNat 8 (if d < 10 then 48 + d else if upper then 55 + d else 87 + d)

/-- `%0<width>x` of an `unsigned`, or `%0<width>X`. -/
def printfHex (upper : Bool) (width n : Nat) : List Byte :=
  let digits := hexDigits 8 n
  (List.replicate (width - digits.length) 0 ++ digits).map (hexDigit upper)

def isSpace (c : Byte) : Bool := c = 0x20 || (0x09 ≤ c && c ≤ 0x0D)

/-- The value of a digit in some base of at most 36. -/
def digitValue (c : Byte) : Nat :=
  if 0x30 ≤ c && c ≤ 0x39 then c.toNat - 0x30
  else if 0x61 ≤ c && c ≤ 0x7A then c.toNat - 0x61 + 10
  else if 0x41 ≤ c && c ≤ 0x5A then c.toNat - 0x41 + 10
  else 36

def digitsValue (base : Nat) (digits : List Byte) : Nat :=
  digits.foldl (fun n c => n * base + digitValue c) 0

/-- `strtoul` of the text at a pointer, with an `unsigned long` of `bits` bits. Base 0 takes the base
from the prefix of the digits; a number that is too large is the largest one, and a minus sign
negates. -/
def strtoul (bits base : Nat) (text : List Byte) : Nat :=
  let text := text.dropWhile isSpace
  let negative := text.head? = some 0x2D
  let text := if text.head? = some 0x2D ∨ text.head? = some 0x2B then text.tail else text
  let isHex := (base = 0 ∨ base = 16) ∧ text.getD 0 0 = 0x30 ∧
    (text.getD 1 0 = 0x78 ∨ text.getD 1 0 = 0x58) ∧ digitValue (text.getD 2 0) < 16
  let base := if isHex then 16 else if base = 0 then if text.getD 0 0 = 0x30 then 8 else 10 else base
  let value := digitsValue base
    ((if isHex then text.drop 2 else text).takeWhile fun c => digitValue c < base)
  if value < 2 ^ bits then if negative then (2 ^ bits - value) % 2 ^ bits else value
  else 2 ^ bits - 1

theorem mem_hexDigits {fuel n d : Nat} (hd : d ∈ hexDigits fuel n) : d < 16 := by
  induction fuel generalizing n with
  | zero => simp [hexDigits] at hd
  | succ fuel ih =>
    rw [hexDigits] at hd
    split at hd
    · simp at hd
    · rcases List.mem_append.1 hd with hd | hd
      · exact ih hd
      · rw [List.mem_singleton.1 hd]
        omega

theorem digitValue_hexDigit (upper : Bool) {d : Nat} (hd : d < 16) :
    digitValue (hexDigit upper d) = d := by
  interval_cases d <;> cases upper <;> rfl

/-- The value of digits, most significant first. -/
def ofDigits (digits : List Nat) : Nat := digits.foldl (fun n d => n * 16 + d) 0

theorem ofDigits_hexDigits {fuel n : Nat} (hn : n < 16 ^ fuel) : ofDigits (hexDigits fuel n) = n := by
  induction fuel generalizing n with
  | zero =>
    rw [Nat.pow_zero] at hn
    simp [hexDigits, ofDigits]
    omega
  | succ fuel ih =>
    rw [hexDigits]
    split
    case isTrue hzero => rw [hzero]; rfl
    case isFalse =>
      have hdiv : n / 16 < 16 ^ fuel := by
        rw [Nat.pow_succ] at hn
        omega
      have hfold := ih hdiv
      unfold ofDigits at hfold ⊢
      rw [List.foldl_append, hfold]
      simp only [List.foldl_cons, List.foldl_nil]
      omega

theorem ofDigits_replicate_append (k : Nat) (digits : List Nat) :
    ofDigits (List.replicate k 0 ++ digits) = ofDigits digits := by
  induction k with
  | zero => rfl
  | succ k ih =>
    rw [List.replicate_succ, List.cons_append]
    exact ih

theorem digitsValue_map_hexDigit (upper : Bool) {digits : List Nat} (hdigits : ∀ d ∈ digits, d < 16) :
    digitsValue 16 (digits.map (hexDigit upper)) = ofDigits digits := by
  have hfold : ∀ acc, (digits.map (hexDigit upper)).foldl (fun n c => n * 16 + digitValue c) acc =
      digits.foldl (fun n d => n * 16 + d) acc := by
    induction digits with
    | nil => exact fun _ => rfl
    | cons d digits ih =>
      intro acc
      rw [List.map_cons, List.foldl_cons, List.foldl_cons,
        digitValue_hexDigit upper (hdigits d List.mem_cons_self)]
      exact ih (fun d hd => hdigits d (List.mem_cons_of_mem _ hd)) _
  exact hfold 0

theorem printfHex_digits {width n : Nat} :
    ∀ d ∈ List.replicate (width - (hexDigits 8 n).length) 0 ++ hexDigits 8 n, d < 16 := by
  intro d hd
  rcases List.mem_append.1 hd with hd | hd
  · rw [List.eq_of_mem_replicate hd]
    omega
  · exact mem_hexDigits hd

theorem digitValue_printfHex {upper : Bool} {width n : Nat} {c : Byte}
    (hc : c ∈ printfHex upper width n) : digitValue c < 16 := by
  obtain ⟨d, hd, rfl⟩ := List.mem_map.1 hc
  have hlt := printfHex_digits d hd
  rw [digitValue_hexDigit upper hlt]
  exact hlt

theorem digitsValue_printfHex (upper : Bool) (width : Nat) {n : Nat} (hn : n < 2 ^ 32) :
    digitsValue 16 (printfHex upper width n) = n := by
  rw [printfHex, digitsValue_map_hexDigit upper printfHex_digits,
    ofDigits_replicate_append, ofDigits_hexDigits (lt_of_lt_of_le hn (by norm_num))]

theorem printfHex_ne_nil (upper : Bool) {width : Nat} (hwidth : 0 < width) (n : Nat) :
    printfHex upper width n ≠ [] := by
  intro hnil
  have hlen := congrArg List.length hnil
  simp only [printfHex, List.length_map, List.length_append, List.length_replicate, List.length_nil] at hlen
  omega

/-- `strtoul` with base 16 reads back what `0x%0<width>x` printed, up to the next character. -/
theorem strtoul_printfHex {bits : Nat} (hbits : 32 ≤ bits) (upper : Bool) {width n : Nat}
    (hwidth : 0 < width) (hn : n < 2 ^ 32) {c : Byte} (hc : 16 ≤ digitValue c) (rest : List Byte) :
    strtoul bits 16 (ofChars "0x" ++ printfHex upper width n ++ c :: rest) = n := by
  obtain ⟨d, ds, hcons⟩ := List.exists_cons_of_ne_nil (printfHex_ne_nil upper hwidth n)
  have hfirst : digitValue d < 16 := digitValue_printfHex (hcons ▸ List.mem_cons_self)
  have htake : (printfHex upper width n ++ c :: rest).takeWhile (fun c => decide (digitValue c < 16)) =
      printfHex upper width n := by
    rw [List.takeWhile_append_of_pos fun c hc => by simpa using digitValue_printfHex hc,
      List.takeWhile_cons_of_neg (by simpa using hc), List.append_nil]
  have htext : ofChars "0x" ++ printfHex upper width n ++ c :: rest =
      0x30 :: 0x78 :: (printfHex upper width n ++ c :: rest) := rfl
  have hspace : (ofChars "0x" ++ printfHex upper width n ++ c :: rest).dropWhile isSpace =
      0x30 :: 0x78 :: (printfHex upper width n ++ c :: rest) := by
    rw [htext, List.dropWhile_cons_of_neg (by decide)]
  have hdigit : (0x30 :: 0x78 :: (printfHex upper width n ++ c :: rest)).getD 2 0 = d := by
    rw [hcons]
    rfl
  have hlt : n < 2 ^ bits := lt_of_lt_of_le hn (Nat.pow_le_pow_right (by decide) hbits)
  unfold strtoul
  simp only [hspace, List.head?_cons, Option.some.injEq,
    show ¬ (0x30 : Byte) = 0x2D by decide, show ¬ (0x30 : Byte) = 0x2B by decide, or_self, if_false,
    hdigit, hfirst, List.getD_cons_zero, List.getD_cons_succ, and_true, or_true, true_or,
    if_true, List.drop_succ_cons, List.drop_zero, htake, digitsValue_printfHex upper width hn, hlt]

end Immwrt
