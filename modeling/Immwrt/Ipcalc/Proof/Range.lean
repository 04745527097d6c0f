import Immwrt.Ipcalc.Range
import Mathlib.Data.BitVec
import Mathlib.Data.List.TakeWhile

/-!
# The range that is printed

The address of the first host is computed from the host part of `START`. It is raised above the network, but nothing
lowers it below the broadcast address.
-/

namespace Immwrt.Ipcalc

variable {awk : Awk}

/-! ### Texts -/

theorem not_mem_decimal {c : Char} (hc : c.isDigit = false) (n : Nat) : c ∉ decimal n := by
  intro hmem
  have hdigit := Nat.isDigit_of_mem_toDigits (by decide) le_rfl hmem
  rw [hc] at hdigit
  cases hdigit

theorem not_mem_dotted {c : Char} (hc : c.isDigit = false) (hdot : c ≠ '.') (x : Nat) : c ∉ dotted x := by
  simp [dotted, not_mem_decimal hc, hdot]

theorem index_eq_zero {s : Text} {c : Char} (hc : c ∉ s) : index s c = 0 := if_neg hc

theorem split_dotted (x : Nat) : split (dotted x) '.' =
    [decimal (x / 2 ^ 24), decimal (x / 2 ^ 16 % 2 ^ 8), decimal (x / 2 ^ 8 % 2 ^ 8), decimal (x % 2 ^ 8)] := by
  have hdot : ∀ n, '.' ∉ decimal n := not_mem_decimal (by decide)
  have hne : dotted x ≠ [] := by simp [dotted]
  rw [split, if_neg hne, dotted]
  simp only [List.append_assoc, List.cons_append]
  rw [List.splitOn_append_cons_self_of_not_mem (hdot _), List.splitOn_append_cons_self_of_not_mem (hdot _),
    List.splitOn_append_cons_self_of_not_mem (hdot _), List.splitOn_eq_singleton (hdot _)]

/-! ### Bitwise functions -/

section Bitwise

variable (awk)

theorem and'_natCast {x y : Nat} (hx : x < 2 ^ 32) (hy : y < 2 ^ 32) : and' awk x y = (x &&& y : Nat) := by
  rw [and', awk.toUlong_natCast x hx, awk.toUlong_natCast y hy]

theorem or'_natCast {x y : Nat} (hx : x < 2 ^ 32) (hy : y < 2 ^ 32) : or' awk x y = (x ||| y : Nat) := by
  rw [or', awk.toUlong_natCast x hx, awk.toUlong_natCast y hy]

theorem xor'_natCast {x y : Nat} (hx : x < 2 ^ 32) (hy : y < 2 ^ 32) : xor' awk x y = (x ^^^ y : Nat) := by
  rw [xor', awk.toUlong_natCast x hx, awk.toUlong_natCast y hy]

theorem rshift_natCast {x y : Nat} (hx : x < 2 ^ 32) (hy : y < 2 ^ 32) : rshift awk x y = (x >>> y : Nat) := by
  rw [rshift, awk.toUlong_natCast x hx, awk.toUlong_natCast y hy]

theorem lshift_natCast {x : Nat} (hx : x < 2 ^ 24) : lshift awk x 8 = (2 ^ 8 * x : Nat) := by
  have hbits : 2 ^ 32 ≤ 2 ^ awk.ulongBits := Nat.pow_le_pow_right (by decide) awk.le_ulongBits
  have height : awk.toUlong 8 = 8 := awk.toUlong_natCast 8 (by decide)
  rw [lshift, awk.toUlong_natCast x (by omega), height, Nat.shiftLeft_eq, Nat.mod_eq_of_lt (by omega),
    Nat.mul_comm]

theorem compl32_natCast {v : Nat} (hv : v < 2 ^ 32) : compl32 awk v = (v ^^^ 0xffffffff : Nat) :=
  xor'_natCast awk hv (by decide)

/-- A byte behind a number. -/
theorem or'_lshift {x b : Nat} (hx : x < 2 ^ 24) (hb : b < 2 ^ 8) :
    or' awk (lshift awk x 8) b = (2 ^ 8 * x + b : Nat) := by
  rw [lshift_natCast awk hx, or'_natCast awk (by omega) (by omega), Nat.two_pow_add_eq_or_of_lt hb]

/-- `bitcount` of numbers below `2 ^ 32`. -/
def bitcountNat (c : Nat) : Nat :=
  let c := ((c >>> 1) &&& 0x55555555) + (c &&& 0x55555555)
  let c := ((c >>> 2) &&& 0x33333333) + (c &&& 0x33333333)
  let c := ((c >>> 4) &&& 0x0f0f0f0f) + (c &&& 0x0f0f0f0f)
  let c := ((c >>> 8) &&& 0x00ff00ff) + (c &&& 0x00ff00ff)
  ((c >>> 16) &&& 0x0000ffff) + (c &&& 0x0000ffff)

/-- One step of `bitcount`. -/
theorem bitcount_step {c k : Nat} (mask : Nat) (hc : c < 2 ^ 32) (hk : k < 2 ^ 32) (hmask : mask < 2 ^ 31) :
    and' awk (rshift awk c k) mask + and' awk c mask = (((c >>> k) &&& mask) + (c &&& mask) : Nat) ∧
      ((c >>> k) &&& mask) + (c &&& mask) < 2 ^ 32 := by
  have hshift : c >>> k < 2 ^ 32 := lt_of_le_of_lt (Nat.shiftRight_le c k) hc
  have hfirst : (c >>> k) &&& mask ≤ mask := Nat.and_le_right
  have hsecond : c &&& mask ≤ mask := Nat.and_le_right
  refine ⟨?_, by omega⟩
  rw [rshift_natCast awk hc hk, and'_natCast awk hshift (by omega), and'_natCast awk hc (by omega),
    Int.natCast_add]

theorem bitcount_natCast {c : Nat} (hc : c < 2 ^ 32) : bitcount awk c = bitcountNat c := by
  obtain ⟨h1, hlt1⟩ := bitcount_step awk 0x55555555 hc (k := 1) (by decide) (by decide)
  obtain ⟨h2, hlt2⟩ := bitcount_step awk 0x33333333 hlt1 (k := 2) (by decide) (by decide)
  obtain ⟨h3, hlt3⟩ := bitcount_step awk 0x0f0f0f0f hlt2 (k := 4) (by decide) (by decide)
  obtain ⟨h4, hlt4⟩ := bitcount_step awk 0x00ff00ff hlt3 (k := 8) (by decide) (by decide)
  obtain ⟨h5, -⟩ := bitcount_step awk 0x0000ffff hlt4 (k := 16) (by decide) (by decide)
  simp only [Nat.cast_ofNat, Nat.cast_one] at h1 h2 h3 h4 h5
  unfold bitcount bitcountNat
  simp only [h1, h2, h3, h4, h5]

end Bitwise

/-! ### Addresses -/

theorem ip2int_dotted {x : Nat} (hx : x < 2 ^ 32) : ip2int awk (dotted x) = x := by
  have hstart : or' awk (lshift awk 0 8) (x / 2 ^ 24 : Nat) = (x / 2 ^ 24 : Nat) := by
    have h := or'_lshift awk (x := 0) (b := x / 2 ^ 24) (by decide) (by omega)
    rw [Nat.mul_zero, Nat.zero_add] at h
    exact h
  rw [ip2int, split_dotted]
  simp only [List.foldl_cons, List.foldl_nil]
  rw [awk.strtod_decimal _ (by omega), awk.strtod_decimal _ (by omega), awk.strtod_decimal _ (by omega),
    awk.strtod_decimal _ (by omega), hstart, or'_lshift awk (by omega) (by omega),
    or'_lshift awk (by omega) (by omega), or'_lshift awk (by omega) (by omega)]
  congr 1
  omega

/-- A byte of an address, and what is left of it. -/
theorem and'_255 {x : Nat} (hx : x < 2 ^ 32) : (and' awk x 255).toNat = x % 2 ^ 8 := by
  have hmask := and'_natCast awk hx (y := 255) (by decide)
  rw [show (255 : Nat) = 2 ^ 8 - 1 from rfl, Nat.and_two_pow_sub_one_eq_mod] at hmask
  rw [show (255 : Int) = ((2 ^ 8 - 1 : Nat) : Int) from rfl, hmask, Int.toNat_natCast]

theorem rshift_8 {x : Nat} (hx : x < 2 ^ 32) : rshift awk x 8 = (x / 2 ^ 8 : Nat) := by
  have hshift := rshift_natCast awk hx (y := 8) (by decide)
  rw [Nat.shiftRight_eq_div_pow] at hshift
  exact hshift

theorem int2ip_natCast {x : Nat} (hx : x < 2 ^ 32) : int2ip awk x = dotted x := by
  have hthird : x / 2 ^ 8 / 2 ^ 8 = x / 2 ^ 16 := by omega
  have hfourth : x / 2 ^ 16 / 2 ^ 8 % 2 ^ 8 = x / 2 ^ 24 := by omega
  simp only [int2ip, int2ipLoop]
  rw [rshift_8 hx, rshift_8 (by omega), rshift_8 (by omega), and'_255 hx, and'_255 (by omega),
    and'_255 (by omega), and'_255 (by omega), hthird, hfourth, dotted]
  simp only [List.append_assoc, List.cons_append]

/-! ### Netmasks -/

/-- The bits that a prefix leaves to the hosts. -/
theorem compl32_pow2 {k : Nat} (hk : k ≤ 32) : compl32 awk (pow2 k) = (2 ^ 32 - 2 ^ k : Nat) := by
  have hpos := Nat.two_pow_pos k
  have hle : 2 ^ k ≤ 2 ^ 32 := Nat.pow_le_pow_right (by decide) hk
  have hpow : pow2 k = (2 ^ k - 1 : Nat) := by
    rw [pow2, Int.toNat_natCast, Nat.cast_sub hpos]
    norm_num
  have hxor : ∀ k, k ≤ 32 → (2 ^ k - 1) ^^^ 0xffffffff = 2 ^ 32 - 2 ^ k := by decide
  rw [hpow, compl32_natCast awk (by omega), hxor k hk]

theorem compl32_netmask {k : Nat} (hk : k ≤ 31) : compl32 awk (2 ^ 32 - 2 ^ k : Nat) = (2 ^ k - 1 : Nat) := by
  have hpos := Nat.two_pow_pos k
  have hxor : ∀ k, k ≤ 31 → (2 ^ 32 - 2 ^ k) ^^^ 0xffffffff = 2 ^ k - 1 := by decide
  rw [compl32_natCast awk (by omega), hxor k hk]

theorem bitcount_hosts {k : Nat} (hk : k ≤ 31) : bitcount awk (2 ^ k - 1 : Nat) = k := by
  have hle : 2 ^ k ≤ 2 ^ 31 := Nat.pow_le_pow_right (by decide) hk
  have hcount : ∀ k, k ≤ 31 → bitcountNat (2 ^ k - 1) = k := by decide
  rw [bitcount_natCast awk (by omega), hcount k hk]

theorem and_netmask {x k : Nat} (hx : x < 2 ^ 32) (hk : k ≤ 31) :
    x &&& (2 ^ 32 - 2 ^ k) = x / 2 ^ k * 2 ^ k := by
  have hmask : 2 ^ 32 - 2 ^ k = (2 ^ (32 - k) - 1) * 2 ^ k := by
    rw [Nat.sub_mul, Nat.one_mul, ← Nat.pow_add, Nat.sub_add_cancel (by omega)]
  apply Nat.eq_of_testBit_eq
  intro i
  rw [hmask, Nat.testBit_and, Nat.testBit_mul_two_pow, Nat.testBit_mul_two_pow, Nat.testBit_two_pow_sub_one,
    Nat.testBit_div_two_pow]
  by_cases hki : k ≤ i
  · rw [Nat.sub_add_cancel hki]
    by_cases hi : i < 32
    · simp [hki, show i - k < 32 - k by omega]
    · have hhigh : x.testBit i = false :=
        Nat.testBit_lt_two_pow (lt_of_lt_of_le hx (Nat.pow_le_pow_right (by decide) (by omega)))
      simp [hhigh]
  · simp [hki]

theorem or_hosts {q h k : Nat} (hh : h < 2 ^ k) : q * 2 ^ k ||| h = q * 2 ^ k + h := by
  rw [Nat.mul_comm, Nat.two_pow_add_eq_or_of_lt hh]

/-! ### The script -/

section Script

variable {ip n : Nat} {start num : Text}

theorem netmaskOf_lt (n : Nat) : netmaskOf n < 2 ^ 32 := by
  have := Nat.two_pow_pos (32 - n)
  rw [netmaskOf]
  omega

theorem parse_argv (hip : ip < 2 ^ 32) (hn : n ≤ 32) (style : Style) :
    parse awk (style.argv ip n start num) = ⟨ip, netmaskOf n, start, num⟩ := by
  have hslash : '/' ∉ dotted ip := not_mem_dotted (by decide) (by decide) ip
  have hmask : compl32 awk (pow2 (32 - (n : Int))) = (netmaskOf n : Nat) := by
    rw [show (32 - (n : Int)) = ((32 - n : Nat) : Int) by omega, compl32_pow2 (by omega), netmaskOf]
  have hnumber : awk.strtod (decimal n) = n := awk.strtod_decimal n (by omega)
  cases style with
  | slash =>
      have hmem : '/' ∈ dotted ip ++ '/' :: decimal n := by simp
      have hindex : index (dotted ip ++ '/' :: decimal n) '/' = (dotted ip).length + 1 := by
        rw [index, if_pos hmem, List.idxOf_append_of_notMem hslash, List.idxOf_cons_self, Nat.add_zero]
      have hdrop : (dotted ip ++ '/' :: decimal n).drop ((dotted ip).length + 1) = decimal n := by
        rw [← List.drop_drop, List.drop_left]
        rfl
      simp only [parse, Style.argv, Nat.sub_self, List.getD_cons_zero, List.getD_cons_succ, hindex,
        Nat.add_one_ne_zero, if_false, Nat.add_sub_cancel, List.take_left, hdrop, hnumber, hmask,
        ip2int_dotted hip, Nat.reduceSub]
  | number =>
      have hdot : index (decimal n) '.' = 0 := index_eq_zero (not_mem_decimal (by decide) n)
      simp only [parse, Style.argv, Nat.sub_self, List.getD_cons_zero, List.getD_cons_succ,
        index_eq_zero hslash, if_true, hdot, hnumber, hmask, ip2int_dotted hip, Nat.reduceSub]
  | netmask =>
      have hdot : index (dotted (netmaskOf n)) '.' ≠ 0 := by
        rw [index, if_pos (by simp [dotted])]
        exact Nat.succ_ne_zero _
      simp only [parse, Style.argv, Nat.sub_self, List.getD_cons_zero, List.getD_cons_succ,
        index_eq_zero hslash, if_true, hdot, if_false, ip2int_dotted hip, ip2int_dotted (netmaskOf_lt n),
        Nat.reduceSub]

/-- The part of `START` behind the prefix. -/
def hostPart (awk : Awk) (n : Nat) (start : Text) : Nat := awk.toUlong (ip2int awk start) % 2 ^ (32 - n)

def firstOf (awk : Awk) (ip n : Nat) (start : Text) : Nat := networkOf ip n + max (hostPart awk n start) 1

def lastOf (awk : Awk) (ip n : Nat) (start num : Text) : Nat :=
  min (firstOf awk ip n start + (awk.strtod num).toNat) (broadcastOf ip n - 1)

theorem broadcastOf_lt (hip : ip < 2 ^ 32) (hn : n ≤ 32) : broadcastOf ip n < 2 ^ 32 := by
  have hpos := Nat.two_pow_pos (32 - n)
  have hsplit : 2 ^ n * 2 ^ (32 - n) = 2 ^ 32 := by rw [← Nat.pow_add, Nat.add_sub_cancel' hn]
  have hdiv : ip / 2 ^ (32 - n) < 2 ^ n := by
    rw [Nat.div_lt_iff_lt_mul hpos, hsplit]
    exact hip
  have hnext : (ip / 2 ^ (32 - n) + 1) * 2 ^ (32 - n) ≤ 2 ^ n * 2 ^ (32 - n) := Nat.mul_le_mul_right _ hdiv
  rw [Nat.add_mul, hsplit] at hnext
  rw [broadcastOf, networkOf]
  omega

theorem hostPart_lt (awk : Awk) (n : Nat) (start : Text) : hostPart awk n start < 2 ^ (32 - n) :=
  Nat.mod_lt _ (Nat.two_pow_pos _)

/-- The lines that are printed, whatever the range. -/
theorem ipcalc_argv (hip : ip < 2 ^ 32) (hn : 1 ≤ n) (hn' : n ≤ 30) (hnum : 0 ≤ awk.strtod num)
    (style : Style) : ipcalc awk (style.argv ip n start num) =
      report ip n (firstOf awk ip n start) (lastOf awk ip n start num) := by
  have hhosts : 2 ^ 2 ≤ 2 ^ (32 - n) := Nat.pow_le_pow_right (by decide) (by omega)
  have hhosts' : 2 ^ (32 - n) ≤ 2 ^ 31 := Nat.pow_le_pow_right (by decide) (by omega)
  have hbroadcast := broadcastOf_lt hip (n := n) (by omega)
  have hnetworkLt : networkOf ip n < 2 ^ 32 := lt_of_le_of_lt (Nat.le_add_right _ _) hbroadcast
  have hpart := hostPart_lt awk n start
  have hcompl : compl32 awk (netmaskOf n) = (2 ^ (32 - n) - 1 : Nat) := compl32_netmask (by omega)
  have hnetwork : and' awk ip (netmaskOf n) = networkOf ip n := by
    rw [and'_natCast awk hip (netmaskOf_lt n), netmaskOf, and_netmask hip (by omega), networkOf]
  have horHosts : ∀ h : Nat, h < 2 ^ (32 - n) → or' awk (networkOf ip n) h = (networkOf ip n + h : Nat) := by
    intro h hh
    rw [or'_natCast awk hnetworkLt (by omega), networkOf, or_hosts hh]
  have hstart : and' awk (ip2int awk start) (2 ^ (32 - n) - 1 : Nat) = hostPart awk n start := by
    rw [and', awk.toUlong_natCast _ (by omega), Nat.and_two_pow_sub_one_eq_mod, hostPart]
  have hfirst : max ((networkOf ip n + hostPart awk n start : Nat) : Int) (networkOf ip n + 1) =
      firstOf awk ip n start := by
    rw [firstOf]
    omega
  have hlast : min ((firstOf awk ip n start : Int) + awk.strtod num)
      ((networkOf ip n + (2 ^ (32 - n) - 1) : Nat) - 1) = lastOf awk ip n start num := by
    rw [lastOf, broadcastOf]
    omega
  have hfirstLt : firstOf awk ip n start < 2 ^ 32 := by
    rw [broadcastOf] at hbroadcast
    rw [firstOf]
    omega
  have hlastLt : lastOf awk ip n start num < 2 ^ 32 := by
    rw [lastOf]
    omega
  have hprefix : (32 - ((32 - n : Nat) : Int)).toNat = n := by omega
  have hlen : 2 < (style.argv ip n start num).length := by cases style <;> simp [Style.argv]
  rw [ipcalc, parse_argv hip (by omega), if_pos hlen]
  simp only [hcompl, hnetwork, hstart, horHosts _ hpart, horHosts (2 ^ (32 - n) - 1) (by omega), hfirst, hlast,
    bitcount_hosts (show 32 - n ≤ 31 by omega), hprefix]
  rw [int2ip_natCast hip, int2ip_natCast (netmaskOf_lt n), int2ip_natCast hnetworkLt,
    int2ip_natCast (x := networkOf ip n + (2 ^ (32 - n) - 1)) hbroadcast, int2ip_natCast hfirstLt,
    int2ip_natCast hlastLt]
  rfl

theorem dotted_injOn (awk : Awk) {x y : Nat} (hx : x < 2 ^ 32) (hy : y < 2 ^ 32) (h : dotted x = dotted y) :
    x = y := by
  have hint : (x : Int) = y :=
    calc (x : Int) = ip2int awk (dotted x) := (ip2int_dotted hx).symm
      _ = ip2int awk (dotted y) := by rw [h]
      _ = y := ip2int_dotted hy
  exact Int.ofNat.inj hint

theorem Right.hostPart_ne (hip : ip < 2 ^ 32) (hn : 1 ≤ n) (hn' : n ≤ 30) (hnum : 0 ≤ awk.strtod num)
    (h : Right awk ip n start num) : hostPart awk n start ≠ 2 ^ (32 - n) - 1 := by
  intro hones
  obtain ⟨first, last, hall, -, hle, hlast⟩ := h
  have hhosts : 2 ^ 2 ≤ 2 ^ (32 - n) := Nat.pow_le_pow_right (by decide) (by omega)
  have hbroadcast := broadcastOf_lt hip (n := n) (by omega)
  have hreport := (ipcalc_argv hip hn hn' hnum .slash).symm.trans (hall .slash)
  have hdotted : dotted (firstOf awk ip n start) = dotted first := by
    simp only [report, List.cons.injEq, List.append_cancel_left_eq, true_and] at hreport
    exact hreport.1
  have hfirst : firstOf awk ip n start = broadcastOf ip n := by
    rw [firstOf, hones, broadcastOf]
    omega
  rw [hfirst] at hdotted
  have := dotted_injOn awk hbroadcast (by omega) hdotted
  omega

/-- What is printed is right exactly when the host part of `START` has a bit that is 0. -/
theorem ipcalc_right_iff (awk : Awk) {ip n : Nat} {start num : Text} (hip : ip < 2 ^ 32) (hn : 1 ≤ n)
    (hn' : n ≤ 30) (hnum : 0 ≤ awk.strtod num) :
    Right awk ip n start num ↔ hostPart awk n start ≠ 2 ^ (32 - n) - 1 := by
  refine ⟨Right.hostPart_ne hip hn hn' hnum, fun hones => ?_⟩
  have hhosts : 2 ^ 2 ≤ 2 ^ (32 - n) := Nat.pow_le_pow_right (by decide) (by omega)
  have hpart := hostPart_lt awk n start
  refine ⟨firstOf awk ip n start, lastOf awk ip n start num, ipcalc_argv hip hn hn' hnum, ?_, ?_, ?_⟩
  · rw [firstOf]
    omega
  · rw [lastOf, firstOf, broadcastOf]
    omega
  · rw [lastOf, broadcastOf]
    omega

end Script

/-- An `awk` on a machine of 64 bits, which takes the digits at the start of a text for its number. -/
def digitsAwk : Awk where
  strtod text := Nat.ofDigitChars 10 (text.takeWhile Char.isDigit) 0
  toUlong := Int.toNat
  ulongBits := 64
  strtod_decimal n _ := by
    have hdigits : (decimal n).takeWhile Char.isDigit = decimal n :=
      List.takeWhile_eq_self_iff.2 fun c hc => Nat.isDigit_of_mem_toDigits (by decide) le_rfl hc
    rw [hdigits, decimal, Nat.ofDigitChars_ten_toDigits]
  toUlong_natCast n _ := Int.toNat_natCast n
  le_ulongBits := by decide

/-- `ipcalc.sh 192.168.1.1/24 100 150` -/
theorem ipcalc_right_100 : Right digitsAwk 0xc0a80101 24 "100".toList "150".toList :=
  (ipcalc_right_iff digitsAwk (by decide) (by decide) (by decide) (by decide)).mpr (by decide)

/-- `ipcalc.sh 192.168.1.1/24 255 10` starts at the broadcast address and ends before it. -/
theorem ipcalc_not_right_255 : ¬ Right digitsAwk 0xc0a80101 24 "255".toList "10".toList := fun h =>
  h.hostPart_ne (by decide) (by decide) (by decide) (by decide) (by decide)

end Immwrt.Ipcalc
