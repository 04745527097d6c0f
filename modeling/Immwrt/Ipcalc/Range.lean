import Mathlib.Data.List.Basic
import Mathlib.Tactic

/-!
# Addresses and DHCP ranges

`ipcalc.sh` is a script for the `awk` of BusyBox. A number of `awk` is a `double`; those of the script are integers
that it holds exactly. What `awk` makes of other texts and of numbers that an `unsigned long` does not hold is a
parameter.
-/

namespace Immwrt.Ipcalc

abbrev Text := List Char

/-- A number as `print` writes it. -/
def decimal (n : Nat) : Text := Nat.toDigits 10 n

/-- How `awk` turns texts into numbers, and numbers into the operands of its bitwise functions. -/
structure Awk where
  strtod : Text → Int
  toUlong : Int → Nat
  ulongBits : Nat
  strtod_decimal : ∀ n : Nat, n < 2 ^ 32 → strtod (decimal n) = n
  toUlong_natCast : ∀ n : Nat, n < 2 ^ 32 → toUlong n = n
  le_ulongBits : 32 ≤ ulongBits

/-- `index` of a character: its place from 1 on, or 0. -/
def index (s : Text) (c : Char) : Nat := if c ∈ s then s.idxOf c + 1 else 0

/-- `split`, where a text that is empty has no pieces. -/
def split (s : Text) (sep : Char) : List Text := if s = [] then [] else s.splitOn sep

section Script

variable (awk : Awk)

def and' (x y : Int) : Int := (awk.toUlong x &&& awk.toUlong y : Nat)

def or' (x y : Int) : Int := (awk.toUlong x ||| awk.toUlong y : Nat)

def xor' (x y : Int) : Int := (awk.toUlong x ^^^ awk.toUlong y : Nat)

def lshift (x y : Int) : Int := (awk.toUlong x <<< awk.toUlong y % 2 ^ awk.ulongBits : Nat)

def rshift (x y : Int) : Int := (awk.toUlong x >>> awk.toUlong y : Nat)

def bitcount (c : Int) : Int :=
  let c := and' awk (rshift awk c 1) 0x55555555 + and' awk c 0x55555555
  let c := and' awk (rshift awk c 2) 0x33333333 + and' awk c 0x33333333
  let c := and' awk (rshift awk c 4) 0x0f0f0f0f + and' awk c 0x0f0f0f0f
  let c := and' awk (rshift awk c 8) 0x00ff00ff + and' awk c 0x00ff00ff
  and' awk (rshift awk c 16) 0x0000ffff + and' awk c 0x0000ffff

def ip2int (ip : Text) : Int :=
  (split ip '.').foldl (fun ret a => or' awk (lshift awk ret 8) (awk.strtod a)) 0

/-- The loop of `int2ip`, `n` turns before its end. -/
def int2ipLoop : Nat → Int → Text → Text
  | 0, _, ret => ret
  | n + 1, ip, ret =>
    int2ipLoop n (rshift awk ip 8) (decimal (and' awk ip 255).toNat ++ '.' :: ret)

def int2ip (ip : Int) : Text := int2ipLoop awk 3 (rshift awk ip 8) (decimal (and' awk ip 255).toNat)

def compl32 (v : Int) : Int := xor' awk v 0xffffffff

/-- `2**k-1`; for a negative `k` it is a fraction above -1, which is 0 for the bitwise functions. -/
def pow2 (k : Int) : Int := 2 ^ k.toNat - 1

/-- What the first arguments say: the address, the netmask and the two arguments behind them. -/
structure Parsed where
  ipaddr : Int
  netmask : Int
  start : Text
  num : Text

/-- The first part of `BEGIN`. `substr(s, 0, n)` is the first `n` characters of `s`. -/
def parse (argv : List Text) : Parsed :=
  let arg := fun i => argv.getD (i - 1) []
  let slpos := index (arg 1) '/'
  if slpos = 0 then
    { ipaddr := ip2int awk (arg 1)
      netmask :=
        if index (arg 2) '.' = 0 then compl32 awk (pow2 (32 - awk.strtod (arg 2))) else ip2int awk (arg 2)
      start := arg 3
      num := arg 4 }
  else
    { ipaddr := ip2int awk ((arg 1).take (slpos - 1))
      netmask := compl32 awk (pow2 (32 - awk.strtod ((arg 1).drop slpos)))
      start := arg 2
      num := arg 3 }

/-- The lines that `ipcalc.sh` prints for its arguments. -/
def ipcalc (argv : List Text) : List Text :=
  let args := parse awk argv
  let network := and' awk args.ipaddr args.netmask
  let broadcast := or' awk network (compl32 awk args.netmask)
  let start := or' awk network (and' awk (ip2int awk args.start) (compl32 awk args.netmask))
  let start := max start (network + 1)
  let limit := or' awk network (compl32 awk args.netmask) - 1
  let end' := min (start + awk.strtod args.num) limit
  ["IP=".toList ++ int2ip awk args.ipaddr, "NETMASK=".toList ++ int2ip awk args.netmask,
    "BROADCAST=".toList ++ int2ip awk broadcast, "NETWORK=".toList ++ int2ip awk network,
    "PREFIX=".toList ++ decimal (32 - bitcount awk (compl32 awk args.netmask)).toNat] ++
  if 2 < argv.length then ["START=".toList ++ int2ip awk start, "END=".toList ++ int2ip awk end'] else []

end Script

/-! ### What is to be printed -/

/-- An address as four numbers. -/
def dotted (x : Nat) : Text :=
  decimal (x / 2 ^ 24) ++ '.' :: decimal (x / 2 ^ 16 % 2 ^ 8) ++ '.' :: decimal (x / 2 ^ 8 % 2 ^ 8) ++
    '.' :: decimal (x % 2 ^ 8)

/-- The ways to write a prefix. -/
inductive Style where
  | slash
  | number
  | netmask

def netmaskOf (n : Nat) : Nat := 2 ^ 32 - 2 ^ (32 - n)

def networkOf (ip n : Nat) : Nat := ip / 2 ^ (32 - n) * 2 ^ (32 - n)

def broadcastOf (ip n : Nat) : Nat := networkOf ip n + (2 ^ (32 - n) - 1)

def Style.argv (ip n : Nat) (start num : Text) : Style → List Text
  | .slash => [dotted ip ++ '/' :: decimal n, start, num]
  | .number => [dotted ip, decimal n, start, num]
  | .netmask => [dotted ip, dotted (netmaskOf n), start, num]

/-- The lines for an address with a prefix and a range. -/
def report (ip n first last : Nat) : List Text :=
  ["IP=".toList ++ dotted ip, "NETMASK=".toList ++ dotted (netmaskOf n),
    "BROADCAST=".toList ++ dotted (broadcastOf ip n), "NETWORK=".toList ++ dotted (networkOf ip n),
    "PREFIX=".toList ++ decimal n, "START=".toList ++ dotted first, "END=".toList ++ dotted last]

/-- The script prints the right network, however the prefix is written, with a range of hosts in it. -/
def Right (awk : Awk) (ip n : Nat) (start num : Text) : Prop :=
  ∃ first last, (∀ style : Style, ipcalc awk (style.argv ip n start num) = report ip n first last) ∧
    networkOf ip n < first ∧ first ≤ last ∧ last < broadcastOf ip n

end Immwrt.Ipcalc
