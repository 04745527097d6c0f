import Mathlib.Tactic

/-!
# MAP rules

`mapcalc` turns a MAP rule into an address and a set of ports. A rule shares one IPv4 address among
`2 ^ psidlen` customers: the port set ID of a customer is the `psidlen` bits of a port that follow its
first `offset` bits.
-/

namespace Immwrt.Mapcalc

/-- The 16-bit port set ID with everything but its first `psidlen` bits cleared. -/
def alignPsid (psidlen psid : Nat) : Nat :=
  if psidlen > 0 then (psid >>> (16 - psidlen)) <<< (16 - psidlen) else psid

/-- Turn `k` of the port set loop: the first and the last port of a range, if it is printed. -/
def portRange (offset psidlen psid k : Nat) : Option (Nat × Nat) :=
  let start := (k <<< (16 - offset)) ||| (psid >>> offset)
  let stop := start + (1 <<< (16 - offset - psidlen)) - 1
  let start := if start = 0 then 1 else start
  if start ≤ stop then some (start, stop) else none

/-- The ranges of `RULE_n_PORTSETS`, for a 16-bit port set ID as it was read. -/
def portSets (offset psidlen psid : Nat) : List (Nat × Nat) :=
  let first := if offset = 0 then 0 else 1
  (List.range' first ((1 <<< offset) - first)).filterMap
    (portRange offset psidlen (alignPsid psidlen psid))

/-- A port is in one of the ranges. -/
def InPortSets (sets : List (Nat × Nat)) (port : Nat) : Prop :=
  ∃ range ∈ sets, range.1 ≤ port ∧ port ≤ range.2

end Immwrt.Mapcalc
