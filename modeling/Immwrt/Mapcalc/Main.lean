import Immwrt.Mapcalc.Match
import Immwrt.Mapcalc.Rule

/-!
# Processing a rule

A rule is a string of options. What the options leave open is derived from the others and from the
delegated prefix: the number of EA bits, the number of PSID bits, and then the addresses and the port set.
-/

namespace Immwrt.Mapcalc

open Traced

/-! ### Options -/

inductive Opt where
  | type
  | fmr
  | ealen
  | prefix4len
  | prefix6len
  | ipv6Prefix
  | ipv4Prefix
  | offset
  | psidlen
  | psid
  | br
  | dmr
  | pd
  | pdlen
  deriving DecidableEq

/-- `token` -/
def token : List (Opt × List Byte) := [
  (.type, ofChars "type"), (.fmr, ofChars "fmr"), (.ealen, ofChars "ealen"),
  (.prefix4len, ofChars "prefix4len"), (.prefix6len, ofChars "prefix6len"),
  (.ipv6Prefix, ofChars "ipv6prefix"), (.ipv4Prefix, ofChars "ipv4prefix"), (.offset, ofChars "offset"),
  (.psidlen, ofChars "psidlen"), (.psid, ofChars "psid"), (.br, ofChars "br"), (.dmr, ofChars "dmr"),
  (.pd, ofChars "pd"), (.pdlen, ofChars "pdlen")]

/-- The text up to the next comma. -/
def subopt (text : List Byte) : List Byte := text.takeWhile (· ≠ 0x2C)

/-- `getsubopt`: the option and its value, and the text behind the next comma. An option that is not in the
table is `none`. -/
def getsubopt (text : List Byte) : Option Opt × Option (List Byte) × List Byte :=
  let name := (subopt text).takeWhile (· ≠ 0x3D)
  let value :=
    if name.length < (subopt text).length then some ((subopt text).drop (name.length + 1)) else none
  let rest := text.drop ((subopt text).length + 1)
  match token.find? fun entry => entry.2 = name with
  | some entry => (some entry.1, value, rest)
  | none => (none, some (subopt text), rest)

theorem getsubopt_rest (text : List Byte) :
    (getsubopt text).2.2 = text.drop ((subopt text).length + 1) := by
  unfold getsubopt
  dsimp only
  split <;> rfl

structure Rule where
  lw4o6 : Bool
  fmr : Bool
  ealen : Int
  prefix4len : Int
  prefix6len : Int
  pdlen : Int
  ipv4Prefix : Octets
  ipv6Prefix : Octets
  pd : Octets
  offset : Int
  psidlen : Int
  psid : Int
  dmr : Option (List Byte)
  br : Option (List Byte)

def Rule.initial : Rule where
  lw4o6 := false
  fmr := false
  ealen := -1
  prefix4len := 32
  prefix6len := -1
  pdlen := -1
  ipv4Prefix := addrAny
  ipv6Prefix := addrAny
  pd := addrAny
  offset := -1
  psidlen := -1
  psid := -1
  dmr := none
  br := none

/-- `(intval = strtoul(value, NULL, 0)) <= max && !errno`; `none` is a null pointer read. -/
def intOption (host : Host) (value : Option (List Byte)) (max : Int) : Option (Option Int) :=
  value.map fun text => ((host.strtoul text).map BitVec.toInt).filter fun intval => decide (intval ≤ max)

/-- Take an option; an invalid one leaves the rule as it is. -/
def Rule.option (host : Host) (rule : Rule) : Option Opt → Option (List Byte) → Option Rule
  | some .type, value => some { rule with lw4o6 := value = some (ofChars "lw4o6") }
  | some .fmr, _ => some { rule with fmr := true }
  | some .ealen, value =>
    (intOption host value 48).map fun intval => { rule with ealen := intval.getD rule.ealen }
  | some .prefix4len, value =>
    (intOption host value 32).map fun intval => { rule with prefix4len := intval.getD rule.prefix4len }
  | some .prefix6len, value =>
    (intOption host value 128).map fun intval => { rule with prefix6len := intval.getD rule.prefix6len }
  | some .ipv4Prefix, value =>
    value.map fun text => { rule with ipv4Prefix := (host.inetPton4 text).getD rule.ipv4Prefix }
  | some .ipv6Prefix, value =>
    value.map fun text => { rule with ipv6Prefix := (host.inetPton6 text).getD rule.ipv6Prefix }
  | some .pd, value => value.map fun text => { rule with pd := (host.inetPton6 text).getD rule.pd }
  | some .offset, value =>
    (intOption host value 16).map fun intval => { rule with offset := intval.getD rule.offset }
  | some .psidlen, value =>
    (intOption host value 16).map fun intval => { rule with psidlen := intval.getD rule.psidlen }
  | some .pdlen, value =>
    (intOption host value 128).map fun intval => { rule with pdlen := intval.getD rule.pdlen }
  | some .psid, value =>
    (intOption host value 65535).map fun intval => { rule with psid := intval.getD rule.psid }
  | some .dmr, value => some { rule with dmr := value }
  | some .br, value => some { rule with br := value }
  | none, _ => some rule

/-- The loop over the options of a rule. -/
def parseOptions (host : Host) (rule : Rule) (text : List Byte) : Option Rule :=
  if text = [] then some rule
  else
    match rule.option host (getsubopt text).1 (getsubopt text).2.1 with
    | none => none
    | some rule => parseOptions host rule (getsubopt text).2.2
termination_by text.length
decreasing_by
  have := List.length_pos_of_ne_nil (by assumption : ¬ text = [])
  rw [getsubopt_rest, List.length_drop]
  omega

/-- The rule of an argument; `none` is a null pointer read. -/
def parseRule (host : Host) (arg : List Byte) : Option Rule := parseOptions host .initial arg

/-! ### Lengths -/

/-- The lengths of a rule, once the ones that it leaves open are derived. -/
structure Lengths where
  ealen : Int
  prefix4len : Int
  prefix6len : Int
  offset : Int
  psidlen : Int
  psid : Int

/-- The lengths for a delegated prefix of length `pdlen`, which is negative when there is none. -/
def Rule.lengths (legacy : Bool) (rule : Rule) (pdlen : Int) : Lengths :=
  let offset :=
    if rule.offset < 0 then if rule.lw4o6 then 0 else if legacy then 4 else 6 else rule.offset
  -- LW4over6 doesn't have an EALEN and has no psid-autodetect
  let psidlen := if rule.lw4o6 ∧ rule.psidlen < 0 then 0 else rule.psidlen
  let ealen := if rule.lw4o6 then psidlen else rule.ealen
  let ealen := if ealen < 0 ∧ pdlen ≥ 0 then pdlen - rule.prefix6len else ealen
  { ealen := ealen
    prefix4len := rule.prefix4len
    prefix6len := rule.prefix6len
    offset := offset
    psidlen := if psidlen ≤ 0 then max 0 (ealen - (32 - rule.prefix4len)) else psidlen
    psid := if psidlen ≤ 0 then -1 else rule.psid }

/-- The rule is skipped as invalid or incomplete. -/
def Lengths.Invalid (l : Lengths) : Prop :=
  l.prefix4len < 0 ∨ l.prefix6len < 0 ∨ l.ealen < 0 ∨ l.psidlen > 16 ∨ l.ealen < l.psidlen

instance (l : Lengths) : Decidable l.Invalid := by
  unfold Lengths.Invalid
  infer_instance

/-! ### Addresses and ports -/

/-- `ntohl(addr) >> count`, back in network order. -/
def shiftAddr (host : Host) (addr : Octets) (count : Int) : Traced Access Octets := do
  shift count
  let value := beNat addr inAddrSize
  pure (natOctets (if count < 32 then value >>> count.toNat else host.shr32 value) inAddrSize)

/-- The port set loop; the counts are those of its bounds and of each turn. -/
def portLoop (offset psidlen psid : Int) : Traced Access (List (Nat × Nat)) := do
  shift offset
  let first := if offset = 0 then 0 else 1
  let turns := List.range' first ((1 <<< offset.toNat) - first)
  turns.forM fun _ => do
    shift (16 - offset)
    shift offset
    shift (16 - offset - psidlen)
  pure (turns.filterMap (portRange offset.toNat psidlen.toNat psid.toNat))

/-- What is printed of a rule. -/
structure Printed where
  fmr : Bool
  lengths : Lengths
  ipv4Prefix : Octets
  ipv6Prefix : Octets
  /-- The delegated prefix, its length, the interface it is from and the IPv6 address. -/
  bmr : Option (Octets × Int × List Byte × Octets)
  /-- The IPv4 address and its length, if it is not zero. -/
  ipv4addr : Option (Octets × Int)
  portsets : Option (List (Nat × Nat))
  dmr : Option (List Byte)
  br : Option (List Byte)

inductive Outcome where
  /-- Skipping invalid or incomplete rule -/
  | invalid
  /-- Skipping non-FMR without matching PD -/
  | noPd
  | rule (printed : Printed)

/-- The PSID in network order, and as a number with its first bits at the top of 16 bits. -/
def psidOf (l : Lengths) (pdlen : Int) (pd : Octets) : Traced Access (Octets × Int) := do
  let (psid16, psid) ←
    if l.psid < 0 ∧ l.psidlen ≥ 0 ∧ pdlen ≥ 0 then do
      let psid16 ← bmemcpys64 2 in6AddrSize addrAny pd (toSize (l.prefix6len + l.ealen - l.psidlen))
        (toSize l.psidlen)
      pure (psid16, (beNat psid16 2 : Int))
    else pure (addrAny, l.psid)
  if l.psidlen > 0 then do
    shift (16 - l.psidlen)
    let psid := psid >>> (16 - l.psidlen).toNat
    shift (16 - l.psidlen)
    pure (natOctets (psid % 2 ^ 16).toNat 2, psid * 2 ^ (16 - l.psidlen).toNat)
  else pure (psid16, psid)

/-- The IPv4 address and its length. -/
def ipv4Of (host : Host) (l : Lengths) (ipv4Prefix : Octets) (pdlen : Int) (pd : Octets) :
    Traced Access (Octets × Int) :=
  if pdlen ≥ 0 ∨ l.ealen = l.psidlen then do
    let ipv4addr ← bmemcpys64 inAddrSize in6AddrSize addrAny pd (toSize l.prefix6len)
      (toSize (l.ealen - l.psidlen))
    let ipv4addr ← shiftAddr host ipv4addr l.prefix4len
    let ipv4addr ← bmemcpy inAddrSize inAddrSize ipv4addr ipv4Prefix (toSize l.prefix4len)
    pure (ipv4addr, if l.prefix4len + l.ealen < 32 then l.prefix4len + l.ealen else 32)
  else pure (addrAny, 32)

/-- The IPv6 address. -/
def ipv6Of (legacy : Bool) (pdlen : Int) (pd ipv4addr psid16 : Octets) : Traced Access Octets := do
  let v4offset := if legacy then 9 else 10
  touch in6AddrSize v4offset 4
  touch inAddrSize 0 4
  touch in6AddrSize (v4offset + 4) 2
  touch 2 0 2
  let ipv6addr : Octets := fun x =>
    if v4offset + 4 ≤ x ∧ x < v4offset + 6 then psid16 (x - (v4offset + 4))
    else if v4offset ≤ x ∧ x < v4offset + 4 then ipv4addr (x - v4offset)
    else addrAny x
  bmemcpy in6AddrSize in6AddrSize ipv6addr pd (toSize pdlen)

/-- Find PD: the length of the delegated prefix, the prefix and its interface. `arg` is the interface that
`mapcalc` was called for, and `iface` the one of the rule before. -/
def findPd (host : Host) (arg iface : List Byte) (dump : List IfaceAttrs) (rule : Rule) :
    Traced Access (Int × Octets × List Byte) :=
  if rule.pdlen < 0 then
    findPdLoop host rule.ipv6Prefix rule.prefix6len rule.lw4o6 arg iface rule.pdlen rule.pd dump
  else pure (rule.pdlen, rule.pd, iface)

/-- The part of `main` that handles a rule whose options are parsed. -/
def processRule (host : Host) (legacy : Bool) (arg iface : List Byte) (dump : List IfaceAttrs)
    (rule : Rule) : Traced Access Outcome := do
  let (pdlen, pd, iface) ← findPd host arg iface dump rule
  let l := rule.lengths legacy pdlen
  if l.Invalid then pure .invalid
  else
    let (psid16, psid) ← psidOf l pdlen pd
    let (ipv4addr, addr4len) ← ipv4Of host l rule.ipv4Prefix pdlen pd
    if pdlen < 0 ∧ !rule.fmr then pure .noPd
    else
      let bmr ←
        if pdlen ≥ 0 then do
          let ipv6addr ← ipv6Of legacy pdlen pd ipv4addr psid16
          pure (some (pd, pdlen, iface, ipv6addr))
        else pure none
      let portsets ←
        if l.psidlen > 0 ∧ psid ≥ 0 then do
          let sets ← portLoop l.offset l.psidlen psid
          pure (some sets)
        else pure none
      pure (.rule {
        fmr := rule.fmr
        lengths := l
        ipv4Prefix := rule.ipv4Prefix
        ipv6Prefix := rule.ipv6Prefix
        bmr := bmr
        ipv4addr := if beNat ipv4addr inAddrSize = 0 then none else some (ipv4addr, addr4len)
        portsets := portsets
        dmr := rule.dmr
        br := rule.br })

end Immwrt.Mapcalc
