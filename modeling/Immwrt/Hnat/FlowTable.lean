import Immwrt.Lib.Bytes
import Immwrt.Lib.Traced
import Mathlib.Logic.Function.Basic

/-!
# The flow tables of the HNAT

Each PPE gets a flow table of its own, but the number of entries is one field of the driver. An allocation that
fails halves it and is tried again. What the driver does with the tables is kept as a trace: the searches for a
size, the entries that are touched and the memory that is freed.
-/

namespace Immwrt.Hnat.FlowTable

/-- The configuration of a driver: the size of the tables, which depends on the SoC, and what the device tree
and the module parameter say. -/
structure Chip where
  netsysRxV2 : Bool
  version1 : Bool
  perFlowAccounting : Bool
  ppeNum : Nat
  sizeofFoeEntry : Nat
  sizeofMibEntry : Nat
  foeEntryPos : 0 < sizeofFoeEntry

def Chip.defEtryNum (chip : Chip) : Nat := if chip.netsysRxV2 then 32768 else 16384

/-- `DEF_ETRY_NUM_CFG`: `TABLE_32K` or `TABLE_16K`, where `TABLE_1K` is 0. -/
def Chip.defEtryNumCfg (chip : Chip) : Nat := if chip.netsysRxV2 then 5 else 4

/-- The outcomes of the allocations for a PPE: of the tries for its flow table, of its MIB table and of its
accounting. -/
structure Allocs where
  foe : Nat → Nat → Bool
  mib : Nat → Bool
  acct : Nat → Bool

/-- The fields of `hnat_priv`, with the sizes of the tables that were allocated. -/
structure Priv where
  foeEtryNum : Nat
  etryNumCfg : Word
  foeTable : Nat → Option Nat
  foeMib : Nat → Option Nat

inductive Event where
  | searched (ppeId : Nat) (found : Bool)
  | touched (tableSz index : Nat)
  | freed (tableSz size : Nat)

section

variable (chip : Chip) (allocs : Allocs)

/-! ### Start -/

/-- The loop over the sizes: whether there is a table, the number of its entries and its code. The condition
`etry_num_cfg >= 0` is one on a `u32`. -/
def tableSearch (foe : Nat → Bool) : (fuel attempt num : Nat) → (cfg : Word) → Option (Bool × Nat × Word)
  | 0, _, _, _ => none
  | fuel + 1, attempt, num, cfg =>
    if 0 ≤ cfg then
      if foe attempt then some (true, num, cfg) else tableSearch foe fuel (attempt + 1) (num / 2) (cfg - 1)
    else some (false, num, cfg)

def boundaryEntryOffset : List Nat := [12, 25, 38, 51, 76, 89, 102, 115]

/-- The loop of `exclude_boundary_entry` from `base` on. -/
def excludeBoundaryEntry (num tableSz base : Nat) : Traced Event Unit :=
  if base < num then do
    boundaryEntryOffset.forM fun offset => Traced.emit (.touched tableSz (base + offset))
    excludeBoundaryEntry num tableSz (base + 128)
  else return ()
termination_by num - base
decreasing_by omega

/-- The allocations of a start that follow the one of the flow table. -/
def hnatStartMib (ppeId : Nat) (cfg : Word) (priv : Priv) : Int × Priv :=
  if chip.perFlowAccounting then
    if ¬ allocs.mib ppeId then (-1, priv)
    else
      let priv := { priv with
        foeMib := Function.update priv.foeMib ppeId (some (priv.foeEtryNum * chip.sizeofMibEntry)) }
      if ¬ allocs.acct ppeId then (-1, priv) else (0, { priv with etryNumCfg := cfg })
  else (0, { priv with etryNumCfg := cfg })

/-- What a start does with a flow table. -/
def hnatStartTable (ppeId : Nat) (cfg : Word) (priv : Priv) : Traced Event (Int × Priv) :=
  let start := hnatStartMib chip allocs ppeId cfg priv
  if chip.version1 then do
    excludeBoundaryEntry priv.foeEtryNum (priv.foeEtryNum * chip.sizeofFoeEntry) 0
    return start
  else return start

/-- The return value of `hnat_start` and the state after it; `none` when it does not return. -/
def hnatStart (fuel ppeId : Nat) (priv : Priv) : Option (Traced Event (Int × Priv)) :=
  if chip.ppeNum ≤ ppeId then some (return (-22, priv))
  else
    match tableSearch (allocs.foe ppeId) fuel 0 priv.foeEtryNum (BitVec.ofNat 32 chip.defEtryNumCfg) with
    | none => none
    | some (false, num, _) =>
      some do
        Traced.emit (.searched ppeId false)
        return (-1, { priv with foeEtryNum := num })
    | some (true, num, cfg) =>
      some do
        Traced.emit (.searched ppeId true)
        hnatStartTable chip allocs ppeId cfg { priv with
          foeEtryNum := num
          foeTable := Function.update priv.foeTable ppeId (some (num * chip.sizeofFoeEntry)) }

/-- The starts of `count` PPEs from `ppeId` on, up to one that fails. -/
def hnatStarts (fuel : Nat) : (count ppeId : Nat) → Priv → Option (Traced Event (Int × Priv))
  | 0, _, priv => some (return (0, priv))
  | count + 1, ppeId, priv =>
    match hnatStart chip allocs fuel ppeId priv with
    | none => none
    | some started =>
      if started.val.1 ≠ 0 then some started
      else
        match hnatStarts fuel count (ppeId + 1) started.val.2 with
        | none => none
        | some rest => some (started >>= fun _ => rest)

/-! ### Walks -/

/-- `entry_delete_by_mac`, which looks at every entry, and clears the ones with the address. -/
def entryDeleteByMac (priv : Priv) : Traced Event Unit :=
  (List.range chip.ppeNum).forM fun ppeId =>
    (List.range chip.defEtryNum).forM fun index =>
      Traced.emit (.touched ((priv.foeTable ppeId).getD 0) index)

/-- `hnat_stop` invalidates every entry of the table and frees it. -/
def hnatStopTable (priv : Priv) (ppeId : Nat) : Traced Event Unit :=
  match priv.foeTable ppeId with
  | none => return ()
  | some tableSz => do
    (List.range priv.foeEtryNum).forM fun index => Traced.emit (.touched tableSz index)
    Traced.emit (.freed tableSz (priv.foeEtryNum * chip.sizeofFoeEntry))

def hnatStopMib (priv : Priv) (ppeId : Nat) : Traced Event Unit :=
  match priv.foeMib ppeId with
  | none => return ()
  | some mibSz => Traced.emit (.freed mibSz (priv.foeEtryNum * chip.sizeofMibEntry))

/-- What a stop does for one PPE does not matter for another. -/
def hnatStop (priv : Priv) (ppeId : Nat) : Traced Event Unit := do
  hnatStopTable chip priv ppeId
  if chip.perFlowAccounting then hnatStopMib chip priv ppeId else pure ()

/-- The state that `hnat_probe` starts from. -/
def Priv.init : Priv where
  foeEtryNum := chip.defEtryNum
  etryNumCfg := 0
  foeTable := fun _ => none
  foeMib := fun _ => none

/-- What follows the starts: a walk over the tables when they have succeeded, and the stops, at the end or on
the way out of an error. -/
def hnatUse (started : Int × Priv) : Traced Event Int := do
  if started.1 = 0 then entryDeleteByMac chip started.2 else pure ()
  (List.range chip.ppeNum).forM (hnatStop chip started.2)
  return started.1

/-- The life of the driver, from `hnat_probe` on. -/
def hnatLife (fuel : Nat) : Option (Traced Event Int) :=
  match hnatStarts chip allocs fuel chip.ppeNum 0 (Priv.init chip) with
  | none => none
  | some started => some (started >>= hnatUse chip)

/-- A search fails when every size down to the smallest one fails, what is touched lies inside its table, and
what is freed is what was allocated. -/
def Event.Ok : Event → Prop
  | .searched ppeId found => (∀ t ≤ chip.defEtryNumCfg, allocs.foe ppeId t = false) → found = false
  | .touched tableSz index => (index + 1) * chip.sizeofFoeEntry ≤ tableSz
  | .freed tableSz size => size = tableSz

/-- The searches end, and the whole life of the driver is as it should be. -/
structure Bounded : Prop where
  returns : ∃ fuel, hnatLife chip allocs fuel ≠ none
  events : ∀ fuel life, hnatLife chip allocs fuel = some life → life.Every (Event.Ok chip allocs)

end

end Immwrt.Hnat.FlowTable
