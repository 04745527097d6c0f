import Immwrt.Nmbm.Ops

/-!
# The loops of an erase, turn by turn

The functions of `Table` and `Ops` bound their loops by what they know of them. Here the loops that an
erase runs stand as the code has them, with unsigned counters and the code's own conditions: each is
allowed `n` turns, and the result is `none` when one of them is still running after that.
-/

namespace Immwrt.Nmbm

variable (nld : LowerDevice)

/-- `while (write_ba >= base)`, with the table written at `write_ba` or else `write_ba--`. -/
def writeTableDownTurns (base : Nat) : Nat → Nat → Sys → Option (Option (Nat × Nat) × Sys)
  | 0, _, _ => none
  | n + 1, writeBa, s =>
      if writeBa < base then some (none, s)
      else
        let w := writeInfoTable nld writeBa s.ni.mappingBlocksTopBa s
        if w.1.isSome then some w else writeTableDownTurns base n (sub32 writeBa 1) w.2

def rescueBackupTurns (n stop : Nat) (s : Sys) : Option (Bool × Sys) :=
  let s := s.setMappingBlocks stop
  match tryReserveBlocks nld s.ni stop (s.ni.reserveLimit nld) nld.infoTableSpareBlocks with
  | none => some (true, s.clearBackup)
  | some writeBa =>
      (writeTableDownTurns nld stop n writeBa s).map fun b =>
        match b.1 with
        | none => (true, b.2.clearBackup)
        | some (bstart, bstop) =>
            (true, eraseRange nld stop bstart
              ((b.2.recordBackup bstart bstop).setMappingBlocks bstop))

/-- `nmbm_rescue_main_info_table` -/
def rescueMainInfoTableTurns (n : Nat) (s : Sys) : Option (Bool × Sys) :=
  match tryReserveBlocks nld s.ni s.ni.mappingBlocksBa (s.ni.reserveLimit nld)
      nld.infoTableSpareBlocks with
  | none => some (true, s.promoteBackup)
  | some writeBa =>
      (writeTableDownTurns nld s.ni.mappingBlocksBa n writeBa s).bind fun t =>
        match t.1 with
        | none => some (true, t.2.promoteBackup)
        | some (tstart, tstop) =>
            let s := t.2.setMappingBlocks tstop
            let w := writeInfoTable nld s.ni.mgmtStartBa tstart s
            match w.1 with
            | none => some (true, markTablesClean ((w.2.recordMain tstart tstop).clearBackup))
            | some (start, stop) =>
                let s := markTablesClean (w.2.recordMain start stop)
                if stop ≤ tstart then some (true, s.recordBackup tstart tstop)
                else rescueBackupTurns nld n stop s

def writeMainTableTurns (n limit : Nat) (s : Sys) : Option (Bool × Sys) :=
  if s.ni.mainTableBa = 0 then some (rebuildInfoTable nld s)
  else
    let w := writeInfoTable nld s.ni.mainTableBa limit s
    match w.1 with
    | none =>
        if w.2.ni.backupTableBa = 0 then some (rebuildInfoTable nld w.2)
        else rescueMainInfoTableTurns nld n w.2
    | some (start, stop) =>
        let s := w.2.recordMain start stop
        let s := if s.ni.backupTableBa = 0 then s.setMappingBlocks stop else s
        some (true, markTablesClean s)

/-- `nmbm_update_info_table_once` -/
def updateInfoTableOnceTurns (n : Nat) (force : Bool) (s : Sys) : Option (Bool × Sys) :=
  let g := generateInfoTableCache nld s
  if !g.1 && !force then some (true, g.2)
  else
    let s := g.2
    if s.ni.backupTableBa = 0 then writeMainTableTurns nld n s.ni.mappingBlocksTopBa s
    else
      let w := writeInfoTable nld s.ni.backupTableBa s.ni.mappingBlocksTopBa s
      match w.1 with
      | none =>
          let s := (w.2.setMappingBlocks w.2.ni.backupTableBa).clearBackup
          writeMainTableTurns nld n s.ni.mappingBlocksTopBa s
      | some (start, stop) =>
          let s := markTablesClean ((w.2.recordBackup start stop).setMappingBlocks stop)
          writeMainTableTurns nld n start s

/-- `while (ni->block_state_changed || ni->block_mapping_changed)`; `n` turns go to the loops inside. -/
def updateInfoTableLoopTurns (n : Nat) : Nat → Sys → Option (Bool × Sys)
  | 0, _ => none
  | k + 1, s =>
      if !s.ni.changed then some (true, s)
      else
        (updateInfoTableOnceTurns nld n false s).bind fun r =>
          if !r.1 then some (false, r.2) else updateInfoTableLoopTurns n k r.2

/-- `nmbm_update_info_table` -/
def updateInfoTableTurns (n : Nat) (s : Sys) : Option (Bool × Sys) :=
  if s.ni.isProtected then some (true, s) else updateInfoTableLoopTurns nld n n s

/-- `nmbm_map_block` -/
def mapBlockTurns (n lb : Nat) (s : Sys) : Option (Bool × Sys) :=
  if s.ni.mappingBlocksBa = s.ni.mappingBlocksTopBa then some (false, s)
  else
    let s := logMap s
    match blockWalkDesc nld s.ni s.ni.mappingBlocksTopBa 0 s.ni.mappingBlocksBa with
    | none =>
        (updateInfoTableTurns nld n s).map fun u =>
          (false, { u.2 with ni := { u.2.ni with mappingBlocksTopBa := u.2.ni.mappingBlocksBa } })
    | some pb =>
        some (true, { s with ni := { s.ni with
          blockMapping := s.ni.blockMapping.set lb pb
          mappingBlocksTopBa := s.ni.mappingBlocksTopBa - 1
          blockMappingChanged := s.ni.blockMappingChanged + 1 } })

/-- `retry:` of `nmbm_erase_logic_block` -/
def eraseLogicLoopTurns (n : Nat) : Nat → Nat → Sys → Option (Int × Sys)
  | 0, _, _ => none
  | k + 1, lb, s =>
      if s.ni.mapping lb < 0 then some (-eio, s)
      else
        let pb := (s.ni.mapping lb).toNat
        let e := erasePhys nld pb s
        if e.1 then some (0, e.2)
        else
          (mapBlockTurns nld n lb e.2).bind fun m =>
            if !m.1 then
              (updateInfoTableTurns nld n (logUnmap lb (retire pb (unmap lb m.2)))).map fun u =>
                (-eio, u.2)
            else
              (updateInfoTableTurns nld n (retire pb m.2)).bind fun u =>
                eraseLogicLoopTurns n k lb u.2

/-- `nmbm_erase_logic_block` -/
def eraseLogicBlockTurns (n lb : Nat) (s : Sys) : Option (Int × Sys) :=
  eraseLogicLoopTurns nld n n lb s

end Immwrt.Nmbm
