import Immwrt.Hnat.Mcast

/-!
# The multicast registers of the packet engine

Each entry of the group table has a pair of registers: the first 16 in every PPE, the others in a bank of the
frame engine. The CPU is little-endian.
-/

namespace Immwrt.Hnat

/-- A register of a PPE or of the frame engine, by its offset. -/
inductive Reg where
  | ppe (id offset : Nat)
  | fe (offset : Nat)
  deriving DecidableEq

abbrev Mmio := Reg → BitVec 32

def ppeMcastL0 : Nat := 0x88

def ppeMcastH0 : Nat := 0x8c

def ppeMcastL10 : Nat := 0xc00

def ppeMcastH10 : Nat := 0xc04

/-- The PPEs of the device, of which there is at least one. -/
structure Ppes where
  num : Nat
  pos : 0 < num

/-- The fields of `struct ppe_mcast_h` that are set: which of the prefixes 01:00 (0) and 33:33 (2) the address
has, the ports and the valid bit. -/
structure McastH where
  mpreSel : BitVec 2
  pxEn : BitVec 4
  valid : Bool

def McastH.value (h : McastH) : BitVec 32 :=
  (0 : BitVec 10) ++ h.mpreSel ++ h.pxEn ++ (0 : BitVec 1) ++ BitVec.ofBool h.valid ++ (0 : BitVec 14)

def McastGroup.mcastH (g : McastGroup) : McastH where
  mpreSel := if g.macLo = 0x0100 then 0 else if g.macLo = 0x3333 then 1 else 0
  pxEn := g.mcPort.setWidth 4
  valid := g.valid

/-- The high register of an entry. -/
def regH (ppeId index : Nat) : Reg :=
  if index < 0x10 then .ppe ppeId (ppeMcastH0 + index * 8) else .fe (ppeMcastH10 + (index - 0x10) * 8)

def regL (ppeId index : Nat) : Reg :=
  if index < 0x10 then .ppe ppeId (ppeMcastL0 + index * 8) else .fe (ppeMcastL10 + (index - 0x10) * 8)

def writel (val : BitVec 32) (reg : Reg) (regs : Mmio) : Mmio := Function.update regs reg val

/-- `set_hnat_mtbl`. The second bank gets the value of the high register twice. -/
def setHnatMtbl (group : McastGroup) (ppeId index : Nat) (regs : Mmio) : Mmio :=
  if index < 0x10 then
    writel group.macHi (regL ppeId index) (writel group.mcastH.value (regH ppeId index) regs)
  else
    writel group.mcastH.value (regL ppeId index) (writel group.mcastH.value (regH ppeId index) regs)

/-- The table and the registers. -/
structure McastDev where
  table : McastTable
  regs : Mmio

def McastDev.init (maxEntry : Nat) : McastDev := { table := .init maxEntry, regs := fun _ => 0 }

/-- `hnat_mcast_table_update` with its writes to the registers of every PPE. -/
def McastDev.step (ppes : Ppes) (dev : McastDev) (e : MdbEvent) : McastDev where
  table := dev.table.update e
  regs :=
    if !e.present then dev.regs
    else
      let mac := e.addr.mac
      match dev.table.entryGet e.vid mac.1 with
      | none => dev.regs
      | some index =>
        let group := { dev.table.mtbl index with macHi := mac.1, macLo := mac.2 }.count e
        if group.valid then
          (List.range ppes.num).foldl (fun regs ppeId => setHnatMtbl group.settle ppeId index regs) dev.regs
        else dev.regs

def McastDev.run (ppes : Ppes) (dev : McastDev) (events : List MdbEvent) : McastDev :=
  events.foldl (McastDev.step ppes) dev

end Immwrt.Hnat
