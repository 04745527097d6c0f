import Immwrt.Lib.Text
import Mathlib.Logic.Function.Basic

/-!
# The external devices of the packet engine

The driver keeps a table of the external devices, WLAN interfaces above all, and the slots of those whose
driver has hooked them. A device gets into the table by its name when it goes up, by a prefix of its name, or
when it is hooked. For each pointer to a device the driver takes a reference.
-/

namespace Immwrt.Hnat

def maxExtDevs : Nat := 0x3f

def maxIfNum : Nat := 64

def maxExtPrefixNum : Nat := 8

def ifnamsiz : Nat := 16

/-- A name that fits `char name[IFNAMSIZ]`. -/
structure IfName where
  str : CString
  short : str.strlen < ifnamsiz
  deriving DecidableEq

/-- `strncpy(name, s, IFNAMSIZ - 1)` into memory that is zero. -/
def IfName.strncpy (s : CString) : IfName where
  str := ⟨s.bytes.take (ifnamsiz - 1), fun hmem => s.noNul (List.mem_of_mem_take hmem)⟩
  short := by
    rw [CString.strlen, List.length_take]
    exact Nat.lt_of_le_of_lt (Nat.min_le_left _ _) (Nat.lt_succ_self _)

/-- A device, which its address tells from the others. -/
structure NetDevice where
  addr : Nat
  name : IfName
  ifindex : Nat
  deriving DecidableEq

/-- `struct extdev_entry`, which `kzalloc` put at `addr`. -/
structure ExtdevEntry where
  addr : Nat
  name : IfName
  dev : Option NetDevice
  deriving DecidableEq

/-- The fields of `struct mtk_hnat` with the external devices, the references the driver has taken, and the
memory that `kzalloc` has not given out yet. -/
structure MtkHnat where
  extIf : Nat → Option ExtdevEntry
  wifiHookIf : Nat → Option NetDevice
  extIfPrefix : List CString
  guestEn : Bool
  refs : NetDevice → Int
  brk : Nat

def MtkHnat.devHold (h : MtkHnat) (dev : NetDevice) : MtkHnat :=
  { h with refs := Function.update h.refs dev (h.refs dev + 1) }

def MtkHnat.devPut (h : MtkHnat) (dev : NetDevice) : MtkHnat :=
  { h with refs := Function.update h.refs dev (h.refs dev - 1) }

/-! ### Scans of the table -/

/-- `for (i = 0; i < MAX_EXT_DEVS && hnat_priv->ext_if[i]; i++)` up to the first entry with `p`. -/
def extIfScan (extIf : Nat → Option ExtdevEntry) (p : ExtdevEntry → Bool) : Nat → Nat → Option (Nat × ExtdevEntry)
  | 0, _ => none
  | fuel + 1, i =>
    if i < maxExtDevs then
      match extIf i with
      | none => none
      | some entry => if p entry then some (i, entry) else extIfScan extIf p fuel (i + 1)
    else none

/-- The first entry with `p`. -/
def MtkHnat.extIfFind (h : MtkHnat) (p : ExtdevEntry → Bool) : Option (Nat × ExtdevEntry) :=
  extIfScan h.extIf p maxExtDevs 0

def extDeviceNumberFrom (extIf : Nat → Option ExtdevEntry) : Nat → Nat → Nat
  | 0, _ => 0
  | fuel + 1, i =>
    if i < maxExtDevs then
      match extIf i with
      | none => 0
      | some _ => extDeviceNumberFrom extIf fuel (i + 1) + 1
    else 0

def MtkHnat.getExtDeviceNumber (h : MtkHnat) : Nat := extDeviceNumberFrom h.extIf maxExtDevs 0

def MtkHnat.findExtifFromDevname (h : MtkHnat) (name : IfName) : Bool :=
  (h.extIfFind fun entry => entry.name = name).isSome

def MtkHnat.getIndexFromDev (h : MtkHnat) (dev : NetDevice) : Nat :=
  match h.extIfFind fun entry => entry.dev = some dev with
  | none => 0
  | some _ => dev.ifindex

def MtkHnat.getDevFromIndex (h : MtkHnat) (index : Nat) : Option NetDevice :=
  (h.extIfFind fun entry => (entry.dev.map NetDevice.ifindex) = some index).bind fun found => found.2.dev

/-- The entry of that name without a device. -/
def MtkHnat.extifMatch (h : MtkHnat) (name : IfName) : Option (Nat × ExtdevEntry) :=
  h.extIfFind fun entry => entry.name = name ∧ entry.dev = none

def MtkHnat.extifPrefixMatch (h : MtkHnat) (name : IfName) : Bool :=
  (h.extIfPrefix.take maxExtPrefixNum).any fun pre => pre.strlen ≠ 0 && pre.bytes.isPrefixOf name.str.bytes

/-! ### Entries -/

def MtkHnat.extIfAdd (h : MtkHnat) (entry : ExtdevEntry) : MtkHnat :=
  let len := h.getExtDeviceNumber
  if len < maxExtDevs then { h with extIf := Function.update h.extIf len (some entry) } else h

/-- `for (j = i; ext_if[j] && j < MAX_EXT_DEVS - 1; j++) ext_if[j] = ext_if[j + 1]; ext_if[j] = NULL;` -/
def extIfShift : Nat → (Nat → Option ExtdevEntry) → Nat → Nat → Option ExtdevEntry
  | 0, extIf, _ => extIf
  | fuel + 1, extIf, j =>
    if (extIf j).isSome ∧ j < maxExtDevs - 1 then
      extIfShift fuel (Function.update extIf j (extIf (j + 1))) (j + 1)
    else Function.update extIf j none

/-- `for (i = 0; i < MAX_EXT_DEVS; i++) if (ext_if[i] == ext_entry) ...`, which compares addresses. -/
def extIfDelFrom (extIf : Nat → Option ExtdevEntry) (addr : Nat) : Nat → Nat → Nat → Option ExtdevEntry
  | 0, _ => extIf
  | fuel + 1, i =>
    if (extIf i).map ExtdevEntry.addr = some addr then extIfShift maxExtDevs extIf i
    else extIfDelFrom extIf addr fuel (i + 1)

def MtkHnat.extIfDel (h : MtkHnat) (entry : ExtdevEntry) : MtkHnat :=
  { h with extIf := extIfDelFrom h.extIf entry.addr maxExtDevs 0 }

/-- A new entry for a device. -/
def MtkHnat.newEntry (h : MtkHnat) (dev : NetDevice) : MtkHnat :=
  let entry : ExtdevEntry := { addr := h.brk, name := .strncpy dev.name.str, dev := some dev }
  (({ h with brk := h.brk + 1 } : MtkHnat).devHold dev).extIfAdd entry

/-- The return value is -1 as `none`. -/
def MtkHnat.extifSetDev (h : MtkHnat) (dev : NetDevice) (tryPrefix : Bool) : MtkHnat × Option Nat :=
  match h.extifMatch dev.name with
  | none =>
    if tryPrefix && h.extifPrefixMatch dev.name then
      if h.getExtDeviceNumber ≥ maxExtDevs then (h, none)
      else (h.newEntry dev, some dev.ifindex)
    else (h, none)
  | some (i, entry) =>
    let h := h.devHold dev
    ({ h with extIf := Function.update h.extIf i (some { entry with dev := some dev }) }, some dev.ifindex)

def MtkHnat.extifPutDev (h : MtkHnat) (dev : NetDevice) : MtkHnat × Option Nat :=
  match h.extIfFind fun entry => entry.dev = some dev with
  | none => (h, none)
  | some (i, entry) =>
    (({ h with extIf := Function.update h.extIf i (some { entry with dev := none }) } : MtkHnat).devPut dev, some 0)

/-! ### Hooks -/

/-- `for (i = 1; i < MAX_IF_NUM; i++) if (wifi_hook_if[i] == value) return i;` -/
def wifiHookScan (wifiHookIf : Nat → Option NetDevice) (value : Option NetDevice) : Nat → Nat → Option Nat
  | 0, _ => none
  | fuel + 1, i =>
    if i < maxIfNum then
      if wifiHookIf i = value then some i else wifiHookScan wifiHookIf value fuel (i + 1)
    else none

/-- The slot of a device, or with `none` a slot that is free. -/
def MtkHnat.wifiHookFind (h : MtkHnat) (value : Option NetDevice) : Option Nat :=
  wifiHookScan h.wifiHookIf value maxIfNum 1

def MtkHnat.getWifiHookIfIndexFromDev (h : MtkHnat) (dev : NetDevice) : Nat :=
  (h.wifiHookFind (some dev)).getD 0

/-- A guest interface while guests are not enabled. -/
def MtkHnat.skipsGuest (h : MtkHnat) (dev : NetDevice) : Bool :=
  !h.guestEn && (dev.name.str = .lit "ra1" || dev.name.str = .lit "rax1")

def MtkHnat.addWifiHookIf (h : MtkHnat) (i : Nat) (dev : NetDevice) : MtkHnat :=
  let h := h.devHold dev
  { h with wifiHookIf := Function.update h.wifiHookIf i (some dev) }

def MtkHnat.mtkPpeDevRegisterHook (h : MtkHnat) (dev : NetDevice) : MtkHnat :=
  if h.skipsGuest dev then h
  else
    match h.wifiHookFind (some dev) with
    | some _ => h
    | none =>
      match h.wifiHookFind none with
      | none => h
      | some i =>
        if h.findExtifFromDevname dev.name then (h.extifSetDev dev false).1.addWifiHookIf i dev
        else if h.getExtDeviceNumber ≥ maxExtDevs then h
        else (h.newEntry dev).addWifiHookIf i dev

def MtkHnat.mtkPpeDevUnregisterHook (h : MtkHnat) (dev : NetDevice) : MtkHnat :=
  let h :=
    match h.wifiHookFind (some dev) with
    | none => h
    | some i => ({ h with wifiHookIf := Function.update h.wifiHookIf i none } : MtkHnat).devPut dev
  (h.extifPutDev dev).1

/-! ### Events -/

inductive Event where
  | up (dev : NetDevice)
  | goingDown (dev : NetDevice)
  | registerHook (dev : NetDevice)
  | unregisterHook (dev : NetDevice)

/-- `nf_hnat_netdevice_event` for the events that touch the table, and the two hooks. -/
def MtkHnat.step (h : MtkHnat) : Event → MtkHnat
  | .up dev => if h.skipsGuest dev then h else (h.extifSetDev dev true).1
  | .goingDown dev => if h.getWifiHookIfIndexFromDev dev = 0 then (h.extifPutDev dev).1 else h
  | .registerHook dev => h.mtkPpeDevRegisterHook dev
  | .unregisterHook dev => h.mtkPpeDevUnregisterHook dev

def MtkHnat.run (h : MtkHnat) (events : List Event) : MtkHnat := events.foldl MtkHnat.step h

/-- The names of the device tree: its external devices and their prefixes. -/
structure Config where
  extDevices : List CString
  extDevicesPrefix : List CString
  guestEn : Bool

def MtkHnat.addName (h : MtkHnat) (name : CString) : MtkHnat :=
  ({ h with brk := h.brk + 1 } : MtkHnat).extIfAdd { addr := h.brk, name := .strncpy name, dev := none }

/-- What `hnat_probe` leaves. -/
def Config.probe (config : Config) : MtkHnat :=
  config.extDevices.foldl MtkHnat.addName
    { extIf := fun _ => none, wifiHookIf := fun _ => none, extIfPrefix := config.extDevicesPrefix
      guestEn := config.guestEn, refs := fun _ => 0, brk := 0 }

/-! ### Release -/

/-- The loop of `hnat_release_netdev`, with the addresses that are freed. -/
def releaseFrom : Nat → MtkHnat → Nat → MtkHnat × List Nat
  | 0, h, _ => (h, [])
  | fuel + 1, h, i =>
    if i < maxExtDevs then
      match h.extIf i with
      | none => (h, [])
      | some entry =>
        let h := match entry.dev with
          | none => h
          | some dev => h.devPut dev
        let rest := releaseFrom fuel (h.extIfDel entry) (i + 1)
        (rest.1, entry.addr :: rest.2)
    else (h, [])

def MtkHnat.hnatReleaseNetdev (h : MtkHnat) : MtkHnat × List Nat := releaseFrom maxExtDevs h 0

end Immwrt.Hnat
