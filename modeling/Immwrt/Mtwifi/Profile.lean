import Mathlib.Data.List.DropRight
import Mathlib.Data.List.Basic
import Mathlib.Tactic

/-!
# Options of access points in a profile

A profile has a text for each option, with a value for each access point and semicolons between them. The texts are taken
apart and put together again whenever a value is set. What is in the profile but for these options is left as it is.
-/

namespace Immwrt.Mtwifi

abbrev Text := List Char

/-- `max_mbssid` -/
def maxMbssid : Nat := 16

/-- A number of Lua, as it is written by `table.concat`. -/
structure Number where
  text : Text
  ne_nil : text ≠ []
  semicolon_not_mem : ';' ∉ text

/-- A value in the configuration of an interface, which may have another type than these. -/
inductive Value where
  | number (n : Number)
  | boolean (b : Bool)
  | string (s : Text)
  | other

/-- The texts of a profile. -/
abbrev Dats := String → Option Text

/-! ### Lists of tokens -/

/-- `__cfg2list`: what is between the semicolons, unless it is empty. -/
def cfg2list (str : Text) : List Text := (str.splitOn ';').filter (· ≠ [])

/-- `table.concat` -/
def concat (tokens : List Text) : Text := [';'].intercalate tokens

/-- `gsub("^;*(.-);*$", "%1")` -/
def trim (s : Text) : Text := (s.dropWhile (· = ';')).rdropWhile (· = ';')

/-- `gsub(";+", ";")` -/
def collapse : Text → Text
  | [] => []
  | c :: rest => if c = ';' ∧ rest.head? = some ';' then collapse rest else c :: collapse rest

/-- `token_set` of a text, or of a number as it is written. -/
def tokenSet (str : Option Text) (n : Nat) (v : Option Text) : Option Text :=
  match str, v with
  | some str, some v =>
    let tmp := cfg2list str
    -- holes are filled with the value
    let tmp := if tmp.length < n then tmp ++ List.replicate (n - tmp.length) v else tmp.set (n - 1) v
    some (collapse (trim (concat tmp)))
  | _, _ => none

/-- `token_get` -/
def tokenGet (str : Option Text) (n : Nat) (v : Option Text) : Option Text :=
  match str with
  | some str => ((cfg2list str)[n - 1]?).or v
  | none => v

/-! ### The setup of a profile -/

def cfg2dat : Value → Option Text
  | .number n => some n.text
  | .boolean true => some ['1']
  | .boolean false => some ['0']
  | .string s => some s
  | .other => none

def setDat (dats : Dats) (apidx : Nat) (dat : String) (cfg : Option Value) : Dats :=
  match cfg with
  | some cfg => Function.update dats dat (tokenSet (dats dat) apidx (cfg2dat cfg))
  | none => dats

/-- An option with as many tokens as there are access points, all of them the default. -/
def resetVif (bssidNum : Nat) (dats : Dats) (k : String) (v : Text) : Dats :=
  (List.range bssidNum).foldl (fun dats i => Function.update dats k (tokenSet (dats k) (i + 1) (some v)))
    (Function.update dats k (some []))

def resetVifs (vifCfgs : List (String × Text)) (bssidNum : Nat) (dats : Dats) : Dats :=
  vifCfgs.foldl (fun dats entry => resetVif bssidNum dats entry.1 entry.2) dats

/-- The options of an access point, in the order in which they are set. -/
abbrev Vif := List (String × Option Value)

def setVif (dats : Dats) (apidx : Nat) (vif : Vif) : Dats :=
  vif.foldl (fun dats entry => setDat dats apidx entry.1 entry.2) dats

def setVifs (vifs : List Vif) (dats : Dats) : Dats :=
  (vifs.zipIdx 1).foldl (fun dats entry => setVif dats entry.2 entry.1) dats

/-- The loops of `mtwifi_cfg_setup`, unless there are too many access points. -/
def mtwifiCfgSetup (vifCfgs : List (String × Text)) (vifs : List Vif) (dats : Dats) : Option Dats :=
  if maxMbssid < vifs.length then none else some (setVifs vifs (resetVifs vifCfgs vifs.length dats))

/-- The configuration of an access point, and what `enc2dat` has for its encryption. -/
structure VifConfig where
  config : String → Option Value
  authMode : String
  encrypType : String

/-- The options that are set as they are configured. -/
def configured : List (String × String) :=
  [("NoForwarding", "isolate"), ("HideSSID", "hidden"), ("WmmCapable", "wmm"), ("RRMEnable", "ieee80211k"),
    ("RekeyInterval", "wpa_group_rekey"), ("MuMimoDlEnable", "mumimo_dl"), ("MuMimoUlEnable", "mumimo_ul"),
    ("MuOfdmaDlEnable", "ofdma_dl"), ("MuOfdmaUlEnable", "ofdma_ul"), ("HT_AMSDU", "amsdu"), ("HT_AutoBA", "autoba"),
    ("APSDCapable", "uapsd"), ("RTSThreshold", "rts"), ("FragThreshold", "frag"), ("DtimPeriod", "dtim_period")]

def zero : Value := .number ⟨['0'], by decide, by decide⟩

def one : Value := .number ⟨['1'], by decide, by decide⟩

/-- The options for protected management frames. -/
def pmfDats (authMode : String) : Vif :=
  if authMode = "OWE" ∨ authMode = "WPA3PSK" then
    [("PMFMFPC", some one), ("PMFMFPR", some one), ("PMFSHA256", some zero)]
  else if authMode = "WPA2PSKWPA3PSK" then
    [("PMFMFPC", some one), ("PMFMFPR", some zero), ("PMFSHA256", some zero)]
  else []

def rekeyDats (authMode : String) : Vif :=
  if authMode = "OPEN" ∨ authMode = "OWE" then [] else [("RekeyMethod", some (.string "TIME".toList))]

def baWinSize (axMode : Bool) : Value :=
  if axMode then .number ⟨['2', '5', '6'], by decide, by decide⟩ else .number ⟨['6', '4'], by decide, by decide⟩

/-- The calls of `set_dat` for an access point. -/
def VifConfig.vif (v : VifConfig) (axMode : Bool) (wirelessMode : Number) : Vif :=
  configured.map (fun entry => (entry.1, v.config entry.2)) ++
  [("WirelessMode", some (.number wirelessMode)), ("HT_BAWinSize", some (baWinSize axMode)),
    ("AuthMode", some (.string v.authMode.toList)), ("EncrypType", some (.string v.encrypType.toList))] ++
  pmfDats v.authMode ++ rekeyDats v.authMode

/-! ### What the profile is to be -/

/-- A value that can be a token, but that it may be empty. -/
def Value.Plain : Value → Prop
  | .number _ => True
  | .boolean _ => True
  | .string s => ';' ∉ s
  | .other => False

/-- The value of an option, or the default. -/
def Vif.value (vif : Vif) (entry : String × Text) : Text :=
  ((vif.lookup entry.1).join.bind cfg2dat).getD entry.2

/-- Defaults and access points, each of which sets an option once. -/
structure Setup where
  vifCfgs : List (String × Text)
  vifs : List Vif
  names : (vifCfgs.map Prod.fst).Nodup
  defaults : ∀ entry ∈ vifCfgs, entry.2 ≠ [] ∧ ';' ∉ entry.2
  once : ∀ vif ∈ vifs, (vif.map Prod.fst).Nodup
  plain : ∀ vif ∈ vifs, ∀ dat cfg, (dat, some cfg) ∈ vif → cfg.Plain
  le : vifs.length ≤ maxMbssid

/-- The text of an option is a list with the value of each access point, as `token_get` reads it. -/
structure Aligned (str : Option Text) (values : List Text) : Prop where
  list : str = some (concat values)
  length : ∀ s, str = some s → (cfg2list s).length = values.length
  token : ∀ k value, values[k]? = some value → tokenGet str (k + 1) none = some value

/-- The text of an option after the setup is as it is to be. -/
def Setup.AlignedAt (setup : Setup) (dats : Dats) (entry : String × Text) : Prop :=
  ∃ dats', mtwifiCfgSetup setup.vifCfgs setup.vifs dats = some dats' ∧
    Aligned (dats' entry.1) (setup.vifs.map fun vif => Vif.value vif entry)

end Immwrt.Mtwifi
