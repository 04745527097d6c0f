import Mathlib.Data.List.TakeWhile
import Immwrt.Mtwifi.Profile

/-!
# Aligned options

A list whose tokens are neither empty nor have semicolons is read back as it was written, and no other. An empty value
leaves no trace in it.
-/

namespace Immwrt.Mtwifi

/-! ### Tokens -/

/-- A text that can be a token. -/
structure IsToken (token : Text) : Prop where
  ne_nil : token ≠ []
  semicolon_not_mem : ';' ∉ token

theorem concat_cons_cons (token token' : Text) (tokens : List Text) :
    concat (token :: token' :: tokens) = token ++ ';' :: concat (token' :: tokens) := by
  rw [concat, List.intercalate_cons_cons, List.append_assoc]
  rfl

theorem cfg2list_concat {tokens : List Text} (h : ∀ token ∈ tokens, IsToken token) :
    cfg2list (concat tokens) = tokens := by
  cases tokens with
  | nil => rfl
  | cons token tokens =>
      rw [cfg2list, concat, List.splitOn_intercalate ';' (fun t ht => (h t ht).semicolon_not_mem)
        (List.cons_ne_nil _ _), List.filter_eq_self]
      exact fun t ht => decide_eq_true (h t ht).ne_nil

theorem ne_nil_of_mem_cfg2list {str token : Text} (h : token ∈ cfg2list str) : token ≠ [] :=
  of_decide_eq_true (List.mem_filter.1 h).2

theorem collapse_append {token : Text} (h : ';' ∉ token) (rest : Text) :
    collapse (token ++ rest) = token ++ collapse rest := by
  induction token with
  | nil => rfl
  | cons c token ih =>
      rw [List.mem_cons, not_or] at h
      rw [List.cons_append, collapse, if_neg fun hboth => h.1 hboth.1.symm, ih h.2, List.cons_append]

theorem head?_concat {token : Text} (h : IsToken token) (tokens : List Text) :
    (concat (token :: tokens)).head? ≠ some ';' := by
  obtain ⟨c, rest, rfl⟩ := List.exists_cons_of_ne_nil h.ne_nil
  have hc : c ≠ ';' := fun heq => h.semicolon_not_mem (heq ▸ List.mem_cons_self)
  cases tokens with
  | nil =>
      rw [concat, List.intercalate_singleton, List.head?_cons]
      exact fun heq => hc (Option.some.inj heq)
  | cons token' tokens =>
      rw [concat_cons_cons, List.cons_append, List.head?_cons]
      exact fun heq => hc (Option.some.inj heq)

theorem concat_ne_nil {token : Text} (h : IsToken token) (tokens : List Text) : concat (token :: tokens) ≠ [] := by
  cases tokens with
  | nil =>
      rw [concat, List.intercalate_singleton]
      exact h.ne_nil
  | cons token' tokens =>
      rw [concat_cons_cons]
      simp

theorem getLast?_concat {tokens : List Text} (h : ∀ token ∈ tokens, IsToken token) :
    (concat tokens).getLast? ≠ some ';' := by
  induction tokens with
  | nil => exact nofun
  | cons token tokens ih =>
      cases tokens with
      | nil =>
          rw [concat, List.intercalate_singleton]
          exact fun hlast => (h token List.mem_cons_self).semicolon_not_mem (List.mem_of_getLast? hlast)
      | cons token' tokens =>
          have hne := concat_ne_nil (h token' (by simp)) tokens
          rw [concat_cons_cons, ← List.singleton_append, ← List.append_assoc, List.getLast?_append_of_ne_nil _ hne]
          exact ih fun t ht => h t (List.mem_cons_of_mem _ ht)

theorem collapse_concat {tokens : List Text} (h : ∀ token ∈ tokens, IsToken token) :
    collapse (concat tokens) = concat tokens := by
  induction tokens with
  | nil => rfl
  | cons token tokens ih =>
      cases tokens with
      | nil =>
          have hone := collapse_append (h token List.mem_cons_self).semicolon_not_mem []
          rw [List.append_nil] at hone
          rw [concat, List.intercalate_singleton, hone, collapse, List.append_nil]
      | cons token' tokens =>
          have hrest := ih fun t ht => h t (List.mem_cons_of_mem _ ht)
          have hhead := head?_concat (h token' (by simp)) tokens
          rw [concat_cons_cons, collapse_append (h token List.mem_cons_self).semicolon_not_mem, collapse,
            if_neg fun hboth => hhead hboth.2, hrest]

theorem trim_concat {tokens : List Text} (h : ∀ token ∈ tokens, IsToken token) :
    trim (concat tokens) = concat tokens := by
  have hfront : (concat tokens).dropWhile (· = ';') = concat tokens := by
    cases tokens with
    | nil => rfl
    | cons token tokens =>
        rw [List.dropWhile_eq_self_iff]
        intro hpos hfirst
        refine head?_concat (h token List.mem_cons_self) tokens ?_
        rw [List.head?_eq_getElem?, List.getElem?_eq_getElem hpos, of_decide_eq_true hfirst]
  have hback : (concat tokens).rdropWhile (· = ';') = concat tokens := by
    rw [List.rdropWhile_eq_self_iff]
    intro hne hlast
    refine getLast?_concat h ?_
    rw [List.getLast?_eq_some_getLast hne, of_decide_eq_true hlast]
  rw [trim, hfront, hback]

/-- The list after a token is set. -/
theorem tokenSet_concat {tokens : List Text} (h : ∀ token ∈ tokens, IsToken token) {v : Text} (hv : IsToken v) (n : Nat) :
    tokenSet (some (concat tokens)) n (some v) =
      some (concat (if tokens.length < n then tokens ++ List.replicate (n - tokens.length) v
        else tokens.set (n - 1) v)) := by
  have htokens : ∀ token ∈ (if tokens.length < n then tokens ++ List.replicate (n - tokens.length) v
      else tokens.set (n - 1) v), IsToken token := by
    split
    · intro token htoken
      rcases List.mem_append.1 htoken with hold | hnew
      · exact h token hold
      · rwa [List.eq_of_mem_replicate hnew]
    · intro token htoken
      rcases List.mem_or_eq_of_mem_set htoken with hold | rfl
      · exact h token hold
      · exact hv
  rw [tokenSet, cfg2list_concat h, trim_concat htokens, collapse_concat htokens]

/-- A list is aligned if it is that of its values, none of which is empty. -/
theorem aligned_iff {values : List Text} (hfree : ∀ value ∈ values, ';' ∉ value) {str : Option Text} :
    Aligned str values ↔ str = some (concat values) ∧ ∀ value ∈ values, value ≠ [] := by
  constructor
  · rintro ⟨rfl, -, htoken⟩
    refine ⟨rfl, fun value hvalue => ?_⟩
    obtain ⟨k, hk, rfl⟩ := List.mem_iff_getElem.1 hvalue
    have h := htoken k _ (List.getElem?_eq_getElem hk)
    rw [tokenGet, Nat.add_sub_cancel, Option.or_none] at h
    exact ne_nil_of_mem_cfg2list (List.mem_of_getElem? h)
  · rintro ⟨rfl, hne⟩
    have hread : cfg2list (concat values) = values := cfg2list_concat fun t ht => ⟨hne t ht, hfree t ht⟩
    refine ⟨rfl, fun s hs => ?_, fun k value hvalue => ?_⟩
    · rw [← Option.some.inj hs, hread]
    · rw [tokenGet, hread, Nat.add_sub_cancel, hvalue, Option.some_or]

/-! ### One option -/

theorem setDat_of_ne {dats : Dats} {apidx : Nat} {dat k : String} {cfg : Option Value} (h : k ≠ dat) :
    setDat dats apidx dat cfg k = dats k := by
  cases cfg with
  | none => rfl
  | some cfg => exact Function.update_of_ne h _ _

theorem setDat_self (dats : Dats) (apidx : Nat) (dat : String) (cfg : Option Value) :
    setDat dats apidx dat cfg dat =
      match cfg with
      | some cfg => tokenSet (dats dat) apidx (cfg2dat cfg)
      | none => dats dat := by
  cases cfg with
  | none => rfl
  | some cfg => exact Function.update_self _ _ _

theorem setVif_of_not_mem {vif : Vif} {k : String} (h : k ∉ vif.map Prod.fst) (dats : Dats) (apidx : Nat) :
    setVif dats apidx vif k = dats k := by
  induction vif generalizing dats with
  | nil => rfl
  | cons entry vif ih =>
      rw [List.map_cons, List.mem_cons, not_or] at h
      exact (ih h.2 _).trans (setDat_of_ne h.1)

/-- What an access point does to an option. -/
theorem setVif_apply {vif : Vif} (honce : (vif.map Prod.fst).Nodup) (dats : Dats) (apidx : Nat) (k : String) :
    setVif dats apidx vif k =
      match (vif.lookup k).join with
      | some cfg => tokenSet (dats k) apidx (cfg2dat cfg)
      | none => dats k := by
  induction vif generalizing dats with
  | nil => rfl
  | cons entry vif ih =>
      obtain ⟨dat, cfg⟩ := entry
      rw [List.map_cons, List.nodup_cons] at honce
      have hstep : setVif dats apidx ((dat, cfg) :: vif) k = setVif (setDat dats apidx dat cfg) apidx vif k := rfl
      rw [hstep]
      by_cases hk : k = dat
      · obtain rfl := hk
        rw [setVif_of_not_mem honce.1, setDat_self, List.lookup_cons_self, Option.join_some]
      · rw [ih honce.2, setDat_of_ne hk, List.lookup_cons, beq_false_of_ne hk]

theorem resetVif_of_ne {dats : Dats} {k k' : String} (h : k' ≠ k) (n : Nat) (v : Text) :
    resetVif n dats k v k' = dats k' := by
  induction n with
  | zero => exact Function.update_of_ne h _ _
  | succ n ih =>
      rw [resetVif, List.range_succ, List.foldl_append, List.foldl_cons, List.foldl_nil, Function.update_of_ne h]
      exact ih

theorem resetVif_self {v : Text} (hv : IsToken v) (dats : Dats) (k : String) (n : Nat) :
    resetVif n dats k v k = some (concat (List.replicate n v)) := by
  induction n with
  | zero => exact Function.update_self _ _ _
  | succ n ih =>
      have htokens : ∀ token ∈ List.replicate n v, IsToken token := fun token htoken =>
        (List.eq_of_mem_replicate htoken).symm ▸ hv
      rw [resetVif] at ih
      rw [resetVif, List.range_succ, List.foldl_append, List.foldl_cons, List.foldl_nil, Function.update_self, ih,
        tokenSet_concat htokens hv, List.length_replicate, if_pos (Nat.lt_succ_self n), Nat.add_sub_cancel_left,
        List.replicate_append_replicate]

theorem resetVifs_of_not_mem {vifCfgs : List (String × Text)} {k : String} (h : k ∉ vifCfgs.map Prod.fst) (n : Nat)
    (dats : Dats) : resetVifs vifCfgs n dats k = dats k := by
  induction vifCfgs generalizing dats with
  | nil => rfl
  | cons entry vifCfgs ih =>
      rw [List.map_cons, List.mem_cons, not_or] at h
      exact (ih h.2 _).trans (resetVif_of_ne h.1 n _)

/-- All access points get the default first. -/
theorem resetVifs_apply {vifCfgs : List (String × Text)} (hnames : (vifCfgs.map Prod.fst).Nodup)
    {entry : String × Text} (hentry : entry ∈ vifCfgs) (hdefault : IsToken entry.2) (n : Nat) (dats : Dats) :
    resetVifs vifCfgs n dats entry.1 = some (concat (List.replicate n entry.2)) := by
  induction vifCfgs generalizing dats with
  | nil => cases hentry
  | cons first vifCfgs ih =>
      rw [List.map_cons, List.nodup_cons] at hnames
      have hstep : resetVifs (first :: vifCfgs) n dats = resetVifs vifCfgs n (resetVif n dats first.1 first.2) := rfl
      rw [hstep]
      rcases List.mem_cons.1 hentry with rfl | hrest
      · rw [resetVifs_of_not_mem hnames.1, resetVif_self hdefault]
      · exact ih hnames.2 hrest _

/-! ### All access points -/

/-- What an option of an access point is set to. -/
theorem Vif.value_eq {vif : Vif} (hplain : ∀ dat cfg, (dat, some cfg) ∈ vif → cfg.Plain) (entry : String × Text) :
    (∃ cfg, (vif.lookup entry.1).join = some cfg ∧ cfg.Plain ∧ cfg2dat cfg = some (vif.value entry)) ∨
      ((vif.lookup entry.1).join = none ∧ vif.value entry = entry.2) := by
  rw [Vif.value]
  cases hlookup : (vif.lookup entry.1).join with
  | none => exact .inr ⟨rfl, rfl⟩
  | some cfg =>
      have hmem : (entry.1, some cfg) ∈ vif := by
        obtain ⟨before, after, hvif, -⟩ := List.lookup_eq_some_iff.1 (Option.join_eq_some_iff.1 hlookup)
        rw [hvif]
        exact List.mem_append_right _ List.mem_cons_self
      have hcfg := hplain _ _ hmem
      refine .inl ⟨cfg, rfl, hcfg, ?_⟩
      cases cfg with
      | boolean b => cases b <;> rfl
      | other => exact hcfg.elim
      | _ => rfl

/-- A value is empty if and only if it was given as an empty text. -/
theorem Vif.value_eq_nil_iff {vif : Vif} (hplain : ∀ dat cfg, (dat, some cfg) ∈ vif → cfg.Plain)
    {entry : String × Text} (hdefault : entry.2 ≠ []) :
    vif.value entry = [] ↔ vif.lookup entry.1 = some (some (.string [])) := by
  rcases Vif.value_eq hplain entry with ⟨cfg, hlookup, -, hvalue⟩ | ⟨hlookup, hvalue⟩
  · rw [Option.join_eq_some_iff] at hlookup
    rw [hlookup, Option.some.injEq, Option.some.injEq]
    constructor
    · intro hnil
      rw [hnil] at hvalue
      cases cfg with
      | number n => exact absurd (Option.some.inj hvalue) n.ne_nil
      | boolean b => cases b <;> cases hvalue
      | string s => rw [Option.some.inj hvalue]
      | other => cases hvalue
    · rintro rfl
      exact (Option.some.inj hvalue).symm
  · rw [hvalue]
    refine iff_of_false hdefault fun h => ?_
    rw [h] at hlookup
    cases hlookup

theorem Vif.semicolon_not_mem_value {vif : Vif} (hplain : ∀ dat cfg, (dat, some cfg) ∈ vif → cfg.Plain)
    {entry : String × Text} (hdefault : ';' ∉ entry.2) : ';' ∉ vif.value entry := by
  rcases Vif.value_eq hplain entry with ⟨cfg, -, hcfg, hvalue⟩ | ⟨-, hvalue⟩
  · cases cfg with
    | number n => exact Option.some.inj hvalue ▸ n.semicolon_not_mem
    | boolean b =>
        cases b <;>
        · rw [← Option.some.inj hvalue]
          decide
    | string s => exact Option.some.inj hvalue ▸ hcfg
    | other => cases hvalue
  · exact hvalue.symm ▸ hdefault

/-- The tokens of the access points that are set so far are their values, and those of the others are the default. -/
theorem setVifs_apply {vifs : List Vif} {entry : String × Text} (honce : ∀ vif ∈ vifs, (vif.map Prod.fst).Nodup)
    (hplain : ∀ vif ∈ vifs, ∀ dat cfg, (dat, some cfg) ∈ vif → cfg.Plain) (hdefault : IsToken entry.2)
    (hvalues : ∀ vif ∈ vifs, IsToken (Vif.value vif entry)) (before : List Text)
    (hbefore : ∀ token ∈ before, IsToken token) {dats : Dats}
    (hdats : dats entry.1 = some (concat (before ++ List.replicate vifs.length entry.2))) :
    (vifs.zipIdx (before.length + 1)).foldl (fun dats vif => setVif dats vif.2 vif.1) dats entry.1 =
      some (concat (before ++ vifs.map fun vif => Vif.value vif entry)) := by
  induction vifs generalizing before dats with
  | nil => exact hdats
  | cons vif vifs ih =>
      have hvalue := hvalues vif List.mem_cons_self
      have htokens : ∀ token ∈ before ++ List.replicate (vif :: vifs).length entry.2, IsToken token := by
        intro token htoken
        rcases List.mem_append.1 htoken with hold | hnew
        · exact hbefore token hold
        · rwa [List.eq_of_mem_replicate hnew]
      have hset : setVif dats (before.length + 1) vif entry.1 =
          some (concat (before ++ [vif.value entry] ++ List.replicate vifs.length entry.2)) := by
        rw [setVif_apply (honce vif List.mem_cons_self), hdats]
        rcases Vif.value_eq (hplain vif List.mem_cons_self) entry with ⟨cfg, hlookup, -, hcfg⟩ | ⟨hlookup, hvalue'⟩
        · rw [hlookup]
          dsimp only
          rw [hcfg, tokenSet_concat htokens hvalue, if_neg, Nat.add_sub_cancel, List.set_append_right _ _ le_rfl,
            Nat.sub_self, List.length_cons, List.replicate_succ, List.set_cons_zero, List.append_assoc]
          · rfl
          · rw [List.length_append, List.length_replicate, List.length_cons]
            omega
        · rw [hlookup, hvalue', List.length_cons, List.replicate_succ, List.append_assoc]
          rfl
      rw [List.zipIdx_cons, List.foldl_cons, List.map_cons, ← List.singleton_append, ← List.append_assoc]
      have hlength : (before ++ [vif.value entry]).length + 1 = before.length + 1 + 1 := by
        rw [List.length_append, List.length_singleton]
      rw [← hlength]
      refine ih (fun vif' h => honce vif' (List.mem_cons_of_mem _ h)) (fun vif' h => hplain vif' (List.mem_cons_of_mem _ h))
        (fun vif' h => hvalues vif' (List.mem_cons_of_mem _ h)) _ ?_ hset
      intro token htoken
      rcases List.mem_append.1 htoken with hold | hnew
      · exact hbefore token hold
      · rwa [List.mem_singleton.1 hnew]

/-- An option is aligned if and only if no access point has an empty text for it. -/
theorem alignedAt_iff (setup : Setup) (dats : Dats) {entry : String × Text} (hentry : entry ∈ setup.vifCfgs) :
    setup.AlignedAt dats entry ↔ ∀ vif ∈ setup.vifs, List.lookup entry.1 vif ≠ some (some (.string [])) := by
  obtain ⟨hne, hfree⟩ := setup.defaults entry hentry
  have hsetup : mtwifiCfgSetup setup.vifCfgs setup.vifs dats =
      some (setVifs setup.vifs (resetVifs setup.vifCfgs setup.vifs.length dats)) := if_neg (Nat.not_lt.2 setup.le)
  have hvalues : ∀ value ∈ setup.vifs.map fun vif => Vif.value vif entry, ';' ∉ value := by
    intro value hvalue
    obtain ⟨vif, hvif, rfl⟩ := List.mem_map.1 hvalue
    exact Vif.semicolon_not_mem_value (setup.plain vif hvif) hfree
  constructor
  · rintro ⟨dats', -, haligned⟩ vif hvif hempty
    refine ((aligned_iff hvalues).1 haligned).2 _ (List.mem_map_of_mem hvif) ?_
    exact (Vif.value_eq_nil_iff (setup.plain vif hvif) hne).2 hempty
  · intro hnonempty
    have htoken : ∀ vif ∈ setup.vifs, IsToken (Vif.value vif entry) := fun vif hvif =>
      ⟨fun hnil => hnonempty vif hvif ((Vif.value_eq_nil_iff (setup.plain vif hvif) hne).1 hnil),
        Vif.semicolon_not_mem_value (setup.plain vif hvif) hfree⟩
    refine ⟨_, hsetup, (aligned_iff hvalues).2 ⟨?_, ?_⟩⟩
    · exact setVifs_apply setup.once setup.plain ⟨hne, hfree⟩ htoken [] (by simp)
        (resetVifs_apply setup.names hentry ⟨hne, hfree⟩ _ dats)
    · intro value hvalue
      obtain ⟨vif, hvif, rfl⟩ := List.mem_map.1 hvalue
      exact (htoken vif hvif).ne_nil

/-! ### The options of the script -/

theorem pmfDats_names (authMode : String) :
    ((pmfDats authMode).map Prod.fst).Sublist ["PMFMFPC", "PMFMFPR", "PMFSHA256"] := by
  rw [pmfDats]
  split
  · exact List.Sublist.refl _
  · split
    · exact List.Sublist.refl _
    · exact List.nil_sublist _

theorem rekeyDats_names (authMode : String) : ((rekeyDats authMode).map Prod.fst).Sublist ["RekeyMethod"] := by
  rw [rekeyDats]
  split
  · exact List.nil_sublist _
  · exact List.Sublist.refl _

/-- The calls for an access point set each option once. -/
theorem VifConfig.vif_once (v : VifConfig) (axMode : Bool) (wirelessMode : Number) :
    ((v.vif axMode wirelessMode).map Prod.fst).Nodup := by
  have hconfigured : (configured.map fun entry => (entry.1, v.config entry.2)).map Prod.fst =
      configured.map Prod.fst := by
    rw [List.map_map]
    rfl
  have hall : (configured.map Prod.fst ++ ["WirelessMode", "HT_BAWinSize", "AuthMode", "EncrypType"] ++
      ["PMFMFPC", "PMFMFPR", "PMFSHA256"] ++ ["RekeyMethod"]).Nodup := by decide
  refine List.Nodup.sublist ?_ hall
  rw [VifConfig.vif, List.map_append, List.map_append, List.map_append, hconfigured]
  exact ((List.Sublist.refl _).append (pmfDats_names v.authMode)).append (rekeyDats_names v.authMode)

/-- A configuration without lists and semicolons. -/
structure VifConfig.Plain (v : VifConfig) : Prop where
  config : ∀ uci cfg, v.config uci = some cfg → cfg.Plain
  authMode : ';' ∉ v.authMode.toList
  encrypType : ';' ∉ v.encrypType.toList

theorem VifConfig.vif_plain {v : VifConfig} (h : v.Plain) (axMode : Bool) (wirelessMode : Number) :
    ∀ dat cfg, (dat, some cfg) ∈ v.vif axMode wirelessMode → cfg.Plain := by
  intro dat cfg hmem
  rw [VifConfig.vif, List.mem_append, List.mem_append, List.mem_append] at hmem
  obtain ((hmem | hmem) | hmem) | hmem := hmem
  · obtain ⟨entry, -, heq⟩ := List.mem_map.1 hmem
    exact h.config entry.2 cfg (congrArg Prod.snd heq)
  · simp only [List.mem_cons, Prod.mk.injEq, Option.some.injEq, List.not_mem_nil, or_false] at hmem
    obtain ⟨-, rfl⟩ | ⟨-, rfl⟩ | ⟨-, rfl⟩ | ⟨-, rfl⟩ := hmem
    · trivial
    · cases axMode <;> trivial
    · exact h.authMode
    · exact h.encrypType
  · rw [pmfDats] at hmem
    split at hmem
    · simp only [List.mem_cons, Prod.mk.injEq, Option.some.injEq, List.not_mem_nil, or_false] at hmem
      obtain ⟨-, rfl⟩ | ⟨-, rfl⟩ | ⟨-, rfl⟩ := hmem <;> trivial
    · split at hmem
      · simp only [List.mem_cons, Prod.mk.injEq, Option.some.injEq, List.not_mem_nil, or_false] at hmem
        obtain ⟨-, rfl⟩ | ⟨-, rfl⟩ | ⟨-, rfl⟩ := hmem <;> trivial
      · cases hmem
  · rw [rekeyDats] at hmem
    split at hmem
    · cases hmem
    · simp only [List.mem_cons, Prod.mk.injEq, Option.some.injEq, List.not_mem_nil, or_false] at hmem
      obtain ⟨-, rfl⟩ := hmem
      exact (by decide : ';' ∉ "TIME".toList)

/-- The setup of access points that are configured so. -/
def Setup.ofConfigs (vifCfgs : List (String × Text)) (configs : List VifConfig) (axMode : Bool) (wirelessMode : Number)
    (names : (vifCfgs.map Prod.fst).Nodup) (defaults : ∀ entry ∈ vifCfgs, entry.2 ≠ [] ∧ ';' ∉ entry.2)
    (plain : ∀ v ∈ configs, v.Plain) (le : configs.length ≤ maxMbssid) : Setup where
  vifCfgs := vifCfgs
  vifs := configs.map fun v => v.vif axMode wirelessMode
  names := names
  defaults := defaults
  once := List.forall_mem_map.2 fun v _ => v.vif_once axMode wirelessMode
  plain := List.forall_mem_map.2 fun _ hv => VifConfig.vif_plain (plain _ hv) axMode wirelessMode
  le := (List.length_map _).trans_le le

/-- An open access point with an interval. -/
def rekeyConfig (interval : Option Text) : VifConfig where
  config uci := if uci = "wpa_group_rekey" then interval.map .string else none
  authMode := "OPEN"
  encrypType := "NONE"

theorem rekeyConfig_plain {interval : Option Text} (h : ∀ s, interval = some s → ';' ∉ s) :
    (rekeyConfig interval).Plain where
  config uci cfg hcfg := by
    rw [rekeyConfig] at hcfg
    dsimp only at hcfg
    split at hcfg
    · obtain ⟨s, hs, rfl⟩ := Option.map_eq_some_iff.1 hcfg
      exact h s hs
    · cases hcfg
  authMode := (by decide : ';' ∉ "OPEN".toList)
  encrypType := (by decide : ';' ∉ "NONE".toList)

/-- Three access points, one with an empty interval, one with an interval, and one without. -/
def emptySetup : Setup :=
  .ofConfigs [("RekeyInterval", "3600".toList)]
    [rekeyConfig (some []), rekeyConfig (some "60".toList), rekeyConfig none] false ⟨['9'], by decide, by decide⟩
    (by decide) (by decide)
    (by
      simp only [List.forall_mem_cons]
      refine ⟨rekeyConfig_plain ?_, rekeyConfig_plain ?_, rekeyConfig_plain nofun, nofun⟩
      · rintro _ ⟨⟩
        exact List.not_mem_nil
      · rintro _ ⟨⟩
        decide)
    (by decide)

theorem emptySetup_text :
    (mtwifiCfgSetup emptySetup.vifCfgs emptySetup.vifs fun _ => none).bind (fun dats => dats "RekeyInterval") =
      some "3600;60".toList := by decide +kernel

/-- The first access point gets the default, and the last one has no token. -/
theorem not_alignedAt_empty : ¬ emptySetup.AlignedAt (fun _ => none) ("RekeyInterval", "3600".toList) := by
  rintro ⟨dats, hdats, -, -, htoken⟩
  have htext := emptySetup_text
  rw [hdats, Option.bind_some] at htext
  have hfirst := htoken 0 [] rfl
  rw [htext] at hfirst
  exact absurd hfirst (by decide)

theorem alignedAt_iff_empty :
    emptySetup.AlignedAt (fun _ => none) ("RekeyInterval", "3600".toList) ↔
      ∀ vif ∈ emptySetup.vifs, List.lookup "RekeyInterval" vif ≠ some (some (.string [])) :=
  alignedAt_iff emptySetup (fun _ => none) (List.mem_singleton.2 rfl)

end Immwrt.Mtwifi
