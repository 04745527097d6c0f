import Immwrt.Nvram.Proof.Commit

/-!
# What a commit keeps

`nvram_set` checks each value alone, and `nvram_commit` the sum of what it writes, bucket after bucket. The table is then
filled from what was written, so a variable that did not fit is gone unless the header happens to give it back.
-/

namespace Immwrt.Nvram

open Handle

variable {tgt : Target} {addr : Nat} {h h₁ h' : Handle}

/-! ### Defaults -/

theorem hexDigits_length_le (fuel n : Nat) : (hexDigits fuel n).length ≤ fuel := by
  induction fuel generalizing n with
  | zero => exact Nat.le_refl 0
  | succ fuel ih =>
      rw [hexDigits]
      split
      · exact Nat.zero_le _
      · rw [List.length_append, List.length_singleton]
        exact Nat.succ_le_succ (ih _)

theorem strlen_sprintfHex_le {width : Nat} (hwidth : width ≤ 8) (n : Nat) : (sprintfHex width n).strlen ≤ 10 := by
  have hdigits := hexDigits_length_le 8 n
  have hle : (sprintfHex width n).strlen ≤ (ofChars "0x" ++ printfHex true width n).length :=
    (List.takeWhile_sublist _).length_le
  have hchars : (ofChars "0x").length = 2 := rfl
  rw [List.length_append, hchars, printfHex, List.length_map, List.length_append, List.length_replicate] at hle
  omega

theorem sdramDefaults_fit {header : Header} {default : CString × CString} (hmem : default ∈ sdramDefaults header) :
    default.2.strlen ≤ 10 := by
  simp only [sdramDefaults, List.mem_cons, List.not_mem_nil, or_false] at hmem
  rcases hmem with rfl | rfl | rfl | rfl <;> exact strlen_sprintfHex_le (by decide) _

theorem sdramDefaults_names (header : Header) : (sdramDefaults header).map Prod.fst = sdramNames := rfl

theorem sdramNames_nodup : sdramNames.Nodup := by
  decide

theorem eqChar_notMem_sdramNames : ∀ name ∈ sdramNames, eqChar ∉ name.bytes := by
  decide

theorem setDefault_bound {name value : CString} (hbound : (h.nvramGet tgt name).isNone = false) :
    h.setDefault tgt name value = h := by
  rw [setDefault, hbound]
  rfl

theorem setDefault_missing (hwf : WellFormed tgt h) {name value : CString} (hmissing : h.nvramGet tgt name = none)
    (hfits : value.strlen + 1 ≤ h.room) :
    WellFormed tgt (h.setDefault tgt name value) ∧ h.SameMap (h.setDefault tgt name value) ∧
      (h.setDefault tgt name value).nvramGet tgt = Function.update (h.nvramGet tgt) name (some value) := by
  obtain ⟨hset, hsame, hget⟩ := hwf.step (.set name value)
  rw [Op.apply, if_neg (Nat.not_lt.2 hfits)] at hget
  have hdefault : h.setDefault tgt name value = Op.step tgt h (.set name value) := by
    rw [setDefault, hmissing]
    rfl
  rw [hdefault]
  exact ⟨hset, hsame, hget⟩

/-- Each default is taken exactly if its variable is missing. -/
theorem defaults_spec (defaults : List (CString × CString)) (hwf : WellFormed tgt h)
    (hnodup : (defaults.map Prod.fst).Nodup) (hfits : ∀ default ∈ defaults, default.2.strlen + 1 ≤ h.room)
    (name value : CString) :
    (defaults.foldl (fun h default => h.setDefault tgt default.1 default.2) h).nvramGet tgt name = some value ↔
      h.nvramGet tgt name = some value ∨ h.nvramGet tgt name = none ∧ (name, value) ∈ defaults := by
  induction defaults generalizing h with
  | nil => simp
  | cons default defaults ih =>
      rw [List.map_cons, List.nodup_cons] at hnodup
      rw [List.foldl_cons]
      have hrest : ∀ other ∈ defaults, other.2.strlen + 1 ≤ h.room :=
        fun other hmem => hfits other (List.mem_cons_of_mem _ hmem)
      cases hget : h.nvramGet tgt default.1 with
      | some bound =>
          have hkept : (h.nvramGet tgt default.1).isNone = false := by rw [hget]; rfl
          rw [setDefault_bound hkept, ih hwf hnodup.2 hrest, List.mem_cons]
          refine or_congr_right (and_congr_right fun hnone => ?_)
          refine (or_iff_right fun heq => ?_).symm
          rw [← heq, hnone] at hget
          cases hget
      | none =>
          obtain ⟨hwf', hsame, hget'⟩ := setDefault_missing hwf hget (hfits default List.mem_cons_self)
          rw [← hsame.room] at hrest
          rw [ih hwf' hnodup.2 hrest, hget', List.mem_cons]
          by_cases hname : name = default.1
          · subst hname
            have hout : (default.1, value) ∉ defaults := fun hmem =>
              hnodup.1 (List.mem_map.2 ⟨_, hmem, rfl⟩)
            rw [Function.update_self, hget]
            simp [hout, Prod.ext_iff, eq_comm]
          · rw [Function.update_of_ne hname]
            have hne : (name, value) ≠ default := fun heq => hname (congrArg Prod.fst heq)
            simp only [hne, false_or]

/-! ### The table after a commit -/

theorem rehashLinesIn_text (tuples : List (CString × CString)) (hnames : ∀ tuple ∈ tuples, eqChar ∉ tuple.1.bytes)
    (rest : List Byte) (h : Handle) :
    rehashLinesIn tgt (tuples.flatMap encodeTuple ++ 0 :: rest) h =
      some (runOps tgt (tuples.map fun tuple => .set tuple.1 tuple.2) h) := by
  induction tuples generalizing h with
  | nil =>
      have hnil : (0 : Byte) ∉ [] ∧ eqChar ∉ [] := ⟨List.not_mem_nil, List.not_mem_nil⟩
      exact rehashLinesIn_end hnil.1 hnil.2 h
  | cons tuple tuples ih =>
      rw [List.forall_mem_cons] at hnames
      rw [List.flatMap_cons, List.append_assoc, rehashLinesIn_cons tuple hnames.1, ih hnames.2]
      rfl

/-- A table that is filled from a text binds its tuples, and what is missing to the defaults. -/
theorem nvramRehash_bindings {tuples : List (CString × CString)} {rest : List Byte}
    (htext : h.mmap.drop (h.offset.toNat + headerSize) = tuples.flatMap encodeTuple ++ 0 :: rest)
    (hnames : ∀ tuple ∈ tuples, eqChar ∉ tuple.1.bytes) (hnodup : (tuples.map Prod.fst).Nodup)
    (hfits : ∀ tuple ∈ tuples, tuple.2.strlen + 1 ≤ h.room) (hroom : 11 ≤ h.room) (name value : CString) :
    (h.nvramRehash tgt).nvramGet tgt name = some value ↔
      (name, value) ∈ tuples ∨ name ∉ tuples.map Prod.fst ∧ (name, value) ∈ sdramDefaults h.nvramHeader := by
  have hrehash : h.nvramRehashIn tgt = some (setDefaults tgt h.nvramHeader
      (runOps tgt (tuples.map fun tuple => .set tuple.1 tuple.2) h.nvramFree)) := by
    rw [nvramRehashIn, htext, rehashLinesIn_text tuples hnames]
    rfl
  obtain ⟨hwf, hsame, hget⟩ := (nvramFree_wellFormed tgt h).run (tuples.map fun tuple => .set tuple.1 tuple.2)
  have hempty : h.nvramFree.nvramGet tgt = fun _ => none := rfl
  obtain ⟨hbound, hother⟩ := bindings_of_sets h.nvramFree.room hnodup hfits (h.nvramFree.nvramGet tgt)
  rw [← hget] at hbound hother
  have hspec := defaults_spec (sdramDefaults h.nvramHeader) hwf
    ((sdramDefaults_names _).symm ▸ sdramNames_nodup) (fun default hmem => by
      have hle := sdramDefaults_fit hmem
      have hkept : (runOps tgt (tuples.map fun tuple => .set tuple.1 tuple.2) h.nvramFree).room = h.room := hsame.room
      omega) name value
  rw [nvramRehash_of_in hrehash, setDefaults, hspec]
  by_cases hmem : name ∈ tuples.map Prod.fst
  · obtain ⟨tuple, htuple, rfl⟩ := List.mem_map.1 hmem
    have hsome := hbound tuple htuple
    rw [hsome]
    have hiff : (tuple.1, value) ∈ tuples ↔ tuple.2 = value := by
      constructor
      · intro hvalue
        have hsame := hbound _ hvalue
        rw [hsome] at hsame
        exact Option.some.inj hsame
      · rintro rfl
        exact htuple
    simp [hiff, hmem]
  · have hnone := hother name hmem
    rw [hempty] at hnone
    have hout : (name, value) ∉ tuples := fun htuple => hmem (List.mem_map.2 ⟨_, htuple, rfl⟩)
    rw [hnone]
    simp [hout, hmem]

/-- The scan of a text never binds a name with `=`. -/
theorem rehashLines_names (hwf : WellFormed tgt h) {name : CString} (heq : eqChar ∈ name.bytes)
    (hnone : h.nvramGet tgt name = none) (fuel : Nat) (bytes : List Byte) :
    (rehashLines tgt fuel bytes h).nvramGet tgt name = none := by
  induction fuel generalizing bytes h with
  | zero => exact hnone
  | succ fuel ih =>
      rw [rehashLines]
      dsimp only
      split
      · exact hnone
      · obtain ⟨hset, -, hget⟩ := hwf.step (.set (.ofBytes ((CString.ofBytes bytes).bytes.takeWhile (· ≠ eqChar)))
          (.ofBytes (((CString.ofBytes bytes).bytes.dropWhile (· ≠ eqChar)).drop 1)))
        refine ih hset ?_ _
        have hne : name ≠ .ofBytes ((CString.ofBytes bytes).bytes.takeWhile (· ≠ eqChar)) := by
          rintro rfl
          have hmem := (List.takeWhile_sublist _).mem heq
          simpa using List.mem_takeWhile_imp hmem
        refine (congrFun hget name).trans ?_
        rw [Op.apply]
        split
        · exact hnone
        · rw [Function.update_of_ne hne, hnone]

theorem nvramRehash_names (tgt : Target) (hroom : 11 ≤ h.room) {name : CString} (heq : eqChar ∈ name.bytes) :
    (h.nvramRehash tgt).nvramGet tgt name = none := by
  have hrehash : h.nvramRehash tgt = setDefaults tgt h.nvramHeader (rehashLines tgt h.nvramFree.mmap.length
    (h.nvramFree.mmap.drop (h.nvramFree.offset.toNat + headerSize)) h.nvramFree) := rfl
  obtain ⟨hwf, hsame⟩ := rehashLines_keeps (nvramFree_wellFormed tgt h) h.nvramFree.mmap.length
    (h.nvramFree.mmap.drop (h.nvramFree.offset.toNat + headerSize))
  have hlines := rehashLines_names (nvramFree_wellFormed tgt h) heq rfl h.nvramFree.mmap.length
    (h.nvramFree.mmap.drop (h.nvramFree.offset.toNat + headerSize))
  have hfits : ∀ default ∈ sdramDefaults h.nvramHeader, default.2.strlen + 1 ≤ Handle.room (rehashLines tgt
      h.nvramFree.mmap.length (h.nvramFree.mmap.drop (h.nvramFree.offset.toNat + headerSize)) h.nvramFree) := by
    intro default hmem
    have hle := sdramDefaults_fit hmem
    have hkept : h.nvramFree.room = h.room := rfl
    rw [hsame.room, hkept]
    omega
  rw [hrehash, Option.eq_none_iff_forall_ne_some]
  intro value hvalue
  rw [setDefaults, defaults_spec _ hwf ((sdramDefaults_names _).symm ▸ sdramNames_nodup) hfits, hlines] at hvalue
  rcases hvalue with hvalue | ⟨-, hmem⟩
  · cases hvalue
  · refine eqChar_notMem_sdramNames name ?_ heq
    rw [← sdramDefaults_names h.nvramHeader]
    exact List.mem_map.2 ⟨_, hmem, rfl⟩

theorem shiftRight_or_crc (word : Word) (crc : Byte) : (word ||| crc.zeroExtend 32) >>> 16 = word >>> 16 := by
  ext i hi
  have hzero := BitVec.getLsbD_of_ge crc (16 + i) (by omega)
  simp [hzero]

/-- The checksum is not part of what the header gives back. -/
theorem Committed.defaults (hcommitted : Committed tgt h h₁) :
    sdramDefaults h₁.nvramHeader = sdramDefaults (h.commitHeader tgt) := by
  obtain ⟨crc, hheader⟩ := hcommitted.header
  rw [hheader, sdramDefaults, sdramDefaults, shiftRight_or_crc]

theorem Mounted.writtenEnd_le (hm : Mounted h) : h.writtenEnd + 2 ≤ h.length.toNat := by
  have hspace := hm.space
  rw [nvramMinSpace] at hspace
  have hstart : h.offset.toNat + headerSize ≤ h.length.toNat - 2 := by
    rw [headerSize]
    omega
  have hle := fittingAll_le ((List.finRange nvramArraysize).map h.bucketTuples) hstart
  rw [← writtenTuples, ← writtenText, ← writtenEnd] at hle
  omega

theorem Mounted.room (hm : Mounted h) : h.room = h.length.toNat - h.offset.toNat := by
  rw [Handle.room]
  exact BitVec.toNat_sub_of_le (BitVec.le_def.2 ((Nat.le_add_right _ _).trans hm.space))

section Kept

variable {xs : Root → List Ptr} (hrep : Represents tgt h xs)

include hrep

theorem writtenTuples_bound {tuple : CString × CString} (hmem : tuple ∈ h.writtenTuples) :
    h.nvramGet tgt tuple.1 = some tuple.2 := by
  have hall := (fittingAll_sublist _ _ _).mem hmem
  rw [flatten_buckets] at hall
  exact (mem_allTuples hrep tuple.1 tuple.2).1 hall

theorem writtenTuples_nodup : (h.writtenTuples.map Prod.fst).Nodup := by
  have hsub := fittingAll_sublist (h.length.toNat - 2) ((List.finRange nvramArraysize).map h.bucketTuples)
    (h.offset.toNat + headerSize)
  rw [flatten_buckets] at hsub
  exact (hsub.map Prod.fst).nodup (allTuples_nodup hrep)

/-- What the table binds after a commit. -/
theorem Committed.bindings (hcommitted : Committed tgt h h₁) (hm : Mounted h)
    (hnames : ∀ tuple ∈ h.writtenTuples, eqChar ∉ tuple.1.bytes) (name value : CString) :
    (h₁.nvramRehash tgt).nvramGet tgt name = some value ↔
      (name, value) ∈ h.writtenTuples ∨
        name ∉ h.writtenTuples.map Prod.fst ∧ (name, value) ∈ sdramDefaults (h.commitHeader tgt) := by
  obtain ⟨rest, htext⟩ := hcommitted.text
  rw [← hcommitted.offset] at htext
  have hroom : h₁.room = h.length.toNat - h.offset.toNat := by
    rw [Handle.room, hcommitted.length, hcommitted.offset]
    exact hm.room
  have hspace := hm.space
  rw [nvramMinSpace] at hspace
  have hfits : ∀ tuple ∈ h.writtenTuples, tuple.2.strlen + 1 ≤ h₁.room := by
    intro tuple hmem
    have hle : (encodeTuple tuple).length ≤ h.writtenText.length := by
      rw [writtenText, List.length_flatMap]
      exact List.single_le_sum (fun _ _ => Nat.zero_le _) _ (List.mem_map.2 ⟨tuple, hmem, rfl⟩)
    have hend := hm.writtenEnd_le
    rw [writtenEnd] at hend
    rw [length_encodeTuple] at hle
    omega
  rw [nvramRehash_bindings htext hnames (writtenTuples_nodup hrep) hfits (by omega), hcommitted.defaults]

end Kept

/-- The partition with a second variable. -/
def twoVariables (tgt : Target) (size : Nat) : Handle :=
  ((oneVariable tgt size).nvramSet tgt (.lit "w") (varValue size)).1

theorem twoVariables_spec (tgt : Target) {size : Nat} (hsize : size < 0x7FFF) :
    WellFormed tgt (twoVariables tgt size) ∧ Mounted (twoVariables tgt size) ∧
      (twoVariables tgt size).length.toNat = 0x8000 ∧
      (twoVariables tgt size).nvramGet tgt varName = some (varValue size) ∧
      (twoVariables tgt size).nvramGet tgt (.lit "w") = some (varValue size) := by
  have hone := oneVariable_spec tgt size (by omega)
  have hfresh : WellFormed tgt (freshHandle blankPartition 0) := nvramFree_wellFormed tgt (freshHandle blankPartition 0)
  have hstep : Op.step tgt (freshHandle blankPartition 0) (.set varName (varValue size)) = oneVariable tgt size := rfl
  have hstep' : Op.step tgt (oneVariable tgt size) (.set (.lit "w") (varValue size)) = twoVariables tgt size := rfl
  obtain ⟨-, hsame, hget⟩ := hfresh.step (.set varName (varValue size))
  obtain ⟨hwf', hsame', hget'⟩ := hone.wellFormed.step (.set (.lit "w") (varValue size))
  rw [hstep] at hsame hget
  rw [hstep'] at hwf' hsame' hget'
  have hroom : (oneVariable tgt size).room = 0x8000 := by
    rw [hone.mounted.room]
    exact hone.space
  have hvalue : (varValue size).strlen = size := List.length_replicate
  have hshort : ¬ (varValue size).strlen + 1 > 0x8000 := by omega
  rw [← hsame.room, hroom, Op.apply, if_neg hshort] at hget
  rw [hroom, Op.apply, if_neg hshort] at hget'
  have hne : varName ≠ .lit "w" := by decide
  have hlength : (oneVariable tgt size).length.toNat = 0x8000 := by
    have hspace := hone.space
    have hzero : (oneVariable tgt size).offset.toNat = 0 := congrArg BitVec.toNat (oneVariable_offset tgt size)
    unfold Nvram.space at hspace
    omega
  refine ⟨hwf', hone.mounted.of_sameMap hsame', ?_, ?_, ?_⟩
  · rw [hsame'.2.1]
    exact hlength
  · rw [hget', Function.update_of_ne hne, hget, Function.update_self]
  · rw [hget', Function.update_self]

theorem twoVariables_text {size : Nat}
    (hfst : (varName, varValue size) ∈ h.writtenTuples) (hsnd : (.lit "w", varValue size) ∈ h.writtenTuples) :
    2 * size + 6 ≤ h.writtenText.length := by
  have hpair : [(varName, varValue size), (.lit "w", varValue size)].Subperm h.writtenTuples := by
    apply List.subperm_of_subset
    · have hnodup : [varName, .lit "w"].Nodup := by decide
      exact List.Nodup.of_map Prod.fst hnodup
    · intro tuple hmem
      simp only [List.mem_cons, List.not_mem_nil, or_false] at hmem
      rcases hmem with rfl | rfl
      · exact hfst
      · exact hsnd
  obtain ⟨tuples, hperm, hsub⟩ := hpair
  have hle : (tuples.map fun tuple => (encodeTuple tuple).length).sum ≤
      (h.writtenTuples.map fun tuple => (encodeTuple tuple).length).sum :=
    (hsub.map _).sum_le_sum fun _ _ => Nat.zero_le _
  rw [(hperm.map fun tuple => (encodeTuple tuple).length).sum_eq, List.map_cons, List.map_cons, List.map_nil,
    List.sum_cons, List.sum_cons, List.sum_nil, length_encodeTuple, length_encodeTuple] at hle
  have hvalue : (varValue size).strlen = size := List.length_replicate
  have hnames : varName.strlen = 1 ∧ (CString.lit "w").strlen = 1 := ⟨rfl, rfl⟩
  rw [writtenText, List.length_flatMap]
  dsimp only at hle
  omega

end Immwrt.Nvram
