import Immwrt.Ptgen.Proof.Place

/-!
# Consistent partition tables

Both tables are consistent exactly when the positions fit them. A GPT takes more: the gap before the first
partition has to hold the entry of the boot loader, the last track the backup of the table, and the last slot
no partition.
-/

namespace Immwrt.Ptgen

variable {cfg : Config} {parts : List PartInfo}

/-! ### Entries and places -/

/-- The entries of a format: where they say a place is, and what is printed for it. They are right for the
places within `bound`, and for no others. -/
structure Format (bound : Nat) (extent : Place → Extent) (line : Place → Option Int × Option Int) : Prop where
  right_iff : ∀ place,
    ((extent place).start < (extent place).stop ∧
      line place = (some ((extent place).start * 512 : Int),
        some (((extent place).stop - (extent place).start : Nat) * 512 : Int))) ↔ place.Within bound
  start : ∀ place, place.Within bound → (extent place).start = place.start.toNat
  stop : ∀ place, place.Within bound → (extent place).stop = place.sect.toNat

variable {bound : Nat} {extent : Place → Extent} {line : Place → Option Int × Option Int}

/-- A table says what it should of a list of places exactly when they are a chain within the bound. -/
theorem Format.consistent_iff (hformat : Format bound extent line) {places : List Place}
    (hparts : places.map Place.part = parts.filter (fun part => part.size ≠ 0)) :
    (Sound (places.map extent) ∧ Serves parts (places.map extent) (places.map line)) ↔ Chained bound 0 places := by
  have hsize : ∀ place ∈ places, place.part.size ≠ 0 := by
    intro place hplace
    have hmem : place.part ∈ parts.filter (fun part => part.size ≠ 0) := hparts ▸ List.mem_map_of_mem hplace
    simpa using (List.mem_filter.mp hmem).2
  have hlarge : List.Forall₂ (fun (part : PartInfo) (e : Extent) => 2 * part.size.toNat ≤ e.stop - e.start)
      (parts.filter fun part => part.size ≠ 0) (places.map extent) ↔
        ∀ place ∈ places, 2 * place.part.size.toNat ≤ (extent place).stop - (extent place).start := by
    rw [← hparts, List.forall₂_map_left_iff, List.forall₂_map_right_iff, List.forall₂_same]
  rw [chained_iff hsize]
  constructor
  · rintro ⟨hsound, hserves⟩
    have hline := hserves.printed
    rw [List.map_map, List.map_inj_left] at hline
    have hwithin : ∀ place ∈ places, place.Within bound := fun place hplace =>
      (hformat.right_iff place).mp ⟨hsound.nonempty _ (List.mem_map_of_mem hplace), hline place hplace⟩
    refine ⟨fun _ _ => Nat.zero_le _, hwithin, fun place hplace => ?_, ?_⟩
    · rw [← hformat.start place (hwithin place hplace), ← hformat.stop place (hwithin place hplace)]
      exact hlarge.mp hserves.large place hplace
    · have hdisjoint := List.pairwise_map.mp hsound.disjoint
      have hordered := List.pairwise_map.mp hserves.ordered
      apply (hdisjoint.and hordered).imp_of_mem
      rintro place place' hplace hplace' ⟨hapart, hbefore⟩
      have hwithin' := (hwithin place' hplace').lt_sect
      rw [Extent.Disjoint, hformat.start place (hwithin place hplace), hformat.stop place (hwithin place hplace),
        hformat.start place' (hwithin place' hplace'), hformat.stop place' (hwithin place' hplace')] at hapart
      rw [hformat.start place (hwithin place hplace), hformat.start place' (hwithin place' hplace')] at hbefore
      omega
  · rintro ⟨-, hwithin, hlarges, hpairs⟩
    have hright := fun place hplace => (hformat.right_iff place).mpr (hwithin place hplace)
    have hapart : places.Pairwise fun place place' => (extent place).stop ≤ (extent place').start := by
      apply hpairs.imp_of_mem
      intro place place' hplace hplace' hle
      rwa [hformat.stop place (hwithin place hplace), hformat.start place' (hwithin place' hplace')]
    refine ⟨⟨?_, ?_⟩, ⟨?_, ?_, ?_⟩⟩
    · rw [List.forall_mem_map]
      exact fun place hplace => (hright place hplace).1
    · exact List.pairwise_map.mpr (hapart.imp fun hle => Or.inl hle)
    · rw [hlarge]
      intro place hplace
      rw [hformat.start place (hwithin place hplace), hformat.stop place (hwithin place hplace)]
      exact hlarges place hplace
    · rw [List.pairwise_map]
      apply hapart.imp_of_mem
      intro place place' hplace _ hle
      exact (hright place hplace).1.trans_le hle
    · rw [List.map_map, List.map_inj_left]
      exact fun place hplace => (hright place hplace).2

/-! ### The table of the BIOS -/

theorem bytesLong_eq_iff {x : BitVec 64} {n : Nat} (hn : n < 2 ^ 32) :
    bytesLong x = some (n * 512 : Int) ↔ x.toNat = n := by
  have hint := BitVec.toInt_eq_toNat_cond x
  rw [bytesLong]
  constructor
  · intro h
    split at h
    · have heq := Option.some.inj h
      split at hint <;> omega
    · cases h
  · intro h
    rw [if_pos (by omega)] at hint
    rw [if_pos (by omega), hint, h]

theorem pte_format (cfg : Config) : Format (2 ^ 32) (fun place => (pteOf cfg place).extent)
    fun place => (bytesLong place.start, bytesLong (place.sect - place.start)) := by
  have hstart : ∀ place, (pteOf cfg place).extent.start = place.start.toNat % 2 ^ 32 := fun place => by
    rw [Pte.extent, pteOf, BitVec.toNat_setWidth]
  have hstop : ∀ place, (pteOf cfg place).extent.stop =
      place.start.toNat % 2 ^ 32 + (place.sect - place.start).toNat % 2 ^ 32 := fun place => by
    rw [Pte.extent, pteOf, BitVec.toNat_setWidth, BitVec.toNat_setWidth]
  have hsub : ∀ place : Place, (place.sect - place.start).toNat =
      if place.start.toNat ≤ place.sect.toNat then place.sect.toNat - place.start.toNat
      else 2 ^ 64 + place.sect.toNat - place.start.toNat := fun place => by
    rw [BitVec.toNat_sub]
    split <;> omega
  refine ⟨fun place => ?_, fun place hwithin => ?_, fun place hwithin => ?_⟩
  · have hlen := hsub place
    rw [hstart, hstop, Nat.add_sub_cancel_left, Prod.mk.injEq, bytesLong_eq_iff (Nat.mod_lt _ (by decide)),
      bytesLong_eq_iff (Nat.mod_lt _ (by decide))]
    constructor
    · rintro ⟨hnonempty, hstartEq, hlenEq⟩
      split at hlen
      · exact ⟨by omega, by omega, by omega⟩
      · omega
    · rintro ⟨hlt, hlast, hbound⟩
      rw [if_pos (by omega)] at hlen
      omega
  · rw [hstart, Nat.mod_eq_of_lt hwithin.start_lt]
  · have hlen := hsub place
    obtain ⟨hlt, hlast, hbound⟩ := hwithin
    rw [if_pos (by omega)] at hlen
    rw [hstop]
    omega

/-- A table of the BIOS is consistent if and only if, in unbounded arithmetic, no partition starts at or is as
long as 2^32 sectors and rounding goes up. -/
theorem ptable_consistent_iff {table : Ptable} (h : genPtable cfg parts = some table) :
    table.Consistent parts ↔ Fits cfg (2 ^ 32) parts 0 := by
  obtain ⟨⟨slots, last⟩, hloop, rfl⟩ := Option.map_eq_some_iff.mp h
  obtain ⟨hparts, -⟩ := parts_of_placeLoop hloop
  have hentries : (slots.map (Option.map (pteOf cfg)) ++
      List.replicate (mbrEntryMax - slots.length) none).reduceOption.map Pte.extent =
        slots.reduceOption.map fun place => (pteOf cfg place).extent := by
    rw [List.reduceOption_append, List.reduceOption_replicate_none, List.append_nil, List.reduceOption_map,
      List.map_map]
    rfl
  have hfits : Chained (2 ^ 32) 0 slots.reduceOption ↔ Fits cfg (2 ^ 32) parts 0 :=
    @chained_iff_fits cfg (2 ^ 32) (by decide) 0 parts 0 last slots hloop (by decide)
  rw [← hfits, ← (pte_format cfg).consistent_iff hparts]
  constructor
  · rintro ⟨hsound, hserves⟩
    rw [hentries] at hsound hserves
    exact ⟨hsound, hserves⟩
  · rintro ⟨hsound, hserves⟩
    rw [← hentries] at hsound hserves
    exact ⟨hsound, hserves⟩

/-! ### The entries of a GPT -/

theorem gpte_format (cfg : Config) : Format (2 ^ 55) (fun place => (gpteOf cfg place).extent)
    fun place => (some ((place.start * 512).toNat : Int), some (((place.sect - place.start) * 512).toNat : Int)) := by
  have h512 : (512 : BitVec 64).toNat = 512 := rfl
  have hstart : ∀ place, (gpteOf cfg place).extent.start = place.start.toNat := fun _ => rfl
  have hlast : ∀ place, (gpteOf cfg place).extent.stop =
      if place.sect.toNat = 0 then 2 ^ 64 else place.sect.toNat := fun place => by
    have hone : (1 : BitVec 64).toNat = 1 := rfl
    show (place.sect - 1).toNat + 1 = _
    rw [BitVec.toNat_sub, hone]
    split <;> omega
  have hsub : ∀ place : Place, place.start.toNat ≤ place.sect.toNat →
      (place.sect - place.start).toNat = place.sect.toNat - place.start.toNat := fun place hle => by
    rw [BitVec.toNat_sub]
    omega
  refine ⟨fun place => ?_, fun place hwithin => rfl, fun place hwithin => ?_⟩
  · have hstop := hlast place
    rw [hstart, Prod.mk.injEq, Option.some.injEq, Option.some.injEq, BitVec.toNat_mul, BitVec.toNat_mul, h512]
    constructor
    · rintro ⟨hnonempty, hstartEq, hlen⟩
      split at hstop
      · omega
      · have hlenEq := hsub place (by omega)
        exact ⟨by omega, by omega, by omega⟩
    · rintro ⟨hlt, hend, hbound⟩
      have hlenEq := hsub place (by omega)
      rw [if_neg (by omega)] at hstop
      omega
  · have hstop := hlast place
    obtain ⟨hlt, hend, hbound⟩ := hwithin
    rw [if_neg (by omega)] at hstop
    exact hstop

/-- The slots of the partitions, but for the last, which is written over. -/
theorem gpt_entries {slots : List (Option Place)} (hlen : slots.length ≤ gptEntryMax) (bios : Gpte) :
    ((slots.map (Option.map (gpteOf cfg)) ++ List.replicate (gptEntryMax - slots.length) none).set
        (gptEntryMax - 1) (some bios)).reduceOption =
      (slots.take (gptEntryMax - 1)).reduceOption.map (gpteOf cfg) ++ [bios] ∧
    (((slots.map (Option.map (gpteOf cfg)) ++ List.replicate (gptEntryMax - slots.length) none).set
        (gptEntryMax - 1) (some bios)).take (gptEntryMax - 1)).reduceOption =
      (slots.take (gptEntryMax - 1)).reduceOption.map (gpteOf cfg) := by
  have hmax : gptEntryMax - 1 + 1 = gptEntryMax := rfl
  have htotal : (slots.map (Option.map (gpteOf cfg)) ++
      List.replicate (gptEntryMax - slots.length) none).length = gptEntryMax := by
    rw [List.length_append, List.length_map, List.length_replicate]
    omega
  have hfront : ((slots.map (Option.map (gpteOf cfg)) ++
      List.replicate (gptEntryMax - slots.length) none).take (gptEntryMax - 1)).reduceOption =
        (slots.take (gptEntryMax - 1)).reduceOption.map (gpteOf cfg) := by
    rw [List.take_append, List.reduceOption_append, List.take_replicate, List.reduceOption_replicate_none,
      List.append_nil, ← List.map_take, List.reduceOption_map]
  rw [List.set_eq_take_append_cons_drop, if_pos (by omega), List.drop_eq_nil_of_le (by omega)]
  constructor
  · rw [List.reduceOption_append, hfront]
    rfl
  · rw [List.take_append_of_le_length (by rw [List.length_take]; omega), List.take_take, min_self, hfront]

/-- A partition has the last slot exactly when a place is lost there. -/
theorem take_slots_iff {i : Nat} {sect last : BitVec 64} {slots : List (Option Place)}
    (h : placeLoop cfg i parts sect = some (slots, last)) (hlen : parts.length ≤ gptEntryMax) :
    (slots.take (gptEntryMax - 1)).reduceOption.length = slots.reduceOption.length ↔
      ∀ part, parts[gptEntryMax - 1]? = some part → part.size = 0 := by
  have hdrop : parts.drop (gptEntryMax - 1) = parts[gptEntryMax - 1]?.toList := by
    rw [List.drop_eq_getElem?_toList_append, List.drop_eq_nil_of_le (show parts.length ≤ gptEntryMax - 1 + 1 from hlen),
      List.append_nil]
  have hslots : (slots.drop (gptEntryMax - 1)).map Option.isSome =
      parts[gptEntryMax - 1]?.toList.map fun part => decide (part.size ≠ 0) := by
    rw [← hdrop, List.map_drop, List.map_drop, (parts_of_placeLoop h).2]
  have hsplit := congrArg List.length
    (List.reduceOption_append (slots.take (gptEntryMax - 1)) (slots.drop (gptEntryMax - 1)))
  rw [List.take_append_drop, List.length_append] at hsplit
  have hempty : (slots.drop (gptEntryMax - 1)).reduceOption.length = 0 ↔
      ∀ slot ∈ (slots.drop (gptEntryMax - 1)).map Option.isSome, slot = false := by
    rw [List.length_eq_zero_iff, List.eq_nil_iff_forall_not_mem, List.forall_mem_map]
    constructor
    · intro hnone slot hslot
      cases slot with
      | none => rfl
      | some place => exact absurd (List.reduceOption_mem_iff.mpr hslot) (hnone place)
    · intro hfalse place hplace
      exact absurd (hfalse _ (List.reduceOption_mem_iff.mp hplace)).symm Bool.false_ne_true
  rw [hslots, List.forall_mem_map] at hempty
  simp only [Option.mem_toList, decide_eq_false_iff_not, not_not] at hempty
  rw [← hempty]
  omega

/-! ### The gap before the first partition -/

/-- The entry of the boot loader lies in the gap before the partitions, the first of which is `first`, and the
last track has room for the backup of the table. Without a partition, the last usable sector is counted back
from the first track, and may wrap. -/
def GapFits (cfg : Config) : Option PartInfo → Prop
  | some first => 33 ≤ cfg.sectors ∧ 35 ≤ cfg.firstSector ∧
      (first.start ≠ 0 → cfg.firstSector ≤ (first.start * 2).toNat)
  | none => 34 ≤ (cfg.firstSector - 1) % 2 ^ 64 ∧
      (cfg.firstSector - 1) % 2 ^ 64 ≤ ((cfg.sectors : Int) - 34) % 2 ^ 64

/-- The same, by the place of the first partition. -/
def GapHolds (cfg : Config) : Option Place → Prop
  | some first => 33 ≤ cfg.sectors ∧ 35 ≤ cfg.firstSector ∧ cfg.firstSector ≤ first.start.toNat
  | none => 34 ≤ (cfg.firstSector - 1) % 2 ^ 64 ∧
      (cfg.firstSector - 1) % 2 ^ 64 ≤ ((cfg.sectors : Int) - 34) % 2 ^ 64

theorem firstSector_bounds (cfg : Config) : -2 ^ 34 ≤ cfg.firstSector ∧ cfg.firstSector ≤ 2 ^ 34 := by
  have hsectors := cfg.sectors_lt
  rw [Config.firstSector]
  split
  · rename_i halign
    have hround := roundToKb_bounds halign cfg.sectors
    omega
  · omega

theorem toNat_biosBoot_last (cfg : Config) : ((biosBoot cfg).last.toNat : Int) = (cfg.firstSector - 1) % 2 ^ 64 := by
  have hone : (1 : BitVec 64).toNat = 1 := rfl
  have hbounds := firstSector_bounds cfg
  rw [biosBoot, BitVec.toNat_sub, BitVec.toNat_ofInt, hone]
  omega

/-- The last usable sector, when the last partition ends at `sect`. -/
theorem toNat_lastUsable (cfg : Config) (sect : BitVec 64) :
    ((sect + BitVec.ofNat 64 cfg.sectors - 1 - BitVec.ofNat 64 gptEntrySectors - 1).toNat : Int) =
      ((sect.toNat : Int) + cfg.sectors - 34) % 2 ^ 64 := by
  have hsectors := cfg.sectors_lt
  have hpos := cfg.sectors_pos
  have hone : (1 : BitVec 64).toNat = 1 := rfl
  have hentries : (BitVec.ofNat 64 gptEntrySectors).toNat = 32 := by decide
  rw [BitVec.toNat_sub, BitVec.toNat_sub, BitVec.toNat_sub, BitVec.toNat_add, hone, hentries, BitVec.toNat_ofNat]
  omega

theorem sound_concat_iff {extents : List Extent} {e : Extent} :
    Sound (extents ++ [e]) ↔ Sound extents ∧ e.start < e.stop ∧ ∀ e' ∈ extents, e'.Disjoint e := by
  constructor
  · rintro ⟨hnonempty, hdisjoint⟩
    obtain ⟨hpairs, -, hlast⟩ := List.pairwise_append.mp hdisjoint
    refine ⟨⟨fun e' he' => hnonempty e' (List.mem_append_left _ he'), hpairs⟩,
      hnonempty e (List.mem_append_right _ List.mem_cons_self), fun e' he' => ?_⟩
    exact hlast e' he' e List.mem_cons_self
  · rintro ⟨⟨hnonempty, hpairs⟩, he, hlast⟩
    constructor
    · intro e' he'
      rcases List.mem_append.mp he' with he' | he'
      · exact hnonempty e' he'
      · rwa [List.mem_singleton.mp he']
    · rw [List.pairwise_append]
      refine ⟨hpairs, List.pairwise_singleton _ _, fun e' he' e'' he'' => ?_⟩
      rw [List.mem_singleton.mp he'']
      exact hlast e' he'

/-- No place of a chain ends behind the last. -/
theorem Chained.sect_le_last {sect : Nat} {places : List Place} (h : Chained bound sect places) (default : BitVec 64) :
    ∀ place ∈ places, place.sect.toNat ≤ ((places.getLast?.map Place.sect).getD default).toNat := by
  induction places generalizing sect default with
  | nil => exact fun place hplace => absurd hplace List.not_mem_nil
  | cons first places ih =>
    obtain ⟨-, -, hchained⟩ := h
    have hlast : (((first :: places).getLast?).map Place.sect).getD default =
        (places.getLast?.map Place.sect).getD first.sect := by
      rw [List.getLast?_cons]
      cases places.getLast? with
      | none => rfl
      | some place => rfl
    rw [hlast, List.forall_mem_cons]
    have hrest := ih hchained first.sect
    refine ⟨?_, hrest⟩
    cases places with
    | nil => exact le_rfl
    | cons next places =>
      have hnext := hrest next List.mem_cons_self
      obtain ⟨⟨hstart, -⟩, ⟨hend, -⟩, -⟩ := hchained
      omega

/-- What a chain of places and the last usable sector leave to the entry of the boot loader. -/
theorem gap_iff {places : List Place} (hchained : Chained (2 ^ 55) 0 places)
    (hsize : ∀ place ∈ places, place.part.size ≠ 0) {last lastUsable : Nat}
    (hlast : last = (((places.getLast?).map Place.sect).getD 0).toNat)
    (husable : (lastUsable : Int) = ((last : Int) + cfg.sectors - 34) % 2 ^ 64) :
    (34 ≤ (biosBoot cfg).last.toNat ∧
        (∀ place ∈ places, place.sect.toNat ≤ 34 ∨ (biosBoot cfg).last.toNat + 1 ≤ place.start.toNat) ∧
        (∀ place ∈ places, 34 ≤ place.start.toNat ∧ place.sect.toNat ≤ lastUsable + 1) ∧
        (biosBoot cfg).last.toNat ≤ lastUsable) ↔
      GapHolds cfg places.head? := by
  have hbios := toNat_biosBoot_last cfg
  have hfirst := firstSector_bounds cfg
  have hsectors := cfg.sectors_lt
  cases places with
  | nil =>
    have hzero : last = 0 := hlast
    rw [hzero, Nat.cast_zero, Int.zero_add] at husable
    simp only [List.not_mem_nil, false_implies, implies_true, true_and, List.head?_nil, GapHolds]
    omega
  | cons first places =>
    have hends : ∀ place ∈ first :: places, place.sect.toNat ≤ last := by
      rw [hlast]
      exact hchained.sect_le_last 0
    obtain ⟨-, hwithin, -, hpairs⟩ := (chained_iff hsize).mp hchained
    have hfirstWithin := hwithin first List.mem_cons_self
    have hstarts : ∀ place ∈ first :: places, first.start.toNat ≤ place.start.toNat := by
      rw [List.forall_mem_cons]
      refine ⟨le_rfl, fun place hplace => ?_⟩
      have hbehind := List.rel_of_pairwise_cons hpairs hplace
      have hlt := hfirstWithin.lt_sect
      omega
    -- the last place, at whose end the last track begins
    obtain ⟨final, hfinal, hfinalSect⟩ : ∃ final ∈ first :: places, final.sect.toNat = last := by
      rw [hlast, List.getLast?_eq_some_getLast (List.cons_ne_nil _ _)]
      exact ⟨_, List.getLast_mem _, rfl⟩
    have hfinalWithin := hwithin final hfinal
    have hbound := hfinalWithin.sect_lt
    have hbound' := hfinalWithin.start_lt
    have hfirstEnds := hends first List.mem_cons_self
    have hfirstLt := hfirstWithin.lt_sect
    rw [List.head?_cons, GapHolds]
    constructor
    · rintro ⟨hnonempty, hapart, hplaces, hboot⟩
      have hfirstUsable := hplaces first List.mem_cons_self
      have hfinalUsable := hplaces final hfinal
      have hfirstApart := hapart first List.mem_cons_self
      have hroom : 33 ≤ cfg.sectors := by omega
      have hgap : 35 ≤ cfg.firstSector := by omega
      exact ⟨hroom, hgap, by omega⟩
    · rintro ⟨hroom, hgap, hbefore⟩
      have hboot : (biosBoot cfg).last.toNat + 1 = cfg.firstSector := by omega
      have hback : lastUsable + 34 = last + cfg.sectors := by omega
      refine ⟨by omega, fun place hplace => ?_, fun place hplace => ?_, by omega⟩
      · have hstart := hstarts place hplace
        omega
      · have hstart := hstarts place hplace
        have hend := hends place hplace
        omega

/-- The gap that the entry of the boot loader needs, by the first place and by the first partition. -/
theorem gapFits_iff {slots : List (Option Place)} {last : BitVec 64}
    (hloop : placeLoop cfg 0 parts 0 = some (slots, last)) (hchained : Chained (2 ^ 55) 0 slots.reduceOption) :
    GapHolds cfg slots.reduceOption.head? ↔ GapFits cfg (parts.find? fun part => part.size ≠ 0) := by
  cases hhead : slots.reduceOption.head? with
  | none =>
    have hnone : parts.find? (fun part => part.size ≠ 0) = none := by
      rw [← List.head?_filter, ← (parts_of_placeLoop hloop).1, List.head?_map, hhead, Option.map_none]
    rw [hnone]
    exact Iff.rfl
  | some first =>
    obtain ⟨hfind, hstart⟩ := head_of_placeLoop hloop hhead
    rw [hfind]
    refine and_congr_right fun _ => and_congr_right fun hgap => ?_
    have hlt : first.start.toNat < 2 ^ 55 := by
      cases hplaces : slots.reduceOption with
      | nil =>
        rw [hplaces] at hhead
        cases hhead
      | cons first' places =>
        rw [hplaces] at hhead hchained
        obtain rfl := Option.some.inj hhead
        exact hchained.1.2
    have hideal := placeStart_spec hstart (by decide)
    rw [idealStart] at hideal
    by_cases htold : first.part.start ≠ 0
    · rw [if_pos htold] at hideal
      constructor
      · intro hle _
        omega
      · intro hle
        have := hle htold
        omega
    · -- a partition that is not told where to start starts behind the gap
      rw [if_neg htold] at hideal
      have hfirst : (if cfg.kbAlign ≠ 0 then roundToKb cfg (((0 : BitVec 64).toNat : Int) + cfg.sectors)
          else ((0 : BitVec 64).toNat : Int) + cfg.sectors) = cfg.firstSector := by
        rw [BitVec.ofNat_eq_ofNat, BitVec.toNat_zero, Nat.cast_zero, Int.zero_add, Config.firstSector]
      rw [hfirst] at hideal
      exact iff_of_true (by omega) fun hne => absurd hne htold

/-- A GPT is consistent if and only if no partition has the last slot, the positions are in bounds, and the
entry of the boot loader lies in the gap before the partitions. -/
theorem gptable_consistent_iff {table : Gptable} (h : genGptable cfg parts = some table)
    (hlen : parts.length ≤ gptEntryMax) :
    table.Consistent parts ↔
      (∀ part, parts[gptEntryMax - 1]? = some part → part.size = 0) ∧ Fits cfg (2 ^ 55) parts 0 ∧
        GapFits cfg (parts.find? fun part => part.size ≠ 0) := by
  obtain ⟨⟨slots, last⟩, hloop, rfl⟩ := Option.map_eq_some_iff.mp h
  obtain ⟨hparts, -⟩ := parts_of_placeLoop hloop
  have hslots := length_of_placeLoop hloop
  obtain ⟨hall, hlisted⟩ := @gpt_entries cfg slots (by omega) (biosBoot cfg)
  have hfits : Chained (2 ^ 55) 0 slots.reduceOption ↔ Fits cfg (2 ^ 55) parts 0 :=
    @chained_iff_fits cfg (2 ^ 55) le_rfl 0 parts 0 last slots hloop (by decide)
  have hsize : ∀ place ∈ slots.reduceOption, place.part.size ≠ 0 := by
    intro place hplace
    have hmem : place.part ∈ parts.filter (fun part => part.size ≠ 0) := hparts ▸ List.mem_map_of_mem hplace
    simpa using (List.mem_filter.mp hmem).2
  -- the slots but the last hold all places, or the table is not one for the partitions
  have hfront : (slots.take (gptEntryMax - 1)).reduceOption <+: slots.reduceOption :=
    (List.take_prefix _ _).filterMap id
  by_cases hlast : (slots.take (gptEntryMax - 1)).reduceOption.length = slots.reduceOption.length
  · rw [and_iff_right ((take_slots_iff hloop hlen).mp hlast), ← hfits]
    rw [hfront.eq_of_length hlast] at hall hlisted
    have hextents : (slots.reduceOption.map (gpteOf cfg) ++ [biosBoot cfg]).map Gpte.extent =
        slots.reduceOption.map (fun place => (gpteOf cfg place).extent) ++ [(biosBoot cfg).extent] := by
      rw [List.map_append, List.map_map]
      rfl
    have hplaces := (gpte_format cfg).consistent_iff hparts
    have hfirst : (BitVec.ofNat 64 gptFirstUsable).toNat = 34 := by decide
    -- under the bound, what the entries say are the places
    have hstop : Chained (2 ^ 55) 0 slots.reduceOption → ∀ place ∈ slots.reduceOption,
        (gpteOf cfg place).last.toNat + 1 = place.sect.toNat := fun hchained place hplace =>
      (gpte_format cfg).stop place (((chained_iff hsize).mp hchained).2.1 place hplace)
    have hbacked := toNat_lastUsable cfg last
    have hends := congrArg BitVec.toNat (last_of_placeLoop hloop)
    constructor
    · rintro ⟨hsound, hserves, husable⟩
      rw [hall, hextents, sound_concat_iff] at hsound
      rw [hlisted, List.map_map] at hserves
      rw [hall] at husable
      obtain ⟨hsound, hnonempty, hapart⟩ := hsound
      have hchained := hplaces.mp ⟨hsound, hserves⟩
      refine ⟨hchained, (gapFits_iff hloop hchained).mp ((gap_iff hchained hsize hends hbacked).mp ?_)⟩
      have hends := hstop hchained
      rw [List.forall_mem_append, List.forall_mem_map, List.forall_mem_singleton] at husable
      obtain ⟨husable, hboot⟩ := husable
      rw [List.forall_mem_map] at hapart
      refine ⟨?_, fun place hplace => ?_, fun place hplace => ?_, hboot.2⟩
      · have hlt : (BitVec.ofNat 64 gptFirstUsable).toNat < (biosBoot cfg).last.toNat + 1 := hnonempty
        omega
      · have hplaceEnds := hends place hplace
        have hplaceApart : (gpteOf cfg place).last.toNat + 1 ≤ (BitVec.ofNat 64 gptFirstUsable).toNat ∨
            (biosBoot cfg).last.toNat + 1 ≤ place.start.toNat := hapart place hplace
        omega
      · have hplaceEnds := hends place hplace
        have hplaceUsable : (BitVec.ofNat 64 gptFirstUsable).toNat ≤ place.start.toNat ∧
            (gpteOf cfg place).last.toNat ≤
              (last + BitVec.ofNat 64 cfg.sectors - 1 - BitVec.ofNat 64 gptEntrySectors - 1).toNat :=
          husable place hplace
        omega
    · rintro ⟨hchained, hgap⟩
      obtain ⟨hsound, hserves⟩ := hplaces.mpr hchained
      obtain ⟨hnonempty, hapart, husable, hboot⟩ :=
        (gap_iff hchained hsize hends hbacked).mpr ((gapFits_iff hloop hchained).mpr hgap)
      constructor
      · rw [hall, hextents, sound_concat_iff]
        have hboot : (BitVec.ofNat 64 gptFirstUsable).toNat < (biosBoot cfg).last.toNat + 1 := by omega
        refine ⟨hsound, hboot, ?_⟩
        rw [List.forall_mem_map]
        intro place hplace
        have hplaceEnds := hstop hchained place hplace
        have hplaceApart := hapart place hplace
        show (gpteOf cfg place).last.toNat + 1 ≤ (BitVec.ofNat 64 gptFirstUsable).toNat ∨
          (biosBoot cfg).last.toNat + 1 ≤ place.start.toNat
        omega
      · rw [hlisted, List.map_map]
        exact hserves
      · rw [hall, List.forall_mem_append, List.forall_mem_map, List.forall_mem_singleton]
        refine ⟨fun place hplace => ?_, le_rfl, hboot⟩
        have hplaceEnds := hstop hchained place hplace
        have hplaceUsable := husable place hplace
        show (BitVec.ofNat 64 gptFirstUsable).toNat ≤ place.start.toNat ∧
          (gpteOf cfg place).last.toNat ≤
            (last + BitVec.ofNat 64 cfg.sectors - 1 - BitVec.ofNat 64 gptEntrySectors - 1).toNat
        omega
  · refine iff_of_false ?_ fun hright => hlast ((take_slots_iff hloop hlen).mpr hright.1)
    rintro ⟨-, ⟨hlarge, -, -⟩, -⟩
    have hcount := hlarge.length_eq
    rw [hlisted, List.length_map, List.length_map, ← hparts, List.length_map] at hcount
    exact hlast hcount.symm

/-- The tables of both kinds, for as many partitions as the options can name. -/
theorem ptgen_consistent_iff (cfg : Config) (parts : List PartInfo) :
    (parts.length ≤ gptEntryMax → ∀ table, genGptable cfg parts = some table →
      (table.Consistent parts ↔
        (∀ part, parts[gptEntryMax - 1]? = some part → part.size = 0) ∧ Fits cfg (2 ^ 55) parts 0 ∧
          GapFits cfg (parts.find? fun part => part.size ≠ 0))) ∧
    (parts.length ≤ mbrEntryMax → ∀ table, genPtable cfg parts = some table →
      (table.Consistent parts ↔ Fits cfg (2 ^ 32) parts 0)) :=
  ⟨fun hlen _ h => gptable_consistent_iff h hlen, fun _ _ h => ptable_consistent_iff h⟩

/-- 16 heads, 63 sectors and an alignment of 1 MiB. -/
def alignedDisk : Config where
  heads := 16
  sectors := 63
  kbAlign := 2048
  ignoreNull := false
  active := 1
  heads_pos := by decide
  heads_lt := by decide
  sectors_pos := by decide
  sectors_lt := by decide
  kbAlign_ge := by decide
  kbAlign_lt := by decide

/-- A boot partition of 16 MiB and a root partition of 104 MiB. -/
def bootAndRoot : List PartInfo :=
  [{ start := 0, size := 16384, type := 0x83 }, { start := 0, size := 106496, type := 0x83 }]

theorem ptgen_consistent_iff_bootAndRoot :
    (∃ table, genGptable alignedDisk bootAndRoot = some table ∧ table.Consistent bootAndRoot) ∧
      ∃ table, genPtable alignedDisk bootAndRoot = some table ∧ table.Consistent bootAndRoot := by
  obtain ⟨hgpt, hmbr⟩ := ptgen_consistent_iff alignedDisk bootAndRoot
  refine ⟨⟨_, rfl, (hgpt (by decide) _ rfl).mpr ⟨?_, by decide, ?_⟩⟩,
    ⟨_, rfl, (hmbr (by decide) _ rfl).mpr (by decide)⟩⟩
  · intro part hpart
    cases hpart
  · exact ⟨by decide, by decide, fun htold => absurd rfl htold⟩

/-- A partition that is told to start in the gap, behind the first track, is accepted. -/
def inGap : List PartInfo := [{ start := 512, size := 1024, type := 0x83 }]

theorem gptable_not_consistent :
    ∃ table, genGptable alignedDisk inGap = some table ∧ ¬ table.Consistent inGap := by
  obtain ⟨table, htable⟩ : ∃ table, genGptable alignedDisk inGap = some table := ⟨_, rfl⟩
  refine ⟨table, htable, fun hconsistent => ?_⟩
  obtain ⟨-, -, -, -, hgap⟩ := (gptable_consistent_iff htable (by decide)).mp hconsistent
  exact absurd (hgap (by decide)) (by decide)

end Immwrt.Ptgen
