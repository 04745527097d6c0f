import Immwrt.Ptgen.Table
import Mathlib.Tactic

/-!
# The places of the partitions

While no start and no length reaches a bound far below that of `unsigned long`, the loop places the
partitions where unbounded arithmetic does; and it places a partition beyond the bound when that does.
-/

namespace Immwrt.Ptgen

variable {cfg : Config}

/-! ### Rounding -/

theorem cylSize_bounds (cfg : Config) : -2 ^ 31 ≤ cfg.cylSize ∧ cfg.cylSize < 2 ^ 31 := by
  have hlow := BitVec.le_toInt (BitVec.ofNat 32 (cfg.heads * cfg.sectors))
  have hhigh := BitVec.toInt_lt (x := BitVec.ofNat 32 (cfg.heads * cfg.sectors))
  exact ⟨hlow, hhigh⟩

theorem tmod_bounds (a : Int) {b : Int} (hb : b ≠ 0) (hlow : -2 ^ 31 ≤ b) (hhigh : b < 2 ^ 31) :
    -2 ^ 31 < a.tmod b ∧ a.tmod b < 2 ^ 31 := by
  have habs := Int.natAbs_tmod a b
  have hlt := Nat.mod_lt a.natAbs (Int.natAbs_pos.mpr hb)
  omega

/-- Rounding moves a position by at most two of what it rounds to. -/
theorem roundToCyl_bounds (hzero : cfg.cylSize ≠ 0) (sect : Int) :
    sect - 2 ^ 32 ≤ roundToCyl cfg sect ∧ roundToCyl cfg sect ≤ sect + 2 ^ 32 := by
  obtain ⟨hlow, hhigh⟩ := cylSize_bounds cfg
  have hmod := tmod_bounds sect hzero hlow hhigh
  rw [roundToCyl]
  omega

theorem roundToKb_eq (cfg : Config) (sect : Int) :
    roundToKb cfg sect = sect - 1 - (sect - 1).tmod cfg.kbAlign + cfg.kbAlign := by
  have hsplit := Int.tmod_add_tdiv_mul (sect - 1) cfg.kbAlign
  rw [roundToKb, Int.add_mul, Int.one_mul]
  omega

theorem roundToKb_bounds (hzero : cfg.kbAlign ≠ 0) (sect : Int) :
    sect - 2 ^ 33 ≤ roundToKb cfg sect ∧ roundToKb cfg sect ≤ sect + 2 ^ 33 := by
  have hlow := cfg.kbAlign_ge
  have hhigh := cfg.kbAlign_lt
  have hmod := tmod_bounds (sect - 1) hzero hlow hhigh
  rw [roundToKb_eq]
  omega

/-! ### Words and positions -/

/-- A word that was computed as a small position is that position, or too large for any. -/
theorem toNat_ofInt {i : Int} (hlow : -2 ^ 62 ≤ i) (hhigh : i < 2 ^ 62) :
    (0 ≤ i ∧ ((BitVec.ofInt 64 i).toNat : Int) = i) ∨ (i < 0 ∧ 2 ^ 63 ≤ (BitVec.ofInt 64 i).toNat) := by
  rw [BitVec.toNat_ofInt]
  omega

theorem toInt_of_lt {x : BitVec 64} (hx : x.toNat < 2 ^ 63) : x.toInt = x.toNat :=
  BitVec.toInt_eq_toNat_of_lt (by omega)

/-- The start of a partition, as it is computed and as it should be. -/
theorem placeStart_spec {part : PartInfo} {sect start : BitVec 64} (h : placeStart cfg part sect = some start)
    (hsect : sect.toNat < 2 ^ 58) :
    (start.toNat : Int) = idealStart cfg part sect.toNat ∨
      (idealStart cfg part sect.toNat < 0 ∧ 2 ^ 63 ≤ start.toNat) := by
  have hsectors := cfg.sectors_lt
  have hstart : (sect + BitVec.ofNat 64 cfg.sectors).toNat = sect.toNat + cfg.sectors := by
    rw [BitVec.toNat_add, BitVec.toNat_ofNat]
    omega
  have hint := toInt_of_lt (x := sect + BitVec.ofNat 64 cfg.sectors) (by omega)
  simp only [placeStart] at h
  rw [idealStart]
  by_cases htold : part.start ≠ 0
  · rw [if_pos htold] at h ⊢
    split at h
    · cases h
    · rw [← Option.some.inj h]
      exact Or.inl rfl
  · rw [if_neg htold] at h ⊢
    by_cases halign : cfg.kbAlign ≠ 0
    · rw [if_pos halign] at h ⊢
      rw [hint, hstart, Nat.cast_add] at h
      have hround := roundToKb_bounds halign (sect.toNat + cfg.sectors)
      rw [← Option.some.inj h]
      have hword := toNat_ofInt (i := roundToKb cfg (sect.toNat + cfg.sectors)) (by omega) (by omega)
      rcases hword with ⟨-, hword⟩ | hword
      · exact Or.inl hword
      · exact Or.inr hword
    · rw [if_neg halign] at h ⊢
      rw [← Option.some.inj h, hstart]
      exact Or.inl (Nat.cast_add ..)

/-- The end of a partition that is not too large. -/
theorem placeEnd_spec {part : PartInfo} {start next : BitVec 64} (h : placeEnd cfg part start = some next)
    (hstart : start.toNat < 2 ^ 55) (hsize : 2 * part.size.toNat < 2 ^ 55) :
    (next.toNat : Int) = idealEnd cfg part start.toNat ∨
      (idealEnd cfg part start.toNat < 0 ∧ 2 ^ 63 ≤ next.toNat) := by
  have hsect : (start + part.size * 2).toNat = start.toNat + 2 * part.size.toNat := by
    have htwo : (2 : BitVec 64).toNat = 2 := rfl
    rw [BitVec.toNat_add, BitVec.toNat_mul, htwo]
    omega
  have hint := toInt_of_lt (x := start + part.size * 2) (by omega)
  simp only [placeEnd] at h
  rw [idealEnd]
  by_cases halign : cfg.kbAlign = 0
  · rw [if_pos halign] at h ⊢
    split at h
    · cases h
    · rename_i hzero
      rw [hint, hsect] at h
      push_cast at h
      have hround := roundToCyl_bounds hzero (start.toNat + 2 * part.size.toNat)
      rw [← Option.some.inj h]
      have hword := toNat_ofInt (i := roundToCyl cfg (start.toNat + 2 * part.size.toNat)) (by omega) (by omega)
      rcases hword with ⟨-, hword⟩ | hword
      · exact Or.inl hword
      · exact Or.inr hword
  · rw [if_neg halign] at h ⊢
    rw [← Option.some.inj h, hsect]
    exact Or.inl (by push_cast; rfl)

/-! ### The loop -/

theorem placeLoop_nil {i : Nat} {sect last : BitVec 64} {slots : List (Option Place)}
    (h : placeLoop cfg i [] sect = some (slots, last)) : slots = [] ∧ last = sect := by
  rw [placeLoop] at h
  obtain ⟨rfl, rfl⟩ := Prod.mk.inj (Option.some.inj h)
  exact ⟨rfl, rfl⟩

/-- A partition without a size leaves its slot empty; any other one is placed, and the next one comes behind it. -/
theorem placeLoop_cons {i : Nat} {part : PartInfo} {parts : List PartInfo} {sect last : BitVec 64}
    {slots : List (Option Place)} (h : placeLoop cfg i (part :: parts) sect = some (slots, last)) :
    (part.size = 0 ∧ ∃ rest, placeLoop cfg (i + 1) parts sect = some (rest, last) ∧ slots = none :: rest) ∨
      (part.size ≠ 0 ∧ ∃ start next rest, placeStart cfg part sect = some start ∧
        placeEnd cfg part start = some next ∧ placeLoop cfg (i + 1) parts next = some (rest, last) ∧
          slots = some { index := i, part, start, sect := next } :: rest) := by
  rw [placeLoop] at h
  by_cases hnull : part.size = 0
  · rw [if_pos hnull] at h
    split at h
    · obtain ⟨⟨rest, last'⟩, hloop, hslots⟩ := Option.map_eq_some_iff.mp h
      obtain ⟨rfl, rfl⟩ := Prod.mk.inj hslots
      exact Or.inl ⟨hnull, rest, hloop, rfl⟩
    · cases h
  · rw [if_neg hnull] at h
    obtain ⟨start, hstart, h⟩ := Option.bind_eq_some_iff.mp h
    obtain ⟨next, hnext, h⟩ := Option.bind_eq_some_iff.mp h
    obtain ⟨⟨rest, last'⟩, hloop, hslots⟩ := Option.map_eq_some_iff.mp h
    obtain ⟨rfl, rfl⟩ := Prod.mk.inj hslots
    exact Or.inr ⟨hnull, start, next, rest, hstart, hnext, hloop, rfl⟩

/-- From `sect` on, the partitions start one behind the end of the other, and have the size they should. -/
def Chained (bound : Nat) : Nat → List Place → Prop
  | _, [] => True
  | sect, place :: places =>
    (sect ≤ place.start.toNat ∧ place.start.toNat < bound) ∧
      (place.start.toNat + 2 * place.part.size.toNat ≤ place.sect.toNat ∧
        place.sect.toNat < place.start.toNat + bound) ∧
      Chained bound place.sect.toNat places

theorem chained_iff_fits {bound : Nat} (hbound : bound ≤ 2 ^ 55) {i : Nat} {parts : List PartInfo}
    {sect last : BitVec 64} {slots : List (Option Place)}
    (h : placeLoop cfg i parts sect = some (slots, last)) (hsect : sect.toNat < 2 ^ 58) :
    Chained bound sect.toNat slots.reduceOption ↔ Fits cfg bound parts sect.toNat := by
  induction parts generalizing i sect last slots with
  | nil =>
    obtain ⟨rfl, -⟩ := placeLoop_nil h
    exact Iff.rfl
  | cons part parts ih =>
    rw [Fits]
    obtain ⟨hnull, rest, hloop, rfl⟩ | ⟨hnull, start, next, rest, hstart, hnext, hloop, rfl⟩ := placeLoop_cons h
    · rw [if_pos hnull, List.reduceOption_cons_of_none]
      exact ih hloop hsect
    · rw [if_neg hnull]
      have hstartSpec := placeStart_spec hstart hsect
      show (sect.toNat ≤ start.toNat ∧ start.toNat < bound) ∧
        (start.toNat + 2 * part.size.toNat ≤ next.toNat ∧ next.toNat < start.toNat + bound) ∧
          Chained bound next.toNat rest.reduceOption ↔ _
      -- a start at which one of the two goes on is the same for both
      by_cases hsame : (start.toNat : Int) = idealStart cfg part sect.toNat ∧ start.toNat < bound ∧
          2 * part.size.toNat < bound
      · obtain ⟨hideal, hlt, hsize⟩ := hsame
        have hendSpec := placeEnd_spec hnext (by omega) (by omega)
        simp only [← hideal]
        rcases hendSpec with hend | ⟨hneg, hlarge⟩
        · rw [← hend]
          refine and_congr (by omega) ⟨?_, ?_⟩
          · rintro ⟨hplace, hchained⟩
            exact ⟨by omega, (ih hloop (by omega)).mp hchained⟩
          · rintro ⟨hplace, hfits⟩
            exact ⟨by omega, (ih hloop (by omega)).mpr hfits⟩
        · refine iff_of_false ?_ ?_
          · rintro ⟨-, hplace, -⟩
            omega
          · rintro ⟨-, hplace, -⟩
            omega
      · refine iff_of_false ?_ ?_
        · rintro ⟨hplace, hend, -⟩
          rcases hstartSpec with hideal | ⟨-, hlarge⟩
          · exact hsame ⟨hideal, by omega, by omega⟩
          · omega
        · rintro ⟨hplace, hend, -⟩
          rcases hstartSpec with hideal | ⟨hneg, -⟩
          · exact hsame ⟨hideal, by omega, by omega⟩
          · omega

/-- A place that a chain within `bound` can have. -/
structure Place.Within (bound : Nat) (place : Place) : Prop where
  start_lt : place.start.toNat < bound
  lt_sect : place.start.toNat < place.sect.toNat
  sect_lt : place.sect.toNat < place.start.toNat + bound

/-- A chain is a list of places within the bound that are large enough and lie one behind the other. -/
theorem chained_iff {bound sect : Nat} {places : List Place} (hsize : ∀ place ∈ places, place.part.size ≠ 0) :
    Chained bound sect places ↔
      (∀ place ∈ places, sect ≤ place.start.toNat) ∧ (∀ place ∈ places, place.Within bound) ∧
        (∀ place ∈ places, 2 * place.part.size.toNat ≤ place.sect.toNat - place.start.toNat) ∧
        places.Pairwise fun place place' => place.sect.toNat ≤ place'.start.toNat := by
  induction places generalizing sect with
  | nil => simp [Chained]
  | cons place places ih =>
    have hpos : 0 < place.part.size.toNat := by
      have hne := hsize place List.mem_cons_self
      rw [ne_eq, BitVec.toNat_eq] at hne
      exact Nat.pos_of_ne_zero hne
    rw [Chained, ih fun other hother => hsize other (List.mem_cons_of_mem _ hother)]
    simp only [List.forall_mem_cons, List.pairwise_cons]
    constructor
    · rintro ⟨⟨hstart, hlt⟩, ⟨hlarge, hsect⟩, hbehind, hwithin, hlarges, hpairs⟩
      refine ⟨⟨hstart, fun other hother => ?_⟩, ⟨⟨hlt, by omega, hsect⟩, hwithin⟩, ⟨by omega, hlarges⟩,
        hbehind, hpairs⟩
      have := hbehind other hother
      omega
    · rintro ⟨⟨hstart, -⟩, ⟨hplace, hwithin⟩, ⟨hlarge, hlarges⟩, hbehind, hpairs⟩
      have hlt := hplace.lt_sect
      exact ⟨⟨hstart, hplace.start_lt⟩, ⟨by omega, hplace.sect_lt⟩, hbehind, hwithin, hlarges, hpairs⟩

/-! ### What the loop keeps -/

/-- The places are those of the partitions with a size, each in its slot. -/
theorem parts_of_placeLoop {i : Nat} {parts : List PartInfo} {sect last : BitVec 64}
    {slots : List (Option Place)} (h : placeLoop cfg i parts sect = some (slots, last)) :
    slots.reduceOption.map Place.part = parts.filter (fun part => part.size ≠ 0) ∧
      slots.map Option.isSome = parts.map fun part => decide (part.size ≠ 0) := by
  induction parts generalizing i sect last slots with
  | nil =>
    obtain ⟨rfl, -⟩ := placeLoop_nil h
    exact ⟨rfl, rfl⟩
  | cons part parts ih =>
    obtain ⟨hnull, rest, hloop, rfl⟩ | ⟨hnull, start, next, rest, -, -, hloop, rfl⟩ := placeLoop_cons h
    · obtain ⟨hparts, hslots⟩ := ih hloop
      rw [List.reduceOption_cons_of_none, hparts, List.filter_cons_of_neg (by simpa using hnull), List.map_cons,
        List.map_cons, hslots, decide_eq_false (not_not.mpr hnull)]
      exact ⟨rfl, rfl⟩
    · obtain ⟨hparts, hslots⟩ := ih hloop
      rw [List.reduceOption_cons_of_some, List.map_cons, hparts, List.filter_cons_of_pos (by simpa using hnull),
        List.map_cons, List.map_cons, hslots, decide_eq_true hnull]
      exact ⟨rfl, rfl⟩

/-- The last `sect` is the end of the last place. -/
theorem last_of_placeLoop {i : Nat} {parts : List PartInfo} {sect last : BitVec 64}
    {slots : List (Option Place)} (h : placeLoop cfg i parts sect = some (slots, last)) :
    last = ((slots.reduceOption.getLast?).map Place.sect).getD sect := by
  induction parts generalizing i sect last slots with
  | nil =>
    obtain ⟨rfl, rfl⟩ := placeLoop_nil h
    rfl
  | cons part parts ih =>
    obtain ⟨-, rest, hloop, rfl⟩ | ⟨-, start, next, rest, -, -, hloop, rfl⟩ := placeLoop_cons h
    · rw [List.reduceOption_cons_of_none]
      exact ih hloop
    · rw [List.reduceOption_cons_of_some, List.getLast?_cons, ih hloop]
      cases rest.reduceOption.getLast? with
      | none => rfl
      | some place => rfl

theorem length_of_placeLoop {i : Nat} {parts : List PartInfo} {sect last : BitVec 64}
    {slots : List (Option Place)} (h : placeLoop cfg i parts sect = some (slots, last)) :
    slots.length = parts.length := by
  obtain ⟨-, hslots⟩ := parts_of_placeLoop h
  rw [← List.length_map (f := Option.isSome), hslots, List.length_map]

/-- The first place is where the first partition with a size starts. -/
theorem head_of_placeLoop {i : Nat} {parts : List PartInfo} {sect last : BitVec 64}
    {slots : List (Option Place)} (h : placeLoop cfg i parts sect = some (slots, last)) {place : Place}
    (hhead : slots.reduceOption.head? = some place) :
    parts.find? (fun part => part.size ≠ 0) = some place.part ∧
      placeStart cfg place.part sect = some place.start := by
  constructor
  · obtain ⟨hparts, -⟩ := parts_of_placeLoop h
    rw [← List.head?_filter, ← hparts, List.head?_map, hhead, Option.map_some]
  · induction parts generalizing i sect last slots with
    | nil =>
      obtain ⟨rfl, -⟩ := placeLoop_nil h
      cases hhead
    | cons part parts ih =>
      obtain ⟨-, rest, hloop, rfl⟩ | ⟨-, start, next, rest, hstart, -, -, rfl⟩ := placeLoop_cons h
      · rw [List.reduceOption_cons_of_none] at hhead
        exact ih hloop hhead
      · rw [List.reduceOption_cons_of_some, List.head?_cons] at hhead
        rw [← Option.some.inj hhead]
        exact hstart

end Immwrt.Ptgen
