import Immwrt.Nvram.Bounds
import Immwrt.Nvram.Proof.Image

/-!
# Opening any partition

The scan of a partition ends at the first line without `=`, so it stays in the mapping exactly if such a line does. The
search for the magic number stays in it exactly if the partition is not too small, or has one.
-/

namespace Immwrt.Nvram

open Handle

variable {tgt : Target} {bytes line name rest : List Byte}

/-! ### Strings -/

theorem strlenIn_line (hline : 0 ∉ line) : strlenIn (line ++ 0 :: rest) = some line.length := by
  induction line with
  | nil => rfl
  | cons c line ih =>
      rw [List.mem_cons, not_or] at hline
      rw [List.cons_append, strlenIn, if_neg (Ne.symm hline.1), ih hline.2]
      rfl

theorem strlenIn_cut (hbytes : 0 ∉ bytes) : strlenIn bytes = none := by
  induction bytes with
  | nil => rfl
  | cons c bytes ih =>
      rw [List.mem_cons, not_or] at hbytes
      rw [strlenIn, if_neg (Ne.symm hbytes.1), ih hbytes.2]
      rfl

theorem strchrIn_found (hnul : 0 ∉ name) (heq : eqChar ∉ name) :
    strchrIn (name ++ eqChar :: rest) = some (some name.length) := by
  induction name with
  | nil => rfl
  | cons c name ih =>
      rw [List.mem_cons, not_or] at hnul heq
      rw [List.cons_append, strchrIn, if_neg (Ne.symm heq.1), if_neg (Ne.symm hnul.1), ih hnul.2 heq.2]
      rfl

theorem strchrIn_missing (hnul : 0 ∉ line) (heq : eqChar ∉ line) : strchrIn (line ++ 0 :: rest) = some none := by
  induction line with
  | nil => rfl
  | cons c line ih =>
      rw [List.mem_cons, not_or] at hnul heq
      rw [List.cons_append, strchrIn, if_neg (Ne.symm heq.1), if_neg (Ne.symm hnul.1), ih hnul.2 heq.2]
      rfl

theorem strchrIn_cut (hnul : 0 ∉ bytes) (heq : eqChar ∉ bytes) : strchrIn bytes = none := by
  induction bytes with
  | nil => rfl
  | cons c bytes ih =>
      rw [List.mem_cons, not_or] at hnul heq
      rw [strchrIn, if_neg (Ne.symm heq.1), if_neg (Ne.symm hnul.1), ih hnul.2 heq.2]
      rfl

/-! ### Lines -/

theorem encodeTuple_eq (tuple : CString × CString) (rest : List Byte) :
    encodeTuple tuple ++ rest = tuple.1.bytes ++ eqChar :: (tuple.2.bytes ++ 0 :: rest) := by
  simp only [encodeTuple, List.append_assoc, List.cons_append, List.nil_append]

/-- What is left of a text begins with no whole line, with a line that has no `=`, or with a tuple. -/
theorem text_cases (bytes : List Byte) :
    0 ∉ bytes ∨ (∃ line rest, bytes = line ++ 0 :: rest ∧ 0 ∉ line ∧ eqChar ∉ line) ∨
      ∃ (tuple : CString × CString) (rest : List Byte), bytes = encodeTuple tuple ++ rest ∧ eqChar ∉ tuple.1.bytes := by
  by_cases hnul : 0 ∈ bytes
  · obtain ⟨line, rest, rfl, hline⟩ := List.eq_append_cons_of_mem hnul
    by_cases heq : eqChar ∈ line
    · obtain ⟨name, value, rfl, hname⟩ := List.eq_append_cons_of_mem heq
      rw [List.mem_append, List.mem_cons, not_or, not_or] at hline
      refine .inr (.inr ⟨(⟨name, hline.1⟩, ⟨value, hline.2.2⟩), rest, ?_, hname⟩)
      rw [encodeTuple_eq, List.append_assoc, List.cons_append]
    · exact .inr (.inl ⟨line, rest, rfl, hline, heq⟩)
  · exact .inl hnul

theorem rehashLinesIn_cut (hbytes : 0 ∉ bytes) (h : Handle) : rehashLinesIn tgt bytes h = none := by
  cases bytes with
  | nil => rw [rehashLinesIn]
  | cons c cs =>
      have hc : c ≠ 0 := fun hc => hbytes (hc ▸ List.mem_cons_self)
      rw [rehashLinesIn, if_neg hc]
      by_cases heq : eqChar ∈ c :: cs
      · obtain ⟨name, value, hsplit, hname⟩ := List.eq_append_cons_of_mem heq
        rw [hsplit, List.mem_append, List.mem_cons, not_or, not_or] at hbytes
        have hvalue : (c :: cs).drop (name.length + 1) = value := by
          rw [hsplit, List.drop_append]
          simp
        rw [hsplit, strchrIn_found hbytes.1 hname, ← hsplit]
        dsimp only
        rw [hvalue, strlenIn_cut hbytes.2.2]
      · rw [strchrIn_cut hbytes heq]

theorem rehashLinesIn_end (hline : 0 ∉ line) (heq : eqChar ∉ line) (h : Handle) :
    rehashLinesIn tgt (line ++ 0 :: rest) h = some h := by
  cases line with
  | nil => rw [List.nil_append, rehashLinesIn, if_pos rfl]
  | cons c line =>
      have hc : c ≠ 0 := fun hc => hline (hc ▸ List.mem_cons_self)
      have hchr : strchrIn (c :: (line ++ 0 :: rest)) = some none := strchrIn_missing hline heq
      rw [List.cons_append]
      rw [rehashLinesIn, if_neg hc, hchr]

theorem rehashLinesIn_cons (tuple : CString × CString) (hname : eqChar ∉ tuple.1.bytes) (rest : List Byte) (h : Handle) :
    rehashLinesIn tgt (encodeTuple tuple ++ rest) h = rehashLinesIn tgt rest (h.nvramSet tgt tuple.1 tuple.2).1 := by
  have hchr : strchrIn (tuple.1.bytes ++ eqChar :: (tuple.2.bytes ++ 0 :: rest)) = some (some tuple.1.bytes.length) :=
    strchrIn_found tuple.1.noNul hname
  have hlen : strlenIn (tuple.2.bytes ++ 0 :: rest) = some tuple.2.bytes.length := strlenIn_line tuple.2.noNul
  have hbehind : (encodeTuple tuple ++ rest).drop (tuple.1.bytes.length + 1) = tuple.2.bytes ++ 0 :: rest := by
    rw [encodeTuple_eq, List.drop_append]
    simp
  have htake : (encodeTuple tuple ++ rest).take tuple.1.bytes.length = tuple.1.bytes := by
    rw [encodeTuple_eq, List.take_left]
  have hslice : slice (encodeTuple tuple ++ rest) (tuple.1.bytes.length + 1) tuple.2.bytes.length = tuple.2.bytes := by
    rw [slice, hbehind, List.take_left]
  have hrest : (encodeTuple tuple ++ rest).drop (tuple.1.bytes.length + 1 + tuple.2.bytes.length + 1) = rest := by
    rw [Nat.add_assoc (tuple.1.bytes.length + 1), ← List.drop_drop, hbehind, List.drop_append]
    simp
  obtain ⟨c, cs, hcons, hc⟩ : ∃ c cs, encodeTuple tuple ++ rest = c :: cs ∧ c ≠ 0 := by
    rw [encodeTuple_eq]
    cases hbytes : tuple.1.bytes with
    | nil => exact ⟨eqChar, _, rfl, by decide⟩
    | cons c name =>
        refine ⟨c, _, rfl, fun hc => tuple.1.noNul ?_⟩
        rw [hbytes, hc]
        exact List.mem_cons_self
  rw [← encodeTuple_eq, hcons] at hchr
  rw [hcons] at hbehind htake hslice hrest
  rw [hcons, rehashLinesIn, if_neg hc, hchr]
  dsimp only
  rw [hbehind, hlen]
  dsimp only
  rw [htake, hslice, hrest, CString.ofBytes_bytes, CString.ofBytes_bytes]

/-! ### The end of a text -/

theorem not_hasEnd (hbytes : 0 ∉ bytes) : ¬ HasEnd bytes := by
  rintro ⟨line, hline, -⟩
  rw [List.splitOn_eq_singleton hbytes] at hline
  exact List.not_mem_nil hline

theorem hasEnd_line (hline : 0 ∉ line) : HasEnd (line ++ 0 :: rest) ↔ eqChar ∉ line ∨ HasEnd rest := by
  rw [HasEnd, HasEnd, List.splitOn_append_cons_self_of_not_mem hline,
    List.dropLast_cons_of_ne_nil (List.splitOn_ne_nil 0 rest), List.exists_mem_cons_iff]

theorem hasEnd_tuple (tuple : CString × CString) : HasEnd (encodeTuple tuple ++ rest) ↔ HasEnd rest := by
  have hsplit : encodeTuple tuple ++ rest = (lineOf tuple).bytes ++ 0 :: rest := by
    rw [encodeTuple_eq, lineOf, List.append_assoc, List.cons_append]
  have heq : eqChar ∈ (lineOf tuple).bytes := List.mem_append_right _ List.mem_cons_self
  rw [hsplit, hasEnd_line (lineOf tuple).noNul, or_iff_right (not_not.2 heq)]

/-- The scan of a text stays in it exactly if the text has an end. -/
theorem rehashLinesIn_isSome (bytes : List Byte) (h : Handle) :
    (rehashLinesIn tgt bytes h).isSome = true ↔ HasEnd bytes := by
  induction hn : bytes.length using Nat.strong_induction_on generalizing bytes h with
  | _ n ih =>
      rcases text_cases bytes with hnul | ⟨line, rest, rfl, hline, heq⟩ | ⟨tuple, rest, rfl, hname⟩
      · rw [rehashLinesIn_cut hnul]
        exact iff_of_false Bool.false_ne_true (not_hasEnd hnul)
      · rw [rehashLinesIn_end hline heq, hasEnd_line hline]
        exact iff_of_true rfl (.inl heq)
      · have hlt : rest.length < n := by
          rw [← hn, List.length_append, length_encodeTuple]
          omega
        rw [rehashLinesIn_cons tuple hname, hasEnd_tuple]
        exact ih _ hlt _ _ rfl

/-- A scan that stays in the text fills the table as one that does not ask. -/
theorem rehashLines_of_in {fuel : Nat} {h h' : Handle} (hin : rehashLinesIn tgt bytes h = some h')
    (hfuel : bytes.length ≤ fuel) : rehashLines tgt fuel bytes h = h' := by
  induction fuel generalizing bytes h with
  | zero =>
      obtain rfl := List.length_eq_zero_iff.1 (Nat.le_zero.1 hfuel)
      rw [rehashLinesIn] at hin
      cases hin
  | succ fuel ih =>
      rcases text_cases bytes with hnul | ⟨line, rest, rfl, hline, heq⟩ | ⟨tuple, rest, rfl, hname⟩
      · rw [rehashLinesIn_cut hnul] at hin
        cases hin
      · rw [rehashLinesIn_end hline heq] at hin
        obtain rfl := Option.some.inj hin
        have hbytes := CString.ofBytes_append ⟨line, hline⟩ rest
        rw [rehashLines]
        dsimp only
        dsimp only at hbytes
        rw [hbytes, if_pos (.inr heq)]
      · rw [rehashLinesIn_cons tuple hname] at hin
        rw [rehashLines_cons tuple hname]
        refine ih hin ?_
        rw [List.length_append, length_encodeTuple] at hfuel
        omega

theorem nvramRehash_of_in {h h' : Handle} (hin : h.nvramRehashIn tgt = some h') : h.nvramRehash tgt = h' := by
  obtain ⟨filled, hlines, rfl⟩ := Option.map_eq_some_iff.1 hin
  have hfuel : (h.mmap.drop (h.offset.toNat + headerSize)).length ≤ h.mmap.length := by
    rw [List.length_drop]
    omega
  have heq := rehashLines_of_in hlines hfuel
  rw [nvramRehash, ← heq]
  rfl

theorem nvramRehashIn_isSome (h : Handle) :
    (h.nvramRehashIn tgt).isSome = true ↔ HasEnd (h.mmap.drop (h.offset.toNat + headerSize)) := by
  rw [nvramRehashIn, Option.isSome_map, rehashLinesIn_isSome]

/-! ### The search -/

variable {mem : List Byte} {offset n i : Nat} {rdonly : Bool}

theorem searchIn_succ (hin : 4 * i + 4 ≤ mem.length) (hmagic : getU32 mem (4 * i) ≠ nvramMagic) :
    searchIn mem (n + 1) i = searchIn mem n (i + 1) := by
  rw [searchIn, if_pos hin, if_neg hmagic]

/-- The search leaves the mapping at a word, if it finds no magic number before it. -/
theorem searchIn_eq_none_iff :
    searchIn mem n i = none ↔
      ∃ k, k < n ∧ mem.length < 4 * (i + k) + 4 ∧ ∀ j < k, getU32 mem (4 * (i + j)) ≠ nvramMagic := by
  induction n generalizing i with
  | zero =>
      refine iff_of_false (fun h => ?_) fun ⟨k, hk, _⟩ => absurd hk (Nat.not_lt_zero k)
      cases h
  | succ n ih =>
      by_cases hin : 4 * i + 4 ≤ mem.length
      · by_cases hmagic : getU32 mem (4 * i) = nvramMagic
        · rw [searchIn, if_pos hin, if_pos hmagic]
          refine iff_of_false (fun h => ?_) ?_
          · cases h
          · rintro ⟨k, hk, hout, hbefore⟩
            exact hbefore 0 (by omega) hmagic
        · rw [searchIn_succ hin hmagic, ih]
          constructor
          · rintro ⟨k, hk, hout, hbefore⟩
            refine ⟨k + 1, by omega, by omega, fun j hj => ?_⟩
            cases j with
            | zero => exact hmagic
            | succ j =>
                have hj' := hbefore j (by omega)
                rwa [Nat.add_right_comm] at hj'
          · rintro ⟨k, hk, hout, hbefore⟩
            obtain ⟨k, rfl⟩ : ∃ k', k = k' + 1 := ⟨k - 1, by omega⟩
            refine ⟨k, by omega, by omega, fun j hj => ?_⟩
            have hj' := hbefore (j + 1) (by omega)
            rwa [← Nat.add_assoc, Nat.add_right_comm] at hj'
      · rw [searchIn, if_neg hin]
        exact iff_of_true rfl ⟨0, by omega, by omega, fun j hj => absurd hj (Nat.not_lt_zero j)⟩

theorem searchIn_eq_some_iff :
    searchIn mem n i = some (some offset) ↔
      ∃ k, k < n ∧ offset = 4 * (i + k) ∧ offset + 4 ≤ mem.length ∧ getU32 mem offset = nvramMagic ∧
        ∀ j < k, getU32 mem (4 * (i + j)) ≠ nvramMagic := by
  induction n generalizing i with
  | zero =>
      refine iff_of_false (fun h => ?_) fun ⟨k, hk, _⟩ => absurd hk (Nat.not_lt_zero k)
      cases h
  | succ n ih =>
      by_cases hin : 4 * i + 4 ≤ mem.length
      · by_cases hmagic : getU32 mem (4 * i) = nvramMagic
        · rw [searchIn, if_pos hin, if_pos hmagic]
          constructor
          · intro h
            obtain rfl := Option.some.inj (Option.some.inj h)
            exact ⟨0, by omega, rfl, hin, hmagic, fun j hj => absurd hj (Nat.not_lt_zero j)⟩
          · rintro ⟨k, hk, rfl, -, -, hbefore⟩
            obtain rfl : k = 0 := by
              by_contra hne
              exact hbefore 0 (by omega) hmagic
            rfl
        · rw [searchIn_succ hin hmagic, ih]
          constructor
          · rintro ⟨k, hk, rfl, hinside, hhere, hbefore⟩
            refine ⟨k + 1, by omega, by omega, hinside, hhere, fun j hj => ?_⟩
            cases j with
            | zero => exact hmagic
            | succ j =>
                have hj' := hbefore j (by omega)
                rwa [Nat.add_right_comm] at hj'
          · rintro ⟨k, hk, rfl, hinside, hhere, hbefore⟩
            obtain ⟨k, rfl⟩ : ∃ k', k = k' + 1 := by
              refine ⟨k - 1, ?_⟩
              by_contra hne
              obtain rfl : k = 0 := by omega
              exact hmagic hhere
            refine ⟨k, by omega, by omega, hinside, hhere, fun j hj => ?_⟩
            have hj' := hbefore (j + 1) (by omega)
            rwa [← Nat.add_assoc, Nat.add_right_comm] at hj'
      · rw [searchIn, if_neg hin]
        refine iff_of_false (fun h => ?_) ?_
        · cases h
        · rintro ⟨k, hk, rfl, hinside, -, -⟩
          omega

/-- A search that finds nothing has looked at every word. -/
theorem inside_of_searchIn_missing (hmissing : searchIn mem n i = some none) :
    ∀ k < n, 4 * (i + k) + 4 ≤ mem.length ∧ getU32 mem (4 * (i + k)) ≠ nvramMagic := by
  induction n generalizing i with
  | zero => exact fun k hk => absurd hk (Nat.not_lt_zero k)
  | succ n ih =>
      rw [searchIn] at hmissing
      split at hmissing
      case isFalse => cases hmissing
      case isTrue hin =>
        split at hmissing
        case isTrue => cases hmissing
        case isFalse hmagic =>
          intro k hk
          cases k with
          | zero => exact ⟨hin, hmagic⟩
          | succ k =>
              have hk' := ih hmissing k (by omega)
              rwa [Nat.add_right_comm] at hk'

section Search

variable (htgt : 32 ≤ tgt.longBits) (hsize : mem.length < 2 ^ 32)

include htgt hsize

theorem searchBound_of_le (hle : nvramMinSpace ≤ mem.length) :
    searchBound tgt mem.length = (mem.length - nvramMinSpace) / 4 := by
  have hpow : 2 ^ 32 ≤ 2 ^ tgt.longBits := Nat.pow_le_pow_right (by decide) htgt
  rw [searchBound, Nat.add_sub_assoc hle, Nat.add_mod_left, Nat.mod_eq_of_lt (by omega)]

theorem length_lt_searchBound (hlt : mem.length < nvramMinSpace) : mem.length < searchBound tgt mem.length := by
  have hpow : 2 ^ 32 ≤ 2 ^ tgt.longBits := Nat.pow_le_pow_right (by decide) htgt
  rw [nvramMinSpace] at hlt
  rw [searchBound, nvramMinSpace, Nat.mod_eq_of_lt (by omega)]
  omega

end Search

theorem firstMagic_iff : searchIn mem (searchBound tgt mem.length + 1) 0 = some (some offset) ↔ FirstMagic tgt mem offset := by
  rw [searchIn_eq_some_iff]
  simp only [Nat.zero_add]
  constructor
  · rintro ⟨k, hk, rfl, hinside, hmagic, hfirst⟩
    exact ⟨by omega, hinside, by omega, hmagic, fun i hi => hfirst i (by omega)⟩
  · rintro ⟨hwords, hinside, hbound, hmagic, hfirst⟩
    refine ⟨offset / 4, by omega, by omega, hinside, hmagic, fun j hj => hfirst j (by omega)⟩

theorem FirstMagic.unique {offset' : Nat} (h : FirstMagic tgt mem offset) (h' : FirstMagic tgt mem offset') :
    offset = offset' :=
  Option.some.inj (Option.some.inj ((firstMagic_iff.2 h).symm.trans (firstMagic_iff.2 h')))

/-- The search stays in the mapping if the partition has the least size, or a magic number that it comes to. -/
theorem searchIn_inside_iff (htgt : 32 ≤ tgt.longBits) (hsize : mem.length < 2 ^ 32) :
    searchIn mem (searchBound tgt mem.length + 1) 0 ≠ none ↔
      nvramMinSpace ≤ mem.length ∨ ∃ offset, FirstMagic tgt mem offset := by
  constructor
  · intro hne
    by_contra hnot
    rw [not_or, Nat.not_le] at hnot
    cases hsearch : searchIn mem (searchBound tgt mem.length + 1) 0 with
    | none => exact hne hsearch
    | some found =>
        cases found with
        | some offset => exact hnot.2 ⟨offset, firstMagic_iff.1 hsearch⟩
        | none =>
            have hbound := length_lt_searchBound htgt hsize hnot.1
            have hlast := (inside_of_searchIn_missing hsearch (mem.length / 4) (by omega)).1
            omega
  · intro hcases hnone
    obtain ⟨k, hk, hout, hbefore⟩ := searchIn_eq_none_iff.1 hnone
    cases hcases with
    | inl hle =>
        rw [searchBound_of_le htgt hsize hle] at hk
        rw [nvramMinSpace] at hk hle
        omega
    | inr hmagic =>
        obtain ⟨offset, hfirst⟩ := hmagic
        have hfound := firstMagic_iff.2 hfirst
        rw [hnone] at hfound
        cases hfound

/-! ### Opening -/

section Fresh

variable (hint : offset < 0x80000000)

include hint

theorem freshHandle_offset : (freshHandle mem offset).offset.toNat = offset := by
  rw [freshHandle, BitVec.toNat_ofNat, Nat.mod_eq_of_lt (by omega)]

/-- Whether a handle is filled depends on the text behind the header alone. -/
theorem nvramRehashIn_freshHandle :
    ((freshHandle mem offset).nvramRehashIn tgt).isSome = true ↔ HasEnd (mem.drop (offset + headerSize)) := by
  rw [nvramRehashIn_isSome, freshHandle_offset hint]
  rfl

theorem freshHandle_header :
    (freshHandle mem offset).nvramHeader.magic = getU32 mem offset ∧
      (freshHandle mem offset).nvramHeader.len = getU32 mem (offset + 4) := by
  have hheader : (freshHandle mem offset).nvramHeader = Header.ofBytes (slice mem offset headerSize) := by
    rw [nvramHeader, freshHandle_offset hint]
    rfl
  have hmagic : (Header.ofBytes (slice mem offset headerSize)).magic = getU32 (slice mem offset headerSize) 0 := rfl
  have hlen : (Header.ofBytes (slice mem offset headerSize)).len = getU32 (slice mem offset headerSize) 4 := rfl
  rw [hheader, hmagic, hlen]
  constructor
  · rw [getU32, getU32, slice_slice mem offset headerSize 0 4 (by decide), Nat.add_zero]
  · rw [getU32, getU32, slice_slice mem offset headerSize 4 4 (by decide)]

theorem freshHandle_space (hsize : mem.length < 2 ^ 32) (hinside : offset ≤ mem.length) :
    (freshHandle mem offset).length - (freshHandle mem offset).offset = BitVec.ofNat 32 (mem.length - offset) := by
  apply BitVec.eq_of_toNat_eq
  have hlength : (freshHandle mem offset).length.toNat = mem.length := by
    rw [freshHandle, BitVec.toNat_ofNat, Nat.mod_eq_of_lt hsize]
  have hoffset : (freshHandle mem offset).offset.toNat = offset := freshHandle_offset hint
  rw [BitVec.toNat_sub_of_le (BitVec.le_def.2 (by omega)), hlength, hoffset, BitVec.toNat_ofNat,
    Nat.mod_eq_of_lt (by omega)]

end Fresh

/-- What the first magic number of a partition has to do with opening it. -/
theorem openable_iff (hfirst : FirstMagic tgt mem offset) :
    Openable tgt mem rdonly ↔
      (offset < 0x80000000 → rdonly = false → offset + 8 ≤ mem.length) ∧
        (offset < 0x80000000 →
          (rdonly = true ∨ getU32 mem (offset + 4) < BitVec.ofNat 32 (mem.length - offset)) →
            HasEnd (mem.drop (offset + headerSize))) := by
  constructor
  · intro hopen
    exact ⟨hopen.header offset hfirst, hopen.text offset hfirst⟩
  · rintro ⟨hheader, htext⟩
    refine ⟨.inr ⟨offset, hfirst⟩, fun offset' hfirst' => ?_, fun offset' hfirst' => ?_⟩
    · rwa [← hfirst.unique hfirst']
    · rwa [← hfirst.unique hfirst']

section Found

variable (htgt : 32 ≤ tgt.longBits) (hsize : mem.length < 2 ^ 32) (hle : nvramMinSpace ≤ mem.length)

include htgt hsize hle

theorem FirstMagic.findMagic (hfirst : FirstMagic tgt mem offset) : findMagic mem = some offset := by
  obtain ⟨hwords, -, hbound, hmagic, hbefore⟩ := hfirst
  rw [searchBound_of_le htgt hsize hle] at hbound
  have hoffset : 4 * (offset / 4) = offset := by omega
  refine Option.map_eq_some_iff.2 ⟨offset / 4, List.find?_range_eq_some.2 ⟨?_, ?_, fun j hj => ?_⟩, hoffset⟩
  · rw [hoffset, hmagic]
    exact decide_eq_true rfl
  · exact List.mem_range.2 (by omega)
  · have hj' := hbefore j (by omega)
    simpa using hj'

theorem findMagic_of_missing (hmissing : searchIn mem (searchBound tgt mem.length + 1) 0 = some none) :
    findMagic mem = none := by
  rw [findMagic, Option.map_eq_none_iff, List.find?_range_eq_none]
  intro i hi
  have hi' := (inside_of_searchIn_missing hmissing i (by rw [searchBound_of_le htgt hsize hle]; exact hi)).2
  rw [Nat.zero_add] at hi'
  simpa using hi'

end Found

section Accepted

variable (hsize : mem.length < 2 ^ 32) (hfirst : FirstMagic tgt mem offset) (hint : offset < 0x80000000)

include hsize hfirst hint

theorem nvramOpenIn_found :
    nvramOpenIn tgt mem rdonly =
      if rdonly = false ∧ mem.length < offset + 8 then none
      else if rdonly = true ∨ getU32 mem (offset + 4) < BitVec.ofNat 32 (mem.length - offset) then
        ((freshHandle mem offset).nvramRehashIn tgt).map some
      else some none := by
  have hinside := hfirst.inside
  rw [nvramOpenIn, firstMagic_iff.2 hfirst]
  dsimp only
  rw [if_neg (Nat.not_le.2 hint), (freshHandle_header hint).2, freshHandle_space hint hsize (by omega)]
  cases rdonly with
  | true => rw [if_pos rfl, if_neg (fun h => Bool.noConfusion h.1), if_pos (.inl rfl)]
  | false => simp only [Bool.false_eq_true, if_false, true_and, false_or]

theorem nvramOpen_found (htgt : 32 ≤ tgt.longBits) (hle : nvramMinSpace ≤ mem.length) :
    nvramOpen tgt mem rdonly =
      if rdonly = true ∨ getU32 mem (offset + 4) < BitVec.ofNat 32 (mem.length - offset) then
        some ((freshHandle mem offset).nvramRehash tgt)
      else none := by
  have hinside := hfirst.inside
  have hfilter : (some offset).filter (fun offset => decide (offset < 0x80000000)) = some offset := by
    rw [Option.filter_some, if_pos (decide_eq_true hint)]
  rw [nvramOpen, hfirst.findMagic htgt hsize hle, hfilter, Option.bind_some]
  dsimp only
  rw [(freshHandle_header hint).1, (freshHandle_header hint).2, freshHandle_space hint hsize (by omega)]
  simp only [hfirst.magic, true_and]

end Accepted

/-- A partition of 32 KiB that was erased behind its magic number. -/
def erasedPartition : List Byte := u32le nvramMagic ++ List.replicate 0x7FFC 0xFF

end Immwrt.Nvram
