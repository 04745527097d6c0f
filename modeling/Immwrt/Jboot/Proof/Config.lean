import Immwrt.Jboot.Config

/-!
# What the search in a config partition does

The search for data headers goes on up to the end of the buffer and past it: it is left only behind an entry that does
not lie in the buffer. So nothing but a CSXF header that is refused keeps the program inside, and then it must not look
at the table.
-/

namespace Immwrt.Jboot

variable {w : Nat} {big : Bool} {buf : List Byte} {ptr n : Nat}

/-! ### Access to the buffer -/

theorem readBytes_of_le (h : ptr + n ≤ buf.length) : readBytes buf ptr n = .ok (slice buf ptr n) := if_pos h

theorem readBytes_of_gt (h : ¬ ptr + n ≤ buf.length) : readBytes buf ptr n = .error .buffer := if_neg h

theorem readHalf_of_le (big : Bool) (h : ptr + 2 ≤ buf.length) :
    readHalf big buf ptr = .ok (half big (slice buf ptr 2)) := by
  rw [readHalf, readBytes_of_le h]
  rfl

theorem readHalf_of_gt (big : Bool) (h : ¬ ptr + 2 ≤ buf.length) : readHalf big buf ptr = .error .buffer := by
  rw [readHalf, readBytes_of_gt h]
  rfl

theorem readWord_of_le (big : Bool) (h : ptr + 4 ≤ buf.length) :
    readWord big buf ptr = .ok (word big (slice buf ptr 4)) := by
  rw [readWord, readBytes_of_le h]
  rfl

theorem readWord_of_gt (big : Bool) (h : ¬ ptr + 4 ≤ buf.length) : readWord big buf ptr = .error .buffer := by
  rw [readWord, readBytes_of_gt h]
  rfl

theorem length_putHalf (big : Bool) (x : HalfWord) : (putHalf big x).length = 2 := by
  cases big <;> rfl

theorem length_splice_putHalf (big : Bool) (x : HalfWord) (h : ptr + 2 ≤ buf.length) :
    (splice buf ptr (putHalf big x)).length = buf.length := by
  rw [length_splice]
  rw [length_putHalf]
  exact h

/-- The carry goes around at most twice. -/
theorem carry_two (counter : Word) : carry 2 counter >>> 16 = 0 := by
  have hcarry : ∀ x : Word, ((x &&& 0xFFFF#32) + x >>> 16).toNat = x.toNat % 65536 + x.toNat / 65536 := by
    intro x
    have hx := x.isLt
    have hand : (x &&& 0xFFFF#32).toNat = x.toNat % 65536 := by
      rw [BitVec.toNat_and]
      exact Nat.and_two_pow_sub_one_eq_mod x.toNat 16
    rw [BitVec.toNat_add, hand, BitVec.toNat_ushiftRight, Nat.shiftRight_eq_div_pow]
    omega
  have hzero : ∀ x : Word, x >>> 16 = 0 ↔ x.toNat < 65536 := by
    intro x
    rw [← BitVec.toNat_inj, BitVec.toNat_ushiftRight, Nat.shiftRight_eq_div_pow]
    simp only [BitVec.ofNat_eq_ofNat, BitVec.toNat_zero]
    omega
  have hlt := counter.isLt
  rw [carry]
  split
  case isTrue h => exact h
  case isFalse h =>
    rw [carry]
    split
    case isTrue h' => exact h'
    case isFalse h' =>
      rw [hzero] at h h'
      rw [carry, hzero, hcarry, hcarry]
      rw [hcarry] at h'
      omega

/-! ### The search for the STAG header -/

variable (big) in
theorem stagAt_of_le (h : ptr + stagSize ≤ buf.length) : ∃ found, stagAt big buf ptr = .ok found ∧
    (found = true ↔ IsStag big buf ptr) := by
  rw [stagSize] at h
  rw [stagAt, readBytes_of_le (by omega)]
  change ∃ found, (if slice buf ptr 4 = tmpHdr then _ else _) = _ ∧ _
  by_cases hmagic : slice buf ptr 4 = tmpHdr
  · rw [if_pos hmagic, readHalf_of_le big (by omega), readBytes_of_le (show ptr + (stagSize - 2) ≤ _ by rw [stagSize]; omega)]
    refine ⟨_, rfl, ?_⟩
    rw [beq_iff_eq, IsStag, and_iff_right (show ptr + stagSize ≤ _ from h), and_iff_right hmagic]
    rfl
  · rw [if_neg hmagic]
    exact ⟨false, rfl, iff_of_false Bool.false_ne_true fun hstag => hmagic hstag.2.1⟩

theorem stagAt_ok {found : Bool} (h : stagAt big buf ptr = .ok found) :
    ptr + 4 ≤ buf.length ∧ (found = true → IsStag big buf ptr) := by
  by_cases hroom : ptr + stagSize ≤ buf.length
  · obtain ⟨found', hfound, hiff⟩ := stagAt_of_le big hroom
    rw [h] at hfound
    obtain rfl := Except.ok.inj hfound
    exact ⟨by rw [stagSize] at hroom; omega, hiff.1⟩
  · rw [stagSize] at hroom
    rw [stagAt] at h
    by_cases hmagic : ptr + 4 ≤ buf.length
    · rw [readBytes_of_le hmagic] at h
      change (if slice buf ptr 4 = tmpHdr then _ else _) = _ at h
      split at h
      case isTrue =>
        rw [readHalf_of_gt big (by omega)] at h
        cases h
      case isFalse =>
        obtain rfl := Except.ok.inj h
        exact ⟨hmagic, fun h => absurd h Bool.false_ne_true⟩
    · rw [readBytes_of_gt hmagic] at h
      cases h

/-! ### The CSXF header -/

variable {csxf : Nat}

theorem writeHalf_of_le (big : Bool) (x : HalfWord) (h : ptr + 2 ≤ buf.length) :
    writeHalf big buf ptr x = .ok (splice buf ptr (putHalf big x)) := if_pos h

/-- The checks behind the magic, where the header lies in the buffer. -/
theorem checkCsxf_of_magic (hroom : csxf + csxfSize ≤ buf.length) (hmagic : half big (slice buf csxf 2) = csxfMagic) :
    checkCsxf big buf csxf =
      if csxf + csxfLength big buf csxf ≤ buf.length then
        let calculated := ~~~ jbootChecksum big 0 (slice (csxfBytes big buf csxf) csxf (csxfLength big buf csxf))
        if half big (slice buf (csxf + 2) 2) ≠ calculated then .ok none
        else .ok (some (splice (csxfBytes big buf csxf) (csxf + 2) (putHalf big calculated)))
      else .error .buffer := by
  rw [csxfSize] at hroom
  have hlength : (csxfBytes big buf csxf).length = buf.length := length_splice_putHalf big 0 (by omega)
  have hwrite : writeHalf big buf (csxf + 2) 0 = .ok (csxfBytes big buf csxf) := writeHalf_of_le big 0 (by omega)
  rw [checkCsxf, readHalf_of_le big (show csxf + 2 ≤ buf.length by omega)]
  change (if half big (slice buf csxf 2) ≠ csxfMagic then _ else _) = _
  rw [if_neg (not_not.2 hmagic), readHalf_of_le big (show csxf + 2 + 2 ≤ buf.length by omega), hwrite]
  change (readWord big (csxfBytes big buf csxf) (csxf + 12)).bind _ = _
  rw [readWord_of_le big (by omega)]
  change (readBytes (csxfBytes big buf csxf) csxf (csxfLength big buf csxf)).bind _ = _
  by_cases hraw : csxf + csxfLength big buf csxf ≤ buf.length
  · rw [readBytes_of_le (by omega), if_pos hraw]
    change (writeHalf big (csxfBytes big buf csxf) (csxf + 2) _).bind _ = _
    rw [writeHalf_of_le big _ (by omega)]
    rfl
  · rw [readBytes_of_gt (by omega), if_neg hraw]
    rfl

theorem checkCsxf_of_not_room (hroom : ¬ csxf + csxfSize ≤ buf.length) {result : Option (List Byte)}
    (h : checkCsxf big buf csxf = .ok result) :
    csxf + 2 ≤ buf.length ∧ half big (slice buf csxf 2) ≠ csxfMagic ∧ result = none := by
  rw [csxfSize] at hroom
  rw [checkCsxf] at h
  by_cases hfirst : csxf + 2 ≤ buf.length
  · rw [readHalf_of_le big hfirst] at h
    change (if half big (slice buf csxf 2) ≠ csxfMagic then _ else _) = _ at h
    split at h
    case isTrue hmagic => exact ⟨hfirst, hmagic, (Except.ok.inj h).symm⟩
    case isFalse =>
      by_cases hchecksum : csxf + 2 + 2 ≤ buf.length
      · have hlength := length_splice_putHalf big 0 hchecksum
        rw [readHalf_of_le big hchecksum, writeHalf_of_le big 0 hchecksum] at h
        change (readWord big (splice buf (csxf + 2) (putHalf big 0)) (csxf + 12)).bind _ = _ at h
        rw [readWord_of_gt big (by omega)] at h
        cases h
      · rw [readHalf_of_gt big hchecksum] at h
        cases h
  · rw [readHalf_of_gt big hfirst] at h
    cases h

theorem checkCsxf_of_bad_magic (hroom : csxf + 2 ≤ buf.length) (hmagic : half big (slice buf csxf 2) ≠ csxfMagic) :
    checkCsxf big buf csxf = .ok none := by
  rw [checkCsxf, readHalf_of_le big hroom]
  change (if half big (slice buf csxf 2) ≠ csxfMagic then _ else _) = _
  rw [if_pos hmagic]
  rfl

theorem checkCsxf_none_iff : checkCsxf big buf csxf = .ok none ↔ Refused big buf csxf := by
  by_cases hroom : csxf + csxfSize ≤ buf.length
  · by_cases hmagic : half big (slice buf csxf 2) = csxfMagic
    · rw [checkCsxf_of_magic hroom hmagic, Refused, and_iff_right hroom, and_iff_right hmagic,
        or_iff_right fun h => h.2 hmagic]
      split
      case isTrue hraw =>
        rw [and_iff_right hraw]
        dsimp only
        split
        case isTrue hwrong => exact iff_of_true rfl hwrong
        case isFalse hright => exact iff_of_false (fun h => by cases h) hright
      case isFalse hraw => exact iff_of_false (fun h => by cases h) fun h => hraw h.1
    · have hfirst : csxf + 2 ≤ buf.length := by rw [csxfSize] at hroom; omega
      exact iff_of_true (checkCsxf_of_bad_magic hfirst hmagic) (.inl ⟨hfirst, hmagic⟩)
  · constructor
    · intro h
      obtain ⟨hfirst, hmagic, -⟩ := checkCsxf_of_not_room hroom h
      exact .inl ⟨hfirst, hmagic⟩
    · rintro (⟨hfirst, hmagic⟩ | ⟨hroom', -⟩)
      · exact checkCsxf_of_bad_magic hfirst hmagic
      · exact absurd hroom' hroom

theorem checkCsxf_some {buf' : List Byte} (h : checkCsxf big buf csxf = .ok (some buf')) :
    csxf + csxfSize ≤ buf.length ∧ buf'.length = buf.length := by
  by_cases hroom : csxf + csxfSize ≤ buf.length
  · by_cases hmagic : half big (slice buf csxf 2) = csxfMagic
    · rw [checkCsxf_of_magic hroom hmagic] at h
      refine ⟨hroom, ?_⟩
      rw [csxfSize] at hroom
      have hlength : (csxfBytes big buf csxf).length = buf.length := length_splice_putHalf big 0 (by omega)
      split at h
      case isTrue =>
        dsimp only at h
        split at h
        case isTrue => cases h
        case isFalse =>
          rw [← Option.some.inj (Except.ok.inj h), length_splice_putHalf big _ (by omega), hlength]
      case isFalse => cases h
    · have hfirst : csxf + 2 ≤ buf.length := by rw [csxfSize] at hroom; omega
      rw [checkCsxf_of_bad_magic hfirst hmagic] at h
      cases h
  · cases (checkCsxf_of_not_room hroom h).2.2

/-! ### The searches -/

theorem within_iff (h : ptr < 2 ^ 32) : Within buf ptr ↔ ptr ≤ buf.length := by
  rw [Within, Nat.mod_eq_of_lt h]

section Search

variable {startOffset : Nat} (hw : 32 ≤ w) (hsize : buf.length < 2 ^ 32)

include hw hsize

/-- A pointer into the buffer, or to its end, is its offset. -/
theorem mod_of_le (h : ptr ≤ buf.length) : ptr % 2 ^ w = ptr :=
  Nat.mod_eq_of_lt ((Nat.lt_of_le_of_lt h hsize).trans_le (Nat.pow_le_pow_right (by decide) hw))

theorem csxfAt_of_returns (hstart : startOffset < 2 ^ 32) {found : Bool}
    (h : Loop.Returns (stagTurn w big buf) startOffset (.ok (ptr, found))) :
    CsxfAt w big buf startOffset ((ptr + stagSize) % 2 ^ w) := by
  refine h.rule
    (fun p => startOffset ≤ p ∧ p ≤ buf.length ∧ (∀ before, startOffset ≤ before → before < p → ¬ IsStag big buf before) ∨
      p = startOffset ∧ buf.length < startOffset)
    (fun result => ∀ p found, result = .ok (p, found) → CsxfAt w big buf startOffset ((p + stagSize) % 2 ^ w))
    ?_ ?_ ?_ ptr found rfl
  · rcases Nat.lt_or_ge buf.length startOffset with hgt | hle
    · exact .inr ⟨rfl, hgt⟩
    · exact .inl ⟨le_rfl, hle, fun before hb hlt => absurd hlt (Nat.not_lt.2 hb)⟩
  · rintro p next (⟨hle, hroom, hbefore⟩ | ⟨rfl, hgt⟩) hturn
    · rw [stagTurn, if_pos ((within_iff (by omega)).2 hroom)] at hturn
      cases hstag : stagAt big buf p with
      | error fault =>
          rw [hstag] at hturn
          cases hturn
      | ok found =>
          rw [hstag] at hturn
          cases found with
          | true => cases hturn
          | false =>
              obtain rfl := Sum.inr.inj hturn
              have hmore := (stagAt_ok hstag).1
              rw [mod_of_le hw hsize (by omega)]
              refine .inl ⟨by omega, by omega, fun before hb hlt => ?_⟩
              rcases Nat.lt_succ_iff_lt_or_eq.1 hlt with hlt | rfl
              · exact hbefore before hb hlt
              · intro hyes
                obtain ⟨found, hfound, hiff⟩ := stagAt_of_le big hyes.1
                rw [hstag] at hfound
                obtain rfl := Except.ok.inj hfound
                exact Bool.false_ne_true (hiff.2 hyes)
    · rw [stagTurn, if_neg fun hwithin => Nat.not_le.2 hgt ((within_iff hstart).1 hwithin)] at hturn
      cases hturn
  · rintro p result (⟨hle, hroom, hbefore⟩ | ⟨rfl, hgt⟩) hturn q found rfl
    · rw [stagTurn, if_pos ((within_iff (by omega)).2 hroom)] at hturn
      cases hstag : stagAt big buf p with
      | error fault =>
          rw [hstag] at hturn
          cases hturn
      | ok found' =>
          rw [hstag] at hturn
          cases found' with
          | false => cases hturn
          | true =>
              obtain ⟨rfl, -⟩ := Prod.mk.inj (Except.ok.inj (Sum.inl.inj hturn))
              have hyes := (stagAt_ok hstag).2 rfl
              rw [mod_of_le hw hsize hyes.1]
              exact .inl ⟨p, hle, hyes, hbefore, rfl⟩
    · rw [stagTurn, if_neg fun hwithin => Nat.not_le.2 hgt ((within_iff hstart).1 hwithin)] at hturn
      obtain ⟨rfl, -⟩ := Prod.mk.inj (Except.ok.inj (Sum.inl.inj hturn))
      exact .inr ⟨hgt, rfl⟩

theorem returns_of_csxfAt (hstart : startOffset < 2 ^ 32) {csxf : Nat} (h : CsxfAt w big buf startOffset csxf) :
    ∃ ptr found, Loop.Returns (stagTurn w big buf) startOffset (.ok (ptr, found)) ∧
      csxf = (ptr + stagSize) % 2 ^ w := by
  rcases h with ⟨ptr, hle, hstag, hbefore, rfl⟩ | ⟨hgt, rfl⟩
  · have hroom := hstag.1
    have hstay : ∀ k, startOffset + k < ptr →
        stagTurn w big buf (startOffset + k) = .inr (startOffset + (k + 1)) := by
      intro k hk
      obtain ⟨found, hfound, hiff⟩ := stagAt_of_le big (show startOffset + k + stagSize ≤ buf.length by omega)
      rw [stagTurn, if_pos ((within_iff (by omega)).2 (by omega)), hfound]
      cases found with
      | true => exact absurd (hiff.1 rfl) (hbefore _ (by omega) hk)
      | false =>
          dsimp only
          rw [mod_of_le hw hsize (by omega), Nat.add_assoc]
    have hlast : stagTurn w big buf ptr = .inl (.ok (ptr, true)) := by
      obtain ⟨found, hfound, hiff⟩ := stagAt_of_le big hroom
      obtain rfl := hiff.2 hstag
      rw [stagTurn, if_pos ((within_iff (by omega)).2 (by omega)), hfound]
    refine ⟨ptr, true, ?_, (mod_of_le hw hsize hroom).symm⟩
    refine (Loop.returns_iff_of_goesOn hstay (k := ptr - startOffset) fun j hj => by omega).2 ?_
    rw [Nat.add_sub_cancel' hle]
    exact Loop.returns_of_inl hlast
  · refine ⟨startOffset, false, Loop.returns_of_inl ?_, rfl⟩
    rw [stagTurn, if_neg fun hwithin => Nat.not_le.2 hgt ((within_iff hstart).1 hwithin)]

end Search

section Data

variable {table table' : List DataHeader} {next : Nat}

theorem dataTurn_inr (hturn : dataTurn w big buf (ptr, table) = .inr (next, table')) :
    ptr + 4 ≤ buf.length ∧
      (next = (ptr + 1) % 2 ^ w ∧ table' = table ∨
        ∃ entry, entry.ptr = ptr ∧ next = (ptr + (dataHeaderSize + entry.length.toNat)) % 2 ^ w ∧
          table' = table ++ [entry]) := by
  rw [dataTurn] at hturn
  split at hturn
  case isFalse => cases hturn
  case isTrue =>
    by_cases hroom : ptr + 2 + 2 ≤ buf.length
    · refine ⟨hroom, ?_⟩
      rw [readHalf_of_le big hroom] at hturn
      dsimp only at hturn
      split at hturn
      case isTrue =>
        obtain ⟨rfl, rfl⟩ := Prod.mk.inj (Sum.inr.inj hturn)
        exact .inl ⟨rfl, rfl⟩
      case isFalse =>
        split at hturn
        case h_1 => cases hturn
        case h_2 type _ =>
          split at hturn
          case isTrue =>
            obtain ⟨rfl, rfl⟩ := Prod.mk.inj (Sum.inr.inj hturn)
            exact .inl ⟨rfl, rfl⟩
          case isFalse =>
            split at hturn
            case isFalse => cases hturn
            case isTrue =>
              split at hturn
              case h_1 id length _ _ =>
                obtain ⟨rfl, rfl⟩ := Prod.mk.inj (Sum.inr.inj hturn)
                exact .inr ⟨_, rfl, rfl, rfl⟩
              case h_2 => cases hturn
              case h_3 => cases hturn
    · rw [readHalf_of_gt big hroom] at hturn
      cases hturn

theorem dataTurn_ok (hturn : dataTurn w big buf (ptr, table) = .inl (.ok table')) :
    ¬ Within buf ptr ∧ table' = table := by
  rw [dataTurn] at hturn
  split at hturn
  case isFalse hwithin => exact ⟨hwithin, (Except.ok.inj (Sum.inl.inj hturn)).symm⟩
  case isTrue =>
    split at hturn
    case h_1 => cases hturn
    case h_2 =>
      split at hturn
      case isTrue => cases hturn
      case isFalse =>
        split at hturn
        case h_1 => cases hturn
        case h_2 =>
          split at hturn
          case isTrue => cases hturn
          case isFalse =>
            split at hturn
            case isFalse => cases hturn
            case isTrue =>
              split at hturn
              case h_1 => cases hturn
              case h_2 => cases hturn
              case h_3 => cases hturn

/-- The search for data headers is not left before an entry is stored that does not lie in the buffer. -/
theorem exists_not_inside (hw : 32 ≤ w) (hsize : buf.length < 2 ^ 32) (hroom : ptr ≤ buf.length)
    (h : Loop.Returns (dataTurn w big buf) (ptr, []) (.ok table)) : ∃ entry ∈ table, ¬ entry.Inside buf.length := by
  refine h.rule
    (fun s => s.1 ≤ buf.length ∨ ∃ entry ∈ s.2, ¬ entry.Inside buf.length)
    (fun result => ∀ table, result = .ok table → ∃ entry ∈ table, ¬ entry.Inside buf.length)
    (.inl hroom) ?_ ?_ table rfl
  · rintro ⟨p, t⟩ ⟨q, t'⟩ hinv hturn
    obtain ⟨hmore, ⟨rfl, rfl⟩ | ⟨entry, rfl, rfl, rfl⟩⟩ := dataTurn_inr hturn
    · refine hinv.imp_left fun _ => ?_
      dsimp only
      rw [mod_of_le hw hsize (by omega)]
      omega
    · by_cases hinside : entry.ptr + (dataHeaderSize + entry.length.toNat) ≤ buf.length
      · refine hinv.imp (fun _ => ?_) fun ⟨other, hother, hout⟩ => ⟨other, List.mem_append_left _ hother, hout⟩
        dsimp only
        rw [mod_of_le hw hsize hinside]
        exact hinside
      · refine .inr ⟨entry, List.mem_append_right _ (List.mem_singleton_self _), ?_⟩
        rw [DataHeader.Inside, Nat.add_assoc]
        exact hinside
  · rintro ⟨p, t⟩ result hinv hturn t' rfl
    obtain ⟨hwithin, rfl⟩ := dataTurn_ok hturn
    exact hinv.resolve_left fun hp => hwithin ((within_iff (Nat.lt_of_le_of_lt hp hsize)).2 hp)

end Data

/-! ### The program -/

/-- A header that is refused, or an entry that does not lie in the buffer. -/
theorem findHeader_ok (hw : 32 ≤ w) (hsize : buf.length < 2 ^ 32) {fuel : Nat} {startOffset : Word} {found : Found}
    (h : findHeader w big buf fuel startOffset = some (.ok found)) :
    (∃ csxf, CsxfAt w big buf startOffset.toNat csxf ∧ Refused big buf csxf) ∧ found.ret = 1 ∧ found.table = [] ∧
        found.csxf = false ∨
      ∃ entry ∈ found.table, ¬ entry.Inside buf.length := by
  rw [findHeader] at h
  cases hrun : Loop.run (stagTurn w big buf) fuel startOffset.toNat with
  | none =>
      rw [hrun] at h
      cases h
  | some result =>
      rw [hrun] at h
      cases result with
      | error fault => cases h
      | ok result =>
          obtain ⟨ptr, stag⟩ := result
          have hcsxf := csxfAt_of_returns hw hsize startOffset.isLt ⟨fuel, hrun⟩
          dsimp only at h
          cases hcheck : checkCsxf big buf ((ptr + stagSize) % 2 ^ w) with
          | error fault =>
              rw [hcheck] at h
              cases h
          | ok checked =>
              rw [hcheck] at h
              cases checked with
              | none =>
                  obtain rfl := Except.ok.inj (Option.some.inj h)
                  exact .inl ⟨⟨_, hcsxf, checkCsxf_none_iff.1 hcheck⟩, rfl, rfl, rfl⟩
              | some buf' =>
                  obtain ⟨hroom, hlength⟩ := checkCsxf_some hcheck
                  have hbody : (ptr + (stagSize + csxfSize)) % 2 ^ w =
                      (ptr + stagSize) % 2 ^ w + csxfSize := by
                    rw [← Nat.add_assoc, ← Nat.mod_add_mod, mod_of_le hw hsize hroom]
                  dsimp only at h
                  rw [hbody] at h
                  obtain ⟨table, hdata, htable⟩ := Option.map_eq_some_iff.1 h
                  cases table with
                  | error fault => cases htable
                  | ok table =>
                      obtain rfl := Except.ok.inj htable
                      refine .inr ?_
                      rw [← hlength] at hroom hsize ⊢
                      exact exists_not_inside hw hsize hroom ⟨fuel, hdata⟩

theorem findHeader_of_refused (hw : 32 ≤ w) (hsize : buf.length < 2 ^ 32) {startOffset : Word} {csxf : Nat}
    (hcsxf : CsxfAt w big buf startOffset.toNat csxf) (hrefused : Refused big buf csxf) :
    ∃ fuel stag, findHeader w big buf fuel startOffset =
      some (.ok { ret := 1, table := [], stag, csxf := false }) := by
  obtain ⟨ptr, stag, ⟨fuel, hrun⟩, rfl⟩ := returns_of_csxfAt hw hsize startOffset.isLt hcsxf
  refine ⟨fuel, stag, ?_⟩
  rw [findHeader, hrun]
  dsimp only
  rw [checkCsxf_none_iff.2 hrefused]

/-- Without entries the first place of the table is looked at, unless nothing is asked for. -/
theorem used_eq_nil_iff {options : Options} {found : Found} (hret : found.ret = 1) (htable : found.table = []) :
    used options found = [] ↔ options.Quiet := by
  rw [used, Options.Quiet, hret, htable, writeEeprom]
  cases options.printData <;> cases options.verbose <;> cases options.macPrint <;> cases options.ofname <;> simp

theorem length_readFile_lt (file : List Byte) : (readFile file).length < 2 ^ 32 := by
  rw [readFile, List.length_take]
  exact (Nat.min_le_left _ _).trans_lt (Nat.mod_lt _ (by decide))

theorem main_of_ne_zero {file : List Byte} (hfile : (readFile file).length ≠ 0) (fuel : Nat) (options : Options) :
    main w big fuel options file = (findHeader w big (readFile file) fuel options.startOffset).map fun found =>
      found.map fun found => some (found, used options found) := by
  rw [main]
  exact if_neg hfile

theorem Sound.refused (hw : 32 ≤ w) {options : Options} {file : List Byte} (h : Sound w big options file)
    (hfile : (readFile file).length ≠ 0) :
    options.Quiet ∧ ∃ csxf, CsxfAt w big (readFile file) options.startOffset.toNat csxf ∧
      Refused big (readFile file) csxf := by
  obtain ⟨fuel, result, hrun, hsound⟩ := h
  rw [main_of_ne_zero hfile] at hrun
  obtain ⟨found, hfind, hmap⟩ := Option.map_eq_some_iff.1 hrun
  cases found with
  | error fault => cases hmap
  | ok found =>
      obtain rfl := Except.ok.inj hmap
      obtain ⟨-, hinside, huses⟩ := hsound found _ rfl
      rcases findHeader_ok hw (length_readFile_lt file) hfind with ⟨hcsxf, hret, htable, hfalse⟩ | ⟨entry, hentry, hout⟩
      · refine ⟨(used_eq_nil_iff hret htable).1 ?_, hcsxf⟩
        by_contra hne
        rw [hfalse] at huses
        exact Bool.false_ne_true (huses hne).2
      · exact absurd (hinside entry hentry) hout

theorem sound_of_refused (hw : 32 ≤ w) {options : Options} {file : List Byte} (hfile : (readFile file).length ≠ 0)
    (hquiet : options.Quiet) {csxf : Nat} (hcsxf : CsxfAt w big (readFile file) options.startOffset.toNat csxf)
    (hrefused : Refused big (readFile file) csxf) : Sound w big options file := by
  obtain ⟨fuel, stag, hfind⟩ := findHeader_of_refused hw (length_readFile_lt file) hcsxf hrefused
  refine ⟨fuel, some (_, used options _), by rw [main_of_ne_zero hfile, hfind]; rfl, ?_⟩
  rintro found uses h
  obtain ⟨rfl, rfl⟩ := Prod.mk.inj (Option.some.inj h)
  refine ⟨Nat.zero_le _, fun entry hentry => absurd hentry List.not_mem_nil, fun huses => ?_⟩
  exact absurd ((used_eq_nil_iff rfl rfl).2 hquiet) huses

/-- The program does what it is to do exactly for empty files, and for partitions whose CSXF header is found where it is
looked for and is refused, as long as nothing is asked for. -/
theorem main_sound_iff (hw : 32 ≤ w) (big : Bool) (options : Options) (file : List Byte) :
    Sound w big options file ↔
      (readFile file).length = 0 ∨
        options.Quiet ∧ ∃ csxf, CsxfAt w big (readFile file) options.startOffset.toNat csxf ∧
          Refused big (readFile file) csxf := by
  by_cases hfile : (readFile file).length = 0
  · refine iff_of_true ⟨0, none, ?_, fun found uses h => by cases h⟩ (.inl hfile)
    rw [main]
    exact if_pos hfile
  · rw [or_iff_right hfile]
    constructor
    · exact fun h => h.refused hw hfile
    · rintro ⟨hquiet, csxf, hcsxf, hrefused⟩
      exact sound_of_refused hw hfile hquiet hcsxf hrefused

/-! ### Two partitions -/

def quiet : Options := { startOffset := 0, macPrint := false, printData := false, verbose := false, ofname := false }

def stag : List Byte := [0x02, 0x02, 0x24, 0x2B, 0, 0, 0, 0, 0, 0, 0, 0, 0, 0, 0xD9, 0xD2]

/-- A partition with a MAC address as its only data. -/
def macPartition : List Byte :=
  stag ++ [0x43, 0x53, 0xDC, 0xD7, 12, 0, 0, 0, 0, 0, 0, 0, 12, 0, 0, 0] ++
    [0x30, 0x42, 0x00, 0x80, 6, 0, 0x00, 0x0E, 0x8F, 0x01, 0x02, 0x03]

/-- A STAG header with zeros behind it is refused in silence. -/
theorem sound_stag : Sound 64 false quiet (stag ++ [0, 0]) :=
  (main_sound_iff (by decide) false quiet _).2 <| .inr
    ⟨⟨rfl, rfl, rfl, rfl⟩, 16,
      .inl ⟨0, le_rfl, ⟨by decide, by decide, by decide⟩, fun _ _ h => absurd h (Nat.not_lt_zero _), rfl⟩,
      .inl ⟨by decide, by decide⟩⟩

set_option maxRecDepth 2048 in
/-- The search for data headers leaves a partition that is as it should be. -/
theorem not_sound_macPartition : ¬ Sound 64 false quiet macPartition := by
  intro hsound
  have hstag : IsStag false (readFile macPartition) 0 := ⟨by decide, by decide, by decide⟩
  obtain ⟨-, csxf, ⟨ptr, -, -, hbefore, rfl⟩ | ⟨hgt, -⟩, hrefused⟩ := hsound.refused (by decide) (by decide)
  · obtain rfl : ptr = 0 := Nat.eq_zero_of_not_pos fun hpos => hbefore 0 le_rfl hpos hstag
    rcases hrefused with ⟨-, hmagic⟩ | ⟨-, -, -, hchecksum⟩
    · exact hmagic (by decide)
    · exact hchecksum (by decide)
  · exact absurd hgt (by decide)

end Immwrt.Jboot
