import Immwrt.Routerboot.Part

/-!
# The search for the well-known partitions

A turn whose read fails stays where it is, and an advance may pass the end of a `size_t`. The search returns
when neither happens.
-/

namespace Immwrt.Routerboot

variable {big : Bool} {master : Master} {dynparts : List DynPart} {scan next : Scan}

/-- The search returns and comes to greater and greater offsets. -/
structure ScanReturns (big : Bool) (master : Master) (dynparts : List DynPart) : Prop where
  returns : ∃ fuel, routerbootFindDynparts big master dynparts fuel ≠ none
  increasing : ∀ n scan next, Partial.iterate (findTurn big master) n (.start dynparts) = some scan →
    findTurn big master scan = some next → next.offset.toNat < master.size →
    scan.offset.toNat < next.offset.toNat

/-- The read of a turn succeeds and, unless all partitions were found before, the next offset is a
`size_t`. -/
def TurnOk (big : Bool) (master : Master) (scan : Scan) : Prop :=
  ∃ buf bytesRead, mtdRead master scan.calls scan.offset.toNat 4 = .ok (buf, bytesRead) ∧
    (scan.allfound = true ∨ scan.offset.toNat + (scan.advance big master buf).toNat < 2 ^ 32)

/-! ### Turns -/

theorem findLoop_eq_none {fuel : Nat} :
    findLoop big master fuel scan = none ↔ Partial.iterate (findTurn big master) fuel scan ≠ none := by
  induction fuel generalizing scan with
  | zero => simp [findLoop, Partial.iterate]
  | succ fuel ih =>
      rw [findLoop, Partial.iterate]
      cases findTurn big master scan with
      | none => simp
      | some next => exact ih

theorem toNat_skipOf_lt (size : BitVec 32) : (skipOf size).toNat + 0x1000 < 2 ^ 32 := by
  have hsize := size.isLt
  rw [skipOf]
  split
  case isTrue hlarge =>
    have hlarge : 0x1000 < size.toNat := hlarge
    have hsub : (size - 0x1000).toNat = size.toNat - 0x1000 :=
      BitVec.toNat_sub_of_le (BitVec.le_def.2 (Nat.le_of_lt hlarge))
    rw [toNat_alignDown, hsub]
    have := Nat.div_mul_le_self (size.toNat - 0x1000) (2 ^ 12)
    omega
  case isFalse => decide

theorem toNat_skip_lt (offset : BitVec 32) (magic : Word) (dynparts : List DynPart) (calls : Nat) :
    (matchDynparts master offset magic dynparts calls).2.2.toNat + 0x1000 < 2 ^ 32 := by
  induction dynparts generalizing calls with
  | nil => exact show (0 : BitVec 32).toNat + 0x1000 < 2 ^ 32 by decide
  | cons part dynparts ih =>
      rw [matchDynparts]
      split
      · exact ih calls
      · dsimp only
        split
        · split
          · exact ih (calls + 1)
          · exact toNat_skipOf_lt _
        · exact toNat_skipOf_lt _

theorem advance_pos (scan : Scan) (buf : List Byte) : 0 < (scan.advance big master buf).toNat := by
  have hskip := @toNat_skip_lt master scan.offset (cpuWord big buf) scan.dynparts (scan.calls + 1)
  rw [Scan.advance, BitVec.toNat_add, show (0x1000 : BitVec 32).toNat = 0x1000 from rfl, Nat.mod_eq_of_lt hskip]
  omega

/-- A turn that goes on stays where it is, because its read fails, or goes on by its advance. -/
theorem findTurn_eq_some (hturn : findTurn big master scan = some next) :
    scan.offset.toNat < master.size ∧
      ((∃ err, mtdRead master scan.calls scan.offset.toNat 4 = .error err ∧ next.offset = scan.offset) ∨
        ∃ buf bytesRead, mtdRead master scan.calls scan.offset.toNat 4 = .ok (buf, bytesRead) ∧
          scan.allfound = false ∧ next.offset = scan.offset + scan.advance big master buf) := by
  rw [findTurn] at hturn
  split at hturn
  case isFalse => cases hturn
  case isTrue hlt =>
    refine ⟨hlt, ?_⟩
    split at hturn
    case h_1 err herr =>
      obtain rfl := Option.some.inj hturn
      exact Or.inl ⟨err, herr, rfl⟩
    case h_2 buf bytesRead hok =>
      split at hturn
      case isTrue => cases hturn
      case isFalse hfound =>
        obtain rfl := Option.some.inj hturn
        exact Or.inr ⟨buf, bytesRead, hok, by simpa using hfound, rfl⟩

theorem findTurn_of_error {err : Errno} (hlt : scan.offset.toNat < master.size)
    (herr : mtdRead master scan.calls scan.offset.toNat 4 = .error err) :
    findTurn big master scan = some { scan with calls := scan.calls + 1 } := by
  rw [findTurn, if_pos hlt, herr]

theorem findTurn_of_ok {buf : List Byte} {bytesRead : Nat} (hlt : scan.offset.toNat < master.size)
    (hok : mtdRead master scan.calls scan.offset.toNat 4 = .ok (buf, bytesRead)) (hfound : scan.allfound = false) :
    ∃ next, findTurn big master scan = some next ∧ next.offset = scan.offset + scan.advance big master buf := by
  rw [findTurn, if_pos hlt, hok]
  simp only [hfound, Bool.false_eq_true, if_false]
  exact ⟨_, rfl, rfl⟩

theorem TurnOk.lt_next (hok : TurnOk big master scan) (hturn : findTurn big master scan = some next) :
    scan.offset.toNat < next.offset.toNat := by
  obtain ⟨buf, bytesRead, hread, hadvance⟩ := hok
  obtain ⟨-, ⟨err, herr, -⟩ | ⟨buf', bytesRead', hread', hfound, hnext⟩⟩ := findTurn_eq_some hturn
  · rw [hread] at herr
    cases herr
  · obtain ⟨rfl, -⟩ := Prod.mk.inj (Except.ok.inj (hread.symm.trans hread'))
    rw [hfound] at hadvance
    have hlt := hadvance.resolve_left Bool.false_ne_true
    have hpos := @advance_pos big master scan buf
    rw [hnext, BitVec.toNat_add, Nat.mod_eq_of_lt hlt]
    omega

/-! ### Runs -/

/-- Every turn that a search comes to is as it should be. -/
def AllTurnsOk (big : Bool) (master : Master) (dynparts : List DynPart) : Prop :=
  ∀ n scan, Partial.iterate (findTurn big master) n (.start dynparts) = some scan →
    scan.offset.toNat < master.size → TurnOk big master scan

theorem AllTurnsOk.le_offset (hall : AllTurnsOk big master dynparts) {n : Nat}
    (hiterate : Partial.iterate (findTurn big master) n (.start dynparts) = some scan) :
    n ≤ scan.offset.toNat := by
  induction n generalizing scan with
  | zero => exact Nat.zero_le _
  | succ n ih =>
      rw [Partial.iterate_succ] at hiterate
      obtain ⟨before, hbefore, hturn⟩ := Option.bind_eq_some_iff.1 hiterate
      have := ih hbefore
      have := (hall n before hbefore (findTurn_eq_some hturn).1).lt_next hturn
      omega

theorem AllTurnsOk.scanReturns (hall : AllTurnsOk big master dynparts) : ScanReturns big master dynparts where
  returns := by
    refine ⟨2 ^ 32, ?_⟩
    rw [routerbootFindDynparts, Ne, findLoop_eq_none, not_not]
    cases hiterate : Partial.iterate (findTurn big master) (2 ^ 32) (.start dynparts) with
    | none => rfl
    | some scan =>
        have := hall.le_offset hiterate
        have := scan.offset.isLt
        omega
  increasing := by
    intro n scan next hiterate hturn _
    exact (hall n scan hiterate (findTurn_eq_some hturn).1).lt_next hturn

theorem ScanReturns.allTurnsOk (hreturns : ScanReturns big master dynparts) : AllTurnsOk big master dynparts := by
  intro n scan hiterate hlt
  cases hread : mtdRead master scan.calls scan.offset.toNat 4 with
  | error err =>
      have hstays := hreturns.increasing n scan _ hiterate (findTurn_of_error hlt hread) hlt
      exact absurd hstays (Nat.lt_irrefl _)
  | ok result =>
      obtain ⟨buf, bytesRead⟩ := result
      refine ⟨buf, bytesRead, hread, ?_⟩
      by_contra hnot
      rw [not_or, Bool.not_eq_true, not_lt] at hnot
      obtain ⟨next, hturn, hnext⟩ := @findTurn_of_ok big master scan buf bytesRead hlt hread hnot.1
      have hwraps : next.offset.toNat < scan.offset.toNat := by
        have := (scan.advance big master buf).isLt
        have := scan.offset.isLt
        rw [hnext, BitVec.toNat_add, Nat.mod_eq_sub_mod hnot.2, Nat.mod_eq_of_lt (by omega)]
        omega
      have := hreturns.increasing n scan next hiterate hturn (by omega)
      omega

/-- The search returns, at greater and greater offsets, if and only if every read on its way succeeds and
no advance passes the end of a `size_t`. -/
theorem routerbootFindDynparts_returns_iff (big : Bool) (master : Master) (dynparts : List DynPart) :
    ScanReturns big master dynparts ↔ AllTurnsOk big master dynparts :=
  ⟨ScanReturns.allTurnsOk, AllTurnsOk.scanReturns⟩

/-- A flash of one block whose reads all fail. -/
def brokenMaster : Master where
  size := 0x1000
  content := fun _ => 0
  outcome := fun _ => .failed .eio

theorem routerbootFindDynparts_stuck : ¬ ScanReturns false brokenMaster (rbDynparts false) := by
  intro hreturns
  have hturn : findTurn false brokenMaster (.start (rbDynparts false)) =
      some { Scan.start (rbDynparts false) with calls := 1 } := findTurn_of_error (by decide) rfl
  exact absurd (hreturns.increasing 0 _ _ rfl hturn (by decide)) (by decide)

end Immwrt.Routerboot
