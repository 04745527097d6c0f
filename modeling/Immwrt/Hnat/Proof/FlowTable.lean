import Immwrt.Hnat.FlowTable
import Mathlib.Tactic

/-!
# The bounds of the flow tables

The number of entries is shared, so that a table is used with its own size only when no PPE after the first one
has to try again, and the walk of `entry_delete_by_mac`, which does not use the number, needs the greatest size.
-/

namespace Immwrt.Hnat.FlowTable

variable {chip : Chip} {allocs : Allocs} {priv : Priv}

/-- The first try for the flow table of a PPE that succeeds. -/
structure FirstHit (allocs : Allocs) (ppeId n : Nat) : Prop where
  hit : allocs.foe ppeId n = true
  misses : ∀ t < n, allocs.foe ppeId t = false

/-- A start fails behind its flow table. -/
def StartFails (chip : Chip) (allocs : Allocs) (ppeId : Nat) : Prop :=
  chip.perFlowAccounting = true ∧ (allocs.mib ppeId = false ∨ allocs.acct ppeId = false)

/-- The PPEs that `hnat_probe` comes to. -/
def Started (chip : Chip) (allocs : Allocs) (ppeId : Nat) : Prop :=
  ppeId < chip.ppeNum ∧ ∀ k < ppeId, ¬ StartFails chip allocs k

/-- Every PPE gets its table at the first try; or a start fails later on, the first PPE gets one of the sizes,
and the others get theirs at the first try. -/
def AllocsOk (chip : Chip) (allocs : Allocs) : Prop :=
  (∀ ppeId, Started chip allocs ppeId → allocs.foe ppeId 0 = true) ∨
    (∃ ppeId, Started chip allocs ppeId ∧ StartFails chip allocs ppeId) ∧
      (∃ t ≤ chip.defEtryNumCfg, allocs.foe 0 t = true) ∧
      ∀ ppeId, 0 < ppeId → Started chip allocs ppeId → allocs.foe ppeId 0 = true

/-! ### One start -/

theorem tableSearch_some {foe : Nat → Bool} {fuel attempt num num' : Nat} {cfg cfg' : Word} {found : Bool}
    (hsearch : tableSearch foe fuel attempt num cfg = some (found, num', cfg')) :
    found = true ∧ ∃ n, foe (attempt + n) = true ∧ (∀ t < n, foe (attempt + t) = false) ∧ num' = num / 2 ^ n := by
  induction fuel generalizing attempt num cfg with
  | zero => cases hsearch
  | succ fuel ih =>
      rw [tableSearch, if_pos (BitVec.le_def.2 (Nat.zero_le _))] at hsearch
      split at hsearch
      case isTrue hhit =>
        obtain ⟨rfl, rfl, -⟩ : true = found ∧ num = num' ∧ _ := by simpa using hsearch
        exact ⟨rfl, 0, hhit, fun t ht => absurd ht (Nat.not_lt_zero t), by rw [pow_zero, Nat.div_one]⟩
      case isFalse hmiss =>
        obtain ⟨hfound, n, hhit, hmisses, hnum⟩ := ih hsearch
        refine ⟨hfound, n + 1, ?_, fun t ht => ?_, ?_⟩
        · rwa [← Nat.add_assoc, Nat.add_right_comm]
        · cases t with
          | zero => simpa using hmiss
          | succ t =>
              rw [← Nat.add_assoc, Nat.add_right_comm]
              exact hmisses t (by omega)
        · rw [hnum, Nat.div_div_eq_div_mul, pow_succ, Nat.mul_comm]

theorem tableSearch_ne_none {foe : Nat → Bool} {fuel attempt n : Nat} (hhit : foe (attempt + n) = true)
    (hfuel : n < fuel) (num : Nat) (cfg : Word) : tableSearch foe fuel attempt num cfg ≠ none := by
  induction fuel generalizing attempt num cfg n with
  | zero => omega
  | succ fuel ih =>
      rw [tableSearch, if_pos (BitVec.le_def.2 (Nat.zero_le _))]
      split
      case isTrue => exact Option.some_ne_none _
      case isFalse hmiss =>
        cases n with
        | zero => exact absurd hhit hmiss
        | succ n =>
            refine ih (n := n) ?_ (by omega) _ _
            rwa [Nat.add_right_comm, Nat.add_assoc]

/-- What a start that returns has done. -/
structure StartSpec (chip : Chip) (allocs : Allocs) (ppeId n : Nat) (priv : Priv)
    (started : Traced Event (Int × Priv)) : Prop where
  first : FirstHit allocs ppeId n
  num : started.val.2.foeEtryNum = priv.foeEtryNum / 2 ^ n
  table : started.val.2.foeTable =
    Function.update priv.foeTable ppeId (some (started.val.2.foeEtryNum * chip.sizeofFoeEntry))
  mib : ∀ k mibSz, started.val.2.foeMib k = some mibSz →
    priv.foeMib k = some mibSz ∨ mibSz = started.val.2.foeEtryNum * chip.sizeofMibEntry
  ret : started.val.1 = 0 ↔ ¬ StartFails chip allocs ppeId
  events : started.Every (Event.Ok chip allocs) ↔
    (∃ t ≤ chip.defEtryNumCfg, allocs.foe ppeId t = true) ∧
      (chip.version1 = true → (excludeBoundaryEntry started.val.2.foeEtryNum
        (started.val.2.foeEtryNum * chip.sizeofFoeEntry) 0).Every (Event.Ok chip allocs))

theorem hnatStartMib_spec (ppeId : Nat) (cfg : Word) (priv : Priv) :
    let started := hnatStartMib chip allocs ppeId cfg priv
    (started.1 = 0 ↔ ¬ StartFails chip allocs ppeId) ∧ started.2.foeEtryNum = priv.foeEtryNum ∧
      started.2.foeTable = priv.foeTable ∧
      ∀ k mibSz, started.2.foeMib k = some mibSz →
        priv.foeMib k = some mibSz ∨ mibSz = priv.foeEtryNum * chip.sizeofMibEntry := by
  dsimp only
  have hmib : ∀ k mibSz, Function.update priv.foeMib ppeId (some (priv.foeEtryNum * chip.sizeofMibEntry)) k =
      some mibSz → priv.foeMib k = some mibSz ∨ mibSz = priv.foeEtryNum * chip.sizeofMibEntry := by
    intro k mibSz hk
    rw [Function.update_apply] at hk
    split at hk
    case isTrue => exact Or.inr (Option.some.inj hk).symm
    case isFalse => exact Or.inl hk
  have hold : ∀ k mibSz, priv.foeMib k = some mibSz →
      priv.foeMib k = some mibSz ∨ mibSz = priv.foeEtryNum * chip.sizeofMibEntry := fun _ _ h => Or.inl h
  rw [hnatStartMib, StartFails]
  cases hacct : chip.perFlowAccounting with
  | false => simpa using hold
  | true =>
      cases hmibAlloc : allocs.mib ppeId with
      | false => simpa using hold
      | true =>
          cases hacctAlloc : allocs.acct ppeId with
          | false => simpa using hmib
          | true => simpa using hmib

theorem hnatStartTable_val (ppeId : Nat) (cfg : Word) (priv : Priv) :
    (hnatStartTable chip allocs ppeId cfg priv).val = hnatStartMib chip allocs ppeId cfg priv := by
  rw [hnatStartTable]
  split
  · rfl
  · rfl

theorem every_hnatStartTable {p : Event → Prop} (ppeId : Nat) (cfg : Word) (priv : Priv) :
    (hnatStartTable chip allocs ppeId cfg priv).Every p ↔
      (chip.version1 = true →
        (excludeBoundaryEntry priv.foeEtryNum (priv.foeEtryNum * chip.sizeofFoeEntry) 0).Every p) := by
  rw [hnatStartTable]
  split
  case isTrue hversion => simp [hversion]
  case isFalse hversion => simp [hversion]

theorem hnatStart_spec {fuel ppeId : Nat} (hppe : ppeId < chip.ppeNum) {started : Traced Event (Int × Priv)}
    (hstart : hnatStart chip allocs fuel ppeId priv = some started) :
    ∃ n, StartSpec chip allocs ppeId n priv started := by
  rw [hnatStart, if_neg (by omega)] at hstart
  split at hstart
  case h_1 => cases hstart
  case h_2 num cfg hsearch => exact absurd (tableSearch_some hsearch).1 Bool.false_ne_true
  case h_3 num cfg hsearch =>
    obtain ⟨-, n, hhit, hmisses, rfl⟩ := tableSearch_some hsearch
    simp only [Nat.zero_add] at hhit hmisses
    obtain rfl := Option.some.inj hstart
    generalize hpriv : { priv with
      foeEtryNum := priv.foeEtryNum / 2 ^ n
      foeTable := Function.update priv.foeTable ppeId (some (priv.foeEtryNum / 2 ^ n * chip.sizeofFoeEntry)) } =
        after
    obtain ⟨hret, hnum, htable, hmib⟩ := @hnatStartMib_spec chip allocs ppeId cfg after
    have hnumAfter : after.foeEtryNum = priv.foeEtryNum / 2 ^ n := by rw [← hpriv]
    have hval := @hnatStartTable_val chip allocs ppeId cfg after
    refine ⟨n, ⟨hhit, hmisses⟩, ?_, ?_, ?_, ?_, ?_⟩
    · rw [Traced.val_bind, hval, hnum, hnumAfter]
    · rw [Traced.val_bind, hval, htable, hnum, ← hpriv]
    · rw [Traced.val_bind, hval, hnum]
      intro k mibSz hk
      have := hmib k mibSz hk
      rwa [← hpriv] at this ⊢
    · rw [Traced.val_bind, hval]
      exact hret
    · rw [Traced.val_bind, hval, hnum, Traced.every_bind, Traced.every_emit, every_hnatStartTable]
      refine and_congr_left fun _ => ?_
      simp only [Event.Ok, Bool.true_eq_false, imp_false]
      push Not
      simp


/-! ### The starts -/

theorem hnatStarts_succ {fuel count ppeId : Nat} {run : Traced Event (Int × Priv)} (hppe : ppeId < chip.ppeNum)
    (hrun : hnatStarts chip allocs fuel (count + 1) ppeId priv = some run) :
    ∃ started n, StartSpec chip allocs ppeId n priv started ∧
      ((StartFails chip allocs ppeId ∧ run = started) ∨
        (¬ StartFails chip allocs ppeId ∧ ∃ rest,
          hnatStarts chip allocs fuel count (ppeId + 1) started.val.2 = some rest ∧
          run = (started >>= fun _ => rest))) := by
  rw [hnatStarts] at hrun
  split at hrun
  case h_1 => cases hrun
  case h_2 started hstart =>
    obtain ⟨n, hspec⟩ := hnatStart_spec hppe hstart
    refine ⟨started, n, hspec, ?_⟩
    split at hrun
    case isTrue hfails =>
      exact Or.inl ⟨not_not.1 fun h => hfails (hspec.ret.2 h), (Option.some.inj hrun).symm⟩
    case isFalse hok =>
      split at hrun
      case h_1 => cases hrun
      case h_2 rest hrest =>
        exact Or.inr ⟨hspec.ret.1 (not_not.1 hok), rest, hrest, (Option.some.inj hrun).symm⟩

/-- What no start of a later PPE undoes. -/
theorem hnatStarts_keeps {fuel count ppeId : Nat} {run : Traced Event (Int × Priv)}
    (hppe : ppeId + count ≤ chip.ppeNum) (hrun : hnatStarts chip allocs fuel count ppeId priv = some run) :
    run.val.2.foeEtryNum ≤ priv.foeEtryNum ∧ ∀ k < ppeId, run.val.2.foeTable k = priv.foeTable k := by
  induction count generalizing ppeId priv run with
  | zero =>
      obtain rfl := Option.some.inj hrun
      exact ⟨le_rfl, fun _ _ => rfl⟩
  | succ count ih =>
      obtain ⟨started, n, hspec, hcases⟩ := hnatStarts_succ (by omega) hrun
      have hnum : started.val.2.foeEtryNum ≤ priv.foeEtryNum := by
        rw [hspec.num]
        exact Nat.div_le_self _ _
      have htable : ∀ k < ppeId, started.val.2.foeTable k = priv.foeTable k := by
        intro k hk
        rw [hspec.table, Function.update_of_ne (by omega)]
      rcases hcases with ⟨-, rfl⟩ | ⟨-, rest, hrest, rfl⟩
      · exact ⟨hnum, htable⟩
      · obtain ⟨hle, hkeeps⟩ := ih (by omega) hrest
        refine ⟨le_trans hle hnum, fun k hk => ?_⟩
        rw [Traced.val_bind, hkeeps k (by omega), htable k hk]

theorem hnatStarts_ret {fuel count ppeId : Nat} {run : Traced Event (Int × Priv)}
    (hppe : ppeId + count ≤ chip.ppeNum) (hrun : hnatStarts chip allocs fuel count ppeId priv = some run) :
    run.val.1 = 0 ↔ ∀ i < count, ¬ StartFails chip allocs (ppeId + i) := by
  induction count generalizing ppeId priv run with
  | zero =>
      obtain rfl := Option.some.inj hrun
      exact iff_of_true rfl fun i hi => absurd hi (Nat.not_lt_zero i)
  | succ count ih =>
      obtain ⟨started, n, hspec, hcases⟩ := hnatStarts_succ (by omega) hrun
      rw [Nat.forall_lt_succ_left]
      rcases hcases with ⟨hfails, rfl⟩ | ⟨hok, rest, hrest, rfl⟩
      · rw [hspec.ret]
        simp [hfails]
      · rw [Traced.val_bind, ih (by omega) hrest, and_iff_right (show ¬ StartFails chip allocs (ppeId + 0) from hok)]
        simp only [Nat.add_assoc, Nat.add_comm 1]

/-- When the number of entries is what it was, every PPE got its table at the first try. -/
theorem firstTry_of_num_eq {fuel count ppeId : Nat} {run : Traced Event (Int × Priv)}
    (hppe : ppeId + count ≤ chip.ppeNum) (hrun : hnatStarts chip allocs fuel count ppeId priv = some run)
    (hnum : run.val.2.foeEtryNum = priv.foeEtryNum) (hpos : 0 < priv.foeEtryNum) {i : Nat} (hi : i < count)
    (hbefore : ∀ j < i, ¬ StartFails chip allocs (ppeId + j)) : allocs.foe (ppeId + i) 0 = true := by
  induction count generalizing ppeId priv run i with
  | zero => omega
  | succ count ih =>
      obtain ⟨started, n, hspec, hcases⟩ := hnatStarts_succ (by omega) hrun
      have hle : run.val.2.foeEtryNum ≤ started.val.2.foeEtryNum := by
        rcases hcases with ⟨-, rfl⟩ | ⟨-, rest, hrest, rfl⟩
        · exact le_rfl
        · exact (hnatStarts_keeps (by omega) hrest).1
      have hdiv := hspec.num
      have hself : priv.foeEtryNum / 2 ^ n ≤ priv.foeEtryNum := Nat.div_le_self _ _
      cases i with
      | zero =>
          have hzero : n = 0 := by
            by_contra hne
            have hlt : priv.foeEtryNum / 2 ^ n < priv.foeEtryNum := Nat.div_lt_self hpos (Nat.one_lt_two_pow hne)
            omega
          rw [Nat.add_zero, ← hzero]
          exact hspec.first.hit
      | succ i =>
          rcases hcases with ⟨hfails, rfl⟩ | ⟨-, rest, hrest, rfl⟩
          · exact absurd hfails (hbefore 0 (by omega))
          · rw [Traced.val_bind] at hnum
            have hsame : started.val.2.foeEtryNum = priv.foeEtryNum := by
              rw [Traced.val_bind] at hle
              omega
            have hbehind : ∀ j < i, ¬ StartFails chip allocs (ppeId + 1 + j) := by
              intro j hj
              rw [Nat.add_assoc, Nat.add_comm 1]
              exact hbefore (j + 1) (by omega)
            have hfirst : allocs.foe (ppeId + 1 + i) 0 = true :=
              ih (by omega) hrest (hnum.trans hsame.symm) (by omega) (by omega) hbehind
            rwa [Nat.add_assoc, Nat.add_comm 1] at hfirst

/-! ### Tables of one size -/

/-- Every table has as many entries as the field says. -/
structure Uniform (chip : Chip) (priv : Priv) : Prop where
  foe : ∀ k tableSz, priv.foeTable k = some tableSz → tableSz = priv.foeEtryNum * chip.sizeofFoeEntry
  mib : ∀ k mibSz, priv.foeMib k = some mibSz → mibSz = priv.foeEtryNum * chip.sizeofMibEntry

theorem FirstHit.eq_zero {ppeId n : Nat} (hfirst : FirstHit allocs ppeId n) (htry : allocs.foe ppeId 0 = true) :
    n = 0 := by
  by_contra hne
  have := hfirst.misses 0 (by omega)
  rw [htry] at this
  cases this

theorem every_excludeBoundaryEntry {num base : Nat} (hnum : 128 ∣ num) (hbase : 128 ∣ base) :
    (excludeBoundaryEntry num (num * chip.sizeofFoeEntry) base).Every (Event.Ok chip allocs) := by
  fun_induction excludeBoundaryEntry num (num * chip.sizeofFoeEntry) base with
  | case1 base hlt ih =>
      rw [Traced.every_bind, Traced.every_forM]
      refine ⟨fun offset hoffset => Traced.every_emit.2 (Nat.mul_le_mul_right _ ?_), ih (by omega)⟩
      have hle : offset ≤ 115 := by
        revert offset
        decide
      omega
  | case2 base hge => exact Traced.every_pure _

theorem StartSpec.every {ppeId n : Nat} {started : Traced Event (Int × Priv)}
    (hspec : StartSpec chip allocs ppeId n priv started) (htry : ∃ t ≤ chip.defEtryNumCfg, allocs.foe ppeId t = true)
    (hnum : 128 ∣ started.val.2.foeEtryNum) : started.Every (Event.Ok chip allocs) :=
  hspec.events.2 ⟨htry, fun _ => every_excludeBoundaryEntry hnum (Nat.dvd_zero 128)⟩

/-- A PPE that gets its table at the first try keeps the tables as they are. -/
theorem StartSpec.uniform {ppeId : Nat} {started : Traced Event (Int × Priv)}
    (hspec : StartSpec chip allocs ppeId 0 priv started) (huniform : Uniform chip priv) :
    Uniform chip started.val.2 ∧ started.val.2.foeEtryNum = priv.foeEtryNum := by
  have hnum : started.val.2.foeEtryNum = priv.foeEtryNum := by rw [hspec.num, pow_zero, Nat.div_one]
  refine ⟨⟨fun k tableSz hk => ?_, fun k mibSz hk => ?_⟩, hnum⟩
  · rw [hspec.table, Function.update_apply] at hk
    split at hk
    case isTrue => exact (Option.some.inj hk).symm
    case isFalse =>
      rw [hnum]
      exact huniform.foe k tableSz hk
  · rcases hspec.mib k mibSz hk with hold | hnew
    · rw [hnum]
      exact huniform.mib k mibSz hold
    · exact hnew

/-- The first PPE has the only table, whatever its size. -/
theorem StartSpec.uniform_of_init {ppeId n : Nat} {started : Traced Event (Int × Priv)}
    (hspec : StartSpec chip allocs ppeId n (Priv.init chip) started) : Uniform chip started.val.2 := by
  refine ⟨fun k tableSz hk => ?_, fun k mibSz hk => ?_⟩
  · rw [hspec.table, Function.update_apply] at hk
    split at hk
    case isTrue => exact (Option.some.inj hk).symm
    case isFalse => cases hk
  · rcases hspec.mib k mibSz hk with hold | hnew
    · cases hold
    · exact hnew

/-- What starts at the first try leave. -/
structure StartsSpec (chip : Chip) (allocs : Allocs) (count ppeId : Nat) (priv : Priv)
    (run : Traced Event (Int × Priv)) : Prop where
  every : run.Every (Event.Ok chip allocs)
  uniform : Uniform chip run.val.2
  num : run.val.2.foeEtryNum = priv.foeEtryNum
  tables : run.val.1 = 0 → ∀ i < count, run.val.2.foeTable (ppeId + i) ≠ none

theorem hnatStarts_uniform {fuel count ppeId : Nat} {run : Traced Event (Int × Priv)}
    (hppe : ppeId + count ≤ chip.ppeNum) (hrun : hnatStarts chip allocs fuel count ppeId priv = some run)
    (huniform : Uniform chip priv) (hnum : 128 ∣ priv.foeEtryNum)
    (htries : ∀ i < count, (∀ j < i, ¬ StartFails chip allocs (ppeId + j)) → allocs.foe (ppeId + i) 0 = true) :
    StartsSpec chip allocs count ppeId priv run := by
  induction count generalizing ppeId priv run with
  | zero =>
      obtain rfl := Option.some.inj hrun
      exact ⟨Traced.every_pure _, huniform, rfl, fun _ i hi => absurd hi (Nat.not_lt_zero i)⟩
  | succ count ih =>
      obtain ⟨started, n, hspec, hcases⟩ := hnatStarts_succ (by omega) hrun
      have htry : allocs.foe ppeId 0 = true := htries 0 (by omega) fun j hj => absurd hj (Nat.not_lt_zero j)
      obtain rfl := hspec.first.eq_zero htry
      obtain ⟨hafter, hsame⟩ := hspec.uniform huniform
      have hevery := hspec.every ⟨0, Nat.zero_le _, htry⟩ (by rwa [hsame])
      rcases hcases with ⟨hfails, rfl⟩ | ⟨hok, rest, hrest, rfl⟩
      · exact ⟨hevery, hafter, hsame, fun hret => absurd hfails (hspec.ret.1 hret)⟩
      · have hrests := ih (by omega) hrest hafter (by rwa [hsame]) fun i hi hbefore => by
          rw [Nat.add_assoc, Nat.add_comm 1]
          refine htries (i + 1) (by omega) fun j hj => ?_
          cases j with
          | zero => exact hok
          | succ j =>
              rw [Nat.add_comm j, ← Nat.add_assoc]
              exact hbefore j (by omega)
        refine ⟨Traced.every_bind.2 ⟨hevery, hrests.every⟩, hrests.uniform, hrests.num.trans hsame, fun hret i hi => ?_⟩
        cases i with
        | zero =>
            rw [Traced.val_bind, Nat.add_zero, (hnatStarts_keeps (by omega) hrest).2 ppeId (by omega), hspec.table,
              Function.update_self]
            exact Option.some_ne_none _
        | succ i =>
            rw [Nat.add_comm i, ← Nat.add_assoc]
            exact hrests.tables hret i (by omega)


theorem hnatStart_ne_none {fuel ppeId t : Nat} (hhit : allocs.foe ppeId t = true) (ht : t < fuel) (priv : Priv) :
    hnatStart chip allocs fuel ppeId priv ≠ none := by
  rw [hnatStart]
  split
  case isTrue => exact Option.some_ne_none _
  case isFalse =>
    have hhit : allocs.foe ppeId (0 + t) = true := by rwa [Nat.zero_add]
    have hsearch := tableSearch_ne_none hhit ht priv.foeEtryNum (BitVec.ofNat 32 chip.defEtryNumCfg)
    split
    case h_1 hnone => exact absurd hnone hsearch
    case h_2 => exact Option.some_ne_none _
    case h_3 => exact Option.some_ne_none _

theorem hnatStarts_ne_none {fuel count ppeId : Nat} (hppe : ppeId + count ≤ chip.ppeNum)
    (hhits : ∀ i < count, (∀ j < i, ¬ StartFails chip allocs (ppeId + j)) →
      ∃ t < fuel, allocs.foe (ppeId + i) t = true) (priv : Priv) :
    hnatStarts chip allocs fuel count ppeId priv ≠ none := by
  induction count generalizing ppeId priv with
  | zero => exact Option.some_ne_none _
  | succ count ih =>
      obtain ⟨t, ht, hhit⟩ := hhits 0 (by omega) fun j hj => absurd hj (Nat.not_lt_zero j)
      rw [hnatStarts]
      split
      case h_1 hnone => exact absurd hnone (hnatStart_ne_none hhit ht priv)
      case h_2 started hstart =>
        obtain ⟨n, hspec⟩ := hnatStart_spec (by omega) hstart
        split
        case isTrue => exact Option.some_ne_none _
        case isFalse hok =>
          have hbehind : ∀ i < count, (∀ j < i, ¬ StartFails chip allocs (ppeId + 1 + j)) →
              ∃ t < fuel, allocs.foe (ppeId + 1 + i) t = true := by
            intro i hi hbefore
            rw [Nat.add_assoc, Nat.add_comm 1]
            refine hhits (i + 1) (by omega) fun j hj => ?_
            cases j with
            | zero => exact hspec.ret.1 (not_not.1 hok)
            | succ j =>
                rw [Nat.add_comm j, ← Nat.add_assoc]
                exact hbefore j (by omega)
          have hrest := ih (by omega) hbehind started.val.2
          split
          case h_1 hnone => exact absurd hnone hrest
          case h_2 => exact Option.some_ne_none _

/-! ### The life of the driver -/

theorem hnatLife_some {fuel : Nat} {life : Traced Event Int} (hlife : hnatLife chip allocs fuel = some life) :
    ∃ run, hnatStarts chip allocs fuel chip.ppeNum 0 (Priv.init chip) = some run ∧
      (life.Every (Event.Ok chip allocs) ↔ run.Every (Event.Ok chip allocs) ∧
        (run.val.1 = 0 → (entryDeleteByMac chip run.val.2).Every (Event.Ok chip allocs)) ∧
        ∀ k < chip.ppeNum, (hnatStop chip run.val.2 k).Every (Event.Ok chip allocs)) := by
  rw [hnatLife] at hlife
  split at hlife
  case h_1 => cases hlife
  case h_2 run hrun =>
    refine ⟨run, hrun, ?_⟩
    obtain rfl := Option.some.inj hlife
    rw [Traced.every_bind, hnatUse]
    simp only [Traced.every_bind, Traced.every_ite, Traced.every_forM, Traced.every_pure, and_true,
      List.mem_range]
    tauto

theorem hnatLife_ne_none {fuel : Nat} (hstarts : hnatStarts chip allocs fuel chip.ppeNum 0 (Priv.init chip) ≠ none) :
    hnatLife chip allocs fuel ≠ none := by
  rw [hnatLife]
  split
  case h_1 hnone => exact absurd hnone hstarts
  case h_2 => exact Option.some_ne_none _

theorem every_entryDeleteByMac : (entryDeleteByMac chip priv).Every (Event.Ok chip allocs) ↔
    ∀ k < chip.ppeNum, ∀ index < chip.defEtryNum,
      (index + 1) * chip.sizeofFoeEntry ≤ (priv.foeTable k).getD 0 := by
  rw [entryDeleteByMac, Traced.every_forM]
  simp only [Traced.every_forM, Traced.every_emit, List.mem_range, Event.Ok]

theorem every_hnatStop {p : Event → Prop} (k : Nat) : (hnatStop chip priv k).Every p ↔
    (hnatStopTable chip priv k).Every p ∧
      (chip.perFlowAccounting = true → (hnatStopMib chip priv k).Every p) := by
  rw [hnatStop, Traced.every_bind, Traced.every_ite]
  simp only [Traced.every_pure, implies_true, and_true]

theorem every_hnatStopTable {k tableSz : Nat} (htable : priv.foeTable k = some tableSz) :
    (hnatStopTable chip priv k).Every (Event.Ok chip allocs) ↔
      (∀ index < priv.foeEtryNum, (index + 1) * chip.sizeofFoeEntry ≤ tableSz) ∧
        priv.foeEtryNum * chip.sizeofFoeEntry = tableSz := by
  rw [hnatStopTable, htable]
  simp only [Traced.every_bind, Traced.every_forM, Traced.every_emit, List.mem_range, Event.Ok]

theorem Uniform.every_hnatStop (huniform : Uniform chip priv) (k : Nat) :
    (hnatStop chip priv k).Every (Event.Ok chip allocs) := by
  rw [FlowTable.every_hnatStop]
  constructor
  · cases htable : priv.foeTable k with
    | none =>
        rw [hnatStopTable, htable]
        exact Traced.every_pure ()
    | some tableSz =>
        obtain rfl := huniform.foe k tableSz htable
        rw [every_hnatStopTable htable]
        exact ⟨fun index hindex => Nat.mul_le_mul_right _ hindex, rfl⟩
  · intro _
    rw [hnatStopMib]
    split
    case h_1 => exact Traced.every_pure ()
    case h_2 mibSz hk => exact Traced.every_emit.2 (huniform.mib k mibSz hk).symm

/-! ### The condition -/

theorem defEtryNum_eq (chip : Chip) : chip.defEtryNum = 1024 * 2 ^ chip.defEtryNumCfg := by
  rw [Chip.defEtryNum, Chip.defEtryNumCfg]
  split
  · rfl
  · rfl

/-- A table of one of the sizes. -/
theorem dvd_size {n : Nat} (hn : n ≤ chip.defEtryNumCfg) :
    1024 ∣ chip.defEtryNum / 2 ^ n ∧ 0 < chip.defEtryNum / 2 ^ n := by
  obtain ⟨k, hk⟩ := Nat.exists_eq_add_of_le hn
  have hsize : chip.defEtryNum / 2 ^ n = 1024 * 2 ^ k := by
    rw [defEtryNum_eq, hk, pow_add, Nat.mul_left_comm, Nat.mul_div_cancel_left _ (Nat.two_pow_pos n)]
  rw [hsize]
  exact ⟨Nat.dvd_mul_right _ _, Nat.mul_pos (by decide) (Nat.two_pow_pos k)⟩

theorem FirstHit.le {ppeId n t : Nat} (hfirst : FirstHit allocs ppeId n) (hhit : allocs.foe ppeId t = true) :
    n ≤ t := by
  by_contra hlt
  have := hfirst.misses t (by omega)
  rw [hhit] at this
  cases this

theorem exists_started_fails (hfails : ∃ i < chip.ppeNum, StartFails chip allocs i) :
    ∃ ppeId, Started chip allocs ppeId ∧ StartFails chip allocs ppeId := by
  classical
  obtain ⟨hlt, hfail⟩ := Nat.find_spec hfails
  refine ⟨_, ⟨hlt, fun k hk hfail' => ?_⟩, hfail⟩
  exact Nat.find_min hfails hk ⟨by omega, hfail'⟩

theorem Bounded.allocsOk (hbounded : Bounded chip allocs) : AllocsOk chip allocs := by
  obtain ⟨fuel, hfuel⟩ := hbounded.returns
  obtain ⟨life, hlife⟩ := Option.ne_none_iff_exists'.1 hfuel
  obtain ⟨run, hrun, hevery⟩ := hnatLife_some hlife
  obtain ⟨hstarts, hdelete, hstop⟩ := hevery.1 (hbounded.events fuel life hlife)
  cases hcount : chip.ppeNum with
  | zero => exact Or.inl fun ppeId hstarted => absurd hstarted.1 (by omega)
  | succ count =>
      have hrun' := hrun
      rw [hcount] at hrun'
      obtain ⟨started, n, hspec, hcases⟩ := hnatStarts_succ (by omega) hrun'
      have hstarted : started.Every (Event.Ok chip allocs) := by
        rcases hcases with ⟨-, rfl⟩ | ⟨-, rest, -, rfl⟩
        · exact hstarts
        · exact (Traced.every_bind.1 hstarts).1
      obtain ⟨⟨t, ht, hhit⟩, -⟩ := hspec.events.1 hstarted
      have hn : n ≤ chip.defEtryNumCfg := le_trans (hspec.first.le hhit) ht
      have hnum : started.val.2.foeEtryNum = chip.defEtryNum / 2 ^ n := hspec.num
      have hpos : 0 < started.val.2.foeEtryNum := by
        rw [hnum]
        exact (dvd_size hn).2
      -- the table of the first PPE is freed with the number that is left at the end
      have htable : run.val.2.foeTable 0 = some (started.val.2.foeEtryNum * chip.sizeofFoeEntry) := by
        have hfirst : started.val.2.foeTable 0 = some (started.val.2.foeEtryNum * chip.sizeofFoeEntry) := by
          rw [hspec.table, Function.update_self]
        rcases hcases with ⟨-, rfl⟩ | ⟨-, rest, hrest, rfl⟩
        · exact hfirst
        · rw [Traced.val_bind, (hnatStarts_keeps (by omega) hrest).2 0 Nat.one_pos, hfirst]
      have hfreed := ((every_hnatStopTable htable).1 (every_hnatStop 0 |>.1 (hstop 0 (by omega))).1).2
      have hlast : run.val.2.foeEtryNum = started.val.2.foeEtryNum :=
        Nat.eq_of_mul_eq_mul_right chip.foeEntryPos hfreed
      by_cases hret : run.val.1 = 0
      · refine Or.inl fun ppeId hppe => ?_
        have hdef : 0 < chip.defEtryNum := by
          rw [defEtryNum_eq]
          positivity
        have hwalk := every_entryDeleteByMac.1 (hdelete hret) 0 (by omega) (chip.defEtryNum - 1) (by omega)
        rw [htable, Option.getD_some, Nat.sub_add_cancel hdef] at hwalk
        have hge := Nat.le_of_mul_le_mul_right hwalk chip.foeEntryPos
        have hle : chip.defEtryNum / 2 ^ n ≤ chip.defEtryNum := Nat.div_le_self _ _
        have hsame : run.val.2.foeEtryNum = (Priv.init chip).foeEtryNum :=
          show run.val.2.foeEtryNum = chip.defEtryNum by omega
        have := firstTry_of_num_eq (Nat.zero_add _).le hrun hsame (show 0 < chip.defEtryNum by omega) hppe.1
          (fun j hj => by
            rw [Nat.zero_add]
            exact hppe.2 j hj)
        rwa [Nat.zero_add] at this
      · refine Or.inr ⟨exists_started_fails ?_, ⟨t, ht, hhit⟩, fun ppeId hppe hstartedPpe => ?_⟩
        · have hnot := mt (hnatStarts_ret (Nat.zero_add _).le hrun).2 hret
          push Not at hnot
          simpa only [Nat.zero_add] using hnot
        · rcases hcases with ⟨hfails, rfl⟩ | ⟨-, rest, hrest, rfl⟩
          · exact absurd hfails (hstartedPpe.2 0 hppe)
          · obtain ⟨i, rfl⟩ : ∃ i, ppeId = 0 + 1 + i := ⟨ppeId - 1, by omega⟩
            rw [Traced.val_bind] at hlast
            have := hstartedPpe.1
            refine firstTry_of_num_eq (by omega) hrest hlast hpos (by omega) fun j hj => ?_
            exact hstartedPpe.2 _ (by omega)

theorem uniform_init : Uniform chip (Priv.init chip) :=
  ⟨fun _ _ h => (nomatch h), fun _ _ h => (nomatch h)⟩

theorem AllocsOk.bounded (hok : AllocsOk chip allocs) : Bounded chip allocs := by
  rcases hok with hfirst | ⟨hfails, ⟨t, ht, hhit⟩, hothers⟩
  · have htries : ∀ i < chip.ppeNum, (∀ j < i, ¬ StartFails chip allocs (0 + j)) → allocs.foe (0 + i) 0 = true := by
      simp only [Nat.zero_add]
      exact fun i hi hbefore => hfirst i ⟨hi, hbefore⟩
    refine ⟨⟨1, hnatLife_ne_none (hnatStarts_ne_none (Nat.zero_add _).le (fun i hi hbefore => ?_) _)⟩,
      fun fuel life hlife => ?_⟩
    · exact ⟨0, Nat.one_pos, htries i hi hbefore⟩
    · obtain ⟨run, hrun, hevery⟩ := hnatLife_some hlife
      have hdvd : 128 ∣ (Priv.init chip).foeEtryNum := by
        have := (@dvd_size chip 0 (Nat.zero_le _)).1
        rw [pow_zero, Nat.div_one] at this
        exact Dvd.dvd.trans (by decide) this
      have hspec := hnatStarts_uniform (Nat.zero_add _).le hrun uniform_init hdvd htries
      refine hevery.2 ⟨hspec.every, fun hret => ?_, fun k _ => hspec.uniform.every_hnatStop k⟩
      rw [every_entryDeleteByMac]
      intro k hk index hindex
      have hsome := hspec.tables hret k hk
      rw [Nat.zero_add] at hsome
      obtain ⟨tableSz, htable⟩ := Option.ne_none_iff_exists'.1 hsome
      rw [htable, Option.getD_some, hspec.uniform.foe k tableSz htable, hspec.num]
      exact Nat.mul_le_mul_right _ hindex
  · obtain ⟨failing, hfailing, hfail⟩ := hfails
    obtain ⟨count, hcount⟩ : ∃ count, chip.ppeNum = count + 1 :=
      ⟨chip.ppeNum - 1, by have := hfailing.1; omega⟩
    refine ⟨⟨t + 1, hnatLife_ne_none (hnatStarts_ne_none (Nat.zero_add _).le (fun i hi hbefore => ?_) _)⟩,
      fun fuel life hlife => ?_⟩
    · simp only [Nat.zero_add] at hbefore ⊢
      rcases Nat.eq_zero_or_pos i with rfl | hpos
      · exact ⟨t, Nat.lt_succ_self t, hhit⟩
      · exact ⟨0, Nat.succ_pos t, hothers i hpos ⟨hi, hbefore⟩⟩
    · obtain ⟨run, hrun, hevery⟩ := hnatLife_some hlife
      have hret : run.val.1 ≠ 0 := by
        rw [Ne, hnatStarts_ret (Nat.zero_add _).le hrun]
        intro hok
        have := hok failing hfailing.1
        rw [Nat.zero_add] at this
        exact this hfail
      rw [hcount] at hrun
      obtain ⟨started, n, hspec, hcases⟩ := hnatStarts_succ (by omega) hrun
      have hn : n ≤ chip.defEtryNumCfg := le_trans (hspec.first.le hhit) ht
      have hdvd : 128 ∣ started.val.2.foeEtryNum := by
        rw [hspec.num]
        exact Dvd.dvd.trans (by decide) (dvd_size hn).1
      have hstarted := hspec.every ⟨t, ht, hhit⟩ hdvd
      have huniform := hspec.uniform_of_init
      obtain ⟨hruns, huses⟩ : run.Every (Event.Ok chip allocs) ∧ Uniform chip run.val.2 := by
        rcases hcases with ⟨-, rfl⟩ | ⟨hok, rest, hrest, rfl⟩
        · exact ⟨hstarted, huniform⟩
        · have hrests := hnatStarts_uniform (by omega) hrest huniform hdvd fun i hi hbefore => by
            refine hothers (0 + 1 + i) (by omega) ⟨by omega, fun k hk => ?_⟩
            cases k with
            | zero => exact hok
            | succ k =>
                rw [Nat.add_comm k]
                exact hbefore k (by omega)
          exact ⟨Traced.every_bind.2 ⟨hstarted, hrests.every⟩, hrests.uniform⟩
      exact hevery.2 ⟨hruns, fun h => absurd h hret, fun k _ => huses.every_hnatStop k⟩

/-- The flow tables are bounded if and only if the allocations succeed as far as they have to. -/
theorem hnatLife_bounded_iff (chip : Chip) (allocs : Allocs) : Bounded chip allocs ↔ AllocsOk chip allocs :=
  ⟨Bounded.allocsOk, AllocsOk.bounded⟩

/-- A driver with one PPE. -/
def onePpe : Chip where
  netsysRxV2 := true
  version1 := false
  perFlowAccounting := false
  ppeNum := 1
  sizeofFoeEntry := 80
  sizeofMibEntry := 16
  foeEntryPos := by decide

/-- The first try of the first allocation fails. -/
def secondTry : Allocs where
  foe := fun _ t => t ≠ 0
  mib := fun _ => true
  acct := fun _ => true

theorem hnatLife_unbounded : ¬ Bounded onePpe secondTry := by
  intro hbounded
  rcases hbounded.allocsOk with hfirst | ⟨⟨ppeId, -, hfails⟩, -⟩
  · have := hfirst 0 ⟨Nat.one_pos, fun k hk => absurd hk (Nat.not_lt_zero k)⟩
    cases this
  · cases hfails.1

end Immwrt.Hnat.FlowTable
