import Mathlib.Data.Fintype.Option
import Mathlib.Data.Fintype.Pigeonhole

/-!
# Iterating a partial step

A step that may end. The states reached are those of `iterate`, and a run of a finite system ends if and only
if it reaches no state twice.
-/

namespace Immwrt.Partial

variable {α β : Type*} (step : α → Option α)

/-- The state after `n` steps, if there is one. -/
def iterate : Nat → α → Option α
  | 0, a => some a
  | n + 1, a => (step a).bind (iterate n)

/-- The step has an end. -/
def Ends (a : α) : Prop := ∃ n, iterate step n a = none

variable {step}

theorem iterate_add (m n : Nat) (a : α) :
    iterate step (m + n) a = (iterate step m a).bind (iterate step n) := by
  induction m generalizing a with
  | zero => rw [Nat.zero_add, iterate, Option.bind_some]
  | succ m ih =>
      rw [Nat.succ_add, iterate, iterate]
      cases step a with
      | none => rfl
      | some next => exact ih next

theorem iterate_succ (n : Nat) (a : α) : iterate step (n + 1) a = (iterate step n a).bind step := by
  have hone : iterate step 1 = step := by
    funext b
    exact Option.bind_fun_some (step b)
  rw [iterate_add, hone]

theorem iterate_none_of_le {m n : Nat} {a : α} (hend : iterate step m a = none) (hle : m ≤ n) :
    iterate step n a = none := by
  rw [← Nat.add_sub_cancel' hle, iterate_add, hend, Option.bind_none]

/-- What follows a state is the same whenever it is reached. -/
theorem iterate_congr {i j : Nat} {a : α} (heq : iterate step i a = iterate step j a) (n : Nat) :
    iterate step (i + n) a = iterate step (j + n) a := by
  rw [iterate_add, iterate_add, heq]

/-- Steps that end come to a state without a next one. -/
theorem Ends.exists_last {a : α} (h : Ends step a) : ∃ n b, iterate step n a = some b ∧ step b = none := by
  obtain ⟨n, hend⟩ := h
  induction n with
  | zero => cases hend
  | succ n ih =>
      rw [iterate_succ] at hend
      cases hb : iterate step n a with
      | none => exact ih hb
      | some b =>
          rw [hb] at hend
          exact ⟨n, b, hb, hend⟩

/-- A state that is reached again is reached for ever. -/
theorem iterate_ne_none_of_again {i j : Nat} {a : α} (hij : i < j) (hsome : iterate step i a ≠ none)
    (heq : iterate step i a = iterate step j a) (n : Nat) : iterate step n a ≠ none := by
  have hagain : ∀ k, iterate step (i + k * (j - i)) a = iterate step i a := by
    intro k
    induction k with
    | zero => rw [Nat.zero_mul, Nat.add_zero]
    | succ k ih =>
        rw [Nat.succ_mul, ← Nat.add_assoc, iterate_congr ih, Nat.add_sub_cancel' hij.le, heq]
  intro hend
  have hlater : n ≤ i + n * (j - i) := by
    have := Nat.le_mul_of_pos_right n (Nat.sub_pos_of_lt hij)
    omega
  exact hsome ((hagain n).symm.trans (iterate_none_of_le hend hlater))

theorem ends_iff [Finite α] {a : α} :
    Ends step a ↔ ∀ i j, i < j → iterate step i a ≠ none → iterate step i a ≠ iterate step j a := by
  constructor
  · rintro ⟨n, hend⟩ i j hij hsome heq
    exact iterate_ne_none_of_again hij hsome heq n hend
  · intro hdistinct
    by_contra hnever
    have hsome : ∀ n, iterate step n a ≠ none := fun n hend => hnever ⟨n, hend⟩
    obtain ⟨i, j, hne, heq⟩ := Finite.exists_ne_map_eq_of_infinite fun n => iterate step n a
    rcases lt_or_gt_of_ne hne with hij | hji
    · exact hdistinct i j hij (hsome i) heq
    · exact hdistinct j i hji (hsome j) heq.symm

instance instFiniteBitVec {w : Nat} : Finite (BitVec w) :=
  Finite.of_injective BitVec.toFin fun _ _ h => BitVec.eq_of_toNat_eq (congrArg Fin.val h)

/-- A run through states below a bound ends within so many steps, if it ends. -/
theorem ends_iff_iterate {code : α → Nat} (hcode : Function.Injective code) {bound : Nat}
    (hbound : ∀ a, step a ≠ none → code a < bound) {a : α} :
    Ends step a ↔ iterate step (bound + 1) a = none := by
  refine ⟨fun hends => ?_, fun hend => ⟨_, hend⟩⟩
  by_contra hsome
  have hstate : ∀ i : Fin (bound + 1), ∃ b, iterate step i a = some b ∧ code b < bound := by
    intro i
    have hnext : iterate step (i + 1) a ≠ none := fun h => hsome (iterate_none_of_le h (by omega))
    rw [iterate_succ] at hnext
    cases hb : iterate step i a with
    | none =>
        rw [hb] at hnext
        exact absurd rfl hnext
    | some b =>
        rw [hb] at hnext
        exact ⟨b, rfl, hbound b hnext⟩
  choose state hstate hlt using hstate
  obtain ⟨i, j, hne, heq⟩ := Fintype.exists_ne_map_eq_of_card_lt
    (fun i => (⟨code (state i), hlt i⟩ : Fin bound)) (by simp)
  have hsame : iterate step i a = iterate step j a := by
    rw [hstate, hstate, hcode (Fin.mk.inj heq)]
  obtain ⟨n, hend⟩ := hends
  have hi : iterate step i a ≠ none := by simp [hstate]
  rcases lt_or_gt_of_ne (Fin.val_ne_of_ne hne) with hij | hji
  · exact iterate_ne_none_of_again hij hi hsame n hend
  · exact iterate_ne_none_of_again hji (hsame ▸ hi) hsame.symm n hend

/-- A part of the state that steps by itself. -/
theorem iterate_map {step' : β → Option β} {g : α → β} (hstep : ∀ a, (step a).map g = step' (g a)) (n : Nat)
    (a : α) : (iterate step n a).map g = iterate step' n (g a) := by
  induction n generalizing a with
  | zero => rfl
  | succ n ih =>
      rw [iterate, iterate, ← hstep]
      cases step a with
      | none => rfl
      | some next => exact ih next

theorem ends_map {step' : β → Option β} {g : α → β} (hstep : ∀ a, (step a).map g = step' (g a)) {a : α} :
    Ends step a ↔ Ends step' (g a) := by
  refine exists_congr fun n => ?_
  rw [← iterate_map hstep, Option.map_eq_none_iff]

theorem forall_iterate_map {step' : β → Option β} {g : α → β} (hstep : ∀ a, (step a).map g = step' (g a))
    (post : β → Prop) (a : α) :
    (∀ n b, iterate step n a = some b → post (g b)) ↔ ∀ n b, iterate step' n (g a) = some b → post b := by
  constructor
  · intro h n b hb
    rw [← iterate_map hstep, Option.map_eq_some_iff] at hb
    obtain ⟨b, hb, rfl⟩ := hb
    exact h n b hb
  · intro h n b hb
    refine h n (g b) ?_
    rw [← iterate_map hstep, hb, Option.map_some]

/-! ### Walks -/

section Walk

variable {step : Nat → Option Nat}

/-- The places that a walk comes to are further and further on. -/
def Increasing (step : Nat → Option Nat) (start : Nat) : Prop :=
  ∀ n a b, iterate step n start = some a → step a = some b → a < b

theorem Increasing.le_iterate {start : Nat} (hinc : Increasing step start) {n a : Nat}
    (hiterate : iterate step n start = some a) : start + n ≤ a := by
  induction n generalizing a with
  | zero => exact (Option.some.inj hiterate).le
  | succ n ih =>
      rw [iterate_succ] at hiterate
      obtain ⟨b, hb, hstep⟩ := Option.bind_eq_some_iff.1 hiterate
      have := ih hb
      have := hinc n b a hb hstep
      omega

/-- A walk that never goes back and is over from some place on ends if and only if it never stays. -/
theorem ends_iff_increasing {bound start : Nat} (hmono : ∀ a b, step a = some b → a ≤ b)
    (hbound : ∀ a, step a ≠ none → a < bound) : Ends step start ↔ Increasing step start := by
  constructor
  · rintro ⟨m, hend⟩ n a b hiterate hstep
    refine lt_of_le_of_ne (hmono a b hstep) ?_
    rintro rfl
    have hagain : iterate step (n + 1) start = iterate step n start := by
      rw [iterate_succ, hiterate, Option.bind_some, hstep]
    refine iterate_ne_none_of_again (Nat.lt_succ_self n) ?_ hagain.symm m hend
    rw [hiterate]
    exact Option.some_ne_none a
  · intro hinc
    refine ⟨bound + 1, ?_⟩
    rw [iterate_succ]
    cases hiterate : iterate step bound start with
    | none => rfl
    | some a =>
        rw [Option.bind_some]
        by_contra hstep
        have := hbound a hstep
        have := hinc.le_iterate hiterate
        omega

end Walk

end Immwrt.Partial
