import Mathlib.Tactic

/-!
# Runs of a step function

A run is a list of actions taken in turn. `Along` asks something of each action and the state it is taken
in, `Always` something of each state reached; the two rules say how one gives the other.
-/

namespace Immwrt.Run

variable {S A : Type*} (step : S → A → S)

/-- Every action meets `P` in the state it is taken in. -/
def Along (P : S → A → Prop) : List A → S → Prop
  | [], _ => True
  | a :: as, s => P s a ∧ Along P as (step s a)

/-- Every state reached meets `Q`. -/
def Always (Q : S → Prop) : List A → S → Prop
  | [], s => Q s
  | a :: as, s => Q s ∧ Always Q as (step s a)

instance {P : S → A → Prop} [∀ s a, Decidable (P s a)] : ∀ as s, Decidable (Along step P as s)
  | [], _ => inferInstanceAs (Decidable True)
  | a :: as, s =>
      have : Decidable (Along step P as (step s a)) := instDecidableAlong as (step s a)
      inferInstanceAs (Decidable (P s a ∧ Along step P as (step s a)))

variable {step} {I Q : S → Prop} {P C : S → A → Prop}

theorem Along.and {as : List A} {s : S} (hP : Along step P as s) (hC : Along step C as s) :
    Along step (fun s a => P s a ∧ C s a) as s := by
  induction as generalizing s with
  | nil => trivial
  | cons a as ih => exact ⟨⟨hP.1, hC.1⟩, ih hP.2 hC.2⟩

/-- An invariant that the actions keep holds in every state reached. -/
theorem always_of_inv (hstep : ∀ s a, I s → P s a → I (step s a)) {as : List A} {s : S}
    (hinit : I s) (hP : Along step P as s) : Always step I as s := by
  induction as generalizing s with
  | nil => exact hinit
  | cons a as ih => exact ⟨hinit, ih (hstep s a hinit hP.1) hP.2⟩

theorem along_of_forall (hP : ∀ s a, P s a) (as : List A) (s : S) : Along step P as s := by
  induction as generalizing s with
  | nil => trivial
  | cons a as ih => exact ⟨hP s a, ih (step s a)⟩

/-- An invariant that every action keeps holds in every run. -/
theorem always_of_step (hstep : ∀ s a, I s → I (step s a)) (as : List A) {s : S} (hinit : I s) : Always step I as s :=
  always_of_inv (P := fun _ _ => True) (fun s a hI _ => hstep s a hI) hinit (along_of_forall (fun _ _ => trivial) as s)

theorem Always.and {as : List A} {s : S} (hI : Always step I as s) (hQ : Always step Q as s) :
    Always step (fun s => I s ∧ Q s) as s := by
  induction as generalizing s with
  | nil => exact ⟨hI, hQ⟩
  | cons a as ih => exact ⟨⟨hI.1, hQ.1⟩, ih hI.2 hQ.2⟩

theorem Always.mono (hQ : ∀ s, I s → Q s) {as : List A} {s : S} (h : Always step I as s) :
    Always step Q as s := by
  induction as generalizing s with
  | nil => exact hQ s h
  | cons a as ih => exact ⟨hQ s h.1, ih h.2⟩

theorem Always.head {as : List A} {s : S} (h : Always step Q as s) : Q s := by
  cases as with
  | nil => exact h
  | cons a as => exact h.1

theorem Always.last {as : List A} {s : S} (h : Always step Q as s) : Q (as.foldl step s) := by
  induction as generalizing s with
  | nil => exact h
  | cons a as ih => exact ih h.2

/-- What each state reached tells of the action that led to it. -/
theorem along_of_always (hstep : ∀ s a, I s → P s a → I (step s a))
    (hback : ∀ s a, I s → P s a → Q (step s a) → C s a) {as : List A} {s : S} (hinit : I s)
    (hP : Along step P as s) (hQ : Always step Q as s) : Along step C as s := by
  induction as generalizing s with
  | nil => trivial
  | cons a as ih =>
      exact ⟨hback s a hinit hP.1 hQ.2.head, ih (hstep s a hinit hP.1) hP.2 hQ.2⟩

end Immwrt.Run
