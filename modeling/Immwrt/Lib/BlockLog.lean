import Mathlib.Data.Set.Basic
import Mathlib.Tactic

/-!
# Storage written one block at a time

A storage device holds contents of some type `F`, of which only one thing is known: when two contents
are the same on a block. Every write goes to one block and may change nothing else. A log of writes
then says which blocks of the device are as they were, and what a power cut may leave behind: some of
the writes done, and the block of the next one in any condition.
-/

namespace Immwrt

/-- A write to one block of a device, with the contents it left. -/
structure BlockWrite (F : Type) where
  ba : Nat
  after : F

section

variable {F : Type} (same : Nat → F → F → Prop)

/-- Two contents agree on every block outside `S`. -/
def AgreeOff (S : Set Nat) (f g : F) : Prop := ∀ ba, ba ∉ S → same ba f g

/-- `log`, latest write first, leads from `f` to the last argument. -/
inductive Replays (f : F) : List (BlockWrite F) → F → Prop
  | nil : Replays f [] f
  | cons {log : List (BlockWrite F)} {g : F} {w : BlockWrite F} (hlog : Replays f log g)
      (hw : AgreeOff same {w.ba} g w.after) : Replays f (w :: log) w.after

/-- What a power cut may leave: the earlier writes done, and one more under way. -/
def Cut (f : F) (log : List (BlockWrite F)) (x : F) : Prop :=
  ∃ later w earlier g, log = later ++ w :: earlier ∧ Replays same f earlier g ∧
    AgreeOff same {w.ba} g x

end

variable {F : Type} {same : Nat → F → F → Prop} {S T : Set Nat} {f g h x : F}
  {log new old : List (BlockWrite F)}

theorem AgreeOff.mono (hsub : S ⊆ T) (hagree : AgreeOff same S f g) : AgreeOff same T f g :=
  fun ba hba => hagree ba fun hmem => hba (hsub hmem)

theorem AgreeOff.refl (heq : ∀ ba, Equivalence (same ba)) (S : Set Nat) (f : F) :
    AgreeOff same S f f :=
  fun ba _ => (heq ba).refl f

theorem AgreeOff.trans (heq : ∀ ba, Equivalence (same ba)) (hfg : AgreeOff same S f g)
    (hgh : AgreeOff same S g h) : AgreeOff same S f h :=
  fun ba hba => (heq ba).trans (hfg ba hba) (hgh ba hba)

theorem Replays.append (hold : Replays same f old g) (hnew : Replays same g new h) :
    Replays same f (new ++ old) h := by
  induction hnew with
  | nil => exact hold
  | cons _ hw ih => exact .cons ih hw

/-- A log leads to one place only. -/
theorem Replays.unique (hg : Replays same f log g) (hh : Replays same f log h) : g = h := by
  cases hg with
  | nil => cases hh with | nil => rfl
  | cons _ _ => cases hh with | cons _ _ => rfl

theorem Replays.split (hrep : Replays same f (new ++ old) h) :
    ∃ g, Replays same f old g ∧ Replays same g new h := by
  induction new generalizing h with
  | nil => exact ⟨h, hrep, .nil⟩
  | cons w new ih =>
      cases hrep with
      | cons hlog hw =>
          obtain ⟨g, hold, hnew⟩ := ih hlog
          exact ⟨g, hold, .cons hnew hw⟩

/-- Blocks no write went to are as they were. -/
theorem Replays.agreeOff (heq : ∀ ba, Equivalence (same ba)) (hrep : Replays same f log g)
    (hS : ∀ w ∈ log, w.ba ∈ S) : AgreeOff same S f g := by
  induction hrep with
  | nil => exact .refl heq S f
  | cons _ hw ih =>
      have hlast := hw.mono (Set.singleton_subset_iff.mpr (hS _ List.mem_cons_self))
      exact (ih fun w hmem => hS w (List.mem_cons_of_mem _ hmem)).trans heq hlast

theorem Cut.agreeOff (heq : ∀ ba, Equivalence (same ba)) (hcut : Cut same f log x)
    (hS : ∀ w ∈ log, w.ba ∈ S) : AgreeOff same S f x := by
  obtain ⟨later, w, earlier, g, rfl, hrep, hx⟩ := hcut
  have hearlier : AgreeOff same S f g := hrep.agreeOff heq fun v hv => hS v (by simp [hv])
  exact hearlier.trans heq (hx.mono (Set.singleton_subset_iff.mpr (hS w (by simp))))

end Immwrt
