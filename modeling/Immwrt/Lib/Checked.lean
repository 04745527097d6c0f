import Mathlib.Data.List.Basic
import Mathlib.Tactic

/-!
# Folds that may fail

A step goes on to another state, or fails. What it does may depend on the elements before, which an invariant keeps.
-/

namespace Immwrt.Checked

variable {ε σ α : Type*} {step : σ → α → Except ε σ}

theorem foldlM_snoc (l : List α) (a : α) (s : σ) :
    (l ++ [a]).foldlM step s = (l.foldlM step s).bind fun s' => step s' a := by
  rw [List.foldlM_append]
  cases l.foldlM step s with
  | error e => rfl
  | ok s' => exact bind_pure (step s' a)

/-- The element that a step is made for, and those before it. -/
def Throughout (good : List α → α → Prop) (l : List α) : Prop :=
  ∀ before a after, l = before ++ a :: after → good before a

theorem throughout_nil (good : List α → α → Prop) : Throughout good [] := by
  intro before a after h
  exact absurd h (by simp)

theorem throughout_snoc {good : List α → α → Prop} {l : List α} {a : α} :
    Throughout good (l ++ [a]) ↔ Throughout good l ∧ good l a := by
  constructor
  · intro h
    refine ⟨fun before b after hl => h before b (after ++ [a]) ?_, h l a [] rfl⟩
    rw [hl, List.append_assoc, List.cons_append]
  · rintro ⟨hl, ha⟩ before b after h
    rcases List.eq_nil_or_concat after with rfl | ⟨after, c, rfl⟩
    · obtain ⟨rfl, hab⟩ := List.append_inj' h rfl
      obtain rfl := List.singleton_inj.1 hab
      exact ha
    · rw [List.concat_eq_append, ← List.cons_append, ← List.append_assoc] at h
      exact hl before b after (List.append_inj' h rfl).1

theorem throughout_iff_forall {p : α → Prop} {l : List α} : Throughout (fun _ a => p a) l ↔ ∀ a ∈ l, p a := by
  constructor
  · intro h a ha
    obtain ⟨before, after, rfl⟩ := List.append_of_mem ha
    exact h before a after rfl
  · rintro h before a after rfl
    exact h a (by simp)

/-- A fold gets through if and only if every element is good after those before it, and otherwise fails with the error of
one that is not. -/
theorem foldlM_iff (inv : List α → σ → Prop) (good : List α → α → Prop) (bad : ε → Prop)
    (hgood : ∀ before a s, inv before s → good before a → ∃ s', step s a = .ok s' ∧ inv (before ++ [a]) s')
    (hbad : ∀ before a s, inv before s → ¬ good before a → ∃ e, step s a = .error e ∧ bad e) {s : σ} (hs : inv [] s)
    (l : List α) :
    (Throughout good l → ∃ s', l.foldlM step s = .ok s' ∧ inv l s') ∧
      (¬ Throughout good l → ∃ e, l.foldlM step s = .error e ∧ bad e) := by
  induction l using List.reverseRecOn with
  | nil => exact ⟨fun _ => ⟨s, rfl, hs⟩, fun h => absurd (throughout_nil good) h⟩
  | append_singleton l a ih =>
      rw [throughout_snoc, foldlM_snoc]
      by_cases hl : Throughout good l
      · obtain ⟨s', hs', hinv⟩ := ih.1 hl
        rw [hs']
        exact ⟨fun h => hgood l a s' hinv h.2, fun h => hbad l a s' hinv fun ha => h ⟨hl, ha⟩⟩
      · obtain ⟨e, he, hbad'⟩ := ih.2 hl
        rw [he]
        exact ⟨fun h => absurd h.1 hl, fun _ => ⟨e, rfl, hbad'⟩⟩

end Immwrt.Checked
