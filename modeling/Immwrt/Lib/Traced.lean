import Mathlib.Data.List.Basic

/-!
# Computations that leave a trace

A computation with a value and the list of the steps on the way that something is to be said about: the
bytes it touched, the shifts it made. The value does not depend on the trace.
-/

namespace Immwrt

structure Traced (ε α : Type) where
  val : α
  events : List ε

namespace Traced

variable {ε α β : Type}

instance : Monad (Traced ε) where
  pure a := ⟨a, []⟩
  bind x f := ⟨(f x.val).val, x.events ++ (f x.val).events⟩

def emit (event : ε) : Traced ε Unit := ⟨(), [event]⟩

@[simp]
theorem val_pure (a : α) : (pure a : Traced ε α).val = a := rfl

@[simp]
theorem val_bind (x : Traced ε α) (f : α → Traced ε β) : (x >>= f).val = (f x.val).val := rfl

@[simp]
theorem events_pure (a : α) : (pure a : Traced ε α).events = [] := rfl

@[simp]
theorem events_bind (x : Traced ε α) (f : α → Traced ε β) :
    (x >>= f).events = x.events ++ (f x.val).events := rfl

@[simp]
theorem events_emit (event : ε) : (emit event).events = [event] := rfl

/-- Every step of the trace is as it should be. -/
def Every (p : ε → Prop) (x : Traced ε α) : Prop := ∀ event ∈ x.events, p event

variable {p : ε → Prop}

@[simp]
theorem every_pure (a : α) : Every p (pure a : Traced ε α) := fun _ h => absurd h List.not_mem_nil

@[simp]
theorem every_bind {x : Traced ε α} {f : α → Traced ε β} :
    Every p (x >>= f) ↔ Every p x ∧ Every p (f x.val) := by
  simp only [Every, events_bind, List.mem_append, or_imp, forall_and]

@[simp]
theorem every_emit {event : ε} : Every p (emit event) ↔ p event := by
  simp [Every]

@[simp]
theorem every_ite {c : Prop} [Decidable c] {x y : Traced ε α} :
    Every p (if c then x else y) ↔ (c → Every p x) ∧ (¬ c → Every p y) := by
  split <;> simp [*]

/-- What holds of the value of a first computation is there for the second. -/
theorem every_val_bind {x : Traced ε α} {f : α → Traced ε β} {q : α → Prop} {r : β → Prop}
    (hx : Every p x ∧ q x.val) (hf : ∀ a, q a → Every p (f a) ∧ r (f a).val) :
    Every p (x >>= f) ∧ r (x >>= f).val := by
  obtain ⟨hevery, hval⟩ := hf x.val hx.2
  exact ⟨every_bind.mpr ⟨hx.1, hevery⟩, hval⟩

theorem val_foldlM (f : β → α → Traced ε β) (l : List α) (b : β) :
    (l.foldlM f b).val = l.foldl (fun b a => (f b a).val) b := by
  induction l generalizing b with
  | nil => rfl
  | cons a l ih => rw [List.foldlM_cons, val_bind, ih, List.foldl_cons]

@[simp]
theorem every_forM {f : α → Traced ε Unit} {l : List α} :
    Every p (l.forM f) ↔ ∀ a ∈ l, Every p (f a) := by
  induction l with
  | nil => exact iff_of_true (every_pure ()) fun a ha => absurd ha List.not_mem_nil
  | cons a l ih =>
      rw [List.forall_mem_cons, ← ih]
      exact every_bind

/-- What every turn of a loop does from a state that the loop keeps, the loop does. -/
theorem every_foldlM {f : β → α → Traced ε β} {keeps : β → Prop} {l : List α}
    (hstep : ∀ b a, a ∈ l → keeps b → Every p (f b a) ∧ keeps (f b a).val) {b : β} (hb : keeps b) :
    Every p (l.foldlM f b) ∧ keeps (l.foldlM f b).val := by
  induction l generalizing b with
  | nil => exact ⟨every_pure b, hb⟩
  | cons a l ih =>
      obtain ⟨hhead, hnext⟩ := hstep b a List.mem_cons_self hb
      obtain ⟨htail, hlast⟩ := ih (fun b a ha => hstep b a (List.mem_cons_of_mem _ ha)) hnext
      rw [List.foldlM_cons]
      exact ⟨every_bind.mpr ⟨hhead, htail⟩, hlast⟩

end Traced

end Immwrt
