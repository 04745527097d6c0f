import Mathlib.Data.List.Nodup
import Mathlib.Data.Set.Insert
import Mathlib.Logic.Function.Basic

/-!
# Hash chains

A hash table with chaining keeps the elements of a set on lists, each on the list that its hash selects. The
three operations a table needs (an element is put in front, an element leaves, an element is moved to the
front) keep the table right for the set they should.
-/

namespace Immwrt

variable {α ι : Type*}

/-- The chains hold the elements of `S`, each once and on the chain of its hash. -/
structure Filed (chains : ι → List α) (hash : α → ι) (S : Set α) : Prop where
  nodup : ∀ i, (chains i).Nodup
  mem_iff : ∀ i x, x ∈ chains i ↔ x ∈ S ∧ hash x = i

namespace Filed

variable {chains : ι → List α} {hash : α → ι} {S : Set α}

theorem empty (hash : α → ι) (h : ∀ i, chains i = []) : Filed chains hash ∅ := by
  constructor
  · intro i
    rw [h i]
    exact List.nodup_nil
  · intro i x
    rw [h i]
    simp

theorem mem_chain (h : Filed chains hash S) {x : α} (hx : x ∈ S) : x ∈ chains (hash x) :=
  (h.mem_iff _ _).mpr ⟨hx, rfl⟩

theorem setOf_mem (h : Filed chains hash S) : { x | ∃ i, x ∈ chains i } = S := by
  ext x
  constructor
  · rintro ⟨i, hx⟩
    exact ((h.mem_iff i x).mp hx).1
  · intro hx
    exact ⟨hash x, h.mem_chain hx⟩

/-- Hashes matter for the elements of the set only. -/
theorem congr_hash (h : Filed chains hash S) {hash' : α → ι} (heq : ∀ x ∈ S, hash' x = hash x) :
    Filed chains hash' S := by
  refine ⟨h.nodup, ?_⟩
  intro i x
  rw [h.mem_iff]
  apply and_congr_right
  intro hx
  rw [heq x hx]

/-- A lookup on a chain finds the one element that it looks for, if that is on the chain. -/
theorem find?_eq_some_iff (h : Filed chains hash S) {p : α → Bool}
    (hp : ∀ x ∈ S, ∀ y ∈ S, p x = true → p y = true → x = y) {i : ι} {x : α} :
    (chains i).find? p = some x ↔ x ∈ S ∧ hash x = i ∧ p x = true := by
  constructor
  · intro hfind
    obtain ⟨hx, hhash⟩ := (h.mem_iff i x).mp (List.mem_of_find?_eq_some hfind)
    exact ⟨hx, hhash, List.find?_some hfind⟩
  · rintro ⟨hx, rfl, hpx⟩
    have hsome : ((chains (hash x)).find? p).isSome := List.find?_isSome.mpr ⟨x, h.mem_chain hx, hpx⟩
    obtain ⟨y, hfind⟩ := Option.isSome_iff_exists.mp hsome
    have hy := ((h.mem_iff _ y).mp (List.mem_of_find?_eq_some hfind)).1
    rw [hfind, hp x hx y hy hpx (List.find?_some hfind)]

variable [DecidableEq ι]

theorem push (h : Filed chains hash S) {x : α} (hx : x ∉ S) :
    Filed (Function.update chains (hash x) (x :: chains (hash x))) hash (insert x S) := by
  constructor
  · intro i
    by_cases hi : i = hash x
    · subst hi
      rw [Function.update_self, List.nodup_cons]
      exact ⟨fun hmem => hx ((h.mem_iff _ _).mp hmem).1, h.nodup _⟩
    · rw [Function.update_of_ne hi]
      exact h.nodup i
  · intro i y
    by_cases hi : i = hash x
    · subst hi
      rw [Function.update_self, List.mem_cons, h.mem_iff, Set.mem_insert_iff]
      constructor
      · rintro (rfl | ⟨hy, hhash⟩)
        · exact ⟨.inl rfl, rfl⟩
        · exact ⟨.inr hy, hhash⟩
      · rintro ⟨rfl | hy, hhash⟩
        · exact .inl rfl
        · exact .inr ⟨hy, hhash⟩
    · rw [Function.update_of_ne hi, h.mem_iff, Set.mem_insert_iff]
      apply and_congr_left
      intro hhash
      rw [or_iff_right]
      rintro rfl
      exact hi hhash.symm

variable [DecidableEq α]

theorem erase (h : Filed chains hash S) (x : α) :
    Filed (Function.update chains (hash x) ((chains (hash x)).erase x)) hash (S \ {x}) := by
  constructor
  · intro i
    by_cases hi : i = hash x
    · subst hi
      rw [Function.update_self]
      exact (h.nodup _).erase x
    · rw [Function.update_of_ne hi]
      exact h.nodup i
  · intro i y
    by_cases hi : i = hash x
    · subst hi
      rw [Function.update_self, (h.nodup _).mem_erase_iff, h.mem_iff, Set.mem_sdiff, Set.mem_singleton_iff]
      tauto
    · rw [Function.update_of_ne hi, h.mem_iff, Set.mem_sdiff, Set.mem_singleton_iff]
      apply and_congr_left
      intro hhash
      rw [iff_self_and]
      rintro - rfl
      exact hi hhash.symm

/-- An element leaves whichever chain it is on. -/
theorem eraseAll (h : Filed chains hash S) (x : α) : Filed (fun i => (chains i).erase x) hash (S \ {x}) := by
  have hchains : (fun i => (chains i).erase x) =
      Function.update chains (hash x) ((chains (hash x)).erase x) := by
    funext i
    by_cases hi : i = hash x
    · rw [hi, Function.update_self]
    · rw [Function.update_of_ne hi]
      exact List.erase_of_not_mem fun hmem => hi ((h.mem_iff i x).mp hmem).2.symm
  rw [hchains]
  exact h.erase x

theorem toFront (h : Filed chains hash S) {i : ι} {x : α} (hx : x ∈ chains i) :
    Filed (Function.update chains i (x :: (chains i).erase x)) hash S := by
  constructor
  · intro j
    by_cases hj : j = i
    · subst hj
      rw [Function.update_self, List.nodup_cons, (h.nodup _).mem_erase_iff]
      exact ⟨fun hmem => hmem.1 rfl, (h.nodup _).erase x⟩
    · rw [Function.update_of_ne hj]
      exact h.nodup j
  · intro j y
    by_cases hj : j = i
    · subst hj
      rw [Function.update_self, List.mem_cons, (h.nodup _).mem_erase_iff, ← h.mem_iff]
      constructor
      · rintro (rfl | ⟨-, hy⟩)
        · exact hx
        · exact hy
      · intro hy
        exact or_iff_not_imp_left.mpr fun hne => ⟨hne, hy⟩
    · rw [Function.update_of_ne hj, h.mem_iff]

end Filed

end Immwrt
