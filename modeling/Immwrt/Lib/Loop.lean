import Mathlib.Logic.Relation
import Immwrt.Lib.Partial

/-!
# Loops

A turn of a loop leaves it with a result or goes on with another state. A loop runs with fuel, and what it returns
does not depend on how much it gets.
-/

namespace Immwrt.Loop

variable {σ β : Type*} (turn : σ → β ⊕ σ)

/-- The result of the loop, if it returns within `fuel` turns. -/
def run : Nat → σ → Option β
  | 0, _ => none
  | fuel + 1, s =>
    match turn s with
    | .inl b => some b
    | .inr s => run fuel s

def Returns (s : σ) (b : β) : Prop := ∃ fuel, run turn fuel s = some b

variable {turn} {s s' : σ} {b b' : β}

theorem run_succ_inl (h : turn s = .inl b) (fuel : Nat) : run turn (fuel + 1) s = some b := by
  rw [run, h]

theorem run_succ_inr (h : turn s = .inr s') (fuel : Nat) : run turn (fuel + 1) s = run turn fuel s' := by
  rw [run, h]

theorem run_mono {fuel fuel' : Nat} (h : run turn fuel s = some b) (hle : fuel ≤ fuel') :
    run turn fuel' s = some b := by
  induction fuel generalizing s fuel' with
  | zero => cases h
  | succ fuel ih =>
      obtain ⟨more, rfl⟩ : ∃ more, fuel' = more + 1 := ⟨fuel' - 1, by omega⟩
      cases hturn : turn s with
      | inl r => rw [run_succ_inl hturn] at h ⊢; exact h
      | inr next =>
          rw [run_succ_inr hturn] at h ⊢
          exact ih h (by omega)

theorem Returns.unique (h : Returns turn s b) (h' : Returns turn s b') : b = b' := by
  obtain ⟨fuel, h⟩ := h
  obtain ⟨fuel', h'⟩ := h'
  have hmax := run_mono h (Nat.le_max_left fuel fuel')
  rw [run_mono h' (Nat.le_max_right fuel fuel')] at hmax
  exact (Option.some.inj hmax).symm

theorem returns_of_inl (h : turn s = .inl b) : Returns turn s b := ⟨1, run_succ_inl h 0⟩

theorem returns_iff_of_inr (h : turn s = .inr s') : Returns turn s b ↔ Returns turn s' b := by
  constructor
  · rintro ⟨fuel, hfuel⟩
    cases fuel with
    | zero => cases hfuel
    | succ fuel => exact ⟨fuel, run_succ_inr h fuel ▸ hfuel⟩
  · rintro ⟨fuel, hfuel⟩
    exact ⟨fuel + 1, (run_succ_inr h fuel).trans hfuel⟩

/-- An invariant holds when the loop is left. -/
theorem Returns.rule (inv : σ → Prop) (post : β → Prop) (h : Returns turn s b) (hinv : inv s)
    (hnext : ∀ s s', inv s → turn s = .inr s' → inv s') (hleave : ∀ s b, inv s → turn s = .inl b → post b) :
    post b := by
  obtain ⟨fuel, h⟩ := h
  induction fuel generalizing s with
  | zero => cases h
  | succ fuel ih =>
      cases hturn : turn s with
      | inl r =>
          rw [run_succ_inl hturn] at h
          exact Option.some.inj h ▸ hleave s r hinv hturn
      | inr next =>
          rw [run_succ_inr hturn] at h
          exact ih (hnext s next hinv hturn) h

/-- Some fuel is enough for one of the results that are made so. -/
theorem exists_run_iff {γ : Type*} {wrap : γ → β} :
    (∃ fuel c, run turn fuel s = some (wrap c)) ↔ ∃ b, Returns turn s b ∧ ∃ c, b = wrap c := by
  constructor
  · rintro ⟨fuel, c, h⟩
    exact ⟨wrap c, ⟨fuel, h⟩, c, rfl⟩
  · rintro ⟨_, ⟨fuel, h⟩, c, rfl⟩
    exact ⟨fuel, c, h⟩

/-! ### States on the way -/

variable (turn) in
/-- The loop comes from a state to another one. -/
def Reaches : σ → σ → Prop := Relation.ReflTransGen fun s s' => turn s = .inr s'

theorem Reaches.next {s'' : σ} (h : Reaches turn s s') (hturn : turn s' = .inr s'') : Reaches turn s s'' := h.tail hturn

theorem Reaches.returns_iff (h : Reaches turn s s') : Returns turn s b ↔ Returns turn s' b := by
  induction h with
  | refl => exact Iff.rfl
  | tail _ hturn ih => exact ih.trans (returns_iff_of_inr hturn)

/-- A loop that returns comes to the state in which it does. -/
theorem Returns.reaches (h : Returns turn s b) : ∃ s', Reaches turn s s' ∧ turn s' = .inl b := by
  obtain ⟨fuel, h⟩ := h
  induction fuel generalizing s with
  | zero => cases h
  | succ fuel ih =>
      cases hturn : turn s with
      | inl b' =>
          rw [run_succ_inl hturn] at h
          obtain rfl := Option.some.inj h
          exact ⟨s, .refl, hturn⟩
      | inr next =>
          rw [run_succ_inr hturn] at h
          obtain ⟨s', hs', hlast⟩ := ih h
          exact ⟨s', .head hturn hs', hlast⟩

/-- A loop in a loop comes to its states there too. -/
theorem Reaches.embed {σ' β' : Type*} {inner : σ' → β' ⊕ σ'} (embed : σ' → σ)
    (hgo : ∀ s s', inner s = .inr s' → turn (embed s) = .inr (embed s')) {t t' : σ'} (h : Reaches inner t t') :
    Reaches turn (embed t) (embed t') :=
  Relation.ReflTransGen.lift embed (fun s s' => hgo s s') t t' h

/-! ### Loops with known states -/

section States

variable {states : Nat → σ} {goesOn : Nat → Prop}

theorem leaves_of_run (hgo : ∀ k, goesOn k → turn (states k) = .inr (states (k + 1)))
    (hleave : ∀ k, ¬ goesOn k → ∃ b, turn (states k) = .inl b) {fuel k : Nat}
    (h : run turn fuel (states k) = some b) :
    ∃ m, k ≤ m ∧ (∀ j, k ≤ j → j < m → goesOn j) ∧ turn (states m) = .inl b := by
  induction fuel generalizing k with
  | zero => cases h
  | succ fuel ih =>
      by_cases hk : goesOn k
      · rw [run_succ_inr (hgo k hk)] at h
        obtain ⟨m, hle, hbefore, hlast⟩ := ih h
        refine ⟨m, by omega, fun j hj hjm => ?_, hlast⟩
        rcases Nat.eq_or_lt_of_le hj with rfl | hlt
        · exact hk
        · exact hbefore j hlt hjm
      · obtain ⟨b', hb'⟩ := hleave k hk
        rw [run_succ_inl hb'] at h
        obtain rfl := Option.some.inj h
        exact ⟨k, le_rfl, fun j hj hjm => absurd hj (by omega), hb'⟩

theorem returns_iff_of_goesOn (hgo : ∀ k, goesOn k → turn (states k) = .inr (states (k + 1))) {k : Nat}
    (hbefore : ∀ j < k, goesOn j) : Returns turn (states 0) b ↔ Returns turn (states k) b := by
  induction k with
  | zero => exact Iff.rfl
  | succ k ih =>
      rw [ih fun j hj => hbefore j (by omega), returns_iff_of_inr (hgo k (hbefore k (Nat.lt_succ_self k)))]

/-- A loop whose states are known as long as it goes on returns where it first does not. -/
theorem returns_iff_of_states (states : Nat → σ) (goesOn : Nat → Prop)
    (hgo : ∀ k, goesOn k → turn (states k) = .inr (states (k + 1)))
    (hleave : ∀ k, ¬ goesOn k → ∃ b, turn (states k) = .inl b) :
    Returns turn (states 0) b ↔ ∃ k, (∀ j < k, goesOn j) ∧ turn (states k) = .inl b := by
  constructor
  · rintro ⟨fuel, hrun⟩
    obtain ⟨m, -, hbefore, hlast⟩ := leaves_of_run hgo hleave hrun
    exact ⟨m, fun j hj => hbefore j (Nat.zero_le j) hj, hlast⟩
  · rintro ⟨k, hbefore, hlast⟩
    exact (returns_iff_of_goesOn hgo hbefore).2 (returns_of_inl hlast)

/-- It returns if and only if it does not go on for ever. -/
theorem exists_returns_iff_of_states (states : Nat → σ) (goesOn : Nat → Prop)
    (hgo : ∀ k, goesOn k → turn (states k) = .inr (states (k + 1)))
    (hleave : ∀ k, ¬ goesOn k → ∃ b, turn (states k) = .inl b) :
    (∃ b, Returns turn (states 0) b) ↔ ∃ k, ¬ goesOn k := by
  classical
  constructor
  · rintro ⟨b, hreturns⟩
    obtain ⟨k, -, hlast⟩ := (returns_iff_of_states states goesOn hgo hleave).1 hreturns
    refine ⟨k, fun hk => ?_⟩
    rw [hgo k hk] at hlast
    cases hlast
  · intro hends
    obtain ⟨b, hb⟩ := hleave _ (Nat.find_spec hends)
    refine ⟨b, (returns_iff_of_states states goesOn hgo hleave).2 ⟨Nat.find hends, fun j hj => ?_, hb⟩⟩
    exact not_not.1 (Nat.find_min hends hj)

end States

/-! ### Loops in loops -/

section Nested

variable {σ' β' : Type*}

variable (turn) in
/-- What a loop returns after a turn that ended so. -/
def Continues : β ⊕ σ → β → Prop
  | .inl b, b' => b = b'
  | .inr s, b => Returns turn s b

theorem returns_iff_continues : Returns turn s b ↔ Continues turn (turn s) b := by
  cases hturn : turn s with
  | inl b' =>
      constructor
      · exact fun h => (returns_of_inl hturn).unique h
      · rintro rfl
        exact returns_of_inl hturn
  | inr s' => exact returns_iff_of_inr hturn

/-- A loop whose turns are first those of another loop returns if that one does. -/
theorem returns_nested_iff (inner : σ' → β' ⊕ σ') (embed : σ' → σ) (exit : β' → β ⊕ σ)
    (hgo : ∀ s s', inner s = .inr s' → turn (embed s) = .inr (embed s'))
    (hexit : ∀ s w, inner s = .inl w → turn (embed s) = exit w) {s : σ'} :
    Returns turn (embed s) b ↔ ∃ w, Returns inner s w ∧ Continues turn (exit w) b := by
  constructor
  · rintro ⟨fuel, h⟩
    induction fuel generalizing s with
    | zero => cases h
    | succ fuel ih =>
        cases hturn : inner s with
        | inl w =>
            refine ⟨w, returns_of_inl hturn, ?_⟩
            rw [← hexit s w hturn]
            exact returns_iff_continues.1 ⟨fuel + 1, h⟩
        | inr s' =>
            rw [run_succ_inr (hgo s s' hturn)] at h
            obtain ⟨w, hw, hrest⟩ := ih h
            exact ⟨w, (returns_iff_of_inr hturn).2 hw, hrest⟩
  · rintro ⟨w, ⟨fuel, h⟩, hrest⟩
    induction fuel generalizing s with
    | zero => cases h
    | succ fuel ih =>
        cases hturn : inner s with
        | inl w' =>
            rw [run_succ_inl hturn] at h
            obtain rfl := Option.some.inj h
            rw [returns_iff_continues, hexit s w' hturn]
            exact hrest
        | inr s' =>
            rw [run_succ_inr hturn] at h
            exact (returns_iff_of_inr (hgo s s' hturn)).2 (ih h)

end Nested

/-! ### Loops that may not return -/

variable (turn) in
/-- The state after a turn, if the loop goes on. -/
def next (s : σ) : Option σ := (turn s).getRight?

theorem next_eq_some : next turn s = some s' ↔ turn s = .inr s' := by
  rw [next, Sum.getRight?_eq_some_iff]

/-- The states that a loop comes to are those after some turns. -/
theorem reaches_iff : Reaches turn s s' ↔ ∃ n, Partial.iterate (next turn) n s = some s' := by
  constructor
  · intro h
    induction h with
    | refl => exact ⟨0, rfl⟩
    | tail _ hturn ih =>
        obtain ⟨n, hn⟩ := ih
        refine ⟨n + 1, ?_⟩
        rw [Partial.iterate_succ, hn, Option.bind_some, next_eq_some.2 hturn]
  · rintro ⟨n, hn⟩
    induction n generalizing s' with
    | zero =>
        obtain rfl := Option.some.inj hn
        exact .refl
    | succ n ih =>
        rw [Partial.iterate_succ] at hn
        obtain ⟨s'', hs'', hnext⟩ := Option.bind_eq_some_iff.1 hn
        exact (ih hs'').next (next_eq_some.1 hnext)

/-- What returns at a state that a loop comes to is what the loop returns. -/
theorem returns_of_iterate {n : Nat} (hn : Partial.iterate (next turn) n s = some s') (hturn : turn s' = .inl b) :
    Returns turn s b :=
  (reaches_iff.2 ⟨n, hn⟩).returns_iff.2 (returns_of_inl hturn)

theorem exists_returns_iff : (∃ b, Returns turn s b) ↔ Partial.Ends (next turn) s := by
  constructor
  · rintro ⟨b, fuel, h⟩
    refine ⟨fuel, ?_⟩
    induction fuel generalizing s with
    | zero => cases h
    | succ fuel ih =>
        rw [Partial.iterate]
        cases hturn : turn s with
        | inl r => rw [next, hturn]; rfl
        | inr s' =>
            rw [run_succ_inr hturn] at h
            rw [next_eq_some.2 hturn]
            exact ih h
  · rintro ⟨n, hend⟩
    induction n generalizing s with
    | zero => cases hend
    | succ n ih =>
        cases hturn : turn s with
        | inl r => exact ⟨r, returns_of_inl hturn⟩
        | inr s' =>
            rw [Partial.iterate, next_eq_some.2 hturn] at hend
            obtain ⟨b, hb⟩ := ih hend
            exact ⟨b, (returns_iff_of_inr hturn).2 hb⟩

/-! ### Loops along a step -/

section Along

variable {step : σ → Option σ}

theorem iterate_next_eq {n : Nat} (h : ∀ k < n, ∀ t, Partial.iterate step k s = some t → next turn t = step t) :
    Partial.iterate (next turn) n s = Partial.iterate step n s := by
  induction n with
  | zero => rfl
  | succ n ih =>
      rw [Partial.iterate_succ, Partial.iterate_succ, ih fun k hk => h k (by omega)]
      cases ht : Partial.iterate step n s with
      | none => rfl
      | some t => exact h n (Nat.lt_succ_self n) t ht

/-- A loop follows a step from good states, and from others returns what is not wanted. It returns what is wanted if and
only if the steps end and come to good states that are left with what is wanted. -/
theorem exists_returns_and_iff {post : β → Prop} (good : σ → Prop) (hgood : ∀ t, good t → next turn t = step t)
    (hbad : ∀ t, ¬ good t → ∃ b, turn t = .inl b ∧ ¬ post b) :
    (∃ b, Returns turn s b ∧ post b) ↔
      Partial.Ends step s ∧
        ∀ k t, Partial.iterate step k s = some t → good t ∧ ∀ b, turn t = .inl b → post b := by
  constructor
  · rintro ⟨b, hreturns, hpost⟩
    have hleft : ∀ k t b', Partial.iterate (next turn) k s = some t → turn t = .inl b' → post b' := by
      intro k t b' ht hturn
      exact (returns_of_iterate ht hturn).unique hreturns ▸ hpost
    have hreached : ∀ k t, Partial.iterate step k s = some t → good t := by
      intro k
      induction k using Nat.strong_induction_on with
      | _ k ih =>
          intro t ht
          by_contra hnot
          obtain ⟨b', hturn, hunwanted⟩ := hbad t hnot
          rw [← iterate_next_eq fun j hj t' ht' => hgood t' (ih j hj t' ht')] at ht
          exact hunwanted (hleft k t b' ht hturn)
    have hsame : ∀ k, Partial.iterate (next turn) k s = Partial.iterate step k s := fun k =>
      iterate_next_eq fun j _ t ht => hgood t (hreached j t ht)
    refine ⟨?_, fun k t ht => ⟨hreached k t ht, fun b' => hleft k t b' ((hsame k).trans ht)⟩⟩
    obtain ⟨n, hn⟩ := exists_returns_iff.1 ⟨b, hreturns⟩
    exact ⟨n, (hsame n).symm.trans hn⟩
  · rintro ⟨⟨n, hn⟩, hreached⟩
    have hsame : ∀ k, Partial.iterate (next turn) k s = Partial.iterate step k s := fun k =>
      iterate_next_eq fun j _ t ht => hgood t (hreached j t ht).1
    obtain ⟨b, hreturns⟩ := exists_returns_iff.2 ⟨n, (hsame n).trans hn⟩
    obtain ⟨t, hreaches, hturn⟩ := hreturns.reaches
    obtain ⟨k, hk⟩ := reaches_iff.1 hreaches
    exact ⟨b, hreturns, (hreached k t ((hsame k).symm.trans hk)).2 b hturn⟩

/-- Where good states are left with what is wanted only, it is enough that the steps end and come to no other states. -/
theorem exists_returns_and_iff_of_good {post : β → Prop} (good : σ → Prop) (hgood : ∀ t, good t → next turn t = step t)
    (hpost : ∀ t b, good t → turn t = .inl b → post b) (hbad : ∀ t, ¬ good t → ∃ b, turn t = .inl b ∧ ¬ post b) :
    (∃ b, Returns turn s b ∧ post b) ↔
      Partial.Ends step s ∧ ∀ k t, Partial.iterate step k s = some t → good t := by
  rw [exists_returns_and_iff good hgood hbad]
  refine and_congr_right fun _ => forall₃_congr fun k t ht => ?_
  exact ⟨fun h => h.1, fun h => ⟨h, fun b => hpost t b h⟩⟩

end Along

end Immwrt.Loop
