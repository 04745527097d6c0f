import Mathlib.Data.List.Nodup
import Mathlib.Logic.Function.Basic

/-!
# Linked lists in a store of pointer cells

A cell holds a pointer to a node or the null pointer; it is either a list head or the link field of a
node.  The chain that starts at a cell, the walk along it, and what unlinking a node and pushing a node
do to a family of lists that share no node.
-/

namespace Immwrt.Linked

variable {R α : Type*}

inductive Cell (R α : Type*) where
  | root (r : R)
  | next (a : α)
  deriving DecidableEq

abbrev Store (R α : Type*) := Cell R α → Option α

def Chain (link : Store R α) : Cell R α → List α → Prop
  | c, [] => link c = none
  | c, a :: xs => link c = some a ∧ Chain link (.next a) xs

/-- The cell a walk that has passed `xs` stands at. -/
def endCell : Cell R α → List α → Cell R α
  | c, [] => c
  | _, a :: xs => endCell (.next a) xs

/-- The pointer-to-pointer walk: stop at the first node with `p`, or at the null pointer. -/
def walk (link : Store R α) (p : α → Bool) : Nat → Cell R α → Cell R α × Option α
  | 0, c => (c, none)
  | fuel + 1, c =>
    match link c with
    | none => (c, none)
    | some a => if p a then (c, some a) else walk link p fuel (.next a)

/-- The nodes of the list at a cell, in order. -/
def nodes (link : Store R α) : Nat → Cell R α → List α
  | 0, _ => []
  | fuel + 1, c =>
    match link c with
    | none => []
    | some a => a :: nodes link fuel (.next a)

theorem Chain.unique {link : Store R α} {c : Cell R α} {xs ys : List α}
    (hxs : Chain link c xs) (hys : Chain link c ys) : xs = ys := by
  induction xs generalizing c ys with
  | nil =>
    cases ys with
    | nil => rfl
    | cons b ys => simp_all [Chain]
  | cons a xs ih =>
    cases ys with
    | nil => simp_all [Chain]
    | cons b ys =>
      have hab : a = b := Option.some.inj (hxs.1.symm.trans hys.1)
      subst hab
      rw [ih hxs.2 hys.2]

theorem nodes_eq {link : Store R α} {c : Cell R α} {xs : List α} {fuel : Nat}
    (hxs : Chain link c xs) (hfuel : xs.length < fuel) : nodes link fuel c = xs := by
  induction xs generalizing c fuel with
  | nil =>
    cases fuel with
    | zero => omega
    | succ fuel => simp only [nodes, show link c = none from hxs]
  | cons a xs ih =>
    cases fuel with
    | zero => omega
    | succ fuel =>
      simp only [List.length_cons] at hfuel
      simp only [nodes, hxs.1, ih hxs.2 (Nat.lt_of_succ_lt_succ hfuel)]

theorem walk_hit {link : Store R α} {c : Cell R α} {pre post : List α} {a : α} {p : α → Bool}
    {fuel : Nat} (hxs : Chain link c (pre ++ a :: post)) (hpre : ∀ b ∈ pre, p b = false)
    (ha : p a = true) (hfuel : pre.length < fuel) :
    walk link p fuel c = (endCell c pre, some a) := by
  induction pre generalizing c fuel with
  | nil =>
    cases fuel with
    | zero => omega
    | succ fuel =>
      have hlink : link c = some a := hxs.1
      simp only [walk, hlink, ha, if_true, endCell]
  | cons b pre ih =>
    cases fuel with
    | zero => omega
    | succ fuel =>
      have hlink : link c = some b := hxs.1
      have hb : p b = false := hpre b List.mem_cons_self
      have hrest : ∀ x ∈ pre, p x = false := fun x hx => hpre x (List.mem_cons_of_mem _ hx)
      simp only [List.length_cons] at hfuel
      simp only [walk, hlink, hb, Bool.false_eq_true, if_false, endCell]
      exact ih hxs.2 hrest (by omega)

theorem walk_miss {link : Store R α} {c : Cell R α} {xs : List α} {p : α → Bool} {fuel : Nat}
    (hxs : Chain link c xs) (hmiss : ∀ b ∈ xs, p b = false) (hfuel : xs.length < fuel) :
    (walk link p fuel c).2 = none := by
  induction xs generalizing c fuel with
  | nil =>
    cases fuel with
    | zero => omega
    | succ fuel => simp only [walk, show link c = none from hxs]
  | cons a xs ih =>
    cases fuel with
    | zero => omega
    | succ fuel =>
      have ha : p a = false := hmiss a List.mem_cons_self
      have hrest : ∀ x ∈ xs, p x = false := fun x hx => hmiss x (List.mem_cons_of_mem _ hx)
      simp only [List.length_cons] at hfuel
      simp only [walk, hxs.1, ha, Bool.false_eq_true, if_false]
      exact ih hxs.2 hrest (by omega)

theorem endCell_cases (c : Cell R α) (pre : List α) :
    endCell c pre = c ∨ ∃ a ∈ pre, endCell c pre = .next a := by
  induction pre generalizing c with
  | nil => exact .inl rfl
  | cons a pre ih =>
    refine .inr ?_
    rcases ih (.next a) with heq | ⟨b, hb, heq⟩
    · exact ⟨a, List.mem_cons_self, heq⟩
    · exact ⟨b, List.mem_cons_of_mem _ hb, heq⟩

/-! ### Writes to a cell -/

section Writes

variable [DecidableEq R] [DecidableEq α]

theorem Chain.frame {link : Store R α} {c d : Cell R α} {xs : List α} {v : Option α}
    (hxs : Chain link c xs) (hc : d ≠ c) (hd : ∀ a ∈ xs, d ≠ .next a) :
    Chain (Function.update link d v) c xs := by
  induction xs generalizing c with
  | nil => simpa [Chain, Function.update_of_ne (Ne.symm hc)] using hxs
  | cons a xs ih =>
    refine ⟨?_, ih hxs.2 (hd a List.mem_cons_self) fun b hb => hd b (List.mem_cons_of_mem _ hb)⟩
    rw [Function.update_of_ne (Ne.symm hc)]
    exact hxs.1

theorem Chain.redirect {link : Store R α} {c : Cell R α} {post : List α} {a : α} {v : Option α}
    (hpost : Chain link (.next a) post) (hv : v = link (.next a)) (hc : ∀ b ∈ post, c ≠ .next b) :
    Chain (Function.update link c v) c post := by
  subst hv
  cases post with
  | nil => simpa [Chain] using hpost
  | cons b post =>
    refine ⟨by simpa using hpost.1, hpost.2.frame (hc b List.mem_cons_self) fun x hx => ?_⟩
    exact hc x (List.mem_cons_of_mem _ hx)

theorem Chain.unlink {link : Store R α} {c : Cell R α} {pre post : List α} {a : α}
    (hxs : Chain link c (pre ++ a :: post)) (hnodup : (pre ++ a :: post).Nodup)
    (hc : ∀ b ∈ pre ++ a :: post, c ≠ .next b) :
    Chain (Function.update link (endCell c pre) (link (.next a))) c (pre ++ post) := by
  induction pre generalizing c with
  | nil =>
    exact Chain.redirect hxs.2 rfl fun b hb => hc b (List.mem_cons_of_mem _ hb)
  | cons b pre ih =>
    have hb : b ∉ pre ++ a :: post := (List.nodup_cons.1 hnodup).1
    have hrest : (pre ++ a :: post).Nodup := (List.nodup_cons.1 hnodup).2
    have hne : endCell (.next b) pre ≠ c := by
      rcases endCell_cases (.next b) pre with heq | ⟨x, hx, heq⟩
      · rw [heq]
        exact (hc b (by simp)).symm
      · rw [heq]
        exact (hc x (by simp [hx])).symm
    refine ⟨?_, ih hxs.2 hrest fun x hx heq => ?_⟩
    · show Function.update link (endCell (.next b) pre) _ c = some b
      rw [Function.update_of_ne (Ne.symm hne)]
      exact hxs.1
    · cases heq
      exact hb hx

/-! ### A family of disjoint lists -/

structure Lists (link : Store R α) (xs : R → List α) : Prop where
  chain : ∀ r, Chain link (.root r) (xs r)
  nodup : ∀ r, (xs r).Nodup
  disjoint : ∀ r s, r ≠ s → List.Disjoint (xs r) (xs s)

theorem Lists.unlink {link : Store R α} {xs : R → List α} (h : Lists link xs) {r : R}
    {pre post : List α} {a : α} (hr : xs r = pre ++ a :: post) :
    Lists (Function.update link (endCell (.root r) pre) (link (.next a)))
      (Function.update xs r (pre ++ post)) := by
  have hsub : pre ++ post ⊆ xs r := by
    intro x hx
    rw [hr]
    rcases List.mem_append.1 hx with hx | hx
    · exact List.mem_append_left _ hx
    · exact List.mem_append_right _ (List.mem_cons_of_mem _ hx)
  have hmem : ∀ s, Function.update xs r (pre ++ post) s ⊆ xs s := by
    intro s
    by_cases hs : s = r
    · subst hs
      simpa using hsub
    · rw [Function.update_of_ne hs]
      exact fun _ hx => hx
  refine ⟨fun s => ?_, fun s => ?_, fun s t hst => ?_⟩
  · by_cases hs : s = r
    · subst hs
      rw [Function.update_self]
      exact Chain.unlink (hr ▸ h.chain s) (hr ▸ h.nodup s) fun b _ => by simp
    · rw [Function.update_of_ne hs]
      rcases endCell_cases (Cell.root r : Cell R α) pre with heq | ⟨x, hx, heq⟩
      · rw [heq]
        exact (h.chain s).frame (by simpa using Ne.symm hs) fun b _ => by simp
      · rw [heq]
        refine (h.chain s).frame (by simp) fun b hb hxb => ?_
        have hxb : x = b := Cell.next.inj hxb
        refine h.disjoint r s (Ne.symm hs) (a := b) ?_ hb
        rw [hr, ← hxb]
        exact List.mem_append_left _ hx
  · by_cases hs : s = r
    · subst hs
      have hnodup := h.nodup s
      rw [hr] at hnodup
      rw [Function.update_self]
      exact hnodup.sublist ((List.sublist_cons_self a post).append_left pre)
    · rw [Function.update_of_ne hs]
      exact h.nodup s
  · exact fun x hx hy => h.disjoint s t hst (hmem s hx) (hmem t hy)

theorem Lists.push {link : Store R α} {xs : R → List α} (h : Lists link xs) {r : R} {a : α}
    (ha : ∀ s, a ∉ xs s) :
    Lists (Function.update (Function.update link (.next a) (link (.root r))) (.root r) (some a))
      (Function.update xs r (a :: xs r)) := by
  refine ⟨fun s => ?_, fun s => ?_, fun s t hst => ?_⟩
  · have hframe : ∀ s, Chain (Function.update link (.next a) (link (.root r))) (.root s) (xs s) :=
      fun s => (h.chain s).frame (by simp) fun b hb hab => ha s (Cell.next.inj hab ▸ hb)
    by_cases hs : s = r
    · subst hs
      rw [Function.update_self]
      refine ⟨by simp, Chain.frame ?_ (by simp) fun b _ => by simp⟩
      have hchain := h.chain s
      cases hxs : xs s with
      | nil =>
        rw [hxs] at hchain
        simpa [Chain] using hchain
      | cons b ys =>
        rw [hxs] at hchain
        refine ⟨by simpa using hchain.1, hchain.2.frame ?_ fun x hx hax => ha s ?_⟩
        · exact fun hab => ha s (by rw [hxs, Cell.next.inj hab]; exact List.mem_cons_self)
        · rw [hxs, Cell.next.inj hax]
          exact List.mem_cons_of_mem _ hx
    · rw [Function.update_of_ne hs]
      exact (hframe s).frame (by simpa using Ne.symm hs) fun b _ => by simp
  · by_cases hs : s = r
    · subst hs
      rw [Function.update_self]
      exact List.nodup_cons.2 ⟨ha s, h.nodup s⟩
    · rw [Function.update_of_ne hs]
      exact h.nodup s
  · have hmem : ∀ s x, x ∈ Function.update xs r (a :: xs r) s → (x = a ∧ s = r) ∨ x ∈ xs s := by
      intro s x hx
      by_cases hs : s = r
      · subst hs
        rw [Function.update_self, List.mem_cons] at hx
        exact hx.imp (fun h => ⟨h, rfl⟩) id
      · rw [Function.update_of_ne hs] at hx
        exact .inr hx
    intro x hx hy
    rcases hmem s x hx with ⟨hxa, hs⟩ | hx
    · rcases hmem t x hy with ⟨_, ht⟩ | hy
      · exact hst (hs.trans ht.symm)
      · exact ha t (hxa ▸ hy)
    · rcases hmem t x hy with ⟨hxa, _⟩ | hy
      · exact ha s (hxa ▸ hx)
      · exact h.disjoint s t hst hx hy

end Writes

end Immwrt.Linked
