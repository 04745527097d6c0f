import Mathlib.Data.List.Nodup
import Mathlib.Logic.Function.Basic
import Mathlib.Tactic.Common

/-!
# Doubly linked lists

Nodes carry a pointer to the next node and one to the previous node; either is null at an end. The
pointer operations by which a node enters a list at either end and leaves it, what they do to the list,
and what they leave alone. A family of such lists that share no node, each with its own head, is a hash
table of chains.
-/

namespace Immwrt.Doubly

variable {α : Type*}

structure Links (α : Type*) where
  next : α → Option α
  prev : α → Option α

/-- The nodes `xs` follow each other, between the nodes `before` and `after`. -/
def Segment (l : Links α) : Option α → List α → Option α → Prop
  | _, [], _ => True
  | before, a :: xs, after =>
      l.prev a = before ∧ l.next a = xs.head?.or after ∧ Segment l (some a) xs after

structure IsList (l : Links α) (xs : List α) : Prop where
  nodup : xs.Nodup
  segment : Segment l none xs none

theorem segment_append {l : Links α} {before after : Option α} {xs ys : List α} :
    Segment l before (xs ++ ys) after ↔
      Segment l before xs (ys.head?.or after) ∧ Segment l (xs.getLast?.or before) ys after := by
  induction xs generalizing before with
  | nil => simp [Segment]
  | cons a xs ih =>
    have hlast : (a :: xs).getLast?.or before = xs.getLast?.or (some a) := by
      cases xs with
      | nil => rfl
      | cons b xs => simp [List.getLast?_cons]
    have hhead : ((xs ++ ys).head?.or after) = xs.head?.or (ys.head?.or after) := by
      cases xs <;> simp
    simp only [List.cons_append, Segment, ih, hlast, hhead, and_assoc]

theorem Segment.congr {l l' : Links α} {before after : Option α} {xs : List α}
    (h : Segment l before xs after) (hnext : ∀ a ∈ xs, l'.next a = l.next a)
    (hprev : ∀ a ∈ xs, l'.prev a = l.prev a) : Segment l' before xs after := by
  induction xs generalizing before with
  | nil => trivial
  | cons a xs ih =>
    refine ⟨?_, ?_, ih h.2.2 (fun b hb => hnext b (List.mem_cons_of_mem _ hb))
      fun b hb => hprev b (List.mem_cons_of_mem _ hb)⟩
    · rw [hprev a List.mem_cons_self]
      exact h.1
    · rw [hnext a List.mem_cons_self]
      exact h.2.1

section Operations

variable [DecidableEq α]

def Links.setNext (l : Links α) (a : α) (v : Option α) : Links α :=
  { l with next := Function.update l.next a v }

def Links.setPrev (l : Links α) (a : α) (v : Option α) : Links α :=
  { l with prev := Function.update l.prev a v }

@[simp] theorem setNext_next_self (l : Links α) (a : α) (v : Option α) : (l.setNext a v).next a = v := by
  simp [Links.setNext]

@[simp] theorem setPrev_prev_self (l : Links α) (a : α) (v : Option α) : (l.setPrev a v).prev a = v := by
  simp [Links.setPrev]

theorem setNext_next_of_ne (l : Links α) {a b : α} (v : Option α) (h : b ≠ a) :
    (l.setNext a v).next b = l.next b := by
  simp [Links.setNext, h]

theorem setPrev_prev_of_ne (l : Links α) {a b : α} (v : Option α) (h : b ≠ a) :
    (l.setPrev a v).prev b = l.prev b := by
  simp [Links.setPrev, h]

@[simp] theorem setNext_prev (l : Links α) (a b : α) (v : Option α) : (l.setNext a v).prev b = l.prev b := rfl

@[simp] theorem setPrev_next (l : Links α) (a b : α) (v : Option α) : (l.setPrev a v).next b = l.next b := rfl

/-- `if (p) p->next = v` -/
def Links.setNextOf (l : Links α) (p v : Option α) : Links α := p.elim l fun a => l.setNext a v

/-- `if (p) p->prev = v` -/
def Links.setPrevOf (l : Links α) (p v : Option α) : Links α := p.elim l fun a => l.setPrev a v

/-- The neighbours of a node are joined; the node itself keeps its pointers. -/
def Links.unlink (l : Links α) (a : α) : Links α :=
  (l.setNextOf (l.prev a) (l.next a)).setPrevOf (l.next a) (l.prev a)

/-- The head of a list after `a` has left it. -/
def Links.headWithout (l : Links α) (head : Option α) (a : α) : Option α :=
  if l.prev a = none then l.next a else head

/-- The tail of a list after `a` has left it. -/
def Links.tailWithout (l : Links α) (tail : Option α) (a : α) : Option α :=
  if l.next a = none then l.prev a else tail

def Links.pushFront (l : Links α) (head : Option α) (a : α) : Links α :=
  ((l.setPrev a none).setPrevOf head (some a)).setNext a head

/-- The pointer `next` of `a` is taken to be null already. -/
def Links.pushBack (l : Links α) (tail : Option α) (a : α) : Links α :=
  (l.setPrev a tail).setNextOf tail (some a)

/-- Nodes other than those in `xs` have the same pointers in both. -/
def SameOff (xs : List α) (l l' : Links α) : Prop :=
  ∀ a, a ∉ xs → l'.next a = l.next a ∧ l'.prev a = l.prev a

omit [DecidableEq α] in
theorem SameOff.isList {xs ys : List α} {l l' : Links α} (h : SameOff xs l l') (hys : IsList l ys)
    (hdisjoint : ∀ a ∈ ys, a ∉ xs) : IsList l' ys :=
  ⟨hys.nodup, hys.segment.congr (fun a ha => (h a (hdisjoint a ha)).1)
    fun a ha => (h a (hdisjoint a ha)).2⟩

/-- The segment ends at another node. -/
theorem Segment.setNextOf {l : Links α} {before after after' : Option α} {xs : List α}
    (h : Segment l before xs after) (hnodup : xs.Nodup) :
    Segment (l.setNextOf xs.getLast? after') before xs after' := by
  rcases List.eq_nil_or_concat' xs with rfl | ⟨xs, a, rfl⟩
  · trivial
  · have ha : a ∉ xs := fun hmem =>
      (List.nodup_append.mp hnodup).2.2 a hmem a (List.mem_singleton_self a) rfl
    rw [segment_append] at h ⊢
    have hlast : (xs ++ [a]).getLast? = some a := by simp
    have hset : l.setNextOf (some a) after' = l.setNext a after' := rfl
    rw [hlast, hset]
    refine ⟨h.1.congr (fun b hb => setNext_next_of_ne l _ fun hba => ha (hba ▸ hb)) fun b _ => rfl, ?_⟩
    exact ⟨h.2.1, by simp, trivial⟩

/-- The segment starts behind another node. -/
theorem Segment.setPrevOf {l : Links α} {before before' after : Option α} {xs : List α}
    (h : Segment l before xs after) (hnodup : xs.Nodup) :
    Segment (l.setPrevOf xs.head? before') before' xs after := by
  cases xs with
  | nil => trivial
  | cons a xs =>
    have ha : a ∉ xs := (List.nodup_cons.mp hnodup).1
    have hset : l.setPrevOf (some a) before' = l.setPrev a before' := rfl
    rw [List.head?_cons, hset]
    refine ⟨by simp, h.2.1, h.2.2.congr (fun b _ => rfl) fun b hb => ?_⟩
    exact setPrev_prev_of_ne l _ fun hba => ha (hba ▸ hb)

theorem setNextOf_next_of_ne (l : Links α) {p : Option α} {b : α} (v : Option α) (h : p ≠ some b) :
    (l.setNextOf p v).next b = l.next b := by
  cases p with
  | none => rfl
  | some a => exact setNext_next_of_ne l v fun hba => h (congrArg some hba.symm)

theorem setPrevOf_prev_of_ne (l : Links α) {p : Option α} {b : α} (v : Option α) (h : p ≠ some b) :
    (l.setPrevOf p v).prev b = l.prev b := by
  cases p with
  | none => rfl
  | some a => exact setPrev_prev_of_ne l v fun hba => h (congrArg some hba.symm)

@[simp] theorem setNextOf_prev (l : Links α) (p v : Option α) : (l.setNextOf p v).prev = l.prev := by
  cases p <;> rfl

@[simp] theorem setPrevOf_next (l : Links α) (p v : Option α) : (l.setPrevOf p v).next = l.next := by
  cases p <;> rfl

omit [DecidableEq α] in
/-- The pointers of a node of a list are its neighbours there. -/
theorem IsList.pointers {l : Links α} {pre post : List α} {a : α} (h : IsList l (pre ++ a :: post)) :
    l.prev a = pre.getLast? ∧ l.next a = post.head? := by
  have hsegment := (segment_append.mp h.segment).2
  simpa [Segment] using And.intro hsegment.1 hsegment.2.1

omit [DecidableEq α] in
theorem getLast?_ne {pre : List α} {a : α} (h : a ∉ pre) : pre.getLast? ≠ some a :=
  fun hlast => h (List.mem_of_getLast? hlast)

omit [DecidableEq α] in
theorem head?_ne {post : List α} {a : α} (h : a ∉ post) : post.head? ≠ some a :=
  fun hhead => h (List.mem_of_head? hhead)

theorem IsList.unlink {l : Links α} {pre post : List α} {a : α} (h : IsList l (pre ++ a :: post)) :
    IsList (l.unlink a) (pre ++ post) := by
  obtain ⟨hprev, hnext⟩ := h.pointers
  obtain ⟨hpre, hpost, hdisjoint⟩ := List.nodup_append.mp h.nodup
  obtain ⟨hapost, hpost⟩ := List.nodup_cons.mp hpost
  have hsegment := segment_append.mp h.segment
  have hnodup : (pre ++ post).Nodup := List.nodup_append.mpr
    ⟨hpre, hpost, fun b hb c hc => hdisjoint b hb c (List.mem_cons_of_mem _ hc)⟩
  refine ⟨hnodup, segment_append.mpr ⟨?_, ?_⟩⟩
  · rw [Links.unlink, hprev, hnext, Option.or_none]
    refine (hsegment.1.setNextOf hpre).congr (fun b _ => by simp) fun b hb => ?_
    rw [setPrevOf_prev_of_ne]
    exact head?_ne fun hmem => hdisjoint b hb b (List.mem_cons_of_mem _ hmem) rfl
  · rw [Links.unlink, hprev, hnext, Option.or_none]
    have hpost' : Segment (l.setNextOf pre.getLast? post.head?) (some a) post none := by
      refine hsegment.2.2.2.congr (fun b hb => ?_) fun b _ => by simp
      rw [setNextOf_next_of_ne]
      exact getLast?_ne fun hmem => hdisjoint b hmem b (List.mem_cons_of_mem _ hb) rfl
    exact hpost'.setPrevOf hpost

theorem unlink_sameOff {l : Links α} {pre post : List α} {a : α} (h : IsList l (pre ++ a :: post)) :
    SameOff (pre ++ post) l (l.unlink a) := by
  obtain ⟨hprev, hnext⟩ := h.pointers
  intro b hb
  rw [List.mem_append, not_or] at hb
  rw [Links.unlink, hprev, hnext, setPrevOf_next, setNextOf_next_of_ne l _ (getLast?_ne hb.1),
    setPrevOf_prev_of_ne _ _ (head?_ne hb.2), setNextOf_prev]
  exact ⟨rfl, rfl⟩

omit [DecidableEq α] in
theorem IsList.headWithout {l : Links α} {pre post : List α} {a : α}
    (h : IsList l (pre ++ a :: post)) :
    l.headWithout (pre ++ a :: post).head? a = (pre ++ post).head? := by
  obtain ⟨hprev, hnext⟩ := h.pointers
  rw [Links.headWithout, hprev, hnext]
  cases pre with
  | nil => simp
  | cons b pre => simp

omit [DecidableEq α] in
theorem IsList.tailWithout {l : Links α} {pre post : List α} {a : α} (h : IsList l (pre ++ a :: post)) :
    l.tailWithout (pre ++ a :: post).getLast? a = (pre ++ post).getLast? := by
  obtain ⟨hprev, hnext⟩ := h.pointers
  rw [Links.tailWithout, hprev, hnext]
  cases post with
  | nil => simp
  | cons b post => simp [List.getLast?_append, List.getLast?_cons_cons]

theorem IsList.pushFront {l : Links α} {xs : List α} (h : IsList l xs) {a : α} (ha : a ∉ xs) :
    IsList (l.pushFront xs.head? a) (a :: xs) := by
  refine ⟨List.nodup_cons.mpr ⟨ha, h.nodup⟩, ?_, ?_, ?_⟩
  · rw [Links.pushFront, setNext_prev, setPrevOf_prev_of_ne _ _ (head?_ne ha), setPrev_prev_self]
  · simp [Links.pushFront]
  · have hbase : Segment (l.setPrev a none) none xs none :=
      h.segment.congr (fun b _ => rfl) fun b hb => setPrev_prev_of_ne l _ fun hba => ha (hba ▸ hb)
    refine (hbase.setPrevOf h.nodup).congr (fun b hb => ?_) fun b _ => rfl
    exact setNext_next_of_ne _ _ fun hba => ha (hba ▸ hb)

theorem pushFront_sameOff (l : Links α) (xs : List α) (a : α) :
    SameOff (a :: xs) l (l.pushFront xs.head? a) := by
  intro b hb
  rw [List.mem_cons, not_or] at hb
  rw [Links.pushFront, setNext_next_of_ne _ _ hb.1, setPrevOf_next, setNext_prev,
    setPrevOf_prev_of_ne _ _ (head?_ne hb.2), setPrev_prev_of_ne _ _ hb.1]
  exact ⟨rfl, rfl⟩

theorem IsList.pushBack {l : Links α} {xs : List α} (h : IsList l xs) {a : α} (ha : a ∉ xs)
    (hnull : l.next a = none) : IsList (l.pushBack xs.getLast? a) (xs ++ [a]) := by
  refine ⟨List.nodup_append.mpr ⟨h.nodup, List.nodup_singleton a, ?_⟩, segment_append.mpr ⟨?_, ?_, ?_, ?_⟩⟩
  · intro b hb c hc hbc
    rw [List.mem_singleton.mp hc] at hbc
    exact ha (hbc ▸ hb)
  · have hbase : Segment (l.setPrev a xs.getLast?) none xs none :=
      h.segment.congr (fun b _ => rfl) fun b hb => setPrev_prev_of_ne l _ fun hba => ha (hba ▸ hb)
    exact hbase.setNextOf h.nodup
  · simp [Links.pushBack]
  · rw [Links.pushBack, setNextOf_next_of_ne _ _ (getLast?_ne ha)]
    simpa using hnull
  · trivial

theorem pushBack_sameOff (l : Links α) (xs : List α) (a : α) :
    SameOff (xs ++ [a]) l (l.pushBack xs.getLast? a) := by
  intro b hb
  rw [List.mem_append, List.mem_singleton, not_or] at hb
  rw [Links.pushBack, setNextOf_next_of_ne _ _ (getLast?_ne hb.1), setNextOf_prev, setPrev_next,
    setPrev_prev_of_ne _ _ hb.2]
  exact ⟨rfl, rfl⟩

end Operations

/-! ### Walking -/

/-- The first node from `start` on that satisfies `p`, within `fuel` steps. -/
def Links.find (l : Links α) (p : α → Bool) : Nat → Option α → Option α
  | 0, _ => none
  | _ + 1, none => none
  | fuel + 1, some a => if p a then some a else l.find p fuel (l.next a)

theorem Segment.find {l : Links α} {before : Option α} {xs : List α} (h : Segment l before xs none)
    (p : α → Bool) {fuel : Nat} (hfuel : xs.length < fuel) : l.find p fuel xs.head? = xs.find? p := by
  induction xs generalizing before fuel with
  | nil =>
    cases fuel with
    | zero => omega
    | succ fuel => rfl
  | cons a xs ih =>
    cases fuel with
    | zero => omega
    | succ fuel =>
      have hnext : l.next a = xs.head? := by simpa using h.2.1
      simp only [List.length_cons] at hfuel
      rw [List.head?_cons, Links.find, List.find?_cons, hnext, ih h.2.2 (by omega)]
      cases p a <;> rfl

/-! ### Chains of a hash table -/

structure Chains {I : Type*} (l : Links α) (heads : I → Option α) (xs : I → List α) : Prop where
  isList : ∀ i, IsList l (xs i)
  head : ∀ i, heads i = (xs i).head?
  disjoint : ∀ i j a, a ∈ xs i → a ∈ xs j → i = j

section Chains

variable {I : Type*} [DecidableEq I] {l : Links α} {heads : I → Option α}
  {xs : I → List α}

/-- A change of the nodes of one chain, and of one chain's head. -/
theorem Chains.replace (h : Chains l heads xs) {l' : Links α} {i : I} {ys zs : List α}
    (hsame : SameOff zs l l') (hys : IsList l' ys) (hzs : ∀ a ∈ zs, a ∈ ys ∨ a ∈ xs i)
    (hnew : ∀ a ∈ ys, ∀ j, a ∈ xs j → j = i) :
    Chains l' (Function.update heads i ys.head?) (Function.update xs i ys) := by
  refine ⟨fun j => ?_, fun j => ?_, fun j k a hj hk => ?_⟩
  · by_cases hji : j = i
    · subst hji
      rwa [Function.update_self]
    · rw [Function.update_of_ne hji]
      refine hsame.isList (h.isList j) fun a ha hmem => ?_
      rcases hzs a hmem with hmem | hmem
      · exact hji (hnew a hmem j ha)
      · exact hji (h.disjoint j i a ha hmem)
  · by_cases hji : j = i
    · subst hji
      rw [Function.update_self, Function.update_self]
    · rw [Function.update_of_ne hji, Function.update_of_ne hji, h.head j]
  · by_cases hji : j = i
    · subst hji
      by_cases hki : k = j
      · exact hki.symm
      · rw [Function.update_self] at hj
        rw [Function.update_of_ne hki] at hk
        exact (hnew a hj k hk).symm
    · rw [Function.update_of_ne hji] at hj
      by_cases hki : k = i
      · subst hki
        rw [Function.update_self] at hk
        exact hnew a hk j hj
      · rw [Function.update_of_ne hki] at hk
        exact h.disjoint j k a hj hk

variable [DecidableEq α]

theorem Chains.unlink (h : Chains l heads xs) {i : I} {pre post : List α} {a : α}
    (hi : xs i = pre ++ a :: post) :
    Chains (l.unlink a) (Function.update heads i (l.headWithout (heads i) a))
      (Function.update xs i (pre ++ post)) := by
  have hlist := h.isList i
  rw [hi] at hlist
  rw [h.head i, hi, hlist.headWithout]
  refine h.replace (unlink_sameOff hlist) hlist.unlink (fun b hb => Or.inl hb) fun b hb j hj => ?_
  refine h.disjoint j i b hj ?_
  rw [hi, List.mem_append, List.mem_cons]
  exact (List.mem_append.mp hb).imp_right Or.inr

theorem Chains.pushFront (h : Chains l heads xs) (i : I) {a : α} (ha : ∀ j, a ∉ xs j) :
    Chains (l.pushFront (heads i) a) (Function.update heads i (some a))
      (Function.update xs i (a :: xs i)) := by
  rw [h.head i]
  refine h.replace (i := i) (pushFront_sameOff l (xs i) a) ((h.isList i).pushFront (ha i))
    (fun b hb => Or.inl hb) fun b hb j hj => ?_
  rcases List.mem_cons.mp hb with rfl | hb
  · exact absurd hj (ha j)
  · exact h.disjoint j i b hj hb

/-- A node is moved to the front of its chain. -/
theorem Chains.moveToFront (h : Chains l heads xs) {i : I} {head a : α} {pre post : List α}
    (hi : xs i = head :: pre ++ a :: post) :
    Chains ((l.unlink a).pushFront (some head) a) (Function.update heads i (some a))
      (Function.update xs i (a :: (head :: pre ++ post))) := by
  have hlist := h.isList i
  rw [hi] at hlist
  have ha : a ∉ head :: pre ++ post := by
    have hnodup := List.nodup_middle.mp hlist.nodup
    exact (List.nodup_cons.mp hnodup).1
  have hpush := hlist.unlink.pushFront ha
  have hsame : SameOff (a :: (head :: pre ++ post)) l ((l.unlink a).pushFront (some head) a) := by
    intro b hb
    have hunlink := unlink_sameOff hlist b fun hmem => hb (List.mem_cons_of_mem _ hmem)
    have hfront := pushFront_sameOff (l.unlink a) (head :: pre ++ post) a b hb
    exact ⟨hfront.1.trans hunlink.1, hfront.2.trans hunlink.2⟩
  refine h.replace (i := i) hsame hpush (fun b hb => Or.inl hb) fun b hb j hj => h.disjoint j i b hj ?_
  rw [hi]
  rcases List.mem_cons.mp hb with rfl | hb
  · exact List.mem_append_right _ List.mem_cons_self
  · rcases List.mem_append.mp hb with hb | hb
    · exact List.mem_append_left _ hb
    · exact List.mem_append_right _ (List.mem_cons_of_mem _ hb)

end Chains

end Immwrt.Doubly
