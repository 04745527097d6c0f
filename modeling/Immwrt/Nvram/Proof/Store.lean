import Immwrt.Nvram.Store
import Mathlib.Tactic

/-!
# The variable table is a finite map

A table represents one list of tuples for each bucket and one for the dead list. Every operation leads
from a represented table to a represented table and acts on the bindings as it would on a map.
-/

namespace Immwrt.Nvram

open Linked

variable {tgt : Target}

namespace Handle

/-! ### Writes through a place -/

theorem deref_assign (h : Handle) (c : Place) (v : Option Ptr) :
    (h.assign c v).deref = Function.update h.deref c v := by
  funext d
  by_cases hd : d = c
  · subst hd
    rw [Function.update_self]
    rcases d with (i | _) | t <;> simp [assign, deref]
  · rw [Function.update_of_ne hd]
    rcases c with (i | _) | t <;> rcases d with (j | _) | u <;>
      simp_all [assign, deref, Function.update_of_ne]

@[simp]
theorem assign_brk (h : Handle) (c : Place) (v : Option Ptr) : (h.assign c v).brk = h.brk := by
  rcases c with (i | _) | t <;> rfl

@[simp]
theorem assign_length (h : Handle) (c : Place) (v : Option Ptr) :
    (h.assign c v).length = h.length := by
  rcases c with (i | _) | t <;> rfl

@[simp]
theorem assign_offset (h : Handle) (c : Place) (v : Option Ptr) :
    (h.assign c v).offset = h.offset := by
  rcases c with (i | _) | t <;> rfl

@[simp]
theorem assign_mmap (h : Handle) (c : Place) (v : Option Ptr) : (h.assign c v).mmap = h.mmap := by
  rcases c with (i | _) | t <;> rfl

@[simp]
theorem assign_name (h : Handle) (c : Place) (v : Option Ptr) (t : Ptr) :
    ((h.assign c v).heap t).name = (h.heap t).name := by
  rcases c with (i | _) | u
  · rfl
  · rfl
  · by_cases ht : t = u
    · subst ht
      simp [assign]
    · simp [assign, Function.update_of_ne ht]

@[simp]
theorem assign_value (h : Handle) (c : Place) (v : Option Ptr) (t : Ptr) :
    ((h.assign c v).heap t).value = (h.heap t).value := by
  rcases c with (i | _) | u
  · rfl
  · rfl
  · by_cases ht : t = u
    · subst ht
      simp [assign]
    · simp [assign, Function.update_of_ne ht]

theorem deref_bury (h : Handle) (prev : Place) (t : Ptr) :
    (h.bury prev t).deref =
      let link := Function.update h.deref prev (h.deref (.next t))
      Function.update (Function.update link (.next t) (link (.root .dead))) (.root .dead)
        (some t) := by
  have hdead : ∀ h : Handle, h.nvramDead = h.deref (.root .dead) := fun _ => rfl
  have hnext : (h.heap t).next = h.deref (.next t) := rfl
  simp only [bury, deref_assign, hdead, hnext]

/-! ### Represented tables -/

structure Represents (tgt : Target) (h : Handle) (xs : Root → List Ptr) : Prop where
  lists : Lists h.deref xs
  allocated : ∀ r, ∀ t ∈ xs r, t < h.brk
  home : ∀ i, ∀ t ∈ xs (.hash i), bucket tgt (h.heap t).name = i
  names : ∀ i, ((xs (.hash i)).map fun t => (h.heap t).name).Nodup

def WellFormed (tgt : Target) (h : Handle) : Prop := ∃ xs, Represents tgt h xs

/-- A tuple is on the list of a root. -/
def OnList (h : Handle) (r : Root) (t : Ptr) : Prop :=
  ∃ xs, Chain h.deref (.root r) xs ∧ t ∈ xs

/-- Some tuple of the bucket of `name` carries it with `value`. -/
def Binds (tgt : Target) (h : Handle) (xs : Root → List Ptr) (name value : CString) : Prop :=
  ∃ t ∈ xs (.hash (bucket tgt name)), (h.heap t).name = name ∧ (h.heap t).value = value

namespace Represents

variable {h : Handle} {xs : Root → List Ptr}

theorem onList_iff (hrep : Represents tgt h xs) (r : Root) (t : Ptr) :
    h.OnList r t ↔ t ∈ xs r := by
  constructor
  · rintro ⟨ys, hys, ht⟩
    rwa [hys.unique (hrep.lists.chain r)] at ht
  · exact fun ht => ⟨xs r, hrep.lists.chain r, ht⟩

theorem length_le (hrep : Represents tgt h xs) (r : Root) : (xs r).length ≤ h.brk := by
  have hsub : xs r ⊆ List.range h.brk := fun t ht => List.mem_range.2 (hrep.allocated r t ht)
  calc (xs r).length ≤ (List.range h.brk).length :=
        ((hrep.lists.nodup r).subperm hsub).length_le
    _ = h.brk := List.length_range

theorem name_injective (hrep : Represents tgt h xs) {i : Fin nvramArraysize} {t u : Ptr}
    (ht : t ∈ xs (.hash i)) (hu : u ∈ xs (.hash i)) (hname : (h.heap t).name = (h.heap u).name) :
    t = u :=
  List.inj_on_of_nodup_map (hrep.names i) ht hu hname

theorem bury (hrep : Represents tgt h xs) {i : Fin nvramArraysize} {pre post : List Ptr} {t : Ptr}
    (hi : xs (.hash i) = pre ++ t :: post) :
    Represents tgt (h.bury (endCell (.root (.hash i)) pre) t)
      (Function.update (Function.update xs (.hash i) (pre ++ post)) .dead (t :: xs .dead)) := by
  have hunlinked := hrep.lists.unlink hi
  have hnodup : (pre ++ t :: post).Nodup := hi ▸ hrep.lists.nodup (.hash i)
  have hmem : t ∈ xs (.hash i) := by simp [hi]
  have hgone : ∀ r, t ∉ Function.update xs (.hash i) (pre ++ post) r := by
    intro r hr
    by_cases hri : r = .hash i
    · subst hri
      rw [Function.update_self] at hr
      exact (List.nodup_middle.1 hnodup).notMem hr
    · rw [Function.update_of_ne hri] at hr
      exact hrep.lists.disjoint r _ hri hr hmem
  have hdead : Function.update xs (.hash i) (pre ++ post) .dead = xs .dead :=
    Function.update_of_ne (by simp) _ _
  have hpushed := hunlinked.push (r := Root.dead) hgone
  rw [hdead] at hpushed
  have hkept : ∀ j, List.Sublist (Function.update (Function.update xs (.hash i) (pre ++ post)) .dead
      (t :: xs .dead) (.hash j)) (xs (.hash j)) := by
    intro j
    rw [Function.update_of_ne (by simp)]
    by_cases hji : j = i
    · subst hji
      rw [Function.update_self, hi]
      exact (List.sublist_cons_self t post).append_left pre
    · rw [Function.update_of_ne (by simpa using hji)]
  refine ⟨by rw [deref_bury]; exact hpushed, fun r u hu => ?_, fun j u hu => ?_, fun j => ?_⟩
  · simp only [Handle.bury, assign_brk]
    cases r with
    | hash j => exact hrep.allocated _ u ((hkept j).subset hu)
    | dead =>
      rw [Function.update_self] at hu
      rcases List.mem_cons.1 hu with rfl | hu
      · exact hrep.allocated _ u hmem
      · exact hrep.allocated _ u hu
  · simp only [Handle.bury, assign_name]
    exact hrep.home j u ((hkept j).subset hu)
  · simp only [Handle.bury, assign_name]
    exact (hrep.names j).sublist ((hkept j).map _)

/-! ### Looking a name up -/

theorem find_hit (hrep : Represents tgt h xs) {i : Fin nvramArraysize} {t : Ptr}
    (ht : t ∈ xs (.hash i)) :
    ∃ pre post, xs (.hash i) = pre ++ t :: post ∧
      h.find (h.heap t).name (.root (.hash i)) = (endCell (.root (.hash i)) pre, some t) := by
  obtain ⟨pre, post, hsplit⟩ := List.append_of_mem ht
  have hlen := hrep.length_le (.hash i)
  have hnodup := hrep.names i
  rw [hsplit, List.length_append, List.length_cons] at hlen
  rw [hsplit, List.map_append, List.map_cons] at hnodup
  have hpre : ∀ b ∈ pre, decide ((h.heap b).name = (h.heap t).name) = false := by
    intro b hb
    simp only [decide_eq_false_iff_not]
    intro hbt
    refine (List.nodup_middle.1 hnodup).notMem (List.mem_append_left _ ?_)
    exact List.mem_map.2 ⟨b, hb, hbt⟩
  refine ⟨pre, post, hsplit, walk_hit (hsplit ▸ hrep.lists.chain _) hpre (by simp) (by omega)⟩

theorem find_miss (hrep : Represents tgt h xs) {i : Fin nvramArraysize} {name : CString}
    (hmiss : ∀ t ∈ xs (.hash i), (h.heap t).name ≠ name) :
    (h.find name (.root (.hash i))).2 = none := by
  have hlen := hrep.length_le (.hash i)
  exact walk_miss (hrep.lists.chain _) (fun b hb => by simpa using hmiss b hb) (by omega)

theorem nvramGet_iff (hrep : Represents tgt h xs) (name value : CString) :
    h.nvramGet tgt name = some value ↔ Binds tgt h xs name value := by
  by_cases hhit : ∃ t ∈ xs (.hash (bucket tgt name)), (h.heap t).name = name
  · obtain ⟨t, ht, rfl⟩ := hhit
    obtain ⟨pre, post, _, hfind⟩ := hrep.find_hit ht
    simp only [nvramGet, hfind, Option.map_some, Option.some.injEq]
    constructor
    · exact fun hvalue => ⟨t, ht, rfl, hvalue⟩
    · rintro ⟨u, hu, hname, hvalue⟩
      rwa [hrep.name_injective hu ht hname] at hvalue
  · have hmiss : ∀ t ∈ xs (.hash (bucket tgt name)), (h.heap t).name ≠ name :=
      fun t ht hname => hhit ⟨t, ht, hname⟩
    simp only [nvramGet, hrep.find_miss hmiss, Option.map_none]
    constructor
    · rintro ⟨⟩
    · rintro ⟨t, ht, hname, _⟩
      exact absurd hname (hmiss t ht)

end Represents

theorem nvramGet_ext {h h' : Handle} {xs xs' : Root → List Ptr} (hrep : Represents tgt h xs)
    (hrep' : Represents tgt h' xs') {name : CString}
    (hbinds : ∀ value, Binds tgt h xs name value ↔ Binds tgt h' xs' name value) :
    h'.nvramGet tgt name = h.nvramGet tgt name := by
  refine Option.ext fun value => ?_
  rw [hrep'.nvramGet_iff, hrep.nvramGet_iff, hbinds]

/-! ### Changing the table -/

/-- What the operations never touch. -/
def SameMap (h h' : Handle) : Prop :=
  h'.mmap = h.mmap ∧ h'.length = h.length ∧ h'.offset = h.offset

theorem SameMap.trans {h h' h'' : Handle} (hfst : h.SameMap h') (hsnd : h'.SameMap h'') :
    h.SameMap h'' :=
  ⟨hsnd.1.trans hfst.1, hsnd.2.1.trans hfst.2.1, hsnd.2.2.trans hfst.2.2⟩

/-- The bytes a value may take, its terminator included. -/
def room (h : Handle) : Nat := (h.length - h.offset).toNat

theorem SameMap.room {h h' : Handle} (hsame : h.SameMap h') : h'.room = h.room := by
  rw [Handle.room, Handle.room, hsame.2.1, hsame.2.2]

theorem bury_sameMap (h : Handle) (prev : Place) (t : Ptr) : h.SameMap (h.bury prev t) := by
  simp [SameMap, bury]

variable {h : Handle} {xs : Root → List Ptr}

/-- `nvram_unset` makes the map undefined at the name. -/
theorem Represents.unset (hrep : Represents tgt h xs) (name : CString) :
    ∃ xs', Represents tgt (h.nvramUnset tgt name).1 xs' ∧
      h.SameMap (h.nvramUnset tgt name).1 ∧
      (h.nvramUnset tgt name).1.nvramGet tgt = Function.update (h.nvramGet tgt) name none := by
  by_cases hhit : ∃ t ∈ xs (.hash (bucket tgt name)), (h.heap t).name = name
  · obtain ⟨t, ht, rfl⟩ := hhit
    obtain ⟨pre, post, hsplit, hfind⟩ := hrep.find_hit ht
    have hburied := hrep.bury hsplit
    simp only [nvramUnset, hfind]
    refine ⟨_, hburied, bury_sameMap _ _ _, ?_⟩
    have hnames := hrep.names (bucket tgt (h.heap t).name)
    rw [hsplit, List.map_append, List.map_cons] at hnames
    have hgone := (List.nodup_middle.1 hnames).notMem
    rw [← List.map_append] at hgone
    funext name
    by_cases hname : name = (h.heap t).name
    · subst hname
      rw [Function.update_self]
      refine Option.eq_none_iff_forall_ne_some.2 fun value hvalue => ?_
      obtain ⟨u, hu, huname, _⟩ := (hburied.nvramGet_iff _ _).1 hvalue
      rw [Function.update_of_ne (by simp), Function.update_self] at hu
      simp only [Handle.bury, assign_name] at huname
      exact hgone (List.mem_map.2 ⟨u, hu, huname⟩)
    · rw [Function.update_of_ne hname]
      refine nvramGet_ext hrep hburied fun value => ?_
      unfold Binds
      rw [Function.update_of_ne (by simp)]
      simp only [Handle.bury, assign_name, assign_value]
      by_cases hbucket : bucket tgt name = bucket tgt (h.heap t).name
      · rw [hbucket, Function.update_self, hsplit]
        refine ⟨fun ⟨u, hu, huname, hval⟩ => ⟨u, ?_, huname, hval⟩,
          fun ⟨u, hu, huname, hval⟩ => ⟨u, ?_, huname, hval⟩⟩
        · rcases List.mem_append.1 hu with hu | hu
          · exact List.mem_append_left _ hu
          · rcases List.mem_cons.1 hu with rfl | hu
            · exact absurd huname.symm hname
            · exact List.mem_append_right _ hu
        · rcases List.mem_append.1 hu with hu | hu
          · exact List.mem_append_left _ hu
          · exact List.mem_append_right _ (List.mem_cons_of_mem _ hu)
      · rw [Function.update_of_ne (by simpa using hbucket)]
  · have hmiss : ∀ t ∈ xs (.hash (bucket tgt name)), (h.heap t).name ≠ name :=
      fun t ht hname => hhit ⟨t, ht, hname⟩
    have hnone : h.nvramGet tgt name = none := by
      simp only [nvramGet, hrep.find_miss hmiss, Option.map_none]
    have hsame : (h.nvramUnset tgt name).1 = h := by
      simp only [nvramUnset, hrep.find_miss hmiss]
    rw [hsame]
    refine ⟨xs, hrep, ⟨rfl, rfl, rfl⟩, ?_⟩
    rw [← hnone, Function.update_eq_self]

/-- A value that does not fit is refused, and the table stays as it is. -/
theorem nvramSet_too_long (name : CString) {value : CString} (hlong : value.strlen + 1 > h.room) :
    h.nvramSet tgt name value = (h, -12) := by
  have hlong : value.strlen + 1 > (h.length - h.offset).toNat := hlong
  simp only [nvramSet, nvramRealloc, if_pos hlong]

/-- The table after a new tuple for `name` was put in front of its bucket. -/
def pushed (tgt : Target) (h : Handle) (name value : CString) : Handle :=
  let i := bucket tgt name
  let h' := { h with
    heap := Function.update h.heap h.brk { name := name, value := value, next := none }
    brk := h.brk + 1 }
  (h'.assign (.next h.brk) (h'.nvramHash i)).assign (.root (.hash i)) (some h.brk)

/-- The table after the value of the tuple `t` was replaced. -/
def revalued (h : Handle) (t : Ptr) (value : CString) : Handle :=
  { h with heap := Function.update h.heap t { h.heap t with value := value } }

theorem nvramSet_push (hrep : Represents tgt h xs) {name value : CString}
    (hfits : value.strlen + 1 ≤ h.room)
    (hmiss : ∀ t ∈ xs (.hash (bucket tgt name)), (h.heap t).name ≠ name) :
    h.nvramSet tgt name value = (h.pushed tgt name value, 0) := by
  have hfits : ¬ value.strlen + 1 > (h.length - h.offset).toNat := Nat.not_lt.2 hfits
  have hfind := hrep.find_miss hmiss
  simp only [nvramSet, nvramRealloc, if_neg hfits, hfind, reduceCtorEq, if_false, pushed]

theorem nvramSet_revalue (hrep : Represents tgt h xs) {value : CString} {t : Ptr}
    (hfits : value.strlen + 1 ≤ h.room)
    (ht : t ∈ xs (.hash (bucket tgt (h.heap t).name))) :
    h.nvramSet tgt (h.heap t).name value = (h.revalued t value, 0) := by
  have hfits : ¬ value.strlen + 1 > (h.length - h.offset).toNat := Nat.not_lt.2 hfits
  obtain ⟨pre, post, _, hfind⟩ := hrep.find_hit ht
  by_cases hvalue : (h.heap t).value = value
  · have hsame : h.revalued t value = h := by
      subst hvalue
      rw [revalued, Function.update_eq_self]
    simp only [nvramSet, hfind, nvramRealloc, if_neg hfits, if_pos hvalue, if_true, hsame]
  · simp only [nvramSet, hfind, nvramRealloc, if_neg hfits, if_neg hvalue, if_true, revalued]

theorem Represents.revalue (hrep : Represents tgt h xs) (t : Ptr) (value : CString) :
    Represents tgt (h.revalued t value) xs := by
  have hname : ∀ u, ((h.revalued t value).heap u).name = (h.heap u).name := by
    intro u
    by_cases hu : u = t
    · subst hu
      simp [revalued]
    · simp [revalued, Function.update_of_ne hu]
  have hderef : (h.revalued t value).deref = h.deref := by
    funext c
    rcases c with (i | _) | u
    · rfl
    · rfl
    · by_cases hu : u = t
      · subst hu
        simp [revalued, deref]
      · simp [revalued, deref, Function.update_of_ne hu]
  refine ⟨by rw [hderef]; exact hrep.lists, hrep.allocated, fun i u hu => ?_, fun i => ?_⟩
  · rw [hname]
    exact hrep.home i u hu
  · simp only [hname]
    exact hrep.names i

theorem deref_pushed (h : Handle) (name value : CString) :
    (h.pushed tgt name value).deref =
      Function.update (Function.update h.deref (.next h.brk)
        (h.deref (.root (.hash (bucket tgt name))))) (.root (.hash (bucket tgt name)))
        (some h.brk) := by
  have hfresh : ∀ h' : Handle, h' = { h with
      heap := Function.update h.heap h.brk { name := name, value := value, next := none }
      brk := h.brk + 1 } → h'.deref = Function.update h.deref (.next h.brk) none := by
    rintro h' rfl
    funext c
    rcases c with (i | _) | u
    · rfl
    · rfl
    · by_cases hu : u = h.brk
      · subst hu
        simp [deref]
      · rw [Function.update_of_ne (by simpa using hu)]
        simp [deref, Function.update_of_ne hu]
  simp only [pushed, deref_assign, hfresh _ rfl, Function.update_idem]
  rfl

theorem pushed_heap_self (h : Handle) (name value : CString) :
    ((h.pushed tgt name value).heap h.brk).name = name ∧
      ((h.pushed tgt name value).heap h.brk).value = value := by
  simp [pushed]

theorem pushed_heap_of_ne (h : Handle) (name value : CString) {t : Ptr} (ht : t ≠ h.brk) :
    ((h.pushed tgt name value).heap t).name = (h.heap t).name ∧
      ((h.pushed tgt name value).heap t).value = (h.heap t).value := by
  simp [pushed, Function.update_of_ne ht]

theorem Represents.push (hrep : Represents tgt h xs) {name : CString} (value : CString)
    (hmiss : ∀ t ∈ xs (.hash (bucket tgt name)), (h.heap t).name ≠ name) :
    Represents tgt (h.pushed tgt name value)
      (Function.update xs (.hash (bucket tgt name)) (h.brk :: xs (.hash (bucket tgt name)))) := by
  have hold : ∀ r, ∀ t ∈ xs r, t ≠ h.brk := fun r t ht => (hrep.allocated r t ht).ne
  have hpushed := hrep.lists.push (r := Root.hash (bucket tgt name)) fun r hr => hold r _ hr rfl
  have hnames : ∀ i, (xs (.hash i)).map (fun t => ((h.pushed tgt name value).heap t).name) =
      (xs (.hash i)).map fun t => (h.heap t).name :=
    fun i => List.map_congr_left fun t ht => (pushed_heap_of_ne h name value (hold _ t ht)).1
  refine ⟨by rw [deref_pushed]; exact hpushed, fun r t ht => ?_, fun i t ht => ?_, fun i => ?_⟩
  · have hbrk : (h.pushed tgt name value).brk = h.brk + 1 := by simp [pushed]
    rw [hbrk]
    by_cases hr : r = .hash (bucket tgt name)
    · subst hr
      rw [Function.update_self] at ht
      rcases List.mem_cons.1 ht with rfl | ht
      · exact Nat.lt_succ_self _
      · exact Nat.lt_succ_of_lt (hrep.allocated _ t ht)
    · rw [Function.update_of_ne hr] at ht
      exact Nat.lt_succ_of_lt (hrep.allocated _ t ht)
  · by_cases hi : i = bucket tgt name
    · subst hi
      rw [Function.update_self] at ht
      rcases List.mem_cons.1 ht with rfl | ht
      · rw [(pushed_heap_self h name value).1]
      · rw [(pushed_heap_of_ne h name value (hold _ t ht)).1]
        exact hrep.home _ t ht
    · rw [Function.update_of_ne (by simpa using hi)] at ht
      rw [(pushed_heap_of_ne h name value (hold _ t ht)).1]
      exact hrep.home _ t ht
  · by_cases hi : i = bucket tgt name
    · subst hi
      rw [Function.update_self, List.map_cons, hnames, (pushed_heap_self h name value).1]
      refine List.nodup_cons.2 ⟨fun hmem => ?_, hrep.names _⟩
      obtain ⟨t, ht, htname⟩ := List.mem_map.1 hmem
      exact hmiss t ht htname
    · rw [Function.update_of_ne (by simpa using hi), hnames]
      exact hrep.names i

/-- A value that fits is bound to the name. -/
theorem Represents.set (hrep : Represents tgt h xs) (name : CString) {value : CString}
    (hfits : value.strlen + 1 ≤ h.room) :
    ∃ xs', Represents tgt (h.nvramSet tgt name value).1 xs' ∧
      (h.nvramSet tgt name value).2 = 0 ∧ h.SameMap (h.nvramSet tgt name value).1 ∧
      (h.nvramSet tgt name value).1.nvramGet tgt =
        Function.update (h.nvramGet tgt) name (some value) := by
  by_cases hhit : ∃ t ∈ xs (.hash (bucket tgt name)), (h.heap t).name = name
  · obtain ⟨t, ht, rfl⟩ := hhit
    have hrevalued := hrep.revalue t value
    rw [nvramSet_revalue hrep hfits ht]
    refine ⟨xs, hrevalued, rfl, ⟨rfl, rfl, rfl⟩, ?_⟩
    have hself : ((h.revalued t value).heap t) = { h.heap t with value := value } := by
      simp [revalued]
    have hother : ∀ u, u ≠ t → (h.revalued t value).heap u = h.heap u :=
      fun u hu => by simp [revalued, Function.update_of_ne hu]
    funext name
    by_cases hname : name = (h.heap t).name
    · subst hname
      rw [Function.update_self, hrevalued.nvramGet_iff]
      exact ⟨t, ht, by rw [hself], by rw [hself]⟩
    · rw [Function.update_of_ne hname]
      refine nvramGet_ext hrep hrevalued fun value' => exists_congr fun u => and_congr_right fun _ => ?_
      by_cases hu : u = t
      · subst hu
        rw [hself]
        exact ⟨fun hb => absurd hb.1.symm hname, fun hb => absurd hb.1.symm hname⟩
      · rw [hother u hu]
  · have hmiss : ∀ t ∈ xs (.hash (bucket tgt name)), (h.heap t).name ≠ name :=
      fun t ht hname => hhit ⟨t, ht, hname⟩
    have hpushed := hrep.push value hmiss
    have hold : ∀ r, ∀ t ∈ xs r, t ≠ h.brk := fun r t ht => (hrep.allocated r t ht).ne
    rw [nvramSet_push hrep hfits hmiss]
    refine ⟨_, hpushed, rfl, by simp [SameMap, pushed], ?_⟩
    funext name'
    by_cases hname : name' = name
    · subst hname
      rw [Function.update_self, hpushed.nvramGet_iff]
      refine ⟨h.brk, ?_, pushed_heap_self h name' value⟩
      rw [Function.update_self]
      exact List.mem_cons_self
    · rw [Function.update_of_ne hname]
      refine nvramGet_ext hrep hpushed fun value' => ?_
      unfold Binds
      constructor
      · rintro ⟨t, ht, hb⟩
        refine ⟨t, ?_, ?_⟩
        · by_cases hbucket : bucket tgt name' = bucket tgt name
          · rw [hbucket, Function.update_self]
            exact List.mem_cons_of_mem _ (hbucket ▸ ht)
          · rwa [Function.update_of_ne (by simpa using hbucket)]
        · rwa [(pushed_heap_of_ne h name value (hold _ t ht)).1,
            (pushed_heap_of_ne h name value (hold _ t ht)).2]
      · rintro ⟨t, ht, hb⟩
        have hne : t ≠ h.brk := by
          rintro rfl
          exact hname (hb.1.symm.trans (pushed_heap_self h name value).1)
        rw [(pushed_heap_of_ne h name value hne).1, (pushed_heap_of_ne h name value hne).2] at hb
        refine ⟨t, ?_, hb⟩
        by_cases hbucket : bucket tgt name' = bucket tgt name
        · rw [hbucket, Function.update_self] at ht
          rw [hbucket]
          exact (List.mem_cons.1 ht).resolve_left hne
        · rwa [Function.update_of_ne (by simpa using hbucket)] at ht

/-! ### Listing the table -/

theorem Represents.bucketTuples_eq (hrep : Represents tgt h xs) (i : Fin nvramArraysize) :
    h.bucketTuples i = (xs (.hash i)).map fun t => ((h.heap t).name, (h.heap t).value) := by
  have hlen := hrep.length_le (.hash i)
  rw [bucketTuples, nodes_eq (hrep.lists.chain _) (by omega)]

theorem nvramGetall_eq_reverse (h : Handle) :
    h.nvramGetall = ((List.finRange nvramArraysize).flatMap h.bucketTuples).reverse := by
  simp only [nvramGetall, List.foldl_flip_cons_eq_append, List.append_nil, List.map_id']

theorem Represents.mem_bucketTuples (hrep : Represents tgt h xs) {i : Fin nvramArraysize}
    {name value : CString} :
    (name, value) ∈ h.bucketTuples i ↔ bucket tgt name = i ∧ h.nvramGet tgt name = some value := by
  rw [hrep.bucketTuples_eq, hrep.nvramGet_iff, List.mem_map]
  constructor
  · rintro ⟨t, ht, heq⟩
    obtain ⟨hname, hvalue⟩ := Prod.mk.inj heq
    have hhome := hrep.home i t ht
    rw [hname] at hhome
    exact ⟨hhome, t, hhome.symm ▸ ht, hname, hvalue⟩
  · rintro ⟨rfl, t, ht, hname, hvalue⟩
    exact ⟨t, ht, by rw [hname, hvalue]⟩

theorem Represents.mem_nvramGetall (hrep : Represents tgt h xs) (name value : CString) :
    (name, value) ∈ h.nvramGetall ↔ h.nvramGet tgt name = some value := by
  simp only [nvramGetall_eq_reverse, List.mem_reverse, List.mem_flatMap, hrep.mem_bucketTuples]
  exact ⟨fun ⟨_, _, _, hget⟩ => hget, fun hget => ⟨_, List.mem_finRange _, rfl, hget⟩⟩

theorem Represents.nvramGetall_nodup (hrep : Represents tgt h xs) :
    (h.nvramGetall.map Prod.fst).Nodup := by
  rw [nvramGetall_eq_reverse, List.map_reverse, List.nodup_reverse, List.map_flatMap,
    List.nodup_flatMap]
  refine ⟨fun i _ => ?_, (List.nodup_finRange _).imp fun {i j} hij => ?_⟩
  · rw [hrep.bucketTuples_eq, List.map_map]
    exact hrep.names i
  · intro name hi hj
    obtain ⟨⟨_, value⟩, hleft, rfl⟩ := List.mem_map.1 hi
    obtain ⟨⟨_, value'⟩, hright, hname⟩ := List.mem_map.1 hj
    subst hname
    exact hij ((hrep.mem_bucketTuples.1 hleft).1.symm.trans (hrep.mem_bucketTuples.1 hright).1)

end Handle

/-! ### Runs -/

open Handle

/-- What an operation does to the map from names to values; `room` bounds the values. -/
def Op.apply (room : Nat) (bindings : CString → Option CString) : Op → CString → Option CString
  | .set name value =>
    if value.strlen + 1 > room then bindings else Function.update bindings name (some value)
  | .unset name => Function.update bindings name none
  | .get _ => bindings

theorem Handle.WellFormed.step {h : Handle} (hwf : WellFormed tgt h) (op : Op) :
    WellFormed tgt (op.step tgt h) ∧ h.SameMap (op.step tgt h) ∧
      (op.step tgt h).nvramGet tgt = op.apply h.room (h.nvramGet tgt) := by
  obtain ⟨xs, hrep⟩ := hwf
  cases op with
  | set name value =>
    by_cases hlong : value.strlen + 1 > h.room
    · simp only [Op.step, Op.apply, nvramSet_too_long name hlong, if_pos hlong]
      exact ⟨⟨xs, hrep⟩, ⟨rfl, rfl, rfl⟩, trivial⟩
    · obtain ⟨xs', hrep', _, hsame, hget⟩ := hrep.set name (Nat.not_lt.1 hlong)
      simp only [Op.step, Op.apply, if_neg hlong]
      exact ⟨⟨xs', hrep'⟩, hsame, hget⟩
  | unset name =>
    obtain ⟨xs', hrep', hsame, hget⟩ := hrep.unset name
    exact ⟨⟨xs', hrep'⟩, hsame, hget⟩
  | get name => exact ⟨⟨xs, hrep⟩, ⟨rfl, rfl, rfl⟩, rfl⟩

theorem Handle.WellFormed.run {h : Handle} (hwf : WellFormed tgt h) (ops : List Op) :
    WellFormed tgt (runOps tgt ops h) ∧ h.SameMap (runOps tgt ops h) ∧
      (runOps tgt ops h).nvramGet tgt = ops.foldl (Op.apply h.room) (h.nvramGet tgt) := by
  induction ops generalizing h with
  | nil => exact ⟨hwf, ⟨rfl, rfl, rfl⟩, rfl⟩
  | cons op ops ih =>
    obtain ⟨hwf', hsame, hget⟩ := hwf.step op
    obtain ⟨hwf'', hsame', hget'⟩ := ih hwf'
    refine ⟨hwf'', hsame.trans hsame', ?_⟩
    rw [hsame.room, hget] at hget'
    exact hget'

theorem nvramFree_wellFormed (tgt : Target) (h : Handle) : WellFormed tgt h.nvramFree := by
  refine ⟨fun _ => [], ⟨fun r => ?_, fun _ => List.nodup_nil, fun _ _ _ => by simp⟩, by simp,
    by simp, by simp⟩
  cases r <;> rfl

/-- A freshly opened handle of a partition of 32 KiB. -/
def emptyHandle : Handle :=
  { mmap := [], length := 0x8000, offset := 0, nvramHash := fun _ => none, nvramDead := none
    heap := fun _ => ⟨⟨[], by simp⟩, ⟨[], by simp⟩, none⟩, brk := 0 }

end Immwrt.Nvram
