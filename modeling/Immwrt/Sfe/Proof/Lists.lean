import Immwrt.Sfe.Engine

/-!
# The lists of the connection table

Which nodes each of the four linked structures holds, and what the operations of the table do to them.
The matches and the connections are treated apart: a set of matches is spread over the chains of the match
table and, as far as they are active, in the active list; a list of connections is in the list of all
connections and spread over the chains of the connection table.
-/

namespace Immwrt.Sfe

open Doubly

/-- The matches `M` are on the chains of their keys, and those of them that are active make up the active
list. -/
structure MatchLists (t : Table) (M : Nat → Prop) (chain : Index → List Nat) (active : List Nat) :
    Prop where
  chains : Chains t.matchLinks t.matchHash chain
  mem_chain : ∀ i m, m ∈ chain i ↔ M m ∧ matchHashOf (t.info m).key = i
  isList : IsList t.activeLinks active
  head : t.activeHead = active.head?
  tail : t.activeTail = active.getLast?
  mem_active : ∀ m, m ∈ active ↔ M m ∧ t.active m = true
  idle : ∀ m, M m → t.active m = false → t.activeLinks.next m = none

/-- The connections `all` are on the list of all connections and on the chains of their tuples. -/
structure ConnLists (t : Table) (all : List Nat) (chain : Index → List Nat) : Prop where
  chains : Chains t.connLinks t.connHash chain
  mem_chain : ∀ i c, c ∈ chain i ↔ c ∈ all ∧ (t.conn c).index = i
  isList : IsList t.allLinks all
  head : t.allHead = all.head?
  tail : t.allTail = all.getLast?
  num : t.numConnections = all.length

/-! ### Taking a match out -/

section

variable {t : Table} {M : Nat → Prop} {chain : Index → List Nat} {active : List Nat}

theorem MatchLists.not_mem_chain (h : MatchLists t M chain active) {m : Nat} (hm : ¬ M m) (i : Index) :
    m ∉ chain i := fun hmem => hm ((h.mem_chain i m).mp hmem).1

theorem mem_pre_post {pre post : List Nat} {m x : Nat} (hnodup : (pre ++ m :: post).Nodup) :
    x ∈ pre ++ post ↔ x ∈ pre ++ m :: post ∧ x ≠ m := by
  have hm : m ∉ pre ++ post := (List.nodup_cons.mp (List.nodup_middle.mp hnodup)).1
  simp only [List.mem_append, List.mem_cons] at hm ⊢
  constructor
  · intro hx
    refine ⟨hx.imp_right Or.inr, ?_⟩
    rintro rfl
    exact hm hx
  · rintro ⟨hx, hne⟩
    exact hx.imp_right fun hx => hx.resolve_left hne

/-- The chain of a match, split at it. -/
theorem MatchLists.split (h : MatchLists t M chain active) {m : Nat} (hm : M m) :
    ∃ pre post, chain (matchHashOf (t.info m).key) = pre ++ m :: post :=
  List.append_of_mem ((h.mem_chain _ m).mpr ⟨hm, rfl⟩)

/-- A match leaves its chain. -/
theorem MatchLists.unlinkChain (h : MatchLists t M chain active) {m : Nat} (hm : M m) :
    ∃ chain', Chains (t.matchLinks.unlink m) (Function.update t.matchHash (matchHashOf (t.info m).key)
        (t.matchLinks.headWithout (t.matchHash (matchHashOf (t.info m).key)) m)) chain' ∧
      ∀ i x, x ∈ chain' i ↔ (M x ∧ x ≠ m) ∧ matchHashOf (t.info x).key = i := by
  obtain ⟨pre, post, hsplit⟩ := h.split hm
  refine ⟨_, h.chains.unlink hsplit, fun i x => ?_⟩
  by_cases hi : i = matchHashOf (t.info m).key
  · subst hi
    have hnodup := (h.chains.isList (matchHashOf (t.info m).key)).nodup
    rw [hsplit] at hnodup
    rw [Function.update_self, mem_pre_post hnodup, ← hsplit, h.mem_chain]
    tauto
  · rw [Function.update_of_ne hi, h.mem_chain]
    constructor
    · rintro ⟨hx, hkey⟩
      refine ⟨⟨hx, ?_⟩, hkey⟩
      rintro rfl
      exact hi hkey.symm
    · rintro ⟨⟨hx, -⟩, hkey⟩
      exact ⟨hx, hkey⟩

theorem MatchLists.remove (h : MatchLists t M chain active) {m : Nat} (hm : M m) :
    ∃ chain' active', MatchLists (t.removeConnectionMatch m) (fun x => M x ∧ x ≠ m) chain' active' := by
  obtain ⟨chain', hchain', hmem'⟩ := h.unlinkChain hm
  rw [Table.removeConnectionMatch, Table.removeActive]
  split
  · rename_i hactive
    have hmem : m ∈ active := (h.mem_active m).mpr ⟨hm, hactive⟩
    obtain ⟨pre, post, rfl⟩ := List.append_of_mem hmem
    refine ⟨chain', pre ++ post, hchain', hmem', h.isList.unlink, ?_, ?_, fun x => ?_, fun x hx hidle => ?_⟩
    · rw [← h.isList.headWithout, ← h.head]
    · rw [← h.isList.tailWithout, ← h.tail]
    · rw [mem_pre_post h.isList.nodup, h.mem_active]
      simp only
      tauto
    · have hx' : x ∉ pre ++ post := fun hmem => by
        have hact := ((h.mem_active x).mp ((mem_pre_post h.isList.nodup).mp hmem).1).2
        rw [hidle] at hact
        cases hact
      exact (unlink_sameOff h.isList x hx').1.trans (h.idle x hx.1 hidle)
  · rename_i hactive
    refine ⟨chain', active, hchain', hmem', h.isList, h.head, h.tail, fun x => ?_, fun x hx => h.idle x hx.1⟩
    rw [h.mem_active]
    constructor
    · rintro ⟨hx, hact⟩
      refine ⟨⟨hx, ?_⟩, hact⟩
      rintro rfl
      exact hactive hact
    · rintro ⟨⟨hx, -⟩, hact⟩
      exact ⟨hx, hact⟩

/-! ### Putting a match in -/

theorem MatchLists.insert (h : MatchLists t M chain active) {m : Nat} (hm : ¬ M m)
    (hidle : t.active m = false) (hnext : t.activeLinks.next m = none) :
    ∃ chain', MatchLists (t.insertConnectionMatch m) (fun x => M x ∨ x = m) chain' active := by
  refine ⟨_, h.chains.pushFront (matchHashOf (t.info m).key) (h.not_mem_chain hm), fun i x => ?_,
    h.isList, h.head, h.tail, fun x => ?_, ?_⟩
  · by_cases hi : i = matchHashOf (t.info m).key
    · subst hi
      rw [Function.update_self, List.mem_cons, h.mem_chain]
      constructor
      · rintro (rfl | ⟨hx, hkey⟩)
        · exact ⟨Or.inr rfl, rfl⟩
        · exact ⟨Or.inl hx, hkey⟩
      · rintro ⟨hx | rfl, hkey⟩
        · exact Or.inr ⟨hx, hkey⟩
        · exact Or.inl rfl
    · rw [Function.update_of_ne hi, h.mem_chain]
      constructor
      · rintro ⟨hx, hkey⟩
        exact ⟨Or.inl hx, hkey⟩
      · rintro ⟨hx | rfl, hkey⟩
        · exact ⟨hx, hkey⟩
        · exact absurd hkey.symm hi
  · rw [h.mem_active]
    constructor
    · rintro ⟨hx, hact⟩
      exact ⟨Or.inl hx, hact⟩
    · rintro ⟨hx | rfl, hact⟩
      · exact ⟨hx, hact⟩
      · exact absurd (hidle.symm.trans hact) (by decide)
  · rintro x (hx | rfl) hidle'
    · exact h.idle x hx hidle'
    · exact hnext

/-! ### The active list -/

theorem MatchLists.activate (h : MatchLists t M chain active) {m : Nat} (hm : M m) :
    ∃ active', MatchLists (t.activate m) M chain active' := by
  rw [Table.activate]
  split
  · exact ⟨active, h⟩
  · rename_i hidle
    have hidle : t.active m = false := by simpa using hidle
    have hmem : m ∉ active := fun hmem => by
      have hact := ((h.mem_active m).mp hmem).2
      rw [hidle] at hact
      cases hact
    refine ⟨active ++ [m], h.chains, h.mem_chain, ?_, ?_, by simp, fun x => ?_, fun x hx hx' => ?_⟩
    · rw [h.tail]
      exact h.isList.pushBack hmem (h.idle m hm hidle)
    · simp only [h.tail, h.head]
      cases active <;> simp
    · rw [List.mem_append, List.mem_singleton, h.mem_active]
      by_cases hxm : x = m
      · subst hxm
        simp [hm]
      · simp [hxm]
    · simp only at hx'
      have hxm : x ≠ m := by
        rintro rfl
        simp at hx'
      rw [Function.update_of_ne hxm] at hx'
      have hx'' : x ∉ active ++ [m] := fun hmem => by
        rcases List.mem_append.mp hmem with hmem | hmem
        · have hact := ((h.mem_active x).mp hmem).2
          rw [hx'] at hact
          cases hact
        · exact hxm (List.mem_singleton.mp hmem)
      have hsame := (pushBack_sameOff t.activeLinks active m x hx'').1
      rw [← h.tail] at hsame
      exact hsame.trans (h.idle x hx hx')

/-- What is true of the active list when a match has left it. -/
theorem MatchLists.drop (h : MatchLists t M chain active) {pre post : List Nat} {m : Nat}
    (hactive : active = pre ++ m :: post) {links : Links Nat} (hlinks : IsList links (pre ++ post))
    (hsame : ∀ x ∉ active, links.next x = t.activeLinks.next x) (hnext : links.next m = none) :
    MatchLists { t with
        active := Function.update t.active m false
        activeLinks := links
        activeHead := (pre ++ post).head?
        activeTail := (pre ++ post).getLast? } M chain (pre ++ post) := by
  subst hactive
  refine ⟨h.chains, h.mem_chain, hlinks, rfl, rfl, fun x => ?_, fun x hx hidle => ?_⟩
  · rw [mem_pre_post h.isList.nodup, h.mem_active]
    by_cases hxm : x = m
    · subst hxm
      simp
    · simp [hxm]
  · by_cases hxm : x = m
    · subst hxm
      exact hnext
    · have hidle' : t.active x = false := by simpa [hxm] using hidle
      have hx' : x ∉ pre ++ m :: post := fun hmem => by
        have hact := ((h.mem_active x).mp hmem).2
        rw [hidle'] at hact
        cases hact
      exact (hsame x hx').trans (h.idle x hx hidle')

theorem MatchLists.dropCounter (h : MatchLists t M chain active) {cm counter : Nat}
    (hhead : t.activeHead = some cm) (hne : counter ≠ cm) (hcounter : M counter) :
    ∃ active', MatchLists (t.dropCounter counter) M chain active' ∧
      (t.dropCounter counter).activeHead = some cm := by
  rw [Table.dropCounter]
  split
  · rename_i hact
    obtain ⟨pre, post, hsplit⟩ := List.append_of_mem ((h.mem_active counter).mpr ⟨hcounter, hact⟩)
    have hlist := h.isList
    rw [hsplit] at hlist
    have hnodup := (List.nodup_cons.mp (List.nodup_middle.mp hlist.nodup)).1
    have hout : ∀ x, x ∈ pre ++ post → x ≠ counter := by
      rintro x hx rfl
      exact hnodup hx
    have hhead' : (pre ++ post).head? = some cm := by
      have hcm := h.head.symm.trans hhead
      rw [hsplit] at hcm
      cases pre with
      | nil => exact absurd (Option.some_inj.mp hcm) hne
      | cons b pre => simpa using hcm
    have hlinks : IsList (((t.activeLinks.unlink counter).setNext counter none).setPrev counter none)
        (pre ++ post) := by
      refine ⟨hlist.unlink.nodup, hlist.unlink.segment.congr (fun x hx => ?_) fun x hx => ?_⟩
      · rw [setPrev_next, setNext_next_of_ne _ _ (hout x hx)]
      · rw [setPrev_prev_of_ne _ _ (hout x hx), setNext_prev]
    have hdrop := h.drop hsplit hlinks (fun x hx => ?_) (by simp)
    · refine ⟨pre ++ post, ?_, hhead⟩
      have htail : t.activeLinks.tailWithout t.activeTail counter = (pre ++ post).getLast? := by
        rw [h.tail, hsplit, hlist.tailWithout]
      rw [htail, hhead, ← hhead']
      exact hdrop
    · rw [hsplit] at hx
      have hxc : x ≠ counter := fun hxc => hx (by simp [hxc])
      rw [setPrev_next, setNext_next_of_ne _ _ hxc]
      exact (unlink_sameOff hlist x fun hmem => hx ((mem_pre_post hlist.nodup).mp hmem).1).1
  · exact ⟨active, h, hhead⟩

theorem MatchLists.dropHead (h : MatchLists t M chain active) {cm : Nat} (hhead : t.activeHead = some cm) :
    ∃ active', MatchLists (t.dropHead cm) M chain active' := by
  obtain ⟨rest, rfl⟩ : ∃ rest, active = cm :: rest := by
    have hcm := h.head.symm.trans hhead
    cases active with
    | nil => cases hcm
    | cons b rest => exact ⟨rest, by rw [Option.some_inj.mp hcm]⟩
  have hlist : IsList t.activeLinks ([] ++ cm :: rest) := h.isList
  have hnext := hlist.pointers.2
  have hcm : cm ∉ rest := (List.nodup_cons.mp hlist.nodup).1
  have hlinks : IsList ((t.activeLinks.setPrevOf (t.activeLinks.next cm) none).setNext cm none)
      ([] ++ rest) := by
    have hrest : Segment t.activeLinks (some cm) rest none := hlist.segment.2.2
    rw [hnext]
    refine ⟨(List.nodup_cons.mp hlist.nodup).2, (hrest.setPrevOf (List.nodup_cons.mp hlist.nodup).2).congr
      (fun x hx => ?_) fun x _ => rfl⟩
    exact setNext_next_of_ne _ _ fun hxc => hcm (hxc ▸ hx)
  have hdrop := @MatchLists.drop t M chain _ h [] rest cm rfl _ hlinks (fun x hx => ?_) (by simp)
  · refine ⟨[] ++ rest, ?_⟩
    have htail : (if t.activeLinks.next cm = none then none else t.activeTail) = ([] ++ rest).getLast? := by
      rw [hnext, h.tail]
      cases rest with
      | nil => rfl
      | cons b rest => simp [List.getLast?_cons_cons]
    rw [Table.dropHead, htail]
    rw [hnext] at hdrop ⊢
    exact hdrop
  · have hxc : x ≠ cm := fun hxc => hx (by simp [hxc])
    rw [setNext_next_of_ne _ _ hxc, setPrevOf_next]

/-! ### Finding a match -/

/-- The matches of one chain keep their chain when it is reordered. -/
theorem MatchLists.moveToFront (h : MatchLists t M chain active) {i : Index} {head cm : Nat}
    {pre post : List Nat} (hi : chain i = head :: pre ++ cm :: post) :
    ∃ chain', MatchLists (t.moveToFront i head cm) M chain' active := by
  refine ⟨_, h.chains.moveToFront hi, fun j m => ?_, h.isList, h.head, h.tail, h.mem_active, h.idle⟩
  by_cases hj : j = i
  · subst hj
    have hmem := h.mem_chain j m
    rw [hi] at hmem
    refine Iff.trans ?_ hmem
    rw [Function.update_self]
    simp only [List.cons_append, List.mem_cons, List.mem_append]
    tauto
  · rw [Function.update_of_ne hj]
    exact h.mem_chain j m

end

/-- A chain of a table is no longer than the number of the next object. -/
theorem length_le_of_lt {xs : List Nat} (hnodup : xs.Nodup) {n : Nat} (hlt : ∀ x ∈ xs, x < n) :
    xs.length ≤ n := by
  have hsub : xs ⊆ List.range n := fun x hx => List.mem_range.mpr (hlt x hx)
  simpa using (List.subperm_of_subset hnodup hsub).length_le

section Find

variable {s : Sfe} {M : Nat → Prop} {chain : Index → List Nat} {active : List Nat}

/-- The lookup finds a match with the key if the table has one, and only reorders its chain. -/
theorem MatchLists.find (h : MatchLists s.toTable M chain active) (hlt : ∀ m, M m → m < s.fresh) (k : Key) :
    (∃ chain', MatchLists (s.findConnectionMatch k).1.toTable M chain' active) ∧
    (∀ m, (s.findConnectionMatch k).2 = some m → M m ∧ (s.info m).key = k) ∧
    ((s.findConnectionMatch k).2 = none → ∀ m, M m → (s.info m).key ≠ k) := by
  rw [Sfe.findConnectionMatch]
  have hhead := h.chains.head (matchHashOf k)
  cases hchain : chain (matchHashOf k) with
  | nil =>
      rw [hchain] at hhead
      simp only [hhead, List.head?_nil]
      refine ⟨⟨chain, h⟩, by simp, fun _ m hm hkey => ?_⟩
      have hmem := (h.mem_chain (matchHashOf k) m).mpr ⟨hm, by rw [hkey]⟩
      rw [hchain] at hmem
      cases hmem
  | cons head rest =>
      rw [hchain] at hhead
      simp only [hhead, List.head?_cons]
      have hmem (x : Nat) (hx : x ∈ head :: rest) : M x :=
        ((h.mem_chain (matchHashOf k) x).mp (hchain ▸ hx)).1
      split
      · rename_i hkey
        refine ⟨⟨chain, h⟩, fun m hm => ?_, by simp⟩
        obtain rfl := Option.some_inj.mp hm
        exact ⟨hmem head List.mem_cons_self, hkey⟩
      · rename_i hkey
        have hlist := h.chains.isList (matchHashOf k)
        rw [hchain] at hlist
        have hnext : s.matchLinks.next head = rest.head? := by simpa using hlist.segment.2.1
        have hlength : rest.length < s.fresh := by
          have := length_le_of_lt hlist.nodup fun x hx => hlt x (hmem x hx)
          simpa using this
        rw [hnext, hlist.segment.2.2.find _ hlength]
        cases hfind : rest.find? (fun cm => decide ((s.info cm).key = k)) with
        | none =>
            refine ⟨⟨chain, h⟩, by simp, fun _ m hm hkey' => ?_⟩
            have hmem' := (h.mem_chain (matchHashOf k) m).mpr ⟨hm, by rw [hkey']⟩
            rw [hchain] at hmem'
            rcases List.mem_cons.mp hmem' with rfl | hmem'
            · exact hkey hkey'
            · exact absurd hkey' (by simpa using List.find?_eq_none.mp hfind m hmem')
        | some cm =>
            obtain ⟨hcm, pre, post, rfl, -⟩ := List.find?_eq_some_iff_append.mp hfind
            refine ⟨h.moveToFront hchain, fun m hm => ?_, by simp⟩
            obtain rfl := Option.some_inj.mp hm
            exact ⟨hmem cm (by simp), by simpa using hcm⟩

end Find

end Immwrt.Sfe
