import Immwrt.Sfe.Proof.Table

/-!
# The invariant of the engine

What a received packet can do is said once. With it every step keeps the connections that are allocated
divided in two: those in the table, and those that were taken out of it and wait to be flushed.
-/

namespace Immwrt.Sfe

open Doubly

/-! ### What a received packet does -/

/-- The two states differ at most in counters, marks, TCP and debug state. -/
structure Quiet (s s' : Sfe) : Prop where
  toTable : s'.toTable = s.toTable
  rx : s'.rx = s.rx
  live : s'.live = s.live
  pending : s'.pending = s.pending
  delivered : s'.delivered = s.delivered
  callback : s'.callback = s.callback

theorem Quiet.refl (s : Sfe) : Quiet s s := ⟨rfl, rfl, rfl, rfl, rfl, rfl⟩

theorem quiet_bump (s : Sfe) (c : Counter) : Quiet s (s.bump c) := ⟨rfl, rfl, rfl, rfl, rfl, rfl⟩

theorem quiet_notForwarded (s : Sfe) (e : Exception) : Quiet s (s.notForwarded e) :=
  ⟨rfl, rfl, rfl, rfl, rfl, rfl⟩

/-- The key a received packet is looked up with. -/
def Packet.key (p : Packet) (dev : Dev) : Key := { dev, protocol := p.ip.protocol, tuple := p.tuple }

/-- The packet is counted by the match, which becomes active. -/
def Sfe.receive (s : Sfe) (cm len : Nat) : Sfe :=
  { s with rx := Function.update s.rx cm ((s.rx cm).receive len), toTable := s.activate cm }

inductive Sfe.Outcome (s : Sfe) (dev : Dev) (p : Packet) : Sfe × Received → Prop where
  | ignored {s' : Sfe} (hquiet : Quiet s s') : Outcome s dev p (s', none)
  | found {s' : Sfe} (k : Key) (hquiet : Quiet (s.findConnectionMatch k).1 s') : Outcome s dev p (s', none)
  | flushed {s' : Sfe} (k : Key) {cm : Nat} (hfind : (s.findConnectionMatch k).2 = some cm)
      (hquiet : Quiet ((s.findConnectionMatch k).1.takeOut
        ((s.findConnectionMatch k).1.info cm).connection .flush) s') : Outcome s dev p (s', none)
  | forwarded {s' : Sfe} {cm : Nat} (udp : Bool) (mark : Word)
      (hfind : (s.findConnectionMatch (p.key dev)).2 = some cm) (hlen : 20 ≤ p.len)
      (hquiet : Quiet ((s.findConnectionMatch (p.key dev)).1.receive cm p.len) s') :
      Outcome s dev p (s', some (((s.findConnectionMatch (p.key dev)).1.info cm).forward udp mark p))

section Recv

variable {s : Sfe} {dev : Dev} {p : Packet}

theorem forward_outcome {s' : Sfe} {cm : Nat} (udp : Bool)
    (hquiet : Quiet (s.findConnectionMatch (p.key dev)).1 s')
    (hfind : (s.findConnectionMatch (p.key dev)).2 = some cm) (hlen : 20 ≤ p.len) :
    s.Outcome dev p (s'.forward cm udp p) := by
  rw [Sfe.forward]
  split
  · exact .found (p.key dev) ⟨hquiet.toTable, hquiet.rx, hquiet.live, hquiet.pending, hquiet.delivered,
      hquiet.callback⟩
  · have hinfo : s'.info = (s.findConnectionMatch (p.key dev)).1.info := by rw [hquiet.toTable]
    dsimp only
    rw [hinfo]
    refine .forwarded udp _ hfind hlen ⟨?_, ?_, hquiet.live, hquiet.pending, hquiet.delivered, hquiet.callback⟩
    · exact congrArg (fun t : Table => t.activate cm) hquiet.toTable
    · exact congrArg (fun rx : Nat → Rx => Function.update rx cm ((rx cm).receive p.len)) hquiet.rx

theorem flushFor_outcome {k : Key} {cm : Nat} (e : Exception)
    (hfind : (s.findConnectionMatch k).2 = some cm) :
    s.Outcome dev p ((s.findConnectionMatch k).1.flushFor cm e, none) :=
  .flushed k hfind (quiet_notForwarded _ e)

theorem recvUdp_outcome (hprotocol : p.ip.protocol = ipprotoUdp) (hlen : 20 ≤ p.len) (ihl : Nat)
    (flushOnFind : Bool) : s.Outcome dev p (s.recvUdp dev p ihl flushOnFind) := by
  have hkey : { dev, protocol := ipprotoUdp, tuple := p.tuple } = p.key dev := by
    rw [Packet.key, hprotocol]
  rw [Sfe.recvUdp, hkey]
  split
  · exact .ignored (quiet_notForwarded _ _)
  rcases hf : s.findConnectionMatch (p.key dev) with ⟨s₁, found⟩
  obtain rfl : s₁ = (s.findConnectionMatch (p.key dev)).1 := by rw [hf]
  cases found with
  | none => exact .found (p.key dev) (quiet_notForwarded _ _)
  | some cm =>
    have hfind : (s.findConnectionMatch (p.key dev)).2 = some cm := by rw [hf]
    dsimp only
    split
    · exact flushFor_outcome _ hfind
    split
    · exact .found (p.key dev) (quiet_bump _ _)
    split
    · exact flushFor_outcome _ hfind
    split
    · exact flushFor_outcome _ hfind
    · exact forward_outcome true (Quiet.refl _) hfind hlen

theorem recvTcp_outcome (hprotocol : p.ip.protocol = ipprotoTcp) (hlen : 20 ≤ p.len) (ihl : Nat)
    (flushOnFind : Bool) : s.Outcome dev p (s.recvTcp dev p ihl flushOnFind) := by
  have hkey : { dev, protocol := ipprotoTcp, tuple := p.tuple } = p.key dev := by
    rw [Packet.key, hprotocol]
  rw [Sfe.recvTcp, hkey]
  split
  · exact .ignored (quiet_notForwarded _ _)
  rcases hf : s.findConnectionMatch (p.key dev) with ⟨s₁, found⟩
  obtain rfl : s₁ = (s.findConnectionMatch (p.key dev)).1 := by rw [hf]
  cases found with
  | none => exact .found (p.key dev) (quiet_notForwarded _ _)
  | some cm =>
    have hfind : (s.findConnectionMatch (p.key dev)).2 = some cm := by rw [hf]
    dsimp only
    split
    · exact flushFor_outcome _ hfind
    split
    · exact .found (p.key dev) (quiet_bump _ _)
    split
    · exact flushFor_outcome _ hfind
    split
    · exact flushFor_outcome _ hfind
    split
    · exact flushFor_outcome _ hfind
    split
    · exact flushFor_outcome _ hfind
    · exact forward_outcome false ⟨rfl, rfl, rfl, rfl, rfl, rfl⟩ hfind hlen

theorem recvIcmp_outcome (ihl : Nat) : s.Outcome dev p (s.recvIcmp dev p ihl, none) := by
  rw [Sfe.recvIcmp]
  dsimp only
  generalize ({ dev, protocol := p.icmp.protocol, tuple := _ } : Key) = k
  iterate 8
    split
    · exact .ignored (quiet_notForwarded _ _)
  rcases hf : s.findConnectionMatch k with ⟨s₁, found⟩
  obtain rfl : s₁ = (s.findConnectionMatch k).1 := by rw [hf]
  cases found with
  | none => exact .found k (quiet_notForwarded _ _)
  | some cm => exact flushFor_outcome _ (by rw [hf])

theorem recv_outcome (s : Sfe) (dev : Dev) (p : Packet) : s.Outcome dev p (s.recv dev p) := by
  rw [Sfe.recv]
  dsimp only
  split
  · exact .ignored (quiet_notForwarded _ _)
  split
  · exact .ignored (quiet_notForwarded _ _)
  rename_i _ htotal
  split
  · exact .ignored (quiet_notForwarded _ _)
  split
  · exact .ignored (quiet_notForwarded _ _)
  rename_i _ hlen
  have hlen : 20 ≤ p.len := by omega
  split
  · exact .ignored (quiet_notForwarded _ _)
  split
  · exact .ignored (quiet_notForwarded _ _)
  split
  · next hprotocol => exact recvUdp_outcome hprotocol hlen _ _
  split
  · next hprotocol => exact recvTcp_outcome hprotocol hlen _ _
  split
  · exact recvIcmp_outcome _
  · exact .ignored (quiet_notForwarded _ _)

end Recv

/-! ### The states of the engine -/

/-- `all` are the connections in the table: those that are allocated and do not wait to be flushed. -/
structure Sfe.Sound (s : Sfe) (all : List Nat) : Prop where
  inv : Inv s.toTable s.live all
  live_nodup : s.live.Nodup
  pending_nodup : (s.pending.map Prod.fst).Nodup
  pending_sub : ∀ c ∈ s.pending.map Prod.fst, c ∈ s.live
  mem_all : ∀ c, c ∈ all ↔ c ∈ s.live ∧ c ∉ s.pending.map Prod.fst

section Sound

variable {s s' : Sfe} {all : List Nat}

/-- The table is replaced, the connections stay what they are. -/
theorem Sfe.Sound.table (h : s.Sound all) (hinv : Inv s'.toTable s.live all) (hlive : s'.live = s.live)
    (hpending : s'.pending = s.pending) : s'.Sound all := by
  refine ⟨?_, ?_, ?_, ?_, ?_⟩
  · rwa [hlive]
  · rw [hlive]
    exact h.live_nodup
  · rw [hpending]
    exact h.pending_nodup
  · rw [hpending, hlive]
    exact h.pending_sub
  · rw [hpending, hlive]
    exact h.mem_all

theorem Sfe.Sound.quiet (h : s.Sound all) (hquiet : Quiet s s') : s'.Sound all := by
  refine h.table ?_ hquiet.live hquiet.pending
  rw [hquiet.toTable]
  exact h.inv

/-- A lookup changes the match chains and the counters only. -/
theorem findConnectionMatch_eq (s : Sfe) (k : Key) :
    ∃ count, (s.findConnectionMatch k).1 =
      { s with toTable := (s.findConnectionMatch k).1.toTable, count := count } := by
  rw [Sfe.findConnectionMatch]
  split
  · exact ⟨s.count, rfl⟩
  · split
    · exact ⟨_, rfl⟩
    · split
      · exact ⟨s.count, rfl⟩
      · exact ⟨_, rfl⟩

theorem Sfe.Sound.find (h : s.Sound all) (k : Key) : (s.findConnectionMatch k).1.Sound all := by
  obtain ⟨count, heq⟩ := findConnectionMatch_eq s k
  refine h.table (h.inv.find k).1 ?_ ?_ <;> rw [heq]

theorem Sfe.Sound.receive (h : s.Sound all) {m : Nat} (hm : s.IsMatch all m) (len : Nat) :
    (s.receive m len).Sound all := h.table (h.inv.activate hm) rfl rfl

theorem Sfe.Sound.takeOut (h : s.Sound all) {c : Nat} (hc : c ∈ all) (reason : Reason) :
    ∃ all', (s.takeOut c reason).Sound all' := by
  obtain ⟨all', hinv, hmem⟩ := h.inv.removeConnection hc
  obtain ⟨hlive, hpending⟩ := (h.mem_all c).mp hc
  have hmap : (s.takeOut c reason).pending.map Prod.fst = s.pending.map Prod.fst ++ [c] := by
    rw [Sfe.takeOut, List.map_append]
    rfl
  refine ⟨all', hinv, h.live_nodup, ?_, ?_, ?_⟩
  · rw [hmap]
    exact List.nodup_append.mpr ⟨h.pending_nodup, List.nodup_singleton c, fun x hx y hy hxy =>
      hpending (List.mem_singleton.mp hy ▸ hxy ▸ hx)⟩
  · intro x hx
    rw [hmap, List.mem_append, List.mem_singleton] at hx
    rcases hx with hx | rfl
    · exact h.pending_sub x hx
    · exact hlive
  · intro x
    rw [hmem, h.mem_all, hmap, List.mem_append, List.mem_singleton]
    tauto

/-- A connection of a match in the table is in the table. -/
theorem Sfe.Sound.found (h : s.Sound all) {k : Key} {cm : Nat} (hfind : (s.findConnectionMatch k).2 = some cm) :
    s.IsMatch all cm ∧ ((s.findConnectionMatch k).1.info cm).connection ∈ all := by
  have hmatch := ((h.inv.find k).2.1 cm hfind).1
  refine ⟨hmatch, ?_⟩
  rw [(sameConns_findConnectionMatch s k).info]
  exact h.inv.connection_mem hmatch

theorem Sfe.Sound.recv (h : s.Sound all) (dev : Dev) (p : Packet) :
    ∃ all', (s.recv dev p).1.Sound all' := by
  cases hrecv : s.recv dev p with
  | mk s' received =>
    have houtcome := recv_outcome s dev p
    rw [hrecv] at houtcome
    cases houtcome with
    | ignored hquiet => exact ⟨all, h.quiet hquiet⟩
    | found k hquiet => exact ⟨all, (h.find k).quiet hquiet⟩
    | flushed k hfind hquiet =>
      obtain ⟨all', h'⟩ := (h.find k).takeOut (h.found hfind).2 .flush
      exact ⟨all', h'.quiet hquiet⟩
    | forwarded udp mark hfind hlen hquiet =>
      refine ⟨all, ((h.find _).receive ?_ _).quiet hquiet⟩
      rw [(sameConns_findConnectionMatch s _).isMatch]
      exact (h.found hfind).1

theorem Sfe.Sound.findConnection (h : s.Sound all) {protocol : BitVec 32} {tuple : Tuple} {c : Nat}
    (hfind : s.findConnection protocol tuple = some c) :
    c ∈ all ∧ (s.conn c).tuple = tuple ∧ (s.conn c).protocol = protocol := by
  obtain ⟨chain, hconns⟩ := h.inv.connLists
  exact (hconns.find (fun x hx => (h.inv.bound x (h.inv.sub x hx)).1) protocol tuple).1 c hfind

theorem Sfe.Sound.findAll (h : s.Sound all) {P : Nat → Prop} [DecidablePred P] {c : Nat}
    (hfind : s.allLinks.find P (s.fresh + 1) s.allHead = some c) : c ∈ all ∧ P c := by
  obtain ⟨chain, hconns⟩ := h.inv.connLists
  have hlength := length_le_of_lt hconns.isList.nodup fun x hx => (h.inv.bound x (h.inv.sub x hx)).1
  rw [hconns.head, hconns.isList.segment.find _ (Nat.lt_succ_of_le hlength)] at hfind
  exact ⟨List.mem_of_find?_eq_some hfind, by simpa using List.find?_some hfind⟩

theorem quiet_updateProtocolState (s : Sfe) (c : Nat) (r : Rule) : Quiet s (s.updateProtocolState c r) := by
  rw [Sfe.updateProtocolState]
  split <;> exact ⟨rfl, rfl, rfl, rfl, rfl, rfl⟩

theorem Sfe.Sound.fresh_not_mem (h : s.Sound all) : s.fresh ∉ s.live := fun hmem =>
  lt_irrefl _ (h.inv.bound _ hmem).1

theorem Sfe.Sound.createRule (h : s.Sound all) (r : Rule) (memory : Bool) (now : BitVec 64) :
    ∃ all', (s.createRule r memory now).1.Sound all' := by
  rw [Sfe.createRule]
  split
  · exact ⟨all, h⟩
  have h := h.quiet (quiet_bump s .connectionCreateRequests)
  generalize s.bump .connectionCreateRequests = s at h
  dsimp only
  split
  · exact ⟨all, (h.quiet (quiet_bump _ _)).quiet (quiet_updateProtocolState _ _ r)⟩
  · next hnone =>
    split
    · obtain ⟨chain, hconns⟩ := h.inv.connLists
      have hnew := (hconns.find (fun x hx => (h.inv.bound x (h.inv.sub x hx)).1) r.protocol r.tuple).2 hnone
      refine ⟨all ++ [s.fresh], h.inv.create r now hnew, ?_, h.pending_nodup, ?_, fun c => ?_⟩
      · exact List.nodup_cons.mpr ⟨h.fresh_not_mem, h.live_nodup⟩
      · exact fun c hc => List.mem_cons_of_mem _ (h.pending_sub c hc)
      · have hpending : s.fresh ∉ s.pending.map Prod.fst := fun hmem => h.fresh_not_mem (h.pending_sub _ hmem)
        change c ∈ all ++ [s.fresh] ↔ c ∈ s.fresh :: s.live ∧ c ∉ s.pending.map Prod.fst
        rw [List.mem_append, List.mem_singleton, List.mem_cons, h.mem_all]
        constructor
        · rintro (⟨hlive, hout⟩ | rfl)
          · exact ⟨Or.inr hlive, hout⟩
          · exact ⟨Or.inl rfl, hpending⟩
        · rintro ⟨rfl | hlive, hout⟩
          · exact Or.inr rfl
          · exact Or.inl ⟨hlive, hout⟩
    · exact ⟨all, h⟩

theorem Sfe.Sound.deliver (h : s.Sound all) (c : Nat) (reason : Reason) (now : BitVec 64) :
    (s.deliver c reason now).Sound all := h.table h.inv rfl rfl

/-- What a flush leaves of the lists: the connection is no longer allocated and no longer waits. -/
theorem Sfe.Sound.release (h : s.Sound all) {i c : Nat} {reason : Reason}
    (hi : s.pending[i]? = some (c, reason)) (hlive : s'.live = s.live.erase c)
    (hpending : s'.pending = s.pending.eraseIdx i) (htable : s'.toTable = s.toTable) : s'.Sound all := by
  have hmap : s'.pending.map Prod.fst = (s.pending.map Prod.fst).eraseIdx i := by
    rw [hpending, List.eraseIdx_map]
  have herase : (s.pending.map Prod.fst).eraseIdx i = (s.pending.map Prod.fst).erase c := by
    have hidx : (s.pending.map Prod.fst)[i]? = some c := by
      rw [List.getElem?_map, hi]
      rfl
    obtain ⟨hlt, hget⟩ := List.getElem?_eq_some_iff.mp hidx
    rw [← hget]
    exact (h.pending_nodup.erase_getElem i hlt).symm
  have hmem (x : Nat) : x ∈ s'.pending.map Prod.fst ↔ x ≠ c ∧ x ∈ s.pending.map Prod.fst := by
    rw [hmap, herase, h.pending_nodup.mem_erase_iff]
  have hcpending : c ∈ s.pending.map Prod.fst := List.mem_map.mpr ⟨_, List.mem_of_getElem? hi, rfl⟩
  have hlivemem (x : Nat) : x ∈ s'.live ↔ x ≠ c ∧ x ∈ s.live := by rw [hlive, h.live_nodup.mem_erase_iff]
  have hne (x : Nat) (hx : x ∈ all) : x ≠ c := by
    rintro rfl
    exact ((h.mem_all x).mp hx).2 hcpending
  refine ⟨⟨?_, ?_, ?_, ?_, ?_, ?_⟩, ?_, ?_, ?_, ?_⟩
  · rw [htable]
    exact h.inv.matchLists
  · rw [htable]
    exact h.inv.connLists
  · exact fun x hx => (hlivemem x).mpr ⟨hne x hx, h.inv.sub x hx⟩
  · rw [htable]
    exact fun x hx => h.inv.made x ((hlivemem x).mp hx).2
  · rw [htable]
    exact fun x hx => h.inv.bound x ((hlivemem x).mp hx).2
  · rw [htable]
    exact h.inv.distinct
  · rw [hlive]
    exact h.live_nodup.erase c
  · rw [hmap, herase]
    exact h.pending_nodup.erase c
  · intro x hx
    obtain ⟨hxc, hx⟩ := (hmem x).mp hx
    exact (hlivemem x).mpr ⟨hxc, h.pending_sub x hx⟩
  · intro x
    rw [h.mem_all, hlivemem, hmem]
    constructor
    · rintro ⟨hx, hout⟩
      exact ⟨⟨fun hxc => hout (hxc ▸ hcpending), hx⟩, fun hin => hout hin.2⟩
    · rintro ⟨⟨hxc, hx⟩, hout⟩
      exact ⟨hx, fun hin => hout ⟨hxc, hin⟩⟩

theorem Sfe.Sound.flushConnection (h : s.Sound all) (i : Nat) (now : BitVec 64) :
    (s.flushConnection i now).Sound all := by
  rw [Sfe.flushConnection]
  split
  · exact h
  · next c reason hi =>
    dsimp only
    split <;> exact h.release hi rfl rfl rfl

theorem Sfe.Sound.syncNext (h : s.Sound all) (now : BitVec 64) : (s.syncNext now).Sound all := by
  rw [Sfe.syncNext]
  split
  · exact h
  split
  · exact h.quiet ⟨rfl, rfl, rfl, rfl, rfl, rfl⟩
  · next cm hhead => exact h.table (h.inv.syncActive hhead).2 rfl rfl

theorem Sfe.Sound.step (h : s.Sound all) (a : Step) : ∃ all', (s.step a).Sound all' := by
  cases a with
  | create r memory now => exact h.createRule r memory now
  | update r =>
    refine ⟨all, h.quiet ?_⟩
    rw [Sfe.step, Sfe.updateRule]
    split
    · exact Quiet.refl s
    · exact quiet_updateProtocolState s _ r
  | setMark protocol t mark =>
    refine ⟨all, h.quiet ?_⟩
    rw [Sfe.step, Sfe.markRule]
    split
    · exact Quiet.refl s
    · exact ⟨rfl, rfl, rfl, rfl, rfl, rfl⟩
  | destroy protocol t =>
    rw [Sfe.step, Sfe.destroyRule]
    have h := h.quiet (quiet_bump s .connectionDestroyRequests)
    split
    · exact ⟨all, h.quiet (quiet_bump _ _)⟩
    · next c hfind => exact h.takeOut (h.findConnection hfind).1 .destroy
  | destroyForDev dev =>
    rw [Sfe.step, Sfe.destroyForDev]
    split
    · exact ⟨all, h⟩
    · next c hfind => exact h.takeOut (h.findAll hfind).1 .destroy
  | flush i now => exact ⟨all, h.flushConnection i now⟩
  | recv dev p => exact h.recv dev p
  | syncBegin =>
    refine ⟨all, ?_⟩
    rw [Sfe.step, Sfe.syncBegin]
    split
    · exact h.quiet ⟨rfl, rfl, rfl, rfl, rfl, rfl⟩
    · exact h
  | syncNext now => exact ⟨all, h.syncNext now⟩
  | debugReadStart => exact ⟨all, h.quiet ⟨rfl, rfl, rfl, rfl, rfl, rfl⟩⟩
  | debugReadConnection =>
    refine ⟨all, ?_⟩
    rw [Sfe.step, Sfe.debugReadConnection]
    split
    · exact h
    · exact h.table h.inv rfl rfl
  | registerCallback callback => exact ⟨all, h.table h.inv rfl rfl⟩

theorem Sfe.Sound.run (h : s.Sound all) (steps : List Step) : ∃ all', (s.run steps).Sound all' := by
  induction steps generalizing s all with
  | nil => exact ⟨all, h⟩
  | cons a steps ih =>
    obtain ⟨all', h'⟩ := h.step a
    exact ih h'

theorem isList_nil (l : Links Nat) : IsList l [] := ⟨List.nodup_nil, trivial⟩

theorem Sfe.Initial.sound (h : s.Initial) : s.Sound [] := by
  have hnone (m : Nat) : ¬ s.IsMatch [] m := fun ⟨c, hc, _⟩ => absurd hc List.not_mem_nil
  refine ⟨⟨⟨fun _ => [], [], ?_⟩, ⟨fun _ => [], ?_⟩, ?_, ?_, ?_, ?_⟩, ?_, ?_, ?_, ?_⟩
  · refine ⟨⟨fun _ => isList_nil _, h.matchHash, ?_⟩, ?_, isList_nil _, h.activeHead, h.activeTail, ?_, ?_⟩
    · exact fun i j m hm => absurd hm List.not_mem_nil
    · exact fun i m => iff_of_false List.not_mem_nil fun hm => hnone m hm.1
    · exact fun m => iff_of_false List.not_mem_nil fun hm => hnone m hm.1
    · exact fun m hm => absurd hm (hnone m)
  · refine ⟨⟨fun _ => isList_nil _, h.connHash, ?_⟩, ?_, isList_nil _, h.allHead, h.allTail, h.numConnections⟩
    · exact fun i j c hc => absurd hc List.not_mem_nil
    · exact fun i c => iff_of_false List.not_mem_nil fun hc => absurd hc.1 List.not_mem_nil
  all_goals simp [h.live, h.pending]

/-- After every run the table is as it should be, and holds the connections that are allocated and do not
wait to be flushed. -/
theorem run_table (h : s.Initial) (steps : List Step) :
    ∃ all, Inv (s.run steps).toTable (s.run steps).live all ∧
      ∀ c, c ∈ all ↔ c ∈ (s.run steps).live ∧ c ∉ (s.run steps).pending.map Prod.fst := by
  obtain ⟨all, hsound⟩ := h.sound.run steps
  exact ⟨all, hsound.inv, hsound.mem_all⟩

end Sound

/-! ### What was written once stays -/

/-- The objects allocated so far keep what was written into them. -/
structure Keeps (t t' : Table) : Prop where
  fresh : t.fresh ≤ t'.fresh
  conn : ∀ c < t.fresh, t'.conn c = t.conn c
  info : ∀ m < t.fresh, t'.info m = t.info m

theorem Keeps.refl (t : Table) : Keeps t t := ⟨le_rfl, fun _ _ => rfl, fun _ _ => rfl⟩

theorem Keeps.trans {t t' t'' : Table} (h : Keeps t t') (h' : Keeps t' t'') : Keeps t t'' := by
  refine ⟨h.fresh.trans h'.fresh, fun c hc => ?_, fun m hm => ?_⟩
  · rw [h'.conn c (hc.trans_le h.fresh), h.conn c hc]
  · rw [h'.info m (hm.trans_le h.fresh), h.info m hm]

theorem Keeps.of_eq {t t' : Table} (hconn : t'.conn = t.conn) (hinfo : t'.info = t.info)
    (hfresh : t'.fresh = t.fresh) : Keeps t t' :=
  ⟨hfresh.ge, fun _ _ => by rw [hconn], fun _ _ => by rw [hinfo]⟩

theorem SameConns.keeps {t t' : Table} (h : SameConns t t') : Keeps t t' := Keeps.of_eq h.conn h.info h.fresh

theorem Quiet.keeps {s s' : Sfe} (h : Quiet s s') : Keeps s.toTable s'.toTable := by
  rw [h.toTable]
  exact Keeps.refl _

theorem keeps_takeOut (s : Sfe) (c : Nat) (reason : Reason) : Keeps s.toTable (s.takeOut c reason).toTable := by
  have hsame := (sameConns_removeConnectionMatch s.toTable (s.conn c).replyMatch).trans
    (sameConns_removeConnectionMatch _ (s.conn c).originalMatch)
  exact Keeps.of_eq hsame.conn hsame.info hsame.fresh

theorem keeps_createRule (s : Sfe) (r : Rule) (memory : Bool) (now : BitVec 64) :
    Keeps s.toTable (s.createRule r memory now).1.toTable := by
  rw [Sfe.createRule]
  split
  · exact Keeps.refl _
  dsimp only
  split
  · next c hfind =>
    exact (quiet_updateProtocolState
      ((s.bump .connectionCreateRequests).bump .connectionCreateCollisions) c r).keeps
  · split
    · refine ⟨Nat.le_add_right _ 3, fun c hc => ?_, fun m hm => ?_⟩
      · have hc : c ≠ s.fresh := hc.ne
        exact Function.update_of_ne hc _ _
      · have h₁ : m ≠ s.fresh + 1 := by omega
        have h₂ : m ≠ s.fresh + 2 := by omega
        exact (Function.update_of_ne h₂ _ _).trans (Function.update_of_ne h₁ _ _)
    · exact Keeps.refl _

theorem keeps_recv (s : Sfe) (dev : Dev) (p : Packet) : Keeps s.toTable (s.recv dev p).1.toTable := by
  cases hrecv : s.recv dev p with
  | mk s' received =>
    have houtcome := recv_outcome s dev p
    rw [hrecv] at houtcome
    cases houtcome with
    | ignored hquiet => exact hquiet.keeps
    | found k hquiet => exact (sameConns_findConnectionMatch s k).keeps.trans hquiet.keeps
    | flushed k hfind hquiet =>
      exact ((sameConns_findConnectionMatch s k).keeps.trans (keeps_takeOut _ _ _)).trans hquiet.keeps
    | forwarded udp mark hfind hlen hquiet =>
      exact ((sameConns_findConnectionMatch s _).trans (sameConns_activate _ _)).keeps.trans hquiet.keeps

theorem keeps_step (s : Sfe) (a : Step) : Keeps s.toTable (s.step a).toTable := by
  cases a with
  | create r memory now => exact keeps_createRule s r memory now
  | update r =>
    rw [Sfe.step, Sfe.updateRule]
    split
    · exact Keeps.refl _
    · exact (quiet_updateProtocolState s _ r).keeps
  | setMark protocol t mark =>
    rw [Sfe.step, Sfe.markRule]
    split <;> exact Keeps.refl _
  | destroy protocol t =>
    rw [Sfe.step, Sfe.destroyRule]
    split
    · exact Keeps.refl _
    · exact keeps_takeOut (s.bump .connectionDestroyRequests) _ .destroy
  | destroyForDev dev =>
    rw [Sfe.step, Sfe.destroyForDev]
    split
    · exact Keeps.refl _
    · exact keeps_takeOut s _ .destroy
  | flush i now =>
    rw [Sfe.step, Sfe.flushConnection]
    split
    · exact Keeps.refl _
    · dsimp only
      split <;> exact Keeps.refl _
  | recv dev p => exact keeps_recv s dev p
  | syncBegin =>
    rw [Sfe.step, Sfe.syncBegin]
    split <;> exact Keeps.refl _
  | syncNext now =>
    rw [Sfe.step, Sfe.syncNext]
    split
    · exact Keeps.refl _
    split
    · exact Keeps.refl _
    · exact ((sameConns_dropCounter s.toTable _).trans (sameConns_dropHead _ _)).keeps
  | debugReadStart => exact Keeps.refl _
  | debugReadConnection =>
    rw [Sfe.step, Sfe.debugReadConnection]
    split <;> exact Keeps.refl _
  | registerCallback callback => exact Keeps.refl _

theorem keeps_run (s : Sfe) (steps : List Step) : Keeps s.toTable (s.run steps).toTable := by
  induction steps generalizing s with
  | nil => exact Keeps.refl _
  | cons a steps ih => exact (keeps_step s a).trans (ih _)

/-! ### The two sides of a connection -/

/-- The match of one direction of a connection. -/
def Conn.side (c : Conn) (reply : Bool) : Nat := if reply then c.replyMatch else c.originalMatch

/-- The connection is allocated and does not wait to be flushed. -/
def Sfe.InTable (s : Sfe) (c : Nat) : Prop := c ∈ s.live ∧ c ∉ s.pending.map Prod.fst

theorem Table.IsMatch.side {t : Table} {all : List Nat} {m : Nat} (h : t.IsMatch all m) :
    ∃ c ∈ all, ∃ reply, m = (t.conn c).side reply := by
  obtain ⟨c, hc, rfl | rfl⟩ := h
  · exact ⟨c, hc, false, rfl⟩
  · exact ⟨c, hc, true, rfl⟩

theorem Conn.isMatch_side {t : Table} {all : List Nat} {c : Nat} (hc : c ∈ all) (reply : Bool) :
    t.IsMatch all ((t.conn c).side reply) := by
  cases reply with
  | false => exact ⟨c, hc, Or.inl rfl⟩
  | true => exact ⟨c, hc, Or.inr rfl⟩

theorem Inv.side_lt {t : Table} {live all : List Nat} (h : Inv t live all) {c : Nat} (hc : c ∈ live)
    (reply : Bool) : (t.conn c).side reply < t.fresh := by
  cases reply with
  | false => exact (h.bound c hc).2.1
  | true => exact (h.bound c hc).2.2

/-- What a rule that is accepted leaves behind. -/
theorem createRule_ok {s s' : Sfe} {r : Rule} {memory : Bool} {now : BitVec 64} {c : Nat}
    (h : s.createRule r memory now = (s', .ok c)) :
    c = s.fresh ∧ s'.live = c :: s.live ∧ s'.delivered = s.delivered ∧
      ∀ reply, s'.rx ((s'.conn c).side reply) = ⟨0, 0, 0, 0⟩ := by
  rw [Sfe.createRule] at h
  split at h
  · simp at h
  dsimp only at h
  split at h
  · simp at h
  split at h
  · obtain ⟨rfl, hc⟩ := Prod.mk.inj h
    obtain rfl := Created.ok.inj hc
    refine ⟨rfl, rfl, rfl, fun reply => ?_⟩
    change Function.update (Function.update s.rx (s.fresh + 1) ⟨0, 0, 0, 0⟩) (s.fresh + 2) ⟨0, 0, 0, 0⟩
      ((Function.update s.conn s.fresh (r.conn (s.fresh + 1) (s.fresh + 2)) s.fresh).side reply) = _
    rw [Function.update_self]
    cases reply with
    | false => exact (Function.update_of_ne (Nat.succ_ne_self _).symm _ _).trans (Function.update_self _ _ _)
    | true => exact Function.update_self _ _ _
  · simp at h

/-! ### A rule and its packets -/

/-- A UDP flow from a host of the local network, whose address and port are translated on the way out. -/
def masquerade : Rule :=
  { protocol := 17
    srcDev := { dev := 1, registered := true, pointToPoint := false, ethHeader := true, addr := 0xa0 }
    destDev := { dev := 2, registered := true, pointToPoint := false, ethHeader := true, addr := 0xb0 }
    remarkPriority := false
    remarkDscp := false
    noSeqCheck := false
    srcMtu := 1500
    destMtu := 1500
    tuple := { srcIp := 0x0201a8c0, srcPort := 0xe803, destIp := 0x08080808, destPort := 0x3500 }
    xlate := { srcIp := 0x04030201, srcPort := 0x409c, destIp := 0x08080808, destPort := 0x3500 }
    srcMac := 0xa1
    destMacXlate := 0xb1
    srcTd := { winScale := 0, maxWin := 0, endSeq := 0, maxEnd := 0, noSeqCheck := false }
    destTd := { winScale := 0, maxWin := 0, endSeq := 0, maxEnd := 0, noSeqCheck := false }
    mark := 0
    originalAccel := true
    replyAccel := true
    srcPriority := 0
    destPriority := 0
    srcDscp := 0
    destDscp := 0 }

/-- A UDP packet of 40 bytes. -/
def udpPacket (t : Tuple) : Packet :=
  { len := 40
    pulled := 40
    ip :=
      { ihl := 5
        version := 4
        tos := 0
        totLen := 0x2800
        id := 0
        fragOff := 0
        ttl := 64
        protocol := ipprotoUdp
        check := 0
        saddr := t.srcIp
        daddr := t.destIp }
    source := t.srcPort
    dest := t.destPort
    check := 0
    tcp :=
      { seq := 0
        ackSeq := 0
        doff := 0
        syn := false
        rst := false
        fin := false
        ack := false
        window := 0
        bytes := fun _ => 0 }
    icmp :=
      { type := 0
        ihl := 0
        version := 0
        protocol := 0
        saddr := 0
        daddr := 0
        source := 0
        dest := 0 }
    checksumPartial := false
    gso := false
    cloned := false
    unshareFails := false }

/-- The rule is accepted, and a packet of the flow arrives. -/
def masqueraded : List Step := [.create masquerade true 0, .recv 1 (udpPacket masquerade.tuple)]

/-- The connection of the rule is in the table, and one of its matches is active. -/
theorem run_table_masqueraded :
    (((Sfe.zeroed true).run masqueraded).live = [0] ∧ ((Sfe.zeroed true).run masqueraded).activeHead = some 1) ∧
    ∃ all, Inv ((Sfe.zeroed true).run masqueraded).toTable ((Sfe.zeroed true).run masqueraded).live all ∧
      ∀ c, c ∈ all ↔ c ∈ ((Sfe.zeroed true).run masqueraded).live ∧
        c ∉ ((Sfe.zeroed true).run masqueraded).pending.map Prod.fst :=
  ⟨by decide +kernel, run_table (Sfe.initial_zeroed true) masqueraded⟩

end Immwrt.Sfe
