import Mathlib.Algebra.BigOperators.Group.List.Basic
import Mathlib.Algebra.Group.Prod
import Immwrt.Sfe.Proof.Steps

/-!
# Traffic accounting

Every match counts the packets and bytes it forwards since its connection was last synced, and a sync hands
the counts to the callback. What was handed over, what is still counted and what a read of the debug
device folded away in between add up to what was forwarded. The callback thus learns of all the traffic of
a connection exactly when no read of the debug device met counts that were not yet handed over.
-/

namespace Immwrt.Sfe

/-! ### What is counted -/

/-- Packets and bytes. -/
abbrev Traffic := Nat × Nat

def Rx.traffic (rx : Rx) : Traffic := (rx.packetCount.toNat, rx.byteCount.toNat)

/-- The new traffic of one direction that a sync reports. -/
def Sync.traffic (sis : Sync) : Bool → Traffic
  | false => (sis.srcNewPacketCount.toNat, sis.srcNewByteCount.toNat)
  | true => (sis.destNewPacketCount.toNat, sis.destNewByteCount.toNat)

/-- What the callback was given for a connection. -/
def Sfe.syncs (s : Sfe) (c : Nat) : List Sync := (s.delivered.filter fun x => x.1 = c).map Prod.snd

/-- The traffic of one direction of a connection that the callback was told of. -/
def Sfe.reported (s : Sfe) (c : Nat) (reply : Bool) : Traffic :=
  ((s.syncs c).map fun sis => sis.traffic reply).sum

/-- The packet that the match `m` forwards in a step, if it does. -/
def Sfe.forwards (s : Sfe) (m : Nat) : Step → Traffic
  | .recv dev p =>
      if (s.recv dev p).2.isSome ∧ (s.findConnectionMatch (p.key dev)).2 = some m then (1, p.len) else 0
  | _ => 0

/-- The traffic that the match `m` forwards along a run. -/
def Sfe.forwarded (s : Sfe) (m : Nat) : List Step → Traffic
  | [] => 0
  | a :: steps => s.forwards m a + (s.step a).forwarded m steps

/-- The counts of one direction of a connection that a step folds away without handing them over. -/
def Sfe.folds (s : Sfe) (c : Nat) (reply : Bool) : Step → Traffic
  | .debugReadConnection =>
      if s.debugNext = some c then (s.rx ((s.conn c).side reply)).traffic else 0
  | _ => 0

def Sfe.folded (s : Sfe) (c : Nat) (reply : Bool) : List Step → Traffic
  | [] => 0
  | a :: steps => s.folds c reply a + (s.step a).folded c reply steps

/-- Each direction of the connection forwards fewer than `2 ^ 32` bytes while the connection is not
synced. -/
def Sfe.Fits (s : Sfe) (c : Nat) (steps : List Step) : Prop :=
  ∀ before between afterwards, steps = before ++ between ++ afterwards →
    (s.run (before ++ between)).syncs c = (s.run before).syncs c →
    ∀ reply, ((s.run before).forwarded ((s.conn c).side reply) between).2 < 2 ^ 32

/-! ### What a step does to the counts -/

/-- The counts of both matches of a connection are folded away. -/
structure Cleared (s s' : Sfe) (c : Nat) : Prop where
  cleared : ∀ reply, (s'.rx ((s.conn c).side reply)).traffic = 0
  others : ∀ m, (∀ reply, m ≠ (s.conn c).side reply) → s'.rx m = s.rx m

theorem Rx.traffic_updateSummaryStats (rx : Rx) : rx.updateSummaryStats.traffic = 0 := rfl

theorem traffic_updateMatchStats (s : Sfe) (cm m : Nat) (h : m = cm ∨ (s.rx m).traffic = 0) :
    ((s.updateMatchStats cm).rx m).traffic = 0 := by
  rw [Sfe.updateMatchStats]
  by_cases hm : m = cm
  · subst hm
    dsimp only
    rw [Function.update_self, Rx.traffic_updateSummaryStats]
  · dsimp only
    rw [Function.update_of_ne hm]
    exact h.resolve_left hm

theorem cleared_updateMatchStats (s : Sfe) (c : Nat) :
    Cleared s ((s.updateMatchStats (s.conn c).originalMatch).updateMatchStats (s.conn c).replyMatch) c := by
  constructor
  · intro reply
    apply traffic_updateMatchStats
    cases reply with
    | false => exact Or.inr (traffic_updateMatchStats _ _ _ (Or.inl rfl))
    | true => exact Or.inl rfl
  · intro m hm
    exact (Function.update_of_ne (hm true) _ _).trans (Function.update_of_ne (hm false) _ _)

/-- The counts of the objects allocated before stay, and nothing is handed over. -/
structure Still (s s' : Sfe) : Prop where
  rx : ∀ m < s.fresh, s'.rx m = s.rx m
  delivered : s'.delivered = s.delivered
  live : ∀ c < s.fresh, c ∈ s'.live ↔ c ∈ s.live

theorem Still.of_eq {s s' : Sfe} (hrx : s'.rx = s.rx) (hdelivered : s'.delivered = s.delivered)
    (hlive : s'.live = s.live) : Still s s' :=
  ⟨fun _ _ => by rw [hrx], hdelivered, fun _ _ => by rw [hlive]⟩

theorem Quiet.still {s s' : Sfe} (h : Quiet s s') : Still s s' := Still.of_eq h.rx h.delivered h.live

inductive Effect (s s' : Sfe) (a : Step) : Prop where
  | idle (hforwards : ∀ m, s.forwards m a = 0) (hfolds : ∀ c reply, s.folds c reply a = 0)
      (hstill : Still s s')
  | forward (m len : Nat) (hm : (s.info m).connection ∈ s.live) (hlen : 1 ≤ len)
      (hforwards : ∀ m', s.forwards m' a = if m' = m then (1, len) else 0)
      (hfolds : ∀ c reply, s.folds c reply a = 0)
      (hrx : s'.rx = Function.update s.rx m ((s.rx m).receive len)) (hdelivered : s'.delivered = s.delivered)
      (hlive : s'.live = s.live)
  | sync (c : Nat) (sis : Sync) (hc : c ∈ s.live) (hforwards : ∀ m, s.forwards m a = 0)
      (hfolds : ∀ c reply, s.folds c reply a = 0)
      (hcleared : Cleared s s' c) (hsis : ∀ reply, sis.traffic reply = (s.rx ((s.conn c).side reply)).traffic)
      (hdelivered : s'.delivered = s.delivered ++ [(c, sis)])
      (hlive : ∀ x, x ≠ c → (x ∈ s'.live ↔ x ∈ s.live))
  | read (c : Nat) (hc : c ∈ s.live) (hforwards : ∀ m, s.forwards m a = 0)
      (hfolds : ∀ x reply, s.folds x reply a = if x = c then (s.rx ((s.conn c).side reply)).traffic else 0)
      (hcleared : Cleared s s' c) (hdelivered : s'.delivered = s.delivered) (hlive : s'.live = s.live)
  | release (hcallback : s.callback = false) (hdelivered : s'.delivered = s.delivered)

section Effect

variable {s : Sfe} {all : List Nat}

/-- A sync, after changes that leave the connections and the counts alone. -/
theorem Effect.of_deliver {s' : Sfe} (s₁ : Sfe) {a : Step} {c : Nat} {reason : Reason} {now : BitVec 64}
    (hforwards : ∀ m, s.forwards m a = 0) (hfolds : ∀ c reply, s.folds c reply a = 0) (hc : c ∈ s.live)
    (hconn : s₁.conn = s.conn) (hrx : s₁.rx = s.rx) (hdelivered : s₁.delivered = s.delivered)
    (hrx' : s'.rx = (s₁.deliver c reason now).rx)
    (hdelivered' : s'.delivered = (s₁.deliver c reason now).delivered)
    (hlive : ∀ x, x ≠ c → (x ∈ s'.live ↔ x ∈ s.live)) : Effect s s' a := by
  refine .sync c (s₁.genSync c reason now).2 hc hforwards hfolds ⟨?_, ?_⟩ ?_ ?_ hlive
  · intro reply
    rw [hrx', ← hconn]
    exact (cleared_updateMatchStats s₁ c).cleared reply
  · intro m hm
    rw [← hconn] at hm
    rw [hrx', ← hrx]
    exact (cleared_updateMatchStats s₁ c).others m hm
  · intro reply
    rw [← hrx, ← hconn]
    cases reply <;> rfl
  · rw [hdelivered', ← hdelivered]
    rfl

theorem Sfe.Sound.recv_effect (h : s.Sound all) (dev : Dev) (p : Packet) :
    Effect s (s.recv dev p).1 (.recv dev p) := by
  have hfolds (c : Nat) (reply : Bool) : s.folds c reply (.recv dev p) = 0 := rfl
  have hforwards (m : Nat) : s.forwards m (.recv dev p) =
      if (s.recv dev p).2.isSome ∧ (s.findConnectionMatch (p.key dev)).2 = some m then (1, p.len) else 0 := rfl
  have houtcome := recv_outcome s dev p
  generalize s.recv dev p = result at houtcome hforwards
  have hnone (m : Nat) (hresult : result.2 = none) : s.forwards m (.recv dev p) = 0 := by
    rw [hforwards, hresult, if_neg (by simp)]
  cases houtcome with
  | ignored hquiet => exact .idle (fun m => hnone m rfl) hfolds hquiet.still
  | found k hquiet =>
    obtain ⟨count, heq⟩ := findConnectionMatch_eq s k
    rw [heq] at hquiet
    exact .idle (fun m => hnone m rfl) hfolds (Still.of_eq hquiet.rx hquiet.delivered hquiet.live)
  | flushed k hfind hquiet =>
    obtain ⟨count, heq⟩ := findConnectionMatch_eq s k
    rw [heq] at hquiet
    exact .idle (fun m => hnone m rfl) hfolds (Still.of_eq hquiet.rx hquiet.delivered hquiet.live)
  | @forwarded s' cm udp mark hfind hlen hquiet =>
    have hconnection := h.inv.sub _ (h.found hfind).2
    rw [(sameConns_findConnectionMatch s _).info] at hconnection
    obtain ⟨count, heq⟩ := findConnectionMatch_eq s (p.key dev)
    rw [heq] at hquiet
    refine .forward cm p.len hconnection (by omega) (fun m => ?_) hfolds hquiet.rx hquiet.delivered hquiet.live
    rw [hforwards, hfind]
    simp [eq_comm]

theorem createRule_still (s : Sfe) (r : Rule) (memory : Bool) (now : BitVec 64) :
    Still s (s.createRule r memory now).1 := by
  rw [Sfe.createRule]
  split
  · exact Still.of_eq rfl rfl rfl
  dsimp only
  split
  · next c hfind =>
    have hquiet := quiet_updateProtocolState
      ((s.bump .connectionCreateRequests).bump .connectionCreateCollisions) c r
    exact Still.of_eq hquiet.rx hquiet.delivered hquiet.live
  split
  · refine ⟨fun m hm => ?_, rfl, fun c hc => ?_⟩
    · have h₁ : m ≠ s.fresh + 1 := by omega
      have h₂ : m ≠ s.fresh + 2 := by omega
      exact (Function.update_of_ne h₂ _ _).trans (Function.update_of_ne h₁ _ _)
    · exact List.mem_cons.trans (or_iff_right hc.ne)
  · exact Still.of_eq rfl rfl rfl

theorem Sfe.Sound.flush_effect (h : s.Sound all) (i : Nat) (now : BitVec 64) :
    Effect s (s.flushConnection i now) (.flush i now) := by
  have hforwards (m : Nat) : s.forwards m (.flush i now) = 0 := rfl
  have hfolds (c : Nat) (reply : Bool) : s.folds c reply (.flush i now) = 0 := rfl
  rw [Sfe.flushConnection]
  split
  · exact .idle hforwards hfolds (Still.of_eq rfl rfl rfl)
  · next c reason hi =>
    have hc : c ∈ s.live := h.pending_sub c (List.mem_map.mpr ⟨_, List.mem_of_getElem? hi, rfl⟩)
    dsimp only
    split
    case isFalse hcallback => exact .release (eq_false_of_ne_true hcallback) rfl
    refine Effect.of_deliver ({ s with pending := s.pending.eraseIdx i }.bump .connectionFlushes) hforwards
      hfolds hc rfl rfl rfl rfl rfl fun x hx => ?_
    exact List.mem_erase_of_ne hx

theorem Sfe.Sound.effect (h : s.Sound all) (a : Step) : Effect s (s.step a) a := by
  cases a with
  | create r memory now => exact .idle (fun _ => rfl) (fun _ _ => rfl) (createRule_still s r memory now)
  | update r =>
    refine .idle (fun _ => rfl) (fun _ _ => rfl) ?_
    rw [Sfe.step, Sfe.updateRule]
    split
    · exact Still.of_eq rfl rfl rfl
    · exact (quiet_updateProtocolState s _ r).still
  | setMark protocol t mark =>
    refine .idle (fun _ => rfl) (fun _ _ => rfl) ?_
    rw [Sfe.step, Sfe.markRule]
    split <;> exact Still.of_eq rfl rfl rfl
  | destroy protocol t =>
    refine .idle (fun _ => rfl) (fun _ _ => rfl) ?_
    rw [Sfe.step, Sfe.destroyRule]
    split <;> exact Still.of_eq rfl rfl rfl
  | destroyForDev dev =>
    refine .idle (fun _ => rfl) (fun _ _ => rfl) ?_
    rw [Sfe.step, Sfe.destroyForDev]
    split <;> exact Still.of_eq rfl rfl rfl
  | flush i now => exact h.flush_effect i now
  | recv dev p => exact h.recv_effect dev p
  | syncBegin =>
    refine .idle (fun _ => rfl) (fun _ _ => rfl) ?_
    rw [Sfe.step, Sfe.syncBegin]
    split <;> exact Still.of_eq rfl rfl rfl
  | syncNext now =>
    have hforwards (m : Nat) : s.forwards m (.syncNext now) = 0 := rfl
    have hfolds (c : Nat) (reply : Bool) : s.folds c reply (.syncNext now) = 0 := rfl
    rw [Sfe.step, Sfe.syncNext]
    split
    · exact .idle hforwards hfolds (Still.of_eq rfl rfl rfl)
    split
    · exact .idle hforwards hfolds (Still.of_eq rfl rfl rfl)
    · next cm hhead =>
      have hsame := (sameConns_dropCounter s.toTable (s.info cm).counterMatch).trans (sameConns_dropHead _ cm)
      have hc := h.inv.sub _ (h.inv.connection_mem (h.inv.syncActive hhead).1)
      dsimp only
      rw [hsame.info]
      exact Effect.of_deliver
        { s with
          quota := s.quota - 1
          toTable := (s.dropCounter (s.info cm).counterMatch).dropHead cm }
        hforwards hfolds hc hsame.conn rfl rfl rfl rfl fun x _ => Iff.rfl
  | debugReadStart => exact .idle (fun _ => rfl) (fun _ _ => rfl) (Still.of_eq rfl rfl rfl)
  | debugReadConnection =>
    have hforwards (m : Nat) : s.forwards m .debugReadConnection = 0 := rfl
    have hfolds (x : Nat) (reply : Bool) : s.folds x reply .debugReadConnection =
      if s.debugNext = some x then (s.rx ((s.conn x).side reply)).traffic else 0 := rfl
    rw [Sfe.step, Sfe.debugReadConnection]
    split
    · next hnext =>
      refine .idle hforwards (fun x reply => ?_) (Still.of_eq rfl rfl rfl)
      rw [hfolds, hnext, if_neg (by simp)]
    · next c hnext =>
      have hc := h.inv.sub c (h.findAll hnext).1
      refine .read c hc hforwards (fun x reply => ?_) ⟨?_, ?_⟩ rfl rfl
      · rw [hfolds, hnext]
        by_cases hx : x = c
        · subst hx
          simp
        · rw [if_neg hx, if_neg (by simpa using Ne.symm hx)]
      · exact (cleared_updateMatchStats _ c).cleared
      · exact (cleared_updateMatchStats _ c).others
  | registerCallback callback => exact .idle (fun _ => rfl) (fun _ _ => rfl) (Still.of_eq rfl rfl rfl)

end Effect

/-! ### What a step does to one connection -/

/-- The connection was allocated at some time, and its matches are its own. -/
structure Known (s : Sfe) (c : Nat) : Prop where
  lt : c < s.fresh
  side_lt : ∀ reply, (s.conn c).side reply < s.fresh
  connection : ∀ reply, (s.info ((s.conn c).side reply)).connection = c

theorem Sfe.Sound.known {s : Sfe} {all : List Nat} (h : s.Sound all) {c : Nat} (hc : c ∈ s.live) : Known s c := by
  refine ⟨(h.inv.bound c hc).1, h.inv.side_lt hc, fun reply => h.inv.owner hc ?_⟩
  cases reply with
  | false => exact Or.inl rfl
  | true => exact Or.inr rfl

theorem Known.keeps {s s' : Sfe} {c : Nat} (h : Known s c) (hkeeps : Keeps s.toTable s'.toTable) :
    Known s' c := by
  have hconn := hkeeps.conn c h.lt
  refine ⟨h.lt.trans_le hkeeps.fresh, fun reply => ?_, fun reply => ?_⟩
  · rw [hconn]
    exact (h.side_lt reply).trans_le hkeeps.fresh
  · rw [hconn, hkeeps.info _ (h.side_lt reply)]
    exact h.connection reply

/-- The traffic of one direction of a connection that is counted and not yet handed over. -/
def Sfe.counted (s : Sfe) (c : Nat) (reply : Bool) : Traffic :=
  if c ∈ s.live then (s.rx ((s.conn c).side reply)).traffic else 0

inductive Seen (s s' : Sfe) (a : Step) (c : Nat) : Prop where
  | kept (hsyncs : s'.syncs c = s.syncs c)
      (hcounted : ∀ reply, s'.counted c reply + s.folds c reply a =
        s.counted c reply + s.forwards ((s.conn c).side reply) a)
  | handedOver (hreported : ∀ reply, s'.reported c reply = s.reported c reply + s.counted c reply)
      (hcounted : ∀ reply, s'.counted c reply = 0) (hfolds : ∀ reply, s.folds c reply a = 0)
      (hforwards : ∀ reply, s.forwards ((s.conn c).side reply) a = 0)

theorem Rx.traffic_receive {rx : Rx} {len : Nat} (hpackets : (rx.traffic + (1, len)).1 < 2 ^ 32)
    (hbytes : (rx.traffic + (1, len)).2 < 2 ^ 32) : (rx.receive len).traffic = rx.traffic + (1, len) := by
  simp only [Rx.traffic, Prod.mk_add_mk] at hpackets hbytes
  have hlen : len < 2 ^ 32 := by omega
  simp only [Rx.receive, Rx.traffic, Prod.mk_add_mk, Prod.mk.injEq]
  constructor
  · rw [BitVec.toNat_add_of_lt (by simpa using hpackets)]
    rfl
  · have hofNat : (BitVec.ofNat 32 len).toNat = len := by
      rw [BitVec.toNat_ofNat, Nat.mod_eq_of_lt hlen]
    rw [BitVec.toNat_add_of_lt (by rwa [hofNat]), hofNat]

section Seen

variable {s s' : Sfe} {a : Step} {c : Nat}

theorem syncs_append_self {sis : Sync} (h : s'.delivered = s.delivered ++ [(c, sis)]) :
    s'.syncs c = s.syncs c ++ [sis] := by
  simp [Sfe.syncs, h]

theorem syncs_append_of_ne {x : Nat} {sis : Sync} (h : s'.delivered = s.delivered ++ [(x, sis)]) (hx : x ≠ c) :
    s'.syncs c = s.syncs c := by
  simp [Sfe.syncs, h, hx]

theorem syncs_congr (h : s'.delivered = s.delivered) : s'.syncs c = s.syncs c := by
  rw [Sfe.syncs, Sfe.syncs, h]

/-- A match of one connection is none of another. -/
theorem Known.side_ne {x : Nat} (h : Known s c) (hx : Known s x) (hne : x ≠ c) (reply reply' : Bool) :
    (s.conn c).side reply ≠ (s.conn x).side reply' := by
  intro heq
  have hconnection := hx.connection reply'
  rw [← heq, h.connection reply] at hconnection
  exact hne hconnection.symm

/-- The counts of a connection other than the one that is cleared stay. -/
theorem Known.counted_of_ne {x : Nat} (h : Known s c) (hx : Known s x) (hne : x ≠ c)
    (hconn : s'.conn c = s.conn c) (hcleared : Cleared s s' x) (hlive : c ∈ s'.live ↔ c ∈ s.live) (reply : Bool) :
    s'.counted c reply = s.counted c reply := by
  rw [Sfe.counted, Sfe.counted, hconn, hcleared.others _ fun reply' => h.side_ne hx hne reply reply']
  simp only [hlive]

theorem Cleared.counted (h : Cleared s s' c) (hconn : s'.conn c = s.conn c) (reply : Bool) :
    s'.counted c reply = 0 := by
  rw [Sfe.counted, hconn, h.cleared reply, ite_self]

theorem Effect.seen (h : Effect s s' a) (hcallback : s.callback = true) (hknown : Known s c) (howns : ∀ x ∈ s.live, Known s x)
    (hconn : s'.conn c = s.conn c)
    (hfits : s'.syncs c = s.syncs c → ∀ reply,
      (s.counted c reply + s.forwards ((s.conn c).side reply) a).1 < 2 ^ 32 ∧
      (s.counted c reply + s.forwards ((s.conn c).side reply) a).2 < 2 ^ 32) : Seen s s' a c := by
  cases h with
  | idle hforwards hfolds hstill =>
    refine .kept (syncs_congr hstill.delivered) fun reply => ?_
    rw [hfolds, hforwards, Sfe.counted, Sfe.counted, hconn, hstill.rx _ (hknown.side_lt reply)]
    simp only [hstill.live c hknown.lt]
  | forward m len hm hlen hforwards hfolds hrx hdelivered hlive =>
    refine .kept (syncs_congr hdelivered) fun reply => ?_
    rw [hfolds, add_zero, hforwards, Sfe.counted, Sfe.counted, hlive, hconn, hrx]
    by_cases hside : (s.conn c).side reply = m
    · have hc : c ∈ s.live := by
        rw [← hside, hknown.connection reply] at hm
        exact hm
      obtain ⟨hpackets, hbytes⟩ := hfits (syncs_congr hdelivered) reply
      rw [hforwards, if_pos hside, Sfe.counted, if_pos hc, hside] at hpackets hbytes
      rw [if_pos hc, if_pos hc, if_pos hside, hside, Function.update_self, Rx.traffic_receive hpackets hbytes]
    · rw [if_neg hside, Function.update_of_ne hside, add_zero]
  | sync x sis hx hforwards hfolds hcleared hsis hdelivered hlive =>
    by_cases hxc : x = c
    · subst hxc
      refine .handedOver (fun reply => ?_) (hcleared.counted hconn) (hfolds x) fun reply => hforwards _
      rw [Sfe.reported, Sfe.reported, syncs_append_self hdelivered, Sfe.counted, if_pos hx, ← hsis reply]
      simp
    · refine .kept (syncs_append_of_ne hdelivered hxc) fun reply => ?_
      rw [hfolds, hforwards, hknown.counted_of_ne (howns x hx) hxc hconn hcleared (hlive c (Ne.symm hxc))]
  | read x hx hforwards hfolds hcleared hdelivered hlive =>
    refine .kept (syncs_congr hdelivered) fun reply => ?_
    rw [hfolds, hforwards]
    by_cases hxc : x = c
    · subst hxc
      rw [if_pos rfl, hcleared.counted hconn, Sfe.counted, if_pos hx, zero_add, add_zero]
    · rw [if_neg (Ne.symm hxc), hknown.counted_of_ne (howns x hx) hxc hconn hcleared (by rw [hlive])]
  | release hoff hdelivered => exact absurd (hcallback.symm.trans hoff) (by decide)

end Seen

/-! ### What a run does -/

theorem run_append (s : Sfe) (steps steps' : List Step) :
    s.run (steps ++ steps') = (s.run steps).run steps' := List.foldl_append

theorem forwarded_append (s : Sfe) (m : Nat) (steps steps' : List Step) :
    s.forwarded m (steps ++ steps') = s.forwarded m steps + (s.run steps).forwarded m steps' := by
  induction steps generalizing s with
  | nil => exact (zero_add _).symm
  | cons a steps ih =>
    rw [List.cons_append, Sfe.forwarded, Sfe.forwarded, ih, add_assoc]
    rfl

theorem folded_append (s : Sfe) (c : Nat) (reply : Bool) (steps steps' : List Step) :
    s.folded c reply (steps ++ steps') = s.folded c reply steps + (s.run steps).folded c reply steps' := by
  induction steps generalizing s with
  | nil => exact (zero_add _).symm
  | cons a steps ih =>
    rw [List.cons_append, Sfe.folded, Sfe.folded, ih, add_assoc]
    rfl

theorem forwarded_singleton (s : Sfe) (m : Nat) (a : Step) : s.forwarded m [a] = s.forwards m a :=
  add_zero _

theorem folded_singleton (s : Sfe) (c : Nat) (reply : Bool) (a : Step) :
    s.folded c reply [a] = s.folds c reply a := add_zero _

/-- A forwarded packet is not empty, so there are no more packets than bytes. -/
theorem forwards_packets_le (s : Sfe) (m : Nat) (a : Step) : (s.forwards m a).1 ≤ (s.forwards m a).2 := by
  cases a with
  | recv dev p =>
    rw [Sfe.forwards]
    split
    · next hsome =>
      have houtcome := recv_outcome s dev p
      generalize s.recv dev p = result at houtcome hsome
      cases houtcome with
      | forwarded udp mark hfind hlen hquiet =>
        change 1 ≤ p.len
        omega
      | _ => simp at hsome
    · exact le_rfl
  | _ => exact le_rfl

theorem forwarded_packets_le (s : Sfe) (m : Nat) (steps : List Step) :
    (s.forwarded m steps).1 ≤ (s.forwarded m steps).2 := by
  induction steps generalizing s with
  | nil => exact le_rfl
  | cons a steps ih => exact Nat.add_le_add (forwards_packets_le s m a) (ih _)

/-- The callback stays, unless it is registered anew. -/
theorem callback_step (s : Sfe) {a : Step} (ha : a ≠ .registerCallback false) (h : s.callback = true) :
    (s.step a).callback = true := by
  cases a with
  | create r memory now =>
    rw [Sfe.step, Sfe.createRule]
    split
    · exact h
    dsimp only
    split
    · exact (quiet_updateProtocolState _ _ r).callback.trans h
    split <;> exact h
  | update r =>
    rw [Sfe.step, Sfe.updateRule]
    split
    · exact h
    · exact (quiet_updateProtocolState s _ r).callback.trans h
  | setMark protocol t mark =>
    rw [Sfe.step, Sfe.markRule]
    split <;> exact h
  | destroy protocol t =>
    rw [Sfe.step, Sfe.destroyRule]
    split <;> exact h
  | destroyForDev dev =>
    rw [Sfe.step, Sfe.destroyForDev]
    split <;> exact h
  | flush i now =>
    rw [Sfe.step, Sfe.flushConnection]
    split
    · exact h
    · dsimp only
      split <;> exact h
  | recv dev p =>
    rw [Sfe.step]
    have houtcome := recv_outcome s dev p
    generalize s.recv dev p = result at houtcome
    have hfind (k : Key) : (s.findConnectionMatch k).1.callback = true := by
      obtain ⟨count, heq⟩ := findConnectionMatch_eq s k
      rw [heq]
      exact h
    cases houtcome with
    | ignored hquiet => exact hquiet.callback.trans h
    | found k hquiet => exact hquiet.callback.trans (hfind k)
    | flushed k hfound hquiet => exact hquiet.callback.trans (hfind k)
    | forwarded udp mark hfound hlen hquiet => exact hquiet.callback.trans (hfind _)
  | syncBegin =>
    rw [Sfe.step, Sfe.syncBegin]
    split <;> exact h
  | syncNext now =>
    rw [Sfe.step, Sfe.syncNext]
    split
    · exact h
    split <;> exact h
  | debugReadStart => exact h
  | debugReadConnection =>
    rw [Sfe.step, Sfe.debugReadConnection]
    split <;> exact h
  | registerCallback callback =>
    cases callback with
    | false => exact absurd rfl ha
    | true => rfl

theorem callback_run {s : Sfe} {steps : List Step} (ha : ∀ a ∈ steps, a ≠ .registerCallback false)
    (h : s.callback = true) : (s.run steps).callback = true := by
  induction steps generalizing s with
  | nil => exact h
  | cons a steps ih =>
    exact ih (fun a' ha' => ha a' (List.mem_cons_of_mem _ ha')) (callback_step s (ha a List.mem_cons_self) h)

/-- Only connections that were allocated are handed over. -/
theorem Sfe.Sound.delivered_lt_step {s : Sfe} {all : List Nat} (h : s.Sound all)
    (hlt : ∀ x ∈ s.delivered, x.1 < s.fresh) (a : Step) : ∀ x ∈ (s.step a).delivered, x.1 < (s.step a).fresh := by
  have hfresh := (keeps_step s a).fresh
  have hsame (hdelivered : (s.step a).delivered = s.delivered) :
      ∀ x ∈ (s.step a).delivered, x.1 < (s.step a).fresh := by
    rw [hdelivered]
    exact fun x hx => (hlt x hx).trans_le hfresh
  cases h.effect a with
  | idle hforwards hfolds hstill => exact hsame hstill.delivered
  | forward m len hm hlen hforwards hfolds hrx hdelivered hlive => exact hsame hdelivered
  | sync c sis hc hforwards hfolds hcleared hsis hdelivered hlive =>
    rw [hdelivered]
    intro x hx
    rcases List.mem_append.mp hx with hx | hx
    · exact (hlt x hx).trans_le hfresh
    · rw [List.mem_singleton.mp hx]
      exact (h.known hc).lt.trans_le hfresh
  | read c hc hforwards hfolds hcleared hdelivered hlive => exact hsame hdelivered
  | release hcallback hdelivered => exact hsame hdelivered

theorem Sfe.Sound.delivered_lt_run {s : Sfe} {all : List Nat} (h : s.Sound all)
    (hlt : ∀ x ∈ s.delivered, x.1 < s.fresh) (steps : List Step) :
    ∀ x ∈ (s.run steps).delivered, x.1 < (s.run steps).fresh := by
  induction steps generalizing s all with
  | nil => exact hlt
  | cons a steps ih =>
    obtain ⟨all', h'⟩ := h.step a
    exact ih h' (h.delivered_lt_step hlt a)

/-! ### The ledger of a connection -/

/-- What was handed over, what is still counted and what was folded away make up what was forwarded, and
what is counted was forwarded since the last sync. -/
structure Ledger (s : Sfe) (c : Nat) (steps : List Step) : Prop where
  balance : ∀ reply, (s.run steps).reported c reply + (s.run steps).counted c reply + s.folded c reply steps =
    s.forwarded ((s.conn c).side reply) steps
  since : ∃ before between, steps = before ++ between ∧ (s.run steps).syncs c = (s.run before).syncs c ∧
    ∀ reply, (s.run steps).counted c reply ≤ (s.run before).forwarded ((s.conn c).side reply) between

theorem Sfe.Fits.left {s : Sfe} {c : Nat} {steps steps' : List Step} (h : s.Fits c (steps ++ steps')) :
    s.Fits c steps := by
  intro before between afterwards hsteps
  refine h before between (afterwards ++ steps') ?_
  rw [hsteps, List.append_assoc]

theorem Ledger.nil {s : Sfe} {c : Nat} (hsyncs : s.syncs c = [])
    (hrx : ∀ reply, s.rx ((s.conn c).side reply) = ⟨0, 0, 0, 0⟩) : Ledger s c [] := by
  have hcounted (reply : Bool) : s.counted c reply = 0 := by
    rw [Sfe.counted, hrx, show (Rx.mk 0 0 0 0).traffic = 0 from rfl, ite_self]
  refine ⟨fun reply => ?_, [], [], rfl, rfl, fun reply => ?_⟩
  · change s.reported c reply + s.counted c reply + 0 = 0
    rw [Sfe.reported, hsyncs, hcounted]
    rfl
  · change s.counted c reply ≤ 0
    exact (hcounted reply).le

theorem Ledger.snoc {s : Sfe} {c : Nat} {steps : List Step} {all : List Nat} {a : Step} (h : Ledger s c steps)
    (hknown : Known s c) (hsound : (s.run steps).Sound all) (hcallback : (s.run steps).callback = true)
    (hfits : s.Fits c (steps ++ [a])) : Ledger s c (steps ++ [a]) := by
  obtain ⟨before, between, hsteps, hsyncs, hcounted⟩ := h.since
  have hkeeps := keeps_run s steps
  have hconn : (s.run steps).conn c = s.conn c := hkeeps.conn c hknown.lt
  have hrun : s.run (steps ++ [a]) = (s.run steps).step a := by
    rw [run_append]
    rfl
  have hknown' := hknown.keeps hkeeps
  have hbetween (reply : Bool) : (s.run before).forwarded ((s.conn c).side reply) (between ++ [a]) =
      (s.run before).forwarded ((s.conn c).side reply) between +
        (s.run steps).forwards ((s.conn c).side reply) a := by
    rw [forwarded_append, forwarded_singleton, ← run_append, ← hsteps]
  have hle (reply : Bool) : (s.run steps).counted c reply + (s.run steps).forwards ((s.conn c).side reply) a ≤
      (s.run before).forwarded ((s.conn c).side reply) (between ++ [a]) := by
    rw [hbetween]
    exact ⟨Nat.add_le_add_right (hcounted reply).1 _, Nat.add_le_add_right (hcounted reply).2 _⟩
  have hseen : Seen (s.run steps) ((s.run steps).step a) a c := by
    refine (hsound.effect a).seen hcallback hknown' (fun x hx => hsound.known hx)
      ((keeps_step _ a).conn c hknown'.lt) fun hsame reply => ?_
    have hlt := hfits before (between ++ [a]) [] (by simp [hsteps])
      (by rw [← List.append_assoc, ← hsteps, hrun, hsame, hsyncs]) reply
    rw [hconn]
    have hpackets := forwarded_packets_le (s.run before) ((s.conn c).side reply) (between ++ [a])
    exact ⟨((hle reply).1.trans hpackets).trans_lt hlt, (hle reply).2.trans_lt hlt⟩
  have hforwarded (reply : Bool) : s.forwarded ((s.conn c).side reply) (steps ++ [a]) =
      s.forwarded ((s.conn c).side reply) steps + (s.run steps).forwards ((s.conn c).side reply) a := by
    rw [forwarded_append, forwarded_singleton]
  have hfolded (reply : Bool) : s.folded c reply (steps ++ [a]) =
      s.folded c reply steps + (s.run steps).folds c reply a := by
    rw [folded_append, folded_singleton]
  cases hseen with
  | kept hsame hkept =>
    rw [hconn] at hkept
    refine ⟨fun reply => ?_, before, between ++ [a], by rw [hsteps, List.append_assoc], ?_, fun reply => ?_⟩
    · rw [hrun, hforwarded, hfolded, ← h.balance, Sfe.reported, hsame, ← Sfe.reported]
      rw [← add_assoc, add_right_comm _ _ ((s.run steps).folds c reply a), add_assoc (Sfe.reported _ _ _),
        hkept reply]
      ac_rfl
    · rw [hrun, hsame, hsyncs]
    · rw [hrun]
      have hself : ((s.run steps).step a).counted c reply ≤
          ((s.run steps).step a).counted c reply + (s.run steps).folds c reply a :=
        ⟨Nat.le_add_right _ _, Nat.le_add_right _ _⟩
      exact (hself.trans (hkept reply).le).trans (hle reply)
  | handedOver hreported hzero hfolds hforwards =>
    rw [hconn] at hforwards
    refine ⟨fun reply => ?_, steps ++ [a], [], by simp, rfl, fun reply => ?_⟩
    · rw [hrun, hforwarded, hfolded, ← h.balance, hreported, hzero, hfolds, hforwards]
      simp only [add_zero]
    · rw [hrun, hzero]
      exact ⟨Nat.zero_le _, Nat.zero_le _⟩

theorem Ledger.run {s : Sfe} {c : Nat} {all : List Nat} (hnil : Ledger s c []) (hsound : s.Sound all)
    (hknown : Known s c) (hcallback : s.callback = true) (steps : List Step)
    (hregistered : ∀ a ∈ steps, a ≠ .registerCallback false) (hfits : s.Fits c steps) : Ledger s c steps := by
  induction steps using List.reverseRecOn with
  | nil => exact hnil
  | append_singleton steps a ih =>
    have hregistered' : ∀ a ∈ steps, a ≠ .registerCallback false := fun a ha =>
      hregistered a (List.mem_append_left _ ha)
    obtain ⟨all', hsound'⟩ := hsound.run steps
    exact (ih hregistered' hfits.left).snoc hknown hsound' (callback_run hregistered' hcallback) hfits

/-- A run folds nothing away exactly when no read of the debug device meets counts of the connection. -/
theorem folded_eq_zero_iff (s : Sfe) (c : Nat) (steps : List Step) :
    (∀ reply, s.folded c reply steps = 0) ↔
      ∀ before afterwards, steps = before ++ .debugReadConnection :: afterwards →
        (s.run before).debugNext = some c →
        ∀ reply, ((s.run before).rx (((s.run before).conn c).side reply)).traffic = 0 := by
  constructor
  · intro hzero before afterwards hsteps hnext reply
    have hfolded := hzero reply
    rw [hsteps, folded_append, Sfe.folded, Sfe.folds, if_pos hnext] at hfolded
    exact (add_eq_zero.mp (add_eq_zero.mp hfolded).2).1
  · intro hnone reply
    induction steps generalizing s with
    | nil => rfl
    | cons a steps ih =>
      rw [Sfe.folded, ih (s.step a) fun before afterwards hsteps => ?_, add_zero]
      · cases a with
        | debugReadConnection =>
          rw [Sfe.folds]
          split
          · next hnext => exact hnone [] steps rfl hnext reply
          · rfl
        | _ => rfl
      · exact hnone (a :: before) afterwards (by rw [hsteps]; rfl)

/-- A connection was created, and after further steps it is flushed. Its callback was told of the packets
and bytes that were forwarded exactly when no read of the debug device met counts of the connection. -/
theorem reported_eq_forwarded_iff {s₀ s : Sfe} (h : s₀.Initial) (before : List Step) {r : Rule}
    {memory : Bool} {now : BitVec 64} {c : Nat} (hcreate : (s₀.run before).createRule r memory now = (s, .ok c))
    (steps : List Step) (hcallback : s.callback = true) (hregistered : ∀ a ∈ steps, a ≠ .registerCallback false)
    (hfits : s.Fits c steps) (hflushed : c ∉ (s.run steps).live) :
    (∀ reply, (s.run steps).reported c reply = s.forwarded ((s.conn c).side reply) steps) ↔
      ∀ pre post, steps = pre ++ .debugReadConnection :: post → (s.run pre).debugNext = some c →
        ∀ reply, ((s.run pre).rx (((s.run pre).conn c).side reply)).traffic = 0 := by
  obtain ⟨all₀, hsound₀⟩ := h.sound.run before
  have hsound := hsound₀.createRule r memory now
  rw [hcreate] at hsound
  obtain ⟨all, hsound⟩ := hsound
  obtain ⟨hfresh, hlive, hdelivered, hrx⟩ := createRule_ok hcreate
  have hc : c ∈ s.live := hlive ▸ List.mem_cons_self
  have hsyncs : s.syncs c = [] := by
    have hlt := h.sound.delivered_lt_run (by simp [h.delivered]) before
    rw [Sfe.syncs, List.map_eq_nil_iff, List.filter_eq_nil_iff, hdelivered]
    intro x hx
    have hxlt := hlt x hx
    rw [← hfresh] at hxlt
    simpa using hxlt.ne
  have hledger := (Ledger.nil hsyncs hrx).run hsound (hsound.known hc) hcallback steps hregistered hfits
  rw [← folded_eq_zero_iff]
  refine forall_congr' fun reply => ?_
  have hbalance := hledger.balance reply
  rw [Sfe.counted, if_neg hflushed, add_zero] at hbalance
  rw [← hbalance]
  exact left_eq_add

theorem Sfe.fits_of_forwarded_lt {s : Sfe} {c : Nat} {steps : List Step}
    (h : ∀ reply, (s.forwarded ((s.conn c).side reply) steps).2 < 2 ^ 32) : s.Fits c steps := by
  intro before between afterwards hsteps _ reply
  have htotal := h reply
  rw [hsteps, forwarded_append, forwarded_append] at htotal
  simp only [Prod.snd_add] at htotal
  omega

/-- The rule of the flow was accepted. -/
def accepted : Sfe := ((Sfe.zeroed true).createRule masquerade true 0).1

theorem accepted_create : ((Sfe.zeroed true).run []).createRule masquerade true 0 = (accepted, .ok 0) :=
  Prod.ext rfl (by decide +kernel)

/-- A packet is forwarded and handed over by a periodic sync, the debug device is read, and the connection is
destroyed. -/
def syncedThenRead : List Step :=
  [.recv 1 (udpPacket masquerade.tuple), .syncBegin, .syncNext 1, .debugReadStart, .debugReadConnection,
    .destroy 17 masquerade.tuple, .flush 0 2]

theorem reported_eq_forwarded_iff_syncedThenRead :
    accepted.forwarded 1 syncedThenRead = (1, 40) ∧
    ((∀ reply, (accepted.run syncedThenRead).reported 0 reply =
        accepted.forwarded ((accepted.conn 0).side reply) syncedThenRead) ↔
      ∀ pre post, syncedThenRead = pre ++ .debugReadConnection :: post →
        (accepted.run pre).debugNext = some 0 →
        ∀ reply, ((accepted.run pre).rx (((accepted.run pre).conn 0).side reply)).traffic = 0) := by
  refine ⟨by decide +kernel, reported_eq_forwarded_iff (Sfe.initial_zeroed true) [] accepted_create
    syncedThenRead (by decide +kernel) ?_ ?_ (by decide +kernel)⟩
  · simp [syncedThenRead]
  · exact Sfe.fits_of_forwarded_lt (by decide +kernel)

/-- A packet is forwarded, the debug device is read, and the connection is destroyed. -/
def readFirst : List Step :=
  [.recv 1 (udpPacket masquerade.tuple), .debugReadStart, .debugReadConnection,
    .destroy 17 masquerade.tuple, .flush 0 1]

/-- The read folds the count of the packet away, and the callback never learns of it. -/
theorem debug_read_hides_traffic :
    ((Sfe.zeroed true).Initial ∧ (Sfe.zeroed true).createRule masquerade true 0 = (accepted, .ok 0) ∧
      accepted.callback = true ∧ (∀ a ∈ readFirst, a ≠ .registerCallback false) ∧ accepted.Fits 0 readFirst ∧
      0 ∉ (accepted.run readFirst).live) ∧
    ((accepted.run readFirst).syncs 0).length = 1 ∧ (accepted.run readFirst).reported 0 false = (0, 0) ∧
    accepted.forwarded ((accepted.conn 0).side false) readFirst = (1, 40) := by
  refine ⟨⟨Sfe.initial_zeroed true, accepted_create, by decide +kernel, ?_, ?_, by decide +kernel⟩,
    by decide +kernel, by decide +kernel, by decide +kernel⟩
  · simp [readFirst]
  · exact Sfe.fits_of_forwarded_lt (by decide +kernel)

end Immwrt.Sfe
