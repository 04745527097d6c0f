import Immwrt.FastClassifier.Proof.Table

/-!
# The lifecycle of a connection

A run keeps the object that it found while it no longer holds the lock. As long as no DESTROY event falls
between the lookup and the last access, and no second run offloads the same object meanwhile, the lifecycle is
the intended one; the invariant says for each object who may still touch it and which messages were sent.
-/

namespace Immwrt.FastClassifier

/-! ### What a run has in its hands -/

namespace Phase

/-- The object that the run will access outside the lock. -/
def conn : Phase → Option Nat
  | .check c | .update c | .create c | .send c | .mark c => some c
  | _ => none

/-- The object that the run is offloading. -/
def offloading : Phase → Option Nat
  | .create c | .send c | .mark c => some c
  | _ => none

/-- The object whose DONE message the run has to send. -/
def retiring : Phase → Option Nat
  | .destroyRule offloaded => offloaded
  | .sendDone c => some c
  | _ => none

theorem conn_of_offloading {phase : Phase} {c : Nat} (h : phase.offloading = some c) : phase.conn = some c := by
  cases phase <;> simp_all [conn, offloading]

theorem offloading_of_conn {phase : Phase} (h : phase.conn = none) : phase.offloading = none := by
  cases hoffloading : phase.offloading with
  | none => rfl
  | some c =>
    rw [conn_of_offloading hoffloading] at h
    cases h

theorem ne_mark_of_conn {phase : Phase} (h : phase.conn = none) (c : Nat) : phase ≠ .mark c := by
  rintro rfl
  cases h

end Phase

namespace Classifier

/-- A DESTROY event does not come while a run is going to access the object, and the decision to offload an
object is taken while the connection is tracked and nobody else is offloading the object. -/
def Orderly (s : Classifier) : Step → Prop
  | .destroy flow => ∀ c ∈ s.findConn flow, ∀ i < s.started, (s.runs i).phase.conn ≠ some c
  | .advance i ok => (s.runs i).phase = .start → ok = true → ∀ c ∈ s.findConn (s.runs i).flow,
      (s.conns c).hit.wanted s.offloadAtPkts = true →
        s.tracked (s.runs i).flow = true ∧ ∀ j < s.started, (s.runs j).phase.offloading ≠ some c
  | _ => True

/-! ### The invariant -/

structure Inv (s : Classifier) : Prop where
  idle : ∀ i, s.started ≤ i → (s.runs i).phase = .finished
  tabled : Tabled s
  live : ∀ c, c ∈ s.table ↔ c < s.allocated ∧ (s.conns c).freed = false
  unborn : ∀ c, s.allocated ≤ c → (s.conns c).freed = false ∧ (s.conns c).offloaded = false
  held : ∀ i c, (s.runs i).phase.conn = some c → c ∈ s.table ∧ (s.conns c).flow = (s.runs i).flow
  window : ∀ i c, (s.runs i).phase.offloading = some c →
    s.tracked (s.runs i).flow = true ∧ (s.conns c).offloaded = false
  single : ∀ i j c, (s.runs i).phase.offloading = some c → (s.runs j).phase.offloading = some c → i = j
  flagged : ∀ c ∈ s.table, (s.conns c).offloaded = true → s.tracked (s.conns c).flow = true
  sent : ∀ c, (s.conns c).offloaded = true → s.msgs.count (.offloaded c) = 1
  marking : ∀ i c, (s.runs i).phase = .mark c → s.msgs.count (.offloaded c) = 1
  unsent : ∀ c, (s.conns c).offloaded = false → (∀ i, (s.runs i).phase ≠ .mark c) → s.msgs.count (.offloaded c) = 0
  retires : ∀ i c, (s.runs i).phase.retiring = some c → (s.conns c).freed = true ∧ (s.conns c).offloaded = true ∧
    (s.conns c).flow = (s.runs i).flow ∧ s.msgs.count (.done c) = 0
  retiresOnce : ∀ i j c, (s.runs i).phase.retiring = some c → (s.runs j).phase.retiring = some c → i = j
  undone : ∀ c, (s.conns c).freed = false ∨ (s.conns c).offloaded = false → s.msgs.count (.done c) = 0
  done : ∀ c, (s.conns c).freed = true → (s.conns c).offloaded = true →
    (∀ i, (s.runs i).phase.retiring ≠ some c) → s.msgs.count (.done c) = 1
  rules : ∀ flow, s.rules flow = true → s.tracked flow = true ∨
    ∃ i offloaded, (s.runs i).flow = flow ∧ (s.runs i).phase = .destroyRule offloaded
  clean : s.usedAfterFree = false

variable {s : Classifier}

theorem inv_init : Inv init := by
  constructor
  case tabled => exact tabled_init
  all_goals simp [init, Phase.conn, Phase.offloading, Phase.retiring]

/-! ### Pieces of a step -/

/-- An object of the table is in use. -/
theorem Inv.use_eq (h : Inv s) {c : Nat} (hc : c ∈ s.table) : s.use c = s := by
  have hfreed := ((h.live c).1 hc).2
  rw [use, hfreed, Bool.or_false]

/-- Counters and permissions do not matter. -/
theorem Inv.modify (h : Inv s) (c : Nat) {f : Conn → Conn}
    (hf : ∀ conn, (f conn).flow = conn.flow ∧ (f conn).offloaded = conn.offloaded ∧ (f conn).freed = conn.freed) :
    Inv (s.modify c f) := by
  have hconn : ∀ d, ((s.modify c f).conns d).flow = (s.conns d).flow ∧
      ((s.modify c f).conns d).offloaded = (s.conns d).offloaded ∧
      ((s.modify c f).conns d).freed = (s.conns d).freed := by
    intro d
    rw [modify_conns, Function.update_apply]
    split
    case isTrue heq => rw [heq]; exact hf _
    case isFalse => exact ⟨rfl, rfl, rfl⟩
  have hflow := fun d => (hconn d).1
  have hoffloaded := fun d => (hconn d).2.1
  have hfreed := fun d => (hconn d).2.2
  refine
    { h with
      tabled := h.tabled.modify fun conn => (hf conn).1, live := ?_, unborn := ?_, held := ?_, window := ?_,
      flagged := ?_, sent := ?_, unsent := ?_, retires := ?_, undone := ?_, done := ?_ } <;>
  simp only [hflow, hoffloaded, hfreed]
  · exact h.live
  · exact h.unborn
  · exact h.held
  · exact h.window
  · exact h.flagged
  · exact h.sent
  · exact h.unsent
  · exact h.retires
  · exact h.undone
  · exact h.done

theorem Inv.dropRule (h : Inv s) (flow : Flow) : Inv (s.setRule flow false) := by
  refine
    { h with
      tabled := h.tabled.congr rfl rfl rfl fun _ => rfl
      rules := fun flow' hrule => h.rules flow' ?_ }
  rw [setRule_rules, Function.update_apply] at hrule
  split at hrule
  case isTrue => cases hrule
  case isFalse => exact hrule

theorem Inv.addRule (h : Inv s) {flow : Flow} (htracked : s.tracked flow = true) : Inv (s.setRule flow true) := by
  refine
    { h with
      tabled := h.tabled.congr rfl rfl rfl fun _ => rfl
      rules := fun flow' hrule => ?_ }
  rw [setRule_rules, Function.update_apply] at hrule
  split at hrule
  case isTrue heq => exact .inl (heq ▸ htracked)
  case isFalse => exact h.rules flow' hrule

theorem Inv.confirm (h : Inv s) (flow : Flow) : Inv (s.setTracked flow true) := by
  have hkept : ∀ flow', s.tracked flow' = true → (s.setTracked flow true).tracked flow' = true := by
    intro flow' htracked
    rw [setTracked_tracked, Function.update_apply]
    split
    case isTrue => rfl
    case isFalse => exact htracked
  refine
    { h with
      tabled := h.tabled.congr rfl rfl rfl fun _ => rfl
      window := ?_, flagged := ?_, rules := ?_ }
  · exact fun i c hphase => ⟨hkept _ (h.window i c hphase).1, (h.window i c hphase).2⟩
  · exact fun c hc hflag => hkept _ (h.flagged c hc hflag)
  · exact fun flow' hrule => (h.rules flow' hrule).imp_left (hkept flow')

/-- A run goes on with an object of its flow in its hands, or with none. -/
theorem Inv.goto (h : Inv s) {i : Nat} {phase : Phase} (hi : i < s.started)
    (hconn : ∀ c, phase.conn = some c → c ∈ s.table ∧ (s.conns c).flow = (s.runs i).flow)
    (hoffloading : ∀ c, phase.offloading = some c → s.tracked (s.runs i).flow = true ∧
      (s.conns c).offloaded = false ∧ ∀ j, (s.runs j).phase.offloading = some c → j = i)
    (hmark : ∀ c, phase = .mark c ↔ (s.runs i).phase = .mark c)
    (hretiring : phase.retiring = (s.runs i).phase.retiring)
    (hrule : ∀ offloaded, (s.runs i).phase = .destroyRule offloaded → s.rules (s.runs i).flow = false) :
    Inv (s.goto i phase) := by
  refine
    { h with
      tabled := h.tabled.congr rfl rfl rfl fun _ => rfl
      idle := ?_, held := ?_, window := ?_, single := ?_, marking := ?_, unsent := ?_, retires := ?_,
      retiresOnce := ?_, done := ?_, rules := ?_ } <;>
  simp only [goto_started, goto_conns, goto_table, goto_runs, goto_rules, goto_msgs, goto_tracked,
    Function.update_apply]
  · grind [h.idle]
  · grind [h.held]
  · grind [h.window]
  · grind [h.single]
  · grind [h.marking]
  · grind [h.unsent]
  · grind [h.retires]
  · grind [h.retiresOnce]
  · grind [h.done]
  · grind [h.rules]

/-- A run lets go of what it has in its hands. -/
theorem Inv.release (h : Inv s) {i : Nat} {phase : Phase} (hi : i < s.started) (hconn : phase.conn = none)
    (hmark : ∀ c, (s.runs i).phase ≠ .mark c) (hretiring : phase.retiring = (s.runs i).phase.retiring)
    (hrule : ∀ offloaded, (s.runs i).phase = .destroyRule offloaded → s.rules (s.runs i).flow = false) :
    Inv (s.goto i phase) := by
  refine h.goto hi ?_ ?_ (fun c => ⟨?_, fun hphase => absurd hphase (hmark c)⟩) hretiring hrule
  · intro c hphase
    rw [hconn] at hphase
    cases hphase
  · intro c hphase
    rw [Phase.offloading_of_conn hconn] at hphase
    cases hphase
  · exact fun hphase => absurd hphase (Phase.ne_mark_of_conn hconn c)

/-- A run goes on with the object that it has in its hands. -/
theorem Inv.keep (h : Inv s) {i : Nat} {phase : Phase} (hi : i < s.started)
    (hconn : phase.conn = (s.runs i).phase.conn) (hoffloading : phase.offloading = (s.runs i).phase.offloading)
    (hmark : ∀ c, phase ≠ .mark c ∧ (s.runs i).phase ≠ .mark c)
    (hretiring : phase.retiring = (s.runs i).phase.retiring)
    (hrule : ∀ offloaded, (s.runs i).phase ≠ .destroyRule offloaded) : Inv (s.goto i phase) := by
  refine h.goto hi ?_ ?_ (fun c => iff_of_false (hmark c).1 (hmark c).2) hretiring
    fun offloaded hphase => absurd hphase (hrule offloaded)
  · exact fun c hphase => h.held i c (hconn ▸ hphase)
  · intro c hphase
    rw [hoffloading] at hphase
    obtain ⟨htracked, hflag⟩ := h.window i c hphase
    exact ⟨htracked, hflag, fun j hj => h.single j i c hj hphase⟩

/-- A run begins with nothing in its hands. -/
theorem Inv.spawn (h : Inv s) (flow : Flow) {phase : Phase} (hconn : phase.conn = none)
    (hretiring : phase.retiring = none) : Inv (s.spawn flow phase) := by
  have hold := h.idle s.started le_rfl
  have hoffloading : phase.offloading = none := Phase.offloading_of_conn hconn
  have hmark : ∀ c, phase ≠ .mark c := Phase.ne_mark_of_conn hconn
  refine
    { h with
      tabled := h.tabled.congr rfl rfl rfl fun _ => rfl
      idle := ?_, held := ?_, window := ?_, single := ?_, marking := ?_, unsent := ?_, retires := ?_,
      retiresOnce := ?_, done := ?_, rules := ?_ } <;>
  simp only [spawn_started, spawn_conns, spawn_table, spawn_runs, spawn_rules, spawn_msgs, spawn_tracked,
    Function.update_apply]
  · grind [h.idle]
  · grind [h.held]
  · grind [h.window]
  · grind [h.single]
  · grind [h.marking]
  · grind [h.unsent]
  · grind [h.retires]
  · grind [h.retiresOnce]
  · grind [h.done, Phase.retiring]
  · grind [h.rules]

/-! ### Steps of a packet -/

section Packets

variable {i c : Nat}

/-- The message goes out while the flag is not set yet. -/
theorem Inv.send (h : Inv s) (hi : i < s.started) (hphase : (s.runs i).phase = .send c) :
    Inv ((s.sendGenlMsg (.offloaded c)).goto i (.mark c)) := by
  have hoffloading : (s.runs i).phase.offloading = some c := by rw [hphase]; rfl
  have hunsent : s.msgs.count (.offloaded c) = 0 := by
    refine h.unsent c (h.window i c hoffloading).2 fun j hmark => ?_
    have hij : j = i := h.single j i c (by rw [hmark]; rfl) hoffloading
    rw [hij, hphase] at hmark
    cases hmark
  have hother : ∀ d, d ≠ c → (s.msgs ++ [Message.offloaded c]).count (.offloaded d) = s.msgs.count (.offloaded d) := by
    intro d hne
    rw [List.count_append, List.count_singleton]
    simp [hne.symm]
  have hdone : ∀ d, (s.msgs ++ [Message.offloaded c]).count (.done d) = s.msgs.count (.done d) := by
    intro d
    rw [List.count_append, List.count_singleton]
    simp
  have hself : (s.msgs ++ [Message.offloaded c]).count (.offloaded c) = 1 := by
    rw [List.count_append, hunsent, List.count_singleton_self]
  have hflag := (h.window i c hoffloading).2
  refine
    { h with
      tabled := h.tabled.congr rfl rfl rfl fun _ => rfl
      idle := ?_, held := ?_, window := ?_, single := ?_, sent := ?_, marking := ?_, unsent := ?_,
      retires := ?_, retiresOnce := ?_, undone := ?_, done := ?_, rules := ?_ } <;>
  simp only [goto_started, goto_conns, goto_table, goto_runs, goto_rules, goto_msgs, goto_tracked,
    sendGenlMsg_started, sendGenlMsg_conns, sendGenlMsg_table, sendGenlMsg_runs, sendGenlMsg_rules,
    sendGenlMsg_msgs, sendGenlMsg_tracked, hdone, Function.update_apply]
  · grind [h.idle]
  · grind [h.held, Phase.conn]
  · grind [h.window, Phase.offloading]
  · grind [h.single, Phase.offloading]
  · grind [h.sent]
  · grind [h.marking]
  · grind [h.unsent]
  · grind [h.retires, Phase.retiring]
  · grind [h.retiresOnce, Phase.retiring]
  · grind [h.undone]
  · grind [h.done, Phase.retiring]
  · grind [h.rules]

/-- The flag is set, and the run is through. -/
theorem Inv.mark (h : Inv s) (hi : i < s.started) (hphase : (s.runs i).phase = .mark c) :
    Inv ((s.modify c fun conn => { conn with offloaded := true }).goto i .finished) := by
  have hoffloading : (s.runs i).phase.offloading = some c := by rw [hphase]; rfl
  obtain ⟨hc, hflow⟩ := h.held i c (by rw [hphase]; rfl)
  have hlive := (h.live c).1 hc
  have hsent := h.marking i c hphase
  have htracked := (h.window i c hoffloading).1
  have htabled : Tabled (s.modify c fun conn => { conn with offloaded := true }) := h.tabled.modify fun _ => rfl
  refine
    { h with
      tabled := htabled.congr rfl rfl rfl fun _ => rfl
      idle := ?_, live := ?_, unborn := ?_, held := ?_, window := ?_, single := ?_,
      flagged := ?_, sent := ?_, marking := ?_, unsent := ?_, retires := ?_, retiresOnce := ?_,
      undone := ?_, done := ?_, rules := ?_ } <;>
  simp only [goto_started, goto_conns, goto_table, goto_runs, goto_rules, goto_msgs, goto_tracked, goto_allocated,
    modify_started, modify_conns, modify_table, modify_runs, modify_rules, modify_msgs, modify_tracked,
    modify_allocated, Function.update_apply]
  · grind [h.idle]
  · grind [h.live]
  · grind [h.unborn]
  · grind [h.held, Phase.conn]
  · grind [h.window, h.single, Phase.offloading]
  · grind [h.single, Phase.offloading]
  · grind [h.flagged]
  · grind [h.sent]
  · grind [h.marking]
  · grind [h.unsent]
  · grind [h.retires, Phase.retiring]
  · grind [h.retiresOnce, Phase.retiring]
  · grind [h.undone]
  · grind [h.done, Phase.retiring]
  · grind [h.rules]

/-- A flow without an object gets one. -/
theorem Inv.addConn (h : Inv s) (flow : Flow) : Inv (s.addConn flow) := by
  have htabled := h.tabled.addConn flow
  unfold Classifier.addConn at htabled ⊢
  split
  case h_1 => exact h
  case h_2 hfind =>
    simp only [hfind] at htabled
    have hunborn := h.unborn s.allocated le_rfl
    have hold : ∀ d ∈ s.table, d ≠ s.allocated := fun d hd => (h.tabled.allocated d hd).ne
    refine
      { h with
        tabled := htabled, live := ?_, unborn := ?_, held := ?_, window := ?_, flagged := ?_, sent := ?_,
        unsent := ?_, retires := ?_, undone := ?_, done := ?_ } <;>
    simp only [Function.update_apply]
    · grind [h.live]
    · grind [h.unborn]
    · grind [h.held]
    · grind [h.window, h.held, Phase.conn_of_offloading]
    · grind [h.flagged]
    · grind [h.sent]
    · grind [h.unsent]
    · grind [h.retires]
    · grind [h.undone]
    · grind [h.done]

theorem addConn_runs (s : Classifier) (flow : Flow) :
    (s.addConn flow).runs = s.runs ∧ (s.addConn flow).started = s.started := by
  unfold Classifier.addConn
  split
  case h_1 => exact ⟨rfl, rfl⟩
  case h_2 => exact ⟨rfl, rfl⟩

end Packets

/-! ### Steps of an event -/

/-- A flow without an object is tracked no more; its rule is going to be destroyed. -/
theorem Inv.untrack (h : Inv s) {flow : Flow} (hnone : ∀ d ∈ s.table, (s.conns d).flow ≠ flow)
    (hevent : ∃ i offloaded, (s.runs i).flow = flow ∧ (s.runs i).phase = .destroyRule offloaded) :
    Inv (s.setTracked flow false) := by
  have hkept : ∀ flow', flow' ≠ flow → (s.setTracked flow false).tracked flow' = s.tracked flow' := by
    intro flow' hne
    rw [setTracked_tracked, Function.update_of_ne hne]
  refine
    { h with
      tabled := h.tabled.congr rfl rfl rfl fun _ => rfl
      window := fun i c hphase => ?_, flagged := fun c hc hflag => ?_, rules := fun flow' hrule => ?_ }
  · obtain ⟨hc, hflow⟩ := h.held i c (Phase.conn_of_offloading hphase)
    refine ⟨?_, (h.window i c hphase).2⟩
    have hne : (s.runs i).flow ≠ flow := hflow ▸ hnone c hc
    exact (hkept _ hne).trans (h.window i c hphase).1
  · exact (hkept _ (hnone c hc)).trans (h.flagged c hc hflag)
  · by_cases heq : flow' = flow
    · exact .inr (heq ▸ hevent)
    · rw [hkept _ heq]
      exact h.rules flow' hrule

/-- An object that nobody has in his hands is freed, and the event keeps in mind whether to send DONE. -/
theorem Inv.free (h : Inv s) {flow : Flow} {c : Nat} (hc : c ∈ s.table ∧ (s.conns c).flow = flow)
    (hfree : ∀ i, (s.runs i).phase.conn ≠ some c) :
    Inv (({ s with table := s.table.erase c, size := s.size - 1 }.modify c fun conn =>
      { conn with freed := true }).spawn flow (.destroyRule (if (s.conns c).offloaded then some c else none))) := by
  have hidle := h.idle s.started le_rfl
  have hmem : ∀ d, d ∈ s.table.erase c ↔ d ≠ c ∧ d ∈ s.table := fun d => h.tabled.nodup.mem_erase_iff
  have hlive := (h.live c).1 hc.1
  have hundone := h.undone c (.inl hlive.2)
  have htabled : Tabled ({ s with table := s.table.erase c, size := s.size - 1 }.modify c fun conn =>
      { conn with freed := true }) := (h.tabled.erase hc.1).modify fun _ => rfl
  have hnobody : ∀ i, (s.runs i).phase.retiring ≠ some c := by
    intro i hphase
    rw [(h.retires i c hphase).1] at hlive
    cases hlive.2
  have hretiring : ∀ d, (Phase.destroyRule (if (s.conns c).offloaded then some c else none)).retiring = some d ↔
      d = c ∧ (s.conns c).offloaded = true := by
    intro d
    cases (s.conns c).offloaded <;> simp [Phase.retiring, eq_comm]
  have hconn : (Phase.destroyRule (if (s.conns c).offloaded then some c else none)).conn = none := rfl
  generalize Phase.destroyRule (if (s.conns c).offloaded then some c else none) = phase at hretiring hconn
  have hoffloading : phase.offloading = none := Phase.offloading_of_conn hconn
  have hmark : ∀ d, phase ≠ .mark d := Phase.ne_mark_of_conn hconn
  refine
    { h with
      tabled := htabled.congr rfl rfl rfl fun _ => rfl
      idle := ?_, live := ?_, unborn := ?_, held := ?_, window := ?_, single := ?_, flagged := ?_, sent := ?_, marking := ?_, unsent := ?_, retires := ?_, retiresOnce := ?_,
      undone := ?_, done := ?_, rules := ?_ } <;>
  simp only [spawn_started, spawn_conns, spawn_table, spawn_runs, spawn_rules, spawn_msgs, spawn_tracked,
    spawn_allocated, modify_started, modify_conns, modify_table, modify_runs, modify_rules, modify_msgs,
    modify_tracked, modify_allocated, Function.update_apply]
  · grind [h.idle]
  · grind [h.live]
  · grind [h.unborn]
  · grind [h.held]
  · grind [h.window]
  · grind [h.single]
  · grind [h.flagged]
  · grind [h.sent]
  · grind [h.marking]
  · grind [h.unsent]
  · grind [h.retires]
  · grind [h.retires, h.retiresOnce]
  · grind [h.undone]
  · grind [h.done, Phase.retiring]
  · grind [h.rules]

theorem Inv.sendDone (h : Inv s) {i c : Nat} (hi : i < s.started) (hphase : (s.runs i).phase = .sendDone c) :
    Inv ((s.sendGenlMsg (.done c)).goto i .finished) := by
  have hretiring : (s.runs i).phase.retiring = some c := by rw [hphase]; rfl
  obtain ⟨hfreed, hflag, hflow, hundone⟩ := h.retires i c hretiring
  have hoffloaded : ∀ d, (s.msgs ++ [Message.done c]).count (.offloaded d) = s.msgs.count (.offloaded d) := by
    intro d
    rw [List.count_append, List.count_singleton]
    simp
  have hother : ∀ d, d ≠ c → (s.msgs ++ [Message.done c]).count (.done d) = s.msgs.count (.done d) := by
    intro d hne
    rw [List.count_append, List.count_singleton]
    simp [hne.symm]
  have hself : (s.msgs ++ [Message.done c]).count (.done c) = 1 := by
    rw [List.count_append, hundone, List.count_singleton_self]
  refine
    { h with
      tabled := h.tabled.congr rfl rfl rfl fun _ => rfl
      idle := ?_, held := ?_, window := ?_, single := ?_, sent := ?_, marking := ?_, unsent := ?_,
      retires := ?_, retiresOnce := ?_, undone := ?_, done := ?_, rules := ?_ } <;>
  simp only [goto_started, goto_conns, goto_table, goto_runs, goto_rules, goto_msgs, goto_tracked,
    sendGenlMsg_started, sendGenlMsg_conns, sendGenlMsg_table, sendGenlMsg_runs, sendGenlMsg_rules,
    sendGenlMsg_msgs, sendGenlMsg_tracked, hoffloaded, Function.update_apply]
  · grind [h.idle]
  · grind [h.held, Phase.conn]
  · grind [h.window, Phase.offloading]
  · grind [h.single, Phase.offloading]
  · grind [h.sent]
  · grind [h.marking]
  · grind [h.unsent]
  · grind [h.retires, h.retiresOnce, Phase.retiring]
  · grind [h.retiresOnce, Phase.retiring]
  · grind [h.undone]
  · grind [h.done, Phase.retiring]
  · grind [h.rules]

end Classifier

end Immwrt.FastClassifier
