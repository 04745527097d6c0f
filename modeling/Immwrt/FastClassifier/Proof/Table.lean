import Immwrt.FastClassifier.Classifier
import Immwrt.Lib.Run

/-!
# The table of connections

What is under the lock stays right however the runs fall: a flow has at most one object in the table, and
`sfe_connections_size` counts the objects.
-/

namespace Immwrt.FastClassifier.Classifier

variable {s t : Classifier} {flow : Flow} {c : Nat}

theorem findConn_some (hfind : s.findConn flow = some c) : c ∈ s.table ∧ (s.conns c).flow = flow :=
  ⟨List.mem_of_find?_eq_some hfind, by simpa using List.find?_some hfind⟩

theorem findConn_none (hfind : s.findConn flow = none) (hc : c ∈ s.table) : (s.conns c).flow ≠ flow := by
  simpa using List.find?_eq_none.1 hfind c hc

theorem modify_flow {f : Conn → Conn} (hf : ∀ conn, (f conn).flow = conn.flow) (d : Nat) :
    ((s.modify c f).conns d).flow = (s.conns d).flow := by
  rw [modify_conns, Function.update_apply]
  split
  case isTrue heq => rw [heq, hf]
  case isFalse => rfl

structure Tabled (s : Classifier) : Prop where
  distinct : (s.table.map fun c => (s.conns c).flow).Nodup
  size : s.size = s.table.length
  allocated : ∀ c ∈ s.table, c < s.allocated

theorem Tabled.nodup (h : Tabled s) : s.table.Nodup := h.distinct.of_map _

theorem Tabled.eq_of_flow (h : Tabled s) {d : Nat} (hc : c ∈ s.table) (hd : d ∈ s.table)
    (hflow : (s.conns c).flow = (s.conns d).flow) : c = d :=
  List.inj_on_of_nodup_map h.distinct hc hd hflow

theorem Tabled.congr (h : Tabled s) (htable : t.table = s.table) (hsize : t.size = s.size)
    (hallocated : t.allocated = s.allocated) (hflow : ∀ d, (t.conns d).flow = (s.conns d).flow) : Tabled t := by
  refine ⟨?_, by rw [hsize, htable, h.size], by rw [htable, hallocated]; exact h.allocated⟩
  rw [htable, List.map_congr_left fun d _ => hflow d]
  exact h.distinct

theorem Tabled.modify (h : Tabled s) {f : Conn → Conn} (hf : ∀ conn, (f conn).flow = conn.flow) :
    Tabled (s.modify c f) :=
  h.congr rfl rfl rfl (modify_flow hf)

theorem Tabled.addConn (h : Tabled s) (flow : Flow) : Tabled (s.addConn flow) := by
  unfold Classifier.addConn
  split
  case h_1 => exact h
  case h_2 hfind =>
    have hold : ∀ d ∈ s.table, (Function.update s.conns s.allocated
        { flow := flow, hits := 0, offloadPermit := false, offloaded := false, freed := false } d).flow =
          (s.conns d).flow := by
      intro d hd
      rw [Function.update_of_ne (h.allocated d hd).ne]
    refine ⟨?_, by simp [h.size], fun d hd => ?_⟩
    · dsimp only
      rw [List.map_cons, Function.update_self, List.map_congr_left hold, List.nodup_cons]
      refine ⟨fun hmem => ?_, h.distinct⟩
      obtain ⟨d, hd, hflow⟩ := List.mem_map.1 hmem
      exact findConn_none hfind hd hflow
    · rcases List.mem_cons.1 hd with rfl | hd
      · exact Nat.lt_succ_self _
      · exact Nat.lt_succ_of_lt (h.allocated d hd)

/-- An object leaves the table. -/
theorem Tabled.erase (h : Tabled s) (hc : c ∈ s.table) :
    Tabled { s with table := s.table.erase c, size := s.size - 1 } := by
  refine ⟨h.distinct.sublist (List.erase_sublist.map _), ?_, fun d hd => h.allocated d (List.mem_of_mem_erase hd)⟩
  have hpos := List.length_pos_of_mem hc
  dsimp only
  rw [List.length_erase_of_mem hc, h.size]
  omega

/-! ### Steps -/

theorem Tabled.advance (h : Tabled s) (i : Nat) (ok : Bool) : Tabled (s.advance i ok) := by
  unfold Classifier.advance
  split
  case h_1 =>
    unfold Classifier.lookup
    split
    case h_1 => exact h.congr rfl rfl rfl fun _ => rfl
    case h_2 c _ =>
      have hhit : Tabled (s.modify c Conn.hit) := h.modify fun _ => rfl
      dsimp only
      split
      case isTrue => exact hhit.congr rfl rfl rfl fun _ => rfl
      case isFalse => exact hhit.congr rfl rfl rfl fun _ => rfl
  case h_2 => exact h.congr rfl rfl rfl fun _ => rfl
  case h_3 => exact h.congr rfl rfl rfl fun _ => rfl
  case h_4 =>
    unfold Classifier.createRule
    dsimp only
    split
    case isTrue => exact h.congr rfl rfl rfl fun _ => rfl
    case isFalse =>
      split
      case isTrue => exact h.congr rfl rfl rfl fun _ => rfl
      case isFalse => exact h.congr rfl rfl rfl fun _ => rfl
  case h_5 => exact h.congr rfl rfl rfl fun _ => rfl
  case h_6 c _ =>
    have huse : Tabled (s.use c) := h.congr rfl rfl rfl fun _ => rfl
    have hmark : Tabled ((s.use c).modify c fun conn => { conn with offloaded := true }) := huse.modify fun _ => rfl
    exact hmark.congr rfl rfl rfl fun _ => rfl
  case h_7 =>
    split
    case isTrue => exact (h.addConn (s.runs i).flow).congr rfl rfl rfl fun _ => rfl
    case isFalse => exact h.congr rfl rfl rfl fun _ => rfl
  case h_8 => exact h.congr rfl rfl rfl fun _ => rfl
  case h_9 => exact h.congr rfl rfl rfl fun _ => rfl
  case h_10 => exact h

theorem Tabled.destroy (h : Tabled s) (flow : Flow) : Tabled (s.destroy flow) := by
  have huntracked : Tabled (s.setTracked flow false) := h.congr rfl rfl rfl fun _ => rfl
  unfold Classifier.destroy
  dsimp only
  split
  case h_1 => exact huntracked.congr rfl rfl rfl fun _ => rfl
  case h_2 c hfind =>
    have hfreed : Tabled ({ s.setTracked flow false with
        table := s.table.erase c, size := s.size - 1 }.modify c fun conn => { conn with freed := true }) :=
      (huntracked.erase (findConn_some hfind).1).modify fun _ => rfl
    exact hfreed.congr rfl rfl rfl fun _ => rfl

theorem tabled_step (h : Tabled s) (a : Step) : Tabled (s.step a) := by
  cases a with
  | confirm flow => exact h.congr rfl rfl rfl fun _ => rfl
  | packet flow =>
    rw [step]
    split
    case isTrue => exact h.congr rfl rfl rfl fun _ => rfl
    case isFalse => exact h
  | advance i ok => exact h.advance i ok
  | destroy flow =>
    rw [step]
    split
    case isTrue => exact h.destroy flow
    case isFalse => exact h
  | offload flow =>
    rw [step]
    split
    case h_1 => exact h
    case h_2 => exact h.modify fun _ => rfl
  | setOffloadAtPkts new => exact h.congr rfl rfl rfl fun _ => rfl
  | flush flow => exact h.congr rfl rfl rfl fun _ => rfl

theorem tabled_init : Tabled init := ⟨List.nodup_nil, rfl, by simp [init]⟩

/-- The table is right in every run. -/
theorem always_tabled (steps : List Step) : Run.Always step Tabled steps init :=
  Run.always_of_step (fun _ a h => tabled_step h a) steps tabled_init

end Immwrt.FastClassifier.Classifier
