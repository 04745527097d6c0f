import Immwrt.FastClassifier.Proof.Lifecycle

/-!
# Runs of the classifier

Each step of an orderly run keeps the invariant, and so the lifecycle holds in every state. Two runs show what
happens otherwise.
-/

namespace Immwrt.FastClassifier.Classifier

variable {s : Classifier}

/-! ### Whole steps -/

/-- A run that is not through has begun. -/
theorem Inv.started (h : Inv s) {i : Nat} (hphase : (s.runs i).phase ≠ .finished) : i < s.started := by
  by_contra hle
  exact hphase (h.idle i (Nat.le_of_not_lt hle))

theorem Inv.lookup (h : Inv s) {i : Nat} {ok : Bool} (hphase : (s.runs i).phase = .start)
    (horderly : s.Orderly (.advance i ok)) : Inv (s.lookup i ok) := by
  have hi : i < s.started := h.started (by rw [hphase]; exact Phase.noConfusion)
  unfold Classifier.lookup
  cases hfind : s.findConn (s.runs i).flow with
  | none => exact h.release hi rfl (by simp [hphase]) (by rw [hphase]; rfl) (by simp [hphase])
  | some c =>
    obtain ⟨hc, hflow⟩ := findConn_some hfind
    have hhit : Inv (s.modify c Conn.hit) := h.modify c fun _ => ⟨rfl, rfl, rfl⟩
    have hconn : (s.modify c Conn.hit).conns c = (s.conns c).hit := Function.update_self ..
    have hheld : c ∈ (s.modify c Conn.hit).table ∧
        ((s.modify c Conn.hit).conns c).flow = ((s.modify c Conn.hit).runs i).flow := by
      rw [hconn]
      exact ⟨hc, hflow⟩
    dsimp only
    split
    case isTrue hwanted =>
      cases ok with
      | false => exact hhit.release hi rfl (by simp [hphase]) (by rw [modify_runs, hphase]; rfl) (by simp [hphase])
      | true =>
        rw [hconn] at hwanted
        obtain ⟨htracked, hfree⟩ := horderly hphase rfl c hfind hwanted
        have hflag : (s.conns c).hit.offloaded = false := by
          simp only [Conn.wanted, Bool.and_eq_true, Bool.not_eq_true'] at hwanted
          exact hwanted.1
        have hnobody : ∀ j, (s.runs j).phase.offloading ≠ some c := by
          intro j hoffloading
          refine hfree j (h.started fun hfinished => ?_) hoffloading
          rw [hfinished] at hoffloading
          cases hoffloading
        refine hhit.goto hi ?_ ?_ (by simp [hphase]) (by rw [modify_runs, hphase]; rfl) (by simp [hphase])
        · rintro d ⟨⟩
          exact hheld
        · rintro d ⟨⟩
          exact ⟨htracked, by rw [hconn]; exact hflag, fun j hj => absurd hj (hnobody j)⟩
    case isFalse =>
      refine hhit.goto hi ?_ ?_ (by simp [hphase]) (by rw [modify_runs, hphase]; rfl) (by simp [hphase])
      · rintro d ⟨⟩
        exact hheld
      · rintro d ⟨⟩

theorem Inv.createRule (h : Inv s) {i c : Nat} (hphase : (s.runs i).phase = .create c) (ok : Bool) :
    Inv (s.createRule i c ok) := by
  have hi : i < s.started := h.started (by rw [hphase]; exact Phase.noConfusion)
  obtain ⟨hc, hflow⟩ := h.held i c (by rw [hphase]; rfl)
  have htracked : s.tracked (s.conns c).flow = true := by
    rw [hflow]
    exact (h.window i c (by rw [hphase]; rfl)).1
  unfold Classifier.createRule
  rw [h.use_eq hc]
  dsimp only
  split
  case isTrue =>
    exact h.keep hi (by rw [hphase]; rfl) (by rw [hphase]; rfl) (by simp [hphase]) (by rw [hphase]; rfl)
      (by simp [hphase])
  case isFalse =>
    split
    case isTrue =>
      exact (h.addRule htracked).keep hi (by rw [setRule_runs, hphase]; rfl) (by rw [setRule_runs, hphase]; rfl)
        (by simp [hphase]) (by rw [setRule_runs, hphase]; rfl) (by simp [hphase])
    case isFalse => exact h.release hi rfl (by simp [hphase]) (by rw [hphase]; rfl) (by simp [hphase])

theorem Inv.addStep (h : Inv s) {i : Nat} (hphase : (s.runs i).phase = .add) (ok : Bool) :
    Inv ((if ok then s.addConn (s.runs i).flow else s).goto i .finished) := by
  have hi : i < s.started := h.started (by rw [hphase]; exact Phase.noConfusion)
  cases ok with
  | false => exact h.release hi rfl (by simp [hphase]) (by rw [hphase]; rfl) (by simp [hphase])
  | true =>
    obtain ⟨hruns, hstarted⟩ := addConn_runs s (s.runs i).flow
    have hadd := h.addConn (s.runs i).flow
    rw [if_pos rfl]
    generalize s.addConn (s.runs i).flow = t at hruns hstarted hadd
    rw [← hruns] at hphase
    exact hadd.release (hstarted ▸ hi) rfl (by simp [hphase]) (by rw [hphase]; rfl) (by simp [hphase])

theorem Inv.destroyRule (h : Inv s) {i : Nat} {offloaded : Option Nat}
    (hphase : (s.runs i).phase = .destroyRule offloaded) :
    Inv ((s.setRule (s.runs i).flow false).goto i (afterDestroyRule offloaded)) := by
  have hi : i < s.started := h.started (by rw [hphase]; exact Phase.noConfusion)
  have hrule : (s.setRule (s.runs i).flow false).rules (s.runs i).flow = false := Function.update_self ..
  have hdrop := h.dropRule (s.runs i).flow
  cases offloaded with
  | none => exact hdrop.release hi rfl (by simp [hphase]) (by rw [setRule_runs, hphase]; rfl) fun _ _ => hrule
  | some c => exact hdrop.release hi rfl (by simp [hphase]) (by rw [setRule_runs, hphase]; rfl) fun _ _ => hrule

theorem Inv.advance (h : Inv s) {i : Nat} {ok : Bool} (horderly : s.Orderly (.advance i ok)) :
    Inv (s.advance i ok) := by
  by_cases hfinished : (s.runs i).phase = .finished
  · rw [Classifier.advance, hfinished]
    exact h
  have hi := h.started hfinished
  have huse : ∀ c, (s.runs i).phase.conn = some c → s.use c = s := fun c hphase => h.use_eq (h.held i c hphase).1
  unfold Classifier.advance
  cases hphase : (s.runs i).phase with
  | start => exact h.lookup hphase horderly
  | check c =>
    dsimp only
    rw [huse c (by rw [hphase]; rfl)]
    split
    case isTrue =>
      exact h.keep hi (by rw [hphase]; rfl) (by rw [hphase]; rfl) (by simp [hphase]) (by rw [hphase]; rfl)
        (by simp [hphase])
    case isFalse => exact h.release hi rfl (by simp [hphase]) (by rw [hphase]; rfl) (by simp [hphase])
  | update c =>
    dsimp only
    rw [huse c (by rw [hphase]; rfl)]
    exact h.release hi rfl (by simp [hphase]) (by rw [hphase]; rfl) (by simp [hphase])
  | create c => exact h.createRule hphase ok
  | send c =>
    dsimp only
    rw [huse c (by rw [hphase]; rfl)]
    exact h.send hi hphase
  | mark c =>
    dsimp only
    rw [huse c (by rw [hphase]; rfl)]
    exact h.mark hi hphase
  | add => exact h.addStep hphase ok
  | destroyRule offloaded => exact h.destroyRule hphase
  | sendDone c => exact h.sendDone hi hphase
  | finished => exact h

theorem Inv.destroy (h : Inv s) {flow : Flow} (horderly : s.Orderly (.destroy flow)) : Inv (s.destroy flow) := by
  unfold Classifier.destroy
  cases hfind : s.findConn flow with
  | none =>
    have hmiss : (s.setTracked flow false).findConn flow = none := hfind
    simp only [hmiss]
    have hspawn : Inv (s.spawn flow (.destroyRule none)) := h.spawn flow rfl rfl
    exact hspawn.untrack (fun d hd => findConn_none hfind hd) ⟨s.started, none, by simp⟩
  | some c =>
    have hhit : (s.setTracked flow false).findConn flow = some c := hfind
    obtain ⟨hc, hflow⟩ := findConn_some hfind
    have hfree : ∀ i, (s.runs i).phase.conn ≠ some c := by
      intro i hphase
      refine horderly c hfind i (h.started fun hfinished => ?_) hphase
      rw [hfinished] at hphase
      cases hphase
    simp only [hhit]
    refine (h.free ⟨hc, hflow⟩ hfree).untrack (fun d hd hd' => ?_) ⟨s.started, _, by simp, by simp; rfl⟩
    simp only [spawn_table, modify_table, spawn_conns, modify_conns, Function.update_apply] at hd hd'
    obtain ⟨hne, hd⟩ := h.tabled.nodup.mem_erase_iff.1 hd
    rw [if_neg hne] at hd'
    exact hne (h.tabled.eq_of_flow hd hc (hd'.trans hflow.symm))

theorem inv_step (h : Inv s) {a : Step} (horderly : s.Orderly a) : Inv (s.step a) := by
  cases a with
  | confirm flow => exact h.confirm flow
  | packet flow =>
    rw [step]
    split
    case isTrue => exact h.spawn flow rfl rfl
    case isFalse => exact h
  | advance i ok => exact h.advance horderly
  | destroy flow =>
    rw [step]
    split
    case isFalse => exact h
    case isTrue => exact h.destroy horderly
  | offload flow =>
    rw [step]
    split
    case h_1 => exact h
    case h_2 c hfind => exact h.modify c fun _ => ⟨rfl, rfl, rfl⟩
  | setOffloadAtPkts new => exact { h with tabled := h.tabled.congr rfl rfl rfl fun _ => rfl }
  | flush flow => exact h.dropRule flow

theorem Inv.done_le (h : Inv s) (c : Nat) : s.msgs.count (.done c) ≤ 1 := by
  by_cases hlive : (s.conns c).freed = false ∨ (s.conns c).offloaded = false
  · rw [h.undone c hlive]
    exact Nat.zero_le 1
  · by_cases hretiring : ∃ i, (s.runs i).phase.retiring = some c
    · obtain ⟨i, hretiring⟩ := hretiring
      rw [(h.retires i c hretiring).2.2.2]
      exact Nat.zero_le 1
    · simp only [not_or, Bool.not_eq_false] at hlive
      exact (h.done c hlive.1 hlive.2 fun i hi => hretiring ⟨i, hi⟩).le

/-- What the invariant says of the lifecycle. -/
theorem Inv.sound (h : Inv s) : Sound s := by
  refine ⟨h.clean, fun c => ?_, fun c => ?_, fun c hhandled => ?_, h.tabled.distinct, h.tabled.size, fun flow hhandled => ?_⟩
  · cases hflag : (s.conns c).offloaded with
    | true => exact (h.sent c hflag).le
    | false =>
      by_cases hmark : ∃ i, (s.runs i).phase = .mark c
      · obtain ⟨i, hmark⟩ := hmark
        exact (h.marking i c hmark).le
      · rw [h.unsent c hflag fun i hi => hmark ⟨i, hi⟩]
        exact Nat.zero_le 1
  · cases hflag : (s.conns c).offloaded with
    | false =>
      rw [h.undone c (.inr hflag)]
      exact Nat.zero_le _
    | true =>
      rw [h.sent c hflag]
      exact h.done_le c
  · have hidle : ∀ i, (s.runs i).flow = (s.conns c).flow → (s.runs i).phase = .finished := by
      intro i hflow
      by_contra hphase
      exact hphase (hhandled.2 i (h.started hphase) hflow)
    cases hflag : (s.conns c).offloaded with
    | false =>
      have hmark : ∀ i, (s.runs i).phase ≠ .mark c := by
        intro i hmark
        have hfinished := hidle i (h.held i c (by rw [hmark]; rfl)).2.symm
        rw [hmark] at hfinished
        cases hfinished
      rw [h.undone c (.inr hflag), h.unsent c hflag hmark]
    | true =>
      have hretiring : ∀ i, (s.runs i).phase.retiring ≠ some c := by
        intro i hretiring
        rw [hidle i (h.retires i c hretiring).2.2.1.symm] at hretiring
        cases hretiring
      have hfreed : (s.conns c).freed = true := by
        by_contra hlive
        have hborn : c < s.allocated := by
          by_contra hle
          rw [(h.unborn c (Nat.le_of_not_lt hle)).2] at hflag
          cases hflag
        have htracked := h.flagged c ((h.live c).2 ⟨hborn, by simpa using hlive⟩) hflag
        rw [hhandled.1] at htracked
        cases htracked
      rw [h.sent c hflag, h.done c hfreed hflag hretiring]
  · by_contra hrule
    rcases h.rules flow (by simpa using hrule) with htracked | ⟨i, offloaded, hflow, hphase⟩
    · rw [hhandled.1] at htracked
      cases htracked
    · have hi : i < s.started := h.started (by rw [hphase]; exact Phase.noConfusion)
      rw [hhandled.2 i hi hflow] at hphase
      cases hphase

/-- In every run in which no DESTROY event frees an object that a packet still has in its hands, and every
decision to offload an object is taken for a tracked connection while no other packet is offloading the object, the
lifecycle holds in every state. -/
theorem always_sound {steps : List Step} (horderly : Run.Along step Orderly steps init) :
    Run.Always step Sound steps init := by
  have hinv : Run.Always step Inv steps init :=
    Run.always_of_inv (fun _ _ h horderly => inv_step h horderly) inv_init horderly
  exact hinv.mono fun _ h => h.sound

/-! ### Runs -/

instance (s : Classifier) : (a : Step) → Decidable (s.Orderly a)
  | .destroy flow =>
    inferInstanceAs (Decidable (∀ c ∈ s.findConn flow, ∀ i < s.started, (s.runs i).phase.conn ≠ some c))
  | .advance i ok =>
    inferInstanceAs (Decidable ((s.runs i).phase = .start → ok = true → ∀ c ∈ s.findConn (s.runs i).flow,
      (s.conns c).hit.wanted s.offloadAtPkts = true →
        s.tracked (s.runs i).flow = true ∧ ∀ j < s.started, (s.runs j).phase.offloading ≠ some c))
  | .confirm _ | .packet _ | .offload _ | .setOffloadAtPkts _ | .flush _ => isTrue trivial

def webFlow : Flow := ⟨6, true, 0x0101a8c0, 0x08080808, 0x00c0, 0x5000⟩

/-- Packets that come one after another: the first one adds the object, the others wait. -/
def packets (n : Nat) : List Step :=
  (List.range n).flatMap fun i => [.packet webFlow, .advance i true, .advance i true]

/-- A connection is offloaded, updated and ended. -/
def quietRun : List Step :=
  .setOffloadAtPkts 2 :: .confirm webFlow :: (packets 2).append
    [.packet webFlow, .advance 2 true, .advance 2 true, .advance 2 true, .advance 2 true,
      .packet webFlow, .advance 3 true, .advance 3 true, .advance 3 true,
      .destroy webFlow, .advance 4 true, .advance 4 true]

theorem always_sound_quietRun :
    (quietRun.foldl step init).msgs = [.offloaded 0, .done 0] ∧ Run.Always step Sound quietRun init := by
  refine ⟨by decide +kernel, always_sound ?_⟩
  decide +kernel

/-- The DESTROY event falls between the decision of the packet that is the 128th hit and its call of the
engine. -/
def destroyedRun : List Step :=
  .confirm webFlow :: (packets 128).append
    [.packet webFlow, .advance 128 true, .destroy webFlow, .advance 129 true,
      .advance 128 true, .advance 128 true, .advance 128 true]

/-- Two packets decide before either of them has set the flag. -/
def doubledRun : List Step :=
  .confirm webFlow :: (packets 128).append
    [.packet webFlow, .packet webFlow, .advance 128 true, .advance 129 true, .advance 128 true,
      .advance 128 true, .advance 129 true, .advance 129 true]

instance (s : Classifier) (flow : Flow) : Decidable (s.Handled flow) := inferInstanceAs (Decidable (_ ∧ _))

/-- The engine is called with an object that was freed, and in the end there is a rule and an OFFLOADED message
of a connection that is over. Without any event, a connection is offloaded twice. -/
theorem lifecycle_broken :
    (destroyedRun.foldl step init).usedAfterFree = true ∧
    ((destroyedRun.foldl step init).Handled webFlow ∧ (destroyedRun.foldl step init).rules webFlow = true) ∧
    (destroyedRun.foldl step init).msgs = [.offloaded 0] ∧
    (doubledRun.foldl step init).msgs = [.offloaded 0, .offloaded 0] ∧
    ¬ Run.Always step Sound destroyedRun init ∧ ¬ Run.Always step Sound doubledRun init := by
  have hused : (destroyedRun.foldl step init).usedAfterFree = true := by decide +kernel
  have htwice : (doubledRun.foldl step init).msgs = [.offloaded 0, .offloaded 0] := by decide +kernel
  refine ⟨hused, ⟨by decide +kernel, by decide +kernel⟩, by decide +kernel, htwice, fun h => ?_, fun h => ?_⟩
  · have hclean := h.last.noUseAfterFree
    rw [hused] at hclean
    cases hclean
  · have honce := h.last.offloadedOnce 0
    rw [htwice] at honce
    exact absurd honce (by decide)

end Immwrt.FastClassifier.Classifier
