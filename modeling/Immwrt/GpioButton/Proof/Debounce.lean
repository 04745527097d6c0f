import Immwrt.GpioButton.Button

/-!
# Debouncing

A button counts the polls that do not find it in its last state, and forgets them when one does. As long as there is no
last state, nothing is forgotten: a key takes the first poll that does not find it pressed, but a switch that bounces is
reported after `threshold + 1` polls, in the state of the last of them.
-/

namespace Immwrt.GpioButton

variable {w : Nat} {hz : BitVec w}

/-! ### One poll of one button -/

section Button

variable {sample : Sample w} {bdata : ButtonData w}

/-- A key that is not pressed when the first state is looked for. -/
abbrev Quiet (sample : Sample w) (bdata : ButtonData w) : Prop :=
  bdata.lastState = none ∧ bdata.eventType = evKey ∧ sample.state = false

theorem handleButton_quiet (h : Quiet sample bdata) : handleButton hz sample bdata = (none, bdata.setState false) := by
  rw [handleButton]
  dsimp only
  rw [if_pos h, h.2.2]

theorem handleButton_same (h : bdata.lastState = some sample.state) :
    handleButton hz sample bdata = (none, { bdata with count := 0 }) := by
  have hquiet : ¬ Quiet sample bdata := fun hquiet => by
    rw [hquiet.1] at h
    cases h
  rw [handleButton]
  dsimp only
  rw [if_neg hquiet, if_pos h]

theorem handleButton_count (hquiet : ¬ Quiet sample bdata) (hnew : bdata.lastState ≠ some sample.state)
    (hlt : bdata.count < bdata.threshold) :
    handleButton hz sample bdata = (none, { bdata with count := bdata.count + 1 }) := by
  rw [handleButton]
  dsimp only
  rw [if_neg hquiet, if_neg hnew, if_pos hlt]

variable (hz) in
theorem handleButton_report (hquiet : ¬ Quiet sample bdata) (hnew : bdata.lastState ≠ some sample.state)
    (hle : bdata.threshold ≤ bdata.count) :
    ∃ event : Event w, event.pressed = sample.state ∧
      handleButton hz sample bdata =
        (some event, { bdata with seen := sample.jiffies }.setState sample.state) := by
  rw [handleButton]
  dsimp only
  rw [if_neg hquiet, if_neg hnew, if_neg (Nat.not_lt.2 hle)]
  exact ⟨_, rfl, rfl⟩

/-- What a button knows of the states that it was found in since it was fresh: all of them, as long as it has no last
state; those since its last state otherwise. -/
structure Tracks (fresh : ButtonData w) (states : List Bool) (bdata : ButtonData w) : Prop where
  type : bdata.type = fresh.type
  hasGpio : bdata.hasGpio = fresh.hasGpio
  threshold : bdata.threshold = fresh.threshold
  count : bdata.count ≤ fresh.threshold
  unknown : bdata.lastState = none →
    states.length = bdata.count ∧ (fresh.eventType = evKey → states = List.replicate bdata.count true)
  known : ∀ state, bdata.lastState = some state → state :: List.replicate bdata.count (!state) <:+ states

variable {fresh : ButtonData w} {states : List Bool}

theorem tracks_init (type : Word) (hasGpio : Bool) (mapEntry threshold : Nat) :
    Tracks (w := w) (.init type hasGpio mapEntry threshold) [] (.init type hasGpio mapEntry threshold) where
  type := rfl
  hasGpio := rfl
  threshold := rfl
  count := Nat.zero_le _
  unknown _ := ⟨rfl, fun _ => rfl⟩
  known state h := by cases h

theorem Tracks.eventType (h : Tracks fresh states bdata) : bdata.eventType = fresh.eventType := by
  rw [ButtonData.eventType, ButtonData.eventType, h.type]

/-- A state that is not the last one is the other one. -/
theorem eq_not_of_ne {state other : Bool} (h : some state ≠ some other) : other = !state := by
  cases state <;> cases other <;> simp_all

theorem Tracks.handleButton (h : Tracks fresh states bdata) (hz : BitVec w) (sample : Sample w) :
    Tracks fresh (states ++ [sample.state]) (handleButton hz sample bdata).2 := by
  have hnewest : ∀ state, state :: List.replicate 0 (!state) <:+ states ++ [state] := fun state =>
    List.suffix_append states [state]
  by_cases hquiet : Quiet sample bdata
  · rw [handleButton_quiet hquiet]
    refine ⟨h.type, h.hasGpio, h.threshold, Nat.zero_le _, fun hnone => (by cases hnone), fun state hstate => ?_⟩
    obtain rfl := Option.some.inj hstate
    rw [hquiet.2.2]
    exact hnewest false
  by_cases hsame : bdata.lastState = some sample.state
  · rw [handleButton_same hsame]
    refine ⟨h.type, h.hasGpio, h.threshold, Nat.zero_le _, fun hnone => ?_, fun state hstate => ?_⟩
    · cases hsame.symm.trans hnone
    · obtain rfl := Option.some.inj (hsame.symm.trans hstate)
      exact hnewest sample.state
  by_cases hlt : bdata.count < bdata.threshold
  · rw [handleButton_count hquiet hsame hlt]
    refine ⟨h.type, h.hasGpio, h.threshold, by rw [← h.threshold]; exact hlt, fun hnone => ?_, fun state hstate => ?_⟩
    · obtain ⟨hlength, hkey⟩ := h.unknown hnone
      refine ⟨by rw [List.length_append, List.length_singleton, hlength], fun htype => ?_⟩
      have hpressed : sample.state = true := by
        rw [← Bool.not_eq_false]
        exact fun hfalse => hquiet ⟨hnone, h.eventType.trans htype, hfalse⟩
      rw [hkey htype, hpressed, ← List.replicate_succ']
    · have hother : sample.state = !state := eq_not_of_ne (hstate ▸ hsame)
      rw [List.replicate_succ', ← List.cons_append, hother]
      exact List.suffix_append_self_iff.2 (h.known state hstate)
  · obtain ⟨event, -, hreport⟩ := handleButton_report hz hquiet hsame (Nat.not_lt.1 hlt)
    rw [hreport]
    refine ⟨h.type, h.hasGpio, h.threshold, Nat.zero_le _, fun hnone => (by cases hnone), fun state hstate => ?_⟩
    obtain rfl := Option.some.inj hstate
    exact hnewest sample.state

theorem handleButton_event {event : Event w} (hevent : (handleButton hz sample bdata).1 = some event) :
    ¬ Quiet sample bdata ∧ bdata.lastState ≠ some sample.state ∧ bdata.threshold ≤ bdata.count ∧
      event.pressed = sample.state ∧ (handleButton hz sample bdata).2.lastState = some sample.state := by
  by_cases hquiet : Quiet sample bdata
  · rw [handleButton_quiet hquiet] at hevent
    cases hevent
  by_cases hsame : bdata.lastState = some sample.state
  · rw [handleButton_same hsame] at hevent
    cases hevent
  by_cases hlt : bdata.count < bdata.threshold
  · rw [handleButton_count hquiet hsame hlt] at hevent
    cases hevent
  · obtain ⟨reported, hpressed, hreport⟩ := handleButton_report hz hquiet hsame (Nat.not_lt.1 hlt)
    rw [hreport] at hevent ⊢
    obtain rfl := Option.some.inj hevent
    exact ⟨hquiet, hsame, Nat.not_lt.1 hlt, hpressed, rfl⟩

/-- Without an event the last state stays, or becomes known. -/
theorem handleButton_no_event (hnone : (handleButton hz sample bdata).1 = none) :
    (handleButton hz sample bdata).2.lastState = bdata.lastState ∨ bdata.lastState = none := by
  by_cases hquiet : Quiet sample bdata
  · exact .inr hquiet.1
  by_cases hsame : bdata.lastState = some sample.state
  · rw [handleButton_same hsame]
    exact .inl rfl
  by_cases hlt : bdata.count < bdata.threshold
  · rw [handleButton_count hquiet hsame hlt]
    exact .inl rfl
  · obtain ⟨event, -, hreport⟩ := handleButton_report hz hquiet hsame (Nat.not_lt.1 hlt)
    rw [hreport] at hnone
    cases hnone

/-- An event comes after `threshold + 1` states in a row, unless it is the first state of a switch. -/
theorem Tracks.stable (h : Tracks fresh states bdata) {event : Event w}
    (hevent : (GpioButton.handleButton hz sample bdata).1 = some event) :
    List.replicate (fresh.threshold + 1) event.pressed <:+ states ++ [sample.state] ∨
      (fresh.eventType ≠ evKey ∧ states.length = fresh.threshold ∧ event.pressed = sample.state) := by
  obtain ⟨hquiet, hnew, hle, hpressed, -⟩ := handleButton_event hevent
  have hcount : bdata.count = fresh.threshold := Nat.le_antisymm h.count (h.threshold ▸ hle)
  cases hlast : bdata.lastState with
  | none =>
      obtain ⟨hlength, hkey⟩ := h.unknown hlast
      by_cases htype : fresh.eventType = evKey
      · have htrue : sample.state = true := by
          rw [← Bool.not_eq_false]
          exact fun hfalse => hquiet ⟨hlast, h.eventType.trans htype, hfalse⟩
        rw [hkey htype, hpressed, htrue, hcount, ← List.replicate_succ']
        exact .inl (List.suffix_refl _)
      · exact .inr ⟨htype, hlength.trans hcount, hpressed⟩
  | some state =>
      have hother : sample.state = !state := eq_not_of_ne (hlast ▸ hnew)
      have hknown := (List.suffix_cons _ _).trans (h.known state hlast)
      rw [hpressed, hother, List.replicate_succ', ← hcount]
      exact .inl (List.suffix_append_self_iff.2 hknown)

/-- A state that was found `threshold + 1` times in a row is the last state. -/
theorem Tracks.caught (h : Tracks fresh states bdata) {state : Bool}
    (hstates : List.replicate (fresh.threshold + 1) state <:+ states) : bdata.lastState = some state := by
  have hle := hstates.length_le
  have hcount := h.count
  rw [List.length_replicate] at hle
  cases hlast : bdata.lastState with
  | none =>
      have hlength := (h.unknown hlast).1
      omega
  | some other =>
      have hsuffix : other :: List.replicate bdata.count (!other) <:+ List.replicate (fresh.threshold + 1) state :=
        List.suffix_of_suffix_length_le (h.known other hlast) hstates (by simpa using hcount)
      rw [List.eq_of_mem_replicate (hsuffix.subset List.mem_cons_self)]

end Button

/-! ### One poll of all buttons -/

section Device

variable {samples : Nat → Sample w} {dev : ButtonDev w} {i : Nat}

theorem mem_eventsAt {event : Event w} {events : List (Nat × Event w)} :
    event ∈ eventsAt i events ↔ (i, event) ∈ events := by
  rw [eventsAt, List.mem_filterMap]
  constructor
  · rintro ⟨⟨j, other⟩, hmem, hpick⟩
    by_cases hj : j = i
    · rw [if_pos hj] at hpick
      obtain rfl := Option.some.inj hpick
      exact hj ▸ hmem
    · rw [if_neg hj] at hpick
      cases hpick
  · exact fun hmem => ⟨(i, event), hmem, if_pos rfl⟩

theorem eventsAt_append (i : Nat) (events more : List (Nat × Event w)) :
    eventsAt i (events ++ more) = eventsAt i events ++ eventsAt i more := List.filterMap_append

theorem eventsAt_map (i j : Nat) (events : List (Event w)) :
    eventsAt i (events.map fun event => (j, event)) = if j = i then events else [] := by
  rw [eventsAt, List.filterMap_map]
  by_cases hj : j = i
  · rw [if_pos hj]
    simp [hj]
  · rw [if_neg hj]
    simp [hj]

/-- What a poll does with a button, and what it reports of it. -/
def handled (hz : BitVec w) (samples : Nat → Sample w) (dev : ButtonDev w) (i : Nat) :
    List (Event w) × ButtonData w :=
  if (dev.data i).hasGpio then
    ((handleButton hz (samples i) (dev.data i)).1.toList, (handleButton hz (samples i) (dev.data i)).2)
  else ([], dev.data i)

/-- The first turns of the loop handle the first buttons. -/
theorem foldl_pollButton (hz : BitVec w) (samples : Nat → Sample w) (dev : ButtonDev w) (n : Nat) :
    ((List.range n).foldl (pollButton hz samples) ([], dev)).2.nbuttons = dev.nbuttons ∧
      ∀ i, ((List.range n).foldl (pollButton hz samples) ([], dev)).2.data i =
          (if i < n then (handled hz samples dev i).2 else dev.data i) ∧
        eventsAt i ((List.range n).foldl (pollButton hz samples) ([], dev)).1 =
          if i < n then (handled hz samples dev i).1 else [] := by
  induction n with
  | zero => exact ⟨rfl, fun i => ⟨rfl, rfl⟩⟩
  | succ n ih =>
      obtain ⟨hbuttons, hdata⟩ := ih
      obtain ⟨hn, -⟩ := hdata n
      rw [if_neg (Nat.lt_irrefl n)] at hn
      rw [List.range_succ, List.foldl_append, List.foldl_cons, List.foldl_nil, pollButton, hn]
      generalize (List.range n).foldl (pollButton hz samples) ([], dev) = s at hbuttons hdata hn ⊢
      by_cases hgpio : (dev.data n).hasGpio = true
      · have hhandled : handled hz samples dev n =
            ((handleButton hz (samples n) (dev.data n)).1.toList, (handleButton hz (samples n) (dev.data n)).2) :=
          if_pos hgpio
        rw [if_pos hgpio]
        refine ⟨hbuttons, fun i => ?_⟩
        dsimp only
        rw [eventsAt_append, eventsAt_map, (hdata i).2]
        rcases Nat.lt_trichotomy i n with hlt | rfl | hgt
        · rw [Function.update_of_ne (by omega), (hdata i).1]
          simp only [hlt, Nat.lt_succ_of_lt hlt, if_true, show n ≠ i by omega, if_false, List.append_nil, and_self]
        · rw [Function.update_self, hhandled]
          simp
        · rw [Function.update_of_ne (by omega), (hdata i).1]
          simp only [show ¬ i < n by omega, show ¬ i < n + 1 by omega, if_false, show n ≠ i by omega, List.append_nil,
            and_self]
      · have hhandled : handled hz samples dev n = ([], dev.data n) := if_neg hgpio
        rw [if_neg hgpio]
        refine ⟨hbuttons, fun i => ?_⟩
        rcases Nat.lt_trichotomy i n with hlt | rfl | hgt
        · rw [(hdata i).1, (hdata i).2, if_pos hlt, if_pos hlt, if_pos (Nat.lt_succ_of_lt hlt),
            if_pos (Nat.lt_succ_of_lt hlt)]
          exact ⟨rfl, rfl⟩
        · rw [(hdata i).1, (hdata i).2, hhandled]
          simp
        · rw [(hdata i).1, (hdata i).2]
          simp only [show ¬ i < n by omega, show ¬ i < n + 1 by omega, if_false, and_self]

theorem nbuttons_poll (hz : BitVec w) (samples : Nat → Sample w) (dev : ButtonDev w) :
    (poll hz samples dev).2.nbuttons = dev.nbuttons :=
  (foldl_pollButton hz samples dev dev.nbuttons).1

variable (hz samples) in
/-- A button with a GPIO is handled in every poll, whatever the others are. -/
theorem poll_button (hi : i < dev.nbuttons) (hgpio : (dev.data i).hasGpio = true) :
    (poll hz samples dev).2.data i = (handleButton hz (samples i) (dev.data i)).2 ∧
      eventsAt i (poll hz samples dev).1 = (handleButton hz (samples i) (dev.data i)).1.toList := by
  have hhandled : handled hz samples dev i =
      ((handleButton hz (samples i) (dev.data i)).1.toList, (handleButton hz (samples i) (dev.data i)).2) := if_pos hgpio
  obtain ⟨hdata, hevents⟩ := (foldl_pollButton hz samples dev dev.nbuttons).2 i
  rw [if_pos hi, hhandled] at hdata hevents
  exact ⟨hdata, hevents⟩

/-! ### Runs -/

theorem after_concat (hz : BitVec w) (polls : List (Nat → Sample w)) (samples : Nat → Sample w) (dev : ButtonDev w) :
    after hz (polls ++ [samples]) dev = (poll hz samples (after hz polls dev)).2 := by
  rw [after, List.foldl_append]
  rfl

theorem statesOf_concat (polls : List (Nat → Sample w)) (samples : Nat → Sample w) (i : Nat) :
    statesOf (polls ++ [samples]) i = statesOf polls i ++ [(samples i).state] := List.map_append

theorem eventsOf_concat (hz : BitVec w) (i : Nat) (polls : List (Nat → Sample w)) (samples : Nat → Sample w)
    (dev : ButtonDev w) :
    eventsOf hz i (polls ++ [samples]) dev =
      eventsOf hz i polls dev ++ eventsAt i (poll hz samples (after hz polls dev)).1 := by
  induction polls generalizing dev with
  | nil => exact List.append_nil _
  | cons first polls ih =>
      rw [List.cons_append, eventsOf, ih, eventsOf, List.append_assoc]
      rfl

/-- In every run a button knows what it was found in. -/
theorem after_tracks (hfresh : dev.Fresh) (hi : i < dev.nbuttons) (hgpio : (dev.data i).hasGpio = true)
    (hz : BitVec w) (polls : List (Nat → Sample w)) :
    (after hz polls dev).nbuttons = dev.nbuttons ∧
      Tracks (dev.data i) (statesOf polls i) ((after hz polls dev).data i) := by
  induction polls using List.reverseRecOn with
  | nil =>
      obtain ⟨type, hasGpio, mapEntry, threshold, hdata⟩ := hfresh i
      refine ⟨rfl, ?_⟩
      rw [after, List.foldl_nil, hdata]
      exact tracks_init type hasGpio mapEntry threshold
  | append_singleton polls samples ih =>
      obtain ⟨hbuttons, htracks⟩ := ih
      have hpoll := poll_button hz samples (hbuttons ▸ hi) (htracks.hasGpio.trans hgpio)
      rw [after_concat, nbuttons_poll, hpoll.1, statesOf_concat]
      exact ⟨hbuttons, htracks.handleButton hz (samples i)⟩

/-- The events of a run report one state and the other in turn, the last one the last state. -/
theorem after_alternates (hfresh : dev.Fresh) (hi : i < dev.nbuttons) (hgpio : (dev.data i).hasGpio = true)
    (polls : List (Nat → Sample w)) :
    ((eventsOf hz i polls dev).map Event.pressed).IsChain (· ≠ ·) ∧
      (((after hz polls dev).data i).lastState = none → eventsOf hz i polls dev = []) ∧
      ∀ state, ((after hz polls dev).data i).lastState = some state →
        ∀ pressed ∈ ((eventsOf hz i polls dev).map Event.pressed).getLast?, pressed = state := by
  induction polls using List.reverseRecOn with
  | nil => exact ⟨.nil, fun _ => rfl, fun _ _ _ hmem => by cases hmem⟩
  | append_singleton polls samples ih =>
      obtain ⟨hchain, hunknown, hknown⟩ := ih
      obtain ⟨hbuttons, htracks⟩ := after_tracks hfresh hi hgpio hz polls
      obtain ⟨hdata, hevents⟩ := poll_button hz samples (hbuttons ▸ hi) (htracks.hasGpio.trans hgpio)
      rw [eventsOf_concat, after_concat, hdata, hevents, List.map_append]
      generalize (after hz polls dev).data i = bdata at *
      cases hevent : (handleButton hz (samples i) bdata).1 with
      | none =>
          rw [Option.toList_none, List.map_nil, List.append_nil, List.append_nil]
          rcases handleButton_no_event hevent with hsame | hnone
          · rw [hsame]
            exact ⟨hchain, hunknown, hknown⟩
          · rw [hunknown hnone]
            exact ⟨.nil, fun _ => rfl, fun _ _ _ hmem => by cases hmem⟩
      | some event =>
          obtain ⟨-, hnew, -, hpressed, hlast⟩ := handleButton_event hevent
          rw [hlast, Option.toList_some, List.map_singleton, List.getLast?_append, List.getLast?_singleton]
          refine ⟨hchain.append (.singleton _) fun pressed hmem other hother => ?_, fun hnone => (by cases hnone),
            fun state hstate pressed hmem => ?_⟩
          · obtain rfl := Option.some.inj hother
            rw [hpressed]
            rintro rfl
            cases hstate : bdata.lastState with
            | none =>
                rw [hunknown hstate] at hmem
                cases hmem
            | some state =>
                rw [hknown state hstate _ hmem] at hnew
                exact hnew hstate
          · obtain rfl := Option.some.inj hmem
            exact hpressed.trans (Option.some.inj hstate)

/-- A switch has no last state during its first polls, whatever they find. -/
theorem after_unknown (hz : BitVec w) (hfresh : dev.Fresh) (hi : i < dev.nbuttons) (hgpio : (dev.data i).hasGpio = true)
    (htype : (dev.data i).eventType ≠ evKey) {polls : List (Nat → Sample w)}
    (hle : polls.length ≤ (dev.data i).threshold) : ((after hz polls dev).data i).lastState = none := by
  induction polls using List.reverseRecOn with
  | nil =>
      obtain ⟨type, hasGpio, mapEntry, threshold, hdata⟩ := hfresh i
      rw [after, List.foldl_nil, hdata, ButtonData.init]
  | append_singleton polls samples ih =>
      rw [List.length_append, List.length_singleton] at hle
      have hnone := ih (by omega)
      obtain ⟨hbuttons, htracks⟩ := after_tracks hfresh hi hgpio hz polls
      have hcount := (htracks.unknown hnone).1
      rw [statesOf, List.length_map] at hcount
      have hquiet : ¬ Quiet (samples i) ((after hz polls dev).data i) := fun hquiet =>
        htype (htracks.eventType.symm.trans hquiet.2.1)
      have hnew : ((after hz polls dev).data i).lastState ≠ some (samples i).state := by
        rw [hnone]
        exact (Option.some_ne_none _).symm
      rw [after_concat, (poll_button hz samples (hbuttons ▸ hi) (htracks.hasGpio.trans hgpio)).1,
        handleButton_count hquiet hnew (by rw [htracks.threshold]; omega)]
      exact hnone

/-- The debouncing of a button works if and only if it is a key, or a switch that does not bounce during its first
`threshold + 1` polls. -/
theorem debounced_iff (hz : BitVec w) (hfresh : dev.Fresh) (hi : i < dev.nbuttons)
    (hgpio : (dev.data i).hasGpio = true) (polls : List (Nat → Sample w)) :
    Debounced hz dev polls i ↔
      (dev.data i).eventType = evKey ∨ polls.length ≤ (dev.data i).threshold ∨
        ∃ state, (statesOf polls i).take ((dev.data i).threshold + 1) =
          List.replicate ((dev.data i).threshold + 1) state := by
  have hmem : ∀ earlier samples event,
      (i, event) ∈ (poll hz samples (after hz earlier dev)).1 ↔
        (handleButton hz (samples i) ((after hz earlier dev).data i)).1 = some event := by
    intro earlier samples event
    obtain ⟨hbuttons, htracks⟩ := after_tracks hfresh hi hgpio hz earlier
    rw [← mem_eventsAt, (poll_button hz samples (hbuttons ▸ hi) (htracks.hasGpio.trans hgpio)).2, Option.mem_toList]
  have htake : ∀ {earlier : List (Nat → Sample w)}, earlier <+: polls →
      (statesOf polls i).take earlier.length = statesOf earlier i := by
    intro earlier hprefix
    rw [statesOf, statesOf, ← List.map_take, ← List.prefix_iff_eq_take.1 hprefix]
  constructor
  · intro hdebounced
    by_cases htype : (dev.data i).eventType = evKey
    · exact .inl htype
    by_cases hle : polls.length ≤ (dev.data i).threshold
    · exact .inr (.inl hle)
    -- the poll that reports the first state
    have hlt : (dev.data i).threshold < polls.length := Nat.lt_of_not_le hle
    have hprefix : polls.take (dev.data i).threshold ++ [polls[(dev.data i).threshold]] <+: polls := by
      rw [List.take_append_getElem]
      exact List.take_prefix _ _
    have hlength : (polls.take (dev.data i).threshold).length = (dev.data i).threshold := List.length_take_of_le hlt.le
    have hnone := after_unknown hz hfresh hi hgpio htype hlength.le
    obtain ⟨-, htracks⟩ := after_tracks hfresh hi hgpio hz (polls.take (dev.data i).threshold)
    have hcount := (htracks.unknown hnone).1
    rw [statesOf, List.length_map, hlength] at hcount
    have hquiet : ¬ Quiet (polls[(dev.data i).threshold] i)
        ((after hz (polls.take (dev.data i).threshold) dev).data i) := fun hquiet =>
      htype (htracks.eventType.symm.trans hquiet.2.1)
    obtain ⟨event, -, hreport⟩ := handleButton_report hz hquiet
      (by rw [hnone]; exact (Option.some_ne_none _).symm) (htracks.threshold.trans hcount).le
    have hstable := hdebounced.stable _ _ event hprefix ((hmem _ _ _).2 (by rw [hreport]))
    refine .inr (.inr ⟨event.pressed, ?_⟩)
    have hall := hstable.eq_of_length (by
      rw [List.length_replicate, statesOf, List.length_map, List.length_append, hlength, List.length_singleton])
    rw [hall, ← htake hprefix, List.length_append, hlength, List.length_singleton]
  · intro hcond
    refine ⟨fun earlier samples event hprefix hevent => ?_, (after_alternates hfresh hi hgpio polls).1,
      fun earlier state _ hstates => (after_tracks hfresh hi hgpio hz earlier).2.caught hstates⟩
    obtain ⟨-, htracks⟩ := after_tracks hfresh hi hgpio hz earlier
    rw [statesOf_concat]
    rcases htracks.stable ((hmem _ _ _).1 hevent) with hstable | ⟨htype, hlength, hpressed⟩
    · exact hstable
    · have hprefixLength := hprefix.length_le
      rw [statesOf, List.length_map] at hlength
      rw [List.length_append, List.length_singleton, hlength] at hprefixLength
      obtain ⟨state, hstates⟩ : ∃ state, (statesOf polls i).take ((dev.data i).threshold + 1) =
          List.replicate ((dev.data i).threshold + 1) state :=
        (hcond.resolve_left htype).resolve_left (by omega)
      have hall := htake hprefix
      rw [List.length_append, List.length_singleton, hlength, hstates, statesOf_concat] at hall
      have hstate : (samples i).state = state :=
        List.eq_of_mem_replicate (hall ▸ List.mem_append_right _ List.mem_cons_self)
      rw [← hall, hpressed, hstate]

end Device

/-- One switch, which is debounced over two polls. -/
def lidSwitch : ButtonDev 32 where
  nbuttons := 1
  data _ := .init evSw true 0 1

theorem debounced_lidSwitch : Debounced 100 lidSwitch [fun _ => ⟨1, 0⟩, fun _ => ⟨1, 20⟩, fun _ => ⟨0, 40⟩] 0 :=
  (debounced_iff 100 (fun _ => ⟨_, _, _, _, rfl⟩) (by decide) rfl _).2 (.inr (.inr ⟨true, by decide⟩))

/-- A switch that bounces when the first state is looked for is reported as pressed after it was once. -/
theorem not_debounced_lidSwitch : ¬ Debounced 100 lidSwitch [fun _ => ⟨0, 0⟩, fun _ => ⟨1, 20⟩] 0 := by
  intro hdebounced
  have hstable := hdebounced.stable [fun _ => ⟨0, 0⟩] (fun _ => ⟨1, 20⟩) ⟨0, evSw, 0, true⟩ (List.prefix_refl _)
    (by decide)
  exact absurd hstable (by decide)

end Immwrt.GpioButton
