import Immwrt.Lib.Bytes

/-!
# Buttons

`gpio-button-hotplug.c` polls the GPIOs of buttons and switches. A state is reported to user space once it was read
often enough in a row; until the first one is known, a key that is not pressed is taken as it is.
-/

namespace Immwrt.GpioButton

variable {w : Nat}

/-- `EV_KEY` -/
def evKey : Word := 1

/-- `EV_SW` -/
def evSw : Word := 5

/-- What a poll finds at a button: the value of its GPIO, and `jiffies`. -/
structure Sample (w : Nat) where
  value : Int
  jiffies : BitVec w

/-- `gpio_button_get_value` -/
def Sample.state (sample : Sample w) : Bool := decide (sample.value ≠ 0)

/-- A call of `button_hotplug_create_event`. -/
structure Event (w : Nat) where
  mapEntry : Nat
  type : Word
  seen : BitVec w
  pressed : Bool
  deriving DecidableEq

/-- `struct gpio_keys_button_data` and the type of the button. The `last_state` -1 is `none`, and a button may have no
`gpiod`. -/
structure ButtonData (w : Nat) where
  type : Word
  hasGpio : Bool
  mapEntry : Nat
  lastState : Option Bool
  count : Nat
  threshold : Nat
  seen : BitVec w

/-- A button after `gpio_keys_button_probe`. -/
def ButtonData.init (type : Word) (hasGpio : Bool) (mapEntry threshold : Nat) : ButtonData w where
  type := type
  hasGpio := hasGpio
  mapEntry := mapEntry
  lastState := none
  count := 0
  threshold := threshold
  seen := 0

/-- `bdata->b->type ?: EV_KEY` -/
def ButtonData.eventType (bdata : ButtonData w) : Word := if bdata.type = 0 then evKey else bdata.type

def ButtonData.setState (bdata : ButtonData w) (state : Bool) : ButtonData w :=
  { bdata with lastState := some state, count := 0 }

/-- `gpio_keys_handle_button`; `hz` is `HZ`. -/
def handleButton (hz : BitVec w) (sample : Sample w) (bdata : ButtonData w) : Option (Event w) × ButtonData w :=
  let type := bdata.eventType
  let state := sample.state
  let seen := sample.jiffies
  if bdata.lastState = none ∧ type = evKey ∧ state = false then (none, bdata.setState state)
  else if bdata.lastState = some state then (none, { bdata with count := 0 })
  else if bdata.count < bdata.threshold then (none, { bdata with count := bdata.count + 1 })
  else
    let since := if bdata.seen = 0 then seen else bdata.seen
    (some { mapEntry := bdata.mapEntry, type, seen := (seen - since) / hz, pressed := state },
      { bdata with seen }.setState state)

/-- `struct gpio_keys_button_dev` -/
structure ButtonDev (w : Nat) where
  nbuttons : Nat
  data : Nat → ButtonData w

/-- A device after `gpio_keys_polled_probe`. -/
def ButtonDev.Fresh (dev : ButtonDev w) : Prop :=
  ∀ i, ∃ type hasGpio mapEntry threshold, dev.data i = .init type hasGpio mapEntry threshold

/-- A turn of the loop of `gpio_keys_polled_poll`: the events with their buttons, and the device. -/
def pollButton (hz : BitVec w) (samples : Nat → Sample w) (s : List (Nat × Event w) × ButtonDev w) (i : Nat) :
    List (Nat × Event w) × ButtonDev w :=
  if (s.2.data i).hasGpio then
    let handled := handleButton hz (samples i) (s.2.data i)
    (s.1 ++ handled.1.toList.map fun event => (i, event),
      { s.2 with data := Function.update s.2.data i handled.2 })
  else s

/-- `gpio_keys_polled_poll` with what is found at each button. -/
def poll (hz : BitVec w) (samples : Nat → Sample w) (dev : ButtonDev w) : List (Nat × Event w) × ButtonDev w :=
  (List.range dev.nbuttons).foldl (pollButton hz samples) ([], dev)

/-- The device after some polls. -/
def after (hz : BitVec w) (polls : List (Nat → Sample w)) (dev : ButtonDev w) : ButtonDev w :=
  polls.foldl (fun dev samples => (poll hz samples dev).2) dev

/-- Those of some events that are of a button. -/
def eventsAt (i : Nat) (events : List (Nat × Event w)) : List (Event w) :=
  events.filterMap fun event => if event.1 = i then some event.2 else none

/-- The events of a button in some polls. -/
def eventsOf (hz : BitVec w) (i : Nat) : List (Nat → Sample w) → ButtonDev w → List (Event w)
  | [], _ => []
  | samples :: polls, dev => eventsAt i (poll hz samples dev).1 ++ eventsOf hz i polls (poll hz samples dev).2

/-! ### Debouncing -/

/-- The states that a button was found in. -/
def statesOf (polls : List (Nat → Sample w)) (i : Nat) : List Bool := polls.map fun samples => (samples i).state

/-- What debouncing is to do for a button in a run: an event comes when the state that it reports was found `threshold + 1`
times in a row, no two events in a row report the same state, and a state that is found so often is the last state. -/
structure Debounced (hz : BitVec w) (dev : ButtonDev w) (polls : List (Nat → Sample w)) (i : Nat) : Prop where
  stable : ∀ earlier samples event, earlier ++ [samples] <+: polls →
    (i, event) ∈ (poll hz samples (after hz earlier dev)).1 →
      List.replicate ((dev.data i).threshold + 1) event.pressed <:+ statesOf (earlier ++ [samples]) i
  alternate : ((eventsOf hz i polls dev).map Event.pressed).IsChain (· ≠ ·)
  caught : ∀ earlier state, earlier <+: polls →
    List.replicate ((dev.data i).threshold + 1) state <:+ statesOf earlier i →
      ((after hz earlier dev).data i).lastState = some state

end Immwrt.GpioButton
