import Immwrt.Lib.Bytes

/-!
# The fast classifier

`fast-classifier.c` keeps an object for each connection that is forwarded and hands a connection to the
shortcut forwarding engine once enough packets were seen. Packets run through
`fast_classifier_post_routing` and the end of a connection through `fast_classifier_conntrack_event`, any
number of them at a time. A run is cut where another one can come in between: a section under
`sfe_connections_lock` is one step, and so is a call of the engine, the sending of a message, and each access
to an object outside the lock. The engine is the set of flows that it has a rule for; it may drop a rule at any
time. Connection tracking takes a flow up and ends it with a DESTROY event, and a packet belongs to a flow that
was tracked when the packet came in.
-/

namespace Immwrt.FastClassifier

/-- The protocol and the tuple of the original direction. -/
structure Flow where
  protocol : BitVec 8
  isV4 : Bool
  srcIp : BitVec 128
  destIp : BitVec 128
  srcPort : BitVec 16
  destPort : BitVec 16
  deriving DecidableEq

/-- `struct sfe_connection` -/
structure Conn where
  flow : Flow
  hits : Word
  offloadPermit : Bool
  offloaded : Bool
  freed : Bool

def Conn.hit (conn : Conn) : Conn := { conn with hits := conn.hits + 1 }

/-- The connection is not offloaded yet and is to be. -/
def Conn.wanted (conn : Conn) (offloadAtPkts : Word) : Bool :=
  !conn.offloaded && (conn.offloadPermit || offloadAtPkts.sle conn.hits)

inductive Message where
  | offloaded (conn : Nat)
  | done (conn : Nat)
  deriving DecidableEq

/-- Where a run stands. The first seven are places in `fast_classifier_post_routing`: before the lookup;
behind it, with an object that was found, before `conn->offloaded` is read, before the rule is updated, before
the rule is created, before the message and before the flag is set; without an object, before
`fast_classifier_add_conn`. The next two are places in `fast_classifier_conntrack_event`, behind the lock. -/
inductive Phase where
  | start
  | check (conn : Nat)
  | update (conn : Nat)
  | create (conn : Nat)
  | send (conn : Nat)
  | mark (conn : Nat)
  | add
  | destroyRule (offloaded : Option Nat)
  | sendDone (conn : Nat)
  | finished
  deriving DecidableEq

structure Run where
  flow : Flow
  phase : Phase

/-- Objects are known by their number, and so are runs. -/
structure Classifier where
  conns : Nat → Conn
  allocated : Nat
  table : List Nat
  size : Int
  offloadAtPkts : Word
  rules : Flow → Bool
  msgs : List Message
  tracked : Flow → Bool
  runs : Nat → Run
  started : Nat
  usedAfterFree : Bool

namespace Classifier

/-! ### Pieces of a step -/

def findConn (s : Classifier) (flow : Flow) : Option Nat :=
  s.table.find? fun c => decide ((s.conns c).flow = flow)

@[simps]
def modify (s : Classifier) (c : Nat) (f : Conn → Conn) : Classifier :=
  { s with conns := Function.update s.conns c (f (s.conns c)) }

/-- An access to an object outside the lock. -/
@[simps]
def use (s : Classifier) (c : Nat) : Classifier :=
  { s with usedAfterFree := s.usedAfterFree || (s.conns c).freed }

@[simps]
def setRule (s : Classifier) (flow : Flow) (present : Bool) : Classifier :=
  { s with rules := Function.update s.rules flow present }

@[simps]
def setTracked (s : Classifier) (flow : Flow) (tracked : Bool) : Classifier :=
  { s with tracked := Function.update s.tracked flow tracked }

@[simps]
def sendGenlMsg (s : Classifier) (msg : Message) : Classifier := { s with msgs := s.msgs ++ [msg] }

@[simps]
def goto (s : Classifier) (i : Nat) (phase : Phase) : Classifier :=
  { s with runs := Function.update s.runs i { s.runs i with phase := phase } }

@[simps]
def spawn (s : Classifier) (flow : Flow) (phase : Phase) : Classifier :=
  { s with
    runs := Function.update s.runs s.started { flow := flow, phase := phase }
    started := s.started + 1 }

/-! ### Packets -/

/-- The first section under the lock; `established` is the answer of `fast_classifier_update_protocol`. -/
def lookup (s : Classifier) (i : Nat) (established : Bool) : Classifier :=
  match s.findConn (s.runs i).flow with
  | none => s.goto i .add
  | some c =>
    let s := s.modify c Conn.hit
    if (s.conns c).wanted s.offloadAtPkts then
      s.goto i (if established then .create c else .finished)
    else s.goto i (.check c)

/-- `create_rule`: a rule that is there already is `-EADDRINUSE`, else the engine may refuse. -/
def createRule (s : Classifier) (i c : Nat) (accepts : Bool) : Classifier :=
  let s := s.use c
  let flow := (s.conns c).flow
  if s.rules flow then s.goto i (.send c)
  else if accepts then (s.setRule flow true).goto i (.send c)
  else s.goto i .finished

/-- `fast_classifier_add_conn` of a new object. -/
def addConn (s : Classifier) (flow : Flow) : Classifier :=
  match s.findConn flow with
  | some _ => s
  | none =>
    { s with
      conns := Function.update s.conns s.allocated
        { flow := flow, hits := 0, offloadPermit := false, offloaded := false, freed := false }
      allocated := s.allocated + 1
      table := s.allocated :: s.table
      size := s.size + 1 }

/-- `if (offloaded)` -/
def afterDestroyRule : Option Nat → Phase
  | some c => .sendDone c
  | none => .finished

/-- The next step of a run. `ok` is what the step asks of others: that the connection is established, that the
engine takes the rule, that there are devices, addresses and memory for an object. -/
def advance (s : Classifier) (i : Nat) (ok : Bool) : Classifier :=
  match (s.runs i).phase with
  | .start => s.lookup i ok
  | .check c => (s.use c).goto i (if (s.conns c).offloaded then .update c else .finished)
  | .update c => (s.use c).goto i .finished
  | .create c => s.createRule i c ok
  | .send c => ((s.use c).sendGenlMsg (.offloaded c)).goto i (.mark c)
  | .mark c => ((s.use c).modify c fun conn => { conn with offloaded := true }).goto i .finished
  | .add => (if ok then s.addConn (s.runs i).flow else s).goto i .finished
  | .destroyRule offloaded => (s.setRule (s.runs i).flow false).goto i (afterDestroyRule offloaded)
  | .sendDone c => (s.sendGenlMsg (.done c)).goto i .finished
  | .finished => s

/-! ### Events -/

/-- `fast_classifier_conntrack_event` for a DESTROY, up to the end of the section under the lock. -/
def destroy (s : Classifier) (flow : Flow) : Classifier :=
  let s := s.setTracked flow false
  match s.findConn flow with
  | none => s.spawn flow (.destroyRule none)
  | some c =>
    ({ s with table := s.table.erase c, size := s.size - 1 }.modify c fun conn =>
      { conn with freed := true }).spawn flow (.destroyRule (if (s.conns c).offloaded then some c else none))

inductive Step where
  | confirm (flow : Flow)
  | packet (flow : Flow)
  | advance (run : Nat) (ok : Bool)
  | destroy (flow : Flow)
  | offload (flow : Flow)
  | setOffloadAtPkts (new : Word)
  | flush (flow : Flow)

/-- A tracked connection gets its DESTROY once. A request of the user finds an object by a tuple and lets it be
offloaded. -/
def step (s : Classifier) : Step → Classifier
  | .confirm flow => s.setTracked flow true
  | .packet flow => if s.tracked flow then s.spawn flow .start else s
  | .advance i ok => s.advance i ok
  | .destroy flow => if s.tracked flow then s.destroy flow else s
  | .offload flow =>
    match s.findConn flow with
    | none => s
    | some c => s.modify c fun conn => { conn with offloadPermit := true }
  | .setOffloadAtPkts new => { s with offloadAtPkts := new }
  | .flush flow => s.setRule flow false

/-- The module is loaded. -/
def init : Classifier where
  conns := fun _ => ⟨⟨0, true, 0, 0, 0, 0⟩, 0, false, false, false⟩
  allocated := 0
  table := []
  size := 0
  offloadAtPkts := 128
  rules := fun _ => false
  msgs := []
  tracked := fun _ => false
  runs := fun _ => ⟨⟨0, true, 0, 0, 0, 0⟩, .finished⟩
  started := 0
  usedAfterFree := false

/-! ### The lifecycle of a connection -/

/-- The connection was ended, and its packets and events are through. -/
def Handled (s : Classifier) (flow : Flow) : Prop :=
  s.tracked flow = false ∧ ∀ i < s.started, (s.runs i).flow = flow → (s.runs i).phase = .finished

/-- What is to hold in every state. -/
structure Sound (s : Classifier) : Prop where
  noUseAfterFree : s.usedAfterFree = false
  offloadedOnce : ∀ c, s.msgs.count (.offloaded c) ≤ 1
  doneAfterOffloaded : ∀ c, s.msgs.count (.done c) ≤ s.msgs.count (.offloaded c)
  doneWhenOffloaded : ∀ c, s.Handled (s.conns c).flow →
    s.msgs.count (.done c) = s.msgs.count (.offloaded c)
  distinct : (s.table.map fun c => (s.conns c).flow).Nodup
  size : s.size = s.table.length
  noRule : ∀ flow, s.Handled flow → s.rules flow = false

end Classifier

end Immwrt.FastClassifier
