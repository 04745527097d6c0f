import Immwrt.FastClassifier.Classifier
import Immwrt.Lib.Run

/-!
# Tuples of the fast classifier

The connections of `fast-classifier.c` hang in `fc_conn_ht`, each in the bucket of its original tuple. User space
knows a connection by the tuple in the messages `OFFLOADED` and `DONE`, which has the translated destination, and
asks for a connection by such a tuple. `hash_min` of the kernel chooses the bucket of a key.
-/

namespace Immwrt.FastClassifier

/-- `sfe_ip_addr_t` in words; of an IPv4 address only the first is meant. -/
abbrev IpAddr := Fin 4 → Word

-- the literals below are of this type
local instance neZeroFour : NeZero 4 := ⟨Nat.succ_ne_zero 3⟩

/-- `AF_INET` -/
def afInet : BitVec 16 := 2

/-- `AF_INET6` -/
def afInet6 : BitVec 16 := 10

/-- `sfe_addr_equal` -/
def addrEqual (a b : IpAddr) (isV4 : Bool) : Bool :=
  if isV4 then a 0 == b 0 else a 0 == b 0 && a 1 == b 1 && a 2 == b 2 && a 3 == b 3

/-- `fc_conn_hash` -/
def fcConnHash (saddr daddr : IpAddr) (sport dport : BitVec 16) (isV4 : Bool) : Word :=
  let cnt := if isV4 then 1 else 4
  let hash := ((List.finRange 4).take cnt).foldl (fun hash idx => hash ^^^ (saddr idx ^^^ daddr idx)) 0
  hash ^^^ (sport.setWidth 32 ||| dport.setWidth 32 <<< 16)

/-- `struct sfe_connection_create`, as far as a lookup reads it. -/
structure Sic where
  protocol : BitVec 8
  srcIp : IpAddr
  destIp : IpAddr
  destIpXlate : IpAddr
  srcPort : BitVec 16
  destPort : BitVec 16
  destPortXlate : BitVec 16

/-- `struct sfe_connection` with its `sic`. -/
structure Connection where
  sic : Sic
  isV4 : Bool
  smac : BitVec 48
  dmac : BitVec 48
  offloadPermit : Bool

/-- `struct fast_classifier_tuple` -/
structure Tuple where
  ethertype : BitVec 16
  proto : BitVec 8
  srcSaddr : IpAddr
  dstSaddr : IpAddr
  sport : BitVec 16
  dport : BitVec 16
  smac : BitVec 48
  dmac : BitVec 48

/-- An address is written over another one. -/
def putAddr (isV4 : Bool) (addr old : IpAddr) : IpAddr :=
  if isV4 then Function.update old 0 (addr 0) else addr

/-- `fc_msg` of the messages `OFFLOADED` and `DONE`; `stack` is what was in its place. -/
def Connection.report (conn : Connection) (stack : Tuple) : Tuple where
  ethertype := if conn.isV4 then afInet else afInet6
  proto := conn.sic.protocol
  srcSaddr := putAddr conn.isV4 conn.sic.srcIp stack.srcSaddr
  dstSaddr := putAddr conn.isV4 conn.sic.destIpXlate stack.dstSaddr
  sport := conn.sic.srcPort
  dport := conn.sic.destPortXlate
  smac := conn.smac
  dmac := conn.dmac

/-- The tuple of the other direction. -/
def Tuple.reverse (msg : Tuple) : Tuple :=
  { msg with srcSaddr := msg.dstSaddr, dstSaddr := msg.srcSaddr, sport := msg.dport, dport := msg.sport }

/-- `fc_conn_ht`. Objects are known by their number. -/
structure ConnTable where
  conns : Nat → Connection
  allocated : Nat
  buckets : Nat → List Nat
  size : Int

namespace ConnTable

/-- The module is loaded. -/
def init (conns : Nat → Connection) : ConnTable where
  conns := conns
  allocated := 0
  buckets _ := []
  size := 0

section Lookup

variable (hashMin : Word → Nat) (t : ConnTable) (saddr daddr : IpAddr) (sport dport : BitVec 16) (proto : BitVec 8)
  (isV4 : Bool)

/-- `fast_classifier_find_conn` -/
def findConn : Option Nat :=
  (t.buckets (hashMin (fcConnHash saddr daddr sport dport isV4))).find? fun c =>
    let conn := t.conns c
    let sic := conn.sic
    decide (conn.isV4 = isV4 ∧ sic.protocol = proto ∧ sic.srcPort = sport ∧ sic.destPort = dport ∧
      addrEqual sic.srcIp saddr isV4 ∧ addrEqual sic.destIp daddr isV4)

/-- A loop of `fast_classifier_sb_find_conn`. -/
def sbFindIn : Option Nat :=
  (t.buckets (hashMin (fcConnHash saddr daddr sport dport isV4))).find? fun c =>
    let conn := t.conns c
    let sic := conn.sic
    decide (conn.isV4 = isV4 ∧ sic.protocol = proto ∧ sic.srcPort = sport ∧ sic.destPortXlate = dport ∧
      addrEqual sic.srcIp saddr isV4 ∧ addrEqual sic.destIpXlate daddr isV4)

/-- `fast_classifier_sb_find_conn` -/
def sbFindConn : Option Nat :=
  (t.sbFindIn hashMin saddr daddr sport dport proto isV4).or
    (t.sbFindIn hashMin daddr saddr dport sport proto isV4)

end Lookup

variable (hashMin : Word → Nat)

/-- The bucket of the original tuple. -/
def bucket (conn : Connection) : Nat :=
  hashMin (fcConnHash conn.sic.srcIp conn.sic.destIp conn.sic.srcPort conn.sic.destPort conn.isV4)

/-- The lookup of `fast_classifier_add_conn`. -/
def duplicate (t : ConnTable) (conn : Connection) : Option Nat :=
  t.findConn hashMin conn.sic.srcIp conn.sic.destIp conn.sic.srcPort conn.sic.destPort conn.sic.protocol conn.isV4

/-- `fast_classifier_add_conn` of a new object; one that is there already is freed. -/
def addConn (t : ConnTable) (conn : Connection) : ConnTable :=
  match t.duplicate hashMin conn with
  | some _ => t
  | none =>
    { conns := Function.update t.conns t.allocated conn
      allocated := t.allocated + 1
      buckets := Function.update t.buckets (bucket hashMin conn) (t.allocated :: t.buckets (bucket hashMin conn))
      size := t.size + 1 }

/-- `fast_classifier_conntrack_event` for a DESTROY. -/
def destroyConn (t : ConnTable) (saddr daddr : IpAddr) (sport dport : BitVec 16) (proto : BitVec 8) (isV4 : Bool) :
    ConnTable :=
  match t.findConn hashMin saddr daddr sport dport proto isV4 with
  | none => t
  | some c => { t with buckets := fun i => (t.buckets i).erase c, size := t.size - 1 }

/-- The lookup of `fast_classifier_offload_genl_msg`. -/
def request (t : ConnTable) (msg : Tuple) : Option Nat :=
  t.sbFindConn hashMin msg.srcSaddr msg.dstSaddr msg.sport msg.dport msg.proto (msg.ethertype == afInet)

/-- `fast_classifier_offload_genl_msg` -/
def offloadGenlMsg (t : ConnTable) (msg : Tuple) : ConnTable :=
  match t.request hashMin msg with
  | none => t
  | some c => { t with conns := Function.update t.conns c { t.conns c with offloadPermit := true } }

/-- What happens under `sfe_connections_lock`. -/
inductive Step where
  | add (conn : Connection)
  | destroy (saddr daddr : IpAddr) (sport dport : BitVec 16) (proto : BitVec 8) (isV4 : Bool)
  | offload (msg : Tuple)

def step (t : ConnTable) : Step → ConnTable
  | .add conn => t.addConn hashMin conn
  | .destroy saddr daddr sport dport proto isV4 => t.destroyConn hashMin saddr daddr sport dport proto isV4
  | .offload msg => t.offloadGenlMsg hashMin msg

end ConnTable

/-! ### Which connection is meant -/

/-- An address without the words that do not belong to it. -/
def addrBits (isV4 : Bool) (addr : IpAddr) : BitVec 128 :=
  if isV4 then 0#96 ++ addr 0 else addr 0 ++ addr 1 ++ addr 2 ++ addr 3

def flowOf (saddr daddr : IpAddr) (sport dport : BitVec 16) (proto : BitVec 8) (isV4 : Bool) : Flow where
  protocol := proto
  isV4 := isV4
  srcIp := addrBits isV4 saddr
  destIp := addrBits isV4 daddr
  srcPort := sport
  destPort := dport

/-- The original tuple. -/
def Connection.flow (conn : Connection) : Flow :=
  flowOf conn.sic.srcIp conn.sic.destIp conn.sic.srcPort conn.sic.destPort conn.sic.protocol conn.isV4

/-- The tuple in a report. -/
def Connection.reported (conn : Connection) : Flow :=
  flowOf conn.sic.srcIp conn.sic.destIpXlate conn.sic.srcPort conn.sic.destPortXlate conn.sic.protocol conn.isV4

/-- The tuple of a message. -/
def Tuple.flow (msg : Tuple) : Flow :=
  flowOf msg.srcSaddr msg.dstSaddr msg.sport msg.dport msg.proto (msg.ethertype == afInet)

def Flow.reverse (flow : Flow) : Flow :=
  { flow with srcIp := flow.destIp, destIp := flow.srcIp, srcPort := flow.destPort, destPort := flow.srcPort }

namespace ConnTable

/-- The bucket of the tuple in a report. -/
def reportedBucket (hashMin : Word → Nat) (conn : Connection) : Nat :=
  hashMin (fcConnHash conn.sic.srcIp conn.sic.destIpXlate conn.sic.srcPort conn.sic.destPortXlate conn.isV4)

/-- The objects in the table. -/
def held (t : ConnTable) : Set Nat := { c | ∃ i, c ∈ t.buckets i }

/-- No two connections are reported under one tuple. -/
def Distinct (t : ConnTable) : Prop :=
  ∀ c ∈ t.held, ∀ d ∈ t.held, (t.conns c).reported = (t.conns d).reported → c = d

/-- A report that is sent back, in either direction, finds the connection. -/
def Found (hashMin : Word → Nat) (t : ConnTable) (c : Nat) : Prop :=
  ∀ stack, t.request hashMin ((t.conns c).report stack) = some c ∧
    t.request hashMin ((t.conns c).report stack).reverse = some c

def Identified (hashMin : Word → Nat) (t : ConnTable) : Prop := ∀ c ∈ t.held, t.Found hashMin c

/-- The connection is in the bucket of its report, and no other one is in the bucket of the reversed tuple with
that tuple as its report. -/
def Placed (hashMin : Word → Nat) (t : ConnTable) (c : Nat) : Prop :=
  bucket hashMin (t.conns c) = reportedBucket hashMin (t.conns c) ∧
    ∀ d ∈ t.held, d ≠ c → (t.conns d).reported = (t.conns c).reported.reverse →
      bucket hashMin (t.conns d) ≠ reportedBucket hashMin (t.conns d)

/-- A connection that is added belongs in the bucket of its report, and none is reported under the reversed tuple. -/
def Fits (hashMin : Word → Nat) (t : ConnTable) : Step → Prop
  | .add conn =>
    t.duplicate hashMin conn = none →
      bucket hashMin conn = reportedBucket hashMin conn ∧
        ∀ d ∈ t.held, (t.conns d).reported ≠ conn.reported.reverse
  | _ => True

end ConnTable

end Immwrt.FastClassifier
