import Immwrt.Lib.Chain
import Immwrt.Lib.Text

/-!
# The variable table of an NVRAM handle

A handle maps the NVRAM partition and keeps its variables in 257 bucket lists; tuples that were unset
wait on a dead list until the table is freed. Tuples are reached through pointers, as in `nvram.c`: a
bucket head, the head of the dead list and the `next` field of a tuple are cells that hold one.
-/

namespace Immwrt.Nvram

open Linked

/-- What the compiler decides for the library: whether `char` is signed, and the width of `long`. -/
structure Target where
  signedChar : Bool
  longBits : Nat

/-- The value of a `char` in an expression of type `uint32_t`. -/
def Target.ofChar (tgt : Target) (c : Byte) : Word :=
  if tgt.signedChar then c.signExtend 32 else c.zeroExtend 32

def hash (tgt : Target) (s : CString) : Word :=
  s.bytes.foldl (fun hash c => 31 * hash + tgt.ofChar c) 0

def nvramArraysize : Nat := 257

abbrev Ptr := Nat

inductive Root where
  | hash (i : Fin nvramArraysize)
  | dead
  deriving DecidableEq

abbrev Place := Cell Root Ptr

structure Tuple where
  name : CString
  value : CString
  next : Option Ptr

structure Handle where
  mmap : List Byte
  length : Word
  offset : Word
  nvramHash : Fin nvramArraysize → Option Ptr
  nvramDead : Option Ptr
  heap : Ptr → Tuple
  /-- The tuples handed out so far are those below `brk`. -/
  brk : Nat

namespace Handle

/-- The pointer stored at a place. -/
def deref (h : Handle) : Place → Option Ptr
  | .root (.hash i) => h.nvramHash i
  | .root .dead => h.nvramDead
  | .next t => (h.heap t).next

def assign (h : Handle) : Place → Option Ptr → Handle
  | .root (.hash i), v => { h with nvramHash := Function.update h.nvramHash i v }
  | .root .dead, v => { h with nvramDead := v }
  | .next t, v => { h with heap := Function.update h.heap t { h.heap t with next := v } }

/-- The bucket of a name. -/
def bucket (tgt : Target) (name : CString) : Fin nvramArraysize :=
  ⟨(hash tgt name).toNat % nvramArraysize, Nat.mod_lt _ (by decide)⟩

/-- The loop that looks for `name`: the place it stops at and the tuple found there. -/
def find (h : Handle) (name : CString) (prev : Place) : Place × Option Ptr :=
  walk h.deref (fun t => decide ((h.heap t).name = name)) (h.brk + 1) prev

def nvramRealloc (h : Handle) (t : Option Ptr) (name value : CString) : Handle × Option Ptr :=
  if value.strlen + 1 > (h.length - h.offset).toNat then (h, none)
  else
    match t with
    | none =>
      ({ h with
          heap := Function.update h.heap h.brk { name := name, value := value, next := none }
          brk := h.brk + 1 }, some h.brk)
    | some t =>
      if (h.heap t).value = value then (h, some t)
      else ({ h with heap := Function.update h.heap t { h.heap t with value := value } }, some t)

def nvramGet (tgt : Target) (h : Handle) (name : CString) : Option CString :=
  (h.find name (.root (.hash (bucket tgt name)))).2.map fun t => (h.heap t).value

/-- Move the tuple `t` that `prev` points to onto the dead list. -/
def bury (h : Handle) (prev : Place) (t : Ptr) : Handle :=
  let h := h.assign prev (h.heap t).next
  let h := h.assign (.next t) h.nvramDead
  h.assign (.root .dead) (some t)

def nvramSet (tgt : Target) (h : Handle) (name value : CString) : Handle × Int :=
  let i := bucket tgt name
  let (prev, t) := h.find name (.root (.hash i))
  match h.nvramRealloc t name value with
  | (h, none) => (h, -12)
  | (h, some u) =>
    if t = some u then (h, 0)
    else
      let h := match t with
        | none => h
        | some t => h.bury prev t
      let h := h.assign (.next u) (h.nvramHash i)
      (h.assign (.root (.hash i)) (some u), 0)

def nvramUnset (tgt : Target) (h : Handle) (name : CString) : Handle × Int :=
  let (prev, t) := h.find name (.root (.hash (bucket tgt name)))
  match t with
  | none => (h, 0)
  | some t => (h.bury prev t, 0)

/-- The name and the value of every tuple of a bucket, the first one first. -/
def bucketTuples (h : Handle) (i : Fin nvramArraysize) : List (CString × CString) :=
  (nodes h.deref (h.brk + 1) (.root (.hash i))).map fun t => ((h.heap t).name, (h.heap t).value)

/-- The copies, the one made last first. -/
def nvramGetall (h : Handle) : List (CString × CString) :=
  ((List.finRange nvramArraysize).flatMap h.bucketTuples).foldl (fun l x => x :: l) []

/-- No list holds a tuple any more. -/
def nvramFree (h : Handle) : Handle :=
  { h with nvramHash := fun _ => none, nvramDead := none }

end Handle

/-! ### Runs -/

inductive Op where
  | set (name value : CString)
  | unset (name : CString)
  | get (name : CString)

def Op.step (tgt : Target) (h : Handle) : Op → Handle
  | .set name value => (h.nvramSet tgt name value).1
  | .unset name => (h.nvramUnset tgt name).1
  | .get _ => h

def runOps (tgt : Target) (ops : List Op) (h : Handle) : Handle := ops.foldl (Op.step tgt) h

end Immwrt.Nvram
