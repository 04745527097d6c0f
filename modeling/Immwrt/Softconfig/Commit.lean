import Immwrt.Lib.File
import Immwrt.Lib.Text

/-!
# RouterBOOT soft configuration

The driver keeps a copy of the soft_config partition in `sc_buf`. Stores to the attributes change the copy
and clear its CRC field, which marks it as dirty; a commit writes the copy to the flash with its CRC, or
reads it back. The transitions are the critical sections of `sc_bufrwl`, so any number of stores and
commits may interleave between them. The driver has write support. Words are in the byte order of the CPU, here little-endian.
-/

namespace Immwrt.Softconfig

/-- The kernel's text functions and checksum, and the size of the partition, which holds at least the
magic and the CRC field. -/
structure Kernel where
  sysfsStreq : CString → CString → Bool
  kstrtobool : CString → Option Bool
  kstrtou32 : CString → Except Errno Word
  crc32 : Word → List Byte → Word
  size : Nat
  header : 8 ≤ size

/-- What a partition of `size` bytes holds. -/
structure Contents (size : Nat) where
  bytes : List Byte
  length_eq : bytes.length = size
  deriving DecidableEq

def crc32Offset : Nat := 4

/-- `*(u32 *)(sc_buf + ofs) = w` -/
def Contents.setWord {size : Nat} (c : Contents size) (ofs : Nat) (w : Word) (h : ofs + 4 ≤ size) :
    Contents size where
  bytes := splice c.bytes ofs (u32le w)
  length_eq := by
    rw [length_splice (by rw [length_u32le, c.length_eq]; exact h), c.length_eq]

section Crc

variable (k : Kernel)

theorem Kernel.crcFits : crc32Offset + 4 ≤ k.size := k.header

/-- `RB_SC_GETCRC` -/
def getCrc (c : Contents k.size) : Word := getU32 c.bytes crc32Offset

/-- `RB_SC_SETCRC` -/
def setCrc (c : Contents k.size) (crc : Word) : Contents k.size := c.setWord crc32Offset crc k.crcFits

/-- `RB_SC_CLRCRC` -/
def clrCrc (c : Contents k.size) : Contents k.size := setCrc k c 0

end Crc

/-! ### Attributes -/

/-- What an attribute accepts: a text of a table of values, one of two texts, or a boot delay. The table of
an unknown device is an error. -/
inductive Tstore where
  | u32tvs (tvs : Except Errno (List (Word × CString)))
  | boolts (strfalse strtrue : CString)
  | bootdelays

/-- An attribute with the place of its payload in the buffer, behind the magic and the CRC field. A payload
of one word lies inside the buffer. -/
structure ScAttr (size : Nat) where
  tstore : Option Tstore
  pldOfs : Nat
  pldLen : Nat
  behind : 8 ≤ pldOfs
  inside : pldLen = 4 → pldOfs + 4 ≤ size

def scTagStoreU32tvs (k : Kernel) (pldLen : Nat) (text : CString)
    (tvs : Except Errno (List (Word × CString))) : Except Errno Word :=
  match tvs with
  | .error err => .error err
  | .ok tvs =>
    if pldLen ≠ 4 then .error .einval
    else
      match tvs.find? fun tv => k.sysfsStreq text tv.2 with
      | some tv => .ok tv.1
      | none => .error .einval

def scTagStoreBoolts (k : Kernel) (pldLen : Nat) (text strfalse strtrue : CString) : Except Errno Word :=
  if pldLen ≠ 4 then .error .einval
  else if k.sysfsStreq text strfalse then .ok 0
  else if k.sysfsStreq text strtrue then .ok 1
  else .error .einval

def bootDelayMin : Word := 1

def bootDelayMax : Word := 9

def scTagStoreBootdelays (k : Kernel) (pldLen : Nat) (text : CString) : Except Errno Word :=
  if pldLen ≠ 4 then .error .einval
  else
    match k.kstrtou32 text with
    | .error err => .error err
    | .ok data => if data < bootDelayMin ∨ bootDelayMax < data then .error .einval else .ok data

/-- The word that a text stands for. -/
def Tstore.value (k : Kernel) (pldLen : Nat) (text : CString) : Tstore → Except Errno Word
  | .u32tvs tvs => scTagStoreU32tvs k pldLen text tvs
  | .boolts strfalse strtrue => scTagStoreBoolts k pldLen text strfalse strtrue
  | .bootdelays => scTagStoreBootdelays k pldLen text

/-- The buffer after a store to an attribute: the word and a cleared CRC field. -/
def scAttrStore (k : Kernel) (attr : ScAttr k.size) (capable : Bool) (text : CString)
    (buf : Contents k.size) : Except Errno (Contents k.size) :=
  if ¬ capable then .error .eacces
  else
    match attr.tstore with
    | none => .error .eopnotsupp
    | some tstore =>
      if attr.pldLen = 0 then .error .enoent
      else
        match tstore.value k attr.pldLen text with
        | .error err => .error err
        | .ok data =>
          if hlen : attr.pldLen = 4 then .ok (clrCrc k (buf.setWord attr.pldOfs data (attr.inside hlen)))
          else .error .einval

/-! ### Commits -/

/-- How `mtd_read` or `mtd_write` ends: done with all bytes, done with some of them, or with an error. In
the last two cases the destination may hold anything. -/
inductive MtdResult (size : Nat) where
  | done
  | short (left : Contents size)
  | failed (err : Errno) (left : Contents size)

/-- Where a commit stands between its sections: behind the test of the CRC field, or on its way to mark
the buffer as invalid. -/
inductive Phase where
  | tested (flush : Bool)
  | failed (err : Errno)
  deriving DecidableEq

/-- The buffer, the flash and the commits in progress. `committed` keeps what the successful commits have
written. -/
structure Soft (k : Kernel) where
  buf : Contents k.size
  flash : Contents k.size
  commits : Nat → Option Phase
  committed : List (Contents k.size)

inductive Event (k : Kernel) where
  | attrStore (attr : ScAttr k.size) (capable : Bool) (text : CString)
  | commitTest (id : Nat) (text : CString) (device : Bool)
  | commitReread (id : Nat) (read : MtdResult k.size)
  | commitFlush (id : Nat) (erase : Option (Errno × Contents k.size)) (write : MtdResult k.size)
  | commitFail (id : Nat)

section Steps

variable {k : Kernel}

def Soft.setCommit (s : Soft k) (id : Nat) (phase : Option Phase) : Soft k :=
  { s with commits := Function.update s.commits id phase }

/-- The section that rereads the flash into the buffer. -/
def Soft.reread (s : Soft k) (id : Nat) : MtdResult k.size → Soft k
  | .done => { s with buf := s.flash }.setCommit id none
  | .short left => { s with buf := left }.setCommit id (some (.failed .eio))
  | .failed err left => { s with buf := left }.setCommit id (some (.failed err))

/-- The section that writes the buffer. The CRC is taken of the buffer as it is, because its CRC field was
0 when it was tested. `erase` is the error of `mtd_erase` and what it left of the flash. -/
def Soft.flush (s : Soft k) (id : Nat) (erase : Option (Errno × Contents k.size))
    (write : MtdResult k.size) : Soft k :=
  let crc := ~~~ k.crc32 (~~~ 0) s.buf.bytes
  let buf := setCrc k s.buf crc
  match erase, write with
  | some (err, left), _ => { s with buf := buf, flash := left }.setCommit id (some (.failed err))
  | none, .done => { s with buf := buf, flash := buf, committed := buf :: s.committed }.setCommit id none
  | none, .short left => { s with buf := buf, flash := left }.setCommit id (some (.failed .eio))
  | none, .failed err left => { s with buf := buf, flash := left }.setCommit id (some (.failed err))

/-- One section; `none` for one that the commit is not at. A store or a commit that is refused leaves
everything as it was. -/
def Soft.step (s : Soft k) : Event k → Option (Soft k)
  | .attrStore attr capable text =>
    match scAttrStore k attr capable text s.buf with
    | .error _ => some s
    | .ok buf => some { s with buf := buf }
  | .commitTest id text device =>
    if s.commits id ≠ none then none
    else if getCrc k s.buf ≠ 0 then some s
    else
      match k.kstrtobool text with
      | none => some s
      | some flush => if device then some (s.setCommit id (some (.tested flush))) else some s
  | .commitReread id read => if s.commits id = some (.tested false) then some (s.reread id read) else none
  | .commitFlush id erase write =>
    if s.commits id = some (.tested true) then some (s.flush id erase write) else none
  | .commitFail id =>
    match s.commits id with
    | some (.failed _) => some ({ s with buf := clrCrc k s.buf }.setCommit id none)
    | _ => none

def Soft.run : Soft k → List (Event k) → Option (Soft k)
  | s, [] => some s
  | s, event :: events =>
    match s.step event with
    | none => none
    | some s => s.run events

end Steps

/-- The state that `rb_softconfig_init` leaves: the buffer was read from the flash. -/
def Soft.init (k : Kernel) (flash : Contents k.size) : Soft k where
  buf := flash
  flash := flash
  commits := fun _ => none
  committed := []

/-- What the commit attribute shows: clean when the CRC field is not 0. -/
def Soft.clean {k : Kernel} (s : Soft k) : Prop := getCrc k s.buf ≠ 0

end Immwrt.Softconfig
