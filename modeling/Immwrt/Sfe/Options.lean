import Immwrt.Lib.Endian
import Immwrt.Sfe.Packet

/-!
# The options of a TCP header

`sfe_ipv4_process_tcp_option_sack` walks the options for the right edges of SACK blocks. Here its loop
stands with the turns it takes and the bytes it reads, and beside it what the walk finds: the options in
their order, with the position of each.
-/

namespace Immwrt.Sfe

variable (bytes : Nat → Byte)

/-! ### The loop, turn by turn -/

/-- The bytes that the loop over the blocks of a SACK option reads. -/
def blockReads (ptr size re : Nat) : List Nat :=
  if re < size then
    [ptr + re, ptr + re + 1, ptr + re + 2, ptr + re + 3] ++ blockReads ptr size (re + 8)
  else []
termination_by size - re

/-- `n` turns of the loop of `sfe_ipv4_process_tcp_option_sack`: the result, `none` if it is still running,
and the offsets of the bytes read. -/
def optionTurns (dataOffs : Nat) : Nat → Nat → Word → Option (Option Word) × List Nat
  | 0, _, _ => (none, [])
  | n + 1, length, ack =>
    if length < dataOffs then
      if bytes length = 1 then
        let r := optionTurns dataOffs n (length + 1) ack
        (r.1, length :: r.2)
      else if bytes length = 5 then
        let size := (bytes (length + 1)).toNat
        if size < 10 ∨ (size - 2) % 8 ≠ 0 ∨ dataOffs - length < size then
          (some none, [length, length + 1])
        else
          let sack := sackEdge bytes length size 6 0
          let r := optionTurns dataOffs n (length + size) (if ack < sack then sack else ack)
          (r.1, length :: (length + 1) :: (blockReads length size 6 ++ r.2))
      else if bytes length = 0 then (some (some ack), [length])
      else
        let size := (bytes (length + 1)).toNat
        if size < 2 then (some none, [length, length + 1])
        else
          let r := optionTurns dataOffs n (length + size) ack
          (r.1, length :: (length + 1) :: r.2)
    else (some (some ack), [])

/-- The bytes read to see whether a timestamp is the only option. -/
def timestampReads (dataOffs : Nat) : List Nat :=
  if dataOffs = 32 then
    20 :: if bytes 20 = 1 then 21 :: if bytes 21 = 1 then 22 :: if bytes 22 = 8 then [23] else [] else []
      else []
  else []

/-- `sfe_ipv4_process_tcp_option_sack` with `n` turns for its loop. -/
def processTurns (dataOffs n : Nat) (ack : Word) : Option (Option Word) × List Nat :=
  if dataOffs = 32 ∧ bytes 20 = 1 ∧ bytes 21 = 1 ∧ bytes 22 = 8 ∧ bytes 23 = 10 then
    (some (some ack), timestampReads bytes dataOffs)
  else
    let r := optionTurns bytes dataOffs n 20 ack
    (r.1, timestampReads bytes dataOffs ++ r.2)

/-- The window check of `sfe_ipv4_recv_tcp` gets as far as the options. -/
def TcpHdr.parsed (h : TcpHdr) (cm : TcpState) : Prop :=
  cm.noSeqCheck = false ∧ after (ntohl h.seq) (cm.maxEnd + 1) = false ∧ 20 ≤ h.doff.toNat * 4

/-! ### What the walk finds -/

inductive TcpOption where
  | nop
  | eol
  | bad
  | sack (size : Nat)
  | other (size : Nat)
  deriving DecidableEq

/-- The option at an offset, as the loop takes it. -/
def optionAt (dataOffs length : Nat) : TcpOption :=
  if bytes length = 1 then .nop
  else if bytes length = 5 then
    let size := (bytes (length + 1)).toNat
    if size < 10 ∨ (size - 2) % 8 ≠ 0 ∨ dataOffs - length < size then .bad else .sack size
  else if bytes length = 0 then .eol
  else
    let size := (bytes (length + 1)).toNat
    if size < 2 then .bad else .other size

/-- How far the walk goes for an option. -/
def TcpOption.extent : TcpOption → Nat
  | nop => 1
  | eol => 1
  | bad => 2
  | sack size => size
  | other size => size

/-- How many bytes of an option are looked at. -/
def TcpOption.examined : TcpOption → Nat
  | nop => 1
  | eol => 1
  | bad => 2
  | sack size => size
  | other _ => 2

/-- The walk ends with the option. -/
def TcpOption.last (o : TcpOption) : Prop := o = eol ∨ o = bad

instance (o : TcpOption) : Decidable o.last := inferInstanceAs (Decidable (_ ∨ _))

theorem optionAt_extent_pos (dataOffs length : Nat) : 0 < (optionAt bytes dataOffs length).extent := by
  unfold optionAt
  split
  · exact Nat.one_pos
  split
  · dsimp only
    split
    · exact Nat.two_pos
    · next hsize =>
      simp only [TcpOption.extent]
      omega
  split
  · exact Nat.one_pos
  dsimp only
  split
  · exact Nat.two_pos
  · next hsize =>
    simp only [TcpOption.extent]
    omega

/-- The options from an offset on, each with its offset. -/
def walkOptions (dataOffs length : Nat) : List (Nat × TcpOption) :=
  if length < dataOffs then
    let o := optionAt bytes dataOffs length
    (length, o) :: if o.last then [] else walkOptions dataOffs (length + o.extent)
  else []
termination_by dataOffs - length
decreasing_by
  have := optionAt_extent_pos bytes dataOffs length
  omega

/-- The word at an offset, in network order. -/
def edgeAt (i : Nat) : Word := bytes i ++ bytes (i + 1) ++ bytes (i + 2) ++ bytes (i + 3)

/-- The larger of two words, as unsigned numbers. -/
def raise (x y : Word) : Word := if x < y then y else x

/-- The right edges of the blocks of a SACK option. -/
def blockEdges (ptr size re : Nat) : List Word :=
  if re < size then edgeAt bytes (ptr + re) :: blockEdges ptr size (re + 8) else []
termination_by size - re

/-- The right edges of an option. -/
def TcpOption.edges (pos : Nat) : TcpOption → List Word
  | sack size => blockEdges bytes pos size 6
  | _ => []

/-- The right edges of all SACK blocks of a header. -/
def sackEdges (dataOffs : Nat) : List Word :=
  (walkOptions bytes dataOffs 20).flatMap fun o => o.2.edges bytes o.1

/-- The bytes read for an option. -/
def TcpOption.reads (pos : Nat) : TcpOption → List Nat
  | nop => [pos]
  | eol => [pos]
  | bad => [pos, pos + 1]
  | sack size => pos :: (pos + 1) :: blockReads pos size 6
  | other _ => [pos, pos + 1]

/-! ### The same options with other edges -/

/-- The byte at `i` when the words from `low` on are greater by `b`. -/
def shiftedByte (b : Word) (low i : Nat) : Byte :=
  let e := low + (i - low) / 4 * 4
  (wordBe (edgeAt bytes e + b)).getD (i - e) 0

/-- The bytes with both edges of every SACK block of these options greater by `b`. -/
def shiftOptions (b : Word) : List (Nat × TcpOption) → Nat → Byte
  | [], i => bytes i
  | (pos, .sack size) :: rest, i =>
    if pos + 2 ≤ i ∧ i < pos + size then shiftedByte bytes b (pos + 2) i else shiftOptions b rest i
  | _ :: rest, i => shiftOptions b rest i

/-- The bytes of a header with both edges of every SACK block greater by `b`. -/
def shiftEdges (b : Word) (dataOffs : Nat) : Nat → Byte :=
  shiftOptions bytes b (walkOptions bytes dataOffs 20)

end Immwrt.Sfe
