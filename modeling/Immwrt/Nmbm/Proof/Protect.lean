import Immwrt.Nmbm.Proof.Create

/-!
# A chip that is forced read-only

When no table can be written the driver asks for the data to be saved, and from then on every entry
point looks at `protected` first. The ones that write leave everything as it is. The two that read
look at it as well, so no page can be read any more.
-/

namespace Immwrt.Nmbm

variable {nld : LowerDevice} {s s' : Sys}

/-- From `s` on, an operation or attaching the chip again forces it read-only. -/
inductive Protects (nld : LowerDevice) (s : Sys) : Sys → Prop where
  | op (op : Op) (h : (op.run nld s).ni.isProtected = true) : Protects nld s (op.run nld s)
  | load (hloaded : (attach nld s.dev).1 = some 0) (h : (attach nld s.dev).2.ni.isProtected = true) :
      Protects nld s (attach nld s.dev).2

theorem Protects.isProtected (h : Protects nld s s') : s'.ni.isProtected = true := by
  cases h with
  | op _ h => exact h
  | load _ h => exact h

theorem readSinglePage_of_isProtected (hp : s.ni.isProtected = true) (addr : Nat) :
    (readSinglePage nld addr s).1 = (-erofs, []) := by
  simp [readSinglePage, hp]

theorem readRange_of_isProtected (hp : s.ni.isProtected = true) (addr size : Nat) :
    (readRange nld addr size s).1 = ((-erofs, []), 0) := by
  simp [readRange, hp]

/-- A page that could be read can be read no more, by page or by range; nothing else changes. -/
theorem forced_readOnly_loses_reads (h : Protects nld s s') {addr : Nat}
    (hpage : 0 ≤ (readSinglePage nld addr s).1.1) :
    (readSinglePage nld addr s').1 ≠ (readSinglePage nld addr s).1 ∧
    (∀ size, 0 ≤ (readRange nld addr size s).1.1.1 →
      (readRange nld addr size s').1.1 ≠ (readRange nld addr size s).1.1) ∧
    ∀ op : Op, op.run nld s' = s' := by
  have hp := h.isProtected
  have hneg : -erofs < 0 := by decide
  refine ⟨fun heq => ?_, fun size hrange heq => ?_, fun op => op.run_of_isProtected hp⟩
  · rw [readSinglePage_of_isProtected hp] at heq
    rw [← heq] at hpage
    exact absurd hpage (not_le.2 hneg)
  · rw [readRange_of_isProtected hp] at heq
    rw [← heq] at hrange
    exact absurd hrange (not_le.2 hneg)

/-- A new chip that from now on reads, and neither erases nor programs. -/
def wornChip : Sys :=
  let s := (createNew (smallChip 16 8) (fresh (smallChip 16 8) (blankDevice []))).2
  { s with dev := { s.dev with tape := fun _ => ⟨0, -eio, -eio, 0, false, .erased⟩ } }

set_option maxRecDepth 100000 in
theorem wornChip_protects :
    Protects (smallChip 16 8) wornChip ((Op.erase 0 256).run (smallChip 16 8) wornChip) :=
  .op (.erase 0 256) (by decide +kernel)

set_option maxRecDepth 100000 in
theorem forced_readOnly_loses_reads_wornChip :
    (readSinglePage (smallChip 16 8) 256 ((Op.erase 0 256).run (smallChip 16 8) wornChip)).1 ≠
      (readSinglePage (smallChip 16 8) 256 wornChip).1 :=
  (forced_readOnly_loses_reads wornChip_protects (by decide +kernel)).1

set_option maxRecDepth 100000 in
/-- Erasing block 0 of the worn chip takes block 1 away as well. -/
theorem wornChip_unreadable :
    (createNew (smallChip 16 8) (fresh (smallChip 16 8) (blankDevice []))).1 = true ∧
    (readSinglePage (smallChip 16 8) 256 wornChip).1 = (0, List.replicate 64 0xff) ∧
    (readRange (smallChip 16 8) 256 64 wornChip).1 = ((0, List.replicate 64 0xff), 64) ∧
    let s := (Op.erase 0 256).run (smallChip 16 8) wornChip
    s.ni.isProtected = true ∧
      (readSinglePage (smallChip 16 8) 256 s).1 = (-erofs, []) ∧
      (readRange (smallChip 16 8) 256 64 s).1 = ((-erofs, []), 0) := by
  decide +kernel

end Immwrt.Nmbm
