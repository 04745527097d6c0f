import Immwrt.Mtd.Write

/-!
# Where `mtd_write` puts the image

The write loop keeps its cursors in step on the first device: block `k` of the walk stands for block
`first + k`, the one the file position is at. The bad block table however is asked about `k`. So the image
is placed as a reader expects it exactly when the two blocks are good together all along the walk, and the
walk stays on the first device.
-/

namespace Immwrt.Mtd

/-! ### The image in blocks -/

/-- The first block of the text, padded. -/
def block (erasesize : Nat) (x : List Byte) : List Byte :=
  x.take erasesize ++ List.replicate (erasesize - x.length) 0xff

theorem length_block (erasesize : Nat) (x : List Byte) : (block erasesize x).length = erasesize := by
  simp only [block, List.length_append, List.length_take, List.length_replicate]
  omega

theorem le_blockCount_mul {erasesize : Nat} (hpos : 0 < erasesize) (n : Nat) :
    n ≤ blockCount erasesize n * erasesize := by
  have hdiv := Nat.div_add_mod (n + erasesize - 1) erasesize
  have hmod := Nat.mod_lt (n + erasesize - 1) hpos
  rw [Nat.mul_comm] at hdiv
  rw [blockCount]
  omega

theorem blockCount_le_iff {erasesize : Nat} (hpos : 0 < erasesize) (n count : Nat) :
    blockCount erasesize n ≤ count ↔ n ≤ count * erasesize := by
  rw [blockCount, Nat.div_le_iff_le_mul_add_pred hpos, Nat.mul_comm]
  omega

theorem lt_blockCount_iff {erasesize : Nat} (hpos : 0 < erasesize) (n count : Nat) :
    count < blockCount erasesize n ↔ count * erasesize < n := by
  rw [← not_le, ← not_le, blockCount_le_iff hpos]

theorem length_padded {erasesize : Nat} (hpos : 0 < erasesize) (image : List Byte) :
    (padded erasesize image).length = blockCount erasesize image.length * erasesize := by
  have := le_blockCount_mul hpos image.length
  simp only [padded, List.length_append, List.length_replicate]
  omega

/-- The `i`th block of the padded image. -/
theorem slice_padded {erasesize : Nat} (hpos : 0 < erasesize) (image : List Byte) {i : Nat}
    (hi : i * erasesize < image.length) :
    slice (padded erasesize image) (i * erasesize) erasesize = block erasesize (image.drop (i * erasesize)) := by
  have hcount := (lt_blockCount_iff hpos image.length i).mpr hi
  have hle : (i + 1) * erasesize ≤ blockCount erasesize image.length * erasesize :=
    Nat.mul_le_mul_right _ hcount
  rw [Nat.add_mul, Nat.one_mul] at hle
  rw [slice, padded, List.drop_append_of_le_length hi.le, List.take_append, List.length_drop, block,
    List.length_drop, List.take_replicate, Nat.min_eq_left (by omega)]

/-! ### The buffer -/

namespace Buffer

/-- What is still to be written: the buffer, then the rest of the file. -/
def content (b : Buffer) : List Byte := bytesAt b.mem 0 b.buflen ++ b.image

variable {erasesize : Nat} {b : Buffer}

theorem fill_buflen (hlen : b.buflen ≤ erasesize) :
    (b.fill erasesize).buflen = min b.content.length erasesize := by
  simp only [fill, content, List.length_append, length_bytesAt, List.length_take]
  omega

theorem drop_image (hlen : b.buflen ≤ erasesize) :
    b.image.drop (erasesize - b.buflen) = b.content.drop erasesize := by
  rw [content, List.drop_append, length_bytesAt,
    List.drop_eq_nil_of_le ((length_bytesAt _ _ _).trans_le hlen), List.nil_append]

theorem bytesAt_fill (hlen : b.buflen ≤ erasesize) :
    bytesAt (b.fill erasesize).mem 0 (b.fill erasesize).buflen = b.content.take erasesize := by
  have hmem : (b.fill erasesize).mem = store b.mem b.buflen (b.image.take (erasesize - b.buflen)) := rfl
  have hlen' : (b.fill erasesize).buflen = b.buflen + (b.image.take (erasesize - b.buflen)).length := rfl
  rw [hlen', bytesAt_add, hmem, Nat.zero_add, bytesAt_store_self,
    bytesAt_store_of_disjoint b.mem _ (Or.inl (by omega)), content, List.take_append, length_bytesAt,
    List.take_of_length_le ((length_bytesAt _ _ _).trans_le hlen)]

theorem pad_buflen (hlen : b.buflen ≤ erasesize) : (b.pad erasesize).buflen = erasesize := by
  rw [pad]
  split
  · rfl
  · omega

theorem pad_offset : (b.pad erasesize).offset = b.offset := by
  rw [pad]
  split <;> rfl

theorem bytesAt_pad (hlen : b.buflen ≤ erasesize) :
    bytesAt (b.pad erasesize).mem 0 erasesize =
      bytesAt b.mem 0 b.buflen ++ List.replicate (erasesize - b.buflen) 0xff := by
  rw [pad]
  split
  · have hself := bytesAt_store_self b.mem b.buflen (List.replicate (erasesize - b.buflen) (0xff : Byte))
    have hlow : bytesAt (store b.mem b.buflen (List.replicate (erasesize - b.buflen) 0xff)) 0 b.buflen =
        bytesAt b.mem 0 b.buflen := bytesAt_store_of_disjoint b.mem _ (Or.inl (by omega))
    have hsplit := bytesAt_add (store b.mem b.buflen (List.replicate (erasesize - b.buflen) 0xff)) 0
      b.buflen (erasesize - b.buflen)
    rw [List.length_replicate] at hself
    rw [Nat.add_sub_cancel' hlen, Nat.zero_add, hself, hlow] at hsplit
    exact hsplit
  · have hle : erasesize - b.buflen = 0 := by omega
    have heq : b.buflen = erasesize := by omega
    rw [hle, heq, List.replicate_zero, List.append_nil]

/-- The buffer that goes to the device holds the next block of the image. -/
theorem bytesAt_fill_pad (hlen : b.buflen ≤ erasesize) :
    bytesAt ((b.fill erasesize).pad erasesize).mem 0 erasesize = block erasesize b.content := by
  have hfill := fill_buflen hlen
  rw [bytesAt_pad (by omega), bytesAt_fill hlen, block, hfill]
  congr 2
  omega

end Buffer

/-! ### Replaying a trace -/

theorem replay_concat (cells : Nat → Nat → Byte) (trace : List Event) (event : Event) :
    replay cells (trace ++ [event]) = event.apply (replay cells trace) := by
  simp [replay]

theorem ErasedFirst.nil : ErasedFirst [] := by
  intro before event after h
  simp at h

theorem ErasedFirst.concat {trace : List Event} {event : Event} (h : ErasedFirst trace)
    (hevent : ∀ dev x, event.Programs dev x → ∃ event' ∈ trace, event'.Erases dev x) :
    ErasedFirst (trace ++ [event]) := by
  intro before event₀ after heq dev x hprog
  rcases List.eq_nil_or_concat' after with rfl | ⟨after, last, rfl⟩
  · obtain ⟨rfl, hlast⟩ := List.append_inj' heq rfl
    obtain rfl : event = event₀ := by simpa using hlast
    exact hevent dev x hprog
  · rw [← List.cons_append, ← List.append_assoc] at heq
    obtain ⟨htrace, -⟩ := List.append_inj' heq rfl
    exact h before event₀ after htrace dev x hprog

/-- Cells that were not erased were not programmed either, and keep what they held. -/
theorem ErasedFirst.replay_eq {trace : List Event} (h : ErasedFirst trace) {dev x : Nat}
    (hun : ∀ event ∈ trace, ¬ event.Erases dev x) (cells : Nat → Nat → Byte) :
    replay cells trace dev x = cells dev x := by
  have hprog : ∀ event ∈ trace, ¬ event.Programs dev x := by
    intro event hmem hprog
    obtain ⟨before, after, rfl⟩ := List.append_of_mem hmem
    obtain ⟨event', hmem', herases⟩ := h before event after rfl dev x hprog
    exact hun event' (List.mem_append_left _ hmem') herases
  clear h
  induction trace generalizing cells with
  | nil => rfl
  | cons event trace ih =>
      have hevent : event.apply cells dev x = cells dev x := by
        cases event with
        | erase i erasesize k => exact if_neg (hun _ List.mem_cons_self)
        | program i pos data => exact if_neg (hprog _ List.mem_cons_self)
      have ih' := ih (fun e he => hun e (List.mem_cons_of_mem _ he)) (event.apply cells)
        (fun e he => hprog e (List.mem_cons_of_mem _ he))
      exact ih'.trans hevent

/-- A block that was erased and then programmed holds what was programmed. -/
theorem bytesAt_erase_program (cells : Nat → Nat → Byte) {erasesize : Nat} (hpos : 0 < erasesize)
    (k : Nat) {data : List Byte} (hlen : data.length = erasesize) :
    bytesAt ((Event.program 0 (k * erasesize) data).apply ((Event.erase 0 erasesize k).apply cells) 0)
      (k * erasesize) erasesize = data := by
  apply List.ext_getElem?
  intro i
  by_cases hi : i < erasesize
  · have hdiv : (k * erasesize + i) / erasesize = k := by
      rw [Nat.mul_comm, Nat.mul_add_div hpos, Nat.div_eq_of_lt hi, Nat.add_zero]
    rw [getElem?_bytesAt _ _ _ _ hi]
    simp only [Event.apply, hdiv, and_self, if_true]
    have hones (v : Byte) : 0xff &&& v = v := BitVec.allOnes_and
    rw [if_pos ⟨trivial, by omega, by omega⟩, Nat.add_sub_cancel_left, hones]
    simp [List.getD_eq_getElem?_getD, List.getElem?_eq_getElem (hlen.symm ▸ hi)]
  · rw [List.getElem?_eq_none (by simpa using hi), List.getElem?_eq_none (by omega)]

theorem bytesAt_erase_program_of_ne (cells : Nat → Nat → Byte) {erasesize k k' : Nat}
    (hne : k' ≠ k) {data : List Byte} (hlen : data.length = erasesize) :
    bytesAt ((Event.program 0 (k * erasesize) data).apply ((Event.erase 0 erasesize k).apply cells) 0)
      (k' * erasesize) erasesize = bytesAt (cells 0) (k' * erasesize) erasesize := by
  apply bytesAt_congr
  intro x hle hlt
  have hdiv : x / erasesize = k' :=
    Nat.div_eq_of_lt_le hle (by rw [Nat.add_mul, Nat.one_mul]; exact hlt)
  have hout : ¬ (k * erasesize ≤ x ∧ x < k * erasesize + data.length) := by
    intro hin
    refine hne (hdiv.symm.trans (Nat.div_eq_of_lt_le hin.1 ?_))
    rw [Nat.add_mul, Nat.one_mul, ← hlen]
    exact hlen ▸ hin.2
  simp only [Event.apply, true_and, hout, if_false, hdiv, hne]

/-! ### The first device -/

section First

variable (d : Nand) (first : Nat) (image : List Byte)

/-- Block `k` of the device passes the test and is the one the walk takes for block `first + k`. -/
def Nand.Takes (k : Nat) : Prop :=
  first + k < d.blocks ∧ d.bad (first + k) = false ∧ d.worn (first + k) = false

/-- The good blocks among the first `k`. -/
abbrev Nand.count (k : Nat) : Nat := Nat.count (fun k => d.bad k = false) k

/-- What the walk over the first `k` blocks does to the device. -/
def placement : Nat → List Event
  | 0 => []
  | k + 1 => placement k ++ if d.bad k then [] else
      [.erase 0 d.erasesize (first + k), .program 0 ((first + k) * d.erasesize)
        (block d.erasesize (image.drop (d.count k * d.erasesize)))]

/-- The cursors after the first `k` blocks of the walk. -/
structure InStep (k : Nat) (c : Cursor) : Prop where
  w : c.w = d.count k * d.erasesize
  e : c.e = k * d.erasesize
  skip : c.w + c.skipBadBlocks = c.e
  pos : first + k ≤ d.blocks → c.pos = (first + k) * d.erasesize
  trace : c.trace = placement d first image k
  takes : ∀ j < k, d.bad j = false → d.Takes first j

variable {d first image}

theorem lt_size_iff (d : Nand) (k : Nat) : k * d.erasesize < d.size ↔ k < d.blocks :=
  Nat.mul_lt_mul_right d.erasesize_pos

theorem le_size_iff (d : Nand) (k : Nat) : k * d.erasesize ≤ d.size ↔ k ≤ d.blocks :=
  Nat.mul_le_mul_right_iff d.erasesize_pos

theorem blockIsBad_mul (d : Nand) (k : Nat) :
    d.blockIsBad (k * d.erasesize) = if k < d.blocks then some (d.bad k) else none := by
  simp only [Nand.blockIsBad, lt_size_iff, Nat.mul_div_cancel k d.erasesize_pos]

theorem eraseBlock_mul_iff (d : Nand) (first k : Nat) :
    d.eraseBlock (k * d.erasesize + first * d.erasesize) = true ↔ d.Takes first k := by
  rw [← Nat.add_mul, Nat.add_comm k first]
  simp [Nand.eraseBlock, Nand.Takes, lt_size_iff, Nat.mul_div_cancel _ d.erasesize_pos]

/-- A bad block moves every cursor but the one of the bytes written. -/
theorem InStep.skip_bad {k : Nat} {c : Cursor} (h : InStep d first image k c) (hbad : d.bad k = true) :
    InStep d first image (k + 1)
      { c with
        skipBadBlocks := c.skipBadBlocks + d.erasesize
        e := c.e + d.erasesize
        pos := d.lseek c.pos (c.pos + d.erasesize) } := by
  have hcount : d.count (k + 1) = d.count k := by simp [Nat.count_succ, hbad]
  refine ⟨by rw [hcount]; exact h.w, ?_, ?_, ?_, ?_, ?_⟩
  · simp only [h.e, Nat.add_mul, Nat.one_mul]
  · simp only [← Nat.add_assoc, h.skip]
  · intro hle
    have hpos := h.pos (by omega)
    have hnext : c.pos + d.erasesize = (first + (k + 1)) * d.erasesize := by
      rw [hpos, ← Nat.add_assoc, Nat.add_mul (first + k), Nat.one_mul]
    simp only [Nand.lseek, hnext, le_size_iff, hle, if_true]
  · simp only [placement, hbad, if_true, List.append_nil, h.trace]
  · intro j hj hgood
    rcases Nat.lt_succ_iff_lt_or_eq.mp hj with hj | rfl
    · exact h.takes j hj hgood
    · rw [hbad] at hgood
      cases hgood

/-- What the erase loop leaves behind on the first device. -/
def EraseSpec (d : Nand) (first : Nat) (image : List Byte) (count : Nat) : Erased → Prop
  | .exit _ _ => True
  | .failed c => ∃ k, InStep d first image k c ∧ d.count k = count ∧ k < d.blocks ∧ d.bad k = false ∧
      ¬ d.Takes first k
  | .ready c => ∃ k c', InStep d first image k c' ∧ d.count k = count ∧ d.bad k = false ∧
      d.Takes first k ∧ c = { c' with
        e := c'.e + d.erasesize
        trace := c'.trace ++ [.erase 0 d.erasesize (first + k)] }

theorem eraseLoop_inStep {k : Nat} {c : Cursor} (h : InStep d first image k c) :
    EraseSpec d first image (d.count k)
      (eraseLoop d 0 (first * d.erasesize) d.erasesize c) := by
  have hpos := d.erasesize_pos
  have hskip := h.skip
  rw [eraseLoop, if_pos (by omega)]
  split
  · trivial
  · rename_i hquery
    rw [h.e, blockIsBad_mul] at hquery
    split_ifs at hquery with hlt
    have hbad : d.bad k = true := Option.some_inj.mp hquery
    have hcount : d.count (k + 1) = d.count k := by simp [Nat.count_succ, hbad]
    have ih := eraseLoop_inStep (h.skip_bad hbad)
    rw [hcount] at ih
    exact ih
  · rename_i hquery
    rw [h.e, blockIsBad_mul] at hquery
    split_ifs at hquery with hlt
    have hgood : d.bad k = false := Option.some_inj.mp hquery
    split
    · rename_i herase
      rw [h.e, eraseBlock_mul_iff] at herase
      rw [eraseLoop, if_neg (by simp only; omega)]
      refine ⟨k, c, h, rfl, hgood, herase, ?_⟩
      rw [h.e, ← Nat.add_mul, Nat.add_comm k first, Nat.mul_div_cancel _ hpos]
    · rename_i herase
      rw [h.e, eraseBlock_mul_iff] at herase
      exact ⟨k, h, rfl, hlt, hgood, herase⟩
termination_by d.size - c.e
decreasing_by
  rw [h.e]
  have := (lt_size_iff d k).mpr hlt
  omega

/-- A block that was erased is written, and the cursors are in step one block further on. -/
theorem InStep.write_good {k : Nat} {c c' : Cursor} (h : InStep d first image k c) {b : Buffer}
    (hgood : d.bad k = false) (htakes : d.Takes first k) (hlen : b.buflen = d.erasesize)
    (hblock : bytesAt b.mem b.offset d.erasesize =
      block d.erasesize (image.drop (d.count k * d.erasesize)))
    (hc' : c' = { c with
      e := c.e + d.erasesize
      trace := c.trace ++ [.erase 0 d.erasesize (first + k)] }) :
    ∃ c'', c'.write d 0 b b.buflen = (c'', some b.buflen) ∧
      InStep d first image (k + 1) { c'' with w := c''.w + b.buflen } := by
  subst hc'
  have hpos := h.pos htakes.1.le
  have hlt := (lt_size_iff d (first + k)).mpr htakes.1
  have hroom : d.erasesize ≤ d.size - (first + k) * d.erasesize := by
    have := (le_size_iff d (first + k + 1)).mpr htakes.1
    rw [Nat.add_mul, Nat.one_mul] at this
    omega
  have hcount : d.count (k + 1) = d.count k + 1 := by simp [Nat.count_succ, hgood]
  have hwrite := h.w
  have hskip := h.skip
  simp only [Cursor.write, hpos, hlt, if_true, hlen, Nat.min_eq_left hroom]
  refine ⟨_, rfl, ?_, ?_, ?_, ?_, ?_, ?_⟩
  · simp only [hcount, h.w, Nat.add_mul, Nat.one_mul]
  · simp only [h.e, Nat.add_mul, Nat.one_mul]
  · simp only
    omega
  · intro _
    simp only [← Nat.add_assoc, Nat.add_mul, Nat.one_mul]
  · simp only [h.trace, placement, hgood, hblock, List.append_assoc]
    rfl
  · intro j hj hbad
    rcases Nat.lt_succ_iff_lt_or_eq.mp hj with hj | rfl
    · exact h.takes j hj hbad
    · exact htakes

/-- The walk stops right behind a block it has written. -/
def Last (d : Nand) (image : List Byte) (k : Nat) : Prop :=
  d.count k ≤ blockCount d.erasesize image.length ∧ (k = 0 ∨ d.bad (k - 1) = false)

/-- What the write loop leaves behind on the first device. -/
def WriteSpec (d : Nand) (first : Nat) (image : List Byte) : Written → Prop
  | .exit _ _ => True
  | .failed b c => 0 < b.buflen ∧ ∃ k, InStep d first image k c ∧ k < d.blocks ∧ d.bad k = false ∧
      ¬ d.Takes first k ∧ d.count k < blockCount d.erasesize image.length
  | .done c => ∃ k, InStep d first image k c ∧ Last d image k ∧
      d.count k = blockCount d.erasesize image.length

theorem writeLoop_inStep {k : Nat} {b : Buffer} {c : Cursor} (h : InStep d first image k c)
    (hlast : Last d image k) (hlen : b.buflen ≤ d.erasesize) (hoff : b.offset = 0)
    (hcontent : b.content = image.drop (d.count k * d.erasesize)) :
    WriteSpec d first image (writeLoop d 0 (first * d.erasesize) b c) := by
  have hpos := d.erasesize_pos
  have hfill := b.fill_buflen hlen
  have hleft : b.content.length = image.length - d.count k * d.erasesize := by
    rw [hcontent, List.length_drop]
  rw [writeLoop]
  split
  · rename_i hzero
    refine ⟨k, h, hlast, le_antisymm hlast.1 ?_⟩
    rw [blockCount_le_iff hpos]
    omega
  · rename_i hne
    have hmore : d.count k < blockCount d.erasesize image.length := by
      rw [lt_blockCount_iff hpos]
      omega
    have hbuflen : ((b.fill d.erasesize).pad d.erasesize).buflen = d.erasesize :=
      Buffer.pad_buflen (by omega)
    have herased := eraseLoop_inStep h
    simp only [hbuflen]
    cases heq : eraseLoop d 0 (first * d.erasesize) d.erasesize c with
    | exit e c' => trivial
    | failed c' =>
        rw [heq] at herased
        obtain ⟨k', hstep, hcount, hlt, hgood, htakes⟩ := herased
        exact ⟨hpos.trans_eq hbuflen.symm, k', hstep, hlt, hgood, htakes, hcount.trans_lt hmore⟩
    | ready c' =>
        rw [heq] at herased
        obtain ⟨k', c₀, hstep, hcount, hgood, htakes, hc'⟩ := herased
        have hoffset : ((b.fill d.erasesize).pad d.erasesize).offset = 0 := Buffer.pad_offset.trans hoff
        obtain ⟨c'', hwrite, hnext⟩ := hstep.write_good hgood htakes hbuflen
          (by rw [hoffset, Buffer.bytesAt_fill_pad hlen, hcontent, hcount]) hc'
        rw [hbuflen] at hwrite hnext
        have hcount' : d.count (k' + 1) = d.count k + 1 := by simp [Nat.count_succ, hgood, hcount]
        simp only [hwrite, lt_irrefl, if_false]
        refine writeLoop_inStep hnext ⟨by omega, Or.inr (by simpa using hgood)⟩ (Nat.zero_le _) rfl ?_
        rw [Buffer.content, Buffer.drop_image hlen, hcontent, hcount', Nat.add_mul, Nat.one_mul,
          List.drop_drop]
        simp [bytesAt]
termination_by blockCount d.erasesize image.length - d.count k
decreasing_by omega

/-! ### A walk in step with the table places the image -/

theorem range'_succ_filter (d : Nand) (first k : Nat) :
    (List.range' first (k + 1)).filter (fun j => !d.bad j) =
      (List.range' first k).filter (fun j => !d.bad j) ++
        if d.bad (first + k) then [] else [first + k] := by
  rw [List.range'_concat, List.filter_append, Nat.one_mul]
  cases h : d.bad (first + k) <;> simp [h]

theorem take_padded_succ (d : Nand) (image : List Byte) {i : Nat}
    (hi : i < blockCount d.erasesize image.length) :
    (padded d.erasesize image).take ((i + 1) * d.erasesize) =
      (padded d.erasesize image).take (i * d.erasesize) ++
        block d.erasesize (image.drop (i * d.erasesize)) := by
  have hlt := (lt_blockCount_iff d.erasesize_pos image.length i).mp hi
  rw [Nat.add_mul, Nat.one_mul, List.take_add, ← slice_padded d.erasesize_pos image hlt]
  rfl

theorem read_placement (cells : Nat → Nat → Byte) {k : Nat}
    (hsame : ∀ j < k, d.bad (first + j) = d.bad j)
    (hcount : d.count k ≤ blockCount d.erasesize image.length) :
    ((List.range' first k).filter fun j => !d.bad j).flatMap
        (fun j => bytesAt (replay cells (placement d first image k) 0) (j * d.erasesize) d.erasesize) =
      (padded d.erasesize image).take (d.count k * d.erasesize) := by
  induction k with
  | zero => simp
  | succ k ih =>
      have ih' := ih (fun j hj => hsame j (by omega))
        (le_trans (Nat.count_monotone _ (Nat.le_succ k)) hcount)
      rw [range'_succ_filter, hsame k (Nat.lt_succ_self k)]
      cases hbad : d.bad k with
      | true =>
          have hcount' : d.count (k + 1) = d.count k := by simp [Nat.count_succ, hbad]
          simp only [placement, hbad, if_true, List.append_nil, hcount']
          exact ih'
      | false =>
          have hcount' : d.count (k + 1) = d.count k + 1 := by simp [Nat.count_succ, hbad]
          have hlen := length_block d.erasesize (image.drop (d.count k * d.erasesize))
          simp only [placement, hbad, Bool.false_eq_true, if_false, hcount', List.flatMap_append,
            List.flatMap_singleton]
          rw [take_padded_succ d image (by omega), ← ih', ← List.singleton_append, ← List.append_assoc,
            replay_concat, replay_concat, bytesAt_erase_program _ d.erasesize_pos _ hlen]
          congr 1
          apply List.flatMap_congr
          intro j hj
          have hj' := (List.mem_range'_1.mp (List.mem_of_mem_filter hj)).2
          exact bytesAt_erase_program_of_ne _ (by omega) hlen

theorem erasedFirst_placement (d : Nand) (first : Nat) (image : List Byte) (k : Nat) :
    ErasedFirst (placement d first image k) := by
  induction k with
  | zero => exact ErasedFirst.nil
  | succ k ih =>
      rw [placement]
      split
      · rwa [List.append_nil]
      · rw [← List.singleton_append, ← List.append_assoc]
        have herase : ErasedFirst (placement d first image k ++ [.erase 0 d.erasesize (first + k)]) :=
          ih.concat fun dev x hprog => False.elim hprog
        refine herase.concat ?_
        rintro dev x ⟨rfl, hle, hlt⟩
        rw [length_block] at hlt
        refine ⟨_, List.mem_append_right _ List.mem_cons_self, rfl, ?_⟩
        exact Nat.div_eq_of_lt_le hle (by rw [Nat.add_mul, Nat.one_mul]; exact hlt)

theorem mem_placement {k : Nat} {event : Event} (h : event ∈ placement d first image k) :
    ∃ j < k, d.bad j = false ∧ ∀ dev x, event.Erases dev x ∨ event.Programs dev x →
      dev = 0 ∧ x / d.erasesize = first + j := by
  induction k with
  | zero => simp [placement] at h
  | succ k ih =>
      rw [placement, List.mem_append] at h
      rcases h with h | h
      · obtain ⟨j, hj, hrest⟩ := ih h
        exact ⟨j, by omega, hrest⟩
      · split at h
        · simp at h
        · rename_i hgood
          refine ⟨k, Nat.lt_succ_self k, by simpa using hgood, fun dev x htouch => ?_⟩
          rcases List.mem_pair.mp h with rfl | rfl
          · obtain ⟨rfl, hdiv⟩ := htouch.resolve_right id
            exact ⟨rfl, hdiv⟩
          · obtain ⟨rfl, hle, hlt⟩ := htouch.resolve_left id
            rw [length_block] at hlt
            refine ⟨rfl, Nat.div_eq_of_lt_le hle ?_⟩
            rw [Nat.add_mul, Nat.one_mul]
            exact hlt

theorem placed_placement (rest : List Nand) {k : Nat}
    (htakes : ∀ j < k, d.bad j = false → d.Takes first j)
    (hsame : ∀ j < k, first + j < d.blocks ∧ d.bad (first + j) = d.bad j)
    (hcount : d.count k = blockCount d.erasesize image.length) (cells : Nat → Nat → Byte) :
    Placed d rest first image (placement d first image k) cells := by
  refine ⟨?_, erasedFirst_placement d first image k, ?_⟩
  · have hread := read_placement cells (fun j hj => (hsame j hj).2) hcount.le
    rw [hcount, ← length_padded d.erasesize_pos, List.take_length] at hread
    have hsplit : d.goodBlocks first = (List.range' first k).filter (fun j => !d.bad j) ++
        (List.range' (first + k) (d.blocks - first - k)).filter (fun j => !d.bad j) := by
      have hk : d.blocks - first = k + (d.blocks - first - k) := by
        rcases Nat.eq_zero_or_pos k with rfl | hk
        · omega
        · have := (hsame (k - 1) (by omega)).1
          omega
      rw [Nand.goodBlocks, ← List.filter_append]
      nth_rewrite 1 [hk]
      rw [← List.range'_append_1]
    rw [Nand.readGood, hsplit, List.flatMap_append, hread, List.append_assoc]
    exact List.prefix_append _ _
  · intro event hmem dev x htouch device hdevice
    obtain ⟨j, hj, hgood, htouches⟩ := mem_placement hmem
    obtain ⟨rfl, hdiv⟩ := htouches dev x htouch
    obtain rfl : d = device := by simpa using hdevice
    rw [hdiv]
    exact (htakes j hj hgood).2.1

end First

/-! ### Later devices -/

section Later

/-- What is erased beyond `old` are blocks of the device that stand `partOffset` behind a good one. -/
def ErasesBehind (d : Nand) (dev partOffset : Nat) (old new : List Event) : Prop :=
  ∀ event ∈ new, ∀ i x, event.Erases i x → event ∈ old ∨
    i = dev ∧ ∃ k, d.bad k = false ∧ k * d.erasesize + partOffset = x / d.erasesize * d.erasesize

variable {d : Nand} {dev partOffset : Nat}

theorem ErasesBehind.refl (trace : List Event) : ErasesBehind d dev partOffset trace trace :=
  fun _ hmem _ _ _ => Or.inl hmem

theorem ErasesBehind.trans {t t' t'' : List Event} (h : ErasesBehind d dev partOffset t t')
    (h' : ErasesBehind d dev partOffset t' t'') : ErasesBehind d dev partOffset t t'' := by
  intro event hmem i x herases
  rcases h' event hmem i x herases with hmem' | hnew
  · exact h event hmem' i x herases
  · exact Or.inr hnew

/-- Writing erases nothing. -/
theorem mem_of_erases_write {c : Cursor} {b : Buffer} {n : Nat} {event : Event}
    (hmem : event ∈ (c.write d dev b n).1.trace) {i x : Nat} (herases : event.Erases i x) :
    event ∈ c.trace := by
  rw [Cursor.write] at hmem
  split at hmem
  · rcases List.mem_append.mp hmem with hmem | hmem
    · exact hmem
    · obtain rfl := List.mem_singleton.mp hmem
      exact herases.elim
  · exact hmem

theorem ErasesBehind.erase (trace : List Event) {k : Nat} (hgood : d.bad k = false)
    (herase : d.eraseBlock (k * d.erasesize + partOffset) = true) :
    ErasesBehind d dev partOffset trace
      (trace ++ [.erase dev d.erasesize ((k * d.erasesize + partOffset) / d.erasesize)]) := by
  intro event hmem i x herases
  rcases List.mem_append.mp hmem with hmem | hmem
  · exact Or.inl hmem
  · obtain rfl := List.mem_singleton.mp hmem
    obtain ⟨rfl, hdiv⟩ := herases
    have haligned : (k * d.erasesize + partOffset) % d.erasesize = 0 :=
      (decide_eq_true_iff.mp herase).1
    refine Or.inr ⟨rfl, k, hgood, ?_⟩
    rw [hdiv, Nat.div_mul_cancel (Nat.dvd_of_mod_eq_zero haligned)]

/-- What the erase loop leaves behind on any device, when it does not exit. -/
def EraseEvents (d : Nand) (dev partOffset buflen : Nat) (c : Cursor) : Erased → Prop
  | .exit _ _ => True
  | .failed c' | .ready c' => d.erasesize ∣ c'.e ∧ ErasesBehind d dev partOffset c.trace c'.trace ∧
      (c.e < c.w + buflen + c.skipBadBlocks → ∃ k < d.blocks, d.bad k = false)

theorem EraseEvents.mono {buflen : Nat} {c c₁ : Cursor} {r : Erased}
    (h : EraseEvents d dev partOffset buflen c₁ r) (htrace : ErasesBehind d dev partOffset c.trace c₁.trace)
    (hgood : c.e < c.w + buflen + c.skipBadBlocks →
      c₁.e < c₁.w + buflen + c₁.skipBadBlocks ∨ ∃ k < d.blocks, d.bad k = false) :
    EraseEvents d dev partOffset buflen c r := by
  cases r with
  | exit e c' => trivial
  | failed c' => exact ⟨h.1, htrace.trans h.2.1, fun hlt => (hgood hlt).elim h.2.2 id⟩
  | ready c' => exact ⟨h.1, htrace.trans h.2.1, fun hlt => (hgood hlt).elim h.2.2 id⟩

theorem eraseLoop_events (buflen : Nat) {c : Cursor} (he : d.erasesize ∣ c.e) :
    EraseEvents d dev partOffset buflen c (eraseLoop d dev partOffset buflen c) := by
  obtain ⟨k, hk⟩ := he
  rw [Nat.mul_comm] at hk
  have hdvd : d.erasesize ∣ c.e := Dvd.intro_left k hk.symm
  have hquery' := blockIsBad_mul d k
  rw [← hk] at hquery'
  rw [eraseLoop]
  split
  · rename_i hlt
    split
    · trivial
    · rename_i hquery
      have ih := eraseLoop_events buflen
        (c := { c with
          skipBadBlocks := c.skipBadBlocks + d.erasesize
          e := c.e + d.erasesize
          pos := d.lseek c.pos (c.pos + d.erasesize) }) (Nat.dvd_add hdvd (dvd_refl _))
      refine ih.mono (ErasesBehind.refl _) fun _ => Or.inl ?_
      simp only
      omega
    · rename_i hquery
      rw [hquery'] at hquery
      split_ifs at hquery with hblocks
      have hgood : d.bad k = false := Option.some_inj.mp hquery
      split
      · rename_i herase
        have ih := eraseLoop_events buflen
          (c := { c with
            e := c.e + d.erasesize
            trace := c.trace ++ [.erase dev d.erasesize ((c.e + partOffset) / d.erasesize)] })
          (Nat.dvd_add hdvd (dvd_refl _))
        refine ih.mono ?_ fun _ => Or.inr ⟨k, hblocks, hgood⟩
        rw [hk] at herase ⊢
        exact ErasesBehind.erase _ hgood herase
      · exact ⟨hdvd, ErasesBehind.refl _, fun _ => ⟨k, hblocks, hgood⟩⟩
  · rename_i hge
    exact ⟨hdvd, ErasesBehind.refl _, fun hlt => absurd hlt hge⟩
termination_by d.size - c.e
decreasing_by
  all_goals
    have := d.erasesize_pos
    have := d.lt_size_of_blockIsBad (by assumption)
    omega

/-- What the write loop leaves behind on any device, when it does not exit. -/
def WriteEvents (d : Nand) (dev partOffset : Nat) (b : Buffer) (c : Cursor) : Written → Prop
  | .exit _ _ => True
  | .failed b' c' => ErasesBehind d dev partOffset c.trace c'.trace ∧
      (0 < b.buflen → c.e = 0 → ∃ k < d.blocks, d.bad k = false) ∧ 0 < b'.buflen
  | .done c' => ErasesBehind d dev partOffset c.trace c'.trace ∧
      (0 < b.buflen → c.e = 0 → ∃ k < d.blocks, d.bad k = false)

theorem WriteEvents.mono {b b₁ : Buffer} {c c₁ : Cursor} {r : Written}
    (h : WriteEvents d dev partOffset b₁ c₁ r)
    (htrace : ErasesBehind d dev partOffset c.trace c₁.trace)
    (hgood : 0 < b.buflen → c.e = 0 → ∃ k < d.blocks, d.bad k = false) :
    WriteEvents d dev partOffset b c r := by
  cases r with
  | exit e c' => trivial
  | failed b' c' => exact ⟨htrace.trans h.1, hgood, h.2.2⟩
  | done c' => exact ⟨htrace.trans h.1, hgood⟩

theorem write_e (c : Cursor) (b : Buffer) (n : Nat) : (c.write d dev b n).1.e = c.e := by
  rw [Cursor.write]
  split <;> rfl

theorem writeLoop_events {b : Buffer} {c : Cursor} (he : d.erasesize ∣ c.e) :
    WriteEvents d dev partOffset b c (writeLoop d dev partOffset b c) := by
  rw [writeLoop]
  split
  · rename_i hzero
    have hbuflen : b.buflen = 0 := Nat.eq_zero_of_add_eq_zero_right hzero
    exact ⟨ErasesBehind.refl _, fun hlt => absurd hbuflen hlt.ne'⟩
  · rename_i hne
    have hbuflen : 0 < ((b.fill d.erasesize).pad d.erasesize).buflen := by
      rw [Buffer.pad]
      split
      · exact d.erasesize_pos
      · exact Nat.pos_of_ne_zero hne
    have herased : EraseEvents d dev partOffset ((b.fill d.erasesize).pad d.erasesize).buflen c
        (eraseLoop d dev partOffset ((b.fill d.erasesize).pad d.erasesize).buflen c) :=
      eraseLoop_events _ he
    simp only
    cases heq : eraseLoop d dev partOffset ((b.fill d.erasesize).pad d.erasesize).buflen c with
    | exit e c' => trivial
    | failed c' =>
        rw [heq] at herased
        exact ⟨herased.2.1, fun _ hzero => herased.2.2 (by omega), hbuflen⟩
    | ready c' =>
        rw [heq] at herased
        have hwrite : ErasesBehind d dev partOffset c'.trace (c'.write d dev
            ((b.fill d.erasesize).pad d.erasesize) ((b.fill d.erasesize).pad d.erasesize).buflen).1.trace :=
          fun event hmem i x herases => Or.inl (mem_of_erases_write hmem herases)
        have he' : (c'.write d dev ((b.fill d.erasesize).pad d.erasesize)
            ((b.fill d.erasesize).pad d.erasesize).buflen).1.e = c'.e := write_e _ _ _
        rcases hres : c'.write d dev ((b.fill d.erasesize).pad d.erasesize)
          ((b.fill d.erasesize).pad d.erasesize).buflen with ⟨c'', _ | count⟩
        · simp only [hres]
          trivial
        · rw [hres] at hwrite he'
          simp only [hres]
          split
          · trivial
          · refine (writeLoop_events ?_).mono (herased.2.1.trans hwrite) fun _ hzero =>
              herased.2.2 (by omega)
            exact he' ▸ herased.1
termination_by b.image.length + min b.buflen 1
decreasing_by
  have := d.erasesize_pos
  have hfill : (b.fill d.erasesize).buflen ≠ 0 := by assumption
  simp only [Buffer.fill, List.length_take] at hfill
  simp only [List.length_drop]
  omega

/-- The cursors at the start of a device. -/
def Cursor.start (d : Nand) (partOffset skip : Nat) (trace : List Event) : Cursor :=
  ⟨0, 0, skip, if 0 < partOffset then d.lseek 0 partOffset else 0, trace⟩

/-- A write that ends well ends on the device it is at, or goes on to the next with a full buffer. -/
theorem writeFrom_cases {rest : List Nand} {b : Buffer} {skip : Nat} {trace trace' : List Event}
    (h : writeFrom partOffset dev d rest b skip trace = .done trace') :
    (∃ c, writeLoop d dev partOffset b (.start d partOffset skip trace) = .done c ∧ trace' = c.trace) ∨
    ∃ b' c next rest' b'' trace'', rest = next :: rest' ∧
      writeLoop d dev partOffset b (.start d partOffset skip trace) = .failed b' c ∧
      b''.buflen = b'.buflen ∧ (∀ event ∈ trace'', ∀ i x, event.Erases i x → event ∈ c.trace) ∧
      writeFrom partOffset (dev + 1) next rest' b'' c.skipBadBlocks trace'' = .done trace' := by
  rw [writeFrom] at h
  rw [Cursor.start]
  generalize hloop : writeLoop d dev partOffset b _ = r at h ⊢
  cases r with
  | exit e c => cases h
  | done c =>
      cases h
      exact Or.inl ⟨c, rfl, rfl⟩
  | failed b' c =>
      cases rest with
      | nil => cases h
      | cons next rest =>
          simp only at h
          split at h
          · exact Or.inr ⟨b', c, next, rest, { b' with offset := c.e - c.w }, _, rfl, rfl, rfl,
              fun event hmem i x herases => mem_of_erases_write hmem herases, h⟩
          · exact Or.inr ⟨b', c, next, rest, _, _, rfl, rfl, rfl, fun event hmem _ _ _ => hmem, h⟩

/-- What the devices from `d` on erase: on `d` itself, blocks behind good ones. -/
theorem writeFrom_events {rest : List Nand} {b : Buffer} {skip : Nat} {trace trace' : List Event}
    (h : writeFrom partOffset dev d rest b skip trace = .done trace') :
    (∀ event ∈ trace', ∀ i x, event.Erases i x → event ∈ trace ∨ dev < i ∨
      i = dev ∧ ∃ k, d.bad k = false ∧ k * d.erasesize + partOffset = x / d.erasesize * d.erasesize) ∧
    (0 < b.buflen → ∃ k < d.blocks, d.bad k = false) := by
  induction rest generalizing dev d b skip trace with
  | nil =>
      have hevents : WriteEvents d dev partOffset b (.start d partOffset skip trace) _ :=
        writeLoop_events (dvd_zero _)
      obtain ⟨c, hc, rfl⟩ | ⟨_, _, _, _, _, _, hrest, -⟩ := writeFrom_cases h
      · rw [hc] at hevents
        refine ⟨fun event hmem i x herases => ?_, fun hbuflen => hevents.2 hbuflen rfl⟩
        exact (hevents.1 event hmem i x herases).imp_right Or.inr
      · cases hrest
  | cons next rest ih =>
      have hevents : WriteEvents d dev partOffset b (.start d partOffset skip trace) _ :=
        writeLoop_events (dvd_zero _)
      obtain ⟨c, hc, rfl⟩ | ⟨b', c, _, _, b'', trace'', hrest, hc, -, htrace, hnext⟩ := writeFrom_cases h
      · rw [hc] at hevents
        refine ⟨fun event hmem i x herases => ?_, fun hbuflen => hevents.2 hbuflen rfl⟩
        exact (hevents.1 event hmem i x herases).imp_right Or.inr
      · cases hrest
        rw [hc] at hevents
        obtain ⟨hbehind, -⟩ := ih hnext
        refine ⟨fun event hmem i x herases => ?_, fun hbuflen => hevents.2.1 hbuflen rfl⟩
        rcases hbehind event hmem i x herases with hmem | hlater | hlater
        · exact (hevents.1 event (htrace event hmem i x herases) i x herases).imp_right Or.inr
        · exact Or.inr (Or.inl (by omega))
        · exact Or.inr (Or.inl (by omega))

end Later

/-! ### A good block that was not erased -/

section Stale

variable {d : Nand} {rest : List Nand} {first : Nat} {image : List Byte} {trace : List Event}

theorem length_flatMap_blocks (d : Nand) (cells : Nat → Byte) (ks : List Nat) :
    (ks.flatMap fun k => bytesAt cells (k * d.erasesize) d.erasesize).length = ks.length * d.erasesize := by
  simp [List.length_flatMap]

/-- The first byte of a good block, in what a reader of the good blocks finds. -/
theorem getElem?_readGood (d : Nand) {first k : Nat} (hk : first + k < d.blocks)
    (hgood : d.bad (first + k) = false) (cells : Nat → Byte) :
    (d.readGood first cells)[((List.range' first k).filter fun j => !d.bad j).length * d.erasesize]? =
      some (cells ((first + k) * d.erasesize)) := by
  obtain ⟨n, hn⟩ : ∃ n, d.blocks - first = k + (n + 1) := ⟨d.blocks - first - k - 1, by omega⟩
  have hsplit : d.goodBlocks first = (List.range' first k).filter (fun j => !d.bad j) ++
      (first + k) :: (List.range' (first + k + 1) n).filter (fun j => !d.bad j) := by
    rw [Nand.goodBlocks, hn, ← List.range'_append_1, List.filter_append, List.range'_succ,
      List.filter_cons_of_pos (by simpa using hgood)]
  obtain ⟨e, he⟩ : ∃ e, d.erasesize = e + 1 := ⟨d.erasesize - 1, by have := d.erasesize_pos; omega⟩
  rw [Nand.readGood, hsplit, List.flatMap_append, List.getElem?_append_right
    (length_flatMap_blocks d cells _).le, length_flatMap_blocks, Nat.sub_self, List.flatMap_cons]
  rw [he, bytesAt, List.cons_append, List.getElem?_cons_zero]

/-- Where a reader expects the image, a cell that was not erased would have to hold by itself what the
image has there. -/
theorem not_placed_of_unerased {dev x r : Nat} (hun : ∀ event ∈ trace, ¬ event.Erases dev x)
    (hr : r < blockCount d.erasesize image.length * d.erasesize)
    (hread : ∀ cells : Nat → Nat → Byte,
      (d.readGood first (cells 0) ++ readDevices cells 1 rest)[r]? = some (cells dev x))
    (h : ∀ cells, Placed d rest first image trace cells) : False := by
  rw [← length_padded d.erasesize_pos] at hr
  obtain ⟨v, hv⟩ : ∃ v, (padded d.erasesize image)[r]? = some v := ⟨_, List.getElem?_eq_getElem hr⟩
  have hplaced := h fun _ _ => ~~~v
  have hheld := hread (replay (fun _ _ => ~~~v) trace)
  obtain ⟨tail, htail⟩ := hplaced.content
  rw [hplaced.erased.replay_eq hun, ← htail, List.getElem?_append_left hr, hv] at hheld
  exact absurd (Option.some_inj.mp hheld) (BitVec.ne_not_self (by decide))

theorem length_filter_le (d : Nand) (first : Nat) {n k : Nat}
    (h : ∀ i < n, d.bad (first + i) = false → i < k ∧ d.bad i = false) :
    ((List.range' first n).filter fun j => !d.bad j).length ≤ d.count (min n k) := by
  induction n with
  | zero => simp
  | succ n ih =>
      have ih' := ih fun i hi => h i (by omega)
      rw [range'_succ_filter, List.length_append]
      cases hbad : d.bad (first + n) with
      | true =>
          have hmono : d.count (min n k) ≤ d.count (min (n + 1) k) := Nat.count_monotone _ (by omega)
          simpa using ih'.trans hmono
      | false =>
          obtain ⟨hlt, hgood⟩ := h n (Nat.lt_succ_self n) hbad
          rw [Nat.min_eq_left hlt.le] at ih'
          have hcount : d.count (n + 1) = d.count n + 1 := by simp [Nat.count_succ, hgood]
          rw [Nat.min_eq_left hlt, hcount]
          simpa using ih'

/-- The walk left out a good block of the first device. -/
theorem not_placed_of_left_out {k n : Nat}
    (herased : ∀ event ∈ trace, ∀ x, event.Erases 0 x →
      ∃ j < k, d.bad j = false ∧ x / d.erasesize = first + j)
    (hn : first + n < d.blocks ∧ d.bad (first + n) = false ∧ ¬ (n < k ∧ d.bad n = false))
    (hcount : d.count (min n k) < blockCount d.erasesize image.length)
    (h : ∀ cells, Placed d rest first image trace cells) : False := by
  have hex : ∃ m, first + m < d.blocks ∧ d.bad (first + m) = false ∧ ¬ (m < k ∧ d.bad m = false) :=
    ⟨n, hn⟩
  obtain ⟨hlt, hgood, hout⟩ := Nat.find_spec hex
  have hle : Nat.find hex ≤ n := Nat.find_min' hex hn
  have hbefore : ∀ i < Nat.find hex, d.bad (first + i) = false → i < k ∧ d.bad i = false := by
    intro i hi hbad
    by_contra hnot
    exact Nat.find_min hex hi ⟨by omega, hbad, hnot⟩
  generalize Nat.find hex = m at hlt hgood hout hle hbefore
  have hlength := length_filter_le d first hbefore
  have hmono : d.count (min m k) ≤ d.count (min n k) := Nat.count_monotone _ (by omega)
  have hun : ∀ event ∈ trace, ¬ event.Erases 0 ((first + m) * d.erasesize) := by
    intro event hmem herases
    obtain ⟨j, hj, hbad, hdiv⟩ := herased event hmem _ herases
    rw [Nat.mul_div_cancel _ d.erasesize_pos] at hdiv
    obtain rfl : m = j := by omega
    exact hout ⟨hj, hbad⟩
  refine not_placed_of_unerased hun
    (Nat.mul_lt_mul_of_pos_right (hlength.trans_lt (hmono.trans_lt hcount)) d.erasesize_pos)
    (fun cells => ?_) h
  have hread := getElem?_readGood d hlt hgood (cells 0)
  rw [List.getElem?_append_left (List.getElem?_eq_some_iff.mp hread).1, hread]

/-- The first good block of a later device, which stands behind no good block, is never written. -/
theorem not_placed_of_next {next : Nand} {partOffset : Nat} (hoffset : 0 < partOffset)
    (hlater : ∀ event ∈ trace, ∀ x, event.Erases 1 x → ∃ k, next.bad k = false ∧
      k * next.erasesize + partOffset = x / next.erasesize * next.erasesize)
    (hgood : ∃ k < next.blocks, next.bad k = false)
    (hcount : (d.goodBlocks first).length < blockCount d.erasesize image.length)
    (h : ∀ cells, Placed d (next :: rest) first image trace cells) : False := by
  obtain ⟨hlt, hbad⟩ := Nat.find_spec hgood
  have hbefore : ∀ i < Nat.find hgood, next.bad i = true := by
    intro i hi
    by_contra hnot
    exact Nat.find_min hgood hi ⟨by omega, by simpa using hnot⟩
  generalize Nat.find hgood = m at hlt hbad hbefore
  have hun : ∀ event ∈ trace, ¬ event.Erases 1 (m * next.erasesize) := by
    intro event hmem herases
    obtain ⟨k, hk, heq⟩ := hlater event hmem _ herases
    rw [Nat.mul_div_cancel _ next.erasesize_pos] at heq
    have hkm : k < m := by
      by_contra hge
      have := Nat.mul_le_mul_right next.erasesize (not_lt.mp hge)
      omega
    rw [hbefore k hkm] at hk
    cases hk
  have hnone : ((List.range' 0 m).filter fun j => !next.bad j).length = 0 := by
    rw [List.length_eq_zero_iff, List.filter_eq_nil_iff]
    intro j hj
    have hjm := (List.mem_range'_1.mp hj).2
    simp [hbefore j (by omega)]
  refine not_placed_of_unerased hun (Nat.mul_lt_mul_of_pos_right hcount d.erasesize_pos)
    (fun cells => ?_) h
  have hread : (next.readGood 0 (cells 1))[((List.range' 0 m).filter fun j => !next.bad j).length *
      next.erasesize]? = some (cells 1 ((0 + m) * next.erasesize)) :=
    getElem?_readGood next (by omega) (by rwa [Nat.zero_add]) (cells 1)
  rw [hnone, Nat.zero_mul, Nat.zero_add] at hread
  have hlength : (d.readGood first (cells 0)).length = (d.goodBlocks first).length * d.erasesize :=
    length_flatMap_blocks d (cells 0) _
  rw [List.getElem?_append_right hlength.le, hlength, Nat.sub_self, readDevices,
    List.getElem?_append_left (List.getElem?_eq_some_iff.mp hread).1, hread]

end Stale

/-! ### The whole write -/

section Whole

variable {d : Nand} {rest : List Nand} {first : Nat} {mem : Nat → Byte} {head image : List Byte}
  {trace : List Event}

theorem inStep_start (d : Nand) (first : Nat) (image : List Byte) :
    InStep d first image 0 (.start d (first * d.erasesize) 0 []) := by
  refine ⟨by simp [Cursor.start], by simp [Cursor.start], rfl, ?_, rfl, by simp⟩
  intro hle
  have hsize := (le_size_iff d first).mpr hle
  simp only [Cursor.start, Nand.lseek, hsize, if_true, Nat.add_zero]
  split
  · rfl
  · omega

/-- The write loop of the first device, from the buffer `image_check` has left. -/
theorem writeLoop_start (mem : Nat → Byte) (hhead : head.length ≤ d.erasesize) :
    WriteSpec d first (head ++ image) (writeLoop d 0 (first * d.erasesize)
      { mem := store mem 0 head, buflen := head.length, offset := 0, image }
      (.start d (first * d.erasesize) 0 [])) := by
  refine writeLoop_inStep (inStep_start d first _) ⟨by simp, Or.inl rfl⟩ hhead rfl ?_
  simp [Buffer.content]

/-- A write that ends well has walked the first device to the end of the image, or left it at a good block
whose counterpart does not erase. -/
theorem mtdWrite_cases (hhead : head.length ≤ d.erasesize)
    (hdone : mtdWrite (first * d.erasesize) d rest mem head image = .done trace) :
    (∃ k, trace = placement d first (head ++ image) k ∧ (∀ j < k, d.bad j = false → d.Takes first j) ∧
      Last d (head ++ image) k ∧ d.count k = blockCount d.erasesize (head ++ image).length) ∨
    ∃ k next rest', rest = next :: rest' ∧ k < d.blocks ∧ d.bad k = false ∧ ¬ d.Takes first k ∧
      d.count k < blockCount d.erasesize (head ++ image).length ∧
      (∃ j < next.blocks, next.bad j = false) ∧
      (∀ event ∈ trace, ∀ x, event.Erases 0 x →
        ∃ j < k, d.bad j = false ∧ x / d.erasesize = first + j) ∧
      ∀ event ∈ trace, ∀ x, event.Erases 1 x → ∃ j, next.bad j = false ∧
        j * next.erasesize + first * d.erasesize = x / next.erasesize * next.erasesize := by
  have hspec : WriteSpec d first (head ++ image) _ := writeLoop_start mem hhead
  obtain ⟨c, hc, rfl⟩ | ⟨b', c, next, rest', b'', trace'', rfl, hc, hbuflen, htrace, hnext⟩ :=
    writeFrom_cases hdone
  · rw [hc] at hspec
    obtain ⟨k, hstep, hlast, hcount⟩ := hspec
    exact Or.inl ⟨k, hstep.trace, hstep.takes, hlast, hcount⟩
  · rw [hc] at hspec
    obtain ⟨hpos, k, hstep, hlt, hgood, htakes, hcount⟩ := hspec
    obtain ⟨hevents, hex⟩ := writeFrom_events hnext
    have hplaced : ∀ event ∈ trace'', ∀ i x, event.Erases i x →
        ∃ j < k, d.bad j = false ∧ i = 0 ∧ x / d.erasesize = first + j := by
      intro event hmem i x herases
      have hmem' := htrace event hmem i x herases
      rw [hstep.trace] at hmem'
      obtain ⟨j, hj, hbad, htouch⟩ := mem_placement hmem'
      exact ⟨j, hj, hbad, htouch i x (Or.inl herases)⟩
    refine Or.inr ⟨k, next, rest', rfl, hlt, hgood, htakes, hcount, hex (hbuflen ▸ hpos), ?_, ?_⟩
    · intro event hmem x herases
      rcases hevents event hmem 0 x herases with hold | hlater | hlater
      · obtain ⟨j, hj, hbad, -, hdiv⟩ := hplaced event hold 0 x herases
        exact ⟨j, hj, hbad, hdiv⟩
      · omega
      · omega
    · intro event hmem x herases
      rcases hevents event hmem 1 x herases with hold | hlater | ⟨-, hlater⟩
      · obtain ⟨j, -, -, hzero, -⟩ := hplaced event hold 1 x herases
        omega
      · omega
      · exact hlater

theorem Last.good {k : Nat} (h : Last d image k) {j : Nat} (hj : j < k) : d.bad (k - 1) = false :=
  h.2.resolve_left (by omega)

theorem Last.count_lt {k : Nat} (h : Last d image k) {j : Nat} (hj : j < k) : d.count j < d.count k := by
  have hcount : d.count (k - 1 + 1) = d.count (k - 1) + 1 := by simp [Nat.count_succ, h.good hj]
  have hmono : d.count j ≤ d.count (k - 1) := Nat.count_monotone _ (by omega)
  rw [Nat.sub_add_cancel (by omega)] at hcount
  omega

/-- **Placement.** A write that ends well has put the image, whatever the devices held before, where a
reader of the good blocks finds it, touching good blocks only and programming erased ones only, exactly
when the blocks the bad block table is asked about are bad together with those they stand for, as far as
the image reaches, and these are on the first device. -/
theorem mtdWrite_placed_iff (hhead : head.length ≤ d.erasesize)
    (hdone : mtdWrite (first * d.erasesize) d rest mem head image = .done trace) :
    (∀ cells, Placed d rest first (head ++ image) trace cells) ↔
      d.Serves first (blockCount d.erasesize (head ++ image).length) := by
  rcases mtdWrite_cases hhead hdone with ⟨k, rfl, htakes, hlast, hcount⟩ |
    ⟨k, next, rest', rfl, hlt, hgood, htakes, hcount, hex, herased, hlater⟩
  · constructor
    · intro hplaced
      refine ⟨k, hcount, fun j hj => ?_⟩
      cases hbad : d.bad j with
      | false =>
          obtain ⟨hblocks, hgood, hworn⟩ := htakes j hj hbad
          exact ⟨hblocks, hgood, fun _ => hworn⟩
      | true =>
          have hless := hlast.count_lt hj
          have hblocks := (htakes (k - 1) (by omega) (hlast.good hj)).1
          by_cases hsame : d.bad (first + j) = true
          · exact ⟨by omega, hsame, fun hgood => absurd hgood (by simp [hsame])⟩
          · refine (not_placed_of_left_out (k := k) (n := j) ?_ ⟨by omega, by simpa using hsame, ?_⟩ ?_
              hplaced).elim
            · intro event hmem x herases
              obtain ⟨i, hi, hbad, htouch⟩ := mem_placement hmem
              exact ⟨i, hi, hbad, (htouch 0 x (Or.inl herases)).2⟩
            · rintro ⟨-, hgood⟩
              rw [hbad] at hgood
              cases hgood
            · rw [Nat.min_eq_left hj.le]
              omega
    · rintro ⟨k', hcount', hserves⟩ cells
      refine placed_placement rest htakes (fun j hj => ?_) hcount cells
      have hjk : j < k' := by
        by_contra hge
        have hmono : d.count k' ≤ d.count j := Nat.count_monotone _ (not_lt.mp hge)
        exact absurd (hcount.trans hcount'.symm) (hmono.trans_lt (hlast.count_lt hj)).ne'
      exact ⟨(hserves j hjk).1, (hserves j hjk).2.1⟩
  · constructor
    · intro hplaced
      exfalso
      by_cases hout : ∃ n, first + n < d.blocks ∧ d.bad (first + n) = false ∧ ¬ (n < k ∧ d.bad n = false)
      · obtain ⟨n, hn⟩ := hout
        have hmono : d.count (min n k) ≤ d.count k := Nat.count_monotone _ (Nat.min_le_right _ _)
        exact not_placed_of_left_out herased hn (hmono.trans_lt hcount) hplaced
      · have hall : ∀ n < d.blocks - first, d.bad (first + n) = false → n < k ∧ d.bad n = false := by
          intro n hn hbad
          by_contra hnot
          exact hout ⟨n, by omega, hbad, hnot⟩
        have hfirst : 0 < first := by
          by_contra hzero
          obtain rfl : first = 0 := by omega
          have := (hall k (by omega) (by rwa [Nat.zero_add])).1
          omega
        have hlength := length_filter_le d first hall
        have hmono : d.count (min (d.blocks - first) k) ≤ d.count k :=
          Nat.count_monotone _ (Nat.min_le_right _ _)
        exact not_placed_of_next (Nat.mul_pos hfirst d.erasesize_pos) hlater hex
          (hlength.trans_lt (hmono.trans_lt hcount)) hplaced
    · rintro ⟨k', hcount', hserves⟩
      have hkk : k < k' := by
        by_contra hge
        have hmono : d.count k' ≤ d.count k := Nat.count_monotone _ (not_lt.mp hge)
        exact absurd (hmono.trans_lt hcount) hcount'.symm.not_gt
      obtain ⟨hblocks, hsame, hworn⟩ := hserves k hkk
      rw [hgood] at hsame
      exact absurd ⟨hblocks, hsame, hworn hsame⟩ htakes

end Whole

/-- A device of four blocks of two bytes, the first of them bad. -/
def firstBad : Nand where
  erasesize := 2
  blocks := 4
  bad k := k == 0
  worn _ := false
  erasesize_pos := by decide

/-- From offset 0 the bad block is passed over and the image follows it. -/
theorem mtdWrite_placed_at_zero :
    mtdWrite 0 firstBad [] (fun _ => 0) [] [1, 2, 3] =
      .done [.erase 0 2 1, .program 0 2 [1, 2], .erase 0 2 2, .program 0 4 [3, 0xff]] ∧
    ∀ cells, Placed firstBad [] 0 [1, 2, 3]
      [.erase 0 2 1, .program 0 2 [1, 2], .erase 0 2 2, .program 0 4 [3, 0xff]] cells := by
  have hdone : mtdWrite (0 * firstBad.erasesize) firstBad [] (fun _ => 0) [] [1, 2, 3] =
      .done [.erase 0 2 1, .program 0 2 [1, 2], .erase 0 2 2, .program 0 4 [3, 0xff]] := by
    decide +kernel
  exact ⟨hdone, (mtdWrite_placed_iff (by decide) hdone).mpr ⟨3, by decide, by decide⟩⟩

/-- With a part offset of one block the good block 1 is passed over because block 0 is bad. -/
theorem mtdWrite_passes_good_block :
    ¬ ∀ (first : Nat) (d : Nand) (rest : List Nand) (mem : Nat → Byte) (head image : List Byte)
        (trace : List Event), head.length ≤ d.erasesize →
        mtdWrite (first * d.erasesize) d rest mem head image = .done trace →
        ∀ cells, Placed d rest first (head ++ image) trace cells := by
  intro h
  have hdone : mtdWrite (1 * firstBad.erasesize) firstBad [] (fun _ => 0) [] [1, 2, 3] =
      .done [.erase 0 2 2, .program 0 4 [1, 2], .erase 0 2 3, .program 0 6 [3, 0xff]] := by
    decide +kernel
  have hcontent := (h 1 firstBad [] (fun _ => 0) [] [1, 2, 3] _ (by decide) hdone fun _ _ => 0).content
  revert hcontent
  decide +kernel

end Immwrt.Mtd
