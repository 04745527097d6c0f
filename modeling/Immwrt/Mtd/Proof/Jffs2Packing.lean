import Immwrt.Mtd.Proof.Jffs2Append

/-!
# Packing nodes into erase blocks

What the writer does to its buffer and to the device is a packing of nodes into blocks: each block starts with
a cleanmarker, a node goes to the block at hand, and a block that is full is written.
-/

namespace Immwrt.Mtd.Jffs2

/-! ### Padding -/

/-- The bytes, with `0xff` up to a multiple of `size`. -/
def padTo (size : Nat) (bytes : List Byte) : List Byte :=
  bytes ++ List.replicate ((size - bytes.length % size) % size) 0xff

theorem dvd_length_padTo {size : Nat} (hpos : 0 < size) (bytes : List Byte) : size ∣ (padTo size bytes).length := by
  rw [padTo, List.length_append, List.length_replicate]
  have hlt := Nat.mod_lt bytes.length hpos
  have hdiv := Nat.mod_add_div bytes.length size
  by_cases hzero : bytes.length % size = 0
  · rw [hzero, Nat.sub_zero, Nat.mod_self, Nat.add_zero]
    exact Nat.dvd_of_mod_eq_zero hzero
  · rw [Nat.mod_eq_of_lt (show size - bytes.length % size < size by omega)]
    have hsum : bytes.length + (size - bytes.length % size) = size * (bytes.length / size + 1) := by
      rw [Nat.mul_add, Nat.mul_one]
      omega
    exact Dvd.intro _ hsum.symm

theorem padTo_of_dvd {size : Nat} {bytes : List Byte} (hdvd : size ∣ bytes.length) : padTo size bytes = bytes := by
  rw [padTo, Nat.mod_eq_zero_of_dvd hdvd, Nat.sub_zero, Nat.mod_self, List.replicate_zero, List.append_nil]

theorem length_padTo_le {size n : Nat} (hpos : 0 < size) (hdvd : size ∣ n) (bytes : List Byte)
    (hle : bytes.length ≤ n) : (padTo size bytes).length ≤ n := by
  obtain ⟨k, rfl⟩ := hdvd
  obtain ⟨j, hj⟩ := dvd_length_padTo hpos bytes
  have hlt : (padTo size bytes).length < bytes.length + size := by
    rw [padTo, List.length_append, List.length_replicate]
    exact Nat.add_lt_add_left (Nat.mod_lt _ hpos) _
  have hlt : size * j < size * (k + 1) := by
    rw [← hj, Nat.mul_add, Nat.mul_one]
    omega
  have hle := Nat.le_of_lt_succ (Nat.lt_of_mul_lt_mul_left hlt)
  rw [hj]
  exact Nat.mul_le_mul_left size hle

theorem padTo_append {size : Nat} {front : List Byte} (hdvd : size ∣ front.length) (bytes : List Byte) :
    padTo size (front ++ bytes) = front ++ padTo size bytes := by
  obtain ⟨k, hk⟩ := hdvd
  rw [padTo, padTo, List.length_append, hk, Nat.mul_add_mod_self_left, List.append_assoc]

theorem length_le_padTo (size : Nat) (bytes : List Byte) : bytes.length ≤ (padTo size bytes).length := by
  rw [padTo, List.length_append]
  omega

/-- What does not fill a block is padded to one. -/
theorem length_padTo_eq {size : Nat} (hpos : 0 < size) {bytes : List Byte} (hne : 0 < bytes.length)
    (hle : bytes.length ≤ size) : (padTo size bytes).length = size := by
  have hge := length_le_padTo size bytes
  have hpad : 0 < (padTo size bytes).length := by omega
  exact Nat.le_antisymm (length_padTo_le hpos dvd_rfl bytes hle) (Nat.le_of_dvd hpad (dvd_length_padTo hpos bytes))

/-! ### Packings -/

section Packings

variable {big : Bool}

/-- The nodes of a block, behind a cleanmarker, as they are in the buffer. -/
def packed (nodes : List (Node big)) : List Byte := (cleanNode big :: nodes).flatMap fun n => padTo 4 n.bytes

/-- The block with the nodes. -/
def blockBytes (erasesize : Nat) (nodes : List (Node big)) : List Byte := padTo erasesize (packed nodes)

/-- The nodes of the blocks that are written, and of the one that is being filled. -/
structure Packing (big : Bool) where
  blocks : List (List (Node big))
  cur : List (Node big)

theorem packed_append (nodes : List (Node big)) (n : Node big) :
    packed (nodes ++ [n]) = packed nodes ++ padTo 4 n.bytes := by
  rw [packed, ← List.cons_append, List.flatMap_append, List.flatMap_singleton]
  rfl

theorem packed_nil : packed ([] : List (Node big)) = cleanmarker big := by
  cases big <;> rfl

@[simp]
theorem length_packed_nil : (packed ([] : List (Node big))).length = 12 := by
  cases big <;> rfl

theorem four_dvd_length_flatMap (nodes : List (Node big)) :
    4 ∣ (nodes.flatMap fun n => padTo 4 n.bytes).length := by
  induction nodes with
  | nil => exact Nat.dvd_zero 4
  | cons n nodes ih =>
      rw [List.flatMap_cons, List.length_append]
      exact Nat.dvd_add (dvd_length_padTo (by decide) n.bytes) ih

theorem four_dvd_length_packed (nodes : List (Node big)) : 4 ∣ (packed nodes).length :=
  four_dvd_length_flatMap _

theorem length_packed_pos (nodes : List (Node big)) : 12 ≤ (packed nodes).length := by
  rw [packed, List.flatMap_cons, List.length_append]
  have := length_le_padTo 4 (cleanNode big).bytes
  rw [length_cleanNode] at this
  omega

theorem length_blockBytes {erasesize : Nat} (hpos : 0 < erasesize) {nodes : List (Node big)}
    (hle : (packed nodes).length ≤ erasesize) : (blockBytes erasesize nodes).length = erasesize :=
  length_padTo_eq hpos (Nat.lt_of_lt_of_le (by decide) (length_packed_pos nodes)) hle

theorem holds_replicate {n : Nat} (hdvd : 4 ∣ n) : Holds big (List.replicate n 0xff) [] := by
  obtain ⟨k, rfl⟩ := hdvd
  cases k with
  | zero => exact .done (fun hne => absurd rfl hne) (by cases big <;> decide)
  | succ k =>
      refine .done (fun _ => by rw [List.length_replicate]; omega) ?_
      have hslice : slice (List.replicate (4 * (k + 1)) (0xff : Byte)) 0 2 = [0xff, 0xff] := rfl
      rw [hslice]
      cases big <;> decide

/-- Padded nodes are found in turn. -/
theorem holds_flatMap {rest : List Byte} (hrest : Holds big rest []) (nodes : List (Node big)) :
    Holds big ((nodes.flatMap fun n => padTo 4 n.bytes) ++ rest) nodes := by
  induction nodes with
  | nil => exact hrest
  | cons n nodes ih =>
      rw [List.flatMap_cons, List.append_assoc]
      refine .node n ?_ ih
      rw [List.length_replicate, Node.paddedLen]
      omega

/-- A block is a cleanmarker, the nodes, and padding. -/
theorem holds_blockBytes {erasesize : Nat} (hdvd : 4 ∣ erasesize) (nodes : List (Node big)) :
    Holds big (blockBytes erasesize nodes) (cleanNode big :: nodes) := by
  refine holds_flatMap (holds_replicate ?_) _
  obtain ⟨k, hk⟩ := four_dvd_length_packed nodes
  have hmod : 4 ∣ (packed nodes).length % erasesize := (Nat.dvd_mod_iff hdvd).mpr ⟨k, hk⟩
  exact (Nat.dvd_mod_iff hdvd).mpr (Nat.dvd_sub hdvd hmod)

namespace Packing

variable (erasesize : Nat)

def nodes (p : Packing big) : List (Node big) := p.blocks.flatten ++ p.cur

/-- The bytes of the block that is being filled. -/
def fill (p : Packing big) : Nat := (packed p.cur).length

/-- The block is written as it is. -/
def flush (p : Packing big) : Packing big := ⟨p.blocks ++ [p.cur], []⟩

/-- The node goes to the block, which is written if that makes it full. -/
def add (n : Node big) (p : Packing big) : Packing big :=
  let p : Packing big := { p with cur := p.cur ++ [n] }
  if p.fill < erasesize then p else p.flush

/-- A block with no room for a node of 128 bytes of data is written. -/
def makeRoom (p : Packing big) : Packing big := if p.fill + 196 < erasesize then p else p.flush

/-- The node for a piece of a file. -/
def pieceNode (big : Bool) (ino version : Word) (stat : Stat) (f_offset : Nat) (data : List Byte)
    (hlen : data.length ≤ 4096) : Node big :=
  (pieceInode ino version stat f_offset data).node big
    (show 68 + data.length < 2 ^ 32 by omega)

/-- The next piece of a file: what there is room for, but no more than a page. -/
@[irreducible]
def nextPiece (rest : List Byte) (p : Packing big) : List Byte :=
  rest.take (min (erasesize - p.fill - inodeSize) 4096)

theorem nextPiece_eq (rest : List Byte) (p : Packing big) :
    p.nextPiece erasesize rest = rest.take (min (erasesize - p.fill - inodeSize) 4096) := by
  unfold nextPiece
  rfl

theorem length_nextPiece_le (rest : List Byte) (p : Packing big) : (p.nextPiece erasesize rest).length ≤ 4096 := by
  rw [nextPiece_eq]
  exact (List.length_take_le _ _).trans (min_le_right _ _)

theorem length_nextPiece_le_room (rest : List Byte) (p : Packing big) :
    (p.nextPiece erasesize rest).length ≤ erasesize - p.fill - inodeSize := by
  rw [nextPiece_eq]
  exact (List.length_take_le _ _).trans (min_le_left _ _)

/-- The pieces of a file. -/
def addPieces (ino version : Word) (stat : Stat) (f_offset : Nat) (rest : List Byte) (p : Packing big) :
    Packing big :=
  let p := p.makeRoom erasesize
  let data := p.nextPiece erasesize rest
  if _h : data = [] then p
  else
    addPieces ino (version + 1) stat (f_offset + data.length) (rest.drop data.length)
      (p.add erasesize (pieceNode big ino (version + 1) stat f_offset data (p.length_nextPiece_le erasesize rest)))
termination_by rest.length
decreasing_by
  have hpos : 0 < data.length := List.length_pos_of_ne_nil _h
  have hle : data.length ≤ rest.length := by
    change (p.nextPiece erasesize rest).length ≤ rest.length
    rw [nextPiece_eq]
    exact List.length_take_le' _ _
  change (rest.drop data.length).length < rest.length
  rw [List.length_drop]
  omega

theorem addPieces_done {p : Packing big} {rest : List Byte}
    (hdata : (p.makeRoom erasesize).nextPiece erasesize rest = []) (ino version : Word) (stat : Stat)
    (f_offset : Nat) : p.addPieces erasesize ino version stat f_offset rest = p.makeRoom erasesize := by
  rw [addPieces, dif_pos hdata]

theorem addPieces_more {p : Packing big} {rest data : List Byte} (hlen : data.length ≤ 4096)
    (hdata : (p.makeRoom erasesize).nextPiece erasesize rest = data) (hne : data ≠ []) (ino version : Word)
    (stat : Stat) (f_offset : Nat) :
    p.addPieces erasesize ino version stat f_offset rest =
      ((p.makeRoom erasesize).add erasesize (pieceNode big ino (version + 1) stat f_offset data hlen)).addPieces
        erasesize ino (version + 1) stat (f_offset + data.length) (rest.drop data.length) := by
  subst hdata
  rw [addPieces, dif_neg hne]

/-- Every block has nodes and fits, and there is room in the one that is being filled. -/
structure Fits (p : Packing big) : Prop where
  blocks : ∀ nodes ∈ p.blocks, nodes ≠ [] ∧ (packed nodes).length ≤ erasesize
  fill : p.fill < erasesize

variable {erasesize}

@[simp]
theorem nodes_flush (p : Packing big) : p.flush.nodes = p.nodes := by
  simp [flush, nodes]

@[simp]
theorem nodes_makeRoom (p : Packing big) : (p.makeRoom erasesize).nodes = p.nodes := by
  unfold makeRoom
  split
  · rfl
  · exact nodes_flush p

@[simp]
theorem nodes_add (n : Node big) (p : Packing big) : (p.add erasesize n).nodes = p.nodes ++ [n] := by
  unfold add
  dsimp only
  split
  · exact (List.append_assoc _ _ _).symm
  · rw [nodes_flush]
    exact (List.append_assoc _ _ _).symm

theorem fill_flush (p : Packing big) : p.flush.fill = 12 := by
  cases big <;> rfl

theorem Fits.flush {p : Packing big} (hblocks : ∀ nodes ∈ p.blocks, nodes ≠ [] ∧ (packed nodes).length ≤ erasesize)
    (hsize : 12 < erasesize) (hne : p.cur ≠ []) (hle : p.fill ≤ erasesize) : p.flush.Fits erasesize where
  blocks nodes hnodes := by
    rcases List.mem_append.mp hnodes with hold | hnew
    · exact hblocks nodes hold
    · rw [List.mem_singleton.mp hnew]
      exact ⟨hne, hle⟩
  fill := by
    rw [fill_flush]
    exact hsize

theorem cur_ne_nil {p : Packing big} (hsize : 208 < erasesize) (hroom : ¬ p.fill + 196 < erasesize) :
    p.cur ≠ [] := by
  intro hnil
  have hfill : p.fill = 12 := by
    rw [fill, hnil]
    exact length_packed_nil
  omega

theorem Fits.makeRoom {p : Packing big} (h : p.Fits erasesize) (hsize : 208 < erasesize) :
    (p.makeRoom erasesize).Fits erasesize ∧ (p.makeRoom erasesize).fill + 196 < erasesize := by
  unfold Packing.makeRoom
  split
  · next hroom => exact ⟨h, hroom⟩
  · next hroom =>
      refine ⟨Fits.flush h.blocks (by omega) (cur_ne_nil hsize hroom) h.fill.le, ?_⟩
      rw [fill_flush]
      exact hsize

theorem fill_append (p : Packing big) (n : Node big) :
    ({ p with cur := p.cur ++ [n] } : Packing big).fill = p.fill + (padTo 4 n.bytes).length := by
  rw [fill, packed_append, List.length_append]
  rfl

theorem fill_append_le (hdvd : 4 ∣ erasesize) {p : Packing big} {n : Node big}
    (hroom : p.fill + n.bytes.length ≤ erasesize) :
    ({ p with cur := p.cur ++ [n] } : Packing big).fill ≤ erasesize := by
  have hfill : 4 ∣ erasesize - p.fill := Nat.dvd_sub hdvd (four_dvd_length_packed p.cur)
  have hle := length_padTo_le (by decide) hfill n.bytes (by omega)
  rw [fill_append]
  omega

theorem Fits.add {p : Packing big} (h : p.Fits erasesize) (hdvd : 4 ∣ erasesize) (hsize : 12 < erasesize)
    {n : Node big} (hroom : p.fill + n.bytes.length ≤ erasesize) : (p.add erasesize n).Fits erasesize := by
  have hle := fill_append_le hdvd hroom
  unfold Packing.add
  dsimp only
  split
  · next hlt => exact ⟨h.blocks, hlt⟩
  · exact Fits.flush (p := { p with cur := p.cur ++ [n] }) h.blocks hsize
      (List.append_ne_nil_of_right_ne_nil _ (List.cons_ne_nil _ _)) hle

end Packing

/-! ### The pieces of a file -/

/-- Where the data of an inode node goes. -/
def Node.offset (n : Node big) : Word := word big (slice n.bytes 44 4)

def Node.dsize (n : Node big) : Word := word big (slice n.bytes 52 4)

def Node.data (n : Node big) : List Byte := slice n.bytes inodeSize n.dsize.toNat

/-- Inode nodes with the content of a file, from an offset and the version behind `version` on. -/
structure Pieces (ino version : Word) (f_offset : Nat) (content : List Byte) (nodes : List (Node big)) :
    Prop where
  inode : ∀ n ∈ nodes, n.nodetype = nodetypeInode ∧ n.inodeIno = ino ∧ n.data ≠ []
  content : nodes.flatMap Node.data = content
  place : ∀ before n after, nodes = before ++ n :: after →
    n.offset = BitVec.ofNat 32 (f_offset + (before.flatMap Node.data).length) ∧
      n.version = version + BitVec.ofNat 32 (before.length + 1)

theorem Pieces.nil (ino version : Word) (f_offset : Nat) :
    Pieces ino version f_offset [] ([] : List (Node big)) where
  inode n hn := absurd hn List.not_mem_nil
  content := rfl
  place before n after h := by simp at h

theorem Pieces.cons {ino version : Word} {f_offset : Nat} {content : List Byte} {nodes : List (Node big)}
    {n : Node big} (hinode : n.nodetype = nodetypeInode ∧ n.inodeIno = ino ∧ n.data ≠ [])
    (hoffset : n.offset = BitVec.ofNat 32 f_offset) (hversion : n.version = version + 1)
    (h : Pieces ino (version + 1) (f_offset + n.data.length) content nodes) :
    Pieces ino version f_offset (n.data ++ content) (n :: nodes) where
  inode m hm := by
    rcases List.mem_cons.mp hm with rfl | hm
    · exact hinode
    · exact h.inode m hm
  content := by rw [List.flatMap_cons, h.content]
  place before m after heq := by
    cases before with
    | nil =>
        obtain ⟨rfl, -⟩ := List.cons.inj heq
        exact ⟨hoffset, hversion⟩
    | cons n' before =>
        obtain ⟨rfl, htail⟩ := List.cons.inj heq
        obtain ⟨hoff, hver⟩ := h.place before m after htail
        rw [List.flatMap_cons, List.length_append, hoff, hver, Nat.add_assoc, BitVec.add_assoc,
          List.length_cons, Nat.add_comm (before.length + 1), BitVec.ofNat_add 1]
        exact ⟨rfl, rfl⟩

/-- What the fields of an inode node are. -/
theorem RawInode.node_spec (big : Bool) (ri : RawInode) (hlen : inodeSize + ri.data.length < 2 ^ 32) :
    (ri.node big hlen).nodetype = nodetypeInode ∧ (ri.node big hlen).inodeIno = ri.ino ∧
      (ri.node big hlen).version = ri.version ∧ (ri.node big hlen).offset = ri.offset ∧
      (ri.node big hlen).data = ri.data := by
  obtain ⟨htype, hino, hversion, hoffset, hdsize⟩ :
      slice (ri.whole big) 2 2 = putHalf big nodetypeInode ∧ slice (ri.whole big) 12 4 = putWord big ri.ino ∧
        slice (ri.whole big) 16 4 = putWord big ri.version ∧ slice (ri.whole big) 44 4 = putWord big ri.offset ∧
        slice (ri.whole big) 52 4 = putWord big (BitVec.ofNat 32 ri.data.length) := by
    simp only [RawInode.whole, RawInode.bytes, List.append_assoc]
    generalize BitVec.ofNat 32 ri.data.length = dsize
    cases big <;> exact ⟨rfl, rfl, rfl, rfl, rfl⟩
  refine ⟨?_, ?_, ?_, ?_, ?_⟩
  · rw [Node.nodetype, RawInode.node, htype, half_putHalf]
  · rw [Node.inodeIno, RawInode.node, hino, word_putWord]
  · rw [Node.version, RawInode.node, hversion, word_putWord]
  · rw [Node.offset, RawInode.node, hoffset, word_putWord]
  · unfold inodeSize at hlen
    have hbytes : (ri.node big hlen).bytes = ri.whole big := rfl
    rw [Node.data, Node.dsize, hbytes, hdsize, word_putWord, BitVec.toNat_ofNat,
      Nat.mod_eq_of_lt (by omega), RawInode.whole, slice_append_right (length_inodeBytes big ri _),
      List.take_length]

namespace Packing

variable {erasesize : Nat}

/-- The pieces of a file are inode nodes behind the nodes that are there, and every block fits. -/
theorem addPieces_spec (hdvd : 4 ∣ erasesize) (hsize : 208 < erasesize) (ino version : Word) (stat : Stat)
    (f_offset : Nat) (rest : List Byte) (p : Packing big) (h : p.Fits erasesize) :
    (p.addPieces erasesize ino version stat f_offset rest).Fits erasesize ∧
      ∃ pieces, (p.addPieces erasesize ino version stat f_offset rest).nodes = p.nodes ++ pieces ∧
        Pieces ino version f_offset rest pieces := by
  fun_induction addPieces erasesize ino version stat f_offset rest p with
  | case1 version f_offset rest p next data hdata =>
      obtain ⟨hfits, hroom⟩ := h.makeRoom hsize
      have hpiece : 0 < min (erasesize - next.fill - inodeSize) 4096 := by
        change next.fill + 196 < erasesize at hroom
        unfold inodeSize
        omega
      have hrest : rest = [] := by
        by_contra hne
        have hlen := congrArg List.length hdata
        have := List.length_pos_of_ne_nil hne
        change (next.nextPiece erasesize rest).length = 0 at hlen
        rw [nextPiece_eq, List.length_take] at hlen
        omega
      rw [hrest]
      exact ⟨hfits, [], by rw [List.append_nil]; exact nodes_makeRoom p, Pieces.nil _ _ _⟩
  | case2 version f_offset rest p next data hdata ih =>
      obtain ⟨hfits, hroom⟩ := h.makeRoom hsize
      have hlen : data.length ≤ erasesize - next.fill - inodeSize := length_nextPiece_le_room erasesize rest next
      have hpiece : data.length ≤ 4096 := length_nextPiece_le erasesize rest next
      obtain ⟨htype, hino, hversion, hoffset, hnode⟩ :=
        RawInode.node_spec big (pieceInode ino (version + 1) stat f_offset data)
          (show 68 + data.length < 2 ^ 32 by omega)
      change next.fill + 196 < erasesize at hroom
      have hbytes : next.fill + (pieceNode big ino (version + 1) stat f_offset data hpiece).bytes.length ≤ erasesize := by
        change next.fill + ((pieceInode ino (version + 1) stat f_offset data).whole big).length ≤ erasesize
        rw [length_inodeWhole]
        change next.fill + (68 + data.length) ≤ erasesize
        change data.length ≤ erasesize - next.fill - 68 at hlen
        omega
      obtain ⟨hfits, pieces, hnodes, hpieces⟩ := ih (hfits.add hdvd (by omega) hbytes)
      refine ⟨hfits, pieceNode big ino (version + 1) stat f_offset data hpiece :: pieces, ?_, ?_⟩
      · rw [hnodes, nodes_add, nodes_makeRoom, List.append_assoc]
        rfl
      · change (pieceNode big ino (version + 1) stat f_offset data hpiece).data = data at hnode
        have hrest : (pieceNode big ino (version + 1) stat f_offset data hpiece).data ++ rest.drop data.length = rest := by
          have hpre : data <+: rest := by
            change next.nextPiece erasesize rest <+: rest
            rw [nextPiece_eq]
            exact List.take_prefix _ _
          rw [hnode]
          exact List.prefix_iff_eq_append.mp hpre
        rw [← hrest]
        refine Pieces.cons ⟨htype, hino, ?_⟩ hoffset hversion ?_
        · rw [hnode]
          exact hdata
        · rw [hnode]
          exact hpieces

end Packing

end Packings

/-! ### The writer -/

section Refines

variable {big : Bool} {d : Nand} {start : Disk}

/-- The blocks have been written, and the buffer holds the bytes. -/
structure Filled (d : Nand) (start : Disk) (blocks : List (List Byte)) (cur : List Byte) (w : Writer) :
    Prop where
  disk : w.disk = blocks.foldl (Disk.put d) start
  bytes : At w.buf 0 cur
  ofs : w.ofs = cur.length

theorem At.store_append {mem : Octets} {bytes : List Byte} (h : At mem 0 bytes) (data : List Byte) :
    At (store mem bytes.length data) 0 (bytes ++ data) := by
  refine at_append.mpr ⟨?_, ?_⟩
  · exact (bytesAt_store_of_disjoint mem data (Or.inl (by omega))).trans h
  · rw [Nat.zero_add]
    exact bytesAt_store_self mem bytes.length data

namespace Filled

variable {blocks : List (List Byte)} {cur : List Byte} {w : Writer}

theorem copy (h : Filled d start blocks cur w) (data : List Byte) :
    Filled d start blocks (cur ++ data) (w.copy data) where
  disk := h.disk
  bytes := by
    rw [Writer.copy, h.ofs]
    exact h.bytes.store_append data
  ofs := by rw [Writer.copy, h.ofs, List.length_append]

theorem addData (big : Bool) (h : Filled d start blocks cur w) (data : List Byte)
    (hfits : cur.length + data.length ≤ d.erasesize) :
    Filled d start blocks (cur ++ data) (addData big d data w) := by
  rw [Jffs2.addData, if_neg (by rw [h.ofs]; omega)]
  exact h.copy data

/-- What an operation leads to that writes the buffer when it is full. -/
def Wraps (d : Nand) (start : Disk) (blocks : List (List Byte)) (cur : List Byte) (w : Writer) : Prop :=
  (cur.length < d.erasesize → Filled d start blocks cur w) ∧
    (cur.length = d.erasesize → Filled d start (blocks ++ [cur]) [] w)

/-- The end of `pad`. -/
theorem wrap (h : Filled d start blocks cur w) (hpos : 0 < cur.length) :
    Wraps d start blocks cur
      (if w.ofs % d.erasesize = 0 then
        { w with ofs := w.ofs % d.erasesize, disk := w.disk.put d (bytesAt w.buf 0 d.erasesize) }
      else { w with ofs := w.ofs % d.erasesize }) := by
  constructor
  · intro hlt
    rw [h.ofs, Nat.mod_eq_of_lt hlt, if_neg (Nat.ne_of_gt hpos)]
    exact ⟨h.disk, h.bytes, rfl⟩
  · intro heq
    rw [h.ofs, heq, Nat.mod_self, if_pos rfl]
    refine ⟨?_, rfl, rfl⟩
    have hbytes : bytesAt w.buf 0 cur.length = cur := h.bytes
    rw [heq] at hbytes
    rw [List.foldl_append, hbytes, h.disk]
    rfl

/-- `pad` fills the buffer up, and writes it if it is full then. -/
theorem pad {size : Nat} (h : Filled d start blocks cur w) (hpos : 0 < size)
    (hdvd : cur.length = d.erasesize → size ∣ d.erasesize) (hle : cur.length ≤ d.erasesize) : Wraps d start blocks (padTo size cur) (pad d size w) := by
  unfold Jffs2.pad
  by_cases hstay : w.ofs % size = 0 ∧ w.ofs < d.erasesize
  · rw [if_pos hstay]
    rw [h.ofs] at hstay
    rw [padTo_of_dvd (Nat.dvd_of_mod_eq_zero hstay.1)]
    exact ⟨fun _ => h, fun heq => absurd heq (Nat.ne_of_lt hstay.2)⟩
  · rw [if_neg hstay]
    rw [h.ofs] at hstay
    by_cases hlt : cur.length < d.erasesize
    · have hmod : cur.length % size ≠ 0 := fun hzero => hstay ⟨hzero, hlt⟩
      have hpad : padTo size cur = cur ++ List.replicate (size - cur.length % size) 0xff := by
        rw [padTo, Nat.mod_eq_of_lt (Nat.sub_lt hpos (Nat.pos_of_ne_zero hmod))]
      have hfilled := h.copy (List.replicate (size - cur.length % size) 0xff)
      rw [← hpad] at hfilled
      have hlen : 0 < (padTo size cur).length := by
        have := length_le_padTo size cur
        have : cur.length ≠ 0 := fun hzero => hmod (by rw [hzero, Nat.zero_mod])
        omega
      have hwraps := hfilled.wrap hlen
      simp only [Writer.copy, List.length_replicate] at hwraps
      rw [← h.ofs] at hwraps hlt
      simp only [if_pos hlt]
      exact hwraps
    · have heq : cur.length = d.erasesize := Nat.le_antisymm hle (not_lt.mp hlt)
      have hwraps := h.wrap (heq ▸ d.erasesize_pos)
      rw [← h.ofs] at hlt
      rw [padTo_of_dvd (heq ▸ hdvd heq)]
      simp only [if_neg hlt]
      exact hwraps

/-- The rest of the block is padding. -/
theorem pad_block (h : Filled d start blocks cur w) (hpos : 0 < cur.length) (hle : cur.length ≤ d.erasesize) :
    Filled d start (blocks ++ [padTo d.erasesize cur]) [] (Jffs2.pad d d.erasesize w) :=
  (h.pad d.erasesize_pos (fun _ => dvd_rfl) hle).2 (length_padTo_eq d.erasesize_pos hpos hle)

/-- The block is padded, and the end marker goes to a block of its own. -/
theorem finish (big : Bool) (h : Filled d start blocks cur w) (hpos : 0 < cur.length) (hle : cur.length ≤ d.erasesize)
    (hsize : 4 ≤ d.erasesize) :
    Filled d start (blocks ++ [padTo d.erasesize cur] ++ [padTo d.erasesize eofMarker]) [] (finish big d w) := by
  have heof := Filled.addData big (h.pad_block hpos hle) eofMarker hsize
  exact heof.pad_block (by decide) hsize

end Filled

/-- The writer is in the middle of a packing. -/
structure Packs (d : Nand) (start : Disk) (p : Packing big) (w : Writer) : Prop where
  filled : Filled d start (p.blocks.map (blockBytes d.erasesize)) (packed p.cur) w
  fits : p.Fits d.erasesize

namespace Packs

variable {p : Packing big} {w : Writer}

theorem ofs_eq (h : Packs d start p w) : w.ofs = p.fill := h.filled.ofs

theorem prep (h : Packs d start p w) : prepEraseblock big w = w := by
  have hpos := length_packed_pos p.cur
  rw [prepEraseblock, if_pos (by rw [h.filled.ofs]; omega)]

/-- An empty buffer gets a cleanmarker. -/
theorem of_empty {blocks : List (List (Node big))}
    (h : Filled d start (blocks.map (blockBytes d.erasesize)) [] w)
    (hfits : (Packing.mk blocks ([] : List (Node big))).Fits d.erasesize) :
    Packs d start ⟨blocks, []⟩ (prepEraseblock big w) := by
  have hofs : ¬ w.ofs > 0 := by
    rw [h.ofs]
    exact lt_irrefl 0
  refine ⟨?_, hfits⟩
  rw [prepEraseblock, if_neg hofs, packed_nil]
  exact h.copy (cleanmarker big)

theorem flush (h : Packs d start p w) (hsize : 12 < d.erasesize) (hne : p.cur ≠ []) :
    Packs d start p.flush (prepEraseblock big (pad d d.erasesize w)) := by
  have hpos : 0 < (packed p.cur).length := Nat.lt_of_lt_of_le (by decide) (length_packed_pos p.cur)
  have hpad := h.filled.pad_block hpos h.fits.fill.le
  refine of_empty ?_ (Packing.Fits.flush h.fits.blocks hsize hne h.fits.fill.le)
  rw [List.map_append]
  exact hpad

theorem makeRoom (h : Packs d start p w) (hsize : 208 < d.erasesize) :
    Packs d start (p.makeRoom d.erasesize) (makeRoom big d w) := by
  have hfill := h.fits.fill
  have hrbytes : rbytes d w = d.erasesize - p.fill := by
    rw [rbytes, h.ofs_eq, Nat.mod_eq_of_lt hfill]
  have hroom : (rbytes d w : Int) - inodeSize > 128 ↔ p.fill + 196 < d.erasesize := by
    rw [hrbytes]
    unfold inodeSize
    omega
  unfold Packing.makeRoom Jffs2.makeRoom
  by_cases h196 : p.fill + 196 < d.erasesize
  · rw [if_pos h196, if_pos (hroom.mpr h196)]
    exact h
  · rw [if_neg h196, if_neg (mt hroom.mp h196)]
    exact h.flush (by omega) (Packing.cur_ne_nil hsize h196)

/-- A node that is in the buffer is padded, and the block is not full then. -/
theorem add_of_lt (h : Packs d start p w) {n : Node big}
    (hlt : p.fill + (padTo 4 n.bytes).length < d.erasesize) {w' : Writer}
    (hw : Filled d start (p.blocks.map (blockBytes d.erasesize)) (packed p.cur ++ n.bytes) w') :
    Packs d start (p.add d.erasesize n) (Jffs2.pad d 4 w') := by
  have hle := length_le_padTo 4 n.bytes
  rw [← Packing.fill_append] at hlt
  have hroom : (packed p.cur ++ n.bytes).length < d.erasesize := by
    rw [Packing.fill_append] at hlt
    rw [List.length_append]
    change p.fill + n.bytes.length < d.erasesize
    omega
  have hpad := hw.pad (show 0 < 4 by decide) (fun heq => absurd heq (Nat.ne_of_lt hroom)) hroom.le
  rw [padTo_append (four_dvd_length_packed _), ← packed_append] at hpad
  unfold Packing.add
  dsimp only
  rw [if_pos hlt]
  exact ⟨hpad.1 hlt, h.fits.blocks, hlt⟩

/-- A node that is in the buffer is padded. -/
theorem add (h : Packs d start p w) (hdvd : 4 ∣ d.erasesize) (hsize : 12 < d.erasesize) {n : Node big}
    (hroom : p.fill + n.bytes.length ≤ d.erasesize) {w' : Writer}
    (hw : Filled d start (p.blocks.map (blockBytes d.erasesize)) (packed p.cur ++ n.bytes) w') :
    Packs d start (p.add d.erasesize n) (prepEraseblock big (Jffs2.pad d 4 w')) := by
  by_cases hlt : p.fill + (padTo 4 n.bytes).length < d.erasesize
  · have hpacks := h.add_of_lt hlt hw
    rw [hpacks.prep]
    exact hpacks
  · have hfits := h.fits.add hdvd hsize hroom
    have hpad := hw.pad (show 0 < 4 by decide) (fun _ => hdvd) (by rw [List.length_append]; exact hroom)
    rw [padTo_append (four_dvd_length_packed _), ← packed_append] at hpad
    have hle := Packing.fill_append_le hdvd hroom
    rw [← Packing.fill_append] at hlt
    unfold Packing.add at hfits ⊢
    dsimp only at hfits ⊢
    rw [if_neg hlt] at hfits ⊢
    have heq := Nat.le_antisymm hle (not_lt.mp hlt)
    refine of_empty ?_ hfits
    have hblock : blockBytes d.erasesize (p.cur ++ [n]) = packed (p.cur ++ [n]) :=
      padTo_of_dvd (Nat.dvd_of_mod_eq_zero (by
        change (Packing.fill { p with cur := p.cur ++ [n] }) % _ = 0
        rw [heq, Nat.mod_self]))
    rw [List.map_append, List.map_singleton, hblock]
    exact hpad.2 heq

/-- A piece that fits goes to the buffer. -/
theorem piece_filled (h : Packs d start p w) (ino : Word) (stat : Stat) (f_offset : Nat) {data : List Byte}
    (hlen : data.length ≤ 4096) (hroom : p.fill + (inodeSize + data.length) ≤ d.erasesize) :
    Filled d start (p.blocks.map (blockBytes d.erasesize))
      (packed p.cur ++
        (Packing.pieceNode big ino (w.globals.lastVersion + 1) stat f_offset data hlen).bytes)
      (addData big d data (addData big d
        ((pieceInode ino (w.globals.lastVersion + 1) stat f_offset data).bytes big (crc32 0 data))
        { w with globals := { w.globals with lastVersion := w.globals.lastVersion + 1 } })) := by
  have hnode : (Packing.pieceNode big ino (w.globals.lastVersion + 1) stat f_offset data hlen).bytes =
      (pieceInode ino (w.globals.lastVersion + 1) stat f_offset data).bytes big (crc32 0 data) ++ data := rfl
  have hinode := length_inodeBytes big (pieceInode ino (w.globals.lastVersion + 1) stat f_offset data)
    (crc32 0 data)
  have hcount : Filled d start (p.blocks.map (blockBytes d.erasesize)) (packed p.cur)
      { w with globals := { w.globals with lastVersion := w.globals.lastVersion + 1 } } :=
    ⟨h.filled.disk, h.filled.bytes, h.filled.ofs⟩
  rw [hnode, ← List.append_assoc]
  refine Filled.addData big (Filled.addData big hcount _ ?_) _ ?_
  · rw [hinode]
    change p.fill + inodeSize ≤ d.erasesize
    omega
  · rw [List.length_append, hinode]
    change p.fill + inodeSize + data.length ≤ d.erasesize
    omega

theorem addPiece (h : Packs d start p w) (hdvd : 4 ∣ d.erasesize) (hsize : 12 < d.erasesize) (ino : Word)
    (stat : Stat) (f_offset : Nat) {data : List Byte} (hlen : data.length ≤ 4096)
    (hroom : p.fill + (inodeSize + data.length) ≤ d.erasesize) :
    Packs d start
      (p.add d.erasesize (Packing.pieceNode big ino (w.globals.lastVersion + 1) stat f_offset data hlen))
      (addPiece big d ino stat f_offset data w) := by
  have hbytes : p.fill + (Packing.pieceNode big ino (w.globals.lastVersion + 1) stat f_offset data hlen).bytes.length ≤
      d.erasesize := by
    change p.fill + ((pieceInode ino (w.globals.lastVersion + 1) stat f_offset data).whole big).length ≤ _
    rw [length_inodeWhole]
    exact hroom
  exact h.add hdvd hsize hbytes (h.piece_filled ino stat f_offset hlen hroom)

theorem nextPiece_eq (h : Packs d start p w) (rest : List Byte) :
    rest.take (pieceLen d w) = p.nextPiece d.erasesize rest := by
  rw [Packing.nextPiece_eq, pieceLen, rbytes, h.ofs_eq, Nat.mod_eq_of_lt h.fits.fill]

/-- The loop of `add_file` packs the pieces of the content. -/
theorem addPieces (hdvd : 4 ∣ d.erasesize) (hsize : 208 < d.erasesize) (ino : Word) (stat : Stat)
    (f_offset : Nat) (rest : List Byte) (w : Writer) (p : Packing big) (h : Packs d start p w) :
    Packs d start (p.addPieces d.erasesize ino w.globals.lastVersion stat f_offset rest)
      (addPieces big d ino stat f_offset rest w) := by
  fun_induction Jffs2.addPieces big d ino stat f_offset rest w generalizing p with
  | case1 f_offset rest w next data hdata =>
      have hnext : Packs d start (p.makeRoom d.erasesize) next := h.makeRoom (by omega)
      have hpiece : (p.makeRoom d.erasesize).nextPiece d.erasesize rest = data := (hnext.nextPiece_eq rest).symm
      rw [Packing.addPieces_done d.erasesize (hpiece.trans hdata)]
      exact hnext
  | case2 f_offset rest w next data hdata ih =>
      have hnext : Packs d start (p.makeRoom d.erasesize) next := h.makeRoom (by omega)
      have hpiece : (p.makeRoom d.erasesize).nextPiece d.erasesize rest = data := (hnext.nextPiece_eq rest).symm
      have hlen : data.length ≤ 4096 := hpiece ▸ Packing.length_nextPiece_le d.erasesize rest _
      have hglobals : next.globals = w.globals := globals_makeRoom w
      have hroom : (p.makeRoom d.erasesize).fill + (inodeSize + data.length) ≤ d.erasesize := by
        have hfill := (h.fits.makeRoom hsize).2
        have hle := Packing.length_nextPiece_le_room d.erasesize rest (p.makeRoom d.erasesize)
        rw [hpiece] at hle
        unfold inodeSize at hle ⊢
        omega
      have hrest := ih _ (hnext.addPiece hdvd (by omega) ino stat f_offset hlen hroom)
      rw [globals_addPiece, hglobals] at hrest
      rw [Packing.addPieces_more d.erasesize hlen hpiece hdata]
      exact hrest

/-- The end marker goes to a block of its own. -/
theorem finish (h : Packs d start p w) (hsize : 4 ≤ d.erasesize) :
    Filled d start ((p.blocks ++ [p.cur]).map (blockBytes d.erasesize) ++ [padTo d.erasesize eofMarker]) []
      (finish big d w) := by
  have hpos : 0 < (packed p.cur).length := Nat.lt_of_lt_of_le (by decide) (length_packed_pos p.cur)
  have hfinish := h.filled.finish big hpos h.fits.fill.le hsize
  rw [List.map_append]
  exact hfinish

end Packs

/-! ### A file -/

/-- The entry that `mtd_replace_jffs2` makes for a file. -/
def fileEntry (file : File) (g : Globals) : RawDirent where
  pino := 1
  version := g.lastVersion
  ino := g.startIno + 1
  type := dtReg
  name := file.fname.bytes

/-- The packing of a file: its entry and its pieces. -/
def filePacking (big : Bool) (erasesize : Nat) (file : File) (hname : file.fname.strlen ≤ 255) (stat : Stat)
    (content : List Byte) (g : Globals) : Packing big :=
  let entry := (fileEntry file g).node big (Nat.lt_succ_of_le hname) file.fname.noNul
  ((Packing.mk [] []).add erasesize entry).addPieces erasesize (g.startIno + 1) (g.lastVersion + 1) stat 0
    content

theorem pad_empty {w : Writer} (hw : w.ofs = 0) : pad d d.erasesize w = w := by
  rw [pad, if_pos]
  rw [hw, Nat.zero_mod]
  exact ⟨rfl, d.erasesize_pos⟩

/-- An entry in an empty buffer is the first node. -/
theorem addDirent_packs (hsize : 4096 ≤ d.erasesize) {name : CString}
    (hname : name.strlen ≤ 255) {type : Byte} {parent : Word} {w : Writer} (hw : w.ofs = 0)
    (hdisk : w.disk = start) {de : RawDirent} (hde : (addDirent big d name type parent w).2 = de)
    (hlen : de.name.length < 2 ^ 8) (hnul : 0 ∉ de.name) :
    Packs d start ((Packing.mk [] []).add d.erasesize (de.node big hlen hnul))
      (addDirent big d name type parent w).1 := by
  have hskip : (if toSize ((w.ofs : Int) - d.erasesize) < direntSize + name.strlen then pad d d.erasesize w
      else w) = w := by
    rw [pad_empty hw]
    exact ite_self w
  have hempty : Packs d start (Packing.mk ([] : List (List (Node big))) []) (prepEraseblock big w) :=
    Packs.of_empty ⟨hdisk, rfl, hw⟩ ⟨fun nodes hnodes => absurd hnodes List.not_mem_nil,
      (show (packed ([] : List (Node big))).length < d.erasesize by
        rw [packed_nil]
        cases big <;> exact Nat.lt_of_lt_of_le (by decide) hsize)⟩
  have hname' : de.name = name.bytes := by rw [← hde, (addDirent_spec big d name type parent w).1]
  have hbytes : (de.node big hlen hnul).bytes.length = direntSize + name.strlen := by
    change (de.bytes big).length = _
    rw [length_direntBytes, hname']
    rfl
  have hroom : (Packing.mk ([] : List (List (Node big))) []).fill +
      (padTo 4 (de.node big hlen hnul).bytes).length < d.erasesize := by
    have hle := length_padTo_le (show 0 < 4 by decide) (show 4 ∣ 296 by decide) (de.node big hlen hnul).bytes
      (by rw [hbytes]; unfold direntSize; omega)
    have hfill : (packed ([] : List (Node big))).length = 12 := length_packed_nil
    change (packed ([] : List (Node big))).length + _ < d.erasesize
    omega
  refine hempty.add_of_lt hroom ?_
  have hcopy := hempty.filled.copy (de.bytes big)
  rw [hskip, globals_prepEraseblock, ← (addDirent_spec big d name type parent w).1, hde]
  refine ⟨hcopy.disk, hcopy.bytes, ?_⟩
  have hofs := hcopy.ofs
  change (prepEraseblock big w).ofs + (de.bytes big).length = _ at hofs
  rw [length_direntBytes, hname'] at hofs
  have hmod : name.strlen % 2 ^ 8 = name.strlen := Nat.mod_eq_of_lt (Nat.lt_succ_of_le hname)
  rw [hmod]
  exact hofs

/-- The writer when `mtd_replace_jffs2` adds the file. -/
def Writer.begun (ofs : Nat) (w : Writer) : Writer := { w with
  globals := { w.globals with
    targetIno := 1
    lastIno := w.globals.startIno }
  disk := { w.disk with mtdofs := ofs } }

theorem mtdReplaceJffs2_eq (big : Bool) (d : Nand) (file : File) {stat : Stat} (hstat : file.stat = some stat)
    {content : List Byte} (hcontent : file.content = some content) (ofs : Nat) (w : Writer) :
    (addDirent big d file.fname dtReg 1 (w.begun ofs)).2 = fileEntry file w.globals ∧
      (mtdReplaceJffs2 big d ofs file w).1 =
        finish big d (addPieces big d (w.globals.startIno + 1) stat 0 content
          (addDirent big d file.fname dtReg 1 (w.begun ofs)).1) := by
  have hentry : (addDirent big d file.fname dtReg 1 (w.begun ofs)).2 = fileEntry file w.globals :=
    (addDirent_spec big d file.fname dtReg 1 (w.begun ofs)).1
  have hfile : (addFile big d file 1 (w.begun ofs)).1 = addPieces big d (w.globals.startIno + 1) stat 0 content
      (addDirent big d file.fname dtReg 1 (w.begun ofs)).1 := by
    unfold addFile
    rw [hstat, hcontent]
    dsimp only
    rw [hentry]
    rfl
  refine ⟨hentry, ?_⟩
  rw [← hfile]
  rfl

/-- What `mtd_replace_jffs2` does is the packing of the file, the last block of which is padded, and a block
with the end marker. -/
theorem mtdReplaceJffs2_packing (hdvd : 4 ∣ d.erasesize) (hsize : 4096 ≤ d.erasesize) (file : File)
    (hname : file.fname.strlen ≤ 255) {stat : Stat} (hstat : file.stat = some stat) {content : List Byte}
    (hcontent : file.content = some content) (ofs : Nat) {w : Writer} (hw : w.ofs = 0) :
    (filePacking big d.erasesize file hname stat content w.globals).Fits d.erasesize ∧
      Filled d { w.disk with mtdofs := ofs }
        (((filePacking big d.erasesize file hname stat content w.globals).blocks ++
          [(filePacking big d.erasesize file hname stat content w.globals).cur]).map (blockBytes d.erasesize) ++
          [padTo d.erasesize eofMarker]) [] (mtdReplaceJffs2 big d ofs file w).1 := by
  obtain ⟨hentry, hrun⟩ := mtdReplaceJffs2_eq big d file hstat hcontent ofs w
  have hglobals := (addDirent_spec big d file.fname dtReg 1 (w.begun ofs)).2
  have hdirent := addDirent_packs hsize hname (w := w.begun ofs) hw rfl hentry (Nat.lt_succ_of_le hname)
    file.fname.noNul
  have hpieces := Packs.addPieces hdvd (by omega) (w.globals.startIno + 1) stat 0 content _ _ hdirent
  rw [hglobals] at hpieces
  rw [hrun]
  exact ⟨hpieces.fits, hpieces.finish (by omega)⟩

end Refines

end Immwrt.Mtd.Jffs2
