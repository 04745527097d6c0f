import Immwrt.Mtd.Proof.Jffs2Device
import Immwrt.Mtd.Proof.Jffs2Packing

/-!
# What `mtd_replace_jffs2` writes

The blocks of a packing go to the good blocks of the device in turn, and the file position keeps in step with
the offset that is counted. So the file is found when the blocks are walked, provided that the blocks have whole
words.
-/

namespace Immwrt.Mtd.Jffs2

section Append

variable {big : Bool} {d : Nand}

/-- The bytes of the data of nodes are in the blocks. -/
theorem length_data_le (nodes : List (Node big)) : (nodes.flatMap Node.data).length ≤ (packed nodes).length := by
  have hflat : (nodes.flatMap Node.data).length ≤ (nodes.flatMap fun n => padTo 4 n.bytes).length := by
    induction nodes with
    | nil => exact le_rfl
    | cons n nodes ih =>
        rw [List.flatMap_cons, List.flatMap_cons, List.length_append, List.length_append]
        have hdata : n.data.length ≤ n.bytes.length :=
          (List.length_take_le' _ _).trans (List.length_drop.trans_le (Nat.sub_le _ _))
        have hpad := length_le_padTo 4 n.bytes
        omega
  rw [packed, List.flatMap_cons, List.length_append]
  omega

theorem length_flatten_data_le {erasesize : Nat} {blocks : List (List (Node big))}
    (hfits : ∀ nodes ∈ blocks, (packed nodes).length ≤ erasesize) :
    (blocks.flatten.flatMap Node.data).length ≤ blocks.length * erasesize := by
  induction blocks with
  | nil => exact Nat.zero_le _
  | cons nodes blocks ih =>
      have hnodes := (length_data_le nodes).trans (hfits nodes List.mem_cons_self)
      have hblocks := ih fun b hb => hfits b (List.mem_cons_of_mem nodes hb)
      rw [List.flatten_cons, List.flatMap_append, List.length_append, List.length_cons, Nat.succ_mul]
      omega

theorem length_le_flatten {blocks : List (List (Node big))} (hne : ∀ nodes ∈ blocks, nodes ≠ []) :
    blocks.length ≤ blocks.flatten.length := by
  induction blocks with
  | nil => exact le_rfl
  | cons nodes blocks ih =>
      have hpos := List.length_pos_of_ne_nil (hne nodes List.mem_cons_self)
      have hle := ih fun b hb => hne b (List.mem_cons_of_mem nodes hb)
      rw [List.flatten_cons, List.length_append, List.length_cons]
      omega

/-- A file as it has been appended from block `first` on: blocks with a cleanmarker, whole nodes and padding, in
them the entry and the content, and a block with the end marker. -/
structure Appended (big : Bool) (d : Nand) (shift first : Nat) (name content : List Byte) (before after : Disk)
    (length : Int) (blocks : List (List (Node big))) (entry : Node big) (pieces : List (Node big)) : Prop where
  room : blocks.length < (d.goodBlocks first).length
  written : programs after.trace = programs before.trace ++
    ((d.goodBlocks first).map fun g => g * d.erasesize + shift).zip
      (blocks.map (blockBytes d.erasesize) ++ [padTo d.erasesize eofMarker])
  whole : ∀ nodes ∈ blocks, (blockBytes d.erasesize nodes).length = d.erasesize ∧
    Holds big (blockBytes d.erasesize nodes) (cleanNode big :: nodes)
  nodes : blocks.flatten = entry :: pieces
  named : entry.nodetype = nodetypeDirent ∧ entry.pino = 1 ∧ entry.name = name
  inode : ∀ n ∈ pieces, n.nodetype = nodetypeInode ∧ n.inodeIno = entry.entryIno ∧ n.data ≠ []
  content : pieces.flatMap Node.data = content
  offset : ∀ front n back, pieces = front ++ n :: back → n.offset.toNat = (front.flatMap Node.data).length
  version : ∀ front n back, pieces = front ++ n :: back →
    n.version = entry.version + BitVec.ofNat 32 (front.length + 2)
  length : length = (after.pos : Int) - before.pos

theorem Pieces.version_eq {ino version : Word} {f_offset : Nat} {content : List Byte} {nodes : List (Node big)}
    (h : Pieces ino version f_offset content nodes) {i : Nat} (hi : i < nodes.length) :
    nodes[i].version = version + BitVec.ofNat 32 (i + 1) := by
  have hsplit : nodes = nodes.take i ++ nodes[i] :: nodes.drop (i + 1) := by
    rw [List.getElem_cons_drop, List.take_append_drop]
  have hplace := (h.place _ _ _ hsplit).2
  rw [List.length_take, min_eq_left hi.le] at hplace
  exact hplace

/-- The versions increase unless they start over. -/
theorem Pieces.versions_increase {ino version : Word} {f_offset : Nat} {content : List Byte}
    {nodes : List (Node big)} (h : Pieces ino version f_offset content nodes)
    (hwrap : version.toNat + nodes.length < 2 ^ 32) : (nodes.map Node.version).Pairwise (· < ·) := by
  rw [List.pairwise_iff_getElem]
  intro i j hi hj hij
  rw [List.length_map] at hi hj
  have htoNat : ∀ k, k < nodes.length → (version + BitVec.ofNat 32 (k + 1)).toNat = version.toNat + (k + 1) := by
    intro k hk
    rw [BitVec.toNat_add, BitVec.toNat_ofNat, Nat.mod_eq_of_lt (show k + 1 < 2 ^ 32 by omega),
      Nat.mod_eq_of_lt (by omega)]
  rw [List.getElem_map, List.getElem_map, h.version_eq hi, h.version_eq hj, BitVec.lt_def, htoNat i hi, htoNat j hj]
  omega

/-- The nodes of the packing of a file. -/
theorem filePacking_nodes (big : Bool) {erasesize : Nat} (hdvd : 4 ∣ erasesize) (hsize : 4096 ≤ erasesize) (file : File)
    (hname : file.fname.strlen ≤ 255) (stat : Stat) (content : List Byte) (g : Globals) :
    (filePacking big erasesize file hname stat content g).Fits erasesize ∧
      ∃ pieces, (filePacking big erasesize file hname stat content g).nodes =
          (fileEntry file g).node big (Nat.lt_succ_of_le hname) file.fname.noNul :: pieces ∧
        Pieces (g.startIno + 1) (g.lastVersion + 1) 0 content pieces := by
  have hempty : (Packing.mk ([] : List (List (Node big))) []).Fits erasesize :=
    ⟨fun nodes hnodes => absurd hnodes List.not_mem_nil,
      (show (packed ([] : List (Node big))).length < erasesize by rw [length_packed_nil]; omega)⟩
  have hentry : (Packing.mk ([] : List (List (Node big))) []).fill +
      ((fileEntry file g).node big (Nat.lt_succ_of_le hname) file.fname.noNul).bytes.length ≤ erasesize := by
    change (packed ([] : List (Node big))).length + ((fileEntry file g).bytes big).length ≤ erasesize
    rw [length_packed_nil, length_direntBytes]
    change 12 + (40 + file.fname.strlen) ≤ erasesize
    omega
  obtain ⟨hfits, pieces, hnodes, hpieces⟩ := Packing.addPieces_spec hdvd (by omega) (g.startIno + 1)
    (g.lastVersion + 1) stat 0 content _ (hempty.add hdvd (by omega) hentry)
  rw [Packing.nodes_add] at hnodes
  exact ⟨hfits, pieces, hnodes, hpieces⟩

/-- A file takes no more full blocks than it has nodes. -/
theorem length_filePacking_le (big : Bool) {erasesize : Nat} (hdvd : 4 ∣ erasesize) (hsize : 4096 ≤ erasesize)
    (file : File) (hname : file.fname.strlen ≤ 255) (stat : Stat) (content : List Byte) (g : Globals) :
    (filePacking big erasesize file hname stat content g).blocks.length ≤ content.length + 1 := by
  obtain ⟨hfits, pieces, hnodes, hpieces⟩ := filePacking_nodes big hdvd hsize file hname stat content g
  have hblocks := length_le_flatten fun nodes hmem => (hfits.blocks nodes hmem).1
  have hlen := congrArg List.length hnodes
  rw [Packing.nodes, List.length_append, List.length_cons] at hlen
  have hcontent : pieces.length ≤ content.length := by
    rw [← hpieces.content, List.length_flatMap]
    have hone : ∀ m ∈ pieces.map fun n => n.data.length, 1 ≤ m := by
      intro m hm
      obtain ⟨n, hn, rfl⟩ := List.mem_map.mp hm
      exact List.length_pos_of_ne_nil (hpieces.inode n hn).2.2
    have hsum := List.card_nsmul_le_sum _ 1 hone
    rw [List.length_map, smul_eq_mul, Nat.mul_one] at hsum
    exact hsum
  omega

/-- What `mtd_replace_jffs2` writes is the packing of the file. -/
theorem filePacking_appended (big : Bool) (d : Nand) (hdvd : 4 ∣ d.erasesize) (hsize : 4096 ≤ d.erasesize)
    (hdevice : d.size < 2 ^ 31) (file : File) (hname : file.fname.strlen ≤ 255) (stat : Stat)
    (hstat : file.stat = some stat) (content : List Byte) (hcontent : file.content = some content) (w : Writer)
    (hofs : w.ofs = 0) {shift first : Nat} (hpos : w.disk.pos = first * d.erasesize + shift)
    (hrun : w.disk.exited = false)
    (hroom : Room d shift first
      ((filePacking big d.erasesize file hname stat content w.globals).blocks.length + 2))
    {pieces : List (Node big)} (hnodes : (filePacking big d.erasesize file hname stat content w.globals).nodes =
      (fileEntry file w.globals).node big (Nat.lt_succ_of_le hname) file.fname.noNul :: pieces)
    (hpieces : Pieces (w.globals.startIno + 1) (w.globals.lastVersion + 1) 0 content pieces) :
    Appended big d shift first file.fname.bytes content w.disk
      (mtdReplaceJffs2 big d (first * d.erasesize) file w).1.disk
      (mtdReplaceJffs2 big d (first * d.erasesize) file w).2
      ((filePacking big d.erasesize file hname stat content w.globals).blocks ++
        [(filePacking big d.erasesize file hname stat content w.globals).cur])
      ((fileEntry file w.globals).node big (Nat.lt_succ_of_le hname) file.fname.noNul) pieces := by
  obtain ⟨hfits, hfilled⟩ :=
    mtdReplaceJffs2_packing hdvd hsize file hname hstat hcontent (first * d.erasesize) hofs
  obtain ⟨htype, hpino, hversion, hino, hentryName⟩ :=
    (fileEntry file w.globals).node_spec big (Nat.lt_succ_of_le hname) file.fname.noNul
  generalize filePacking big d.erasesize file hname stat content w.globals = p at *
  have hblocks : ∀ nodes ∈ p.blocks ++ [p.cur], (packed nodes).length ≤ d.erasesize := by
    intro nodes hmem
    rcases List.mem_append.mp hmem with hfull | hlast
    · exact (hfits.blocks nodes hfull).2
    · rw [List.mem_singleton.mp hlast]
      exact hfits.fill.le
  have hflatten : (p.blocks ++ [p.cur]).flatten = p.nodes := by
    rw [List.flatten_append, List.flatten_singleton]
    rfl
  have hlength : ∀ block ∈ (p.blocks ++ [p.cur]).map (blockBytes d.erasesize) ++ [padTo d.erasesize eofMarker],
      block.length = d.erasesize := by
    intro block hmem
    rcases List.mem_append.mp hmem with hnode | heof
    · obtain ⟨nodes, hnodes, rfl⟩ := List.mem_map.mp hnode
      exact length_blockBytes d.erasesize_pos (hblocks nodes hnodes)
    · rw [List.mem_singleton.mp heof]
      exact length_padTo_eq d.erasesize_pos (by decide) (show 4 ≤ d.erasesize by omega)
  have hcount : ((p.blocks ++ [p.cur]).map (blockBytes d.erasesize) ++ [padTo d.erasesize eofMarker]).length =
      p.blocks.length + 2 := by
    rw [List.length_append, List.length_map, List.length_append]
    rfl
  have hgoodBlocks := hroom.good
  rw [← hcount] at hroom
  have hstart : AtBlock d shift first { w.disk with mtdofs := first * d.erasesize } := ⟨rfl, hpos, hrun⟩
  obtain ⟨hend, hprograms⟩ := hstart.foldl_put hlength hroom
  rw [← hfilled.disk] at hend hprograms
  have hcontentLen : content.length < 2 ^ 31 := by
    have hdata := length_flatten_data_le hblocks
    rw [hflatten, hnodes, List.flatMap_cons, List.length_append, hpieces.content, List.length_append] at hdata
    have hgood := length_goodBlocks_le d first
    have hmul : (p.blocks.length + [p.cur].length) * d.erasesize ≤ d.blocks * d.erasesize :=
      Nat.mul_le_mul_right _ (by rw [List.length_singleton]; omega)
    change d.blocks * d.erasesize < 2 ^ 31 at hdevice
    omega
  refine ⟨?_, hprograms, fun nodes hmem => ⟨?_, ?_⟩, hflatten.trans hnodes, ⟨htype, hpino, hentryName⟩, ?_,
    hpieces.content, ?_, ?_, ?_⟩
  · rw [List.length_append]
    exact hgoodBlocks
  · exact length_blockBytes d.erasesize_pos (hblocks nodes hmem)
  · exact holds_blockBytes hdvd nodes
  · rw [hino]
    exact hpieces.inode
  · intro front n back hsplit
    have hle : (front.flatMap Node.data).length ≤ content.length := by
      rw [← hpieces.content, hsplit, List.flatMap_append, List.length_append]
      omega
    rw [(hpieces.place front n back hsplit).1, Nat.zero_add, BitVec.toNat_ofNat, Nat.mod_eq_of_lt (by omega)]
  · intro front n back hsplit
    have hsum : (1 : Word) + BitVec.ofNat 32 (front.length + 1) = BitVec.ofNat 32 (front.length + 2) := by
      rw [Nat.add_comm front.length 2, Nat.add_comm front.length 1, ← BitVec.ofNat_add_ofNat,
        ← BitVec.ofNat_add_ofNat, ← BitVec.add_assoc]
      rfl
    rw [(hpieces.place front n back hsplit).2, hversion, BitVec.add_assoc, hsum]
    rfl
  · change ((mtdReplaceJffs2 big d (first * d.erasesize) file w).1.disk.mtdofs : Int) - _ = _
    rw [hend.mtdofs, hend.pos, hpos]
    omega

/-- The file that `mtd_replace_jffs2` appends is found when the blocks are walked, and the length that it returns
is the way that the file position went. -/
theorem mtdReplaceJffs2_appended (big : Bool) (d : Nand) (hdvd : 4 ∣ d.erasesize) (hsize : 4096 ≤ d.erasesize)
    (hdevice : d.size < 2 ^ 31) (file : File) (hname : file.fname.strlen ≤ 255) (stat : Stat)
    (hstat : file.stat = some stat) (content : List Byte) (hcontent : file.content = some content) (w : Writer)
    (hofs : w.ofs = 0) (shift first : Nat) (hpos : w.disk.pos = first * d.erasesize + shift)
    (hrun : w.disk.exited = false)
    (hroom : Room d shift first
      ((filePacking big d.erasesize file hname stat content w.globals).blocks.length + 2)) :
    ∃ blocks entry pieces,
      Appended big d shift first file.fname.bytes content w.disk
          (mtdReplaceJffs2 big d (first * d.erasesize) file w).1.disk
          (mtdReplaceJffs2 big d (first * d.erasesize) file w).2 blocks entry pieces ∧
        entry.version = w.globals.lastVersion ∧
        (w.globals.lastVersion.toNat + pieces.length + 1 < 2 ^ 32 →
          (pieces.map Node.version).Pairwise (· < ·)) := by
  obtain ⟨-, pieces, hnodes, hpieces⟩ := filePacking_nodes big hdvd hsize file hname stat content w.globals
  have hversion := (fileEntry file w.globals).node_spec big (Nat.lt_succ_of_le hname) file.fname.noNul
  refine ⟨_, _, pieces, filePacking_appended big d hdvd hsize hdevice file hname stat hstat content hcontent w hofs
    hpos hrun hroom hnodes hpieces, hversion.2.2.1, fun hwrap => hpieces.versions_increase ?_⟩
  rw [BitVec.toNat_add]
  have hmod := Nat.mod_le (w.globals.lastVersion.toNat + (1 : Word).toNat) (2 ^ 32)
  change _ ≤ w.globals.lastVersion.toNat + 1 at hmod
  omega

/-- A file with a line in it. -/
def lineFile : File where
  path := .lit "/etc/a"
  stat := some ⟨0x81A4, 6, 0, 0, 0⟩
  content := some (ofChars "hello\n")

theorem mtdReplaceJffs2_appended_line :
    ∃ blocks entry pieces,
      Appended false smallDevice 0 0 lineFile.fname.bytes (ofChars "hello\n") startWriter.disk
          (mtdReplaceJffs2 false smallDevice (0 * smallDevice.erasesize) lineFile startWriter).1.disk
          (mtdReplaceJffs2 false smallDevice (0 * smallDevice.erasesize) lineFile startWriter).2 blocks entry pieces ∧
        entry.version = startWriter.globals.lastVersion ∧
        (startWriter.globals.lastVersion.toNat + pieces.length + 1 < 2 ^ 32 →
          (pieces.map Node.version).Pairwise (· < ·)) :=
  mtdReplaceJffs2_appended false smallDevice (by decide) (by decide) (by decide) lineFile (by decide) _ rfl
    (ofChars "hello\n") rfl startWriter rfl 0 0 rfl rfl
    (Room.of_le (by decide) (by
      have hle := length_filePacking_le false (by decide : 4 ∣ 4096) (by decide) lineFile (by decide)
        ⟨0x81A4, 6, 0, 0, 0⟩ (ofChars "hello\n") startWriter.globals
      have hgood : (smallDevice.goodBlocks 0).length = 16 := by decide
      have hlen : (ofChars "hello\n").length = 6 := by decide
      rw [hgood]
      rw [hlen] at hle
      exact Nat.add_le_add_right hle 2 |>.trans (by decide)))

/-! ### What is determined -/

theorem blocks_eq {f : List (Node big) → List Byte} {blocks blocks' : List (List (Node big))}
    (h : ∀ nodes ∈ blocks, Holds big (f nodes) (cleanNode big :: nodes))
    (h' : ∀ nodes ∈ blocks', Holds big (f nodes) (cleanNode big :: nodes)) (heq : blocks.map f = blocks'.map f) :
    blocks = blocks' := by
  induction blocks generalizing blocks' with
  | nil => exact (List.map_eq_nil_iff.mp heq.symm).symm
  | cons nodes blocks ih =>
      cases blocks' with
      | nil => cases heq
      | cons nodes' blocks' =>
          obtain ⟨hhead, htail⟩ := List.cons.inj heq
          have hholds := h nodes List.mem_cons_self
          change f nodes = f nodes' at hhead
          rw [hhead] at hholds
          have hnodes := hholds.unique (h' nodes' List.mem_cons_self)
          rw [List.cons.inj hnodes |>.2, ih (fun b hb => h b (List.mem_cons_of_mem nodes hb))
            (fun b hb => h' b (List.mem_cons_of_mem nodes' hb)) htail]

/-- What has been appended is determined by what is on the device. -/
theorem Appended.unique {shift first : Nat} {name content : List Byte} {before after : Disk} {length : Int}
    {blocks blocks' : List (List (Node big))} {entry entry' : Node big} {pieces pieces' : List (Node big)}
    (h : Appended big d shift first name content before after length blocks entry pieces)
    (h' : Appended big d shift first name content before after length blocks' entry' pieces') :
    entry = entry' ∧ pieces = pieces' := by
  have hroom : ∀ blocks : List (List (Node big)), blocks.length < (d.goodBlocks first).length →
      (blocks.map (blockBytes d.erasesize) ++ [padTo d.erasesize eofMarker]).length ≤
        ((d.goodBlocks first).map fun g => g * d.erasesize + shift).length := by
    intro blocks hlt
    rw [List.length_append, List.length_map, List.length_map]
    exact hlt
  have hzip := congrArg (List.map Prod.snd) (List.append_cancel_left (h.written.symm.trans h'.written))
  rw [List.map_snd_zip (hroom _ h.room), List.map_snd_zip (hroom _ h'.room)] at hzip
  have hblocks := blocks_eq (fun nodes hn => (h.whole nodes hn).2) (fun nodes hn => (h'.whole nodes hn).2)
    (List.append_cancel_right hzip)
  have hnodes := h.nodes
  rw [hblocks, h'.nodes] at hnodes
  obtain ⟨hentry, hpieces⟩ := List.cons.inj hnodes
  exact ⟨hentry.symm, hpieces.symm⟩

/-! ### Versions that start over -/

/-- A device of 32 MiB, none of whose blocks is bad. -/
def largeDevice : Nand where
  erasesize := 4096
  blocks := 8192
  bad _ := false
  worn _ := false
  erasesize_pos := smallDevice.erasesize_pos

/-- A file that does not fit in a block. -/
def longFile : File where
  path := .lit "a"
  stat := some ⟨0x81A4, 4097, 0, 0, 0⟩
  content := some (List.replicate 4097 0)

/-- The versions of the partition are at their end. -/
def lastWriter : Writer := { startWriter with globals := ⟨2, 0xfffffffd, 1⟩ }

/-- A node is shorter than its block. -/
theorem Appended.length_data_lt {shift first : Nat} {name content : List Byte} {before after : Disk} {length : Int}
    {blocks : List (List (Node big))} {entry : Node big} {pieces : List (Node big)}
    (h : Appended big d shift first name content before after length blocks entry pieces) {n : Node big}
    (hn : n ∈ pieces) : n.data.length ≤ d.erasesize := by
  have hmem : n ∈ blocks.flatten := h.nodes ▸ List.mem_cons_of_mem entry hn
  obtain ⟨nodes, hnodes, hn⟩ := List.mem_flatten.mp hmem
  have hdata : n.data.length ≤ (nodes.flatMap Node.data).length := by
    rw [List.length_flatMap]
    exact List.single_le_sum (fun _ _ => Nat.zero_le _) _ (List.mem_map_of_mem (f := fun n => n.data.length) hn)
  have hblock := length_le_padTo d.erasesize (packed nodes)
  change _ ≤ (blockBytes d.erasesize nodes).length at hblock
  rw [(h.whole nodes hnodes).1] at hblock
  exact hdata.trans ((length_data_le nodes).trans hblock)

theorem versions_wrap {blocks : List (List (Node false))} {entry : Node false} {pieces : List (Node false)}
    (h : Appended false largeDevice 0 0 longFile.fname.bytes (List.replicate 4097 0) lastWriter.disk
      (mtdReplaceJffs2 false largeDevice (0 * largeDevice.erasesize) longFile lastWriter).1.disk
      (mtdReplaceJffs2 false largeDevice (0 * largeDevice.erasesize) longFile lastWriter).2 blocks entry pieces) :
    ¬ (pieces.map Node.version).Pairwise (· < ·) := by
  have hroom : Room largeDevice 0 0 ((filePacking false largeDevice.erasesize longFile (by decide)
      ⟨0x81A4, 4097, 0, 0, 0⟩ (List.replicate 4097 0) lastWriter.globals).blocks.length + 2) := by
    refine Room.of_le (Nat.zero_le _) ?_
    rw [goodBlocks_of_good (fun _ => rfl), List.length_range']
    have hle := length_filePacking_le false (by decide : 4 ∣ 4096) (by decide) longFile (by decide)
      ⟨0x81A4, 4097, 0, 0, 0⟩ (List.replicate 4097 0) lastWriter.globals
    rw [List.length_replicate] at hle
    exact Nat.add_le_add_right hle 2 |>.trans (by decide)
  obtain ⟨-, pieces', hnodes, hpieces⟩ := filePacking_nodes false (by decide : 4 ∣ 4096) (by decide) longFile
    (by decide) ⟨0x81A4, 4097, 0, 0, 0⟩ (List.replicate 4097 0) lastWriter.globals
  obtain ⟨rfl, rfl⟩ := h.unique (filePacking_appended false largeDevice (by decide) (by decide) (by decide) longFile
    (by decide) _ rfl (List.replicate 4097 0) rfl lastWriter rfl rfl rfl hroom hnodes hpieces)
  have hversion := ((fileEntry longFile lastWriter.globals).node_spec false (by decide) longFile.fname.noNul).2.2.1
  intro hincrease
  have hlen := congrArg List.length h.content
  rw [List.length_replicate] at hlen
  match pieces, h, hincrease, hlen with
  | [], _, _, hlen => cases hlen
  | [n], h, _, hlen =>
      have hle := h.length_data_lt List.mem_cons_self
      rw [List.flatMap_singleton] at hlen
      rw [hlen] at hle
      exact absurd hle (by decide)
  | n :: m :: pieces, h, hincrease, _ =>
      have hn := h.version [] n (m :: pieces) rfl
      have hm := h.version [n] m pieces rfl
      have hlt := (List.pairwise_cons.mp hincrease).1 m.version List.mem_cons_self
      rw [hn, hm, hversion] at hlt
      change (0xfffffffd + BitVec.ofNat 32 2 : Word) < 0xfffffffd + BitVec.ofNat 32 3 at hlt
      exact absurd hlt (by decide)
/-! ### Blocks without whole words -/

theorem addPieces_end {rest : List Byte} {w : Writer} (hdata : rest.take (pieceLen d (makeRoom big d w)) = [])
    (ino : Word) (stat : Stat) (f_offset : Nat) : addPieces big d ino stat f_offset rest w = makeRoom big d w := by
  fun_cases addPieces big d ino stat f_offset rest w with
  | case1 => rfl
  | case2 next data hne => exact absurd hdata hne

theorem addPieces_step {rest data : List Byte} {w : Writer}
    (hdata : rest.take (pieceLen d (makeRoom big d w)) = data) (hne : data ≠ [])
    (ino : Word) (stat : Stat) (f_offset : Nat) :
    addPieces big d ino stat f_offset rest w =
      addPieces big d ino stat (f_offset + data.length) (rest.drop data.length)
        (addPiece big d ino stat f_offset data (makeRoom big d w)) := by
  subst hdata
  fun_cases addPieces big d ino stat f_offset rest w with
  | case1 next data hnil => exact absurd hnil hne
  | case2 next data hne => rfl

/-- Padding past the end of a block that has no whole words. -/
theorem Filled.pad_past {start : Disk} {blocks : List (List Byte)} {cur : List Byte} {w : Writer}
    (h : Filled d start blocks cur w) (hlen : cur.length + 1 = d.erasesize) (hmod : d.erasesize % 4 = 2)
    (hsize : 2 < d.erasesize) :
    (Jffs2.pad d 4 w).ofs = 2 ∧ (Jffs2.pad d 4 w).disk = w.disk := by
  have hofs := h.ofs
  have hwrap : (w.ofs + (4 - w.ofs % 4)) % d.erasesize = 2 := by
    rw [hofs, show cur.length + (4 - cur.length % 4) = 2 + d.erasesize by omega, Nat.add_mod_right,
      Nat.mod_eq_of_lt hsize]
  have hstay : ¬ (w.ofs % 4 = 0 ∧ w.ofs < d.erasesize) := by omega
  have hlt : w.ofs < d.erasesize := by omega
  unfold Jffs2.pad
  simp only [if_neg hstay, if_pos hlt, hwrap]
  exact ⟨rfl, rfl⟩

/-- A device whose blocks have no whole number of words. -/
def oddDevice : Nand where
  erasesize := 4098
  blocks := 16
  bad _ := false
  worn _ := false
  erasesize_pos := by decide

def oddFile : File where
  path := .lit "a"
  stat := some ⟨0x81A4, 3973, 0, 0, 0⟩
  content := some (List.replicate 3973 0)

/-- The padding of the piece goes past the end of the block, and what is left of it is two bytes. -/
theorem addPieces_odd :
    ∃ w, (mtdReplaceJffs2 false oddDevice (0 * oddDevice.erasesize) oddFile startWriter).1 = finish false oddDevice w ∧
      w.ofs = 2 ∧ w.disk = startWriter.disk := by
  obtain ⟨hentry, hrun⟩ := mtdReplaceJffs2_eq false oddDevice oddFile rfl rfl (0 * oddDevice.erasesize)
    startWriter
  have hdirent := addDirent_packs (by decide) (by decide) (w := startWriter.begun (0 * oddDevice.erasesize)) rfl rfl
    hentry (by decide) (by decide)
  rw [hrun]
  generalize (addDirent false oddDevice oddFile.fname dtReg 1 (startWriter.begun (0 * oddDevice.erasesize))).1 = w at *
  have hblocks : ((Packing.mk [] []).add oddDevice.erasesize
      ((fileEntry oddFile startWriter.globals).node false (by decide) (by decide))).blocks = [] := by rfl
  have hfill : ((Packing.mk [] []).add oddDevice.erasesize
      ((fileEntry oddFile startWriter.globals).node false (by decide) (by decide))).fill = 56 := by rfl
  generalize (Packing.mk [] []).add oddDevice.erasesize
      ((fileEntry oddFile startWriter.globals).node false (by decide) (by decide)) = p at *
  have hrbytes : rbytes oddDevice w = 4042 := by
    rw [rbytes, hdirent.ofs_eq, hfill]
    rfl
  have hroom : makeRoom false oddDevice w = w := by
    rw [makeRoom, hrbytes]
    rfl
  have hpiece : (List.replicate 3973 (0 : Byte)).take (pieceLen oddDevice (makeRoom false oddDevice w)) =
      List.replicate 3973 0 := by
    rw [hroom, pieceLen, hrbytes]
    exact List.take_of_length_le (by rw [List.length_replicate]; decide)
  have hlen : (List.replicate 3973 (0 : Byte)).length ≤ 4096 := by
    rw [List.length_replicate]
    decide
  have hfilled := hdirent.piece_filled (startWriter.globals.startIno + 1) ⟨0x81A4, 3973, 0, 0, 0⟩ 0 hlen (by
    rw [hfill, List.length_replicate]
    decide)
  have hnode : (packed p.cur ++ (Packing.pieceNode false (startWriter.globals.startIno + 1)
      (w.globals.lastVersion + 1) ⟨0x81A4, 3973, 0, 0, 0⟩ 0 _ hlen).bytes).length + 1 = oddDevice.erasesize := by
    have hwhole : (Packing.pieceNode false (startWriter.globals.startIno + 1) (w.globals.lastVersion + 1)
        ⟨0x81A4, 3973, 0, 0, 0⟩ 0 _ hlen).bytes.length = 68 + (List.replicate 3973 (0 : Byte)).length :=
      length_inodeWhole false _
    change (packed p.cur).length = 56 at hfill
    rw [List.length_append, hfill, hwhole, List.length_replicate]
    rfl
  obtain ⟨hofs, hdisk⟩ := hfilled.pad_past hnode (by decide) (by decide)
  rw [hfilled.disk, hblocks] at hdisk
  have hsame : ∀ x : Writer, x.ofs = 2 → prepEraseblock false x = x ∧ makeRoom false oddDevice x = x := by
    intro x hx
    have hrbytes : rbytes oddDevice x = 4096 := by
      rw [rbytes, hx]
      rfl
    rw [prepEraseblock, if_pos (by rw [hx]; decide), makeRoom, hrbytes]
    exact ⟨rfl, rfl⟩
  rw [addPieces_step hpiece (by decide), hroom, List.drop_length, addPieces_end List.take_nil]
  unfold addPiece
  dsimp only
  rw [(hsame _ hofs).1, (hsame _ hofs).2]
  exact ⟨_, rfl, hofs, hdisk⟩

/-- The first block begins with the two bytes. -/
theorem programs_odd : ∃ bytes : List Byte, bytes.length = 2 ∧
    programs (mtdReplaceJffs2 false oddDevice (0 * oddDevice.erasesize) oddFile startWriter).1.disk.trace =
      [(0, padTo 4098 bytes), (4098, padTo 4098 eofMarker)] := by
  obtain ⟨w, hrun, hofs, hdisk⟩ := addPieces_odd
  have hfilled : Filled oddDevice startWriter.disk [] (bytesAt w.buf 0 2) w :=
    ⟨hdisk, by rw [At, length_bytesAt], by rw [length_bytesAt]; exact hofs⟩
  have hfinish := hfilled.finish false (by rw [length_bytesAt]; decide) (by rw [length_bytesAt]; decide) (by decide)
  have hlength : ∀ block ∈ [padTo 4098 (bytesAt w.buf 0 2), padTo 4098 eofMarker], block.length = 4098 := by
    intro block hmem
    rcases List.mem_pair.mp hmem with rfl | rfl
    · exact length_padTo_eq (by decide) (by rw [length_bytesAt]; decide) (by rw [length_bytesAt]; decide)
    · exact length_padTo_eq (by decide) (by decide) (by decide)
  have hstart : AtBlock oddDevice 0 0 startWriter.disk := ⟨rfl, rfl, rfl⟩
  have hroom : Room oddDevice 0 0 [padTo 4098 (bytesAt w.buf 0 2), padTo 4098 eofMarker].length :=
    Room.of_le (by decide) (show 2 ≤ (oddDevice.goodBlocks 0).length by decide)
  obtain ⟨-, hprograms⟩ := hstart.foldl_put hlength hroom
  refine ⟨bytesAt w.buf 0 2, length_bytesAt _ _ _, ?_⟩
  rw [hrun, hfinish.disk]
  exact hprograms

theorem odd_not_appended (blocks : List (List (Node false))) (entry : Node false) (pieces : List (Node false)) :
    ¬ Appended false oddDevice 0 0 oddFile.fname.bytes (List.replicate 3973 0) startWriter.disk
      (mtdReplaceJffs2 false oddDevice (0 * oddDevice.erasesize) oddFile startWriter).1.disk
      (mtdReplaceJffs2 false oddDevice (0 * oddDevice.erasesize) oddFile startWriter).2 blocks entry pieces := by
  intro h
  obtain ⟨bytes, hlen, hprograms⟩ := programs_odd
  have hwritten := h.written
  rw [hprograms] at hwritten
  cases blocks with
  | nil => exact absurd h.nodes.symm (List.cons_ne_nil _ _)
  | cons nodes blocks =>
      have hgood : oddDevice.goodBlocks 0 = 0 :: oddDevice.goodBlocks 1 := by decide
      rw [hgood] at hwritten
      have hblock : padTo 4098 bytes = blockBytes 4098 nodes :=
        congrArg Prod.snd (List.cons.inj hwritten).1
      have hbyte := congrArg (fun block => block[2]?) hblock
      have hleft : (padTo 4098 bytes)[2]? = some 0xff := by
        rw [padTo, List.getElem?_append_right (by omega), hlen]
        rfl
      have hright : (blockBytes 4098 nodes)[2]? = some 0x03 := rfl
      rw [hleft, hright] at hbyte
      exact absurd hbyte (by decide)
/-- The last block has no cleanmarker, a block that has no whole words may be lost, and the versions start over. -/
theorem mtdReplaceJffs2_not_appended :
    (∀ nodes, ¬ Holds false (padTo 4096 eofMarker) (cleanNode false :: nodes)) ∧
      (∀ blocks entry pieces,
        ¬ Appended false oddDevice 0 0 oddFile.fname.bytes (List.replicate 3973 0) startWriter.disk
          (mtdReplaceJffs2 false oddDevice (0 * oddDevice.erasesize) oddFile startWriter).1.disk
          (mtdReplaceJffs2 false oddDevice (0 * oddDevice.erasesize) oddFile startWriter).2 blocks entry pieces) ∧
      ∀ blocks entry pieces,
        Appended false largeDevice 0 0 longFile.fname.bytes (List.replicate 4097 0) lastWriter.disk
            (mtdReplaceJffs2 false largeDevice (0 * largeDevice.erasesize) longFile lastWriter).1.disk
            (mtdReplaceJffs2 false largeDevice (0 * largeDevice.erasesize) longFile lastWriter).2 blocks entry pieces →
          ¬ (pieces.map Node.version).Pairwise (· < ·) := by
  refine ⟨fun nodes hholds => ?_, odd_not_appended, fun blocks entry pieces h => versions_wrap h⟩
  have hmagic := (hholds.magic (List.cons_ne_nil _ _)).1
  have hfront : slice (padTo 4096 eofMarker) 0 2 = [0xde, 0xad] := rfl
  rw [hfront] at hmagic
  exact absurd hmagic (by decide)

end Append

end Immwrt.Mtd.Jffs2
