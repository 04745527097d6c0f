import Immwrt.Mtd.Jffs2Write
import Immwrt.Mtd.Proof.Jffs2

/-!
# The nodes of a block

A well-formed block is a sequence of nodes, padded to whole words, with something behind them that is not a
node. The loop over the block takes them in turn: what it leaves in the variables is what the entries say.
-/

namespace Immwrt.Mtd.Jffs2

open Traced

/-! ### Bytes in memory -/

/-- The bytes are in memory at `off`. -/
def At (mem : Octets) (off : Nat) (bytes : List Byte) : Prop := bytesAt mem off bytes.length = bytes

theorem at_append {mem : Octets} {off : Nat} {front back : List Byte} :
    At mem off (front ++ back) ↔ At mem off front ∧ At mem (off + front.length) back := by
  unfold At
  rw [List.length_append, bytesAt_add]
  constructor
  · intro h
    exact List.append_inj h (length_bytesAt _ _ _)
  · rintro ⟨hfront, hback⟩
    rw [hfront, hback]

theorem At.slice {mem : Octets} {off : Nat} {bytes : List Byte} (h : At mem off bytes) {k n : Nat}
    (hfits : k + n ≤ bytes.length) : bytesAt mem (off + k) n = slice bytes k n := by
  have hsub := slice_bytesAt mem off hfits
  rw [h] at hsub
  exact hsub.symm

theorem At.byte {mem : Octets} {off : Nat} {bytes : List Byte} (h : At mem off bytes) {k : Nat}
    (hk : k < bytes.length) : mem (off + k) = bytes.getD k 0 := by
  have hbyte := getElem?_bytesAt mem off bytes.length k hk
  rw [h] at hbyte
  rw [List.getD_eq_getElem?_getD, hbyte, Option.getD_some]

theorem pad4_toNat {x : Word} (hlt : x.toNat + 3 < 2 ^ 32) : (pad4 x).toNat = (x.toNat + 3) / 4 * 4 := by
  have hshift : pad4 x = ((x + 3) >>> 2) <<< 2 := by
    apply BitVec.eq_of_getLsbD_eq
    intro i hi
    have hmask : (~~~3 : Word).getLsbD i = decide (2 ≤ i) := by
      revert i
      decide
    rw [pad4, BitVec.getLsbD_and, hmask, BitVec.getLsbD_shiftLeft, BitVec.getLsbD_ushiftRight]
    by_cases hle : 2 ≤ i
    · simp [hle, hi, show ¬ i < 2 by omega, show 2 + (i - 2) = i by omega]
    · simp [hle, show i < 2 by omega]
  have hsum : (x + 3 : Word).toNat = x.toNat + 3 := by
    rw [BitVec.toNat_add]
    exact Nat.mod_eq_of_lt hlt
  rw [hshift, BitVec.toNat_shiftLeft, BitVec.toNat_ushiftRight, hsum, Nat.shiftRight_eq_div_pow,
    Nat.shiftLeft_eq, Nat.mod_eq_of_lt (by omega)]

/-! ### Nodes -/

/-- A node in memory. -/
structure Node (big : Bool) where
  bytes : List Byte
  magic : half big (slice bytes 0 2) = magicBitmask
  totlen : (word big (slice bytes 4 4)).toNat = bytes.length
  header : 12 ≤ bytes.length
  dirent : half big (slice bytes 2 2) = nodetypeDirent →
    direntSize + (bytes.getD 28 0).toNat ≤ bytes.length ∧
      0 ∉ slice bytes direntSize (bytes.getD 28 0).toNat
  inode : half big (slice bytes 2 2) = nodetypeInode → inodeSize ≤ bytes.length

namespace Node

variable {big : Bool} (n : Node big)

def nodetype : HalfWord := half big (slice n.bytes 2 2)

/-- The inode of an entry's directory. -/
def pino : Word := word big (slice n.bytes 12 4)

def version : Word := word big (slice n.bytes 16 4)

/-- The inode that an entry names. -/
def entryIno : Word := word big (slice n.bytes 20 4)

/-- The inode that an inode node is of. -/
def inodeIno : Word := word big (slice n.bytes 12 4)

def name : List Byte := slice n.bytes direntSize (n.bytes.getD 28 0).toNat

/-- How far the next node is. -/
def paddedLen : Nat := (n.bytes.length + 3) / 4 * 4

end Node

/-- The bytes are the nodes, each padded, and then something that is no node. -/
inductive Holds (big : Bool) : List Byte → List (Node big) → Prop
  | done {rest : List Byte} (hlen : rest ≠ [] → 2 ≤ rest.length)
      (hmagic : half big (slice rest 0 2) ≠ magicBitmask) : Holds big rest []
  | node (n : Node big) {padding rest : List Byte} {nodes : List (Node big)}
      (hpadding : n.bytes.length + padding.length = n.paddedLen) (hrest : Holds big rest nodes) :
      Holds big (n.bytes ++ padding ++ rest) (n :: nodes)

section Unique

variable {big : Bool}

theorem Node.eq_of_bytes {n m : Node big} (h : n.bytes = m.bytes) : n = m := by
  cases n
  cases m
  cases h
  rfl

theorem Node.eq_of_append {n m : Node big} {back back' : List Byte} (h : n.bytes ++ back = m.bytes ++ back') :
    n = m := by
  have hn := n.header
  have hm := m.header
  have htotlen := congrArg (fun bytes => slice bytes 4 4) h
  rw [slice_append_left (by omega), slice_append_left (by omega)] at htotlen
  have hlen : n.bytes.length = m.bytes.length := by rw [← n.totlen, htotlen, m.totlen]
  exact Node.eq_of_bytes (List.append_inj_left h hlen)

/-- What a block holds is determined. -/
theorem Holds.unique {block : List Byte} {nodes nodes' : List (Node big)} (h : Holds big block nodes)
    (h' : Holds big block nodes') : nodes = nodes' := by
  induction h generalizing nodes' with
  | done hlen hmagic =>
      cases h' with
      | done => rfl
      | node n hpadding hrest =>
          have hn := n.header
          rw [List.append_assoc, slice_append_left (by omega)] at hmagic
          exact absurd n.magic hmagic
  | @node n padding rest nodes hpadding hrest ih =>
      have hn := n.header
      generalize hblock : n.bytes ++ padding ++ rest = block at h'
      cases h' with
      | done hlen hmagic =>
          rw [← hblock, List.append_assoc, slice_append_left (by omega)] at hmagic
          exact absurd n.magic hmagic
      | @node m padding' rest' nodes' hpadding' hrest' =>
          rw [List.append_assoc, List.append_assoc] at hblock
          obtain rfl := Node.eq_of_append hblock
          have hrest := List.append_inj_right (List.append_cancel_left hblock) (by omega)
          rw [ih (hrest ▸ hrest')]

end Unique

/-! ### The loop -/

section Loop

variable {big : Bool} {erasesize : Nat} {mem : Octets} {dir : CString}

/-- The comparison finds the names that the string starts with. -/
theorem strncmp_val {off : Nat} {name : List Byte} (hname : At mem off name) (hnul : 0 ∉ name)
    (s : List Byte) : (strncmp mem off s name.length).val = decide (name <+: s) := by
  induction name generalizing off s with
  | nil => cases s <;> simp [strncmp]
  | cons c name ih =>
      obtain ⟨hc, hrest⟩ := at_append.mp (show At mem off ([c] ++ name) from hname)
      have hbyte : (loadByte mem off).val = c := List.head_eq_of_cons_eq hc
      cases s with
      | nil =>
          have hne : ¬ c = 0 := fun h0 => hnul (h0 ▸ List.mem_cons_self)
          simpa [strncmp, hbyte] using hne
      | cons x s =>
          rw [List.length_cons, strncmp, val_bind, hbyte]
          by_cases heq : c = x
          · have htail := ih (show At mem (off + 1) name from hrest) (fun h => hnul (List.mem_cons_of_mem c h)) s
            rw [if_pos heq, htail, heq]
            simp
          · rw [if_neg heq]
            simp [heq]

variable (dir) in
/-- What an entry does to the variables, and what another node leaves. -/
def note (g : Globals) (n : Node big) : Globals :=
  if n.nodetype = nodetypeDirent then {
    targetIno :=
      if dir.bytes ≠ [] ∧ n.pino = 1 ∧ n.name <+: dir.bytes then n.entryIno else g.targetIno
    lastIno := if g.lastIno < n.entryIno then n.entryIno else g.lastIno
    lastVersion := if g.lastVersion < n.version then n.version else g.lastVersion }
  else g

theorem matchDir_val {off : Nat} (n : Node big) (hn : At mem off n.bytes)
    (htype : n.nodetype = nodetypeDirent) (g : Globals) :
    (matchDir big mem dir off g).val =
      if dir.bytes ≠ [] ∧ n.pino = 1 ∧ n.name <+: dir.bytes then { g with targetIno := n.entryIno } else g := by
  obtain ⟨hfits, hnul⟩ := n.dirent htype
  unfold direntSize at hfits hnul
  have hpino : (loadWord big mem (off + 12)).val = n.pino :=
    congrArg (word big) (hn.slice (k := 12) (n := 4) (by omega))
  have hino : (loadWord big mem (off + 20)).val = n.entryIno :=
    congrArg (word big) (hn.slice (k := 20) (n := 4) (by omega))
  have hnsize : (loadByte mem (off + 28)).val = n.bytes.getD 28 0 := hn.byte (by omega)
  have hlen : n.name.length = (n.bytes.getD 28 0).toNat := by
    rw [Node.name, slice, List.length_take, List.length_drop, direntSize]
    omega
  have hname : At mem (off + 40) n.name := by
    rw [At, hlen]
    exact hn.slice hfits
  have hsame := strncmp_val hname hnul dir.bytes
  rw [hlen] at hsame
  unfold matchDir
  by_cases hdir : dir.bytes ≠ []
  · rw [if_pos hdir, val_bind, hpino]
    by_cases hroot : n.pino = 1
    · rw [if_pos hroot, val_bind, hnsize, val_bind, hsame]
      by_cases hpre : n.name <+: dir.bytes
      · rw [if_pos (decide_eq_true hpre), if_pos ⟨hdir, hroot, hpre⟩, val_bind, hino, val_pure]
      · rw [if_neg (by simpa using hpre), if_neg fun h => hpre h.2.2, val_pure]
    · rw [if_neg hroot, if_neg fun h => hroot h.2.1, val_pure]
  · rw [if_neg hdir, if_neg fun h => hdir h.1, val_pure]

theorem parseDirent_val {off : Nat} (n : Node big) (hn : At mem off n.bytes)
    (htype : n.nodetype = nodetypeDirent) (g : Globals) :
    (parseDirent big mem dir off g).val = note dir g n := by
  have hfits := (n.dirent htype).1
  unfold direntSize at hfits
  have hino : (loadWord big mem (off + 20)).val = n.entryIno :=
    congrArg (word big) (hn.slice (k := 20) (n := 4) (by omega))
  have hversion : (loadWord big mem (off + 16)).val = n.version :=
    congrArg (word big) (hn.slice (k := 16) (n := 4) (by omega))
  simp only [parseDirent, val_bind, val_pure, hino, hversion, matchDir_val n hn htype, note, if_pos htype]
  split <;> rfl

theorem parseStep_node (n : Node big) {s : Scan} (hn : At mem s.ofs.toNat n.bytes)
    (hlt : s.ofs.toNat < erasesize) :
    parseStep big erasesize mem dir s =
      some ⟨s.ofs + pad4 (word big (slice n.bytes 4 4)), note dir s.globals n⟩ := by
  have hheader := n.header
  have hmagic : (loadHalf big mem s.ofs.toNat).val = magicBitmask :=
    (congrArg (half big) (hn.slice (k := 0) (n := 2) (by omega))).trans n.magic
  have htotlen : (loadWord big mem (s.ofs.toNat + 4)).val = word big (slice n.bytes 4 4) :=
    congrArg (word big) (hn.slice (k := 4) (n := 4) (by omega))
  have htype : (loadHalf big mem (s.ofs.toNat + 2)).val = n.nodetype :=
    congrArg (half big) (hn.slice (k := 2) (n := 2) (by omega))
  unfold parseStep parseTurn
  rw [if_pos hlt, val_bind, if_pos hmagic]
  simp only [val_bind, htotlen, htype]
  by_cases hdirent : n.nodetype = nodetypeDirent
  · rw [if_pos hdirent, val_bind, parseDirent_val n hn hdirent, val_pure]
  · rw [if_neg hdirent, val_bind, val_pure, note, if_neg hdirent, val_pure]

theorem parseStep_done {rest : List Byte} (hlen : rest ≠ [] → 2 ≤ rest.length)
    (hmagic : half big (slice rest 0 2) ≠ magicBitmask) {s : Scan} (hrest : At mem s.ofs.toNat rest)
    (hend : s.ofs.toNat + rest.length = erasesize) : parseStep big erasesize mem dir s = none := by
  unfold parseStep parseTurn
  by_cases hlt : s.ofs.toNat < erasesize
  · have htwo : 2 ≤ rest.length := hlen (List.ne_nil_of_length_pos (by omega))
    have hhalf : (loadHalf big mem s.ofs.toNat).val = half big (slice rest 0 2) :=
      congrArg (half big) (hrest.slice (k := 0) (n := 2) (by omega))
    rw [if_pos hlt, val_bind, hhalf, if_neg hmagic, val_pure]
  · rw [if_neg hlt, val_pure]

theorem toNat_add_pad4 (ofs : Word) (n : Node big) (hfits : ofs.toNat + n.paddedLen + 3 < 2 ^ 32) :
    (ofs + pad4 (word big (slice n.bytes 4 4))).toNat = ofs.toNat + n.paddedLen := by
  have hlen : n.bytes.length ≤ n.paddedLen := by
    unfold Node.paddedLen
    omega
  have hpad := pad4_toNat (x := word big (slice n.bytes 4 4)) (by rw [n.totlen]; omega)
  rw [n.totlen] at hpad
  change _ = n.paddedLen at hpad
  rw [BitVec.toNat_add, hpad, Nat.mod_eq_of_lt (by omega)]

/-- The loop takes the nodes of a well-formed block in turn. -/
theorem parseLoop_holds {rest : List Byte} {nodes : List (Node big)} (h : Holds big rest nodes) {s : Scan}
    (hrest : At mem s.ofs.toNat rest) (hend : s.ofs.toNat + rest.length = erasesize)
    (hsize : erasesize + 3 < 2 ^ 32) {n : Nat} (hn : rest.length < n) :
    parseLoop big erasesize mem dir n s = some (nodes.foldl (note dir) s.globals) := by
  induction h generalizing s n with
  | done hlen hmagic =>
      obtain ⟨n, rfl⟩ := Nat.exists_eq_succ_of_ne_zero (Nat.ne_zero_of_lt hn)
      rw [parseLoop, parseStep_done hlen hmagic hrest hend]
      rfl
  | node node hpadding _ ih =>
      obtain ⟨n, rfl⟩ := Nat.exists_eq_succ_of_ne_zero (Nat.ne_zero_of_lt hn)
      obtain ⟨hnode, hback⟩ := at_append.mp hrest
      have hheader := node.header
      rw [List.length_append, hpadding] at hback
      rw [List.length_append, List.length_append, hpadding] at hend hn
      have hofs := toNat_add_pad4 s.ofs node (by omega)
      rw [parseLoop, parseStep_node node (at_append.mp hnode).1 (by unfold Node.paddedLen at hend; omega)]
      exact ih (s := ⟨s.ofs + pad4 (word big (slice node.bytes 4 4)), note dir s.globals node⟩)
        (by rw [hofs]; exact hback) (by rw [hofs]; omega) (by unfold Node.paddedLen at hn; omega)

/-- `mtd_parse_jffs2data`, on a well-formed block. -/
theorem mtdParseJffs2data_holds (dir : CString) {block : List Byte} {nodes : List (Node big)} (h : Holds big block nodes)
    (hblock : At mem 0 block) (hsize : block.length + 3 < 2 ^ 32) (g : Globals) :
    mtdParseJffs2data big block.length mem dir g = some (nodes.foldl (note dir) g) :=
  parseLoop_holds (s := ⟨0, g⟩) h hblock (Nat.zero_add _) hsize (Nat.lt_succ_self _)

end Loop

/-! ### The nodes that are made -/

section Made

variable (big : Bool)

@[simp]
theorem half_putHalf (h : HalfWord) : half big (putHalf big h) = h := by
  cases big with
  | false => exact ofLe16_u16le h
  | true => exact ofBe16_u16be h

@[simp]
theorem word_putWord (w : Word) : word big (putWord big w) = w := by
  cases big with
  | false => exact ofLe_u32le w
  | true => exact ofBe_wordBe w

@[simp]
theorem length_direntBytes (de : RawDirent) : (de.bytes big).length = direntSize + de.name.length := by
  cases big <;> simp [RawDirent.bytes, unknownNode, putHalf, putWord, u16le, u16be, wordBe, direntSize] <;> omega

theorem slice_direntBytes_name (de : RawDirent) (n : Nat) :
    slice (de.bytes big) direntSize n = de.name.take n := by
  cases big <;> rfl

theorem nsize_direntBytes (de : RawDirent) :
    (de.bytes big).getD 28 0 = BitVec.ofNat 8 de.name.length := by
  cases big <;> rfl

/-- A directory entry as a node. -/
def RawDirent.node (de : RawDirent) (hlen : de.name.length < 2 ^ 8) (hnul : 0 ∉ de.name) : Node big where
  bytes := de.bytes big
  magic := by
    have hslice : slice (de.bytes big) 0 2 = putHalf big magicBitmask := by cases big <;> rfl
    rw [hslice, half_putHalf]
  totlen := by
    have hslice : slice (de.bytes big) 4 4 = putWord big (BitVec.ofNat 32 (direntSize + de.name.length)) := by
      cases big <;> rfl
    rw [hslice, word_putWord, length_direntBytes, BitVec.toNat_ofNat, Nat.mod_eq_of_lt]
    unfold direntSize
    omega
  header := by
    rw [length_direntBytes, direntSize]
    omega
  dirent _ := by
    rw [nsize_direntBytes, BitVec.toNat_ofNat, Nat.mod_eq_of_lt hlen, length_direntBytes, slice_direntBytes_name,
      List.take_length]
    exact ⟨le_rfl, hnul⟩
  inode htype := by
    have hslice : slice (de.bytes big) 2 2 = putHalf big nodetypeDirent := by cases big <;> rfl
    rw [hslice, half_putHalf] at htype
    exact absurd htype (by decide)

/-- What the fields of an entry are. -/
theorem RawDirent.node_spec (de : RawDirent) (hlen : de.name.length < 2 ^ 8) (hnul : 0 ∉ de.name) :
    (de.node big hlen hnul).nodetype = nodetypeDirent ∧ (de.node big hlen hnul).pino = de.pino ∧
      (de.node big hlen hnul).version = de.version ∧ (de.node big hlen hnul).entryIno = de.ino ∧
      (de.node big hlen hnul).name = de.name := by
  have htype : slice (de.bytes big) 2 2 = putHalf big nodetypeDirent := by cases big <;> rfl
  have hpino : slice (de.bytes big) 12 4 = putWord big de.pino := by cases big <;> rfl
  have hversion : slice (de.bytes big) 16 4 = putWord big de.version := by cases big <;> rfl
  have hino : slice (de.bytes big) 20 4 = putWord big de.ino := by cases big <;> rfl
  refine ⟨?_, ?_, ?_, ?_, ?_⟩
  · rw [Node.nodetype, RawDirent.node, htype, half_putHalf]
  · rw [Node.pino, RawDirent.node, hpino, word_putWord]
  · rw [Node.version, RawDirent.node, hversion, word_putWord]
  · rw [Node.entryIno, RawDirent.node, hino, word_putWord]
  · rw [Node.name, RawDirent.node, nsize_direntBytes, BitVec.toNat_ofNat, Nat.mod_eq_of_lt hlen,
      slice_direntBytes_name, List.take_length]

/-- The cleanmarker as a node. -/
def cleanNode : Node big where
  bytes := cleanmarker big
  magic := by cases big <;> rfl
  totlen := by cases big <;> rfl
  header := by cases big <;> decide
  dirent htype := by
    revert htype
    cases big <;> decide
  inode htype := by
    revert htype
    cases big <;> decide

@[simp]
theorem length_cleanNode : (cleanNode big).bytes.length = 12 := by
  cases big <;> rfl

/-- An inode in memory, with its data. -/
def RawInode.whole (ri : RawInode) : List Byte := ri.bytes big (crc32 0 ri.data) ++ ri.data

@[simp]
theorem length_putHalf (h : HalfWord) : (putHalf big h).length = 2 := by
  cases big <;> rfl

@[simp]
theorem length_putWord (w : Word) : (putWord big w).length = 4 := by
  cases big <;> rfl

@[simp]
theorem length_unknownNode (nodetype : HalfWord) (totlen : Nat) : (unknownNode big nodetype totlen).length = 12 := by
  simp [unknownNode]

/-- The fields that all nodes have. -/
theorem unknownNode_spec (nodetype : HalfWord) (totlen : Nat) (rest : List Byte) :
    half big (slice (unknownNode big nodetype totlen ++ rest) 0 2) = magicBitmask ∧
      half big (slice (unknownNode big nodetype totlen ++ rest) 2 2) = nodetype ∧
      word big (slice (unknownNode big nodetype totlen ++ rest) 4 4) = BitVec.ofNat 32 totlen := by
  have hmagic : slice (unknownNode big nodetype totlen) 0 2 = putHalf big magicBitmask := by cases big <;> rfl
  have htype : slice (unknownNode big nodetype totlen) 2 2 = putHalf big nodetype := by cases big <;> rfl
  have htotlen : slice (unknownNode big nodetype totlen) 4 4 = putWord big (BitVec.ofNat 32 totlen) := by
    cases big <;> rfl
  rw [slice_append_left (by simp), slice_append_left (by simp), slice_append_left (by simp), hmagic, htype,
    htotlen, half_putHalf, half_putHalf, word_putWord]
  exact ⟨rfl, rfl, rfl⟩

@[simp]
theorem length_inodeBytes (ri : RawInode) (crc : Word) : (ri.bytes big crc).length = inodeSize := by
  simp [RawInode.bytes, inodeSize]

@[simp]
theorem length_inodeWhole (ri : RawInode) : (ri.whole big).length = inodeSize + ri.data.length := by
  rw [RawInode.whole, List.length_append, length_inodeBytes]

theorem inodeWhole_eq (ri : RawInode) :
    ∃ rest, ri.whole big = unknownNode big nodetypeInode (inodeSize + ri.data.length) ++ rest := by
  have hfront : (ri.whole big).take 12 = unknownNode big nodetypeInode (inodeSize + ri.data.length) := by
    simp only [RawInode.whole, RawInode.bytes, List.append_assoc]
    exact List.take_left' (length_unknownNode big _ _)
  exact ⟨(ri.whole big).drop 12, by rw [← hfront, List.take_append_drop]⟩

/-- An inode as a node. -/
def RawInode.node (ri : RawInode) (hlen : inodeSize + ri.data.length < 2 ^ 32) : Node big where
  bytes := ri.whole big
  magic := by
    obtain ⟨rest, heq⟩ := inodeWhole_eq big ri
    rw [heq]
    exact (unknownNode_spec big _ _ rest).1
  totlen := by
    have hlength := length_inodeWhole big ri
    obtain ⟨rest, heq⟩ := inodeWhole_eq big ri
    rw [hlength, heq, (unknownNode_spec big _ _ rest).2.2, BitVec.toNat_ofNat, Nat.mod_eq_of_lt hlen]
  header := by
    rw [length_inodeWhole, inodeSize]
    omega
  dirent htype := by
    obtain ⟨rest, heq⟩ := inodeWhole_eq big ri
    rw [heq, (unknownNode_spec big _ _ rest).2.1] at htype
    exact absurd htype (by decide)
  inode _ := by
    rw [length_inodeWhole]
    omega

end Made

end Immwrt.Mtd.Jffs2
