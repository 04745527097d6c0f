import Immwrt.Mtd.Proof.Jffs2Nodes

/-!
# Where an appended file goes

`mtd_write_jffs2` takes a directory whose name the wanted one merely starts with for the wanted one, and gives
the entry of the file the highest version there is instead of a higher one, unless it has just made the
directory. Inode nodes it does not look at.
-/

namespace Immwrt.Mtd.Jffs2

variable {big : Bool} {d : Nand} {dir : CString}

/-! ### What the entries say -/

section Entries

/-- An entry of the root directory. -/
def Node.Root (n : Node big) : Prop := n.nodetype = nodetypeDirent ∧ n.pino = 1

instance (n : Node big) : Decidable n.Root := inferInstanceAs (Decidable (_ ∧ _))

/-- The node has the inode number. -/
def Node.Uses (n : Node big) (ino : Word) : Prop :=
  n.nodetype = nodetypeDirent ∧ (n.entryIno = ino ∨ n.pino = ino) ∨ n.nodetype = nodetypeInode ∧ n.inodeIno = ino

/-- The last of the entries of the root directory whose name `dir` starts with. -/
def lastMatch (dir : CString) (nodes : List (Node big)) : Option (Node big) :=
  (nodes.filter fun n => n.Root ∧ n.name <+: dir.bytes).getLast?

def entries (nodes : List (Node big)) : List (Node big) := nodes.filter fun n => n.nodetype = nodetypeDirent

/-- The highest value of a field of the entries. -/
def maxOf (field : Node big → Word) (nodes : List (Node big)) : Nat :=
  (entries nodes).foldl (fun m n => max m (field n).toNat) 0

def maxIno (nodes : List (Node big)) : Nat := maxOf Node.entryIno nodes

def maxVersion (nodes : List (Node big)) : Nat := maxOf Node.version nodes

theorem filter_append_singleton (p : Node big → Bool) (nodes : List (Node big)) (n : Node big) :
    (nodes ++ [n]).filter p = if p n = true then nodes.filter p ++ [n] else nodes.filter p := by
  rw [List.filter_append]
  by_cases hp : p n = true
  · rw [if_pos hp, List.filter_cons_of_pos hp, List.filter_nil]
  · rw [if_neg hp, List.filter_cons_of_neg hp, List.filter_nil, List.append_nil]

theorem maxOf_append (field : Node big → Word) (nodes : List (Node big)) (n : Node big) :
    maxOf field (nodes ++ [n]) =
      if n.nodetype = nodetypeDirent then max (maxOf field nodes) (field n).toNat else maxOf field nodes := by
  rw [maxOf, entries, filter_append_singleton]
  by_cases htype : n.nodetype = nodetypeDirent
  · rw [if_pos htype, if_pos (decide_eq_true htype), List.foldl_append]
    rfl
  · rw [if_neg htype, if_neg fun h => htype (of_decide_eq_true h)]
    rfl

theorem maxOf_spec (field : Node big → Word) (nodes : List (Node big)) :
    (∀ n ∈ nodes, n.nodetype = nodetypeDirent → (field n).toNat ≤ maxOf field nodes) ∧
      (maxOf field nodes = 0 ∨ ∃ n ∈ nodes, n.nodetype = nodetypeDirent ∧ (field n).toNat = maxOf field nodes) := by
  induction nodes using List.reverseRecOn with
  | nil => exact ⟨fun n hn => absurd hn List.not_mem_nil, Or.inl rfl⟩
  | append_singleton nodes last ih =>
      obtain ⟨hle, hattained⟩ := ih
      rw [maxOf_append]
      constructor
      · intro n hn htype
        rcases List.mem_append.mp hn with hold | hnew
        · have := hle n hold htype
          split <;> omega
        · obtain rfl := List.mem_singleton.mp hnew
          rw [if_pos htype]
          exact le_max_right _ _
      · by_cases hlast : last.nodetype = nodetypeDirent ∧ maxOf field nodes ≤ (field last).toNat
        · refine Or.inr ⟨last, List.mem_append_right _ (List.mem_singleton.mpr rfl), hlast.1, ?_⟩
          rw [if_pos hlast.1, max_eq_right hlast.2]
        · have hsame : (if last.nodetype = nodetypeDirent then max (maxOf field nodes) (field last).toNat
              else maxOf field nodes) = maxOf field nodes := by
            split
            · next htype => exact max_eq_left (not_le.mp fun h => hlast ⟨htype, h⟩).le
            · rfl
          rw [hsame]
          rcases hattained with hzero | ⟨n, hn, htype, heq⟩
          · exact Or.inl hzero
          · exact Or.inr ⟨n, List.mem_append_left _ hn, htype, heq⟩

/-- Entries have a highest value among them. -/
theorem maxOf_attained (field : Node big → Word) {nodes : List (Node big)} {n : Node big} (hn : n ∈ nodes)
    (htype : n.nodetype = nodetypeDirent) :
    ∃ n ∈ nodes, n.nodetype = nodetypeDirent ∧ (field n).toNat = maxOf field nodes := by
  obtain ⟨hle, hzero | hattained⟩ := maxOf_spec field nodes
  · have := hle n hn htype
    exact ⟨n, hn, htype, by omega⟩
  · exact hattained

theorem maxOf_lt (field : Node big → Word) (nodes : List (Node big)) : maxOf field nodes < 2 ^ 32 := by
  rcases (maxOf_spec field nodes).2 with hzero | ⟨n, -, -, heq⟩
  · rw [hzero]
    decide
  · exact heq ▸ (field n).isLt

theorem lastMatch_append (dir : CString) (nodes : List (Node big)) (n : Node big) :
    lastMatch dir (nodes ++ [n]) = if n.Root ∧ n.name <+: dir.bytes then some n else lastMatch dir nodes := by
  rw [lastMatch, filter_append_singleton]
  by_cases hmatch : n.Root ∧ n.name <+: dir.bytes
  · rw [if_pos hmatch, if_pos (decide_eq_true hmatch), List.getLast?_append]
    rfl
  · rw [if_neg hmatch, if_neg fun h => hmatch (of_decide_eq_true h)]
    rfl

/-- The maximum of two numbers, as the loop takes it. -/
theorem toNat_ite_lt (x y : Word) : (if x < y then y else x).toNat = max x.toNat y.toNat := by
  by_cases hlt : x < y
  · rw [if_pos hlt, max_eq_right (BitVec.lt_def.mp hlt).le]
  · rw [if_neg hlt, max_eq_left (not_lt.mp fun h => hlt (BitVec.lt_def.mpr h))]

/-- What the loops over the blocks leave in the variables. -/
theorem foldl_note (hdir : dir.bytes ≠ []) (nodes : List (Node big)) :
    (nodes.foldl (note dir) .initial).targetIno = ((lastMatch dir nodes).map Node.entryIno).getD 0 ∧
      (nodes.foldl (note dir) .initial).lastIno.toNat = maxIno nodes ∧
      (nodes.foldl (note dir) .initial).lastVersion.toNat = maxVersion nodes := by
  induction nodes using List.reverseRecOn with
  | nil => exact ⟨rfl, rfl, rfl⟩
  | append_singleton nodes n ih =>
      obtain ⟨htarget, hino, hversion⟩ := ih
      rw [List.foldl_append, List.foldl_cons, List.foldl_nil, maxIno, maxVersion, maxOf_append, maxOf_append,
        lastMatch_append, note]
      by_cases htype : n.nodetype = nodetypeDirent
      · simp only [if_pos htype, toNat_ite_lt, hino, hversion]
        refine ⟨?_, rfl, rfl⟩
        by_cases hmatch : n.Root ∧ n.name <+: dir.bytes
        · rw [if_pos ⟨hdir, hmatch.1.2, hmatch.2⟩, if_pos hmatch]
          rfl
        · rw [if_neg fun h => hmatch ⟨⟨htype, h.2.1⟩, h.2.2⟩, if_neg hmatch]
          exact htarget
      · rw [if_neg htype, if_neg htype, if_neg htype, if_neg fun h => htype h.1.1]
        exact ⟨htarget, hino, hversion⟩

end Entries

/-! ### Finding the end -/

/-- A well-formed block of the filesystem. -/
structure Block (big : Bool) (erasesize : Nat) where
  bytes : List Byte
  nodes : List (Node big)
  holds : Holds big bytes nodes
  length_eq : bytes.length = erasesize
  nonempty : nodes ≠ []

/-- A block that ends the filesystem. -/
structure EndBlock (big : Bool) (erasesize : Nat) where
  bytes : List Byte
  length_eq : bytes.length = erasesize
  noMagic : half big (slice bytes 0 2) ≠ magicBitmask
  noWrongMagic : half big (slice bytes 0 2) ≠ 0x8519

theorem Holds.magic {block : List Byte} {nodes : List (Node big)} (h : Holds big block nodes)
    (hne : nodes ≠ []) : half big (slice block 0 2) = magicBitmask ∧ 2 ≤ block.length := by
  cases h with
  | done hlen hmagic => exact absurd rfl hne
  | node n hpadding hrest =>
      have hheader := n.header
      rw [List.append_assoc, slice_append_left (by omega), List.length_append]
      exact ⟨n.magic, by omega⟩

theorem at_store (mem : Octets) (bytes : List Byte) : At (store mem 0 bytes) 0 bytes :=
  bytesAt_store_self mem 0 bytes

/-- The blocks up to the end are read in turn. -/
theorem findEnd_blocks (dir : CString) (hsize : d.erasesize + 3 < 2 ^ 32) (blocks : List (Block big d.erasesize))
    (last : EndBlock big d.erasesize) (rest : List (List Byte)) (hpos : 2 ≤ d.erasesize) (w : Writer) :
    ∃ w', findEnd big d dir w (blocks.map Block.bytes ++ last.bytes :: rest) = some w' ∧
      w'.globals = (blocks.flatMap Block.nodes).foldl (note dir) w.globals := by
  induction blocks generalizing w with
  | nil =>
      have hhalf : half big (bytesAt (store w.buf 0 last.bytes) 0 2) = half big (slice last.bytes 0 2) :=
        congrArg (half big) ((at_store w.buf last.bytes).slice (k := 0) (n := 2)
          (by rw [last.length_eq]; exact hpos))
      rw [List.map_nil, List.nil_append, findEnd]
      simp only [hhalf, if_neg last.noWrongMagic, if_pos last.noMagic]
      exact ⟨_, rfl, rfl⟩
  | cons block blocks ih =>
      obtain ⟨hmagic, htwo⟩ := block.holds.magic block.nonempty
      have hhalf : half big (bytesAt (store w.buf 0 block.bytes) 0 2) = magicBitmask :=
        (congrArg (half big) ((at_store w.buf block.bytes).slice (k := 0) (n := 2) htwo)).trans hmagic
      have hparse := mtdParseJffs2data_holds dir block.holds (at_store w.buf block.bytes)
        (by rw [block.length_eq]; exact hsize) w.globals
      rw [block.length_eq] at hparse
      rw [List.map_cons, List.cons_append, findEnd, List.flatMap_cons, List.foldl_append]
      simp only [hhalf, hparse]
      exact ih _

/-! ### The variables while nodes are added -/

@[simp]
theorem globals_copy (data : List Byte) (w : Writer) : (w.copy data).globals = w.globals := rfl

@[simp]
theorem globals_pad (size : Nat) (w : Writer) : (pad d size w).globals = w.globals := by
  unfold pad
  split
  · rfl
  · dsimp only
    split <;> split <;> rfl

@[simp]
theorem globals_prepEraseblock (w : Writer) : (prepEraseblock big w).globals = w.globals := by
  unfold prepEraseblock
  split <;> rfl

@[simp]
theorem globals_addData (data : List Byte) (w : Writer) : (addData big d data w).globals = w.globals := by
  unfold addData
  split <;> simp

/-- The entry that is made has the next inode number but the version there is. -/
theorem addDirent_spec (big : Bool) (d : Nand) (name : CString) (type : Byte) (parent : Word) (w : Writer) :
    (addDirent big d name type parent w).2 = {
        pino := parent
        version := w.globals.lastVersion
        ino := w.globals.lastIno + 1
        type := type
        name := name.bytes } ∧
      (addDirent big d name type parent w).1.globals = { w.globals with
        lastIno := w.globals.lastIno + 2
        lastVersion := w.globals.lastVersion + 1 } := by
  unfold addDirent
  split <;> simp

variable (big d) in
theorem addDir_spec (name : CString) (parent : Word) (w : Writer) :
    (addDir big d name parent w).2 = (addDirent big d name dtDir parent w).2 ∧
      (addDir big d name parent w).1.globals = (addDirent big d name dtDir parent w).1.globals := by
  unfold addDir
  dsimp only
  split <;> simp

theorem addFile_entry (file : File) {stat : Stat} (hstat : file.stat = some stat) (parent : Word) (w : Writer) :
    (addFile big d file parent w).2 = some (addDirent big d file.fname dtReg parent w).2 := by
  unfold addFile
  rw [hstat]
  dsimp only
  split <;> rfl

@[simp]
theorem globals_makeRoom (w : Writer) : (makeRoom big d w).globals = w.globals := by
  unfold makeRoom
  split <;> simp

@[simp]
theorem globals_finish (w : Writer) : (finish big d w).globals = w.globals := by
  simp [finish]

theorem globals_addPiece (ino : Word) (stat : Stat) (f_offset : Nat) (data : List Byte) (w : Writer) :
    (addPiece big d ino stat f_offset data w).globals =
      { w.globals with lastVersion := w.globals.lastVersion + 1 } := by
  simp [addPiece]

theorem targetIno_addPieces (ino : Word) (stat : Stat) (f_offset : Nat) (rest : List Byte) (w : Writer) :
    (addPieces big d ino stat f_offset rest w).globals.targetIno = w.globals.targetIno := by
  fun_induction addPieces big d ino stat f_offset rest w with
  | case1 f_offset rest w next data hdata => exact congrArg Globals.targetIno (globals_makeRoom w)
  | case2 f_offset rest w next data hdata ih =>
      have hnext : next.globals = w.globals := globals_makeRoom w
      rw [ih, globals_addPiece, hnext]

theorem targetIno_addFile (file : File) (parent : Word) (w : Writer) :
    (addFile big d file parent w).1.globals.targetIno = w.globals.targetIno := by
  have htarget : (addDirent big d file.fname dtReg parent w).1.globals.targetIno = w.globals.targetIno := by
    rw [(addDirent_spec big d file.fname dtReg parent w).2]
  unfold addFile
  cases file.stat with
  | none => rfl
  | some stat =>
      cases file.content with
      | none => exact htarget
      | some content => exact (targetIno_addPieces ..).trans htarget

/-- The first inode number that is not taken by an entry, less one. -/
def Globals.startIno (g : Globals) : Word := if g.lastIno = 0 then 1 else g.lastIno

/-- What `mtd_write_jffs2` makes of the variables: a directory, if there is no inode number to use, and the
entry of the file. -/
theorem appendAtEnd_spec (big : Bool) (d : Nand) (dir : CString) (file : File) {stat : Stat} (hstat : file.stat = some stat) (w : Writer) :
    ∃ w' made de, appendAtEnd big d dir file w = (w', made, some de) ∧
      (w.globals.targetIno ≠ 0 → w'.globals.targetIno = w.globals.targetIno ∧
        de.version = w.globals.lastVersion) ∧
      (w.globals.targetIno = 0 → ∃ m, made = some m ∧ m.pino = 1 ∧ m.name = dir.bytes ∧
        m.ino = w.globals.startIno + 1 ∧ w'.globals.targetIno = m.ino ∧
        de.ino = w.globals.startIno + 3 ∧ de.version = w.globals.lastVersion + 1) := by
  unfold appendAtEnd
  dsimp only
  by_cases htarget : w.globals.targetIno = 0
  · rw [if_pos htarget]
    refine ⟨_, _, _, Prod.ext rfl (Prod.ext rfl (addFile_entry file hstat _ _)), fun hne => absurd htarget hne,
      fun _ => ?_⟩
    obtain ⟨hmade, hglobals⟩ := addDir_spec big d dir 1 { w with
      ofs := 0
      globals := { w.globals with lastIno := if w.globals.lastIno = 0 then 1 else w.globals.lastIno }
      disk := { w.disk with
        mtdofs := w.disk.mtdofs - d.erasesize
        pos := d.lseek w.disk.pos (w.disk.mtdofs - d.erasesize) } }
    rw [(addDirent_spec big d dir dtDir 1 _).1] at hmade
    rw [(addDirent_spec big d dir dtDir 1 _).2] at hglobals
    rw [globals_finish, targetIno_addFile, (addDirent_spec big d file.fname dtReg _ _).1, hglobals]
    refine ⟨_, rfl, ?_⟩
    rw [hmade]
    refine ⟨rfl, rfl, rfl, rfl, ?_, rfl⟩
    change w.globals.startIno + 2 + 1 = w.globals.startIno + 3
    rw [BitVec.add_assoc]
    rfl
  · rw [if_neg htarget]
    refine ⟨_, _, _, Prod.ext rfl (Prod.ext rfl (addFile_entry file hstat _ _)), fun _ => ?_,
      fun h => absurd h htarget⟩
    rw [globals_finish, targetIno_addFile, (addDirent_spec big d file.fname dtReg _ _).1]
    exact ⟨rfl, rfl⟩

/-! ### Where the file goes -/

/-- The entry of the root directory that is wanted. -/
def Node.Named (dir : CString) (n : Node big) : Prop := n.Root ∧ n.name = dir.bytes

/-- The file goes to the directory `dir`, which is made if it is not there, its inode number is not taken, and
its entry has a higher version than the others. -/
structure Wins (dir : CString) (nodes : List (Node big)) (target : Word) (made : Option RawDirent)
    (de : RawDirent) : Prop where
  found : (∃ n ∈ nodes, n.Named dir) → ∃ n ∈ nodes, n.Named dir ∧ target = n.entryIno
  made : (¬ ∃ n ∈ nodes, n.Named dir) →
    ∃ m, made = some m ∧ m.pino = 1 ∧ m.name = dir.bytes ∧ target = m.ino
  unused : ∀ n ∈ nodes, ¬ n.Uses de.ino
  newest : ∀ n ∈ nodes, n.nodetype = nodetypeDirent → n.version < de.version

/-- The inode number that new ones are counted from. -/
def startNo (nodes : List (Node big)) : Nat := if maxIno nodes = 0 then 1 else maxIno nodes

/-- The blocks have no entry that the directory is looked for in vain with. -/
structure MakesDir (dir : CString) (nodes : List (Node big)) : Prop where
  /-- The last entry of the root directory whose name `dir` starts with is a deleted one, or there is none. -/
  noMatch : ∀ n, lastMatch dir nodes = some n → n.entryIno = 0
  /-- There is no entry for `dir`, or a deleted one when the inode numbers start over. -/
  noEntry : (¬ ∃ n ∈ nodes, n.Named dir) ∨
    startNo nodes = 2 ^ 32 - 1 ∧ ∃ n ∈ nodes, n.Named dir ∧ n.entryIno = 0
  version : maxVersion nodes ≠ 2 ^ 32 - 1
  unused : ∀ n ∈ nodes, ¬ n.Uses (BitVec.ofNat 32 (startNo nodes + 3))

theorem startIno_toNat {nodes : List (Node big)} {g : Globals} (hino : g.lastIno.toNat = maxIno nodes) :
    g.startIno.toNat = startNo nodes := by
  have hzero : g.lastIno = 0 ↔ maxIno nodes = 0 := by
    rw [← hino, ← BitVec.toNat_inj]
    rfl
  rw [Globals.startIno, startNo]
  by_cases h : g.lastIno = 0
  · rw [if_pos h, if_pos (hzero.mp h)]
    rfl
  · rw [if_neg h, if_neg (mt hzero.mpr h), hino]

/-- Entries have numbers up to the one that new ones are counted from. -/
theorem entryIno_le_startNo {nodes : List (Node big)} {n : Node big} (hn : n ∈ nodes)
    (htype : n.nodetype = nodetypeDirent) : n.entryIno.toNat ≤ startNo nodes := by
  have hle := (maxOf_spec Node.entryIno nodes).1 n hn htype
  change _ ≤ maxIno nodes at hle
  unfold startNo
  split <;> omega

/-- A version one higher than the highest is higher than all, unless it starts over. -/
theorem newest_iff {nodes : List (Node big)} {version : Word} (hversion : version.toNat = maxVersion nodes) :
    (∀ n ∈ nodes, n.nodetype = nodetypeDirent → n.version < version + 1) ↔
      maxVersion nodes ≠ 2 ^ 32 - 1 := by
  have hsucc : (version + 1).toNat = (maxVersion nodes + 1) % 2 ^ 32 := by
    rw [BitVec.toNat_add, hversion]
    rfl
  constructor
  · intro h hmax
    rcases (maxOf_spec Node.version nodes).2 with hzero | ⟨n, hn, htype, heq⟩
    · exact absurd (hzero.symm.trans hmax) (by decide)
    · have hlt := BitVec.lt_def.mp (h n hn htype)
      rw [hsucc, hmax] at hlt
      omega
  · intro hmax n hn htype
    have hle := (maxOf_spec Node.version nodes).1 n hn htype
    change _ ≤ maxVersion nodes at hle
    have hlt := maxOf_lt Node.version nodes
    change maxVersion nodes < 2 ^ 32 at hlt
    rw [BitVec.lt_def, hsucc, Nat.mod_eq_of_lt (by omega)]
    omega

theorem ofNat_startNo_add {nodes : List (Node big)} {g : Globals} (hstart : g.startIno.toNat = startNo nodes)
    (k : Nat) : g.startIno + BitVec.ofNat 32 k = BitVec.ofNat 32 (startNo nodes + k) := by
  rw [← hstart, BitVec.ofNat_add, BitVec.ofNat_toNat, BitVec.setWidth_eq]

/-- The run over the blocks of a partition, and what it makes of the variables. -/
theorem mtdWriteJffs2_spec (d : Nand) (dir : CString) (hsize : 2 ≤ d.erasesize ∧ d.erasesize < 2 ^ 31) (hdir : dir.bytes ≠ [])
    (file : File) {stat : Stat} (hstat : file.stat = some stat) (blocks : List (Block big d.erasesize))
    (last : EndBlock big d.erasesize) (rest : List (List Byte)) (w : Writer) (hw : w.globals = .initial) :
    ∃ (g : Globals) (w' : Writer) (made : Option RawDirent) (de : RawDirent),
      mtdWriteJffs2 big d dir file (blocks.map Block.bytes ++ last.bytes :: rest) w =
        some (w', made, some de) ∧
      g = (blocks.flatMap Block.nodes).foldl (note dir) .initial ∧
      (g.targetIno ≠ 0 → w'.globals.targetIno = g.targetIno ∧ de.version = g.lastVersion) ∧
      (g.targetIno = 0 → ∃ m, made = some m ∧ m.pino = 1 ∧ m.name = dir.bytes ∧
        m.ino = g.startIno + 1 ∧ w'.globals.targetIno = m.ino ∧ de.ino = g.startIno + 3 ∧
        de.version = g.lastVersion + 1) := by
  obtain ⟨w₁, hfind, hglobals⟩ := findEnd_blocks dir (by omega) blocks last rest hsize.1 w
  obtain ⟨w', made, de, happend, hspec⟩ := appendAtEnd_spec big d dir file hstat w₁
  refine ⟨w₁.globals, w', made, de, ?_, hw ▸ hglobals, hspec⟩
  unfold mtdWriteJffs2
  simp only [if_neg hdir, hfind, Option.map_some, happend]

/-- The file goes where it should if and only if the directory is made for it. -/
theorem mtdWriteJffs2_wins_iff (big : Bool) (d : Nand) (hsize : 2 ≤ d.erasesize ∧ d.erasesize < 2 ^ 31)
    (dir : CString) (hdir : dir.bytes ≠ []) (file : File) (stat : Stat) (hstat : file.stat = some stat)
    (blocks : List (Block big d.erasesize)) (last : EndBlock big d.erasesize) (rest : List (List Byte))
    (w : Writer) (hw : w.globals = .initial) :
    ∃ w' made de,
      mtdWriteJffs2 big d dir file (blocks.map Block.bytes ++ last.bytes :: rest) w =
        some (w', made, some de) ∧
      (Wins dir (blocks.flatMap Block.nodes) w'.globals.targetIno made de ↔
        MakesDir dir (blocks.flatMap Block.nodes)) := by
  obtain ⟨g, w', made, de, hrun, hglobals, hthere, hnew⟩ :=
    mtdWriteJffs2_spec d dir hsize hdir file hstat blocks last rest w hw
  refine ⟨w', made, de, hrun, ?_⟩
  generalize blocks.flatMap Block.nodes = nodes at *
  obtain ⟨htarget, hino, hversion⟩ := foldl_note hdir nodes
  rw [← hglobals] at htarget hino hversion
  have hstart := startIno_toNat hino
  have hmatch : (∀ n, lastMatch dir nodes = some n → n.entryIno = 0) ↔ g.targetIno = 0 := by
    rw [htarget]
    cases lastMatch dir nodes with
    | none => simp
    | some n => simp
  by_cases hzero : g.targetIno = 0
  · obtain ⟨m, hmade, hpino, hname, hmino, htarget', hdeino, hdeversion⟩ := hnew hzero
    have hmino' : m.ino.toNat = (startNo nodes + 1) % 2 ^ 32 := by
      rw [hmino, BitVec.toNat_add, hstart]
      rfl
    have hdeino' : de.ino = BitVec.ofNat 32 (startNo nodes + 3) := hdeino.trans (ofNat_startNo_add hstart 3)
    constructor
    · intro hwins
      refine ⟨hmatch.mpr hzero, ?_, (newest_iff hversion).mp (hdeversion ▸ hwins.newest), hdeino' ▸ hwins.unused⟩
      by_cases hthere : ∃ n ∈ nodes, n.Named dir
      · obtain ⟨n, hn, hnamed, heq⟩ := hwins.found hthere
        have hle := entryIno_le_startNo hn hnamed.1.1
        have hsame := congrArg BitVec.toNat (htarget'.symm.trans heq)
        rw [hmino'] at hsame
        have hlt := n.entryIno.isLt
        refine Or.inr ⟨by omega, n, hn, hnamed, BitVec.eq_of_toNat_eq ?_⟩
        change _ = 0
        omega
      · exact Or.inl hthere
    · intro hmakes
      refine ⟨fun hthere => ?_, fun _ => ⟨m, hmade, hpino, hname, htarget'⟩, hdeino' ▸ hmakes.unused,
        hdeversion ▸ (newest_iff hversion).mpr hmakes.version⟩
      rcases hmakes.noEntry with hnone | ⟨hover, n, hn, hnamed, hdeleted⟩
      · exact absurd hthere hnone
      · refine ⟨n, hn, hnamed, htarget'.trans (BitVec.eq_of_toNat_eq ?_)⟩
        rw [hmino', hover, hdeleted]
        rfl
  · obtain ⟨-, hdeversion⟩ := hthere hzero
    refine iff_of_false (fun hwins => ?_) fun hmakes => hzero (hmatch.mp hmakes.noMatch)
    obtain ⟨n, hn, hentry⟩ : ∃ n ∈ nodes, n.nodetype = nodetypeDirent := by
      cases hlast : lastMatch dir nodes with
      | none => exact absurd (hmatch.mp fun n h => by rw [hlast] at h; cases h) hzero
      | some n =>
          have hmem := List.mem_filter.mp (List.mem_of_getLast? hlast)
          exact ⟨n, hmem.1, (of_decide_eq_true hmem.2).1.1⟩
    obtain ⟨newest, hnewest, htype, heq⟩ := maxOf_attained Node.version hn hentry
    have hlt := BitVec.lt_def.mp (hwins.newest newest hnewest htype)
    rw [hdeversion, hversion] at hlt
    exact absurd hlt (by rw [heq]; exact lt_irrefl _)

/-! ### A partition with a directory -/

/-- A device of 16 blocks, none of them bad. -/
def smallDevice : Nand where
  erasesize := 4096
  blocks := 16
  bad _ := false
  worn _ := false
  erasesize_pos := by decide

/-- The entry of a directory in the root directory. -/
def tmpDirent : RawDirent where
  pino := 1
  version := 1
  ino := 2
  type := dtDir
  name := ofChars "tmp"

def tmpNode : Node false := tmpDirent.node false (by decide) (by decide)

def tmpBlock : Block false smallDevice.erasesize where
  bytes := tmpNode.bytes ++ [0xff] ++ List.replicate 4052 0xff
  nodes := [tmpNode]
  holds := .node tmpNode rfl (.done (fun _ => by rw [List.length_replicate]; decide) (by decide))
  length_eq := by
    rw [List.length_append, List.length_replicate]
    rfl
  nonempty := List.cons_ne_nil _ _

def erasedBlock : EndBlock false smallDevice.erasesize where
  bytes := List.replicate 4096 0xff
  length_eq := List.length_replicate
  noMagic := by decide
  noWrongMagic := by decide

def emptyFile : File where
  path := .lit "a"
  stat := some ⟨0x81A4, 0, 0, 0, 0⟩
  content := some []

def startWriter : Writer where
  buf _ := 0
  ofs := 0
  globals := .initial
  disk := ⟨0, 0, [], false⟩

theorem tmpNode_spec : tmpNode.nodetype = nodetypeDirent ∧ tmpNode.pino = 1 ∧ tmpNode.version = 1 ∧
    tmpNode.entryIno = 2 ∧ tmpNode.name = ofChars "tmp" :=
  tmpDirent.node_spec false (by decide) (by decide)

theorem mtdWriteJffs2_wins_etc :
    ∃ w' made de,
      mtdWriteJffs2 false smallDevice (.lit "etc") emptyFile [tmpBlock.bytes, erasedBlock.bytes] startWriter =
        some (w', made, some de) ∧
      (Wins (.lit "etc") [tmpNode] w'.globals.targetIno made de ↔ MakesDir (.lit "etc") [tmpNode]) :=
  mtdWriteJffs2_wins_iff false smallDevice (by decide) (.lit "etc") (by decide) emptyFile _ rfl [tmpBlock]
    erasedBlock [] startWriter rfl

/-- The directory is there, and the version of the new entry is the one of the directory's. -/
theorem mtdWriteJffs2_tmp_not_wins :
    ∃ w' made de,
      mtdWriteJffs2 false smallDevice (.lit "tmp") emptyFile [tmpBlock.bytes, erasedBlock.bytes] startWriter =
        some (w', made, some de) ∧
      ¬ Wins (.lit "tmp") [tmpNode] w'.globals.targetIno made de := by
  obtain ⟨g, w', made, de, hrun, hglobals, hthere, -⟩ :=
    mtdWriteJffs2_spec smallDevice (.lit "tmp") (by decide) (by decide) emptyFile rfl [tmpBlock]
      erasedBlock [] startWriter rfl
  refine ⟨w', made, de, hrun, fun hwins => ?_⟩
  have htarget : g.targetIno = 2 ∧ g.lastVersion = 1 := by
    rw [hglobals]
    decide
  obtain ⟨-, hversion⟩ := hthere (by rw [htarget.1]; decide)
  have hlt := hwins.newest tmpNode List.mem_cons_self tmpNode_spec.1
  rw [hversion, htarget.2, tmpNode_spec.2.2.1] at hlt
  exact absurd hlt (by decide)

end Immwrt.Mtd.Jffs2
