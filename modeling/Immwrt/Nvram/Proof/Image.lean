import Immwrt.Nvram.Image
import Immwrt.Nvram.Proof.Store

/-!
# Commit and open

What `nvram_commit` leaves in the partition is the header and the text of the table, so `nvram_open`
reads the table back whenever it accepts the header. It accepts the length only if it is smaller than
the space behind the header, which a table that fills the last word is not.
-/

namespace Immwrt.Nvram

open Linked Handle

variable {tgt : Target}

/-! ### Text of a table -/

/-- The line of a tuple, as one string. -/
def lineOf (tuple : CString × CString) : CString :=
  ⟨tuple.1.bytes ++ eqChar :: tuple.2.bytes, by
    rw [List.mem_append, List.mem_cons]
    rintro (hname | heq | hvalue)
    · exact tuple.1.noNul hname
    · exact absurd heq (by decide)
    · exact tuple.2.noNul hvalue⟩

theorem length_encodeTuple (tuple : CString × CString) :
    (encodeTuple tuple).length = tuple.1.strlen + 1 + tuple.2.strlen + 1 := by
  simp only [encodeTuple, List.length_append, List.length_cons, List.length_nil, CString.strlen]
  omega

theorem rehashLines_cons (tuple : CString × CString) (hname : eqChar ∉ tuple.1.bytes) (fuel : Nat)
    (rest : List Byte) (h : Handle) :
    rehashLines tgt (fuel + 1) (encodeTuple tuple ++ rest) h =
      rehashLines tgt fuel rest (h.nvramSet tgt tuple.1 tuple.2).1 := by
  have hall : ∀ c ∈ tuple.1.bytes, decide (c ≠ eqChar) = true :=
    fun c hc => by simpa using fun heq : c = eqChar => hname (heq ▸ hc)
  have hbytes : encodeTuple tuple ++ rest = (lineOf tuple).bytes ++ 0 :: rest := by
    simp [encodeTuple, lineOf]
  have hline : (lineOf tuple).bytes = tuple.1.bytes ++ eqChar :: tuple.2.bytes := rfl
  have hmem : ¬ ((lineOf tuple).bytes = [] ∨ eqChar ∉ (lineOf tuple).bytes) := by
    simp [hline]
  have htake : (lineOf tuple).bytes.takeWhile (· ≠ eqChar) = tuple.1.bytes := by
    rw [hline, List.takeWhile_append_of_pos hall]
    simp
  have hdrop : ((lineOf tuple).bytes.dropWhile (· ≠ eqChar)).drop 1 = tuple.2.bytes := by
    rw [hline, List.dropWhile_append_of_pos hall]
    simp
  have hrest : ((lineOf tuple).bytes ++ 0 :: rest).drop ((lineOf tuple).bytes.length + 1) = rest := by
    rw [List.drop_append]
    simp
  rw [hbytes, rehashLines]
  simp only [CString.ofBytes_append, if_neg hmem, htake, hdrop, CString.ofBytes_bytes, hrest]

theorem rehashLines_text (tuples : List (CString × CString))
    (hnames : ∀ tuple ∈ tuples, eqChar ∉ tuple.1.bytes) (fuel : Nat) (hfuel : tuples.length < fuel)
    (rest : List Byte) (h : Handle) :
    rehashLines tgt fuel (tuples.flatMap encodeTuple ++ 0 :: rest) h =
      runOps tgt (tuples.map fun tuple => .set tuple.1 tuple.2) h := by
  induction tuples generalizing fuel h with
  | nil =>
    cases fuel with
    | zero => omega
    | succ fuel => simp [rehashLines, CString.ofBytes, runOps]
  | cons tuple tuples ih =>
    cases fuel with
    | zero => omega
    | succ fuel =>
      have hrest : ∀ tuple ∈ tuples, eqChar ∉ tuple.1.bytes :=
        fun tuple htuple => hnames tuple (List.mem_cons_of_mem _ htuple)
      rw [List.flatMap_cons, List.append_assoc,
        rehashLines_cons tuple (hnames tuple List.mem_cons_self),
        ih hrest fuel (Nat.lt_of_succ_lt_succ hfuel)]
      rfl

/-- Setting the tuples of a list with distinct names binds each of them. -/
theorem bindings_of_sets (room : Nat) {tuples : List (CString × CString)}
    (hnodup : (tuples.map Prod.fst).Nodup)
    (hfits : ∀ tuple ∈ tuples, tuple.2.strlen + 1 ≤ room) (bindings : CString → Option CString) :
    let result := (tuples.map fun tuple => Op.set tuple.1 tuple.2).foldl (Op.apply room) bindings
    (∀ tuple ∈ tuples, result tuple.1 = some tuple.2) ∧
      ∀ name, name ∉ tuples.map Prod.fst → result name = bindings name := by
  induction tuples generalizing bindings with
  | nil => exact ⟨by simp, fun _ _ => rfl⟩
  | cons tuple tuples ih =>
    rw [List.map_cons, List.nodup_cons] at hnodup
    have hshort : ¬ tuple.2.strlen + 1 > room := Nat.not_lt.2 (hfits tuple List.mem_cons_self)
    have hrest : ∀ tuple ∈ tuples, tuple.2.strlen + 1 ≤ room :=
      fun tuple htuple => hfits tuple (List.mem_cons_of_mem _ htuple)
    simp only [List.map_cons, List.foldl_cons, Op.apply, if_neg hshort]
    obtain ⟨hbound, hother⟩ := ih hnodup.2 hrest (Function.update bindings tuple.1 (some tuple.2))
    refine ⟨fun other hmem => ?_, fun name hname => ?_⟩
    · rcases List.mem_cons.1 hmem with rfl | hmem
      · rw [hother _ hnodup.1, Function.update_self]
      · exact hbound other hmem
    · rw [List.mem_cons, not_or] at hname
      rw [hother name hname.2, Function.update_of_ne hname.1]

/-! ### Rehash -/

/-- The variables that a table gets from the header. -/
def sdramNames : List CString :=
  [.lit "sdram_init", .lit "sdram_config", .lit "sdram_refresh", .lit "sdram_ncdl"]

/-- A table that got defaults for some of `names`. -/
structure Defaulted (tgt : Target) (names : List CString) (h h' : Handle) : Prop where
  wellFormed : WellFormed tgt h'
  sameMap : h.SameMap h'
  kept : ∀ name value, h.nvramGet tgt name = some value → h'.nvramGet tgt name = some value
  added : ∀ name, name ∉ names → h'.nvramGet tgt name = h.nvramGet tgt name

theorem Defaulted.setDefault {names : List CString} {h h' : Handle} (hdef : Defaulted tgt names h h')
    (name : CString) (hname : name ∈ names) (value : CString) :
    Defaulted tgt names h (h'.setDefault tgt name value) := by
  unfold Handle.setDefault
  split
  case isFalse => exact hdef
  case isTrue hnone =>
    obtain ⟨hwf, hsame, hget⟩ := hdef.wellFormed.step (.set name value)
    have hother : ∀ other, other ≠ name →
        (Op.step tgt h' (.set name value)).nvramGet tgt other = h'.nvramGet tgt other := by
      intro other hne
      rw [hget]
      simp only [Op.apply]
      split
      · rfl
      · rw [Function.update_of_ne hne]
    refine ⟨hwf, hdef.sameMap.trans hsame, fun other v hv => ?_, fun other hmem => ?_⟩
    · have hv' := hdef.kept other v hv
      have hne : other ≠ name := by
        rintro rfl
        rw [hv'] at hnone
        cases hnone
      exact (hother other hne).trans hv'
    · exact (hother other fun heq => hmem (heq ▸ hname)).trans (hdef.added other hmem)

/-- The table that a text describes, before the defaults. -/
theorem nvramRehash_text (tgt : Target) {h : Handle} {tuples : List (CString × CString)} {rest : List Byte}
    (htext : h.mmap.drop (h.offset.toNat + headerSize) = tuples.flatMap encodeTuple ++ 0 :: rest)
    (hnames : ∀ tuple ∈ tuples, eqChar ∉ tuple.1.bytes) (hnodup : (tuples.map Prod.fst).Nodup)
    (hfits : ∀ tuple ∈ tuples, tuple.2.strlen + 1 ≤ h.room) :
    h.SameMap (h.nvramRehash tgt) ∧
      (∀ tuple ∈ tuples, (h.nvramRehash tgt).nvramGet tgt tuple.1 = some tuple.2) ∧
      ∀ name, name ∉ tuples.map Prod.fst → name ∉ sdramNames →
        (h.nvramRehash tgt).nvramGet tgt name = none := by
  have hcount : tuples.length < h.mmap.length := by
    have hle : tuples.length ≤ (tuples.flatMap encodeTuple).length := by
      rw [List.length_flatMap, ← List.length_map (fun tuple => (encodeTuple tuple).length)]
      refine List.length_le_sum_of_one_le _ fun n hn => ?_
      obtain ⟨tuple, _, rfl⟩ := List.mem_map.1 hn
      rw [length_encodeTuple]
      omega
    have hlen := congrArg List.length htext
    rw [List.length_drop, List.length_append, List.length_cons] at hlen
    omega
  have hlines : rehashLines tgt h.nvramFree.mmap.length
      (h.nvramFree.mmap.drop (h.nvramFree.offset.toNat + headerSize)) h.nvramFree =
        runOps tgt (tuples.map fun tuple => .set tuple.1 tuple.2) h.nvramFree := by
    rw [show h.nvramFree.mmap = h.mmap from rfl, show h.nvramFree.offset = h.offset from rfl, htext]
    exact rehashLines_text tuples hnames _ hcount rest _
  obtain ⟨hwf, hsame, hget⟩ := (nvramFree_wellFormed tgt h).run
    (tuples.map fun tuple => .set tuple.1 tuple.2)
  have hempty : ∀ name, h.nvramFree.nvramGet tgt name = none := fun _ => rfl
  obtain ⟨hbound, hother⟩ := bindings_of_sets h.nvramFree.room hnodup hfits
    (h.nvramFree.nvramGet tgt)
  have hstart : Defaulted tgt sdramNames
      (runOps tgt (tuples.map fun tuple => .set tuple.1 tuple.2) h.nvramFree)
      (runOps tgt (tuples.map fun tuple => .set tuple.1 tuple.2) h.nvramFree) :=
    ⟨hwf, ⟨rfl, rfl, rfl⟩, fun _ _ hv => hv, fun _ _ => rfl⟩
  have hfilled : Defaulted tgt sdramNames
      (runOps tgt (tuples.map fun tuple => .set tuple.1 tuple.2) h.nvramFree)
      (h.nvramRehash tgt) := by
    simp only [nvramRehash, hlines]
    exact (((hstart.setDefault _ (by simp [sdramNames]) _).setDefault _ (by simp [sdramNames])
      _).setDefault _ (by simp [sdramNames]) _).setDefault _ (by simp [sdramNames]) _
  refine ⟨hsame.trans hfilled.sameMap, fun tuple htuple => ?_, fun name hname hsdram => ?_⟩
  · refine hfilled.kept _ _ ?_
    rw [hget]
    exact hbound tuple htuple
  · rw [hfilled.added name hsdram, hget]
    exact (hother name hname).trans (hempty name)

/-! ### The partition after a commit -/

theorem writeBucket_text (stop : Nat) (tuples : List (CString × CString)) (front rest : List Byte)
    (hfits : front.length + (tuples.flatMap encodeTuple).length ≤ stop) :
    writeBucket stop tuples (front ++ rest, front.length) =
      (front ++ tuples.flatMap encodeTuple ++ rest.drop (tuples.flatMap encodeTuple).length,
        front.length + (tuples.flatMap encodeTuple).length) := by
  induction tuples generalizing front rest with
  | nil => simp [writeBucket]
  | cons tuple tuples ih =>
    rw [List.flatMap_cons, List.length_append] at hfits ⊢
    have hshort :
        ¬ front.length + tuple.1.strlen + 1 + tuple.2.strlen + 1 > stop := by
      have hlen := length_encodeTuple tuple
      omega
    have hnext := ih (front ++ encodeTuple tuple) (rest.drop (encodeTuple tuple).length)
      (by rw [List.length_append]; omega)
    rw [writeBucket, if_neg hshort, splice_append _ _ _ rfl]
    rw [List.length_append] at hnext
    rw [hnext, List.drop_drop]
    simp [Nat.add_assoc]

/-- The tuples in the order in which they are written. -/
def allTuples (h : Handle) : List (CString × CString) :=
  (List.finRange nvramArraysize).flatMap h.bucketTuples

theorem writeBuckets_text (stop : Nat) (h : Handle) (buckets : List (Fin nvramArraysize))
    (front rest : List Byte)
    (hfits : front.length + ((buckets.flatMap h.bucketTuples).flatMap encodeTuple).length ≤ stop) :
    buckets.foldl (fun state i => writeBucket stop (h.bucketTuples i) state)
        (front ++ rest, front.length) =
      (front ++ (buckets.flatMap h.bucketTuples).flatMap encodeTuple ++
        rest.drop ((buckets.flatMap h.bucketTuples).flatMap encodeTuple).length,
        front.length + ((buckets.flatMap h.bucketTuples).flatMap encodeTuple).length) := by
  induction buckets generalizing front rest with
  | nil => simp
  | cons i buckets ih =>
    rw [List.flatMap_cons, List.flatMap_append, List.length_append] at hfits ⊢
    have hnext := ih (front ++ (h.bucketTuples i).flatMap encodeTuple)
      (rest.drop ((h.bucketTuples i).flatMap encodeTuple).length)
      (by rw [List.length_append]; omega)
    rw [List.foldl_cons, writeBucket_text stop _ _ _ (by omega)]
    rw [List.length_append] at hnext
    rw [hnext, List.drop_drop]
    simp [Nat.add_assoc]

theorem length_padding_le (addr ptr : Nat) (haddr : addr % 4 = 0) :
    (padding addr ptr).length ≤ if ptr % 4 = 0 then 0 else 8 - ptr % 4 := by
  unfold padding ptrMod4
  rw [BitVec.toInt_eq_toNat_cond, BitVec.toNat_ofNat]
  generalize hx : (addr + ptr) % 2 ^ 32 = x
  have hmod : x % 4 = ptr % 4 := by omega
  split
  · rw [Int.tmod_eq_emod_of_nonneg (by omega)]
    split_ifs <;> simp <;> omega
  · have hneg : ((x : Int) - (2 ^ 32 : Nat)).tmod 4 = -((2 ^ 32 - (x : Int)) % 4) := by
      rw [← neg_sub, Int.neg_tmod, Int.tmod_eq_emod_of_nonneg (by omega)]
      norm_num
    rw [hneg]
    split_ifs <;> simp <;> omega

theorem Header.length_bytes (hdr : Header) : hdr.bytes.length = headerSize := rfl

theorem Header.ofBytes_bytes (hdr : Header) : Header.ofBytes hdr.bytes = hdr := by
  have hmagic : getU32 hdr.bytes 0 = hdr.magic := getU32_of_slice rfl
  have hlen : getU32 hdr.bytes 4 = hdr.len := getU32_of_slice rfl
  have hcrc : getU32 hdr.bytes 8 = hdr.crcVerInit := getU32_of_slice rfl
  have hrefresh : getU32 hdr.bytes 12 = hdr.configRefresh := getU32_of_slice rfl
  have hncdl : getU32 hdr.bytes 16 = hdr.configNcdl := getU32_of_slice rfl
  rw [Header.ofBytes, hmagic, hlen, hcrc, hrefresh, hncdl]

/-- The state of a handle that `nvram_open` returned: the whole partition is mapped, and the header is
at the first magic number. -/
structure Mounted (h : Handle) : Prop where
  mapped : h.mmap.length = h.length.toNat
  lengthWords : h.length.toNat % 4 = 0
  offsetWords : h.offset.toNat % 4 = 0
  offsetInt : h.offset.toNat < 0x80000000
  space : h.offset.toNat + nvramMinSpace ≤ h.length.toNat
  first : ∀ i, 4 * i < h.offset.toNat → getU32 h.mmap (4 * i) ≠ nvramMagic

theorem Mounted.of_sameMap {h h' : Handle} (hm : Mounted h) (hsame : h.SameMap h') : Mounted h' := by
  obtain ⟨hmmap, hlength, hoffset⟩ := hsame
  exact ⟨by rw [hmmap, hlength]; exact hm.mapped, by rw [hlength]; exact hm.lengthWords,
    by rw [hoffset]; exact hm.offsetWords, by rw [hoffset]; exact hm.offsetInt,
    by rw [hoffset, hlength]; exact hm.space, by rw [hoffset, hmmap]; exact hm.first⟩

/-- The text of the table. -/
def tableText (h : Handle) : List Byte := (allTuples h).flatMap encodeTuple

/-- What follows the header after a commit. -/
def commitBody (addr : Nat) (h : Handle) : List Byte :=
  let ptr := h.offset.toNat + headerSize + (tableText h).length
  let pad := padding addr (ptr + 1)
  tableText h ++ 0 :: (pad ++ (List.replicate (h.length.toNat - h.offset.toNat - headerSize)
    0xFF).drop ((tableText h).length + 1 + pad.length))

def commitLen (h : Handle) : Word :=
  BitVec.ofNat 32 (nvramRoundup (headerSize + (tableText h).length + 2) 4)

/-- The checksum that a commit stores. -/
def commitCrc (tgt : Target) (addr : Nat) (h : Handle) : Byte :=
  let tmp : Header := { h.commitHeader tgt with magic := 0, len := 0 }
  hndcrc8 ((commitBody addr h).take ((commitLen h).toNat - headerSize))
    (hndcrc8 (tmp.bytes.drop nvramCrcStartPosition) 0xff)

/-- The header after a commit. -/
def finalHeader (tgt : Target) (addr : Nat) (h : Handle) : Header :=
  { h.commitHeader tgt with
    len := commitLen h
    crcVerInit := (h.commitHeader tgt).crcVerInit ||| (commitCrc tgt addr h).zeroExtend 32 }

/-- The partition after a commit. -/
def commitImage (tgt : Target) (addr : Nat) (h : Handle) : List Byte :=
  h.mmap.take h.offset.toNat ++ ((finalHeader tgt addr h).bytes ++ commitBody addr h)

theorem nvramCommit_eq (tgt : Target) {h : Handle} (hm : Mounted h) (addr : Nat)
    (hfits : h.offset.toNat + headerSize + (tableText h).length + 2 ≤ h.length.toNat) :
    let ptr := h.offset.toNat + headerSize + (tableText h).length
    h.nvramCommit tgt addr =
      if ptr + 1 + (padding addr (ptr + 1)).length > h.length.toNat then none
      else some (nvramRehash tgt { h with mmap := commitImage tgt addr h }) := by
  have hspace := hm.space
  have hmapped := hm.mapped
  unfold nvramMinSpace at hspace
  have hfront : (h.mmap.take h.offset.toNat).length = h.offset.toNat := by
    rw [List.length_take]
    omega
  generalize hpre : h.mmap.take h.offset.toNat = front at hfront
  have hput : (h.putHeader (h.commitHeader tgt)).mmap =
      (front ++ (h.commitHeader tgt).bytes) ++ h.mmap.drop (h.offset.toNat + headerSize) := by
    simp only [putHeader, splice, hpre, Header.length_bytes]
  have hhead : (front ++ (h.commitHeader tgt).bytes).length = h.offset.toNat + headerSize := by
    rw [List.length_append, hfront, Header.length_bytes]
  generalize harea : h.length.toNat - h.offset.toNat - headerSize = area
  have hclear : splice (h.putHeader (h.commitHeader tgt)).mmap (h.offset.toNat + headerSize)
      (List.replicate area 0xFF) =
        (front ++ (h.commitHeader tgt).bytes) ++ List.replicate area 0xFF := by
    rw [hput, splice_append _ _ _ hhead.symm, List.length_replicate, List.drop_drop,
      List.drop_eq_nil_of_le, List.append_nil]
    unfold headerSize at harea ⊢
    omega
  have hwrite := writeBuckets_text (h.length.toNat - 2) h (List.finRange nvramArraysize)
    (front ++ (h.commitHeader tgt).bytes) (List.replicate area 0xFF) (by
      rw [hhead]
      show _ + (tableText h).length ≤ _
      omega)
  rw [show ((List.finRange nvramArraysize).flatMap h.bucketTuples).flatMap encodeTuple =
    tableText h from rfl, hhead] at hwrite
  intro ptr
  have hptr : h.offset.toNat + headerSize + (tableText h).length = ptr := rfl
  rw [hptr] at hwrite
  clear_value ptr
  have htext : (front ++ (h.commitHeader tgt).bytes ++ tableText h).length = ptr := by
    rw [List.length_append, hhead, hptr]
  have hend : splice (front ++ (h.commitHeader tgt).bytes ++ tableText h ++
      (List.replicate area 0xFF).drop (tableText h).length) ptr [0] =
        front ++ (h.commitHeader tgt).bytes ++ (tableText h ++ [0]) ++
          (List.replicate area 0xFF).drop ((tableText h).length + 1) := by
    rw [splice_append _ _ _ htext.symm, List.drop_drop]
    simp only [List.length_singleton, List.append_assoc]
  have hlength : (front ++ (h.commitHeader tgt).bytes ++ (tableText h ++ [0]) ++
      (List.replicate area (0xFF : Byte)).drop ((tableText h).length + 1)).length =
        h.length.toNat := by
    rw [List.length_append, List.length_append, hhead, List.length_append, List.length_drop,
      List.length_replicate, List.length_singleton]
    omega
  have hpadded : splice (front ++ (h.commitHeader tgt).bytes ++ (tableText h ++ [0]) ++
      (List.replicate area 0xFF).drop ((tableText h).length + 1)) (ptr + 1)
        (padding addr (ptr + 1)) =
      front ++ ((h.commitHeader tgt).bytes ++ commitBody addr h) := by
    rw [splice_append _ _ _ (by rw [List.length_append, hhead]; simp; omega)]
    rw [List.drop_drop]
    simp only [commitBody, harea, List.append_assoc, List.cons_append, List.nil_append, hptr]
  have hbody : slice (front ++ ((h.commitHeader tgt).bytes ++ commitBody addr h))
      (h.offset.toNat + headerSize) ((commitLen h).toNat - headerSize) =
        (commitBody addr h).take ((commitLen h).toNat - headerSize) := by
    rw [← List.append_assoc, slice, ← hhead, List.drop_left]
  have hlen : nvramRoundup (ptr + 2 - h.offset.toNat) 4 =
      nvramRoundup (headerSize + (tableText h).length + 2) 4 := by
    congr 1
    omega
  have hfinal : Handle.putHeader
      { h with mmap := front ++ ((h.commitHeader tgt).bytes ++ commitBody addr h) }
      (finalHeader tgt addr h) = { h with mmap := commitImage tgt addr h } := by
    simp only [putHeader, commitImage, hpre]
    rw [splice_append _ _ _ hfront.symm, Header.length_bytes, ← Header.length_bytes
      (h.commitHeader tgt), List.drop_left, List.append_assoc]
  unfold nvramCommit
  simp only [harea, hclear, hwrite, hend, hlength, hpadded, hlen]
  split
  · rfl
  · rw [show BitVec.ofNat 32 (nvramRoundup (headerSize + (tableText h).length + 2) 4) =
      commitLen h from rfl, hbody, ← hfinal]
    simp only [finalHeader, commitCrc]

/-! ### Reading the partition back -/

section Committed

variable {h : Handle} {addr : Nat}

theorem length_commitBody
    (hroom : h.offset.toNat + headerSize + (tableText h).length + 1 +
      (padding addr (h.offset.toNat + headerSize + (tableText h).length + 1)).length ≤
        h.length.toNat) :
    (commitBody addr h).length = h.length.toNat - h.offset.toNat - headerSize := by
  simp only [commitBody, List.length_append, List.length_cons, List.length_drop,
    List.length_replicate]
  omega

theorem Mounted.length_front (hm : Mounted h) :
    (h.mmap.take h.offset.toNat).length = h.offset.toNat := by
  have hspace := hm.space
  rw [List.length_take, hm.mapped]
  omega

theorem slice_commitImage_header (hm : Mounted h) :
    slice (commitImage tgt addr h) h.offset.toNat headerSize = (finalHeader tgt addr h).bytes := by
  rw [commitImage, slice, List.drop_append_of_le_length hm.length_front.ge, List.drop_eq_nil_of_le
    hm.length_front.le, List.nil_append, ← Header.length_bytes (finalHeader tgt addr h),
    List.take_left]

theorem drop_commitImage (hm : Mounted h) :
    (commitImage tgt addr h).drop (h.offset.toNat + headerSize) = commitBody addr h := by
  have hlen : (h.mmap.take h.offset.toNat ++ (finalHeader tgt addr h).bytes).length =
      h.offset.toNat + headerSize := by
    rw [List.length_append, hm.length_front, Header.length_bytes]
  rw [commitImage, ← List.append_assoc, ← hlen, List.drop_left]

theorem findMagic_commitImage (hm : Mounted h)
    (hlength : (commitImage tgt addr h).length = h.length.toNat) :
    findMagic (commitImage tgt addr h) = some h.offset.toNat := by
  have hspace := hm.space
  have hwords := hm.offsetWords
  obtain ⟨k, hk⟩ : ∃ k, h.offset.toNat = 4 * k := ⟨h.offset.toNat / 4, by omega⟩
  have hhere : getU32 (commitImage tgt addr h) (4 * k) = nvramMagic := by
    refine getU32_of_slice ?_
    have hword := slice_slice (commitImage tgt addr h) h.offset.toNat headerSize 0 4 (by decide)
    rw [slice_commitImage_header hm, hk, Nat.add_zero] at hword
    rw [← hword]
    have hmagic : (finalHeader tgt addr h).magic = nvramMagic := by
      simp only [finalHeader, commitHeader]
      split <;> rfl
    rw [← hmagic]
    rfl
  have hbefore : ∀ j, j < k → getU32 (commitImage tgt addr h) (4 * j) ≠ nvramMagic := by
    intro j hj
    have hsame : slice (commitImage tgt addr h) (4 * j) 4 = slice h.mmap (4 * j) 4 := by
      have hfront := hm.length_front
      have hbefore : slice (h.mmap.take h.offset.toNat) (4 * j) 4 = slice h.mmap (4 * j) 4 :=
        slice_take (by omega)
      rw [← hbefore, commitImage, slice, slice,
        List.drop_append_of_le_length (by omega), List.take_append_of_le_length
          (by rw [List.length_drop]; omega)]
    rw [getU32_congr hsame]
    exact hm.first j (by omega)
  have hfind : (List.range ((h.length.toNat - nvramMinSpace) / 4 + 1)).find?
      (fun i => decide (getU32 (commitImage tgt addr h) (4 * i) = nvramMagic)) = some k := by
    rw [List.find?_range_eq_some]
    refine ⟨by simpa using hhere, List.mem_range.2 (by omega), fun j hj => ?_⟩
    simpa using hbefore j hj
  rw [findMagic, hlength, hfind, Option.map_some, hk]

theorem nvramHeader_commitImage (hm : Mounted h) (h' : Handle)
    (hmmap : h'.mmap = commitImage tgt addr h) (hoffset : h'.offset = h.offset) :
    h'.nvramHeader = finalHeader tgt addr h := by
  rw [nvramHeader, hmmap, hoffset, slice_commitImage_header hm, Header.ofBytes_bytes]

theorem nvramOpen_commitImage (hm : Mounted h)
    (hlength : (commitImage tgt addr h).length = h.length.toNat) :
    nvramOpen tgt (commitImage tgt addr h) false =
      if commitLen h < h.length - h.offset then
        some (nvramRehash tgt (freshHandle (commitImage tgt addr h) h.offset.toNat))
      else none := by
  have hint := hm.offsetInt
  generalize hfresh : freshHandle (commitImage tgt addr h) h.offset.toNat = fresh
  have hmmap : fresh.mmap = commitImage tgt addr h := by
    rw [← hfresh]
    rfl
  have hoffset : fresh.offset = h.offset := by
    rw [← hfresh, freshHandle, BitVec.ofNat_toNat, BitVec.setWidth_eq]
  have hlen : fresh.length = h.length := by
    rw [← hfresh, freshHandle, hlength, BitVec.ofNat_toNat, BitVec.setWidth_eq]
  have hmagic : (finalHeader tgt addr h).magic = nvramMagic := by
    simp only [finalHeader, commitHeader]
    split <;> rfl
  have hheader := nvramHeader_commitImage hm fresh hmmap hoffset
  have hfinal : (finalHeader tgt addr h).len = commitLen h := by
    rw [finalHeader]
  have hfilter : (some h.offset.toNat).filter (fun offset => decide (offset < 0x80000000)) =
      some h.offset.toNat := by
    rw [Option.filter_some, if_pos (decide_eq_true hint)]
  unfold nvramOpen
  rw [findMagic_commitImage hm hlength, hfilter, Option.bind_some, hfresh]
  dsimp only
  rw [hheader, hmagic, hfinal, hlen, hoffset]
  refine if_congr ?_ rfl rfl
  simp only [Bool.false_eq_true, false_or, true_and]

/-! ### The checksum -/

theorem extractLsb_or_crc (word : Word) (crc : Byte) {start : Nat} (hstart : 8 ≤ start) :
    (word ||| crc.zeroExtend 32).extractLsb' start 8 = word.extractLsb' start 8 := by
  ext i hi
  have hzero := BitVec.getLsbD_of_ge crc (start + i) (by omega)
  simp [hzero]

theorem setWidth_or_crc {word : Word} (crc : Byte) (hlow : word.extractLsb' 0 8 = 0) :
    ((word ||| crc.zeroExtend 32) &&& 0xFF).setWidth 8 = crc := by
  ext i hi
  have hbit : word.getLsbD i = false := by
    have hbits := congrArg (fun byte => byte.getLsbD i) hlow
    simpa [hi] using hbits
  have hmask : (0xFF : Word).getLsbD i = true := by
    interval_cases i <;> rfl
  rw [BitVec.getElem_setWidth, BitVec.getLsbD_and, BitVec.getLsbD_or, hbit, hmask, Bool.false_or,
    Bool.and_true, BitVec.getLsbD_setWidth, BitVec.getLsbD_eq_getElem hi]
  simp only [show i < 32 by omega, decide_true, Bool.true_and]

theorem commitHeader_low (h : Handle) :
    (h.commitHeader tgt).crcVerInit.extractLsb' 0 8 = 0 := by
  have hlow : ∀ word : Word, (nvramVersion <<< 8 ||| word <<< 16).extractLsb' 0 8 = 0 := by
    intro word
    ext i hi
    have hversion : (nvramVersion <<< 8).getLsbD i = false := by
      interval_cases i <;> rfl
    simp only [BitVec.getElem_extractLsb', Nat.zero_add, BitVec.getLsbD_or, hversion,
      BitVec.getLsbD_shiftLeft, Bool.false_or]
    simp
    omega
  simp only [commitHeader]
  split
  · exact hlow _
  · exact hlow _

theorem hndcrc8_append (front back : List Byte) (crc : Byte) :
    hndcrc8 (front ++ back) crc = hndcrc8 back (hndcrc8 front crc) :=
  List.foldl_append

theorem storedCrc_commitImage (hm : Mounted h) (h' : Handle)
    (hmmap : h'.mmap = commitImage tgt addr h) (hoffset : h'.offset = h.offset) :
    h'.storedCrc = commitCrc tgt addr h := by
  rw [storedCrc, nvramHeader_commitImage hm h' hmmap hoffset, finalHeader]
  exact setWidth_or_crc _ (commitHeader_low h)

/-- The bytes of the header that the checksum covers do not depend on the checksum. -/
theorem drop_finalHeader (h : Handle) :
    (finalHeader tgt addr h).bytes.drop nvramCrcStartPosition =
      ({ h.commitHeader tgt with magic := 0, len := 0 } : Header).bytes.drop
        nvramCrcStartPosition := by
  have htail : ∀ a b c d e : Word,
      (Header.bytes ⟨a, b, c, d, e⟩).drop nvramCrcStartPosition =
        [c.extractLsb' 8 8, c.extractLsb' 16 8, c.extractLsb' 24 8] ++ u32le d ++ u32le e :=
    fun _ _ _ _ _ => rfl
  rw [finalHeader, htail, htail, extractLsb_or_crc _ _ (by decide), extractLsb_or_crc _ _ (by decide),
    extractLsb_or_crc _ _ (by decide)]

theorem infoCrc_commitImage (hm : Mounted h) (h' : Handle)
    (hmmap : h'.mmap = commitImage tgt addr h) (hoffset : h'.offset = h.offset)
    (hlen : headerSize ≤ (commitLen h).toNat) :
    h'.infoCrc = commitCrc tgt addr h := by
  have hskip : (commitImage tgt addr h).drop (h.offset.toNat + nvramCrcStartPosition) =
      (finalHeader tgt addr h).bytes.drop nvramCrcStartPosition ++ commitBody addr h := by
    rw [← List.drop_drop, commitImage, List.drop_append_of_le_length hm.length_front.ge,
      List.drop_eq_nil_of_le hm.length_front.le, List.nil_append]
    exact List.drop_append_of_le_length (by rw [Header.length_bytes]; decide)
  have hcovered : ((finalHeader tgt addr h).bytes.drop nvramCrcStartPosition).length +
      ((commitLen h).toNat - headerSize) = (commitLen h).toNat - nvramCrcStartPosition := by
    rw [List.length_drop, Header.length_bytes]
    unfold headerSize nvramCrcStartPosition at *
    omega
  have hfinal : (finalHeader tgt addr h).len = commitLen h := by
    rw [finalHeader]
  rw [infoCrc, nvramHeader_commitImage hm h' hmmap hoffset, hfinal, hmmap, hoffset, slice, hskip,
    ← hcovered, List.take_length_add_append, hndcrc8_append, drop_finalHeader, commitCrc]

end Committed

/-! ### The round trip -/

/-- After a commit the partition opens for writing, every variable has its value, only `sdram_*`
variables were added, and the checksum is right. -/
def RoundTrips (tgt : Target) (addr : Nat) (h : Handle) : Prop :=
  ∃ h' h'', h.nvramCommit tgt addr = some h' ∧ nvramOpen tgt h'.mmap false = some h'' ∧
    (∀ name value, h.nvramGet tgt name = some value → h''.nvramGet tgt name = some value) ∧
    (∀ name, h.nvramGet tgt name = none → h''.nvramGet tgt name ≠ none → name ∈ sdramNames) ∧
    h'.infoCrc = h'.storedCrc

/-- The space for the header and the table. -/
def space (h : Handle) : Nat := h.length.toNat - h.offset.toNat

theorem roundup4_lt_iff {size bound : Nat} (hbound : bound % 4 = 0) :
    nvramRoundup (size + 2) 4 < bound ↔ size + 6 ≤ bound := by
  unfold nvramRoundup
  omega

theorem commitLen_lt_iff {h : Handle} (hm : Mounted h)
    (hfits : headerSize + (tableText h).length + 2 ≤ space h) :
    (commitLen h < h.length - h.offset ↔ headerSize + (tableText h).length + 6 ≤ space h) ∧
      headerSize ≤ (commitLen h).toNat := by
  have hwords : space h % 4 = 0 := by
    have hl := hm.lengthWords
    have ho := hm.offsetWords
    unfold space
    omega
  have hbound : space h < 2 ^ 32 := lt_of_le_of_lt (Nat.sub_le _ _) h.length.isLt
  have hroom : (h.length - h.offset).toNat = space h := by
    refine BitVec.toNat_sub_of_le (BitVec.le_def.2 ?_)
    exact (Nat.le_add_right _ _).trans hm.space
  have hlen : (commitLen h).toNat = nvramRoundup (headerSize + (tableText h).length + 2) 4 := by
    rw [commitLen, BitVec.toNat_ofNat, Nat.mod_eq_of_lt]
    refine lt_of_le_of_lt ?_ hbound
    unfold nvramRoundup
    omega
  rw [BitVec.lt_def, hlen, hroom, roundup4_lt_iff hwords]
  refine ⟨Iff.rfl, ?_⟩
  unfold nvramRoundup
  omega

theorem mem_allTuples {h : Handle} {xs : Root → List Ptr} (hrep : Represents tgt h xs)
    (name value : CString) :
    (name, value) ∈ allTuples h ↔ h.nvramGet tgt name = some value := by
  rw [← hrep.mem_nvramGetall, nvramGetall_eq_reverse, List.mem_reverse, allTuples]

theorem allTuples_nodup {h : Handle} {xs : Root → List Ptr} (hrep : Represents tgt h xs) :
    ((allTuples h).map Prod.fst).Nodup := by
  have hnodup := hrep.nvramGetall_nodup
  rwa [nvramGetall_eq_reverse, List.map_reverse, List.nodup_reverse] at hnodup

theorem value_fits {h : Handle} {tuple : CString × CString} (htuple : tuple ∈ allTuples h) :
    tuple.2.strlen + 1 ≤ (tableText h).length := by
  have hle : (encodeTuple tuple).length ≤ (tableText h).length := by
    rw [tableText, List.length_flatMap]
    exact List.single_le_sum (by simp) _ (List.mem_map.2 ⟨tuple, htuple, rfl⟩)
  rw [length_encodeTuple] at hle
  omega

/-- What a table that is filled from the image of a commit holds. -/
theorem nvramRehash_commitImage {h : Handle} {xs : Root → List Ptr} (hrep : Represents tgt h xs)
    (hm : Mounted h) (addr : Nat)
    (hnames : ∀ name value, h.nvramGet tgt name = some value → eqChar ∉ name.bytes)
    (hfits : headerSize + (tableText h).length + 2 ≤ space h) (h' : Handle)
    (hmmap : h'.mmap = commitImage tgt addr h) (hlength : h'.length = h.length)
    (hoffset : h'.offset = h.offset) :
    h'.SameMap (h'.nvramRehash tgt) ∧
      (∀ name value, h.nvramGet tgt name = some value →
        (h'.nvramRehash tgt).nvramGet tgt name = some value) ∧
      ∀ name, h.nvramGet tgt name = none → (h'.nvramRehash tgt).nvramGet tgt name ≠ none →
        name ∈ sdramNames := by
  have hroom : h'.room = space h := by
    rw [Handle.room, hlength, hoffset]
    refine BitVec.toNat_sub_of_le (BitVec.le_def.2 ?_)
    exact (Nat.le_add_right _ _).trans hm.space
  obtain ⟨rest, hrest⟩ : ∃ rest, commitBody addr h = tableText h ++ 0 :: rest := ⟨_, rfl⟩
  have htext : h'.mmap.drop (h'.offset.toNat + headerSize) =
      (allTuples h).flatMap encodeTuple ++ 0 :: rest := by
    rw [hmmap, hoffset, drop_commitImage hm, hrest, tableText]
  obtain ⟨hsame, hbound, hother⟩ := nvramRehash_text tgt htext
    (fun tuple htuple => hnames _ _ ((mem_allTuples hrep tuple.1 tuple.2).1 htuple))
    (allTuples_nodup hrep) (fun tuple htuple => by
      have hvalue := value_fits htuple
      rw [hroom]
      omega)
  refine ⟨hsame, fun name value hget => ?_, fun name hnone hsome => ?_⟩
  · exact hbound (name, value) ((mem_allTuples hrep name value).2 hget)
  · by_contra hsdram
    refine hsome (hother name (fun hmem => ?_) hsdram)
    obtain ⟨⟨_, value⟩, htuple, rfl⟩ := List.mem_map.1 hmem
    rw [mem_allTuples hrep] at htuple
    exact absurd (hnone.symm.trans htuple) (by simp)

theorem length_commitImage (tgt : Target) {h : Handle} (hm : Mounted h) {addr : Nat}
    (hroom : h.offset.toNat + headerSize + (tableText h).length + 1 +
      (padding addr (h.offset.toNat + headerSize + (tableText h).length + 1)).length ≤
        h.length.toNat) :
    (commitImage tgt addr h).length = h.length.toNat := by
  have hoff := hm.space
  rw [commitImage, List.length_append, List.length_append, Header.length_bytes,
    length_commitBody hroom, hm.length_front]
  unfold headerSize at *
  omega

theorem RoundTrips.short {addr : Nat} {h : Handle} (hwf : WellFormed tgt h) (hm : Mounted h)
    (hnames : ∀ name value, h.nvramGet tgt name = some value → eqChar ∉ name.bytes)
    (hfits : headerSize + (tableText h).length + 2 ≤ space h) (htrip : RoundTrips tgt addr h) :
    headerSize + (tableText h).length + 6 ≤ space h := by
  obtain ⟨xs, hrep⟩ := hwf
  obtain ⟨h', h'', heq, hopen, -⟩ := htrip
  have hsaved := nvramRehash_commitImage hrep hm addr hnames hfits
    { h with mmap := commitImage tgt addr h } rfl rfl rfl
  rw [nvramCommit_eq tgt hm addr (by unfold space at hfits; omega)] at heq
  split at heq
  · cases heq
  · obtain rfl := Option.some.inj heq
    rw [hsaved.1.1, nvramOpen_commitImage hm (length_commitImage tgt hm (by omega))] at hopen
    rw [← (commitLen_lt_iff hm hfits).1]
    by_contra hlong
    rw [if_neg hlong] at hopen
    cases hopen

theorem roundTrips_of_short {addr : Nat} {h : Handle} (hwf : WellFormed tgt h) (hm : Mounted h)
    (haddr : addr % 4 = 0)
    (hnames : ∀ name value, h.nvramGet tgt name = some value → eqChar ∉ name.bytes)
    (hshort : headerSize + (tableText h).length + 6 ≤ space h) : RoundTrips tgt addr h := by
  obtain ⟨xs, hrep⟩ := hwf
  have hfits : headerSize + (tableText h).length + 2 ≤ space h := by omega
  obtain ⟨hlen, hheader⟩ := commitLen_lt_iff hm hfits
  have hroom : h.offset.toNat + headerSize + (tableText h).length + 1 +
      (padding addr (h.offset.toNat + headerSize + (tableText h).length + 1)).length ≤
        h.length.toNat := by
    have hpad := length_padding_le addr
      (h.offset.toNat + headerSize + (tableText h).length + 1) haddr
    have hl := hm.lengthWords
    unfold space at hshort
    split at hpad <;> omega
  have hcommit := nvramCommit_eq tgt hm addr (by unfold space at hfits; omega)
  have hlength := length_commitImage tgt hm hroom
  have hsaved := nvramRehash_commitImage hrep hm addr hnames hfits
    { h with mmap := commitImage tgt addr h } rfl rfl rfl
  have hfresh := nvramRehash_commitImage hrep hm addr hnames hfits
    (freshHandle (commitImage tgt addr h) h.offset.toNat) rfl
    (by rw [freshHandle, hlength, BitVec.ofNat_toNat, BitVec.setWidth_eq])
    (by rw [freshHandle, BitVec.ofNat_toNat, BitVec.setWidth_eq])
  refine ⟨_, _, hcommit.trans (if_neg (Nat.not_lt.2 hroom)), ?_, hfresh.2.1, hfresh.2.2, ?_⟩
  · rw [hsaved.1.1, nvramOpen_commitImage hm hlength, if_pos (hlen.2 hshort)]
  · rw [infoCrc_commitImage hm _ hsaved.1.1 hsaved.1.2.2 hheader,
      storedCrc_commitImage hm _ hsaved.1.1 hsaved.1.2.2]

theorem rehashLines_keeps {h : Handle} (hwf : WellFormed tgt h) (fuel : Nat) (bytes : List Byte) :
    WellFormed tgt (rehashLines tgt fuel bytes h) ∧ h.SameMap (rehashLines tgt fuel bytes h) := by
  induction fuel generalizing bytes h with
  | zero => exact ⟨hwf, ⟨rfl, rfl, rfl⟩⟩
  | succ fuel ih =>
    rw [rehashLines]
    dsimp only
    split
    · exact ⟨hwf, ⟨rfl, rfl, rfl⟩⟩
    · obtain ⟨hset, hsame, -⟩ := hwf.step (.set _ _)
      obtain ⟨hrest, hsame'⟩ := ih hset _
      exact ⟨hrest, hsame.trans hsame'⟩

theorem nvramRehash_keeps (tgt : Target) (h : Handle) :
    WellFormed tgt (h.nvramRehash tgt) ∧ h.SameMap (h.nvramRehash tgt) := by
  obtain ⟨hwf, hsame⟩ := rehashLines_keeps (nvramFree_wellFormed tgt h) h.nvramFree.mmap.length
    (h.nvramFree.mmap.drop (h.nvramFree.offset.toNat + headerSize))
  have hstart : Defaulted tgt sdramNames _ _ :=
    ⟨hwf, ⟨rfl, rfl, rfl⟩, fun _ _ hv => hv, fun _ _ => rfl⟩
  have hfilled := (((hstart.setDefault (.lit "sdram_init") (by simp [sdramNames])
    (sprintfHex 4 (h.nvramHeader.crcVerInit >>> 16).toNat)).setDefault
      (.lit "sdram_config") (by simp [sdramNames])
      (sprintfHex 4 (h.nvramHeader.configRefresh &&& 0xffff).toNat)).setDefault
      (.lit "sdram_refresh") (by simp [sdramNames])
      (sprintfHex 4 (h.nvramHeader.configRefresh >>> 16 &&& 0xffff).toNat)).setDefault
      (.lit "sdram_ncdl") (by simp [sdramNames])
      (sprintfHex 8 h.nvramHeader.configNcdl.toNat)
  exact ⟨hfilled.wellFormed, hsame.trans hfilled.sameMap⟩

/-- Every handle that `nvram_open` returns has a well-formed table and its header at the first magic
number. -/
theorem nvramOpen_mounted {mem : List Byte} {rdonly : Bool} {h : Handle}
    (hwords : mem.length % 4 = 0) (hspace : nvramMinSpace ≤ mem.length)
    (hsize : mem.length < 2 ^ 32) (hopen : nvramOpen tgt mem rdonly = some h) :
    WellFormed tgt h ∧ Mounted h := by
  unfold nvramOpen at hopen
  obtain ⟨offset, hfind, hopen⟩ := Option.bind_eq_some_iff.1 hopen
  obtain ⟨hfind, hint⟩ := Option.filter_eq_some_iff.1 hfind
  dsimp only at hopen
  split at hopen
  case isFalse => cases hopen
  case isTrue =>
    obtain rfl := Option.some.inj hopen
    obtain ⟨hwf, hsame⟩ := nvramRehash_keeps tgt (freshHandle mem offset)
    refine ⟨hwf, Mounted.of_sameMap ?_ hsame⟩
    obtain ⟨k, hk, rfl⟩ := Option.map_eq_some_iff.1 hfind
    rw [List.find?_range_eq_some] at hk
    obtain ⟨-, hmem, hfirst⟩ := hk
    rw [List.mem_range] at hmem
    have hint : 4 * k < 0x80000000 := by simpa using hint
    have hlength : (freshHandle mem (4 * k)).length.toNat = mem.length := by
      rw [freshHandle, BitVec.toNat_ofNat, Nat.mod_eq_of_lt hsize]
    have hoffset : (freshHandle mem (4 * k)).offset.toNat = 4 * k := by
      rw [freshHandle, BitVec.toNat_ofNat, Nat.mod_eq_of_lt (by omega)]
    refine ⟨hlength.symm, by rw [hlength]; exact hwords, by rw [hoffset]; omega,
      by rw [hoffset]; exact hint, by rw [hoffset, hlength]; omega, fun i hi => ?_⟩
    rw [hoffset] at hi
    change getU32 mem (4 * i) ≠ nvramMagic
    simpa using hfirst i (by omega)

/-! ### A partition with one variable -/

def varName : CString := .lit "v"

def varValue (size : Nat) : CString :=
  ⟨List.replicate size 0x61, fun hmem => absurd (List.eq_of_mem_replicate hmem) (by decide)⟩

/-- A partition of 32 KiB that holds nothing but a magic number. -/
def blankPartition : List Byte := u32le nvramMagic ++ List.replicate 0x7FFC 0

/-- The partition, opened, with the variable set to a value of `size` bytes. -/
def oneVariable (tgt : Target) (size : Nat) : Handle :=
  ((freshHandle blankPartition 0).nvramSet tgt varName (varValue size)).1

structure OneVariable (tgt : Target) (size : Nat) : Prop where
  wellFormed : WellFormed tgt (oneVariable tgt size)
  mounted : Mounted (oneVariable tgt size)
  names : ∀ name value, (oneVariable tgt size).nvramGet tgt name = some value → eqChar ∉ name.bytes
  text : (tableText (oneVariable tgt size)).length = size + 3
  space : space (oneVariable tgt size) = 0x8000

theorem oneVariable_spec (tgt : Target) (size : Nat) (hsize : size < 0x8000) :
    OneVariable tgt size := by
  have hlength : blankPartition.length = 0x8000 := by
    rw [blankPartition, List.length_append, length_u32le, List.length_replicate]
  have hword : (freshHandle blankPartition 0).length = 0x8000 := by
    rw [freshHandle, hlength]
    rfl
  have hroom : (freshHandle blankPartition 0).room = 0x8000 := by
    rw [Handle.room, hword]
    rfl
  have hfresh : WellFormed tgt (freshHandle blankPartition 0) :=
    nvramFree_wellFormed tgt (freshHandle blankPartition 0)
  have hmounted : Mounted (freshHandle blankPartition 0) := by
    refine ⟨?_, ?_, by decide, by decide, ?_, fun i hi => absurd hi (by simp [freshHandle])⟩
    · rw [hword]
      exact hlength
    · rw [hword]
      decide
    · rw [hword]
      decide
  have hshort : ¬ (varValue size).strlen + 1 > (freshHandle blankPartition 0).room := by
    rw [hroom, CString.strlen, varValue, List.length_replicate]
    omega
  obtain ⟨hwf, hsame, hget⟩ := hfresh.step (.set varName (varValue size))
  have hstep : Op.step tgt (freshHandle blankPartition 0) (.set varName (varValue size)) =
      oneVariable tgt size := rfl
  have hempty : (freshHandle blankPartition 0).nvramGet tgt = fun _ => none := rfl
  rw [hstep] at hwf hsame hget
  simp only [Op.apply, if_neg hshort, hempty] at hget
  have hbound : ∀ name value, (oneVariable tgt size).nvramGet tgt name = some value ↔
      (name, value) = (varName, varValue size) := by
    intro name value
    rw [hget]
    by_cases hname : name = varName
    · subst hname
      simp [eq_comm]
    · simp [hname]
  obtain ⟨xs, hrep⟩ := hwf
  have htuples : allTuples (oneVariable tgt size) = [(varName, varValue size)] := by
    refine List.perm_singleton.1 ((List.perm_ext_iff_of_nodup ?_ (List.nodup_singleton _)).2 ?_)
    · exact (allTuples_nodup hrep).of_map _
    · intro tuple
      rw [List.mem_singleton]
      exact (mem_allTuples hrep tuple.1 tuple.2).trans (hbound tuple.1 tuple.2)
  refine ⟨⟨xs, hrep⟩, hmounted.of_sameMap hsame, fun name value hval => ?_, ?_, ?_⟩
  · rw [(Prod.mk.inj ((hbound name value).1 hval)).1]
    decide
  · rw [tableText, htuples, List.flatMap_singleton, length_encodeTuple]
    simp only [CString.strlen, varValue, List.length_replicate, show varName.bytes.length = 1 by rfl]
    omega
  · unfold Nvram.space
    rw [hsame.2.1, hsame.2.2, hword]
    rfl

end Immwrt.Nvram
