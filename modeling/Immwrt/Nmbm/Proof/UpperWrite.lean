import Immwrt.Nmbm.Proof.Upper

/-!
# What a write through the MTD device puts where

A request with a spare buffer sends page `k` of the data together with page `k` of the spare bytes,
but a cache is refilled only while there are bytes for it, so the shorter of the two repeats its last
page; and the 32-bit mask moves a request above 4 GiB down. A request for data alone fills the
instance's cache in front of the data and not behind it.
-/

namespace Immwrt.Nmbm

variable {nld : LowerDevice} {oobavail : Nat} {s s' : Sys}

/-! ### Page addresses -/

theorem Geometry.writesize_dvd_word (hg : Geometry nld) : nld.writesize ∣ 2 ^ 32 := by
  have hpow : isPowerOf2 nld.writesize = true := by
    have hchecked := hg.checked
    unfold checkLowerMembers at hchecked
    by_contra hnot
    simp [hnot] at hchecked
  have hlt : nld.writesize < 2 ^ 32 := by
    have hle : nld.writesize ≤ nld.stateTableOff := by
      rw [LowerDevice.stateTableOff, align]
      apply Nat.le_mul_of_pos_left
      apply Nat.div_pos _ hg.writesize_pos
      unfold infoTableHeaderSize
      omega
    have := hg.layout
    have := hg.fits
    omega
  simp only [isPowerOf2, Bool.and_eq_true, bne_iff_ne, beq_iff_eq] at hpow
  obtain ⟨k, hk⟩ := Nat.ne_zero_and_sub_one_eq_zero_iff_isPowerOfTwo.1 hpow
  rw [hk] at hlt ⊢
  exact Nat.pow_dvd_pow 2 (Nat.pow_lt_pow_iff_right (by omega) |>.1 hlt).le

theorem maskPage_lt (nld : LowerDevice) (addr : Nat) : maskPage nld addr < 2 ^ 32 := by
  have := Nat.mod_lt addr (show 0 < 2 ^ 32 by decide)
  unfold maskPage
  omega

theorem maskPage_of_lt {addr : Nat} (h : addr < 2 ^ 32) :
    maskPage nld addr = addr - addr % nld.writesize := by
  rw [maskPage, Nat.mod_eq_of_lt h]

/-- Above 4 GiB the first page of a request is another one. -/
theorem word_le_page (hg : Geometry nld) {addr : Nat} (h : 2 ^ 32 ≤ addr) :
    2 ^ 32 ≤ addr - addr % nld.writesize := by
  obtain ⟨k, hk⟩ := hg.writesize_dvd_word
  have hpos := hg.writesize_pos
  have hpage : addr - addr % nld.writesize = nld.writesize * (addr / nld.writesize) := by
    have := Nat.mod_add_div addr nld.writesize
    omega
  rw [hpage, hk]
  apply Nat.mul_le_mul_left
  rw [Nat.le_div_iff_mul_le hpos, Nat.mul_comm, ← hk]
  exact h

theorem lt_pageCount_iff {room k : Nat} {st : List Byte} (hroom : 0 < room) :
    k < pageCount room st ↔ k * room < st.length := by
  rw [pageCount, ← Nat.succ_le_iff, Nat.le_div_iff_mul_le hroom, Nat.succ_mul]
  omega

/-! ### A request with spare bytes -/

/-- The request passes the checks of `nmbm_mtd_write_oob` on a device with `count` blocks and has a
spare buffer. -/
structure Accepted (nld : LowerDevice) (oobavail count addr : Nat) (ops : OobOps) : Prop where
  oobbuf : ops.oobbuf.isSome = true
  data_le : addr + ops.data.length ≤ nld.ba2addr count
  ooboffs_lt : ops.ooboffs < mtdOobavail nld oobavail ops.mode
  addr_lt : addr < nld.ba2addr count
  oob_le : ops.ooboffs + ops.oob.length ≤
    (nld.ba2addr count / nld.writesize - addr / nld.writesize) * mtdOobavail nld oobavail ops.mode

/-- Page `k` of the data of a request, with `0xff` where it has no byte. -/
def OobOps.dataPage (nld : LowerDevice) (ops : OobOps) (addr k : Nat) : List Byte :=
  pageOf nld.writesize nld.writesize (stream (addr % nld.writesize) ops.data) k

/-- Page `k` of its spare bytes. -/
def OobOps.oobPage (nld : LowerDevice) (oobavail : Nat) (ops : OobOps) (k : Nat) : List Byte :=
  pageOf nld.oobsize (mtdOobavail nld oobavail ops.mode) (stream ops.ooboffs ops.oob) k

/-- Pages that the data of a request covers. -/
def OobOps.dataPages (nld : LowerDevice) (ops : OobOps) (addr : Nat) : Nat :=
  pageCount nld.writesize (stream (addr % nld.writesize) ops.data)

def OobOps.oobPages (nld : LowerDevice) (oobavail : Nat) (ops : OobOps) : Nat :=
  pageCount (mtdOobavail nld oobavail ops.mode) (stream ops.ooboffs ops.oob)

/-- What the main area of a page receives: without data it is not programmed and stays `0xff`. -/
def PageWrite.main (nld : LowerDevice) (p : PageWrite) : List Byte :=
  p.data.getD (List.replicate nld.writesize 0xff)

def PageWrite.spare (nld : LowerDevice) (p : PageWrite) : List Byte :=
  p.oob.getD (List.replicate nld.oobsize 0xff)

/-- Page `k` that was handed down is page `k` of the request, with its slices of the two buffers; all
pages were handed down if nothing failed. -/
structure PlacesSlices (nld : LowerDevice) (oobavail addr : Nat) (ops : OobOps)
    (r : Int × List PageWrite) : Prop where
  page : ∀ k p, r.2[k]? = some p → p.addr = addr - addr % nld.writesize + k * nld.writesize ∧
    p.main nld = ops.dataPage nld addr k ∧ p.spare nld = ops.oobPage nld oobavail k
  all : r.1 = 0 → r.2.length = max (ops.dataPages nld addr) (ops.oobPages nld oobavail)

/-- The pages of an accepted request. -/
def OobOps.pages (nld : LowerDevice) (oobavail : Nat) (ops : OobOps) (addr : Nat) : List PageWrite :=
  (List.range (max (ops.dataPages nld addr) (ops.oobPages nld oobavail))).map fun k =>
    ⟨maskPage nld addr + k * nld.writesize,
      cacheAt nld.writesize nld.writesize (stream (addr % nld.writesize) ops.data) none k,
      cacheAt nld.oobsize (mtdOobavail nld oobavail ops.mode) (stream ops.ooboffs ops.oob) none k⟩

section

variable (hg : Geometry nld) {count addr : Nat} {ops : OobOps}
  (h : Accepted nld oobavail count addr ops)
include hg h

theorem Accepted.page_lt {k : Nat}
    (hk : k < max (ops.dataPages nld addr) (ops.oobPages nld oobavail)) :
    maskPage nld addr + k * nld.writesize < nld.ba2addr count := by
  have hws := hg.writesize_pos
  have hmask : maskPage nld addr ≤ addr - addr % nld.writesize := by
    have hle := Nat.mod_le addr (2 ^ 32)
    have hmod : addr % 2 ^ 32 % nld.writesize = addr % nld.writesize :=
      Nat.mod_mod_of_dvd addr hg.writesize_dvd_word
    unfold maskPage
    omega
  have hmod := Nat.mod_add_div addr nld.writesize
  rcases lt_max_iff.1 hk with hk | hk
  · have hne : ops.data ≠ [] := by
      intro hnil
      rw [OobOps.dataPages, hnil] at hk
      simp [stream, pageCount_nil hws] at hk
    rw [OobOps.dataPages, lt_pageCount_iff hws, length_stream hne] at hk
    have := h.data_le
    have := Nat.mod_le addr nld.writesize
    omega
  · have hmax : 0 < mtdOobavail nld oobavail ops.mode := by
      have := h.ooboffs_lt
      omega
    have hne : ops.oob ≠ [] := by
      intro hnil
      rw [OobOps.oobPages, hnil] at hk
      simp [stream, pageCount_nil hmax] at hk
    rw [OobOps.oobPages, lt_pageCount_iff hmax, length_stream hne] at hk
    have hlt : k < nld.ba2addr count / nld.writesize - addr / nld.writesize :=
      Nat.lt_of_mul_lt_mul_right (hk.trans_le h.oob_le)
    have hpage : (addr / nld.writesize + k + 1) * nld.writesize ≤ nld.ba2addr count := by
      refine (Nat.mul_le_mul_right _ (show _ ≤ nld.ba2addr count / nld.writesize by omega)).trans ?_
      exact Nat.div_mul_le_self _ _
    rw [Nat.add_mul, Nat.add_mul, Nat.mul_comm (addr / nld.writesize)] at hpage
    omega

omit hg in
/-- Neither check refuses the request. -/
theorem Accepted.not_beyond (hcount : s.ni.dataBlockCount = count) :
    ops.dataBeyond nld s.ni addr = false ∧ ops.oobBeyond nld oobavail s.ni addr = false := by
  have hsize : upperSize nld s.ni = nld.ba2addr count := by rw [upperSize, hcount]
  constructor
  · have hle := (Nat.mod_le (addr + ops.data.length) (2 ^ 64)).trans h.data_le
    rw [OobOps.dataBeyond, hsize, Bool.and_eq_false_iff]
    exact .inr (by simpa using hle)
  · have h1 := h.ooboffs_lt
    have h2 := h.addr_lt
    have h3 := h.oob_le
    simp only [OobOps.oobBeyond, hsize, Bool.or_eq_false_iff, decide_eq_false_iff_not]
    exact ⟨⟨by omega, by omega⟩, by omega⟩

omit hg in
theorem Accepted.isNone_eq : ops.oobbuf.isNone = false := by
  rw [Option.isNone_eq_false_iff]
  exact h.oobbuf

omit hg in
theorem Accepted.mtdWriteOob_eq (hcount : s.ni.dataBlockCount = count) (pageCache : List Byte) :
    mtdWriteOob nld oobavail pageCache addr ops s = mtdWriteData nld oobavail pageCache addr ops s := by
  obtain ⟨hdata, hoob⟩ := h.not_beyond hcount
  rw [mtdWriteOob, hdata, hoob, h.isNone_eq]
  simp

theorem Accepted.requestPages_eq (datcache oobcache : Option (List Byte))
    (hdat : ops.data = [] → datcache = none) (hspare : ops.oob = [] → oobcache = none) :
    requestPages nld (mtdOobavail nld oobavail ops.mode) (ops.data.length + ops.oob.length)
        (maskPage nld addr) (stream (addr % nld.writesize) ops.data) (stream ops.ooboffs ops.oob)
        datcache oobcache = ops.pages nld oobavail addr := by
  have hws := hg.writesize_pos
  have hmax : 0 < mtdOobavail nld oobavail ops.mode := by
    have := h.ooboffs_lt
    omega
  have hcount : ∀ {room off : Nat} (bytes : List Byte), 0 < room → off < room →
      pageCount room (stream off bytes) ≤ bytes.length := by
    intro room off bytes hroom hoff
    by_cases hnil : bytes = []
    · simp [hnil, stream, pageCount_nil hroom]
    · by_contra hlt
      have hlt := (lt_pageCount_iff hroom).1 (not_le.1 hlt)
      rw [length_stream hnil] at hlt
      have hpos := List.length_pos_of_ne_nil hnil
      have hmul : bytes.length + room ≤ bytes.length * room + 1 := by nlinarith
      omega
  have hn := max_le
    ((hcount ops.data hws (Nat.mod_lt addr hws)).trans (Nat.le_add_right _ ops.oob.length))
    ((hcount ops.oob hmax h.ooboffs_lt).trans (Nat.le_add_left _ ops.data.length))
  have hcache : ∀ {size room off : Nat} {bytes : List Byte} {cache : Option (List Byte)} (k : Nat),
      (bytes = [] → cache = none) →
      cacheAt size room (stream off bytes) cache k = cacheAt size room (stream off bytes) none k := by
    intro size room off bytes cache k hcache
    unfold cacheAt
    split
    · rename_i hnil
      exact hcache (stream_eq_nil.1 (List.isEmpty_iff.1 hnil))
    · rfl
  rw [Nmbm.requestPages_eq hws hmax hn, OobOps.pages]
  apply List.map_congr_left
  intro k _
  rw [hcache k hdat, hcache k hspare]

theorem Accepted.mtdWriteData_handDown (hcount : s.ni.dataBlockCount = count)
    (hopen : s.ni.refuses nld = false) (pageCache : List Byte) :
    (mtdWriteData nld oobavail pageCache addr ops s).1 =
      handDown nld ops.mode (ops.pages nld oobavail addr) s := by
  have hws := hg.writesize_pos
  have hpages := h.requestPages_eq hg
    (if ops.data.isEmpty then none else some (pageCache.take nld.writesize))
    (if ops.oob.isEmpty then none else some (pageCache.drop nld.writesize))
    (fun hnil => by simp [hnil]) (fun hnil => by simp [hnil])
  rw [mtdWriteData, mtdWriteDataLoop_handDown (Nat.mod_lt addr hws).le h.ooboffs_lt.le, hpages]
  intro p hp
  rw [hpages, OobOps.pages, List.mem_map] at hp
  obtain ⟨k, hk, rfl⟩ := hp
  have hlt := h.page_lt hg (List.mem_range.1 hk)
  simp only [passes, hopen, upperSize, hcount, Bool.not_false, Bool.true_and, decide_eq_true_eq]
  exact hlt

end

theorem neg_erofs_ne_zero : -erofs ≠ 0 := by decide

variable (oobavail) in
/-- A device that is not to be written to hands nothing down. -/
theorem mtdWriteData_refuses (hrefuses : s.ni.refuses nld = true) (pageCache : List Byte)
    (addr : Nat) (ops : OobOps) :
    (mtdWriteData nld oobavail pageCache addr ops s).1.2 = [] ∧
      ((mtdWriteData nld oobavail pageCache addr ops s).1.1 = 0 → ops.data = [] ∧ ops.oob = []) := by
  rw [mtdWriteData]
  rcases hn : ops.data.length + ops.oob.length with _ | n
  · exact ⟨rfl, fun _ => ⟨List.eq_nil_of_length_eq_zero (by omega),
      List.eq_nil_of_length_eq_zero (by omega)⟩⟩
  · have hmore : (ops.data.isEmpty && ops.oob.isEmpty) = false := by
      rw [Bool.and_eq_false_iff]
      by_cases hdat : ops.data = []
      · refine .inr ?_
        rw [hdat, List.length_nil] at hn
        rw [List.isEmpty_eq_false_iff]
        rintro hnil
        rw [hnil, List.length_nil] at hn
        omega
      · exact .inl (by simpa using hdat)
    rw [mtdWriteDataLoop, hmore, if_neg (by simp)]
    simp only [writeSinglePage, hrefuses, if_true, passes, Bool.not_true, Bool.false_and,
      Bool.false_eq_true, if_false]
    rw [if_pos (by decide)]
    exact ⟨rfl, fun hzero => absurd hzero neg_erofs_ne_zero⟩

/-- What a page of an accepted request receives. -/
theorem cacheAt_getD {size room : Nat} (hroom : 0 < room) (st : List Byte) (k : Nat) :
    (cacheAt size room st none k).getD (List.replicate size 0xff) = pageOf size room st k ↔
      k < pageCount room st ∨ st = [] ∨
        pageOf size room st (pageCount room st - 1) = List.replicate size 0xff := by
  unfold cacheAt
  by_cases hnil : st = []
  · subst hnil
    simp only [List.isEmpty_nil, if_true, Option.getD_none, true_or, or_true, iff_true]
    rw [pageOf_of_ge hroom (by rw [pageCount_nil hroom]; exact Nat.zero_le k)]
  · rw [if_neg (by simpa using hnil), Option.getD_some]
    by_cases hk : k < pageCount room st
    · rw [min_eq_left (by omega)]
      simp [hk]
    · rw [min_eq_right (by omega), pageOf_of_ge hroom (not_lt.1 hk)]
      simp [hk, hnil]

/-- All of the first pages receive their slice of a buffer that may cover fewer of them. -/
theorem cacheAt_all_iff (size : Nat) {room : Nat} (hroom : 0 < room) (st : List Byte) (n : Nat) :
    (∀ k < max (pageCount room st) n,
      (cacheAt size room st none k).getD (List.replicate size 0xff) = pageOf size room st k) ↔
      n ≤ pageCount room st ∨ st = [] ∨
        pageOf size room st (pageCount room st - 1) = List.replicate size 0xff := by
  constructor
  · intro hall
    by_contra hnot
    simp only [not_or, not_le] at hnot
    rcases (cacheAt_getD hroom st _).1 (hall _ (lt_max_of_lt_right hnot.1)) with hlt | hnil | hlast
    · exact absurd hlt (lt_irrefl _)
    · exact hnot.2.1 hnil
    · exact hnot.2.2 hlast
  · intro hcond k hk
    refine (cacheAt_getD hroom st k).2 (hcond.imp_left fun hle => ?_)
    rwa [max_eq_left hle] at hk

theorem maskPage_eq_iff (hg : Geometry nld) (addr : Nat) :
    maskPage nld addr = addr - addr % nld.writesize ↔ addr < 2 ^ 32 := by
  refine ⟨fun heq => ?_, maskPage_of_lt⟩
  by_contra hge
  have hpage := word_le_page hg (not_lt.1 hge)
  have hmask := maskPage_lt nld addr
  omega

theorem OobOps.forall_pages {oobavail addr : Nat} {ops : OobOps} {P : Nat → PageWrite → Prop} :
    (∀ k p, (ops.pages nld oobavail addr)[k]? = some p → P k p) ↔
      ∀ k < max (ops.dataPages nld addr) (ops.oobPages nld oobavail),
        P k ⟨maskPage nld addr + k * nld.writesize,
          cacheAt nld.writesize nld.writesize (stream (addr % nld.writesize) ops.data) none k,
          cacheAt nld.oobsize (mtdOobavail nld oobavail ops.mode) (stream ops.ooboffs ops.oob) none k⟩ := by
  constructor
  · intro hall k hk
    refine hall k _ ?_
    rw [OobOps.pages, List.getElem?_map, List.getElem?_range hk, Option.map_some]
  · intro hall k p hp
    rw [OobOps.pages, List.getElem?_map, Option.map_eq_some_iff] at hp
    obtain ⟨k', hk', rfl⟩ := hp
    rw [List.getElem?_eq_some_iff] at hk'
    obtain ⟨hlt, rfl⟩ := hk'
    rw [List.length_range] at hlt
    rw [List.getElem_range]
    exact hall k hlt

/-- The pages of a request are the right ones. -/
theorem OobOps.pages_placed_iff (hg : Geometry nld) {oobavail addr : Nat} {ops : OobOps}
    (hmax : 0 < mtdOobavail nld oobavail ops.mode) :
    (∀ k p, (ops.pages nld oobavail addr)[k]? = some p →
      p.addr = addr - addr % nld.writesize + k * nld.writesize ∧
        p.main nld = ops.dataPage nld addr k ∧ p.spare nld = ops.oobPage nld oobavail k) ↔
    ops.data = [] ∧ ops.oob = [] ∨
      addr < 2 ^ 32 ∧
      (ops.oobPages nld oobavail ≤ ops.dataPages nld addr ∨ ops.data = [] ∨
        ops.dataPage nld addr (ops.dataPages nld addr - 1) = List.replicate nld.writesize 0xff) ∧
      (ops.dataPages nld addr ≤ ops.oobPages nld oobavail ∨ ops.oob = [] ∨
        ops.oobPage nld oobavail (ops.oobPages nld oobavail - 1) =
          List.replicate nld.oobsize 0xff) := by
  have hws := hg.writesize_pos
  have hmain := cacheAt_all_iff nld.writesize hws (stream (addr % nld.writesize) ops.data)
    (ops.oobPages nld oobavail)
  have hspare := cacheAt_all_iff nld.oobsize hmax (stream ops.ooboffs ops.oob) (ops.dataPages nld addr)
  rw [stream_eq_nil] at hmain hspare
  rw [OobOps.forall_pages]
  by_cases hnone : ops.data = [] ∧ ops.oob = []
  · refine iff_of_true (fun k hk => ?_) (.inl hnone)
    rw [OobOps.dataPages, OobOps.oobPages, hnone.1, hnone.2] at hk
    simp [stream, pageCount_nil hws, pageCount_nil hmax] at hk
  have hpos : 0 < max (ops.dataPages nld addr) (ops.oobPages nld oobavail) := by
    rcases not_and_or.1 hnone with hdat | hoob
    · exact lt_max_of_lt_left (pageCount_pos hws fun hnil => hdat (stream_eq_nil.1 hnil))
    · exact lt_max_of_lt_right (pageCount_pos hmax fun hnil => hoob (stream_eq_nil.1 hnil))
  constructor
  · intro hall
    refine .inr ⟨(maskPage_eq_iff hg addr).1 ?_, hmain.1 fun k hk => (hall k hk).2.1, hspare.1 fun k hk => ?_⟩
    · have haddr := (hall 0 hpos).1
      rwa [Nat.zero_mul, Nat.add_zero, Nat.add_zero] at haddr
    · exact (hall k (by rwa [max_comm] at hk)).2.2
  · rintro (hnil | ⟨haddr, hdat, hoob⟩) k hk
    · exact absurd hnil hnone
    · refine ⟨?_, hmain.2 hdat k hk, hspare.2 hoob k ?_⟩
      · rw [(maskPage_eq_iff hg addr).2 haddr]
      · rwa [max_comm] at hk

/-- Every page of a request gets its own slices, exactly if the request lies below 4 GiB and whichever
buffer covers fewer pages is empty or ends with a page of `0xff`. -/
theorem mtdWriteOob_places_iff (hg : Geometry nld) (hrw : nld.readOnly = false) {count addr : Nat}
    {ops : OobOps} (h : Accepted nld oobavail count addr ops) (pageCache : List Byte) :
    (∀ s : Sys, s.ni.dataBlockCount = count →
      PlacesSlices nld oobavail addr ops (mtdWriteOob nld oobavail pageCache addr ops s).1) ↔
    ops.data = [] ∧ ops.oob = [] ∨
      addr < 2 ^ 32 ∧
      (ops.oobPages nld oobavail ≤ ops.dataPages nld addr ∨ ops.data = [] ∨
        ops.dataPage nld addr (ops.dataPages nld addr - 1) = List.replicate nld.writesize 0xff) ∧
      (ops.dataPages nld addr ≤ ops.oobPages nld oobavail ∨ ops.oob = [] ∨
        ops.oobPage nld oobavail (ops.oobPages nld oobavail - 1) =
          List.replicate nld.oobsize 0xff) := by
  have hmax : 0 < mtdOobavail nld oobavail ops.mode := by
    have := h.ooboffs_lt
    omega
  rw [← OobOps.pages_placed_iff hg hmax]
  constructor
  · intro hall
    have hs := hall (straightSys nld count (fun _ => 0) []) rfl
    have hopen : (straightSys nld count (fun _ => 0) []).ni.refuses nld = false := by
      simp only [Instance.refuses, hrw, Bool.or_false]
      rfl
    rw [h.mtdWriteOob_eq rfl, h.mtdWriteData_handDown hg rfl hopen,
      (straightSys_straight nld count _ _).handDown hrw] at hs
    · exact hs.page
    · intro p hp
      rw [OobOps.pages, List.mem_map] at hp
      obtain ⟨k, hk, rfl⟩ := hp
      exact (Nat.div_lt_iff_lt_mul hg.erasesize_pos).2 (h.page_lt hg (List.mem_range.1 hk))
  · intro hplaced s hcount
    rw [h.mtdWriteOob_eq hcount]
    cases hrefuses : s.ni.refuses nld with
    | true =>
        obtain ⟨hsent, hzero⟩ := mtdWriteData_refuses oobavail hrefuses pageCache addr ops
        refine ⟨fun k p hp => ?_, fun hret => ?_⟩
        · rw [hsent] at hp
          simp at hp
        · obtain ⟨hdat, hoob⟩ := hzero hret
          rw [hsent, OobOps.dataPages, OobOps.oobPages, hdat, hoob]
          simp [stream, pageCount_nil hg.writesize_pos, pageCount_nil hmax]
    | false =>
        rw [h.mtdWriteData_handDown hg hcount hrefuses]
        obtain ⟨⟨rest, hrest⟩, hall⟩ := handDown_front nld ops.mode (ops.pages nld oobavail addr) s
        refine ⟨fun k p hp => hplaced k p ?_, fun hret => ?_⟩
        · rw [← hrest, List.getElem?_append_left (List.getElem?_eq_some_iff.1 hp).1]
          exact hp
        · rw [hall hret, OobOps.pages, List.length_map, List.length_range]

/-- A write of zeros at the start of the device. -/
def zeroOps (len ooblen : Nat) : OobOps where
  mode := .placeOob
  datbuf := some (List.replicate len 0)
  oobbuf := some (List.replicate ooblen 0)
  ooboffs := 0

/-- A new chip of 16 blocks, half of them for data. -/
def newChip : Sys := (createNew (smallChip 16 8) (fresh (smallChip 16 8) (blankDevice []))).2

set_option maxRecDepth 100000 in
theorem mtdWriteOob_places_newChip :
    PlacesSlices (smallChip 16 8) 16 0 (zeroOps 128 32)
      (mtdWriteOob (smallChip 16 8) 16 [] 0 (zeroOps 128 32) newChip).1 :=
  (mtdWriteOob_places_iff smallChip_geometry rfl
    (⟨rfl, by decide, by decide, by decide, by decide⟩ :
      Accepted (smallChip 16 8) 16 8 0 (zeroOps 128 32)) []).mpr
    (.inr ⟨by decide, .inl (by decide), .inl (by decide)⟩) newChip (by decide +kernel)

set_option maxRecDepth 100000 in
/-- Spare bytes for two pages and data for one: the second page gets the data of the first. -/
theorem second_page_gets_first :
    Accepted (smallChip 16 8) 16 8 0 (zeroOps 64 32) ∧ newChip.ni.dataBlockCount = 8 ∧
    (mtdWriteOob (smallChip 16 8) 16 [] 0 (zeroOps 64 32) newChip).1 =
      (0, [⟨0, some (List.replicate 64 0), some (List.replicate 16 0)⟩,
        ⟨64, some (List.replicate 64 0), some (List.replicate 16 0)⟩]) ∧
    (zeroOps 64 32).dataPage (smallChip 16 8) 0 1 = List.replicate 64 0xff :=
  ⟨⟨rfl, by decide, by decide, by decide, by decide⟩, by decide +kernel⟩

/-! ### A request for data alone -/

/-- The pages of data that starts in the page at `start`. -/
def slowPages (nld : LowerDevice) (start : Nat) (st : List Byte) : List PageWrite :=
  (List.range (pageCount nld.writesize st)).map fun k =>
    ⟨start + k * nld.writesize, some (pageOf nld.writesize nld.writesize st k), none⟩

/-- The bytes of the page cache that the last page of `nmbm_write_range` is sent with: what was in the
cache before, or what the first page left there. -/
def staleBytes (nld : LowerDevice) (cache : List Byte) (addr : Nat) (data : List Byte) : List Byte :=
  let leading := addr % nld.writesize
  let tail := (addr + data.length) % nld.writesize
  if tail = 0 then []
  else if leading ≠ 0 ∧ nld.writesize < leading + data.length then
    slice (List.replicate leading 0xff ++ data.take (nld.writesize - leading)) tail
      (nld.writesize - tail)
  else slice cache tail (nld.writesize - tail)

theorem slowPages_nil (hws : 0 < nld.writesize) (start : Nat) : slowPages nld start [] = [] := by
  rw [slowPages, pageCount_nil hws]
  rfl

theorem slowPages_cons (hws : 0 < nld.writesize) (start : Nat) {st : List Byte} (hne : st ≠ []) :
    slowPages nld start st =
      ⟨start, some (pageOf nld.writesize nld.writesize st 0), none⟩ ::
        slowPages nld (start + nld.writesize) (st.drop nld.writesize) := by
  rw [slowPages, pageCount_drop hws hne, List.range_succ_eq_map, List.map_cons, List.map_map,
    slowPages, Nat.zero_mul, Nat.add_zero]
  congr 1
  apply List.map_congr_left
  intro k _
  simp only [Function.comp_apply, Nat.succ_eq_add_one, pageOf_succ]
  congr 1
  ring

theorem pad_of_le {size : Nat} {bytes : List Byte} (h : size ≤ bytes.length) :
    pad size bytes = bytes := by
  rw [pad, Nat.sub_eq_zero_of_le h, List.replicate_zero, List.append_nil]

theorem pageOf_zero (size room : Nat) (st : List Byte) :
    pageOf size room st 0 = pad size (st.take room) := by
  rw [pageOf, Nat.zero_mul, slice, List.drop_zero]

/-- A page filled up from a cache is the page filled up with `0xff` if these bytes of it are. -/
theorem fill_eq_iff {size : Nat} {front cache : List Byte} (hlen : front.length ≤ size)
    (hcache : size ≤ cache.length) :
    front ++ slice cache front.length (size - front.length) = pad size front ↔
      ∀ b ∈ slice cache front.length (size - front.length), b = 0xff := by
  rw [pad, List.append_right_inj, List.eq_replicate_iff]
  have hroom : (slice cache front.length (size - front.length)).length = size - front.length :=
    length_slice_of_le (by omega)
  simp [hroom]

/-- A partial page as it is sent from the cache. -/
theorem take_filled {cache front bytes : List Byte} {leading ws : Nat}
    (hfront : front.length = leading) (hle : leading + bytes.length ≤ ws) :
    (splice (splice cache 0 front) leading bytes).take ws =
      (front ++ bytes) ++ slice cache (front ++ bytes).length (ws - (front ++ bytes).length) := by
  have hsplice := @splice_splice_append cache 0 front bytes (Nat.zero_le _)
  rw [Nat.zero_add, hfront] at hsplice
  rw [hsplice, splice, List.take_zero, List.nil_append, Nat.zero_add, List.take_append,
    List.take_of_length_le (by rw [List.length_append]; omega), slice]

section

variable (hws : 0 < nld.writesize)
include hws

/-- From a page boundary on, only the last page can differ. -/
theorem rangePages_aligned {n off : Nat} {cache data : List Byte} (hn : data.length ≤ n)
    (halign : off % nld.writesize = 0) (hcache : nld.writesize ≤ cache.length) :
    rangePages nld n cache off data = slowPages nld off data ↔
      data.length % nld.writesize = 0 ∨
        ∀ b ∈ slice cache (data.length % nld.writesize)
          (nld.writesize - data.length % nld.writesize), b = 0xff := by
  induction n generalizing off data with
  | zero =>
      obtain rfl := List.eq_nil_of_length_eq_zero (Nat.le_zero.1 hn)
      simp [rangePages, slowPages_nil hws]
  | succ n ih =>
      by_cases hnil : data = []
      · subst hnil
        simp [rangePages, slowPages_nil hws]
      have hpos := List.length_pos_of_ne_nil hnil
      rw [rangePages, if_neg (by simpa using hnil), slowPages_cons hws _ hnil, halign, pageOf_zero]
      dsimp only
      rw [Nat.sub_zero, LowerDevice.chunk, halign, Nat.sub_zero]
      by_cases hfull : nld.writesize ≤ data.length
      · rw [min_eq_left hfull, if_pos rfl, if_pos rfl, pad_of_le (by simp [hfull]), List.cons_inj_right,
          ih (by rw [List.length_drop]; omega) (by rw [Nat.add_mod_right]; exact halign),
          List.length_drop, ← Nat.mod_eq_sub_mod hfull]
      · have hpage := @take_filled cache [] data 0 nld.writesize rfl (by omega)
        rw [min_eq_right (by omega), if_neg (by omega), if_neg (by omega),
          List.take_of_length_le (le_refl data.length), List.replicate_zero, hpage, List.nil_append,
          List.take_of_length_le (by omega : data.length ≤ nld.writesize),
          List.drop_eq_nil_of_le (le_refl data.length),
          List.drop_eq_nil_of_le (by omega : data.length ≤ nld.writesize), slowPages_nil hws,
          Nat.mod_eq_of_lt (by omega : data.length < nld.writesize)]
        have hrest : rangePages nld n (splice (splice cache 0 []) 0 data) (off + data.length) [] = [] := by
          cases n <;> simp [rangePages]
        rw [hrest]
        simp only [List.cons.injEq, PageWrite.mk.injEq, Option.some.injEq, true_and, and_true]
        rw [fill_eq_iff (by omega) hcache]
        simp [hnil]

/-- Within its first page the data is followed by what the cache holds. -/
theorem rangePages_within_iff {addr : Nat} {cache data : List Byte} (hne : data ≠ [])
    (hshort : addr % nld.writesize + data.length < nld.writesize)
    (hcache : nld.writesize ≤ cache.length) :
    rangePages nld data.length cache addr data =
        slowPages nld (addr - addr % nld.writesize)
          (List.replicate (addr % nld.writesize) 0xff ++ data) ↔
      ∀ b ∈ slice cache (addr % nld.writesize + data.length)
        (nld.writesize - (addr % nld.writesize + data.length)), b = 0xff := by
  obtain ⟨n, hn⟩ := Nat.exists_eq_succ_of_ne_zero (List.length_pos_of_ne_nil hne).ne'
  have hturn : rangePages nld data.length cache addr data = rangePages nld (n + 1) cache addr data := by
    rw [hn]
  have hstne : List.replicate (addr % nld.writesize) 0xff ++ data ≠ [] := by simp [hne]
  rw [hturn, rangePages, if_neg (by simpa using hne), slowPages_cons hws _ hstne, pageOf_zero]
  dsimp only
  rw [LowerDevice.chunk]
  generalize addr % nld.writesize = leading at hshort ⊢
  have hfront : (List.replicate leading (0xff : Byte)).length = leading := List.length_replicate
  have hlen : (List.replicate leading (0xff : Byte) ++ data).length = leading + data.length := by
    rw [List.length_append, hfront]
  have hpage := @take_filled cache (List.replicate leading 0xff) data leading nld.writesize hfront
    hshort.le
  have hend : ∀ cache off, rangePages nld n cache off [] = [] := by
    intro cache off
    cases n <;> simp [rangePages]
  have hwhole : (List.replicate leading (0xff : Byte) ++ data).length ≤ nld.writesize := by omega
  have hpos := List.length_pos_of_ne_nil hne
  -- Not a whole page, or `leading` would be zero and the data a page long.
  have hpart : data.length ≠ nld.writesize := by omega
  rw [min_eq_right (by omega), if_neg hpart, if_neg hpart,
    List.take_of_length_le (le_refl data.length), hpage, List.drop_eq_nil_of_le (le_refl data.length),
    hend, List.take_of_length_le hwhole, List.drop_eq_nil_of_le hwhole, slowPages_nil hws]
  simp only [List.cons.injEq, PageWrite.mk.injEq, Option.some.injEq, true_and, and_true]
  rw [fill_eq_iff hwhole hcache, hlen]

/-- Data that reaches the end of a first page it does not begin leaves that page in the cache, and
the last page is filled up from there. -/
theorem rangePages_reaching_iff {addr : Nat} {cache data : List Byte}
    (hlead : addr % nld.writesize ≠ 0) (hreach : nld.writesize - addr % nld.writesize ≤ data.length) :
    rangePages nld data.length cache addr data =
        slowPages nld (addr - addr % nld.writesize)
          (List.replicate (addr % nld.writesize) 0xff ++ data) ↔
      (addr % nld.writesize + data.length) % nld.writesize = 0 ∨
        ∀ b ∈ slice (List.replicate (addr % nld.writesize) 0xff ++
            data.take (nld.writesize - addr % nld.writesize))
          ((addr % nld.writesize + data.length) % nld.writesize)
          (nld.writesize - (addr % nld.writesize + data.length) % nld.writesize), b = 0xff := by
  have hlt := Nat.mod_lt addr hws
  have hstart : addr - addr % nld.writesize + nld.writesize =
      addr + (nld.writesize - addr % nld.writesize) := by
    have := Nat.mod_le addr nld.writesize
    omega
  have hmod : (addr + (nld.writesize - addr % nld.writesize)) % nld.writesize = 0 := by
    rw [← Nat.mod_add_mod, Nat.add_sub_cancel' hlt.le, Nat.mod_self]
  have hne : data ≠ [] := List.ne_nil_of_length_pos (by omega)
  have hstne : List.replicate (addr % nld.writesize) 0xff ++ data ≠ [] := by simp [hne]
  obtain ⟨n, hn⟩ := Nat.exists_eq_succ_of_ne_zero (List.length_pos_of_ne_nil hne).ne'
  have hturn : rangePages nld data.length cache addr data = rangePages nld (n + 1) cache addr data := by
    rw [hn]
  rw [hturn, rangePages, if_neg (by simpa using hne), slowPages_cons hws _ hstne, pageOf_zero, hstart]
  dsimp only
  rw [LowerDevice.chunk]
  generalize addr % nld.writesize = leading at *
  have hfront : (List.replicate leading (0xff : Byte)).length = leading := List.length_replicate
  have hlen : (List.replicate leading (0xff : Byte) ++
      data.take (nld.writesize - leading)).length = nld.writesize := by
    rw [List.length_append, hfront, List.length_take]
    omega
  have hpage := @take_filled cache (List.replicate leading 0xff) (data.take (nld.writesize - leading))
    leading nld.writesize hfront (by rw [List.length_take]; omega)
  rw [hlen, Nat.sub_self, slice, List.take_zero, List.append_nil] at hpage
  have htake : (List.replicate leading (0xff : Byte) ++ data).take nld.writesize =
      List.replicate leading 0xff ++ data.take (nld.writesize - leading) := by
    rw [List.take_append, List.take_of_length_le (by omega), hfront]
  have hdrop : (List.replicate leading (0xff : Byte) ++ data).drop nld.writesize =
      data.drop (nld.writesize - leading) := by
    rw [List.drop_append, List.drop_eq_nil_of_le (by omega), hfront, List.nil_append]
  generalize hfilled : splice (splice cache 0 (List.replicate leading 0xff)) leading
    (data.take (nld.writesize - leading)) = filled at hpage ⊢
  have hroom : nld.writesize ≤ filled.length := by
    have := congrArg List.length hpage
    rw [List.length_take, hlen] at this
    omega
  rw [min_eq_left hreach, if_neg (by omega), if_neg (by omega), hfilled, hpage, htake, hdrop,
    pad_of_le hlen.ge, List.cons_inj_right,
    rangePages_aligned hws (by rw [List.length_drop]; omega) hmod hroom, List.length_drop]
  have hrest : (data.length - (nld.writesize - leading)) % nld.writesize =
      (leading + data.length) % nld.writesize := by
    rw [show leading + data.length = data.length - (nld.writesize - leading) + nld.writesize by
      omega, Nat.add_mod_right]
  have hmodlt := Nat.mod_lt (leading + data.length) hws
  have hslice := @slice_take filled ((leading + data.length) % nld.writesize)
    (nld.writesize - (leading + data.length) % nld.writesize) nld.writesize (by omega)
  rw [hrest, ← hslice, hpage]

/-- The pages agree if the bytes that fill up the last one are all erased. -/
theorem rangePages_eq_iff {addr : Nat} {cache data : List Byte} (hne : data ≠ [])
    (hcache : nld.writesize ≤ cache.length) :
    rangePages nld data.length cache addr data =
        slowPages nld (addr - addr % nld.writesize) (stream (addr % nld.writesize) data) ↔
      ∀ b ∈ staleBytes nld cache addr data, b = 0xff := by
  have hpos := List.length_pos_of_ne_nil hne
  have hlt := Nat.mod_lt addr hws
  have htail : (addr + data.length) % nld.writesize =
      (addr % nld.writesize + data.length) % nld.writesize := by
    rw [Nat.mod_add_mod]
  unfold staleBytes
  dsimp only
  rw [htail]
  by_cases hzero : addr % nld.writesize = 0
  · rw [hzero, stream_zero, Nat.sub_zero, rangePages_aligned hws le_rfl hzero hcache, Nat.zero_add]
    split <;> simp_all
  have hst : stream (addr % nld.writesize) data =
      List.replicate (addr % nld.writesize) 0xff ++ data := by
    rw [stream, if_neg (by simpa using hne)]
  rw [hst]
  by_cases hreach : nld.writesize - addr % nld.writesize ≤ data.length
  · rw [rangePages_reaching_iff hws hzero hreach]
    by_cases htail0 : (addr % nld.writesize + data.length) % nld.writesize = 0
    · simp [htail0]
    have hmore : nld.writesize < addr % nld.writesize + data.length := by
      by_contra hle
      apply htail0
      rw [show addr % nld.writesize + data.length = nld.writesize by omega, Nat.mod_self]
    rw [if_neg htail0, if_pos ⟨hzero, hmore⟩, or_iff_right htail0]
  · have hshort : addr % nld.writesize + data.length < nld.writesize := by omega
    rw [rangePages_within_iff hws hne hshort hcache, Nat.mod_eq_of_lt hshort, if_neg (by omega),
      if_neg (by omega)]

end

theorem rangePages_addr_lt (n : Nat) {cache : List Byte} {off : Nat} {data : List Byte} {p : PageWrite}
    (h : p ∈ rangePages nld n cache off data) : p.addr < off + data.length := by
  induction n generalizing cache off data with
  | zero => simp [rangePages] at h
  | succ n ih =>
      rw [rangePages] at h
      split at h
      · simp at h
      rename_i hmore
      have hpos : 0 < data.length := List.length_pos_of_ne_nil (by simpa using hmore)
      rcases List.mem_cons.1 h with rfl | h
      · show off - off % nld.writesize < off + data.length
        omega
      · have hlt := ih h
        have hle : nld.chunk off data.length ≤ data.length := min_le_right _ _
        rw [List.length_drop] at hlt
        omega

/-- The request for data alone, and the same with a spare buffer of no bytes. -/
def fastOps (mode : OobMode) (data : List Byte) : OobOps := ⟨mode, some data, none, 0⟩

def slowOps (mode : OobMode) (data : List Byte) : OobOps := ⟨mode, some data, some [], 0⟩

theorem slowOps_pages (addr : Nat) (mode : OobMode)
    (hmax : 0 < mtdOobavail nld oobavail mode) {data : List Byte} (hne : data ≠ []) :
    (slowOps mode data).pages nld oobavail addr =
      slowPages nld (maskPage nld addr) (stream (addr % nld.writesize) data) := by
  have hst : stream (addr % nld.writesize) data ≠ [] := fun hnil => hne (stream_eq_nil.1 hnil)
  have hoob : stream (slowOps mode data).ooboffs (slowOps mode data).oob = [] := rfl
  have hdat : (slowOps mode data).data = data := rfl
  have hmode : (slowOps mode data).mode = mode := rfl
  rw [OobOps.pages, OobOps.dataPages, OobOps.oobPages, slowPages, hoob, hdat, hmode, pageCount_nil hmax,
    max_eq_left (Nat.zero_le _)]
  apply List.map_congr_left
  intro k hk
  have hlt := List.mem_range.1 hk
  rw [cacheAt, if_neg (by simpa using hst), min_eq_left (by omega)]
  rfl

variable (oobavail) in
/-- Nothing to send, or more than fits: neither way hands a page down. -/
theorem mtdWriteOob_none {addr : Nat} {data : List Byte} (hword : addr + data.length < 2 ^ 64)
    (h : data = [] ∨ upperSize nld s.ni < addr + data.length) (pageCache : List Byte)
    (mode : OobMode) :
    (mtdWriteOob nld oobavail pageCache addr (fastOps mode data) s).1.2 = [] ∧
      (mtdWriteOob nld oobavail pageCache addr (slowOps mode data) s).1.2 = [] := by
  rcases h with rfl | hbeyond
  · constructor
    · unfold mtdWriteOob writeRangeSent
      repeat' split
      all_goals rfl
    · unfold mtdWriteOob
      repeat' split
      all_goals first | rfl | simp_all [slowOps]
  · have hfast : (fastOps mode data).dataBeyond nld s.ni addr = true := by
      rw [OobOps.dataBeyond, fastOps, OobOps.data, Option.getD_some, Nat.mod_eq_of_lt hword]
      simpa using hbeyond
    have hslow : (slowOps mode data).dataBeyond nld s.ni addr = true := hfast
    constructor
    · rw [mtdWriteOob, hfast]
      rfl
    · rw [mtdWriteOob, hslow]
      rfl

section

variable (hg : Geometry nld) {count addr : Nat} {data : List Byte}
  (hinside : addr + data.length ≤ nld.ba2addr count) (hne : data ≠ [])
include hg hinside hne

omit hg in
theorem slowOps_accepted (mode : OobMode) (hmax : 0 < mtdOobavail nld oobavail mode) :
    Accepted nld oobavail count addr (slowOps mode data) := by
  have hpos := List.length_pos_of_ne_nil hne
  exact ⟨rfl, hinside, hmax, by omega, Nat.zero_le _⟩

omit hg in
theorem mtdWriteOob_fast (hcount : s.ni.dataBlockCount = count) (mode : OobMode)
    (pageCache : List Byte) :
    (mtdWriteOob nld oobavail pageCache addr (fastOps mode data) s).1 =
      if s.ni.refuses nld then (-erofs, [])
      else ((writeRangeLoopSent nld mode data.length addr data s).1.1.1,
        (writeRangeLoopSent nld mode data.length addr data s).1.2) := by
  have hpos := List.length_pos_of_ne_nil hne
  have hle : (addr + data.length) % 2 ^ 64 ≤ nld.ba2addr s.ni.dataBlockCount := by
    rw [hcount]
    exact (Nat.mod_le _ _).trans hinside
  have hdata : (fastOps mode data).dataBeyond nld s.ni addr = false := by
    rw [OobOps.dataBeyond, Bool.and_eq_false_iff]
    exact .inr (by simpa [upperSize, fastOps, OobOps.data] using hle)
  have hbeyond : ¬ beyond nld s.ni addr data.length := not_lt.2 hle
  have hempty : data.isEmpty = false := by simpa using hne
  rw [mtdWriteOob, hdata]
  show (writeRangeSent nld addr data mode s).1 = _
  rw [writeRangeSent, if_neg hbeyond, hempty, hcount]
  split
  · rfl
  · rw [if_neg (by omega), if_neg (by simp)]

end

/-- Writing data alone and writing it with an empty spare buffer hand down the same pages, exactly if
there is nothing to hand down, or the request starts below 4 GiB and the page cache had `0xff` behind
the data. -/
theorem write_paths_agree_iff (hg : Geometry nld) (hrw : nld.readOnly = false) {mode : OobMode}
    (hmax : 0 < mtdOobavail nld oobavail mode) (count addr : Nat) {data cache : List Byte}
    (hword : addr + data.length < 2 ^ 64) (hcache : nld.writesize ≤ cache.length)
    (pageCache : List Byte) :
    (∀ s : Sys, s.ni.dataBlockCount = count → s.dev.pageCache = cache →
      (mtdWriteOob nld oobavail pageCache addr (fastOps mode data) s).1.2 =
        (mtdWriteOob nld oobavail pageCache addr (slowOps mode data) s).1.2) ↔
    data = [] ∨ nld.ba2addr count < addr + data.length ∨
      addr < 2 ^ 32 ∧ ∀ b ∈ staleBytes nld cache addr data, b = 0xff := by
  have hws := hg.writesize_pos
  by_cases hnone : data = [] ∨ nld.ba2addr count < addr + data.length
  · have hright : data = [] ∨ nld.ba2addr count < addr + data.length ∨
        addr < 2 ^ 32 ∧ ∀ b ∈ staleBytes nld cache addr data, b = 0xff := by
      rcases hnone with h | h
      · exact .inl h
      · exact .inr (.inl h)
    refine iff_of_true (fun s hcount _ => ?_) hright
    obtain ⟨hfast, hslow⟩ := mtdWriteOob_none oobavail hword
      (show data = [] ∨ upperSize nld s.ni < addr + data.length by rwa [upperSize, hcount])
      pageCache mode
    rw [hfast, hslow]
  obtain ⟨hne, hinside⟩ := not_or.1 hnone
  have hinside := not_lt.1 hinside
  have hacc := slowOps_accepted hinside hne mode hmax
  have hpages : (rangePages nld data.length cache addr data =
        (slowOps mode data).pages nld oobavail addr) ↔
      addr < 2 ^ 32 ∧ ∀ b ∈ staleBytes nld cache addr data, b = 0xff := by
    rw [slowOps_pages addr mode hmax hne]
    by_cases haddr : addr < 2 ^ 32
    · rw [maskPage_of_lt haddr, rangePages_eq_iff hws hne hcache, and_iff_right haddr]
    · refine iff_of_false (fun heq => ?_) fun h => haddr h.1
      have hst : stream (addr % nld.writesize) data ≠ [] := fun hnil => hne (stream_eq_nil.1 hnil)
      obtain ⟨n, hn⟩ := Nat.exists_eq_succ_of_ne_zero (List.length_pos_of_ne_nil hne).ne'
      rw [hn, rangePages, if_neg (by simpa using hne), slowPages_cons hws _ hst] at heq
      have hfirst : addr - addr % nld.writesize = maskPage nld addr := by
        have := congrArg PageWrite.addr (List.cons.inj heq).1
        exact this
      have := maskPage_lt nld addr
      have := word_le_page hg (not_lt.1 haddr)
      omega
  have hright : (data = [] ∨ nld.ba2addr count < addr + data.length ∨
        addr < 2 ^ 32 ∧ ∀ b ∈ staleBytes nld cache addr data, b = 0xff) ↔
      rangePages nld data.length cache addr data = (slowOps mode data).pages nld oobavail addr := by
    rw [hpages]
    simp [hne, not_lt.2 hinside]
  rw [hright]
  constructor
  · intro hall
    have hs := hall (straightSys nld count (fun _ => 0) cache) rfl rfl
    have hopen : (straightSys nld count (fun _ => 0) cache).ni.refuses nld = false := by
      simp only [Instance.refuses, hrw, Bool.or_false]
      rfl
    have hstraight := straightSys_straight nld count (fun _ => 0) cache
    rw [mtdWriteOob_fast hinside hne rfl, hopen, if_neg (by simp),
      writeRangeLoopSent_handDown mode _ _ _ _ le_rfl hws, hacc.mtdWriteOob_eq rfl,
      hacc.mtdWriteData_handDown hg rfl hopen] at hs
    rw [hstraight.handDown hrw mode fun p hp => ?_, hstraight.handDown hrw _ fun p hp => ?_] at hs
    · exact hs
    · rw [OobOps.pages, List.mem_map] at hp
      obtain ⟨k, hk, rfl⟩ := hp
      exact (Nat.div_lt_iff_lt_mul hg.erasesize_pos).2 (hacc.page_lt hg (List.mem_range.1 hk))
    · exact (Nat.div_lt_iff_lt_mul hg.erasesize_pos).2 ((rangePages_addr_lt _ hp).trans_le hinside)
  · intro heq s hcount hpc
    rw [mtdWriteOob_fast hinside hne hcount, hacc.mtdWriteOob_eq hcount]
    cases hrefuses : s.ni.refuses nld with
    | true =>
        rw [if_pos rfl, (mtdWriteData_refuses oobavail hrefuses pageCache addr (slowOps mode data)).1]
    | false =>
        rw [if_neg (by simp), writeRangeLoopSent_handDown mode _ _ _ _ le_rfl hws, hpc, heq,
          hacc.mtdWriteData_handDown hg hcount hrefuses]
        rfl

/-- The new chip after a page of zeros was written and a byte of it was read. -/
def usedChip : Sys :=
  runOps (smallChip 16 8) [.writeRange 64 (List.replicate 64 0) .placeOob, .readRange 64 1] newChip

set_option maxRecDepth 100000 in
theorem write_paths_agree_usedChip :
    (mtdWriteOob (smallChip 16 8) 16 [] 0 (fastOps .placeOob (List.replicate 64 1)) usedChip).1.2 =
      (mtdWriteOob (smallChip 16 8) 16 [] 0 (slowOps .placeOob (List.replicate 64 1)) usedChip).1.2 :=
  (write_paths_agree_iff smallChip_geometry rfl (by decide) 8 0 (by decide)
    (by decide +kernel : 64 ≤ usedChip.dev.pageCache.length) []).mpr
    (.inr (.inr ⟨by decide, by decide +kernel⟩)) usedChip (by decide +kernel) rfl

set_option maxRecDepth 100000 in
/-- One byte at the start of a page: the fast path sends the rest of the page from the cache. -/
theorem stale_bytes_written :
    (mtdWriteOob (smallChip 16 8) 16 [] 0 (fastOps .placeOob [1]) usedChip).1 =
      (0, [⟨0, some (1 :: List.replicate 63 0), none⟩]) ∧
    (mtdWriteOob (smallChip 16 8) 16 [] 0 (slowOps .placeOob [1]) usedChip).1 =
      (0, [⟨0, some (1 :: List.replicate 63 0xff), none⟩]) := by
  decide +kernel

end Immwrt.Nmbm
