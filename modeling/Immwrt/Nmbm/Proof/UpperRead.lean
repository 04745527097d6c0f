import Immwrt.Nmbm.Proof.UpperWrite

/-!
# Reading through the MTD device

The two loops read the same pages in the same order and cut the data out of them in the same way, as
long as they start at the same page, and a spare buffer adds no page to them. They do not start at the
same page above 4 GiB. A read of no bytes asks the instance on one path only.
-/

namespace Immwrt.Nmbm

variable {nld : LowerDevice} {oobavail : Nat} {s s' : Sys}

/-! ### A page, with and without its spare bytes -/

variable (nld oobavail) in
theorem readPhysPageOobTry_eq (addr : Nat) (mode : OobMode) (n : Nat) (d : Device) :
    ((readPhysPageOobTry nld oobavail addr mode n d).1.1,
      (readPhysPageOobTry nld oobavail addr mode n d).2) = readPhysPageTry nld addr n d := by
  induction n generalizing d with
  | zero => rfl
  | succ n ih =>
      rw [readPhysPageOobTry, readPhysPageTry]
      split
      · rfl
      · exact ih _

variable (nld oobavail) in
theorem readLogicPageOob_eq (addr : Nat) (mode : OobMode) (s : Sys) :
    ((readLogicPageOob nld oobavail addr mode s).1.1, (readLogicPageOob nld oobavail addr mode s).2) =
      readLogicPage nld addr s := by
  unfold readLogicPageOob readLogicPage
  dsimp only
  split
  · rfl
  split
  · rfl
  · have heq := readPhysPageOobTry_eq nld oobavail
      (nld.ba2addr (s.ni.mapping (nld.addr2ba addr)).toNat + addr % nld.erasesize) mode
      (tryCount - 1) s.dev
    rw [readPhysPage, ← heq]

theorem readPhysPageTry_cache (addr n : Nat) (d : Device) (cache : List Byte) :
    readPhysPageTry nld addr n { d with pageCache := cache } =
      ((readPhysPageTry nld addr n d).1,
        { (readPhysPageTry nld addr n d).2 with pageCache := cache }) := by
  induction n generalizing d with
  | zero => rfl
  | succ n ih =>
      rw [readPhysPageTry, readPhysPageTry]
      have hpage : Device.readPage nld { d with pageCache := cache } addr =
          ((d.readPage nld addr).1, { (d.readPage nld addr).2 with pageCache := cache }) := rfl
      rw [hpage]
      dsimp only
      split
      · rfl
      · exact ih _

theorem readLogicPage_withCache (addr : Nat) (s : Sys) (cache : List Byte) :
    readLogicPage nld addr (s.withCache cache) =
      ((readLogicPage nld addr s).1, (readLogicPage nld addr s).2.withCache cache) := by
  unfold readLogicPage
  have hni : (s.withCache cache).ni = s.ni := rfl
  have hdev : (s.withCache cache).dev = { s.dev with pageCache := cache } := rfl
  dsimp only
  rw [hni, hdev, readPhysPage, readPhysPageTry_cache]
  split
  · rfl
  split
  · rfl
  · rfl

variable (nld) in
theorem readLogicPage_ni (addr : Nat) (s : Sys) : (readLogicPage nld addr s).2.ni = s.ni := by
  unfold readLogicPage
  dsimp only
  split
  · rfl
  split <;> rfl

/-! ### The two loops -/

/-- Pages that `len` bytes cover from `off` of a page with `room` bytes on. -/
def pagesFor (room off len : Nat) : Nat := if len = 0 then 0 else (off + len + room - 1) / room

theorem pageCount_stream (room off : Nat) (hroom : 0 < room) (bytes : List Byte) :
    pageCount room (stream off bytes) = pagesFor room off bytes.length := by
  by_cases hnil : bytes = []
  · simp [hnil, stream, pagesFor, pageCount_nil hroom]
  · rw [pagesFor, if_neg (List.length_pos_of_ne_nil hnil).ne', pageCount, length_stream hnil]

theorem pagesFor_next {room off len : Nat} (hoff : off < room) (hlen : 0 < len) :
    pagesFor room 0 (len - min (room - off) len) + 1 = pagesFor room off len := by
  have hroom : 0 < room := by omega
  unfold pagesFor
  rw [if_neg hlen.ne']
  by_cases hle : len ≤ room - off
  · rw [min_eq_right hle, if_pos (by omega)]
    symm
    rw [Nat.div_eq_iff hroom]
    omega
  · rw [min_eq_left (by omega), if_neg (by omega),
      show off + len + room - 1 = 0 + (len - (room - off)) + room - 1 + room by omega,
      Nat.add_div_right _ hroom]

/-- With nothing left the loop returns what it has. -/
theorem mtdReadDataLoop_done {mode : OobMode} (maxooblen m addr col ooboffs : Nat) (flips : Int)
    (eccErr : Bool) (s : Sys) :
    mtdReadDataLoop nld oobavail mode maxooblen m addr col 0 ooboffs 0 flips eccErr s =
      (((if eccErr then -ebadmsg else flips, []), []), s) := by
  cases m with
  | zero => rfl
  | succ m => rw [mtdReadDataLoop, if_pos ⟨rfl, rfl⟩]

theorem no_spare_left {room col maxooblen ooboffs ooblen : Nat}
    (h : ooblen = 0 ∨ ooboffs + ooblen ≤ pagesFor room col 0 * maxooblen) : ooblen = 0 := by
  rcases h with h | h
  · exact h
  · simp only [pagesFor, if_true, Nat.zero_mul] at h
    omega

/-- A turn that leaves something stops at the next page. -/
theorem chunk_next {off len : Nat} (hcol : off % nld.writesize < nld.writesize)
    (hmore : len - nld.chunk off len ≠ 0) :
    (off + nld.chunk off len) % nld.writesize = 0 ∧
      off + nld.chunk off len - (off + nld.chunk off len) % nld.writesize =
        off - off % nld.writesize + nld.writesize := by
  have hchunk : nld.chunk off len = min (nld.writesize - off % nld.writesize) len := rfl
  have hmod := Nat.mod_add_div off nld.writesize
  have hnew : off + nld.chunk off len = nld.writesize * (off / nld.writesize + 1) := by
    rw [Nat.mul_succ]
    omega
  have hzeroMod : (off + nld.chunk off len) % nld.writesize = 0 := by
    rw [hnew, Nat.mul_mod_right]
  exact ⟨hzeroMod, by omega⟩

theorem mtdReadDataLoop_eq (hg : Geometry nld) {mode : OobMode} {maxooblen : Nat}
    {n m off addr col len ooboffs ooblen : Nat} {flips : Int} {eccErr : Bool} {cache : List Byte}
    (hn : len ≤ n) (hm : len + ooblen ≤ m) (hprot : s.ni.isProtected = false)
    (hinside : off + len ≤ nld.ba2addr s.ni.dataBlockCount)
    (hplace : len ≠ 0 → off % nld.writesize = col ∧ off - off % nld.writesize = addr)
    (hoffs : ooboffs < maxooblen)
    (hoob : ooblen = 0 ∨ ooboffs + ooblen ≤ pagesFor nld.writesize col len * maxooblen) :
    (mtdReadDataLoop nld oobavail mode maxooblen m addr col len ooboffs ooblen flips eccErr
        (s.withCache cache)).1.1 = (readRangeLoop nld n off len flips eccErr s).1.1 := by
  induction n generalizing m off addr col len ooboffs ooblen flips eccErr cache s with
  | zero =>
      obtain rfl : len = 0 := by omega
      obtain rfl := no_spare_left hoob
      rw [mtdReadDataLoop_done]
      rfl
  | succ n ih =>
      by_cases hzero : len = 0
      · subst hzero
        obtain rfl := no_spare_left hoob
        rw [mtdReadDataLoop_done, readRangeLoop, if_pos rfl]
      obtain ⟨rfl, rfl⟩ := hplace hzero
      obtain ⟨m, rfl⟩ : ∃ m', m = m' + 1 := Nat.exists_eq_succ_of_ne_zero (by omega)
      have hws := hg.writesize_pos
      have hcol := Nat.mod_lt off hws
      rw [readRangeLoop, if_neg hzero, mtdReadDataLoop, if_neg (fun h => hzero h.1), if_neg hzero]
      have hsingle : readSinglePageOob nld oobavail (off - off % nld.writesize) mode
          (s.withCache cache) = readLogicPageOob nld oobavail (off - off % nld.writesize) mode
            (s.withCache cache) := by
        have hni : (s.withCache cache).ni = s.ni := rfl
        rw [readSinglePageOob, hni, hprot, if_neg (by simp), if_neg (by omega)]
      have hpage := readLogicPageOob_eq nld oobavail (off - off % nld.writesize) mode
        (s.withCache cache)
      rw [readLogicPage_withCache] at hpage
      have hkeeps := readLogicPage_ni nld (off - off % nld.writesize) s
      dsimp only
      rw [hsingle]
      generalize readLogicPageOob nld oobavail (off - off % nld.writesize) mode
        (s.withCache cache) = slow at hpage ⊢
      generalize readLogicPage nld (off - off % nld.writesize) s = fast at hpage hkeeps ⊢
      obtain ⟨hret, hstate⟩ := Prod.mk.inj hpage
      obtain ⟨cache', hnext⟩ : ∃ cache', (if nld.chunk off len = nld.writesize then fast.2
          else { fast.2 with dev := { fast.2.dev with
            pageCache := splice fast.2.dev.pageCache 0 fast.1.2 } }) = fast.2.withCache cache' := by
        split
        · exact ⟨fast.2.dev.pageCache, rfl⟩
        · exact ⟨_, rfl⟩
      dsimp only at hnext ⊢
      rw [hnext, hret, hstate]
      split
      · rfl
      have hchunk : nld.chunk off len = min (nld.writesize - off % nld.writesize) len := rfl
      have hpages := pagesFor_next hcol (Nat.pos_of_ne_zero hzero)
      have hroom : (if ooblen = 0 then ooboffs else 0) < maxooblen := by split <;> omega
      have hleft : ooblen - min (maxooblen - ooboffs) ooblen = 0 ∨
          (if ooblen = 0 then ooboffs else 0) + (ooblen - min (maxooblen - ooboffs) ooblen) ≤
            pagesFor nld.writesize 0 (len - nld.chunk off len) * maxooblen := by
        rw [← hpages, Nat.add_one_mul] at hoob
        rw [hchunk]
        split <;> omega
      have hni : (fast.2.withCache cache').ni = s.ni := hkeeps
      have hcont := @ih (fast.2.withCache cache') m (off + nld.chunk off len)
        (off - off % nld.writesize + nld.writesize) 0 (len - nld.chunk off len)
        (if ooblen = 0 then ooboffs else 0) (ooblen - min (maxooblen - ooboffs) ooblen)
        (max flips fast.1.1) (eccErr || fast.1.1 == -ebadmsg) cache (by omega) (by omega)
        (hni ▸ hprot) (by rw [hni]; omega) (chunk_next hcol) hroom hleft
      rw [hchunk] at hcont ⊢
      have hcache : (fast.2.withCache cache').withCache cache = fast.2.withCache cache := rfl
      rw [hcache] at hcont
      rw [hcont]

/-! ### The two requests -/

/-- The request for the data alone. -/
def OobOps.dataOnly (ops : OobOps) : OobOps := { ops with oobbuf := none }

section

variable {count addr : Nat} {ops : OobOps} (h : Accepted nld oobavail count addr ops)
include h

theorem Accepted.mtdReadOob_eq (hcount : s.ni.dataBlockCount = count) :
    mtdReadOob nld oobavail addr ops s = mtdReadData nld oobavail addr ops s := by
  obtain ⟨hdata, hoob⟩ := h.not_beyond hcount
  rw [mtdReadOob, hdata, hoob, h.isNone_eq]
  simp

theorem Accepted.mtdReadOob_dataOnly (hcount : s.ni.dataBlockCount = count) :
    (mtdReadOob nld oobavail addr ops.dataOnly s).1.1 =
      if ops.datbuf = none then (0, [])
      else if s.ni.isProtected then (-erofs, [])
      else if ops.data = [] then (0, [])
      else (readRangeLoop nld ops.data.length addr ops.data.length 0 false s).1.1 := by
  have hdata : ops.dataOnly.dataBeyond nld s.ni addr = false := (h.not_beyond hcount).1
  have hlen : ops.dataOnly.data = ops.data := rfl
  have hdat : ops.dataOnly.datbuf = ops.datbuf := rfl
  have hoob : ops.dataOnly.oobbuf = none := rfl
  have hbeyond : ¬ beyond nld s.ni addr ops.data.length := by
    have := (Nat.mod_le (addr + ops.data.length) (2 ^ 64)).trans h.data_le
    rw [beyond, hcount]
    omega
  have haddr := h.addr_lt
  rw [mtdReadOob, hdata, hdat, hoob, hlen]
  cases hbuf : ops.datbuf with
  | none => rfl
  | some data =>
      show (readRange nld addr ops.data.length s).1.1 = _
      rw [if_neg (by simp), readRange, hcount, if_neg hbeyond, if_neg (not_le.2 haddr)]
      simp only [List.length_eq_zero_iff]
      repeat' split
      all_goals rfl

/-- Spare bytes on no more pages than the data: without data there are none. -/
theorem Accepted.oob_eq_nil (hws : 0 < nld.writesize)
    (hpages : ops.oobPages nld oobavail ≤ ops.dataPages nld addr) (hdata : ops.data = []) :
    ops.oob = [] := by
  have hmax : 0 < mtdOobavail nld oobavail ops.mode := Nat.zero_lt_of_lt h.ooboffs_lt
  rw [OobOps.dataPages, hdata, OobOps.oobPages] at hpages
  by_contra hne
  have hpos := pageCount_pos hmax fun hnil : stream ops.ooboffs ops.oob = [] =>
    hne (stream_eq_nil.1 hnil)
  rw [show stream (addr % nld.writesize) [] = [] from rfl, pageCount_nil hws] at hpages
  omega

end

/-- The loop with spare bytes reads what the other loop reads at the address cut to 32 bits. -/
theorem Accepted.mtdReadData_eq (hg : Geometry nld) {count addr : Nat} {ops : OobOps}
    (h : Accepted nld oobavail count addr ops)
    (hpages : ops.oobPages nld oobavail ≤ ops.dataPages nld addr)
    (hcount : s.ni.dataBlockCount = count) (hprot : s.ni.isProtected = false) :
    (mtdReadData nld oobavail addr ops s).1.1 =
      (readRangeLoop nld ops.data.length (addr % 2 ^ 32) ops.data.length 0 false s).1.1 := by
  have hws := hg.writesize_pos
  have hmax : 0 < mtdOobavail nld oobavail ops.mode := Nat.zero_lt_of_lt h.ooboffs_lt
  have hmod : addr % 2 ^ 32 % nld.writesize = addr % nld.writesize :=
    Nat.mod_mod_of_dvd addr hg.writesize_dvd_word
  have hspare : ops.oob.length = 0 ∨ ops.ooboffs + ops.oob.length ≤
      pagesFor nld.writesize (addr % nld.writesize) ops.data.length *
        mtdOobavail nld oobavail ops.mode := by
    rw [OobOps.dataPages, pageCount_stream _ _ hws, OobOps.oobPages, pageCount_stream _ _ hmax] at hpages
    by_cases hnil : ops.oob.length = 0
    · exact .inl hnil
    · rw [pagesFor, if_neg hnil] at hpages
      have hcover := Nat.lt_div_mul_add (a := ops.ooboffs + ops.oob.length +
        mtdOobavail nld oobavail ops.mode - 1) hmax
      have := Nat.mul_le_mul_right (mtdOobavail nld oobavail ops.mode) hpages
      exact .inr (by omega)
  have hle := Nat.mod_le addr (2 ^ 32)
  have hinside := h.data_le
  show (mtdReadDataLoop nld oobavail ops.mode _ _ _ _ _ _ _ 0 false
    (s.withCache s.dev.pageCache)).1.1 = _
  exact mtdReadDataLoop_eq hg le_rfl le_rfl hprot
    (by rw [hcount]; omega) (fun _ => ⟨hmod, rfl⟩) h.ooboffs_lt hspare

/-! ### Contents that tell the two places apart -/

/-- Every byte below 4 GiB differs from every byte above it. -/
def splitMem (x : Nat) : Byte := if x < 2 ^ 32 then 0 else 1

theorem Straight.readLogicPage {count a : Nat} (h : Straight nld count s)
    (ha : nld.addr2ba a < count) :
    0 ≤ (readLogicPage nld a s).1.1 ∧
      (readLogicPage nld a s).1.2 = bytesAt s.dev.flash.mem a nld.writesize := by
  have hplace : nld.ba2addr ((nld.addr2ba a : Int)).toNat + a % nld.erasesize = a := by
    rw [Int.toNat_natCast, LowerDevice.ba2addr, LowerDevice.addr2ba, Nat.mul_comm]
    exact Nat.div_add_mod a nld.erasesize
  have hbad := h.good _ ha
  have hret := readPhysPage_healthy nld h.healthy a
  unfold Nmbm.readLogicPage
  dsimp only
  rw [h.mapping _ ha, if_neg (by simp), if_neg (by simpa using hbad), hplace]
  exact ⟨hret, readPhysPage_data hret⟩

/-- The first byte that the loop delivers is the one at the start of the request. -/
theorem readRangeLoop_head {count off len n : Nat} (h : Straight nld count s)
    (hws : 0 < nld.writesize) (hes : 0 < nld.erasesize) (hlen : 0 < len) (hn : 0 < n)
    (hoff : off < nld.ba2addr count) :
    (readRangeLoop nld n off len 0 false s).1.1.2.head? = some (s.dev.flash.mem off) := by
  obtain ⟨n, rfl⟩ := Nat.exists_eq_succ_of_ne_zero hn.ne'
  have hlt : nld.addr2ba (off - off % nld.writesize) < count :=
    (Nat.div_lt_iff_lt_mul hes).2 ((Nat.sub_le _ _).trans_lt hoff)
  obtain ⟨hret, hdata⟩ := h.readLogicPage hlt
  have hcol := Nat.mod_lt off hws
  have hle := Nat.mod_le off nld.writesize
  obtain ⟨k, hk⟩ : ∃ k, nld.chunk off len = k + 1 :=
    Nat.exists_eq_succ_of_ne_zero (by unfold LowerDevice.chunk; omega)
  have hroom : off % nld.writesize + nld.chunk off len ≤ nld.writesize := by
    unfold LowerDevice.chunk
    omega
  rw [readRangeLoop, if_neg hlen.ne']
  dsimp only
  rw [if_neg (by omega), hdata, slice_bytesAt _ _ hroom, hk, bytesAt, Nat.sub_add_cancel hle]
  rfl

/-- `straightSys` with the protection as given. -/
def shieldedSys (nld : LowerDevice) (count : Nat) (prot : Bool) : Sys :=
  let s := straightSys nld count splitMem []
  { s with ni := { s.ni with isProtected := prot } }

theorem shieldedSys_straight (nld : LowerDevice) (count : Nat) (prot : Bool) :
    Straight nld count (shieldedSys nld count prot) :=
  ⟨(straightSys_straight nld count splitMem []).mapping, (straightSys_straight nld count splitMem []).good,
    (straightSys_straight nld count splitMem []).healthy⟩

/-! ### When the two paths agree -/

theorem mtdReadData_protected {addr : Nat} {ops : OobOps} (hprot : s.ni.isProtected = true)
    (hne : ops.data ≠ []) : (mtdReadData nld oobavail addr ops s).1.1 = (-erofs, []) := by
  have hpos := List.length_pos_of_ne_nil hne
  obtain ⟨m, hm⟩ := Nat.exists_eq_succ_of_ne_zero (n := ops.data.length + ops.oob.length) (by omega)
  rw [mtdReadData, hm, mtdReadDataLoop, if_neg (by omega), readSinglePageOob, hprot]
  rfl

theorem mtdReadData_none {addr : Nat} {ops : OobOps} (hdata : ops.data = []) (hoob : ops.oob = []) :
    (mtdReadData nld oobavail addr ops s).1.1 = (0, []) := by
  rw [mtdReadData, hdata, hoob]
  rfl

/-- Reading data alone and reading it with spare bytes of no more pages deliver the same data and
return the same, whatever the chip holds and answers, exactly if no data buffer is given, or the
instance is protected and there are bytes to read, or it is not and there are none or the request
starts below 4 GiB. -/
theorem read_paths_agree_iff (hg : Geometry nld) {count addr : Nat} {ops : OobOps}
    (h : Accepted nld oobavail count addr ops)
    (hpages : ops.oobPages nld oobavail ≤ ops.dataPages nld addr) (prot : Bool) :
    (∀ s : Sys, s.ni.dataBlockCount = count → s.ni.isProtected = prot →
      (mtdReadOob nld oobavail addr ops.dataOnly s).1.1 = (mtdReadOob nld oobavail addr ops s).1.1) ↔
    ops.datbuf = none ∨ (if prot then ops.data ≠ [] else ops.data = [] ∨ addr < 2 ^ 32) := by
  have hws := hg.writesize_pos
  have hsize := h.addr_lt
  constructor
  · intro hall
    have heq := hall (shieldedSys nld count prot) rfl rfl
    rw [h.mtdReadOob_dataOnly rfl, h.mtdReadOob_eq rfl] at heq
    by_cases hnone : ops.datbuf = none
    · exact .inl hnone
    rw [if_neg hnone] at heq
    right
    cases prot with
    | true =>
        intro hdata
        rw [mtdReadData_none hdata (h.oob_eq_nil hws hpages hdata)] at heq
        have hret : -erofs = 0 := congrArg Prod.fst heq
        exact neg_erofs_ne_zero hret
    | false =>
        by_contra hnot
        obtain ⟨hne, haddr⟩ := not_or.1 hnot
        have hpos := List.length_pos_of_ne_nil hne
        have hcut := Nat.mod_lt addr (show 0 < 2 ^ 32 by decide)
        have hstraight := shieldedSys_straight nld count false
        rw [if_neg (by simp [shieldedSys]), if_neg hne, h.mtdReadData_eq hg hpages rfl rfl] at heq
        have hheads := congrArg (fun r : Int × List Byte => r.2.head?) heq
        rw [readRangeLoop_head hstraight hws hg.erasesize_pos hpos hpos hsize,
          readRangeLoop_head hstraight hws hg.erasesize_pos hpos hpos (by omega)] at hheads
        have hbytes : splitMem addr = splitMem (addr % 2 ^ 32) := Option.some.inj hheads
        rw [splitMem, if_neg haddr, splitMem, if_pos hcut] at hbytes
        exact absurd hbytes (by decide)
  · intro hcond s hcount hprot
    rw [h.mtdReadOob_dataOnly hcount, h.mtdReadOob_eq hcount]
    by_cases hdata : ops.data = []
    · rw [mtdReadData_none hdata (h.oob_eq_nil hws hpages hdata), if_pos hdata]
      rcases hcond with hnone | hcond
      · rw [if_pos hnone]
      · have hopen : s.ni.isProtected = false := by
          rw [hprot]
          by_contra hclosed
          rw [if_pos (by simpa using hclosed)] at hcond
          exact hcond hdata
        rw [hopen]
        simp
    · have hsome : ops.datbuf ≠ none := fun hnone => hdata (by rw [OobOps.data, hnone]; rfl)
      rw [if_neg hsome, if_neg hdata]
      cases hp : s.ni.isProtected with
      | true => rw [if_pos rfl, mtdReadData_protected hp hdata]
      | false =>
          have haddr : addr < 2 ^ 32 := by
            rw [← hprot, hp] at hcond
            simpa [hsome, hdata] using hcond
          rw [if_neg (by simp), h.mtdReadData_eq hg hpages hcount hp, Nat.mod_eq_of_lt haddr]

set_option maxRecDepth 100000 in
theorem read_paths_agree_newChip :
    (mtdReadOob (smallChip 16 8) 16 10 (zeroOps 100 20).dataOnly newChip).1.1 =
      (mtdReadOob (smallChip 16 8) 16 10 (zeroOps 100 20) newChip).1.1 := by
  have hacc : Accepted (smallChip 16 8) 16 8 10 (zeroOps 100 20) :=
    ⟨rfl, by decide, by decide, by decide, by decide⟩
  exact (read_paths_agree_iff smallChip_geometry hacc (by decide) false).mpr
    (.inr (.inr (by decide))) newChip (by decide +kernel) (by decide +kernel)

/-- A chip of 8 GiB. -/
def bigChip : LowerDevice :=
  { smallChip 0 8 with size := 2 ^ 33, erasesize := 2 ^ 18, writesize := 4096, oobsize := 256 }

theorem bigChip_geometry : Geometry bigChip :=
  ⟨by decide, by decide, by decide, by decide⟩

/-- A byte at 4 GiB: with a spare buffer the byte at the start of the chip is delivered. -/
theorem byte_above_moved_down :
    (mtdReadOob bigChip 64 (2 ^ 32) (zeroOps 1 1).dataOnly (shieldedSys bigChip 30000
        false)).1.1.2.head? = some 1 ∧
      (mtdReadOob bigChip 64 (2 ^ 32) (zeroOps 1 1) (shieldedSys bigChip 30000
        false)).1.1.2.head? = some 0 := by
  have hacc : Accepted bigChip 64 30000 (2 ^ 32) (zeroOps 1 1) :=
    ⟨rfl, by decide, by decide, by decide, by decide⟩
  have hstraight := shieldedSys_straight bigChip 30000 false
  constructor
  · rw [hacc.mtdReadOob_dataOnly rfl, if_neg (by decide), if_neg (by simp [shieldedSys]),
      if_neg (by decide)]
    exact readRangeLoop_head hstraight (by decide) (by decide) (by decide) (by decide) (by decide)
  · rw [hacc.mtdReadOob_eq rfl, hacc.mtdReadData_eq bigChip_geometry (by decide) rfl rfl]
    exact readRangeLoop_head hstraight (by decide) (by decide) (by decide) (by decide) (by decide)

end Immwrt.Nmbm
