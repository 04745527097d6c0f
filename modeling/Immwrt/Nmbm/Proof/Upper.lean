import Immwrt.Nmbm.Upper
import Immwrt.Nmbm.Proof.Image

/-!
# Writing through the MTD device

Both writers cut the bytes they are given into pages, and what they hand down does not depend on the
instance as long as nothing fails. So each is described by a list of pages (`requestPages` and
`rangePages`), of which a run hands down the part before the first failure (`handDown`).
-/

namespace Immwrt.Nmbm

variable {nld : LowerDevice} {s s' : Sys}

/-! ### Bytes cut into pages -/

/-- `bytes` filled up with `0xff`. -/
def pad (size : Nat) (bytes : List Byte) : List Byte :=
  bytes ++ List.replicate (size - bytes.length) 0xff

/-- The bytes of a cursor from the start of its first page. -/
def stream (off : Nat) (bytes : List Byte) : List Byte :=
  if bytes.isEmpty then [] else List.replicate off 0xff ++ bytes

/-- Page `k` of a stream that puts `room` bytes into a page, in a cache of `size` bytes. -/
def pageOf (size room : Nat) (st : List Byte) (k : Nat) : List Byte :=
  pad size (slice st (k * room) room)

def pageCount (room : Nat) (st : List Byte) : Nat := (st.length + room - 1) / room

theorem stream_zero (bytes : List Byte) : stream 0 bytes = bytes := by
  unfold stream
  split
  · rename_i h
    exact (List.isEmpty_iff.1 h).symm
  · rfl

theorem stream_eq_nil {off : Nat} {bytes : List Byte} : stream off bytes = [] ↔ bytes = [] := by
  unfold stream
  split
  · rename_i h
    simp [List.isEmpty_iff.1 h]
  · rename_i h
    have hne : bytes ≠ [] := by simpa using h
    simp [hne]

theorem length_stream {off : Nat} {bytes : List Byte} (hne : bytes ≠ []) :
    (stream off bytes).length = off + bytes.length := by
  have : bytes.isEmpty = false := by simpa using hne
  simp [stream, this]

theorem fillCache_eq {size room off : Nat} {bytes : List Byte} (hoff : off ≤ room)
    (hne : bytes ≠ []) : fillCache size room off bytes = pageOf size room (stream off bytes) 0 := by
  have hcons : bytes.isEmpty = false := by simpa using hne
  have htake : slice (stream off bytes) (0 * room) room =
      List.replicate off 0xff ++ bytes.take (min (room - off) bytes.length) := by
    rw [stream, hcons, slice, Nat.zero_mul, List.drop_zero, if_neg (by simp), List.take_append,
      List.take_of_length_le (by simpa using hoff), List.length_replicate, List.take_eq_take_min]
  rw [pageOf, htake, pad, fillCache, List.length_append, List.length_replicate, List.length_take,
    min_assoc, min_self, ← Nat.sub_sub]

theorem stream_drop {room off : Nat} {bytes : List Byte} (hoff : off ≤ room) (hne : bytes ≠ []) :
    (stream off bytes).drop room = bytes.drop (min (room - off) bytes.length) := by
  have hcons : bytes.isEmpty = false := by simpa using hne
  rw [stream, hcons, if_neg (by simp), List.drop_append, List.length_replicate,
    List.drop_eq_nil_of_le (by simpa using hoff), List.nil_append]
  by_cases hle : room - off ≤ bytes.length
  · rw [min_eq_left hle]
  · rw [min_eq_right (by omega), List.drop_eq_nil_of_le (by omega), List.drop_eq_nil_of_le le_rfl]

theorem pageOf_succ (size room : Nat) (st : List Byte) (k : Nat) :
    pageOf size room st (k + 1) = pageOf size room (st.drop room) k := by
  rw [pageOf, pageOf, slice, slice, List.drop_drop, Nat.add_one_mul, Nat.add_comm room]

theorem pageCount_nil {room : Nat} (hroom : 0 < room) : pageCount room [] = 0 := by
  rw [pageCount, List.length_nil, Nat.zero_add]
  exact Nat.div_eq_of_lt (by omega)

theorem pageCount_drop {room : Nat} {st : List Byte} (hroom : 0 < room) (hne : st ≠ []) :
    pageCount room st = pageCount room (st.drop room) + 1 := by
  have hpos := List.length_pos_of_ne_nil hne
  rw [pageCount, pageCount, List.length_drop]
  by_cases hle : room ≤ st.length
  · rw [show st.length + room - 1 = st.length - room + room - 1 + room by omega,
      Nat.add_div_right _ hroom]
  · rw [show st.length - room + room - 1 = room - 1 by omega, Nat.div_eq_of_lt (a := room - 1)
      (by omega), show st.length + room - 1 = st.length - 1 + room by omega,
      Nat.add_div_right _ hroom, Nat.div_eq_of_lt (by omega)]

theorem pageCount_pos {room : Nat} {st : List Byte} (hroom : 0 < room) (hne : st ≠ []) :
    0 < pageCount room st := by
  rw [pageCount_drop hroom hne]
  omega

/-- Past the last page there is nothing. -/
theorem pageOf_of_ge {size room k : Nat} {st : List Byte} (hroom : 0 < room)
    (hk : pageCount room st ≤ k) : pageOf size room st k = List.replicate size 0xff := by
  have hlen : st.length ≤ k * room := by
    have hlt := Nat.lt_mul_of_div_lt (show (st.length + room - 1) / room < k + 1 by
      unfold pageCount at hk
      omega) hroom
    rw [Nat.add_one_mul] at hlt
    omega
  rw [pageOf, slice, List.drop_eq_nil_of_le hlen, List.take_nil, pad]
  simp

/-! ### The pages of a request with spare bytes -/

/-- What a turn finds in a cache. -/
def cacheAt (size room : Nat) (st : List Byte) (cache : Option (List Byte)) (k : Nat) :
    Option (List Byte) :=
  if st.isEmpty then cache else some (pageOf size room st (min k (pageCount room st - 1)))

theorem cacheAt_succ {size room : Nat} (hroom : 0 < room) (st : List Byte)
    (cache : Option (List Byte)) (k : Nat) :
    cacheAt size room st cache (k + 1) =
      cacheAt size room (st.drop room) (cacheAt size room st cache 0) k := by
  unfold cacheAt
  by_cases hnil : st = []
  · simp [hnil]
  have hcons : st.isEmpty = false := by simpa using hnil
  have hcount := pageCount_drop hroom hnil
  simp only [hcons, Bool.false_eq_true, if_false, Nat.zero_min]
  by_cases hlast : st.drop room = []
  · rw [hlast, pageCount_nil hroom] at hcount
    rw [hlast, if_pos (by simp), hcount]
    simp
  · have hpos := pageCount_pos hroom hlast
    rw [if_neg (by simpa using hlast), hcount, ← pageOf_succ]
    congr 2
    omega

/-- The pages of `nmbm_mtd_write_data` if none of them fails. -/
def requestPages (nld : LowerDevice) (maxooblen : Nat) : Nat → Nat → List Byte → List Byte →
    Option (List Byte) → Option (List Byte) → List PageWrite
  | 0, _, _, _, _, _ => []
  | n + 1, addr, dat, oob, datcache, oobcache =>
      if dat.isEmpty && oob.isEmpty then []
      else
        let datcache := cacheAt nld.writesize nld.writesize dat datcache 0
        let oobcache := cacheAt nld.oobsize maxooblen oob oobcache 0
        ⟨addr, datcache, oobcache⟩ :: requestPages nld maxooblen n (addr + nld.writesize)
          (dat.drop nld.writesize) (oob.drop maxooblen) datcache oobcache

theorem requestPages_eq {maxooblen n addr : Nat} {dat oob : List Byte}
    (hws : 0 < nld.writesize) (hmax : 0 < maxooblen)
    (hn : max (pageCount nld.writesize dat) (pageCount maxooblen oob) ≤ n)
    (datcache oobcache : Option (List Byte)) :
    requestPages nld maxooblen n addr dat oob datcache oobcache =
      (List.range (max (pageCount nld.writesize dat) (pageCount maxooblen oob))).map fun k =>
        ⟨addr + k * nld.writesize, cacheAt nld.writesize nld.writesize dat datcache k,
          cacheAt nld.oobsize maxooblen oob oobcache k⟩ := by
  have hdrop : ∀ {room : Nat} (st : List Byte), 0 < room →
      pageCount room (st.drop room) = pageCount room st - 1 := by
    intro room st hroom
    by_cases hnil : st = []
    · simp [hnil, pageCount_nil hroom]
    · rw [pageCount_drop hroom hnil]
      omega
  induction n generalizing addr dat oob datcache oobcache with
  | zero =>
      rw [show max (pageCount nld.writesize dat) (pageCount maxooblen oob) = 0 by omega]
      rfl
  | succ n ih =>
      rw [requestPages]
      by_cases hdone : dat = [] ∧ oob = []
      · obtain ⟨rfl, rfl⟩ := hdone
        simp [pageCount_nil hws, pageCount_nil hmax]
      have hmore : (dat.isEmpty && oob.isEmpty) = false := by
        rw [Bool.and_eq_false_iff]
        by_cases hdat : dat = []
        · exact .inr (by simpa using fun h => hdone ⟨hdat, h⟩)
        · exact .inl (by simpa using hdat)
      obtain ⟨m, hm⟩ : ∃ m, max (pageCount nld.writesize dat) (pageCount maxooblen oob) = m + 1 := by
        apply Nat.exists_eq_succ_of_ne_zero
        rcases not_and_or.1 hdone with hdat | hoob
        · have := pageCount_pos hws hdat
          omega
        · have := pageCount_pos hmax hoob
          omega
      have hrest : max (pageCount nld.writesize (dat.drop nld.writesize))
          (pageCount maxooblen (oob.drop maxooblen)) = m := by
        rw [hdrop _ hws, hdrop _ hmax]
        omega
      rw [hmore, if_neg (by simp), hm, List.range_succ_eq_map, List.map_cons, List.map_map]
      dsimp only
      rw [ih (by omega), hrest, Nat.zero_mul, Nat.add_zero]
      congr 1
      apply List.map_congr_left
      intro k _
      simp only [Function.comp_apply, Nat.succ_eq_add_one, cacheAt_succ hws, cacheAt_succ hmax]
      congr 1
      ring

/-! ### Handing pages down -/

/-- Hand pages down until one fails: the return value, and the pages handed down. -/
def handDown (nld : LowerDevice) (mode : OobMode) : List PageWrite → Sys → Int × List PageWrite
  | [], _ => (0, [])
  | p :: ps, s =>
      let w := writeLogicPage nld p.addr p.data p.oob mode s
      if w.1 ≠ 0 then (w.1, [p])
      else
        let r := handDown nld mode ps w.2
        (r.1, p :: r.2)

/-- `s` with another page cache. -/
def Sys.withCache (s : Sys) (cache : List Byte) : Sys :=
  { s with dev := { s.dev with pageCache := cache } }

variable (nld) in
theorem writePhysPageTry_cache (addr : Nat) (data oob : Option (List Byte)) (mode : OobMode) (n : Nat)
    (d : Device) (cache : List Byte) :
    writePhysPageTry nld addr data oob mode n { d with pageCache := cache } =
      ((writePhysPageTry nld addr data oob mode n d).1,
        { (writePhysPageTry nld addr data oob mode n d).2 with pageCache := cache }) := by
  induction n generalizing d with
  | zero => rfl
  | succ n ih =>
      rw [writePhysPageTry, writePhysPageTry]
      have hpage : Device.writePage nld { d with pageCache := cache } addr data oob mode =
          ((d.writePage nld addr data oob mode).1,
            { (d.writePage nld addr data oob mode).2 with pageCache := cache }) := rfl
      rw [hpage]
      dsimp only
      split
      · rfl
      · exact ih _

variable (nld) in
theorem writePhysPage_cache (addr : Nat) (data oob : Option (List Byte)) (mode : OobMode)
    (d : Device) (cache : List Byte) :
    writePhysPage nld addr data oob mode { d with pageCache := cache } =
      ((writePhysPage nld addr data oob mode d).1,
        { (writePhysPage nld addr data oob mode d).2 with pageCache := cache }) := by
  unfold writePhysPage
  split
  · rfl
  · exact writePhysPageTry_cache nld addr data oob mode tryCount d cache

theorem neg_eio_ne_zero : -eio ≠ 0 := by decide

/-- A page that was written changed nothing but the device, and left the page cache alone. -/
theorem writeLogicPage_zero {addr : Nat} {data oob : Option (List Byte)} {mode : OobMode}
    (h : (writeLogicPage nld addr data oob mode s).1 = 0) :
    (writeLogicPage nld addr data oob mode s).2.ni = s.ni ∧
      (writeLogicPage nld addr data oob mode s).2.dev.pageCache = s.dev.pageCache ∧
      (s.dev.Healthy → (writeLogicPage nld addr data oob mode s).2.dev.Healthy) := by
  unfold writeLogicPage at h ⊢
  dsimp only at h ⊢
  split
  · rename_i hneg
    rw [if_pos hneg] at h
    exact absurd h neg_eio_ne_zero
  rename_i hneg
  rw [if_neg hneg] at h
  split
  · rename_i hbad
    rw [if_pos hbad] at h
    exact absurd h neg_eio_ne_zero
  rename_i hbad
  rw [if_neg hbad] at h
  split
  · refine ⟨rfl, ?_, (writePhysPage_touches nld _ _ _ _ _).healthy⟩
    have hcache := writePhysPage_cache nld (nld.ba2addr (s.ni.mapping
      (nld.addr2ba addr)).toNat + addr % nld.erasesize) data oob mode s.dev s.dev.pageCache
    have hsame := congrArg (fun r : Bool × Device => r.2.pageCache) hcache
    exact hsame
  · rename_i hfail
    rw [if_neg hfail] at h
    exact absurd h neg_eio_ne_zero

variable (nld) in
theorem writeLogicPage_withCache (addr : Nat) (data oob : Option (List Byte)) (mode : OobMode)
    (s : Sys) (cache : List Byte) :
    (writeLogicPage nld addr data oob mode (s.withCache cache)).1 =
        (writeLogicPage nld addr data oob mode s).1 ∧
      ((writeLogicPage nld addr data oob mode s).1 = 0 →
        (writeLogicPage nld addr data oob mode (s.withCache cache)).2 =
          (writeLogicPage nld addr data oob mode s).2.withCache cache) := by
  unfold writeLogicPage
  dsimp only
  have hni : (s.withCache cache).ni = s.ni := rfl
  have hdev : (s.withCache cache).dev = { s.dev with pageCache := cache } := rfl
  rw [hni, hdev, writePhysPage_cache]
  split
  · exact ⟨rfl, fun _ => rfl⟩
  split
  · exact ⟨rfl, fun _ => rfl⟩
  split
  · exact ⟨rfl, fun _ => rfl⟩
  · exact ⟨rfl, fun h => absurd h neg_eio_ne_zero⟩

theorem handDown_withCache (mode : OobMode) (ps : List PageWrite) (s : Sys) (cache : List Byte) :
    handDown nld mode ps (s.withCache cache) = handDown nld mode ps s := by
  induction ps generalizing s with
  | nil => rfl
  | cons p ps ih =>
      obtain ⟨hret, hnext⟩ := writeLogicPage_withCache nld p.addr p.data p.oob mode s cache
      rw [handDown, handDown]
      dsimp only
      rw [hret]
      split
      · rfl
      · rename_i hzero
        rw [hnext (by simpa using hzero), ih]

variable (nld) in
/-- A run hands down the part of the pages before the first failure. -/
theorem handDown_front (mode : OobMode) (ps : List PageWrite) (s : Sys) :
    (handDown nld mode ps s).2 <+: ps ∧
      ((handDown nld mode ps s).1 = 0 → (handDown nld mode ps s).2 = ps) := by
  induction ps generalizing s with
  | nil => exact ⟨List.prefix_rfl, fun _ => rfl⟩
  | cons p ps ih =>
      rw [handDown]
      dsimp only
      split
      · rename_i hfail
        exact ⟨by simp, fun h => absurd h hfail⟩
      · obtain ⟨hpre, hall⟩ := ih (writeLogicPage nld p.addr p.data p.oob mode s).2
        refine ⟨List.cons_prefix_cons.2 ⟨rfl, hpre⟩, fun h => ?_⟩
        rw [hall h]

/-! ### The two loops -/

theorem writeSinglePage_passes {addr : Nat} (h : passes nld s.ni addr = true)
    (data oob : Option (List Byte)) (mode : OobMode) :
    writeSinglePage nld addr data oob mode s = writeLogicPage nld addr data oob mode s := by
  simp only [passes, Bool.and_eq_true, Bool.not_eq_true', decide_eq_true_eq] at h
  have hlt : ¬ nld.ba2addr s.ni.dataBlockCount ≤ addr := not_le.2 h.2
  rw [writeSinglePage, h.1, if_neg (by simp), if_neg hlt]

theorem cacheAt_stream {size room off : Nat} (hoff : off ≤ room) (bytes : List Byte)
    (cache : Option (List Byte)) :
    cacheAt size room (stream off bytes) cache 0 =
      if bytes.isEmpty then cache else some (fillCache size room off bytes) := by
  by_cases hnil : bytes = []
  · subst hnil
    rfl
  · have hne : stream off bytes ≠ [] := fun h => hnil (stream_eq_nil.1 h)
    rw [cacheAt, if_neg (by simpa using hne), if_neg (by simpa using hnil), Nat.zero_min,
      fillCache_eq hoff hnil]

theorem stream_next {room off : Nat} (hoff : off ≤ room) (bytes : List Byte) :
    stream (if bytes.isEmpty then off else 0) (bytes.drop (min (room - off) bytes.length)) =
      (stream off bytes).drop room := by
  by_cases hnil : bytes = []
  · subst hnil
    simp [stream]
  · rw [if_neg (by simpa using hnil), stream_zero, stream_drop hoff hnil]

theorem mtdWriteDataLoop_handDown {mode : OobMode} {maxooblen n addr col ooboffs : Nat}
    {data oob : List Byte} {datcache oobcache : Option (List Byte)} (hcol : col ≤ nld.writesize)
    (hoffs : ooboffs ≤ maxooblen)
    (hpass : ∀ p ∈ requestPages nld maxooblen n addr (stream col data) (stream ooboffs oob) datcache
      oobcache, passes nld s.ni p.addr = true) :
    (mtdWriteDataLoop nld mode maxooblen n addr col data ooboffs oob datcache oobcache s).1 =
      handDown nld mode (requestPages nld maxooblen n addr (stream col data) (stream ooboffs oob)
        datcache oobcache) s := by
  induction n generalizing addr col data ooboffs oob datcache oobcache s with
  | zero => rfl
  | succ n ih =>
      have hempty : ∀ (off : Nat) (bytes : List Byte), (stream off bytes).isEmpty = bytes.isEmpty := by
        intro off bytes
        rw [Bool.eq_iff_iff, List.isEmpty_iff, List.isEmpty_iff, stream_eq_nil]
      rw [requestPages, hempty, hempty] at hpass ⊢
      rw [mtdWriteDataLoop]
      split
      · rfl
      rename_i hmore
      rw [if_neg hmore] at hpass
      dsimp only at hpass ⊢
      rw [cacheAt_stream hcol, cacheAt_stream hoffs, ← stream_next hcol, ← stream_next hoffs]
        at hpass ⊢
      have hcol' : (if data.isEmpty then col else 0) ≤ nld.writesize := by split <;> omega
      have hoffs' : (if oob.isEmpty then ooboffs else 0) ≤ maxooblen := by split <;> omega
      generalize (if data.isEmpty then datcache else some (fillCache nld.writesize nld.writesize col
        data)) = dat at hpass ⊢
      generalize (if oob.isEmpty then oobcache else some (fillCache nld.oobsize maxooblen ooboffs
        oob)) = spare at hpass ⊢
      have hfirst : passes nld s.ni addr = true := hpass _ List.mem_cons_self
      rw [handDown]
      dsimp only
      rw [hfirst, writeSinglePage_passes hfirst, if_pos rfl]
      by_cases hret : (writeLogicPage nld addr dat spare mode s).1 = 0
      · have hni := (writeLogicPage_zero hret).1
        rw [if_neg (not_not.2 hret), if_neg (not_not.2 hret)]
        rw [ih hcol' hoffs' fun p hp => by
          rw [hni]
          exact hpass p (List.mem_cons_of_mem _ hp)]
        rfl
      · rw [if_pos hret, if_pos hret]

/-- The pages of `nmbm_write_range` if none of them fails, from a page cache with these bytes. -/
def rangePages (nld : LowerDevice) : Nat → List Byte → Nat → List Byte → List PageWrite
  | 0, _, _, _ => []
  | n + 1, cache, off, data =>
      if data.isEmpty then []
      else
        let leading := off % nld.writesize
        let chunksize := nld.chunk off data.length
        let filled := splice (splice cache 0 (List.replicate leading 0xff)) leading
          (data.take chunksize)
        let page := if chunksize = nld.writesize then data.take chunksize
          else filled.take nld.writesize
        let cache := if chunksize = nld.writesize then cache else filled
        ⟨off - leading, some page, none⟩ ::
          rangePages nld n cache (off + chunksize) (data.drop chunksize)

/-- The pages that are handed down do not change what `nmbm_write_range` does. -/
theorem writeRangeLoopSent_eq (mode : OobMode) (n off : Nat) (data : List Byte) (s : Sys) :
    writeRangeLoop nld mode n off data s =
      ((writeRangeLoopSent nld mode n off data s).1.1, (writeRangeLoopSent nld mode n off data s).2) := by
  induction n generalizing off data s with
  | zero => rfl
  | succ n ih =>
      rw [writeRangeLoop, writeRangeLoopSent]
      split
      · rfl
      dsimp only
      by_cases hfull : nld.chunk off data.length = nld.writesize
      · simp only [hfull, if_true]
        split
        · rfl
        · rw [ih]
      · simp only [hfull, if_false]
        split
        · rfl
        · rw [ih]

theorem writeRangeLoopSent_handDown (mode : OobMode) (n off : Nat) (data : List Byte) (s : Sys)
    (hn : data.length ≤ n) (hws : 0 < nld.writesize) :
    ((writeRangeLoopSent nld mode n off data s).1.1.1, (writeRangeLoopSent nld mode n off data s).1.2) =
      handDown nld mode (rangePages nld n s.dev.pageCache off data) s := by
  induction n generalizing off data s with
  | zero => rfl
  | succ n ih =>
      rw [writeRangeLoopSent, rangePages]
      split
      · rfl
      rename_i hmore
      have hpos : 0 < data.length := List.length_pos_of_ne_nil (by simpa using hmore)
      have hchunk : 0 < nld.chunk off data.length := by
        have := Nat.mod_lt off hws
        unfold LowerDevice.chunk
        omega
      dsimp only
      generalize hfilled : splice (splice s.dev.pageCache 0 (List.replicate (off % nld.writesize) 0xff))
        (off % nld.writesize) (data.take (nld.chunk off data.length)) = filled
      generalize hpage : (if nld.chunk off data.length = nld.writesize then
        data.take (nld.chunk off data.length) else filled.take nld.writesize) = page
      obtain ⟨cache, hcache, hs⟩ : ∃ cache,
          (if nld.chunk off data.length = nld.writesize then s.dev.pageCache else filled) = cache ∧
          (if nld.chunk off data.length = nld.writesize then s
            else { s with dev := { s.dev with pageCache := filled } }) = s.withCache cache := by
        refine ⟨_, rfl, ?_⟩
        split <;> rfl
      rw [hs, hcache, handDown]
      obtain ⟨hret, hnext⟩ := writeLogicPage_withCache nld (off - off % nld.writesize)
        (some page) none mode s cache
      dsimp only
      rw [hret]
      by_cases hzero : (writeLogicPage nld (off - off % nld.writesize) (some page) none mode s).1 = 0
      · rw [if_neg (not_not.2 hzero), if_neg (not_not.2 hzero), hnext hzero]
        have hrest := ih (off + nld.chunk off data.length) (data.drop (nld.chunk off data.length))
          ((writeLogicPage nld (off - off % nld.writesize) (some page) none mode s).2.withCache cache)
          (by rw [List.length_drop]; omega)
        rw [handDown_withCache] at hrest
        have hc : ((writeLogicPage nld (off - off % nld.writesize) (some page) none mode
          s).2.withCache cache).dev.pageCache = cache := rfl
        rw [hc] at hrest
        rw [← hrest]
      · rw [if_pos hzero, if_pos hzero]

/-! ### A chip on which everything succeeds -/

/-- The first `count` logical blocks are mapped to good blocks and the device does not fail. -/
structure Straight (nld : LowerDevice) (count : Nat) (s : Sys) : Prop where
  mapping : ∀ lb, lb < count → s.ni.mapping lb = lb
  good : ∀ lb, lb < count → s.ni.getBlockState lb ≠ blockStBad
  healthy : s.dev.Healthy

theorem Straight.handDown {count : Nat} (h : Straight nld count s) (hrw : nld.readOnly = false)
    (mode : OobMode) {ps : List PageWrite} (hps : ∀ p ∈ ps, nld.addr2ba p.addr < count) :
    handDown nld mode ps s = (0, ps) := by
  induction ps generalizing s with
  | nil => rfl
  | cons p ps ih =>
      have hlb := hps p List.mem_cons_self
      have hzero : (writeLogicPage nld p.addr p.data p.oob mode s).1 = 0 := by
        have hbad := h.good _ hlb
        rw [writeLogicPage, h.mapping _ hlb]
        dsimp only
        rw [if_neg (by simp), if_neg (by simpa using hbad),
          if_pos (writePhysPage_healthy hrw h.healthy _ _ _ _)]
      obtain ⟨hni, -, hhealthy⟩ := writeLogicPage_zero hzero
      rw [Nmbm.handDown]
      dsimp only
      rw [if_neg (not_not.2 hzero), ih ?_ fun q hq => hps q (List.mem_cons_of_mem _ hq)]
      exact ⟨fun lb hlt => hni ▸ h.mapping lb hlt, fun lb hlt => hni ▸ h.good lb hlt,
        hhealthy h.healthy⟩

/-- A chip with `count` logical blocks, each at its own place. -/
def straightSys (nld : LowerDevice) (count : Nat) (mem : Nat → Byte) (cache : List Byte) : Sys where
  ni := { initStructure nld with
    blockState := List.replicate (count / 16 + 1) (BitVec.allOnes 32)
    blockMapping := (List.range count).map Int.ofNat
    dataBlockCount := count }
  dev := ⟨⟨mem, fun _ _ => 0xff⟩, fun _ => .good, 0, [], cache⟩
  hist := ⟨[], [], [], [], 0, 0, []⟩

theorem straightSys_straight (nld : LowerDevice) (count : Nat) (mem : Nat → Byte)
    (cache : List Byte) : Straight nld count (straightSys nld count mem cache) where
  mapping lb hlb := by
    show ((List.range count).map Int.ofNat).getD lb (-1) = lb
    rw [List.getD_eq_getElem?_getD, List.getElem?_map, List.getElem?_range hlb]
    rfl
  good lb hlb hbad := by
    have hgood : getBlockStateRaw (List.replicate (count / 16 + 1) (BitVec.allOnes 32)) lb
        = blockStGood := allOnes_good (by omega)
    exact good_ne_bad (hgood.symm.trans hbad)
  healthy _ _ := ⟨le_rfl, rfl, rfl, rfl, rfl⟩

end Immwrt.Nmbm
