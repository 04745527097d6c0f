import Immwrt.Otrx.Image

/-!
# What is created is what is checked and extracted

The options lay out the file as a front, before the first `-f`, and one segment for each `-f`: the
content of its file and everything appended up to the next one. The header records where the segments
start, so the extractor finds them again.
-/

namespace Immwrt.Otrx

/-! ### The layout of a file -/

/-- What an option appends to a file that ends at `offset`. -/
def CreateOption.appended (malloc : Nat → Bool) (offset : Nat) : CreateOption → List Byte
  | .f input => input.getD [] ++ alignZeros malloc (offset + (input.getD []).length) 4
  | .A input => input.getD [] ++ alignZeros malloc (offset + (input.getD []).length) 4
  | .a alignment => alignZeros malloc offset (toSize alignment)
  | .b target => uptoZeros malloc offset target

/-- A `-f` option, whether its file can be opened or not. -/
def CreateOption.isFile : CreateOption → Bool
  | .f _ => true
  | _ => false

/-- A `-f` option whose file can be opened. -/
def CreateOption.opens : CreateOption → Bool
  | .f input => input.isSome
  | _ => false

/-- What comes before the first option that starts a segment, and the segments. -/
def segments (malloc : Nat → Bool) (starts : CreateOption → Bool) :
    Nat → List CreateOption → List Byte × List (List Byte)
  | _, [] => ([], [])
  | offset, opt :: opts =>
    let bytes := opt.appended malloc offset
    let rest := segments malloc starts (offset + bytes.length) opts
    if starts opt then ([], (bytes ++ rest.1) :: rest.2) else (bytes ++ rest.1, rest.2)

/-- The `k`-th partition the options describe. -/
def partitions (malloc : Nat → Bool) (opts : List CreateOption) : List (List Byte) :=
  (segments malloc CreateOption.isFile sizeofHeader opts).2

theorem length_segments (malloc : Nat → Bool) (starts : CreateOption → Bool) (offset : Nat)
    (opts : List CreateOption) :
    (segments malloc starts offset opts).2.length = opts.countP starts := by
  induction opts generalizing offset with
  | nil => rfl
  | cons opt opts ih =>
    rw [segments, List.countP_cons]
    split
    · rw [List.length_cons, ih]
    · rw [ih, Nat.add_zero]

theorem segments_congr {malloc : Nat → Bool} {starts starts' : CreateOption → Bool} {offset : Nat}
    {opts : List CreateOption} (hstarts : ∀ opt ∈ opts, starts opt = starts' opt) :
    segments malloc starts offset opts = segments malloc starts' offset opts := by
  induction opts generalizing offset with
  | nil => rfl
  | cons opt opts ih =>
    rw [segments, segments, hstarts opt List.mem_cons_self,
      ih fun opt hopt => hstarts opt (List.mem_cons_of_mem _ hopt)]

/-! ### The options -/

theorem CreateState.align_eq {malloc : Nat → Bool} {state state' : CreateState} {alignment : Nat}
    (halign : state.align malloc alignment = .ok state') :
    state' =
      { state with out := state.out.append (alignZeros malloc state.out.offset alignment) } := by
  unfold CreateState.align otrxCreateAlign at halign
  split at halign
  case isTrue => cases halign
  case isFalse =>
    rw [Cursor.advance_appendAlign] at halign
    exact (Except.ok.inj halign).symm

/-- What one option does to the state: the file grows, and a file that can be opened records where it
starts. -/
structure Stepped (malloc : Nat → Bool) (state state' : CreateState) (opt : CreateOption) : Prop where
  out : state'.out = state.out.append (opt.appended malloc state.out.offset)
  starts : opt.opens = true → ∃ hidx : state.currIdx < trxMaxParts,
    state'.currIdx = state.currIdx + 1 ∧
    state'.offset =
      Function.update state.offset ⟨state.currIdx, hidx⟩ (BitVec.ofNat 32 state.out.offset)
  extends' : opt.opens = false → state'.currIdx = state.currIdx ∧ state'.offset = state.offset

theorem CreateState.option_stepped {malloc : Nat → Bool} {state state' : CreateState}
    {opt : CreateOption} (hopt : state.option malloc opt = .ok state') :
    Stepped malloc state state' opt := by
  cases opt with
  | f input =>
    rw [CreateState.option] at hopt
    split at hopt
    case isFalse => cases hopt
    case isTrue hidx =>
      cases input with
      | none =>
        have hstate := CreateState.align_eq hopt
        refine ⟨?_, nofun, fun _ => ?_⟩
        · rw [hstate]
          rfl
        · rw [hstate]
          exact ⟨rfl, rfl⟩
      | some input =>
        rw [otrxCreateAppendFile, appendFile_some (by decide)] at hopt
        have hstate := CreateState.align_eq hopt
        refine ⟨?_, fun _ => ⟨hidx, ?_⟩, nofun⟩
        · rw [hstate]
          exact Cursor.append_append state.out input _
        · rw [hstate]
          exact ⟨rfl, rfl⟩
  | A input =>
    have hstate := CreateState.align_eq hopt
    rw [otrxCreateAppendFile, Cursor.advance_appendFile (by decide)] at hstate
    refine ⟨?_, nofun, fun _ => ?_⟩
    · rw [hstate]
      exact Cursor.append_append state.out _ _
    · rw [hstate]
      exact ⟨rfl, rfl⟩
  | a alignment =>
    have hstate := CreateState.align_eq hopt
    refine ⟨?_, nofun, fun _ => ?_⟩
    · rw [hstate]
      rfl
    · rw [hstate]
      exact ⟨rfl, rfl⟩
  | b target =>
    rw [CreateState.option, Cursor.advance_appendUpto] at hopt
    obtain rfl := Except.ok.inj hopt
    exact ⟨rfl, nofun, fun _ => ⟨rfl, rfl⟩⟩

/-- Where the `i`-th segment starts when the segments lie behind `offset`. -/
def segmentStart (offset : Nat) (layout : List Byte × List (List Byte)) (i : Nat) : Nat :=
  offset + layout.1.length + (layout.2.take i).flatten.length

/-- The state after a list of options that were laid out from `state` on. -/
structure Laid (state state' : CreateState) (layout : List Byte × List (List Byte)) : Prop where
  out : state'.out = state.out.append (layout.1 ++ layout.2.flatten)
  currIdx : state'.currIdx = state.currIdx + layout.2.length
  bounded : state'.currIdx ≤ trxMaxParts
  old : ∀ i : Fin 3, i < state.currIdx → state'.offset i = state.offset i
  recorded : ∀ i : Fin 3, state.currIdx ≤ i → i < state'.currIdx →
    state'.offset i = BitVec.ofNat 32 (segmentStart state.out.offset layout (i - state.currIdx))
  free : ∀ i : Fin 3, state'.currIdx ≤ i → state'.offset i = state.offset i

theorem CreateState.options_laid {malloc : Nat → Bool} {opts : List CreateOption}
    {state state' : CreateState} (hidx : state.currIdx ≤ trxMaxParts)
    (hopts : CreateState.options malloc opts state = .ok state') :
    Laid state state' (segments malloc CreateOption.opens state.out.offset opts) := by
  induction opts generalizing state with
  | nil =>
    obtain rfl := Except.ok.inj hopts
    refine ⟨?_, rfl, hidx, fun _ _ => rfl, fun i hle hlt => absurd hle (by omega), fun _ _ => rfl⟩
    simp [segments, Cursor.append]
  | cons opt opts ih =>
    rw [CreateState.options] at hopts
    split at hopts
    case h_1 => cases hopts
    case h_2 next hnext =>
      have hstep := CreateState.option_stepped hnext
      generalize hbytes : opt.appended malloc state.out.offset = bytes
      have hout : next.out = state.out.append bytes := by rw [hstep.out, hbytes]
      have hoffset : next.out.offset = state.out.offset + bytes.length := by
        rw [hout]
        rfl
      rw [segments, hbytes]
      by_cases hopens : opt.opens = true
      · obtain ⟨hfree, hnextIdx, hnextOffset⟩ := hstep.starts hopens
        have hlaid := ih (by omega) hopts
        rw [hoffset] at hlaid
        generalize segments malloc CreateOption.opens (state.out.offset + bytes.length) opts = rest at hlaid
        have hidx' := hlaid.currIdx
        rw [if_pos hopens]
        refine ⟨?_, ?_, hlaid.bounded, fun i hi => ?_, fun i hle hlt => ?_, fun i hi => ?_⟩
        · rw [hlaid.out, hout, Cursor.append_append, List.nil_append, List.flatten_cons,
            List.append_assoc]
        · rw [hidx', hnextIdx, List.length_cons]
          omega
        · rw [hlaid.old i (by omega), hnextOffset, Function.update_of_ne]
          intro heq
          rw [heq] at hi
          exact absurd hi (lt_irrefl _)
        · by_cases hfirst : i.val = state.currIdx
          · rw [hlaid.old i (by omega), hnextOffset,
              show i = ⟨state.currIdx, hfree⟩ from Fin.ext hfirst, Function.update_self]
            simp [segmentStart]
          · rw [hlaid.recorded i (by omega) hlt, hoffset, hnextIdx]
            congr 1
            obtain ⟨k, hk⟩ : ∃ k, i.val - state.currIdx = k + 1 := ⟨i - state.currIdx - 1, by omega⟩
            rw [segmentStart, segmentStart, hk, show i.val - (state.currIdx + 1) = k by omega,
              List.take_succ_cons, List.flatten_cons]
            simp only [List.length_append, List.length_nil]
            omega
        · rw [hlaid.free i hi, hnextOffset, Function.update_of_ne]
          intro heq
          rw [heq] at hi
          have hval : (⟨state.currIdx, hfree⟩ : Fin 3).val = state.currIdx := rfl
          omega
      · obtain ⟨hnextIdx, hnextOffset⟩ := hstep.extends' (Bool.eq_false_of_not_eq_true hopens)
        have hlaid := ih (by omega) hopts
        rw [hoffset] at hlaid
        generalize segments malloc CreateOption.opens (state.out.offset + bytes.length) opts = rest at hlaid
        rw [if_neg hopens]
        refine ⟨?_, ?_, hlaid.bounded, fun i hi => ?_, fun i hle hlt => ?_, fun i hi => ?_⟩
        · rw [hlaid.out, hout, Cursor.append_append, List.append_assoc]
        · rw [hlaid.currIdx, hnextIdx]
        · rw [hlaid.old i (by omega), hnextOffset]
        · rw [hlaid.recorded i (by omega) hlt, hoffset, hnextIdx]
          congr 1
          rw [segmentStart, segmentStart, List.length_append]
          dsimp only
          omega
        · rw [hlaid.free i hi, hnextOffset]

/-! ### The header -/

theorem length_bytes (hdr : TrxHeader) : hdr.bytes.length = sizeofHeader := rfl

theorem slice_header {trx : List Byte} (hdr : TrxHeader) {off n : Nat} (hoff : off + n ≤ sizeofHeader) :
    slice (splice trx 0 hdr.bytes) off n = slice hdr.bytes off n := by
  apply List.ext_getElem?
  intro i
  rw [getElem?_slice, getElem?_slice, getElem?_splice (Nat.zero_le _), length_bytes, Nat.sub_zero]
  by_cases hi : i < n
  · rw [if_pos hi, if_pos hi, if_neg (Nat.not_lt_zero _), if_pos (by omega)]
  · rw [if_neg hi, if_neg hi]

theorem getU32_header {trx : List Byte} (hdr : TrxHeader) {off : Nat} (hoff : off + 4 ≤ sizeofHeader)
    {w : Word} (hw : slice hdr.bytes off 4 = u32le w) : getU32 (splice trx 0 hdr.bytes) off = w :=
  getU32_of_slice (by rw [slice_header hdr hoff, hw])

theorem ofLe16_header {trx : List Byte} (hdr : TrxHeader) {off : Nat} (hoff : off + 2 ≤ sizeofHeader)
    {w : HalfWord} (hw : slice hdr.bytes off 2 = u16le w) :
    ofLe16 (slice (splice trx 0 hdr.bytes) off 2) = w := by
  rw [slice_header hdr hoff, hw, ofLe16_u16le]

/-- A header that is written is read back. -/
theorem readHeader_splice {trx : List Byte} (htrx : sizeofHeader ≤ trx.length) (hdr : TrxHeader) :
    readHeader (splice trx 0 hdr.bytes) = some hdr := by
  have hlen : (splice trx 0 hdr.bytes).length = trx.length :=
    length_splice (by rw [length_bytes, Nat.zero_add]; exact htrx)
  have hoffset : (fun i : Fin 3 => getU32 (splice trx 0 hdr.bytes) (16 + 4 * i)) = hdr.offset := by
    funext i
    refine getU32_header hdr (by unfold sizeofHeader; omega) ?_
    fin_cases i <;> rfl
  rw [readHeader, hlen, if_neg (by omega), getU32_header hdr (by decide) rfl,
    getU32_header hdr (by decide) rfl, getU32_header hdr (by decide) rfl,
    ofLe16_header hdr (by decide) rfl, ofLe16_header hdr (by decide) rfl, hoffset]

theorem drop_header {trx : List Byte} (hdr : TrxHeader) :
    (splice trx 0 hdr.bytes).drop trxFlagsOffset =
      hdr.bytes.drop trxFlagsOffset ++ trx.drop sizeofHeader := by
  rw [splice, List.take_zero, List.nil_append, length_bytes, Nat.zero_add]
  exact List.drop_append_of_le_length (by rw [length_bytes]; decide)

theorem streaming_otrxCrc32 : Streaming otrxCrc32 where
  nil _ := rfl
  append crc front back := by
    rw [otrxCrc32, crc32ByTbl_eq, crc32ByTbl_eq, crc32ByTbl_eq, crc32_append]

/-- The header of an image of version 1. -/
def trxHeader (length crc : Word) (offset : Fin 3 → Word) : TrxHeader :=
  { magic := trxMagic, length := length, crc32 := crc, flags := 0, version := 1, offset := offset }

/-- What writing the header leaves: a header with the checksum of what lies behind it, and the rest of
the file. -/
theorem otrxCreateWriteHdr_spec {trx : List Byte} (htrx : sizeofHeader ≤ trx.length) (length : Word)
    (offset : Fin 3 → Word) :
    ∃ crc : Word,
      readHeader (otrxCreateWriteHdr trx length offset) =
        some (trxHeader length crc offset) ∧
      crc = otrxCrc32 0xffffffff (((otrxCreateWriteHdr trx length offset).drop trxFlagsOffset).take
        (length.toNat - trxFlagsOffset)) ∧
      (otrxCreateWriteHdr trx length offset).length = trx.length ∧
      ∀ off n, sizeofHeader ≤ off →
        slice (otrxCreateWriteHdr trx length offset) off n = slice trx off n := by
  generalize hhdr : trxHeader length 0 offset = hdr
  generalize hcrc : otrxCrc32 0xffffffff (((splice trx 0 hdr.bytes).drop trxFlagsOffset).take
    (length.toNat - trxFlagsOffset)) = crc
  have hlen : (splice trx 0 hdr.bytes).length = trx.length :=
    length_splice (by rw [length_bytes, Nat.zero_add]; exact htrx)
  have hwrite : otrxCreateWriteHdr trx length offset =
      splice (splice trx 0 hdr.bytes) 0 { hdr with crc32 := crc }.bytes := by
    rw [← hhdr] at hcrc ⊢
    rw [otrxCreateWriteHdr, freadUpto_eq streaming_otrxCrc32 (by decide), ← hcrc]
    rfl
  have hdrop : (splice (splice trx 0 hdr.bytes) 0 { hdr with crc32 := crc }.bytes).drop trxFlagsOffset =
      (splice trx 0 hdr.bytes).drop trxFlagsOffset := by
    rw [splice_splice_self (Nat.zero_le _) (by rw [length_bytes, length_bytes]), drop_header,
      drop_header]
    rfl
  rw [hwrite]
  refine ⟨crc, ?_, ?_, ?_, fun off n hoff => ?_⟩
  · rw [readHeader_splice (by omega), ← hhdr]
    rfl
  · rw [hdrop, hcrc]
  · rw [length_splice (by rw [length_bytes, hlen, Nat.zero_add]; exact htrx), hlen]
  · rw [slice_splice_of_disjoint (Nat.zero_le _) (Or.inr (by rw [length_bytes]; omega)),
      slice_splice_of_disjoint (Nat.zero_le _) (Or.inr (by rw [length_bytes]; omega))]

/-! ### The image -/

/-- The file that the header is made from: the room for the header, the layout of the options, and the
zeros of the final alignment. -/
structure Body (layout : List Byte × List (List Byte)) (tail : List Byte) (state : CreateState) : Prop where
  file : state.out.file =
    List.replicate sizeofHeader 0 ++ (layout.1 ++ layout.2.flatten) ++ tail
  offset : state.out.offset = state.out.file.length
  count : layout.2.length ≤ trxMaxParts
  recorded : ∀ i : Fin 3, i < layout.2.length →
    state.offset i = BitVec.ofNat 32 (segmentStart sizeofHeader layout i)
  free : ∀ i : Fin 3, layout.2.length ≤ i → state.offset i = 0

theorem otrxCreateBody_body {malloc : Nat → Bool} {opts : List CreateOption} {state : CreateState}
    (hbody : otrxCreateBody malloc opts = .ok state) :
    ∃ tail, Body (segments malloc CreateOption.opens sizeofHeader opts) tail state := by
  unfold otrxCreateBody at hbody
  split at hbody
  case h_1 => cases hbody
  case h_2 last hlast =>
    have hlaid : Laid createStart last (segments malloc CreateOption.opens sizeofHeader opts) :=
      CreateState.options_laid (Nat.zero_le _) hlast
    generalize segments malloc CreateOption.opens sizeofHeader opts = layout at hlaid ⊢
    have hcount : last.currIdx = layout.2.length := by
      rw [hlaid.currIdx]
      exact Nat.zero_add _
    obtain rfl := CreateState.align_eq hbody
    refine ⟨alignZeros malloc last.out.offset 0x1000, ?_, ?_, ?_, fun i hi => ?_, fun i hi => ?_⟩
    · rw [hlaid.out]
      rfl
    · rw [hlaid.out]
      simp only [Cursor.append, createStart, List.length_append, List.length_replicate]
    · exact hcount ▸ hlaid.bounded
    · exact hlaid.recorded i (Nat.zero_le _) (by omega)
    · exact hlaid.free i (by omega)

/-- The number of partitions a header records. -/
def recordedParts (trx : List Byte) : Nat :=
  match readHeader trx with
  | none => 0
  | some hdr => (List.ofFn hdr.offset).countP (· ≠ 0)

section Image

variable {layout : List Byte × List (List Byte)} {tail : List Byte} {state : CreateState}

theorem Body.length (hbody : Body layout tail state) :
    state.out.file.length = sizeofHeader + (layout.1.length + layout.2.flatten.length) + tail.length := by
  rw [hbody.file]
  simp only [List.length_append, List.length_replicate]

theorem Body.segmentStart_le (hbody : Body layout tail state) (i : Nat) :
    segmentStart sizeofHeader layout i + tail.length ≤ state.out.file.length := by
  have hle := (List.take_sublist i layout.2).flatten.length_le
  rw [hbody.length, segmentStart]
  omega

/-- A segment that starts in an image is read there, with what follows it. -/
theorem Body.drop_segmentStart (hbody : Body layout tail state) (i : Nat) :
    state.out.file.drop (segmentStart sizeofHeader layout i) = (layout.2.drop i).flatten ++ tail := by
  have hsplit : state.out.file =
      (List.replicate sizeofHeader 0 ++ layout.1 ++ (layout.2.take i).flatten) ++
        ((layout.2.drop i).flatten ++ tail) := by
    rw [hbody.file]
    conv_lhs => rw [← List.take_append_drop i layout.2, List.flatten_append]
    simp only [List.append_assoc]
  rw [hsplit, List.drop_left']
  simp only [List.length_append, List.length_replicate, segmentStart]

theorem Body.offset_toNat (hbody : Body layout tail state) (hsize : state.out.file.length < 2 ^ 32)
    {i : Fin 3} (hi : i < layout.2.length) :
    (state.offset i).toNat = segmentStart sizeofHeader layout i := by
  have hle := hbody.segmentStart_le i
  rw [hbody.recorded i hi, BitVec.toNat_ofNat, Nat.mod_eq_of_lt (by omega)]

theorem Body.offset_ne_zero (hbody : Body layout tail state) (hsize : state.out.file.length < 2 ^ 32)
    (i : Fin 3) : state.offset i ≠ 0 ↔ i < layout.2.length := by
  constructor
  · intro hne
    by_contra hge
    exact hne (hbody.free i (by omega))
  · intro hi hzero
    have hstart := hbody.offset_toNat hsize hi
    rw [hzero, segmentStart] at hstart
    have hpos : 0 < sizeofHeader := by decide
    have hnil : (0 : Word).toNat = 0 := rfl
    omega

theorem countP_ofFn_lt {offset : Fin 3 → Word} {n : Nat} (hn : n ≤ 3)
    (hoffset : ∀ i : Fin 3, offset i ≠ 0 ↔ i < n) : (List.ofFn offset).countP (· ≠ 0) = n := by
  have h0 := hoffset 0
  have h1 := hoffset 1
  have h2 := hoffset 2
  simp only [List.ofFn_succ, List.ofFn_zero, List.countP_cons, List.countP_nil, decide_eq_true_eq]
  simp only [Fin.isValue, Fin.succ_zero_eq_one, Fin.succ_one_eq_two]
  simp only [h0, h1, h2, Fin.val_zero, Fin.val_one, Fin.val_two]
  interval_cases n <;> simp

theorem sizeSub_eq {a b : Nat} (hle : b ≤ a) (ha : a < 2 ^ 32) : sizeSub a b = a - b := by
  have hsub : (a : Int) - (b : Int) = ((a - b : Nat) : Int) := by omega
  rw [sizeSub, toSize, hsub]
  omega

/-- The header `hdr` that the body of an image gets, and what lies behind it. -/
structure Written (trx : List Byte) (hdr : TrxHeader) (state : CreateState) : Prop where
  read : readHeader trx = some hdr
  magic : hdr.magic = trxMagic
  hdrLength : hdr.length.toNat = state.out.file.length
  hdrCrc : hdr.crc32 = otrxCrc32 0xffffffff ((trx.drop trxFlagsOffset).take
    (state.out.file.length - trxFlagsOffset))
  hdrOffset : hdr.offset = state.offset
  length : trx.length = state.out.file.length
  behind : ∀ off n, sizeofHeader ≤ off → slice trx off n = slice state.out.file off n

theorem Body.written (hbody : Body layout tail state) (hsize : state.out.file.length < 2 ^ 32) :
    ∃ hdr, Written
      (otrxCreateWriteHdr state.out.file (BitVec.ofNat 32 state.out.offset) state.offset) hdr state := by
  have hlength : (BitVec.ofNat 32 state.out.offset).toNat = state.out.file.length := by
    rw [BitVec.toNat_ofNat, hbody.offset, Nat.mod_eq_of_lt hsize]
  have hheader : sizeofHeader ≤ state.out.file.length := by
    rw [hbody.length]
    omega
  obtain ⟨crc, hread, hcrc, hlen, hbehind⟩ :=
    otrxCreateWriteHdr_spec hheader (BitVec.ofNat 32 state.out.offset) state.offset
  rw [hlength] at hcrc
  exact ⟨_, hread, rfl, hlength, hcrc, rfl, hlen, hbehind⟩

variable {trx : List Byte} {hdr : TrxHeader}

theorem Written.check (hbody : Body layout tail state) (htrx : Written trx hdr state) :
    otrxCheck trx = .ok () := by
  have hheader : ¬ state.out.file.length < sizeofHeader := by
    rw [hbody.length]
    omega
  have hread : freadUpto 1024 otrxCrc32 0xffffffff (trx.drop trxFlagsOffset)
      (state.out.file.length - trxFlagsOffset) = _ :=
    freadUpto_eq streaming_otrxCrc32 (by decide) _ _ _
  rw [List.length_drop, htrx.length, Nat.sub_self, ← htrx.hdrCrc] at hread
  simp only [otrxCheck, htrx.read, htrx.magic, htrx.hdrLength, hread, hheader, ne_eq, not_true_eq_false,
    if_false]

theorem Written.recordedParts (hbody : Body layout tail state) (htrx : Written trx hdr state)
    (hsize : state.out.file.length < 2 ^ 32) : recordedParts trx = layout.2.length := by
  rw [Otrx.recordedParts, htrx.read]
  refine countP_ofFn_lt hbody.count fun i => ?_
  rw [htrx.hdrOffset]
  exact hbody.offset_ne_zero hsize i

/-- The length that the extractor takes for a partition reaches to the next one, or to the end. -/
theorem Written.extract_eq (hbody : Body layout tail state) (htrx : Written trx hdr state)
    (hsize : state.out.file.length < 2 ^ 32) {i : Fin 3} (hi : i < layout.2.length) :
    otrxExtract trx i =
      .ok (otrxExtractCopy trx (segmentStart sizeofHeader layout i)
        (if i.val + 1 < layout.2.length
          then segmentStart sizeofHeader layout (i + 1) - segmentStart sizeofHeader layout i
          else state.out.file.length - segmentStart sizeofHeader layout i)) := by
  have hne := (hbody.offset_ne_zero hsize i).2 hi
  have hstart := hbody.offset_toNat hsize hi
  have hle := hbody.segmentStart_le i
  simp only [otrxExtract, htrx.read, htrx.magic, htrx.hdrOffset, htrx.hdrLength, ne_eq, not_true_eq_false,
    if_false, hne, hstart]
  congr 2
  by_cases hlast : i.val + 1 < layout.2.length
  · have hnext : i.val + 1 < trxMaxParts := lt_of_lt_of_le hlast hbody.count
    have hnextNe : state.offset ⟨i.val + 1, hnext⟩ ≠ 0 := (hbody.offset_ne_zero hsize _).2 hlast
    have hnextStart : (state.offset ⟨i.val + 1, hnext⟩).toNat = segmentStart sizeofHeader layout (i + 1) :=
      hbody.offset_toNat hsize hlast
    have hnextLe := hbody.segmentStart_le (i.val + 1)
    have hmono : segmentStart sizeofHeader layout i ≤ segmentStart sizeofHeader layout (i + 1) := by
      have htake := (List.take_sublist_take_left (l := layout.2) (show i.val ≤ i.val + 1 by omega)).flatten.length_le
      rw [segmentStart, segmentStart]
      omega
    rw [dif_pos hnext, if_neg hnextNe, hnextStart, if_pos hlast, sizeSub_eq hmono (by omega)]
  · rw [if_neg hlast]
    by_cases hnext : i.val + 1 < trxMaxParts
    · have hzero : state.offset ⟨i.val + 1, hnext⟩ = 0 := hbody.free _ (by simpa using hlast)
      rw [dif_pos hnext, if_pos hzero, sizeSub_eq (by omega) hsize]
    · rw [dif_neg hnext, if_pos rfl, sizeSub_eq (by omega) hsize]

/-- The extractor recovers the segment of a partition, and the final zeros behind the last one. -/
theorem Written.extract (hbody : Body layout tail state) (htrx : Written trx hdr state)
    (hsize : state.out.file.length < 2 ^ 32) {i : Fin 3} (hi : i < layout.2.length) :
    otrxExtract trx i =
      .ok (some (layout.2.get ⟨i, hi⟩ ++ if i.val + 1 < layout.2.length then [] else tail)) := by
  have hseg : layout.2.drop i = layout.2.get ⟨i, hi⟩ :: layout.2.drop (i + 1) :=
    List.drop_eq_getElem_cons hi
  have hdrop := hbody.drop_segmentStart i
  rw [hseg, List.flatten_cons, List.append_assoc] at hdrop
  have hnext : segmentStart sizeofHeader layout (i + 1) =
      segmentStart sizeofHeader layout i + (layout.2.get ⟨i, hi⟩).length := by
    rw [segmentStart, segmentStart, List.take_succ_eq_append_getElem hi, List.flatten_append,
      List.length_append, Nat.add_assoc _ _ (List.length _)]
    simp
  have hlen := congrArg List.length hdrop
  rw [List.length_drop] at hlen
  rw [htrx.extract_eq hbody hsize hi, otrxExtractCopy, hnext]
  generalize layout.2.get ⟨i, hi⟩ = seg at hdrop hlen ⊢
  have hoff : sizeofHeader ≤ segmentStart sizeofHeader layout i := by
    rw [segmentStart]
    omega
  have hcopy : ∀ n, slice trx (segmentStart sizeofHeader layout i) n =
      (seg ++ ((layout.2.drop (i + 1)).flatten ++ tail)).take n := by
    intro n
    rw [htrx.behind _ _ hoff, slice, hdrop]
  by_cases hlast : i.val + 1 < layout.2.length
  · simp only [hcopy, hlast, if_true, Nat.add_sub_cancel_left, List.take_left, ne_eq,
      not_true_eq_false, if_false, List.append_nil]
  · have hnil : (layout.2.drop (i.val + 1)).flatten = [] := by
      rw [List.drop_eq_nil_of_le (by omega), List.flatten_nil]
    rw [hnil, List.nil_append] at hcopy hlen
    simp only [hcopy, hlast, if_false, hlen, List.take_length, ne_eq, not_true_eq_false]

end Image

/-! ### Create, check and extract -/

theorem otrxCreate_written {malloc : Nat → Bool} {opts : List CreateOption} {trx : List Byte}
    (hcreate : otrxCreate malloc opts = .ok trx) (hsize : trx.length < 2 ^ 32) :
    ∃ tail state hdr, Body (segments malloc CreateOption.opens sizeofHeader opts) tail state ∧
      Written trx hdr state ∧ state.out.file.length < 2 ^ 32 := by
  unfold otrxCreate at hcreate
  split at hcreate
  case h_1 => cases hcreate
  case h_2 state hstate =>
    obtain rfl := Except.ok.inj hcreate
    obtain ⟨tail, hbody⟩ := otrxCreateBody_body hstate
    have hheader : sizeofHeader ≤ state.out.file.length := by
      rw [hbody.length]
      omega
    obtain ⟨-, -, -, hlen, -⟩ :=
      otrxCreateWriteHdr_spec hheader (BitVec.ofNat 32 state.out.offset) state.offset
    rw [hlen] at hsize
    obtain ⟨hdr, hwritten⟩ := hbody.written hsize
    exact ⟨tail, state, hdr, hbody, hwritten, hsize⟩

theorem otrxCreate_recordedParts {malloc : Nat → Bool} {opts : List CreateOption} {trx : List Byte}
    (hcreate : otrxCreate malloc opts = .ok trx) (hsize : trx.length < 2 ^ 32) :
    recordedParts trx = opts.countP CreateOption.opens := by
  obtain ⟨tail, state, hdr, hbody, hwritten, hstate⟩ := otrxCreate_written hcreate hsize
  rw [hwritten.recordedParts hbody hstate, length_segments]

/-- What the three commands say about one image agrees with the options it was made from. -/
structure Agrees (malloc : Nat → Bool) (opts : List CreateOption) (trx : List Byte) : Prop where
  check : otrxCheck trx = .ok ()
  count : recordedParts trx = opts.countP CreateOption.isFile
  extract : ∀ k part, (partitions malloc opts)[k]? = some part →
    ∃ (hk : k < 3) (out : List Byte), otrxExtract trx ⟨k, hk⟩ = .ok (some out) ∧ part <+: out

theorem opens_eq_isFile_iff (opt : CreateOption) :
    opt.opens = opt.isFile ↔ ∀ input, opt = .f input → input.isSome = true := by
  cases opt with
  | f input =>
    constructor
    · intro heq other hother
      cases hother
      exact heq
    · intro hinput
      exact hinput input rfl
  | A input => exact ⟨fun _ => nofun, fun _ => rfl⟩
  | a alignment => exact ⟨fun _ => nofun, fun _ => rfl⟩
  | b offset => exact ⟨fun _ => nofun, fun _ => rfl⟩

/-- Options that start as many segments as there are `-f` options all open their files. -/
theorem opens_of_countP_eq {opts : List CreateOption}
    (hcount : opts.countP CreateOption.opens = opts.countP CreateOption.isFile) :
    ∀ opt ∈ opts, opt.opens = opt.isFile := by
  have himp : ∀ opt : CreateOption, opt.opens = true → opt.isFile = true := by
    intro opt hopens
    cases opt with
    | f input => rfl
    | A input => cases hopens
    | a alignment => cases hopens
    | b offset => cases hopens
  induction opts with
  | nil => simp
  | cons opt opts ih =>
    rw [List.countP_cons, List.countP_cons] at hcount
    have hle : opts.countP CreateOption.opens ≤ opts.countP CreateOption.isFile :=
      List.countP_mono_left fun opt _ => himp opt
    have hopt := himp opt
    intro other hother
    cases hopens : opt.opens <;> cases hfile : opt.isFile <;>
      simp only [hopens, hfile, if_true, if_false, Bool.false_eq_true] at hcount hopt
    case false.true => omega
    case true.false => simp at hopt
    all_goals
      rcases List.mem_cons.1 hother with rfl | hother
      · rw [hopens, hfile]
      · exact ih (by omega) other hother

/-- `otrx create`, `otrx check` and `otrx extract` agree about an image exactly when every `-f` file could
be opened: one that could not is passed over, and the file still counts as created. -/
theorem otrxCreate_agrees_iff (malloc : Nat → Bool) (opts : List CreateOption) (trx : List Byte)
    (hcreate : otrxCreate malloc opts = .ok trx) (hsize : trx.length < 2 ^ 32) :
    Agrees malloc opts trx ↔ ∀ input, .f input ∈ opts → input.isSome = true := by
  constructor
  · intro hagrees input hinput
    have hcount := hagrees.count
    rw [otrxCreate_recordedParts hcreate hsize] at hcount
    exact (opens_eq_isFile_iff _).1 (opens_of_countP_eq hcount _ hinput) input rfl
  · intro hopen
    have hstarts : ∀ opt ∈ opts, opt.opens = opt.isFile := by
      intro opt hopt
      refine (opens_eq_isFile_iff opt).2 fun input hinput => hopen input ?_
      rwa [← hinput]
    obtain ⟨tail, state, hdr, hbody, hwritten, hstate⟩ := otrxCreate_written hcreate hsize
    rw [segments_congr hstarts] at hbody
    refine ⟨hwritten.check hbody, ?_, fun k part hpart => ?_⟩
    · rw [hwritten.recordedParts hbody hstate, length_segments]
    · obtain ⟨hk, rfl⟩ := List.getElem?_eq_some_iff.1 hpart
      have hk3 : k < 3 := lt_of_lt_of_le hk hbody.count
      exact ⟨hk3, _, hwritten.extract hbody hstate (i := ⟨k, hk3⟩) hk, List.prefix_append _ _⟩

/-- Two partitions with a file appended to the first one, an alignment and zeros up to an offset. -/
def twoPartitions : List CreateOption :=
  [.f (some [1, 2, 3]), .A (some [4]), .a 16, .f (some [5]), .b 64]

theorem otrxCreate_twoPartitions_length :
    (otrxCreate (fun _ => true) twoPartitions).toOption.map List.length = some 4096 := by
  decide +kernel

theorem otrxCreate_agrees_twoPartitions :
    ∃ trx, otrxCreate (fun _ => true) twoPartitions = .ok trx ∧
      Agrees (fun _ => true) twoPartitions trx := by
  obtain ⟨trx, htrx⟩ : ∃ trx, otrxCreate (fun _ => true) twoPartitions = .ok trx := ⟨_, rfl⟩
  have hlen := otrxCreate_twoPartitions_length
  rw [htrx] at hlen
  have hsize : trx.length = 4096 := Option.some.inj hlen
  refine ⟨trx, htrx, (otrxCreate_agrees_iff _ twoPartitions trx htrx (by omega)).2 ?_⟩
  intro input hinput
  simp only [twoPartitions, List.mem_cons, CreateOption.f.injEq, reduceCtorEq, List.not_mem_nil,
    or_false, false_or] at hinput
  rcases hinput with rfl | rfl
  · rfl
  · rfl

theorem otrxCreate_missing_length :
    (otrxCreate (fun _ => true) [.f (some [1]), .f none]).toOption.map List.length = some 4096 := by
  decide +kernel

/-- The second partition is lost without an error when its file cannot be opened. -/
theorem otrxCreate_loses_partition :
    ∃ trx, otrxCreate (fun _ => true) [.f (some [1]), .f none] = .ok trx ∧ trx.length < 2 ^ 32 ∧
      ¬ Agrees (fun _ => true) [.f (some [1]), .f none] trx := by
  obtain ⟨trx, htrx⟩ : ∃ trx, otrxCreate (fun _ => true) [.f (some [1]), .f none] = .ok trx := ⟨_, rfl⟩
  have hlen := otrxCreate_missing_length
  rw [htrx] at hlen
  have hsize : trx.length = 4096 := Option.some.inj hlen
  refine ⟨trx, htrx, by omega, fun hagrees => ?_⟩
  have hcount := hagrees.count
  rw [otrxCreate_recordedParts htrx (by omega)] at hcount
  exact absurd hcount (by decide)

end Immwrt.Otrx
