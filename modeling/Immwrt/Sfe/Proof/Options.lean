import Immwrt.Sfe.Options

/-!
# Walking the options

The loop takes one turn for each option it comes to, and what it returns and what it reads are folds over
these options. So it ends, and it stays inside the header unless an option that has a length starts at the
header's last byte: the length is read without a check.
-/

namespace Immwrt.Sfe

variable {bytes : Nat → Byte}

/-! ### The largest edge -/

theorem raise_zero (x : Word) : raise x 0 = x := by
  rw [raise, if_neg (by simp)]

theorem raise_assoc (x y z : Word) : raise (raise x y) z = raise x (raise y z) := by
  simp only [raise, BitVec.lt_def]
  split_ifs <;> first | rfl | omega

theorem foldl_raise (edges : List Word) (x y : Word) :
    edges.foldl raise (raise x y) = raise x (edges.foldl raise y) := by
  induction edges generalizing y with
  | nil => rfl
  | cons e edges ih => rw [List.foldl_cons, raise_assoc, ih, List.foldl_cons]

theorem sackEdge_eq (ptr size re : Nat) (sack : Word) :
    sackEdge bytes ptr size re sack = (blockEdges bytes ptr size re).foldl raise sack := by
  induction re, sack using sackEdge.induct bytes ptr size with
  | case1 re sack hlt edge ih =>
    rw [sackEdge, blockEdges, if_pos hlt, if_pos hlt, List.foldl_cons]
    exact ih
  | case2 re sack hge => rw [sackEdge, blockEdges, if_neg hge, if_neg hge, List.foldl_nil]

/-- The update of the acknowledgment by one option. -/
theorem raise_sackEdge (ptr size : Nat) (ack : Word) :
    (if ack < sackEdge bytes ptr size 6 0 then sackEdge bytes ptr size 6 0 else ack)
      = (blockEdges bytes ptr size 6).foldl raise ack := by
  calc (if ack < sackEdge bytes ptr size 6 0 then sackEdge bytes ptr size 6 0 else ack)
      = raise ack ((blockEdges bytes ptr size 6).foldl raise 0) := by rw [sackEdge_eq]; rfl
    _ = (blockEdges bytes ptr size 6).foldl raise (raise ack 0) := (foldl_raise _ _ _).symm
    _ = (blockEdges bytes ptr size 6).foldl raise ack := by rw [raise_zero]

/-! ### One option -/

/-- One turn of the loop. -/
theorem optionTurns_succ (dataOffs n length : Nat) (ack : Word) :
    optionTurns bytes dataOffs (n + 1) length ack =
      if length < dataOffs then
        let o := optionAt bytes dataOffs length
        if o = .bad then (some none, o.reads length)
        else if o = .eol then (some (some ack), o.reads length)
        else
          let r := optionTurns bytes dataOffs n (length + o.extent)
            ((o.edges bytes length).foldl raise ack)
          (r.1, o.reads length ++ r.2)
      else (some (some ack), []) := by
  rw [optionTurns]
  split
  · unfold optionAt
    split
    · rfl
    split
    · dsimp only
      split
      · rfl
      · rw [raise_sackEdge]
        rfl
    split
    · rfl
    dsimp only
    split
    · rfl
    · rfl
  · rfl

theorem optionLoop_eq (dataOffs length : Nat) (ack : Word) :
    optionLoop bytes dataOffs length ack =
      if length < dataOffs then
        let o := optionAt bytes dataOffs length
        if o = .bad then none
        else if o = .eol then some ack
        else optionLoop bytes dataOffs (length + o.extent) ((o.edges bytes length).foldl raise ack)
      else some ack := by
  rw [optionLoop]
  split
  · unfold optionAt
    split
    · rfl
    split
    · dsimp only
      split
      · rfl
      · rw [raise_sackEdge]
        rfl
    split
    · rfl
    dsimp only
    split
    · rfl
    · rfl
  · rfl

theorem walkOptions_of_lt {dataOffs length : Nat} (hlt : length < dataOffs) :
    walkOptions bytes dataOffs length = (length, optionAt bytes dataOffs length) ::
      if (optionAt bytes dataOffs length).last then []
      else walkOptions bytes dataOffs (length + (optionAt bytes dataOffs length).extent) := by
  rw [walkOptions, if_pos hlt]

theorem walkOptions_of_ge {dataOffs length : Nat} (hge : dataOffs ≤ length) :
    walkOptions bytes dataOffs length = [] := by
  rw [walkOptions, if_neg (by omega)]

/-- The edges of the options, taken into account one by one. -/
theorem optionLoop_walk (dataOffs length : Nat) (ack : Word) :
    optionLoop bytes dataOffs length ack =
      if ∃ o ∈ walkOptions bytes dataOffs length, o.2 = .bad then none
      else some (((walkOptions bytes dataOffs length).flatMap fun o => o.2.edges bytes o.1).foldl raise ack) := by
  induction length using walkOptions.induct bytes dataOffs generalizing ack with
  | case2 length hge =>
    rw [optionLoop_eq, walkOptions, if_neg hge, if_neg hge]
    simp
  | case1 length hlt o ih =>
    rw [optionLoop_eq, walkOptions, if_pos hlt, if_pos hlt]
    simp only [← show o = optionAt bytes dataOffs length from rfl]
    by_cases hbad : o = .bad
    · rw [if_pos hbad, if_pos ⟨_, List.mem_cons_self, hbad⟩]
    by_cases heol : o = .eol
    · simp [heol, TcpOption.last, TcpOption.edges]
    have hlast : ¬ o.last := fun h => h.elim heol hbad
    rw [if_neg hbad, if_neg heol, if_neg hlast, ih]
    simp only [List.exists_mem_cons_iff, hbad, false_or, List.flatMap_cons, List.foldl_append]

/-- The bytes read for the options from an offset on. -/
def walkReads (bytes : Nat → Byte) (dataOffs length : Nat) : List Nat :=
  (walkOptions bytes dataOffs length).flatMap fun o => o.2.reads o.1

theorem walkReads_eq {dataOffs length : Nat} (hlt : length < dataOffs) :
    walkReads bytes dataOffs length = (optionAt bytes dataOffs length).reads length ++
      if (optionAt bytes dataOffs length).last then []
      else walkReads bytes dataOffs (length + (optionAt bytes dataOffs length).extent) := by
  rw [walkReads, walkOptions_of_lt hlt, List.flatMap_cons]
  split
  · rfl
  · rfl

/-- The loop is over when it has had a turn for each byte, and has then read what the walk calls for. -/
theorem optionTurns_ends {dataOffs n length : Nat} (hn : dataOffs - length < n) (ack : Word) :
    optionTurns bytes dataOffs n length ack
      = (some (optionLoop bytes dataOffs length ack), walkReads bytes dataOffs length) := by
  induction n generalizing length ack with
  | zero => omega
  | succ n ih =>
    rw [optionTurns_succ, optionLoop_eq]
    split
    · next hlt =>
      have hpos := optionAt_extent_pos bytes dataOffs length
      rw [walkReads_eq hlt]
      set o := optionAt bytes dataOffs length
      dsimp only
      by_cases hbad : o = .bad
      · rw [if_pos hbad, if_pos hbad, if_pos (.inr hbad), List.append_nil]
      by_cases heol : o = .eol
      · rw [if_neg hbad, if_neg hbad, if_pos heol, if_pos heol, if_pos (.inl heol), List.append_nil]
      have hlast : ¬ o.last := fun h => h.elim heol hbad
      rw [if_neg hbad, if_neg hbad, if_neg heol, if_neg heol, if_neg hlast, ih (by omega)]
    · next hge => rw [walkReads, walkOptions_of_ge (by omega), List.flatMap_nil]

/-- Before that it has read part of it. -/
theorem optionTurns_reads (dataOffs n length : Nat) (ack : Word) :
    ∀ x ∈ (optionTurns bytes dataOffs n length ack).2, x ∈ walkReads bytes dataOffs length := by
  induction n generalizing length ack with
  | zero => simp [optionTurns]
  | succ n ih =>
    intro x hx
    rw [optionTurns_succ] at hx
    split at hx
    · next hlt =>
      rw [walkReads_eq hlt]
      dsimp only at hx
      split at hx
      · exact List.mem_append_left _ hx
      split at hx
      · exact List.mem_append_left _ hx
      next hbad heol =>
      rw [if_neg fun h : TcpOption.last _ => h.elim heol hbad]
      rcases List.mem_append.mp hx with hx | hx
      · exact List.mem_append_left _ hx
      · exact List.mem_append_right _ (ih _ _ x hx)
    · simp at hx

/-! ### The whole function -/

/-- Two NOPs and a timestamp fill a header of 32 bytes. -/
def TimestampOnly (bytes : Nat → Byte) (dataOffs : Nat) : Prop :=
  dataOffs = 32 ∧ bytes 20 = 1 ∧ bytes 21 = 1 ∧ bytes 22 = 8 ∧ bytes 23 = 10

theorem TimestampOnly.walk {dataOffs : Nat} (h : TimestampOnly bytes dataOffs) :
    walkOptions bytes dataOffs 20 = [(20, .nop), (21, .nop), (22, .other 10)] := by
  obtain ⟨rfl, hfirst, hsecond, hkind, hsize⟩ := h
  have h20 : optionAt bytes 32 20 = .nop := by rw [optionAt, if_pos hfirst]
  have h21 : optionAt bytes 32 21 = .nop := by rw [optionAt, if_pos hsecond]
  have h22 : optionAt bytes 32 22 = .other 10 := by
    simp [optionAt, hkind, hsize]
  calc walkOptions bytes 32 20
      = (20, .nop) :: walkOptions bytes 32 21 := by
        rw [walkOptions_of_lt (by decide), h20]
        rfl
    _ = (20, .nop) :: (21, .nop) :: walkOptions bytes 32 22 := by
        rw [walkOptions_of_lt (show 21 < 32 by decide), h21]
        rfl
    _ = (20, .nop) :: (21, .nop) :: (22, .other 10) :: walkOptions bytes 32 32 := by
        rw [walkOptions_of_lt (show 22 < 32 by decide), h22]
        rfl
    _ = [(20, .nop), (21, .nop), (22, .other 10)] := by rw [walkOptions_of_ge le_rfl]

/-- The acknowledgment with the right edges of all SACK blocks taken into account. -/
theorem processTcpOptionSack_eq (dataOffs : Nat) (ack : Word) :
    processTcpOptionSack bytes dataOffs ack =
      if ∃ o ∈ walkOptions bytes dataOffs 20, o.2 = .bad then none
      else some ((sackEdges bytes dataOffs).foldl raise ack) := by
  rw [processTcpOptionSack]
  split
  · next hfast =>
    have hwalk := TimestampOnly.walk hfast
    rw [sackEdges, hwalk, if_neg (by decide)]
    rfl
  · exact optionLoop_walk dataOffs 20 ack

/-- The look for a lone timestamp reads nothing that the walk does not read. -/
theorem timestampReads_subset {dataOffs x : Nat} (hx : x ∈ timestampReads bytes dataOffs) :
    x ∈ walkReads bytes dataOffs 20 := by
  rw [timestampReads] at hx
  split at hx
  · next hoffs =>
    subst hoffs
    have hhead (length : Nat) : length ∈ (optionAt bytes 32 length).reads length := by
      cases optionAt bytes 32 length <;> exact List.mem_cons_self
    have hnop {length : Nat} (hlt : length < 32) (hone : bytes length = 1) :
        walkReads bytes 32 length = length :: walkReads bytes 32 (length + 1) := by
      have hopt : optionAt bytes 32 length = .nop := by rw [optionAt, if_pos hone]
      rw [walkReads_eq hlt, hopt, if_neg (by decide)]
      rfl
    rcases List.mem_cons.mp hx with rfl | hx
    · rw [walkReads_eq (by decide)]
      exact List.mem_append_left _ (hhead 20)
    split at hx
    · next hfirst =>
      rw [hnop (by decide) hfirst]
      apply List.mem_cons_of_mem
      rcases List.mem_cons.mp hx with rfl | hx
      · rw [walkReads_eq (by decide)]
        exact List.mem_append_left _ (hhead 21)
      split at hx
      · next hsecond =>
        rw [hnop (by decide) hsecond, walkReads_eq (by decide)]
        apply List.mem_cons_of_mem
        apply List.mem_append_left
        rcases List.mem_cons.mp hx with rfl | hx
        · exact hhead 22
        split at hx
        · next hkind =>
          obtain rfl : x = 23 := by simpa using hx
          rw [optionAt, hkind, if_neg (by decide), if_neg (by decide), if_neg (by decide)]
          dsimp only
          split <;> simp [TcpOption.reads]
        · simp at hx
      · simp at hx
    · simp at hx
  · simp at hx

theorem processTurns_ends {dataOffs n : Nat} (hn : dataOffs < n) (ack : Word) :
    (processTurns bytes dataOffs n ack).1 = some (processTcpOptionSack bytes dataOffs ack) := by
  rw [processTurns, processTcpOptionSack]
  split
  · rfl
  · dsimp only
    rw [optionTurns_ends (by omega)]

theorem processTurns_reads (dataOffs n : Nat) (ack : Word) :
    ∀ x ∈ (processTurns bytes dataOffs n ack).2, x ∈ walkReads bytes dataOffs 20 := by
  intro x hx
  rw [processTurns] at hx
  split at hx
  · exact timestampReads_subset hx
  · rcases List.mem_append.mp hx with hx | hx
    · exact timestampReads_subset hx
    · exact optionTurns_reads dataOffs n 20 ack x hx

theorem mem_processTurns {dataOffs n : Nat} (hn : dataOffs < n) (ack : Word) {x : Nat}
    (hx : x ∈ walkReads bytes dataOffs 20) : x ∈ (processTurns bytes dataOffs n ack).2 := by
  rw [processTurns]
  split
  · next hfast =>
    have hwalk := TimestampOnly.walk hfast
    obtain ⟨hoffs, hfirst, hsecond, hkind, -⟩ := hfast
    rw [walkReads, hwalk] at hx
    rw [timestampReads, if_pos hoffs, if_pos hfirst, if_pos hsecond, if_pos hkind]
    exact hx
  · apply List.mem_append_right
    rw [optionTurns_ends (by omega)]
    exact hx

/-! ### Where the bytes are -/

theorem blockReads_lt {ptr size re : Nat} (haligned : (size - re) % 8 = 4 ∨ size ≤ re) :
    ∀ x ∈ blockReads ptr size re, x < ptr + size := by
  induction re using blockReads.induct size with
  | case1 re hlt ih =>
    intro x hx
    rw [blockReads, if_pos hlt] at hx
    rcases List.mem_append.mp hx with hx | hx
    · simp only [List.mem_cons, List.not_mem_nil, or_false] at hx
      omega
    · exact ih (by omega) x hx
  | case2 re hge =>
    intro x hx
    rw [blockReads, if_neg hge] at hx
    simp at hx

theorem last_mem_blockReads {ptr size re : Nat} (haligned : (size - re) % 8 = 4) :
    ptr + size - 1 ∈ blockReads ptr size re := by
  induction re using blockReads.induct size with
  | case1 re hlt ih =>
    rw [blockReads, if_pos hlt]
    by_cases hmore : re + 8 < size
    · exact List.mem_append_right _ (ih (by omega))
    · apply List.mem_append_left
      have hlast : ptr + size - 1 = ptr + re + 3 := by omega
      simp [hlast]
  | case2 re hge => omega

/-- What holds of a SACK option that the loop accepts. -/
theorem optionAt_sack {dataOffs length size : Nat} (h : optionAt bytes dataOffs length = .sack size) :
    10 ≤ size ∧ (size - 6) % 8 = 4 ∧ size ≤ dataOffs - length := by
  rw [optionAt] at h
  split at h
  · cases h
  split at h
  · dsimp only at h
    split at h
    · cases h
    · next hsize =>
      obtain rfl := TcpOption.sack.inj h
      omega
  split at h
  · cases h
  dsimp only at h
  split at h
  · cases h
  · cases h

/-- The bytes read for an option end where its examined part ends. -/
theorem reads_lt_iff (dataOffs pos bound : Nat) :
    (∀ x ∈ (optionAt bytes dataOffs pos).reads pos, x < bound) ↔
      pos + (optionAt bytes dataOffs pos).examined ≤ bound := by
  cases hopt : optionAt bytes dataOffs pos with
  | nop => simp [TcpOption.reads, TcpOption.examined]
  | eol => simp [TcpOption.reads, TcpOption.examined]
  | bad =>
    simp only [TcpOption.reads, TcpOption.examined, List.forall_mem_cons, List.not_mem_nil,
      false_implies, implies_true, and_true]
    omega
  | other size =>
    simp only [TcpOption.reads, TcpOption.examined, List.forall_mem_cons, List.not_mem_nil,
      false_implies, implies_true, and_true]
    omega
  | sack size =>
    obtain ⟨hsize, haligned, -⟩ := optionAt_sack hopt
    simp only [TcpOption.reads, TcpOption.examined, List.forall_mem_cons]
    constructor
    · rintro ⟨-, -, hblocks⟩
      have hlast := hblocks _ (last_mem_blockReads haligned)
      omega
    · intro hle
      refine ⟨by omega, by omega, fun x hx => ?_⟩
      have hlt := blockReads_lt (.inl haligned) x hx
      omega

theorem examined_pos (bytes : Nat → Byte) (dataOffs pos : Nat) :
    0 < (optionAt bytes dataOffs pos).examined := by
  cases hopt : optionAt bytes dataOffs pos with
  | nop => exact Nat.one_pos
  | eol => exact Nat.one_pos
  | bad => exact Nat.two_pos
  | other size => exact Nat.two_pos
  | sack size =>
    obtain ⟨hsize, -, -⟩ := optionAt_sack hopt
    simp only [TcpOption.examined]
    omega

/-- The examined part of an option lies in the header, but for an option with a length at its last
byte. -/
theorem examined_le_iff {dataOffs pos : Nat} (hlt : pos < dataOffs) :
    pos + (optionAt bytes dataOffs pos).examined ≤ dataOffs ↔
      (pos + 1 = dataOffs → optionAt bytes dataOffs pos = .nop ∨ optionAt bytes dataOffs pos = .eol) := by
  cases hopt : optionAt bytes dataOffs pos with
  | nop =>
    simp only [TcpOption.examined, true_or, implies_true, iff_true]
    omega
  | eol =>
    simp only [TcpOption.examined, or_true, implies_true, iff_true]
    omega
  | bad =>
    simp only [TcpOption.examined, reduceCtorEq, or_self, imp_false]
    omega
  | other size =>
    simp only [TcpOption.examined, reduceCtorEq, or_self, imp_false]
    omega
  | sack size =>
    obtain ⟨hsize, -, hroom⟩ := optionAt_sack hopt
    simp only [TcpOption.examined, reduceCtorEq, or_self, imp_false]
    omega

theorem mem_walkOptions {dataOffs length : Nat} :
    ∀ o ∈ walkOptions bytes dataOffs length, o.1 < dataOffs ∧ o.2 = optionAt bytes dataOffs o.1 := by
  induction length using walkOptions.induct bytes dataOffs with
  | case1 length hlt o ih =>
    intro x hx
    rw [walkOptions, if_pos hlt] at hx
    rcases List.mem_cons.mp hx with rfl | hx
    · exact ⟨hlt, rfl⟩
    · split at hx
      · simp at hx
      · exact ih x hx
  | case2 length hge =>
    intro x hx
    rw [walkOptions, if_neg hge] at hx
    simp at hx

/-- The parser ends and reads within the TCP header and within the first `linear` bytes of the packet,
where the header is at `ihl`. -/
def ParsesInside (h : TcpHdr) (ihl linear : Nat) : Prop :=
  let dataOffs := h.doff.toNat * 4
  let ack := ntohl h.ackSeq
  (∃ n, (processTurns h.bytes dataOffs n ack).1 = some (processTcpOptionSack h.bytes dataOffs ack)) ∧
    ∀ n, ∀ x ∈ (processTurns h.bytes dataOffs n ack).2, x < dataOffs ∧ ihl + x < linear

/-- Whenever the window check gets to the options, the parser ends and stays inside, if and only if then no
option but NOP and EOL starts at the last byte of the header, and what is examined of each option is in the
linear data. -/
theorem parsesInside_iff (cm : TcpState) (h : TcpHdr) (ihl linear : Nat) :
    (h.parsed cm → ParsesInside h ihl linear) ↔
      (h.parsed cm → ∀ o ∈ walkOptions h.bytes (h.doff.toNat * 4) 20,
        (o.1 + 1 = h.doff.toNat * 4 → o.2 = .nop ∨ o.2 = .eol) ∧ ihl + o.1 + o.2.examined ≤ linear) := by
  apply imp_congr_right
  intro _
  set dataOffs := h.doff.toNat * 4 with hoffs
  have hreads : (∀ n, ∀ x ∈ (processTurns h.bytes dataOffs n (ntohl h.ackSeq)).2,
      x < dataOffs ∧ ihl + x < linear) ↔
      ∀ x ∈ walkReads h.bytes dataOffs 20, x < min dataOffs (linear - ihl) := by
    constructor
    · intro hall x hx
      have := hall (dataOffs + 1) x (mem_processTurns (Nat.lt_succ_self _) _ hx)
      omega
    · intro hall n x hx
      have := hall x (processTurns_reads dataOffs n _ x hx)
      omega
  have hparses : ParsesInside h ihl linear ↔
      ∀ x ∈ walkReads h.bytes dataOffs 20, x < min dataOffs (linear - ihl) := by
    rw [ParsesInside, ← hoffs, hreads, and_iff_right]
    exact ⟨_, processTurns_ends (Nat.lt_succ_self _) _⟩
  rw [hparses, walkReads, List.forall_mem_flatMap]
  apply forall₂_congr
  intro o ho
  obtain ⟨hlt, hopt⟩ := mem_walkOptions o ho
  have hpos := examined_pos h.bytes dataOffs o.1
  rw [hopt, reads_lt_iff, le_min_iff, examined_le_iff hlt, and_congr_right_iff]
  intro _
  omega

/-- A header of 24 bytes whose last option byte says that an MSS option follows. -/
def truncatedHdr : TcpHdr :=
  { seq := 0
    ackSeq := 0
    doff := 6
    syn := false
    rst := false
    fin := false
    ack := true
    window := 0
    bytes := fun i => if i < 23 then 1 else 2 }

/-- On a packet that ends with this header the parser reads a byte past the end of both. -/
theorem parsesInside_truncated :
    truncatedHdr.parsed { winScale := 0, maxWin := 1, endSeq := 0, maxEnd := 0, noSeqCheck := false } ∧
    24 ∈ (processTurns truncatedHdr.bytes 24 25 0).2 ∧ ¬ ParsesInside truncatedHdr 20 44 := by
  have hread : 24 ∈ (processTurns truncatedHdr.bytes 24 25 0).2 := by decide +kernel
  refine ⟨⟨rfl, by decide, by decide⟩, hread, ?_⟩
  intro hinside
  exact absurd (hinside.2 25 24 hread).1 (by decide)

/-! ### Other edges -/

theorem walkOptions_congr {f g : Nat → Byte} {dataOffs length : Nat} (h : ∀ i, length ≤ i → f i = g i) :
    walkOptions f dataOffs length = walkOptions g dataOffs length := by
  induction length using walkOptions.induct f dataOffs with
  | case1 length hlt o ih =>
    have hopt : optionAt g dataOffs length = optionAt f dataOffs length := by
      rw [optionAt, optionAt, h length le_rfl, h (length + 1) (Nat.le_succ _)]
    rw [walkOptions_of_lt hlt, walkOptions_of_lt hlt, hopt]
    split
    · rfl
    · next hlast =>
      rw [ih fun i hi => h i (by omega)]
  | case2 length hge => rw [walkOptions_of_ge (by omega), walkOptions_of_ge (by omega)]

theorem shiftOptions_cons (b : Word) (pos : Nat) (o : TcpOption) (rest : List (Nat × TcpOption)) (i : Nat)
    (hout : o = .sack o.extent → i < pos + 2 ∨ pos + o.extent ≤ i) :
    shiftOptions bytes b ((pos, o) :: rest) i = shiftOptions bytes b rest i := by
  cases o with
  | sack size =>
    have hout := hout rfl
    rw [shiftOptions, if_neg]
    intro hin
    simp only [TcpOption.extent] at hout
    omega
  | nop => rfl
  | eol => rfl
  | bad => rfl
  | other size => rfl

/-- Bytes before the options stay. -/
theorem shiftOptions_of_lt (b : Word) {dataOffs length i : Nat} (hi : i < length) :
    shiftOptions bytes b (walkOptions bytes dataOffs length) i = bytes i := by
  induction length using walkOptions.induct bytes dataOffs with
  | case1 length hlt o ih =>
    rw [walkOptions_of_lt hlt, shiftOptions_cons _ _ _ _ _ fun _ => .inl (by omega)]
    split
    · rfl
    · exact ih (by omega)
  | case2 length hge =>
    rw [walkOptions_of_ge (by omega)]
    rfl

section Head

variable (b : Word) {dataOffs length : Nat} (hlt : length < dataOffs)

include hlt

/-- The first option's own bytes stay, but for the blocks of a SACK option. -/
theorem shiftOptions_head {i : Nat} (hi : i < length + (optionAt bytes dataOffs length).extent)
    (hsack : optionAt bytes dataOffs length = .sack (optionAt bytes dataOffs length).extent → i < length + 2) :
    shiftOptions bytes b (walkOptions bytes dataOffs length) i = bytes i := by
  rw [walkOptions_of_lt hlt, shiftOptions_cons _ _ _ _ _ fun h => .inl (hsack h)]
  split
  · rfl
  · exact shiftOptions_of_lt b hi

/-- The bytes after the first option are those of the other options. -/
theorem shiftOptions_tail (hlast : ¬ (optionAt bytes dataOffs length).last) {i : Nat}
    (hi : length + (optionAt bytes dataOffs length).extent ≤ i) :
    shiftOptions bytes b (walkOptions bytes dataOffs length) i =
      shiftOptions bytes b (walkOptions bytes dataOffs (length + (optionAt bytes dataOffs length).extent)) i := by
  rw [walkOptions_of_lt hlt, shiftOptions_cons _ _ _ _ _ fun _ => .inr hi, if_neg hlast]

/-- The first option is the same option. -/
theorem optionAt_shiftOptions :
    optionAt (shiftOptions bytes b (walkOptions bytes dataOffs length)) dataOffs length
      = optionAt bytes dataOffs length := by
  have hpos := optionAt_extent_pos bytes dataOffs length
  have hkind : shiftOptions bytes b (walkOptions bytes dataOffs length) length = bytes length :=
    shiftOptions_head b hlt (by omega) fun _ => by omega
  by_cases htwo : 2 ≤ (optionAt bytes dataOffs length).extent
  · have hsize : shiftOptions bytes b (walkOptions bytes dataOffs length) (length + 1) = bytes (length + 1) :=
      shiftOptions_head b hlt (by omega) fun _ => by omega
    rw [optionAt, hkind, hsize]
    rfl
  · -- an option of one byte is known by its kind
    have hone : bytes length = 1 ∨ bytes length = 0 := by
      by_contra hother
      push Not at hother
      apply htwo
      rw [optionAt, if_neg hother.1]
      split
      · dsimp only
        split
        · exact le_rfl
        · simp only [TcpOption.extent]
          omega
      · rw [if_neg hother.2]
        dsimp only
        split
        · exact le_rfl
        · simp only [TcpOption.extent]
          omega
    rcases hone with hone | hone
    · rw [optionAt, hkind, optionAt, if_pos hone, if_pos hone]
    · rw [optionAt, hkind, optionAt, hone]
      rfl

end Head

/-- The edges of a header with other edges are at the same places. -/
theorem walkOptions_shiftOptions (b : Word) (dataOffs length : Nat) :
    walkOptions (shiftOptions bytes b (walkOptions bytes dataOffs length)) dataOffs length
      = walkOptions bytes dataOffs length := by
  induction length using walkOptions.induct bytes dataOffs with
  | case1 length hlt o ih =>
    rw [walkOptions_of_lt hlt, optionAt_shiftOptions b hlt]
    conv_rhs => rw [walkOptions_of_lt hlt]
    split
    · rfl
    · next hlast =>
      have htail : ∀ i, length + (optionAt bytes dataOffs length).extent ≤ i →
          shiftOptions bytes b (walkOptions bytes dataOffs length) i =
            shiftOptions bytes b
              (walkOptions bytes dataOffs (length + (optionAt bytes dataOffs length).extent)) i :=
        fun i hi => shiftOptions_tail b hlt hlast hi
      rw [walkOptions_congr htail]
      exact congrArg _ ih
  | case2 length hge => rw [walkOptions_of_ge (by omega), walkOptions_of_ge (by omega)]

theorem edgeAt_wordBe {f : Nat → Byte} {i : Nat} {w : Word}
    (h : ∀ j < 4, f (i + j) = (wordBe w).getD j 0) : edgeAt f i = w := by
  have hbytes : edgeAt f i = ofBe (wordBe w) := by
    rw [edgeAt, ofBe, ← h 0 (by decide), ← h 1 (by decide), ← h 2 (by decide), ← h 3 (by decide)]
    rfl
  rw [hbytes, ofBe_wordBe]

theorem shiftedByte_add (b : Word) {low e j : Nat} (hlow : low ≤ e) (haligned : (e - low) % 4 = 0) (hj : j < 4) :
    shiftedByte bytes b low (e + j) = (wordBe (edgeAt bytes e + b)).getD j 0 := by
  have hword : low + (e + j - low) / 4 * 4 = e := by omega
  rw [shiftedByte, hword, Nat.add_sub_cancel_left]

theorem blockEdges_of_lt {ptr size re : Nat} (hlt : re < size) :
    blockEdges bytes ptr size re = edgeAt bytes (ptr + re) :: blockEdges bytes ptr size (re + 8) := by
  rw [blockEdges, if_pos hlt]

theorem blockEdges_of_ge {ptr size re : Nat} (hge : size ≤ re) : blockEdges bytes ptr size re = [] := by
  rw [blockEdges, if_neg (by omega)]

theorem blockEdges_shift (b : Word) {f : Nat → Byte} {ptr size re : Nat} (hre : 6 ≤ re)
    (haligned : (re - 2) % 4 = 0) (hsize : (size - re) % 8 = 4 ∨ size ≤ re)
    (h : ∀ i, ptr + 2 ≤ i → i < ptr + size → f i = shiftedByte bytes b (ptr + 2) i) :
    blockEdges f ptr size re = (blockEdges bytes ptr size re).map (· + b) := by
  induction re using blockReads.induct size with
  | case1 re hlt ih =>
    rw [blockEdges_of_lt hlt, blockEdges_of_lt hlt, List.map_cons, ih (by omega) (by omega) (by omega)]
    congr 1
    apply edgeAt_wordBe
    intro j hj
    rw [h _ (by omega) (by omega)]
    exact shiftedByte_add b (by omega) (by omega) hj
  | case2 re hge => rw [blockEdges_of_ge (by omega), blockEdges_of_ge (by omega), List.map_nil]

theorem blockEdges_congr {f g : Nat → Byte} {ptr size re : Nat} (h : ∀ i, ptr ≤ i → f i = g i) :
    blockEdges f ptr size re = blockEdges g ptr size re := by
  induction re using blockReads.induct size with
  | case1 re hlt ih =>
    rw [blockEdges_of_lt hlt, blockEdges_of_lt hlt, ih]
    congr 1
    rw [edgeAt, edgeAt, h _ (by omega), h _ (by omega), h _ (by omega), h _ (by omega)]
  | case2 re hge => rw [blockEdges_of_ge (by omega), blockEdges_of_ge (by omega)]

theorem le_of_mem_walkOptions {dataOffs length : Nat} :
    ∀ o ∈ walkOptions bytes dataOffs length, length ≤ o.1 := by
  induction length using walkOptions.induct bytes dataOffs with
  | case1 length hlt o ih =>
    intro x hx
    rw [walkOptions_of_lt hlt] at hx
    rcases List.mem_cons.mp hx with rfl | hx
    · exact le_rfl
    · split at hx
      · simp at hx
      · have := ih x hx
        omega
  | case2 length hge =>
    intro x hx
    rw [walkOptions_of_ge (by omega)] at hx
    simp at hx

theorem flatMap_edges_congr {f g : Nat → Byte} {dataOffs length : Nat} (h : ∀ i, length ≤ i → f i = g i) :
    ((walkOptions bytes dataOffs length).flatMap fun o => o.2.edges f o.1)
      = (walkOptions bytes dataOffs length).flatMap fun o => o.2.edges g o.1 := by
  apply List.flatMap_congr
  intro o ho
  have hle := le_of_mem_walkOptions o ho
  cases o.2 with
  | sack size => exact blockEdges_congr fun i hi => h i (by omega)
  | nop => rfl
  | eol => rfl
  | bad => rfl
  | other size => rfl

theorem edges_shiftOptions (bytes : Nat → Byte) (b : Word) {dataOffs length : Nat} (hlt : length < dataOffs) :
    (optionAt bytes dataOffs length).edges (shiftOptions bytes b (walkOptions bytes dataOffs length)) length
      = ((optionAt bytes dataOffs length).edges bytes length).map (· + b) := by
  cases hopt : optionAt bytes dataOffs length with
  | sack size =>
    obtain ⟨hsize, haligned, -⟩ := optionAt_sack hopt
    apply blockEdges_shift b le_rfl (by decide) (.inl haligned)
    intro i hlow hhigh
    rw [walkOptions_of_lt hlt, hopt, shiftOptions, if_pos ⟨hlow, hhigh⟩]
  | nop => rfl
  | eol => rfl
  | bad => rfl
  | other size => rfl

theorem flatMap_edges_shift (b : Word) (dataOffs length : Nat) :
    ((walkOptions bytes dataOffs length).flatMap fun o =>
      o.2.edges (shiftOptions bytes b (walkOptions bytes dataOffs length)) o.1)
      = ((walkOptions bytes dataOffs length).flatMap fun o => o.2.edges bytes o.1).map (· + b) := by
  induction length using walkOptions.induct bytes dataOffs with
  | case1 length hlt o ih =>
    have hhead := edges_shiftOptions bytes b hlt
    set f := shiftOptions bytes b (walkOptions bytes dataOffs length) with hf
    rw [walkOptions_of_lt hlt, List.flatMap_cons, List.flatMap_cons, List.map_append, hhead]
    congr 1
    split
    · rfl
    · next hlast =>
      have htail : ∀ i, length + (optionAt bytes dataOffs length).extent ≤ i → f i =
          shiftOptions bytes b
            (walkOptions bytes dataOffs (length + (optionAt bytes dataOffs length).extent)) i :=
        fun i hi => shiftOptions_tail b hlt hlast hi
      rw [flatMap_edges_congr htail]
      exact ih
  | case2 length hge =>
    rw [walkOptions_of_ge (by omega)]
    rfl

/-- The right edges of the shifted header are the right edges, shifted. -/
theorem sackEdges_shiftEdges (b : Word) (dataOffs : Nat) :
    sackEdges (shiftEdges bytes b dataOffs) dataOffs = (sackEdges bytes dataOffs).map (· + b) := by
  rw [sackEdges, shiftEdges, walkOptions_shiftOptions]
  exact flatMap_edges_shift b dataOffs 20

end Immwrt.Sfe
