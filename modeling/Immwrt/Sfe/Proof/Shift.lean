import Immwrt.Sfe.Proof.Window

/-!
# Where the sequence space wraps

The window check compares sequence numbers by the sign of their difference, so it does not matter where
the sequence space wraps: all numbers of one direction can be shifted by a constant. Only the largest SACK
edge is found by an unsigned comparison, and which edge that is depends on the shift.
-/

namespace Immwrt.Sfe

/-! ### Shifted segments and states -/

def TcpState.shift (a : Word) (t : TcpState) : TcpState :=
  { t with endSeq := t.endSeq + a, maxEnd := t.maxEnd + a }

/-- The segment with its own sequence numbers greater by `a`, and by `b` those of the other direction: the
acknowledgment and the edges of the SACK blocks. -/
def TcpHdr.shift (a b : Word) (h : TcpHdr) : TcpHdr :=
  { h with
    seq := ntohl (ntohl h.seq + a)
    ackSeq := ntohl (ntohl h.ackSeq + b)
    bytes := shiftEdges h.bytes b (h.doff.toNat * 4) }

/-- The outcome of a window check in the shifted spaces. -/
def shiftOutcome (a b : Word) : Except Exception (TcpState × TcpState) → Except Exception (TcpState × TcpState)
  | .error e => .error e
  | .ok r => .ok (r.1.shift a, r.2.shift b)

theorem ntohs_ntohs (x : BitVec 16) : ntohs (ntohs x) = x := by
  apply BitVec.eq_of_getLsbD_eq
  intro i hi
  simp only [ntohs, BitVec.getLsbD_append, BitVec.getLsbD_extractLsb']
  split <;> split <;> grind

theorem ntohl_ntohl (x : Word) : ntohl (ntohl x) = x := by
  rw [ntohl, ntohl, BitVec.extractLsb'_append_eq_right, BitVec.extractLsb'_append_eq_left, ntohs_ntohs,
    ntohs_ntohs]
  exact BitVec.extractLsb'_append_extractLsb'

section Shift

variable (a b : Word)

theorem after_add (x y c : Word) : after (x + c) (y + c) = after x y := by
  rw [after, after, show x + c - (y + c) = x - y by ring]

theorem before_add (x y c : Word) : before (x + c) (y + c) = before x y := by
  rw [before, before, show x + c - (y + c) = x - y by ring]

theorem TcpState.shift_injective : Function.Injective (TcpState.shift a) := by
  intro t u heq
  cases t
  cases u
  simpa [TcpState.shift] using heq

theorem shiftOutcome_injective : Function.Injective (shiftOutcome a b) := by
  intro x y heq
  cases x with
  | error e =>
    cases y with
    | error e' => exact congrArg _ (Except.error.inj heq)
    | ok r => cases heq
  | ok r =>
    cases y with
    | error e => cases heq
    | ok r' =>
      have hpair := Prod.ext_iff.mp (Except.ok.inj heq)
      exact congrArg _ (Prod.ext (TcpState.shift_injective a hpair.1) (TcpState.shift_injective b hpair.2))

theorem TcpHdr.shift_seq (h : TcpHdr) : ntohl (h.shift a b).seq = ntohl h.seq + a := ntohl_ntohl _

theorem TcpHdr.shift_ackSeq (h : TcpHdr) : ntohl (h.shift a b).ackSeq = ntohl h.ackSeq + b := ntohl_ntohl _

theorem segmentEnd_shift (h : TcpHdr) (len : Nat) : segmentEnd (h.shift a b) len = segmentEnd h len + a := by
  rw [segmentEnd, segmentEnd, TcpHdr.shift_seq, show (h.shift a b).doff = h.doff from rfl]
  ring

theorem scaledWin_shift (h : TcpHdr) (cm : TcpState) (sack : Word) :
    (h.shift a b).scaledWin (cm.shift a) (sack + b) = h.scaledWin cm sack := by
  rw [TcpHdr.scaledWin, TcpHdr.scaledWin, TcpHdr.shift_ackSeq,
    show sack + b - (ntohl h.ackSeq + b) = sack - ntohl h.ackSeq by ring]
  rfl

/-- From the left edge on, the check does not depend on where the sequence spaces wrap. -/
theorem edgesCheck_shift (cm counter : TcpState) (h : TcpHdr) (endSeq sack : Word) :
    edgesCheck (cm.shift a) (counter.shift b) (h.shift a b) (endSeq + a) (sack + b)
      = shiftOutcome a b (edgesCheck cm counter h endSeq sack) := by
  have hleft : (cm.shift a).endSeq - (counter.shift b).maxWin - 1 = cm.endSeq - counter.maxWin - 1 + a := by
    simp only [TcpState.shift]
    ring
  have hright : (counter.shift b).endSeq + 1 = counter.endSeq + 1 + b := by
    simp only [TcpState.shift]
    ring
  have hback : (counter.shift b).endSeq - (cm.shift a).maxWin - maxAckWindow - 1
      = counter.endSeq - cm.maxWin - maxAckWindow - 1 + b := by
    simp only [TcpState.shift]
    ring
  have hmax : sack + b + h.scaledWin cm sack = sack + h.scaledWin cm sack + b := by ring
  have hend : before (endSeq + a) (cm.shift a).endSeq = before endSeq cm.endSeq := before_add _ _ _
  have hmaxEnd : before (sack + h.scaledWin cm sack + b) (counter.shift b).maxEnd
      = before (sack + h.scaledWin cm sack) counter.maxEnd := before_add _ _ _
  rw [edgesCheck, edgesCheck, hleft, hright, hback, before_add, after_add, before_add, scaledWin_shift]
  dsimp only
  rw [hmax, hend, hmaxEnd]
  split
  · rfl
  split
  · rfl
  split
  · rfl
  simp only [shiftOutcome, TcpState.shift, apply_ite (· + a), apply_ite (· + b)]
  rfl

/-- The options are at the same places. -/
theorem TcpHdr.walkOptions_shift (h : TcpHdr) :
    walkOptions (h.shift a b).bytes (h.doff.toNat * 4) 20 = walkOptions h.bytes (h.doff.toNat * 4) 20 :=
  walkOptions_shiftOptions _ _ _

theorem TcpState.shift_maxEnd_succ (cm : TcpState) : (cm.shift a).maxEnd + 1 = cm.maxEnd + 1 + a := by
  simp only [TcpState.shift]
  ring

theorem after_right_shift (h : TcpHdr) (cm : TcpState) :
    after (ntohl (h.shift a b).seq) ((cm.shift a).maxEnd + 1) = after (ntohl h.seq) (cm.maxEnd + 1) := by
  rw [TcpHdr.shift_seq, TcpState.shift_maxEnd_succ, after_add]

theorem TcpHdr.parsed_shift (h : TcpHdr) (cm : TcpState) : (h.shift a b).parsed (cm.shift a) ↔ h.parsed cm := by
  rw [TcpHdr.parsed, TcpHdr.parsed, after_right_shift]
  rfl

theorem TcpHdr.checked_shift (h : TcpHdr) (cm : TcpState) (len : Nat) :
    (h.shift a b).Checked (cm.shift a) len ↔ h.Checked cm len := by
  have hwalk := h.walkOptions_shift a b
  constructor
  · rintro ⟨hparsed, hoptions, hroom⟩
    exact ⟨(h.parsed_shift a b cm).mp hparsed, hwalk ▸ hoptions, hroom⟩
  · rintro ⟨hparsed, hoptions, hroom⟩
    refine ⟨(h.parsed_shift a b cm).mpr hparsed, ?_, hroom⟩
    rw [show (h.shift a b).doff = h.doff from rfl, hwalk]
    exact hoptions

end Shift

/-! ### Which edge is the largest -/

/-- What the options make of the acknowledgment is the acknowledgment or one of the edges. -/
theorem foldl_raise_mem (edges : List Word) (x : Word) : edges.foldl raise x ∈ x :: edges := by
  induction edges generalizing x with
  | nil => exact List.mem_cons_self
  | cons e edges ih =>
    have hmem := ih (raise x e)
    rw [List.foldl_cons]
    rcases List.mem_cons.mp hmem with heq | hmem
    · rw [heq, raise]
      split
      · exact List.mem_cons_of_mem _ List.mem_cons_self
      · exact List.mem_cons_self
    · exact List.mem_cons_of_mem _ (List.mem_cons_of_mem _ hmem)

theorem raise_top (x : Word) : raise x (-1) = -1 := by
  rw [raise]
  split
  · rfl
  next hlt =>
  have hx := x.isLt
  rw [BitVec.lt_def] at hlt
  have htop : (-1 : Word).toNat = 2 ^ 32 - 1 := by decide
  exact BitVec.eq_of_toNat_eq (by omega)

theorem top_raise (x : Word) : raise (-1) x = -1 := by
  rw [raise, if_neg]
  have hx := x.isLt
  have htop : (-1 : Word).toNat = 2 ^ 32 - 1 := by decide
  rw [BitVec.lt_def]
  omega

/-- The greatest of all words is what the options make of it. -/
theorem foldl_raise_top {edges : List Word} {x : Word} (h : -1 ∈ x :: edges) : edges.foldl raise x = -1 := by
  induction edges generalizing x with
  | nil => exact (List.mem_singleton.mp h).symm
  | cons e edges ih =>
    rw [List.foldl_cons]
    apply ih
    rcases List.mem_cons.mp h with hx | h
    · rw [← hx, top_raise]
      exact List.mem_cons_self
    · rcases List.mem_cons.mp h with he | h
      · rw [← he, raise_top]
        exact List.mem_cons_self
      · exact List.mem_cons_of_mem _ h

section Window

variable (cm counter : TcpState) (h : TcpHdr) (len : Nat)

/-- The right edges of the SACK blocks of a header. -/
def TcpHdr.edges : List Word := sackEdges h.bytes (h.doff.toNat * 4)

theorem TcpHdr.edges_shift (a b : Word) : (h.shift a b).edges = h.edges.map (· + b) :=
  sackEdges_shiftEdges _ _

variable {cm counter h len}

/-- The check of a shifted segment is the shifted check for one of the edges or the acknowledgment. -/
theorem TcpHdr.Checked.tcpWindow_shift (hc : h.Checked cm len) (a b : Word) {x : Word}
    (hx : (h.edges.map (· + b)).foldl raise (ntohl h.ackSeq + b) = x + b) :
    tcpWindow (cm.shift a) (counter.shift b) (h.shift a b) len
      = shiftOutcome a b (edgesCheck cm counter h (segmentEnd h len) x) := by
  have hc' := (h.checked_shift a b cm len).mpr hc
  have hpick : (sackEdges (h.shift a b).bytes ((h.shift a b).doff.toNat * 4)).foldl raise
      (ntohl (h.shift a b).ackSeq) = x + b := by
    rw [TcpHdr.shift_ackSeq, ← hx, ← TcpHdr.edges_shift]
    rfl
  rw [tcpWindow_eq, hc'.tcpWindowEnd, hpick, segmentEnd_shift, edgesCheck_shift]

theorem tcpWindow_shift_of_not_checked (hc : ¬ h.Checked cm len) (a b : Word) :
    tcpWindow (cm.shift a) (counter.shift b) (h.shift a b) len
      = shiftOutcome a b (tcpWindow cm counter h len) := by
  rw [tcpWindow_eq, tcpWindow_eq, tcpWindowEnd, tcpWindowEnd, after_right_shift,
    show (cm.shift a).noSeqCheck = cm.noSeqCheck from rfl, show (h.shift a b).doff = h.doff from rfl,
    processTcpOptionSack_eq, processTcpOptionSack_eq, TcpHdr.walkOptions_shift]
  split
  · rfl
  next hseq =>
  split
  · rfl
  next hmax =>
  split
  · rfl
  next hoffs =>
  by_cases hbad : ∃ o ∈ walkOptions h.bytes (h.doff.toNat * 4) 20, o.2 = .bad
  · rw [if_pos hbad, if_pos hbad]
    rfl
  rw [if_neg hbad, if_neg hbad]
  dsimp only
  split
  · rfl
  next hroom =>
  refine absurd ⟨⟨by simpa using hseq, by simpa using hmax, not_lt.mp hoffs⟩, ?_, not_lt.mp hroom⟩ hc
  intro o ho heq
  exact hbad ⟨o, ho, heq⟩

/-- The acknowledgment with the options taken into account. -/
def TcpHdr.sack (h : TcpHdr) : Word := h.edges.foldl raise (ntohl h.ackSeq)

theorem TcpHdr.Checked.tcpWindow (hc : h.Checked cm len) :
    Sfe.tcpWindow cm counter h len = edgesCheck cm counter h (segmentEnd h len) h.sack := by
  rw [tcpWindow_eq, hc.tcpWindowEnd]
  rfl

/-- The check does not depend on where the sequence spaces wrap, if and only if it comes out the same for
every edge and for the acknowledgment. -/
theorem tcpWindow_shift_iff_edgesCheck :
    (∀ a b, tcpWindow (cm.shift a) (counter.shift b) (h.shift a b) len
      = shiftOutcome a b (tcpWindow cm counter h len)) ↔
    (h.Checked cm len → ∀ e ∈ h.edges, edgesCheck cm counter h (segmentEnd h len) e
      = edgesCheck cm counter h (segmentEnd h len) (ntohl h.ackSeq)) := by
  constructor
  · intro hshift hc
    -- each of them is the largest when it is shifted to the top
    have htop : ∀ x ∈ ntohl h.ackSeq :: h.edges,
        edgesCheck cm counter h (segmentEnd h len) x = tcpWindow cm counter h len := by
      intro x hx
      have hmax : (h.edges.map (· + (-1 - x))).foldl raise (ntohl h.ackSeq + (-1 - x)) = x + (-1 - x) := by
        rw [foldl_raise_top]
        · ring
        · have hmem := List.mem_map_of_mem (f := (· + (-1 - x))) hx
          rw [show x + (-1 - x) = -1 by ring] at hmem
          exact hmem
      apply shiftOutcome_injective 0 (-1 - x)
      rw [← hc.tcpWindow_shift 0 _ hmax]
      exact hshift 0 _
    intro e he
    calc edgesCheck cm counter h (segmentEnd h len) e
        = tcpWindow cm counter h len := htop e (List.mem_cons_of_mem _ he)
      _ = edgesCheck cm counter h (segmentEnd h len) (ntohl h.ackSeq) := (htop _ List.mem_cons_self).symm
  · intro hsame a b
    by_cases hc : h.Checked cm len
    · have hedge : ∀ x ∈ ntohl h.ackSeq :: h.edges, edgesCheck cm counter h (segmentEnd h len) x
          = edgesCheck cm counter h (segmentEnd h len) (ntohl h.ackSeq) := by
        intro x hx
        rcases List.mem_cons.mp hx with rfl | hx
        · rfl
        · exact hsame hc x hx
      have hmem := foldl_raise_mem (h.edges.map (· + b)) (ntohl h.ackSeq + b)
      rw [← List.map_cons (f := (· + b))] at hmem
      obtain ⟨x, hx, hpick⟩ := List.mem_map.mp hmem
      rw [hc.tcpWindow_shift a b hpick.symm, hc.tcpWindow, hedge x hx, hedge h.sack (foldl_raise_mem _ _)]
    · exact tcpWindow_shift_of_not_checked hc a b

/-- No end of the window past `maxEnd`. -/
def NotPast (x maxEnd : Word) : Prop := before x maxEnd = true ∨ x = maxEnd

/-- The windows that begin at `e` and at `ack` grow what is stored for them alike. -/
def TcpHdr.SameWindow (h : TcpHdr) (cm counter : TcpState) (e ack : Word) : Prop :=
  e = ack ∨
  h.scaledWin cm e ≤ cm.maxWin ∧ h.scaledWin cm ack ≤ cm.maxWin ∧
  (e + h.scaledWin cm e = ack + h.scaledWin cm ack ∨
    NotPast (e + h.scaledWin cm e) counter.maxEnd ∧ NotPast (ack + h.scaledWin cm ack) counter.maxEnd)

/-- The segment is too old whatever it acknowledges, or `e` and `ack` are on the same side of both edges
of the window, with the same effect if they are between the two. -/
def TcpHdr.SameSide (h : TcpHdr) (cm counter : TcpState) (endSeq e ack : Word) : Prop :=
  before endSeq (cm.endSeq - counter.maxWin - 1) = true ∨
  after e (counter.endSeq + 1) = after ack (counter.endSeq + 1) ∧
  (after ack (counter.endSeq + 1) = false →
    before e (counter.endSeq - cm.maxWin - maxAckWindow - 1)
      = before ack (counter.endSeq - cm.maxWin - maxAckWindow - 1) ∧
    (before ack (counter.endSeq - cm.maxWin - maxAckWindow - 1) = false → h.SameWindow cm counter e ack))

theorem scaledWin_injective {e ack : Word} (heq : h.scaledWin cm e = h.scaledWin cm ack) : e = ack := by
  rw [TcpHdr.scaledWin, TcpHdr.scaledWin] at heq
  linear_combination heq

theorem keep_eq_iff {x y maxEnd : Word} :
    (if before x maxEnd then maxEnd else x) = (if before y maxEnd then maxEnd else y) ↔
      x = y ∨ NotPast x maxEnd ∧ NotPast y maxEnd := by
  constructor
  · intro heq
    split at heq
    · next hx =>
      split at heq
      · next hy => exact .inr ⟨.inl hx, .inl hy⟩
      · exact .inr ⟨.inl hx, .inr heq.symm⟩
    · split at heq
      · next hy => exact .inr ⟨.inr heq, .inl hy⟩
      · exact .inl heq
  · rintro (rfl | ⟨hx, hy⟩)
    · rfl
    · have hkeep {z : Word} (hz : NotPast z maxEnd) : (if before z maxEnd then maxEnd else z) = maxEnd := by
        rcases hz with hz | rfl
        · exact if_pos hz
        · exact ite_self _
      rw [hkeep hx, hkeep hy]

theorem sameWindow_iff {e ack : Word} :
    h.SameWindow cm counter e ack ↔
      (if cm.maxWin < h.scaledWin cm e then h.scaledWin cm e else cm.maxWin)
        = (if cm.maxWin < h.scaledWin cm ack then h.scaledWin cm ack else cm.maxWin) ∧
      (if before (e + h.scaledWin cm e) counter.maxEnd then counter.maxEnd else e + h.scaledWin cm e)
        = (if before (ack + h.scaledWin cm ack) counter.maxEnd then counter.maxEnd
          else ack + h.scaledWin cm ack) := by
  rw [TcpHdr.SameWindow, keep_eq_iff]
  constructor
  · rintro (rfl | ⟨he, hack, hends⟩)
    · exact ⟨rfl, .inl rfl⟩
    · rw [if_neg (BitVec.not_lt.mpr he), if_neg (BitVec.not_lt.mpr hack)]
      exact ⟨rfl, hends⟩
  · rintro ⟨hwin, hends⟩
    split at hwin
    · next hlt =>
      split at hwin
      · exact .inl (scaledWin_injective hwin)
      · rw [hwin] at hlt
        exact absurd hlt (BitVec.lt_irrefl _)
    next he =>
    split at hwin
    · next hlt =>
      rw [← hwin] at hlt
      exact absurd hlt (BitVec.lt_irrefl _)
    next hack => exact .inr ⟨BitVec.not_lt.mp he, BitVec.not_lt.mp hack, hends⟩

theorem edgesCheck_eq_iff {endSeq e ack : Word} :
    edgesCheck cm counter h endSeq e = edgesCheck cm counter h endSeq ack ↔
      h.SameSide cm counter endSeq e ack := by
  rw [TcpHdr.SameSide, sameWindow_iff, edgesCheck, edgesCheck]
  by_cases hleft : before endSeq (cm.endSeq - counter.maxWin - 1) = true
  · rw [if_pos hleft, if_pos hleft]
    exact iff_of_true rfl (.inl hleft)
  rw [if_neg hleft, if_neg hleft, or_iff_right hleft]
  cases after e (counter.endSeq + 1) with
  | true =>
    cases after ack (counter.endSeq + 1) with
    | true => simp
    | false =>
      simp only [if_true, Bool.false_eq_true, if_false, reduceCtorEq, false_and, iff_false]
      split
      · intro heq
        cases heq
      · intro heq
        cases heq
  | false =>
    cases after ack (counter.endSeq + 1) with
    | true =>
      simp only [if_true, Bool.false_eq_true, if_false, reduceCtorEq, false_and, iff_false]
      split
      · intro heq
        cases heq
      · intro heq
        cases heq
    | false =>
      cases before e (counter.endSeq - cm.maxWin - maxAckWindow - 1) with
      | true =>
        cases before ack (counter.endSeq - cm.maxWin - maxAckWindow - 1) with
        | true => simp
        | false => simp
      | false =>
        cases before ack (counter.endSeq - cm.maxWin - maxAckWindow - 1) with
        | true => simp
        | false => simp

/-- The window check does not depend on where the sequence spaces wrap, if and only if every edge of a SACK
block is on the same side of the window as the acknowledgment. -/
theorem tcpWindow_shift_iff :
    (∀ a b, tcpWindow (cm.shift a) (counter.shift b) (h.shift a b) len
      = shiftOutcome a b (tcpWindow cm counter h len)) ↔
    (h.Checked cm len → ∀ e ∈ h.edges, h.SameSide cm counter (segmentEnd h len) e (ntohl h.ackSeq)) := by
  rw [tcpWindow_shift_iff_edgesCheck]
  apply imp_congr_right
  intro _
  apply forall₂_congr
  intro e _
  exact edgesCheck_eq_iff

end Window

/-! ### The decision -/

def Packet.shift (a b : Word) (p : Packet) : Packet := { p with tcp := p.tcp.shift a b }

/-- The engine with the sequence numbers that `cm` sees greater by `a`, and those of its counter match
by `b`. -/
def Sfe.shift (s : Sfe) (a b : Word) (cm counter : Nat) : Sfe :=
  { s with
    tcp := Function.update (Function.update s.tcp cm ((s.tcp cm).shift a)) counter ((s.tcp counter).shift b) }

/-- `sfe_ipv4_recv_tcp` gets as far as the window check. -/
structure Sfe.ComesToWindow (s : Sfe) (cm : Nat) (p : Packet) (ihl : Nat) (flushOnFind : Bool) : Prop where
  pulled : 20 + ihl ≤ p.pulled
  flushOnFind : flushOnFind = false
  flowAccel : (s.info cm).flowAccel = true
  ttl : ¬ p.ip.ttl < 2
  mtu : ¬ ((s.info cm).xmitDevMtu.toNat < p.len ∧ !p.gso)
  fast : p.tcp.fast = true

/-- What `sfe_ipv4_recv_tcp` does with the outcome of the window check. -/
def Sfe.afterWindow (s : Sfe) (cm : Nat) (p : Packet) : Except Exception (TcpState × TcpState) → Sfe × Received
  | .error e => (s.flushFor cm e, none)
  | .ok r =>
    { s with
      tcp := Function.update (Function.update s.tcp cm r.1) (s.info cm).counterMatch r.2 }.forward cm false p

section Decision

variable {s : Sfe} {dev : Dev} {p : Packet} {cm : Nat} {ihl : Nat} {flushOnFind : Bool}

theorem findConnectionMatch_withTcp (s : Sfe) (tcp : Nat → TcpState) (k : Key) :
    { s with tcp }.findConnectionMatch k
      = ({ (s.findConnectionMatch k).1 with tcp }, (s.findConnectionMatch k).2) := by
  rw [Sfe.findConnectionMatch, Sfe.findConnectionMatch]
  dsimp only
  cases s.matchHash (matchHashOf k) with
  | none => rfl
  | some head =>
    dsimp only
    by_cases hkey : (s.info head).key = k
    · rw [if_pos hkey, if_pos hkey]
      rfl
    · rw [if_neg hkey, if_neg hkey]
      cases s.matchLinks.find (fun cm => (s.info cm).key = k) s.fresh (s.matchLinks.next head) with
      | none => rfl
      | some cm => rfl

theorem findConnectionMatch_shift (s : Sfe) (a b : Word) (cm counter : Nat) (k : Key) :
    (s.shift a b cm counter).findConnectionMatch k
      = ((s.findConnectionMatch k).1.shift a b cm counter, (s.findConnectionMatch k).2) := by
  have htcp := findConnectionMatch_tcp s k
  rw [Sfe.shift, findConnectionMatch_withTcp, Sfe.shift, htcp]

/-- Before the window check nothing depends on the sequence numbers. -/
theorem recvTcp_shift_of_not_window
    (hfind : (s.findConnectionMatch { dev, protocol := ipprotoTcp, tuple := p.tuple }).2 = some cm)
    (hnot : ¬ s.ComesToWindow cm p ihl flushOnFind) (a b : Word) (counter : Nat) :
    (s.shift a b cm counter).recvTcp dev (p.shift a b) ihl flushOnFind
      = ((s.recvTcp dev p ihl flushOnFind).1.shift a b cm counter, (s.recvTcp dev p ihl flushOnFind).2) := by
  set k : Key := { dev, protocol := ipprotoTcp, tuple := p.tuple } with hk
  have hinfo := (sameConns_findConnectionMatch s k).info
  obtain ⟨s', hs'⟩ : ∃ s', s.findConnectionMatch k = (s', some cm) := ⟨_, Prod.ext rfl hfind⟩
  rw [hs'] at hinfo
  rw [Sfe.recvTcp, Sfe.recvTcp, show (p.shift a b).tuple = p.tuple from rfl, ← hk,
    findConnectionMatch_shift, hs']
  by_cases hpulled : p.pulled < 20 + ihl
  · rw [if_pos hpulled, if_pos (show (p.shift a b).pulled < 20 + ihl from hpulled)]
    rfl
  rw [if_neg hpulled, if_neg (show ¬ (p.shift a b).pulled < 20 + ihl from hpulled)]
  dsimp only
  rw [show (s'.shift a b cm counter).info = s'.info from rfl, show (p.shift a b).ip = p.ip from rfl,
    show (p.shift a b).len = p.len from rfl, show (p.shift a b).gso = p.gso from rfl,
    show (p.shift a b).tcp.fast = p.tcp.fast from rfl]
  by_cases hflush : flushOnFind = true
  · rw [if_pos hflush, if_pos hflush]
    rfl
  rw [if_neg hflush, if_neg hflush]
  by_cases haccel : (!(s'.info cm).flowAccel) = true
  · rw [if_pos haccel, if_pos haccel]
    rfl
  rw [if_neg haccel, if_neg haccel]
  by_cases httl : p.ip.ttl < 2
  · rw [if_pos httl, if_pos httl]
    rfl
  rw [if_neg httl, if_neg httl]
  by_cases hmtu : (s'.info cm).xmitDevMtu.toNat < p.len ∧ (!p.gso) = true
  · rw [if_pos hmtu, if_pos hmtu]
    rfl
  rw [if_neg hmtu, if_neg hmtu]
  by_cases hfast : (!p.tcp.fast) = true
  · rw [if_pos hfast, if_pos hfast]
    rfl
  rw [hinfo] at haccel hmtu
  exact absurd ⟨not_lt.mp hpulled, by simpa using hflush, by simpa using haccel, httl, hmtu,
    by simpa using hfast⟩ hnot

theorem Sfe.ComesToWindow.recvTcp (hw : s.ComesToWindow cm p ihl flushOnFind)
    (hfind : (s.findConnectionMatch { dev, protocol := ipprotoTcp, tuple := p.tuple }).2 = some cm) :
    s.recvTcp dev p ihl flushOnFind =
      (s.findConnectionMatch { dev, protocol := ipprotoTcp, tuple := p.tuple }).1.afterWindow cm p
        (tcpWindow (s.tcp cm) (s.tcp (s.info cm).counterMatch) p.tcp p.len) := by
  set k : Key := { dev, protocol := ipprotoTcp, tuple := p.tuple } with hk
  have hinfo := (sameConns_findConnectionMatch s k).info
  have htcp := findConnectionMatch_tcp s k
  obtain ⟨s', hs'⟩ : ∃ s', s.findConnectionMatch k = (s', some cm) := ⟨_, Prod.ext rfl hfind⟩
  rw [hs'] at hinfo htcp
  obtain ⟨hpulled, hflush, haccel, httl, hmtu, hfast⟩ := hw
  rw [Sfe.recvTcp, ← hk, hs', if_neg (not_lt.mpr hpulled)]
  dsimp only
  rw [← hinfo] at haccel hmtu
  rw [hflush, haccel, hfast, if_neg Bool.false_ne_true, if_neg (by decide), if_neg httl, if_neg hmtu,
    if_neg (by decide), htcp, hinfo]
  cases tcpWindow (s.tcp cm) (s.tcp (s.info cm).counterMatch) p.tcp p.len with
  | error e => rfl
  | ok r =>
    rw [Sfe.afterWindow, hinfo, htcp]

theorem Sfe.ComesToWindow.shift (hw : s.ComesToWindow cm p ihl flushOnFind) (a b : Word) (counter : Nat) :
    (s.shift a b cm counter).ComesToWindow cm (p.shift a b) ihl flushOnFind :=
  ⟨hw.pulled, hw.flushOnFind, hw.flowAccel, hw.ttl, hw.mtu, hw.fast⟩

theorem forward_withTcp (s : Sfe) (tcp : Nat → TcpState) (cm : Nat) (udp : Bool) (p : Packet) :
    { s with tcp }.forward cm udp p = ({ (s.forward cm udp p).1 with tcp }, (s.forward cm udp p).2) := by
  rw [Sfe.forward, Sfe.forward]
  split
  · rfl
  · rfl

theorem afterWindow_shift (hne : (s.info cm).counterMatch ≠ cm) (a b : Word)
    (o : Except Exception (TcpState × TcpState)) :
    (s.shift a b cm (s.info cm).counterMatch).afterWindow cm (p.shift a b) (shiftOutcome a b o)
      = ((s.afterWindow cm p o).1.shift a b cm (s.info cm).counterMatch, (s.afterWindow cm p o).2) := by
  cases o with
  | error e => rfl
  | ok r =>
    set counter := (s.info cm).counterMatch
    set stored := Function.update (Function.update s.tcp cm r.1) counter r.2 with hstored
    have htcp :
        Function.update (Function.update (s.shift a b cm counter).tcp cm (r.1.shift a)) counter (r.2.shift b)
          = Function.update (Function.update stored cm ((stored cm).shift a)) counter
            ((stored counter).shift b) := by
      have hcm : stored cm = r.1 := by rw [hstored, Function.update_of_ne hne.symm, Function.update_self]
      have hcounter : stored counter = r.2 := Function.update_self _ _ _
      rw [hcm, hcounter]
      funext m
      simp only [Sfe.shift, hstored, Function.update_apply]
      split
      · rfl
      split
      · rfl
      · rfl
    set shifted := Function.update (Function.update stored cm ((stored cm).shift a)) counter
      ((stored counter).shift b)
    have hforward := forward_withTcp s stored cm false p
    calc (s.shift a b cm counter).afterWindow cm (p.shift a b) (shiftOutcome a b (.ok r))
        = Sfe.forward { s with tcp := shifted } cm false p := by
          rw [← htcp]
          rfl
      _ = ({ (s.forward cm false p).1 with tcp := shifted }, (s.forward cm false p).2) :=
          forward_withTcp s shifted cm false p
      _ = ((s.afterWindow cm p (.ok r)).1.shift a b cm counter, (s.afterWindow cm p (.ok r)).2) := by
          rw [Sfe.afterWindow, hforward]
          rfl

theorem flushFor_injective (s : Sfe) (cm : Nat) : Function.Injective (s.flushFor cm) := by
  intro e e' heq
  by_contra hne
  have hcount := congrArg (fun s => s.count (.exception e)) heq
  simp only [Sfe.flushFor, Sfe.notForwarded, Sfe.bump, Function.update_apply, reduceCtorEq, if_false,
    Counter.exception.injEq, if_neg hne, if_true] at hcount
  exact absurd hcount (by simp)

theorem forward_pending (s : Sfe) (cm : Nat) (udp : Bool) (p : Packet) :
    (s.forward cm udp p).1.pending = s.pending := by
  rw [Sfe.forward]
  split
  · rfl
  · rfl

/-- The outcome of the window check can be told from what follows it. -/
theorem afterWindow_injective (hne : (s.info cm).counterMatch ≠ cm) :
    Function.Injective (s.afterWindow cm p) := by
  have hflush (e : Exception) (r : TcpState × TcpState) :
      s.afterWindow cm p (.error e) ≠ s.afterWindow cm p (.ok r) := by
    intro heq
    have hpending := congrArg (fun r : Sfe × Received => r.1.pending.length) heq
    rw [Sfe.afterWindow, Sfe.afterWindow, forward_pending] at hpending
    have hlonger : (s.flushFor cm e).pending.length = s.pending.length + 1 := List.length_append
    exact absurd (hlonger.symm.trans hpending) (Nat.succ_ne_self _)
  intro o o' heq
  cases o with
  | error e =>
    cases o' with
    | error e' => exact congrArg _ (flushFor_injective s cm (congrArg Prod.fst heq))
    | ok r => exact absurd heq (hflush e r)
  | ok r =>
    cases o' with
    | error e => exact absurd heq.symm (hflush e r)
    | ok r' =>
      have htcp := congrArg (fun r : Sfe × Received => r.1.tcp) heq
      simp only [Sfe.afterWindow, forward_tcp] at htcp
      have hcm := congrFun htcp cm
      have hcounter := congrFun htcp (s.info cm).counterMatch
      rw [Function.update_of_ne hne.symm, Function.update_of_ne hne.symm, Function.update_self,
        Function.update_self] at hcm
      rw [Function.update_self, Function.update_self] at hcounter
      exact congrArg _ (Prod.ext hcm hcounter)

/-- What `sfe_ipv4_recv_tcp` does with a segment does not depend on where the sequence spaces wrap, if and
only if, whenever the window check gets to the edges, every edge of a SACK block is on the same side of the
window as the acknowledgment. -/
theorem recvTcp_shift_iff
    (hfind : (s.findConnectionMatch { dev, protocol := ipprotoTcp, tuple := p.tuple }).2 = some cm)
    (hne : (s.info cm).counterMatch ≠ cm) :
    (∀ a b, (s.shift a b cm (s.info cm).counterMatch).recvTcp dev (p.shift a b) ihl flushOnFind
      = ((s.recvTcp dev p ihl flushOnFind).1.shift a b cm (s.info cm).counterMatch,
        (s.recvTcp dev p ihl flushOnFind).2)) ↔
    (s.ComesToWindow cm p ihl flushOnFind → p.tcp.Checked (s.tcp cm) p.len →
      ∀ e ∈ p.tcp.edges, p.tcp.SameSide (s.tcp cm) (s.tcp (s.info cm).counterMatch)
        (segmentEnd p.tcp p.len) e (ntohl p.tcp.ackSeq)) := by
  set counter := (s.info cm).counterMatch with hcounter
  by_cases hw : s.ComesToWindow cm p ihl flushOnFind
  · rw [forall_prop_of_true hw, ← tcpWindow_shift_iff]
    apply forall₂_congr
    intro a b
    set k : Key := { dev, protocol := ipprotoTcp, tuple := p.tuple } with hk
    have hinfo := (sameConns_findConnectionMatch s k).info
    have hfind' : ((s.shift a b cm counter).findConnectionMatch
        { dev, protocol := ipprotoTcp, tuple := (p.shift a b).tuple }).2 = some cm := by
      rw [findConnectionMatch_shift]
      exact hfind
    have hcm : (s.shift a b cm counter).tcp cm = (s.tcp cm).shift a := by
      simp only [Sfe.shift]
      rw [Function.update_of_ne hne.symm, Function.update_self]
    have hother : (s.shift a b cm counter).tcp counter = (s.tcp counter).shift b := Function.update_self _ _ _
    have hshifted := (hw.shift a b counter).recvTcp hfind'
    rw [findConnectionMatch_shift, show ((s.shift a b cm counter).info cm).counterMatch = counter from rfl,
      hcm, hother, show (p.shift a b).tuple = p.tuple from rfl, ← hk] at hshifted
    set s' := (s.findConnectionMatch k).1 with hs'
    have hcounter' : (s'.info cm).counterMatch = counter := by rw [hinfo]
    have hne' : (s'.info cm).counterMatch ≠ cm := hcounter' ▸ hne
    have hafter := afterWindow_shift (p := p) hne' a b (tcpWindow (s.tcp cm) (s.tcp counter) p.tcp p.len)
    have hinj : Function.Injective ((s'.shift a b cm counter).afterWindow cm (p.shift a b)) :=
      afterWindow_injective hne'
    rw [hcounter'] at hafter
    rw [hshifted, hw.recvTcp hfind, ← hk, ← hcounter, ← hafter]
    exact hinj.eq_iff
  · refine iff_of_true ?_ fun hw' => absurd hw' hw
    intro a b
    exact recvTcp_shift_of_not_window hfind hw a b counter

/-- The match of a packet and its counter match are two, in every run. -/
theorem Sfe.Initial.counter_ne (h : s.Initial) (steps : List Step) {k : Key}
    (hfind : ((s.run steps).findConnectionMatch k).2 = some cm) : ((s.run steps).info cm).counterMatch ≠ cm := by
  obtain ⟨all, hsound⟩ := h.sound.run steps
  obtain ⟨⟨c, hc, hcm⟩, -⟩ := hsound.found hfind
  exact (hsound.inv.counter hc hcm).1

end Decision

theorem recvTcp_shift_tcpPacket :
    (((Sfe.zeroed true).createRule tcpRule true 0).1.shift 0x80000000 0xffffff00 1 2).recvTcp 1
        ((tcpPacket 40).shift 0x80000000 0xffffff00) 20 false
      = ((((Sfe.zeroed true).createRule tcpRule true 0).1.recvTcp 1 (tcpPacket 40) 20 false).1.shift
          0x80000000 0xffffff00 1 2,
        (((Sfe.zeroed true).createRule tcpRule true 0).1.recvTcp 1 (tcpPacket 40) 20 false).2) := by
  have hedges : (tcpPacket 40).tcp.edges = [] := by
    rw [TcpHdr.edges, sackEdges, walkOptions_of_ge (by decide), List.flatMap_nil]
  have hfind : (((Sfe.zeroed true).createRule tcpRule true 0).1.findConnectionMatch
      { dev := 1, protocol := ipprotoTcp, tuple := (tcpPacket 40).tuple }).2 = some 1 := by
    decide +kernel
  have hne : (((Sfe.zeroed true).createRule tcpRule true 0).1.info 1).counterMatch ≠ 1 := by
    decide +kernel
  apply (recvTcp_shift_iff hfind hne).mpr
  intro _ _ e he
  rw [hedges] at he
  cases he

/-- A TCP flow whose receiver has sent up to 68000. -/
def sackRule : Rule :=
  { tcpRule with
    srcTd := { winScale := 0, maxWin := 1000, endSeq := 0, maxEnd := 0, noSeqCheck := false }
    destTd := { winScale := 0, maxWin := 1000, endSeq := 68000, maxEnd := 68000, noSeqCheck := false } }

/-- An acknowledgment of 1000 with a SACK block from 65000 to 66000. -/
def sackPacket : Packet :=
  { tcpPacket 52 with
    pulled := 52
    ip := { (tcpPacket 52).ip with totLen := 0x3400 }
    tcp :=
      { (tcpPacket 52).tcp with
        ackSeq := ntohl 1000
        doff := 8
        bytes := fun i => ([1, 1, 5, 10] ++ wordBe 65000 ++ wordBe 66000).getD (i - 20) 0 } }

/-- The packet is forwarded, but when the sequence numbers of its acknowledgment are shifted down past zero
and those of its SACK block are not, its connection is flushed. -/
theorem recvTcp_shift_sackPacket :
    (((Sfe.zeroed true).createRule sackRule true 0).1.recvTcp 1 sackPacket 20 false).2.isSome = true ∧
    ((((Sfe.zeroed true).createRule sackRule true 0).1.shift 0 (-10000) 1 2).recvTcp 1
      (sackPacket.shift 0 (-10000)) 20 false).1.count (.exception .tcpAckBeforeLeftEdge) = 1 ∧
    ¬ ∀ a b, (((Sfe.zeroed true).createRule sackRule true 0).1.shift a b 1 2).recvTcp 1
        (sackPacket.shift a b) 20 false
      = ((((Sfe.zeroed true).createRule sackRule true 0).1.recvTcp 1 sackPacket 20 false).1.shift a b 1 2,
        (((Sfe.zeroed true).createRule sackRule true 0).1.recvTcp 1 sackPacket 20 false).2) := by
  have hforwarded : (((Sfe.zeroed true).createRule sackRule true 0).1.recvTcp 1 sackPacket 20 false).2.isSome
      = true := by decide +kernel
  have hflushed : ((((Sfe.zeroed true).createRule sackRule true 0).1.shift 0 (-10000) 1 2).recvTcp 1
      (sackPacket.shift 0 (-10000)) 20 false).2.isSome = false := by decide +kernel
  refine ⟨hforwarded, by decide +kernel, ?_⟩
  intro hshift
  rw [hshift 0 (-10000), hforwarded] at hflushed
  cases hflushed

end Immwrt.Sfe
