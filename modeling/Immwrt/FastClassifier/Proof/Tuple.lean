import Immwrt.FastClassifier.Tuple
import Immwrt.Lib.Filing
import Immwrt.Lib.Bits

/-!
# Lookups by a reported tuple

A lookup compares the reported tuple but takes the bucket of it, and a connection hangs in the bucket of its
original tuple. The two agree where the destination is not translated, and otherwise by chance.
-/

namespace Immwrt.FastClassifier

/-! ### Addresses and hashes -/

variable {a a' b b' : IpAddr} {isV4 : Bool}

theorem words_eq_iff : ((a 0 = b 0 ∧ a 1 = b 1) ∧ a 2 = b 2) ∧ a 3 = b 3 ↔ a = b := by
  constructor
  · rintro ⟨⟨⟨h0, h1⟩, h2⟩, h3⟩
    funext i
    fin_cases i
    exacts [h0, h1, h2, h3]
  · rintro rfl
    exact ⟨⟨⟨rfl, rfl⟩, rfl⟩, rfl⟩

theorem addrBits_v4 : addrBits true a = addrBits true b ↔ a 0 = b 0 := by
  rw [addrBits, addrBits, if_pos rfl, if_pos rfl, append_inj, and_iff_right rfl]

theorem addrBits_v6 : addrBits false a = addrBits false b ↔ a = b := by
  rw [addrBits, addrBits, if_neg Bool.false_ne_true, if_neg Bool.false_ne_true, append_inj, append_inj, append_inj,
    words_eq_iff]

theorem addrEqual_iff : addrEqual a b isV4 = true ↔ addrBits isV4 a = addrBits isV4 b := by
  cases isV4 with
  | true => rw [addrBits_v4, addrEqual, if_pos rfl, beq_iff_eq]
  | false =>
      rw [addrBits_v6, ← words_eq_iff, addrEqual, if_neg Bool.false_ne_true, Bool.and_eq_true, Bool.and_eq_true,
        Bool.and_eq_true, beq_iff_eq, beq_iff_eq, beq_iff_eq, beq_iff_eq]

/-- Words that do not belong to an address do not change its bucket. -/
theorem fcConnHash_congr (ha : addrBits isV4 a = addrBits isV4 a') (hb : addrBits isV4 b = addrBits isV4 b')
    (sport dport : BitVec 16) : fcConnHash a b sport dport isV4 = fcConnHash a' b' sport dport isV4 := by
  cases isV4 with
  | true =>
      rw [addrBits_v4] at ha hb
      simp [fcConnHash, List.finRange_succ, ha, hb]
  | false =>
      rw [addrBits_v6] at ha hb
      rw [ha, hb]

theorem addrBits_putAddr (isV4 : Bool) (addr old : IpAddr) : addrBits isV4 (putAddr isV4 addr old) = addrBits isV4 addr := by
  cases isV4 with
  | true => rw [addrBits_v4, putAddr, if_pos rfl, Function.update_self]
  | false => rw [putAddr, if_neg Bool.false_ne_true]

variable {saddr saddr' daddr daddr' : IpAddr} {sport sport' dport dport' : BitVec 16} {proto proto' : BitVec 8}
  {isV4' : Bool}

theorem flowOf_eq_iff : flowOf saddr daddr sport dport proto isV4 = flowOf saddr' daddr' sport' dport' proto' isV4' ↔
    isV4 = isV4' ∧ proto = proto' ∧ sport = sport' ∧ dport = dport' ∧
      addrBits isV4 saddr = addrBits isV4' saddr' ∧ addrBits isV4 daddr = addrBits isV4' daddr' := by
  rw [flowOf, flowOf, Flow.mk.injEq]
  constructor
  · rintro ⟨hproto, hv4, hs, hd, hsport, hdport⟩
    exact ⟨hv4, hproto, hsport, hdport, hs, hd⟩
  · rintro ⟨hv4, hproto, hsport, hdport, hs, hd⟩
    exact ⟨hproto, hv4, hs, hd, hsport, hdport⟩

/-- One tuple has one bucket. -/
theorem fcConnHash_of_flowOf (h : flowOf saddr daddr sport dport proto isV4 =
    flowOf saddr' daddr' sport' dport' proto' isV4') :
    fcConnHash saddr daddr sport dport isV4 = fcConnHash saddr' daddr' sport' dport' isV4' := by
  obtain ⟨rfl, -, rfl, rfl, hs, hd⟩ := flowOf_eq_iff.1 h
  exact fcConnHash_congr hs hd sport dport

theorem Flow.reverse_reverse (flow : Flow) : flow.reverse.reverse = flow := rfl

theorem Tuple.flow_reverse (msg : Tuple) : msg.reverse.flow = msg.flow.reverse := rfl

theorem Connection.flow_report (conn : Connection) (stack : Tuple) : (conn.report stack).flow = conn.reported := by
  have hethertype : ((if conn.isV4 then afInet else afInet6) == afInet) = conn.isV4 := by
    cases conn.isV4 <;> rfl
  rw [Tuple.flow, report, reported, flowOf_eq_iff]
  dsimp only
  rw [hethertype, addrBits_putAddr, addrBits_putAddr]
  simp

namespace ConnTable

/-! ### The table -/

variable {hashMin : Word → Nat} {t : ConnTable} {c d : Nat}

/-- The connections hang in the buckets of their original tuples, of which no two are the same. -/
structure Tabled (hashMin : Word → Nat) (t : ConnTable) : Prop where
  filed : Filed t.buckets (fun c => bucket hashMin (t.conns c)) t.held
  allocated : ∀ c ∈ t.held, c < t.allocated
  flows : ∀ c ∈ t.held, ∀ d ∈ t.held, (t.conns c).flow = (t.conns d).flow → c = d

theorem tabled_init (hashMin : Word → Nat) (conns : Nat → Connection) : Tabled hashMin (init conns) := by
  have hempty : Filed (init conns).buckets (fun c => bucket hashMin ((init conns).conns c)) ∅ := .empty _ fun _ => rfl
  have hheld : (init conns).held = ∅ := hempty.setOf_mem
  refine ⟨hheld ▸ hempty, ?_, ?_⟩
  · rw [hheld]
    exact fun c hc => absurd hc (Set.notMem_empty c)
  · rw [hheld]
    exact fun c hc => absurd hc (Set.notMem_empty c)

/-! ### Lookups -/

section Lookup

variable (saddr daddr sport dport proto isV4)

theorem findConn_iff (h : Tabled hashMin t) :
    t.findConn hashMin saddr daddr sport dport proto isV4 = some c ↔
      c ∈ t.held ∧ (t.conns c).flow = flowOf saddr daddr sport dport proto isV4 := by
  have hmatch : ∀ d, decide ((t.conns d).isV4 = isV4 ∧ (t.conns d).sic.protocol = proto ∧
      (t.conns d).sic.srcPort = sport ∧ (t.conns d).sic.destPort = dport ∧
        addrEqual (t.conns d).sic.srcIp saddr isV4 = true ∧ addrEqual (t.conns d).sic.destIp daddr isV4 = true) = true ↔
      (t.conns d).flow = flowOf saddr daddr sport dport proto isV4 := by
    intro d
    rw [Connection.flow, flowOf_eq_iff, decide_eq_true_iff, addrEqual_iff, addrEqual_iff]
    constructor
    · rintro ⟨rfl, hrest⟩
      exact ⟨rfl, hrest⟩
    · rintro ⟨rfl, hrest⟩
      exact ⟨rfl, hrest⟩
  rw [findConn, h.filed.find?_eq_some_iff fun x hx y hy hpx hpy =>
    h.flows x hx y hy (((hmatch x).1 hpx).trans ((hmatch y).1 hpy).symm), hmatch]
  constructor
  · rintro ⟨hc, -, hflow⟩
    exact ⟨hc, hflow⟩
  · rintro ⟨hc, hflow⟩
    exact ⟨hc, congrArg hashMin (fcConnHash_of_flowOf hflow), hflow⟩

theorem sbFindIn_iff (h : Tabled hashMin t) (hdistinct : t.Distinct) :
    t.sbFindIn hashMin saddr daddr sport dport proto isV4 = some c ↔
      c ∈ t.held ∧ bucket hashMin (t.conns c) = reportedBucket hashMin (t.conns c) ∧
        (t.conns c).reported = flowOf saddr daddr sport dport proto isV4 := by
  have hmatch : ∀ d, decide ((t.conns d).isV4 = isV4 ∧ (t.conns d).sic.protocol = proto ∧
      (t.conns d).sic.srcPort = sport ∧ (t.conns d).sic.destPortXlate = dport ∧
        addrEqual (t.conns d).sic.srcIp saddr isV4 = true ∧
          addrEqual (t.conns d).sic.destIpXlate daddr isV4 = true) = true ↔
      (t.conns d).reported = flowOf saddr daddr sport dport proto isV4 := by
    intro d
    rw [Connection.reported, flowOf_eq_iff, decide_eq_true_iff, addrEqual_iff, addrEqual_iff]
    constructor
    · rintro ⟨rfl, hrest⟩
      exact ⟨rfl, hrest⟩
    · rintro ⟨rfl, hrest⟩
      exact ⟨rfl, hrest⟩
  have hbucket : ∀ d, (t.conns d).reported = flowOf saddr daddr sport dport proto isV4 →
      reportedBucket hashMin (t.conns d) = hashMin (fcConnHash saddr daddr sport dport isV4) := fun d hreported =>
    congrArg hashMin (fcConnHash_of_flowOf hreported)
  rw [sbFindIn, h.filed.find?_eq_some_iff fun x hx y hy hpx hpy =>
    hdistinct x hx y hy (((hmatch x).1 hpx).trans ((hmatch y).1 hpy).symm), hmatch]
  constructor
  · rintro ⟨hc, heq, hreported⟩
    exact ⟨hc, heq.trans (hbucket c hreported).symm, hreported⟩
  · rintro ⟨hc, heq, hreported⟩
    exact ⟨hc, heq.trans (hbucket c hreported), hreported⟩

end Lookup

/-- A lookup of the table is one among the original tuples. -/
theorem duplicate_eq_none (h : Tabled hashMin t) {conn : Connection} (hnone : t.duplicate hashMin conn = none)
    (hc : c ∈ t.held) : (t.conns c).flow ≠ conn.flow := by
  intro hflow
  have hfind : t.duplicate hashMin conn = some c := (findConn_iff _ _ _ _ _ _ h).2 ⟨hc, hflow⟩
  rw [hnone] at hfind
  cases hfind

/-- A request takes the connection that is reported under its tuple, or else the one that is under the reversed tuple,
if they are in the buckets of their reports. -/
theorem request_iff (h : Tabled hashMin t) (hdistinct : t.Distinct) (msg : Tuple) :
    t.request hashMin msg = some c ↔
      c ∈ t.held ∧ bucket hashMin (t.conns c) = reportedBucket hashMin (t.conns c) ∧
        ((t.conns c).reported = msg.flow ∨
          (t.conns c).reported = msg.flow.reverse ∧
            ∀ d ∈ t.held, (t.conns d).reported = msg.flow →
              bucket hashMin (t.conns d) ≠ reportedBucket hashMin (t.conns d)) := by
  have hfirst : ∀ d, t.sbFindIn hashMin msg.srcSaddr msg.dstSaddr msg.sport msg.dport msg.proto
      (msg.ethertype == afInet) = some d ↔ d ∈ t.held ∧
        bucket hashMin (t.conns d) = reportedBucket hashMin (t.conns d) ∧ (t.conns d).reported = msg.flow := fun d =>
    sbFindIn_iff _ _ _ _ _ _ h hdistinct
  have hsecond : t.sbFindIn hashMin msg.dstSaddr msg.srcSaddr msg.dport msg.sport msg.proto
      (msg.ethertype == afInet) = some c ↔ c ∈ t.held ∧
        bucket hashMin (t.conns c) = reportedBucket hashMin (t.conns c) ∧ (t.conns c).reported = msg.flow.reverse :=
    sbFindIn_iff _ _ _ _ _ _ h hdistinct
  rw [request, sbFindConn, Option.or_eq_some_iff, hfirst, hsecond, Option.eq_none_iff_forall_ne_some]
  constructor
  · rintro (⟨hc, hbucket, hflow⟩ | ⟨hnone, hc, hbucket, hflow⟩)
    · exact ⟨hc, hbucket, .inl hflow⟩
    · exact ⟨hc, hbucket, .inr ⟨hflow, fun d hd hreported hd' => hnone d ((hfirst d).2 ⟨hd, hd', hreported⟩)⟩⟩
  · rintro ⟨hc, hbucket, hflow | ⟨hflow, hother⟩⟩
    · exact .inl ⟨hc, hbucket, hflow⟩
    · refine .inr ⟨fun d hfind => ?_, hc, hbucket, hflow⟩
      obtain ⟨hd, hd', hreported⟩ := (hfirst d).1 hfind
      exact hother d hd hreported hd'

/-- A report that is sent back finds its connection if and only if that is in the bucket of the report, and the other
direction is not taken by another one. -/
theorem found_iff_placed (h : Tabled hashMin t) (hdistinct : t.Distinct) (hc : c ∈ t.held) :
    t.Found hashMin c ↔ t.Placed hashMin c := by
  have hthis : ∀ stack, t.request hashMin ((t.conns c).report stack) = some c ↔
      bucket hashMin (t.conns c) = reportedBucket hashMin (t.conns c) := by
    intro stack
    rw [request_iff h hdistinct, Connection.flow_report, and_iff_right hc, and_iff_left (.inl rfl)]
  have hreverse : ∀ stack, t.request hashMin ((t.conns c).report stack).reverse = some c ↔
      bucket hashMin (t.conns c) = reportedBucket hashMin (t.conns c) ∧
        ((t.conns c).reported = (t.conns c).reported.reverse ∨
          ∀ d ∈ t.held, (t.conns d).reported = (t.conns c).reported.reverse →
            bucket hashMin (t.conns d) ≠ reportedBucket hashMin (t.conns d)) := by
    intro stack
    rw [request_iff h hdistinct, Tuple.flow_reverse, Connection.flow_report, and_iff_right hc, Flow.reverse_reverse,
      and_iff_right rfl]
  constructor
  · intro hfound
    obtain ⟨hbucket, hother⟩ := (hreverse ⟨0, 0, 0, 0, 0, 0, 0, 0⟩).1 (hfound _).2
    refine ⟨hbucket, fun d hd hne hreported => ?_⟩
    rcases hother with hself | hother
    · exact absurd (hdistinct d hd c hc (hreported.trans hself.symm)) hne
    · exact hother d hd hreported
  · rintro ⟨hbucket, hother⟩ stack
    refine ⟨(hthis stack).2 hbucket, (hreverse stack).2 ⟨hbucket, ?_⟩⟩
    by_cases hself : (t.conns c).reported = (t.conns c).reported.reverse
    · exact .inl hself
    · refine .inr fun d hd hreported => hother d hd ?_ hreported
      rintro rfl
      exact hself hreported

/-! ### Steps -/

variable {t' : ConnTable}

/-- A connection was added. -/
structure Added (hashMin : Word → Nat) (t : ConnTable) (conn : Connection) (t' : ConnTable) : Prop where
  filed : Filed t'.buckets (fun c => bucket hashMin (t'.conns c)) (insert t.allocated t.held)
  allocated : t'.allocated = t.allocated + 1
  new : t'.conns t.allocated = conn
  old : ∀ c ∈ t.held, t'.conns c = t.conns c

/-- No connection was added, and each has the tuples it had. -/
structure Kept (hashMin : Word → Nat) (t t' : ConnTable) : Prop where
  filed : ∃ held ⊆ t.held, Filed t'.buckets (fun c => bucket hashMin (t'.conns c)) held
  allocated : t'.allocated = t.allocated
  conns : ∀ c, ∃ permit, t'.conns c = { t.conns c with offloadPermit := permit }

theorem Kept.refl (h : Tabled hashMin t) : Kept hashMin t t := ⟨⟨t.held, Set.Subset.rfl, h.filed⟩, rfl, fun _ => ⟨_, rfl⟩⟩

theorem Kept.held_subset (h : Kept hashMin t t') : t'.held ⊆ t.held := by
  obtain ⟨held, hsubset, hfiled⟩ := h.filed
  have hheld : t'.held = held := hfiled.setOf_mem
  rw [hheld]
  exact hsubset

theorem Kept.filed_held (h : Kept hashMin t t') : Filed t'.buckets (fun c => bucket hashMin (t'.conns c)) t'.held := by
  obtain ⟨held, -, hfiled⟩ := h.filed
  have hheld : t'.held = held := hfiled.setOf_mem
  rw [hheld]
  exact hfiled

theorem Kept.tuples (h : Kept hashMin t t') (c : Nat) :
    (t'.conns c).flow = (t.conns c).flow ∧ (t'.conns c).reported = (t.conns c).reported ∧
      bucket hashMin (t'.conns c) = bucket hashMin (t.conns c) ∧
        reportedBucket hashMin (t'.conns c) = reportedBucket hashMin (t.conns c) := by
  obtain ⟨permit, hconn⟩ := h.conns c
  rw [hconn]
  exact ⟨rfl, rfl, rfl, rfl⟩

theorem Added.held {conn : Connection} (h : Added hashMin t conn t') : t'.held = insert t.allocated t.held :=
  h.filed.setOf_mem

theorem added_of_none (h : Tabled hashMin t) {conn : Connection} (hnone : t.duplicate hashMin conn = none) :
    Added hashMin t conn (t.addConn hashMin conn) := by
  have hnew : t.allocated ∉ t.held := fun hmem => (h.allocated _ hmem).ne rfl
  have hold : ∀ c ∈ t.held, Function.update t.conns t.allocated conn c = t.conns c := fun c hc =>
    Function.update_of_ne (h.allocated c hc).ne _ _
  have hfiled : Filed t.buckets (fun c => bucket hashMin (Function.update t.conns t.allocated conn c)) t.held :=
    h.filed.congr_hash fun c hc => congrArg (bucket hashMin) (hold c hc)
  have hpush := hfiled.push hnew
  rw [Function.update_self] at hpush
  rw [addConn, hnone]
  exact ⟨hpush, rfl, Function.update_self _ _ _, hold⟩

theorem step_cases (h : Tabled hashMin t) (a : Step) :
    (∃ conn, a = .add conn ∧ t.duplicate hashMin conn = none ∧ Added hashMin t conn (t.step hashMin a)) ∨
      Fits hashMin t a ∧ Kept hashMin t (t.step hashMin a) := by
  cases a with
  | add conn =>
      cases hfind : t.duplicate hashMin conn with
      | none => exact .inl ⟨conn, rfl, hfind, added_of_none h hfind⟩
      | some c =>
          refine .inr ⟨fun hnone => ?_, ?_⟩
          · rw [hfind] at hnone
            cases hnone
          · rw [step, addConn, hfind]
            exact .refl h
  | destroy saddr daddr sport dport proto isV4 =>
      refine .inr ⟨trivial, ?_⟩
      rw [step, destroyConn]
      cases t.findConn hashMin saddr daddr sport dport proto isV4 with
      | none => exact .refl h
      | some c => exact ⟨⟨_, Set.sdiff_subset, h.filed.eraseAll c⟩, rfl, fun _ => ⟨_, rfl⟩⟩
  | offload msg =>
      refine .inr ⟨trivial, ?_⟩
      rw [step, offloadGenlMsg]
      cases t.request hashMin msg with
      | none => exact .refl h
      | some c =>
          have hconns : ∀ d, ∃ permit, Function.update t.conns c { t.conns c with offloadPermit := true } d =
              { t.conns d with offloadPermit := permit } := by
            intro d
            by_cases hd : d = c
            · rw [hd, Function.update_self]
              exact ⟨true, rfl⟩
            · rw [Function.update_of_ne hd]
              exact ⟨_, rfl⟩
          refine ⟨⟨t.held, Set.Subset.rfl, h.filed.congr_hash fun d _ => ?_⟩, rfl, hconns⟩
          obtain ⟨permit, hd⟩ := hconns d
          dsimp only
          rw [hd]
          rfl

theorem tabled_step (h : Tabled hashMin t) (a : Step) : Tabled hashMin (t.step hashMin a) := by
  obtain ⟨conn, -, hnone, hadded⟩ | ⟨-, hkept⟩ := step_cases h a
  · refine ⟨hadded.held ▸ hadded.filed, ?_, ?_⟩
    · rw [hadded.held, hadded.allocated]
      rintro c (rfl | hc)
      · exact Nat.lt_succ_self _
      · exact Nat.lt_succ_of_lt (h.allocated c hc)
    · rw [hadded.held]
      rintro c (rfl | hc) d (rfl | hd) hflow
      · rfl
      · rw [hadded.new, hadded.old d hd] at hflow
        exact absurd hflow.symm (duplicate_eq_none h hnone hd)
      · rw [hadded.new, hadded.old c hc] at hflow
        exact absurd hflow (duplicate_eq_none h hnone hc)
      · rw [hadded.old c hc, hadded.old d hd] at hflow
        exact h.flows c hc d hd hflow
  · refine ⟨hkept.filed_held, fun c hc => ?_, fun c hc d hd hflow => ?_⟩
    · rw [hkept.allocated]
      exact h.allocated c (hkept.held_subset hc)
    · rw [(hkept.tuples c).1, (hkept.tuples d).1] at hflow
      exact h.flows c (hkept.held_subset hc) d (hkept.held_subset hd) hflow

/-! ### Runs -/

/-- Each connection is in the bucket of its report, and no two are reported under the two directions of one tuple. -/
def Tidy (hashMin : Word → Nat) (t : ConnTable) : Prop :=
  ∀ c ∈ t.held, bucket hashMin (t.conns c) = reportedBucket hashMin (t.conns c) ∧
    ∀ d ∈ t.held, d ≠ c → (t.conns d).reported ≠ (t.conns c).reported.reverse

theorem tidy_step (h : Tabled hashMin t) {a : Step} (htidy : Tidy hashMin t) (hfits : Fits hashMin t a) :
    Tidy hashMin (t.step hashMin a) := by
  obtain ⟨conn, rfl, hnone, hadded⟩ | ⟨-, hkept⟩ := step_cases h a
  · obtain ⟨hbucket, hreported⟩ := hfits hnone
    rw [Tidy, hadded.held]
    rintro c (rfl | hc)
    · rw [hadded.new]
      refine ⟨hbucket, ?_⟩
      rintro d (rfl | hd) hne
      · exact absurd rfl hne
      · rw [hadded.old d hd]
        exact hreported d hd
    · rw [hadded.old c hc]
      refine ⟨(htidy c hc).1, ?_⟩
      rintro d (rfl | hd) hne
      · rw [hadded.new]
        intro heq
        exact hreported c hc (congrArg Flow.reverse heq).symm
      · rw [hadded.old d hd]
        exact (htidy c hc).2 d hd hne
  · intro c hc
    obtain ⟨-, hreported, hbucket, hreportedBucket⟩ := hkept.tuples c
    rw [hreported, hbucket, hreportedBucket]
    refine ⟨(htidy c (hkept.held_subset hc)).1, fun d hd hne => ?_⟩
    rw [(hkept.tuples d).2.1]
    exact (htidy c (hkept.held_subset hc)).2 d (hkept.held_subset hd) hne

theorem Tidy.identified (h : Tidy hashMin t) (htabled : Tabled hashMin t) (hdistinct : t.Distinct) :
    t.Identified hashMin := by
  intro c hc
  obtain ⟨hbucket, hother⟩ := h c hc
  exact (found_iff_placed htabled hdistinct hc).2
    ⟨hbucket, fun d hd hne hreported => absurd hreported (hother d hd hne)⟩

/-- What is found behind a step tells how the connection fitted that it added. -/
theorem fits_of_identified (h : Tabled hashMin t) {a : Step} (hdistinct : (t.step hashMin a).Distinct)
    (hidentified : (t.step hashMin a).Identified hashMin) : Fits hashMin t a := by
  obtain ⟨conn, rfl, -, hadded⟩ | ⟨hfits, -⟩ := step_cases h a
  · have hplaced : ∀ c ∈ insert t.allocated t.held, (t.step hashMin (.add conn)).Placed hashMin c := by
      intro c hc
      rw [← hadded.held] at hc
      exact (found_iff_placed (tabled_step h _) hdistinct hc).1 (hidentified c hc)
    obtain ⟨hbucket, hother⟩ := hplaced t.allocated (Set.mem_insert _ _)
    rw [hadded.new] at hbucket hother
    refine fun _ => ⟨hbucket, fun d hd hreported => ?_⟩
    rw [← hadded.old d hd] at hreported
    exact hother d (hadded.held ▸ Set.mem_insert_of_mem _ hd) (h.allocated d hd).ne hreported
      (hplaced d (Set.mem_insert_of_mem _ hd)).1
  · exact hfits

variable (hashMin) in
/-- In every run a connection is found by its report exactly when it is placed for that, and all of them are found all
the time exactly when each connection fitted when it was added. -/
theorem identified_iff (conns : Nat → Connection) (steps : List Step) :
    Run.Always (step hashMin) (fun t => t.Distinct → ∀ c ∈ t.held, (t.Found hashMin c ↔ t.Placed hashMin c)) steps
        (init conns) ∧
      (Run.Always (step hashMin) Distinct steps (init conns) →
        (Run.Always (step hashMin) (Identified hashMin) steps (init conns) ↔
          Run.Along (step hashMin) (Fits hashMin) steps (init conns))) := by
  have htabled : Run.Always (step hashMin) (Tabled hashMin) steps (init conns) :=
    Run.always_of_step (fun _ a h => tabled_step h a) steps (tabled_init hashMin conns)
  refine ⟨htabled.mono fun t h hdistinct c hc => found_iff_placed h hdistinct hc, fun hdistinct => ⟨?_, ?_⟩⟩
  · intro hidentified
    exact Run.along_of_always (P := fun _ _ => True) (fun _ a h _ => tabled_step h a)
      (fun _ _ h _ hnext => fits_of_identified h hnext.1 hnext.2) (tabled_init hashMin conns)
      (Run.along_of_forall (fun _ _ => trivial) steps _) (hdistinct.and hidentified)
  · intro hfits
    have htidy : Run.Always (step hashMin) (fun t => Tabled hashMin t ∧ Tidy hashMin t) steps (init conns) := by
      refine Run.always_of_inv (fun _ a h hfits => ⟨tabled_step h.1 a, tidy_step h.1 h.2 hfits⟩)
        ⟨tabled_init hashMin conns, ?_⟩ hfits
      rintro c ⟨i, hc⟩
      cases hc
    exact (htidy.and hdistinct).mono fun t h => h.1.2.identified h.1.1 h.2

/-! ### Runs of the kernel -/

/-- `hash_min` over 13 bits, as it is in the kernel. -/
def hash32 (val : Word) : Nat := ((val * 0x61C88647) >>> 19).toNat

/-- A connection over TCP from 203.0.113.9:40000 to 198.51.100.1:80, on a processor that is little-endian. -/
def direct : Connection where
  sic :=
    { protocol := 6
      srcIp := ![0x097100CB, 0, 0, 0]
      destIp := ![0x016433C6, 0, 0, 0]
      destIpXlate := ![0x016433C6, 0, 0, 0]
      srcPort := 0x409C
      destPort := 0x5000
      destPortXlate := 0x5000 }
  isV4 := true
  smac := 0
  dmac := 0
  offloadPermit := false

/-- The same, forwarded to 192.168.1.10:8080. -/
def forwarded : Connection :=
  { direct with sic := { direct.sic with destIpXlate := ![0x0A01A8C0, 0, 0, 0], destPortXlate := 0x901F } }

theorem distinct_single (hashMin : Word → Nat) (conn : Connection) :
    Run.Always (step hashMin) Distinct [.add conn] (init fun _ => conn) := by
  refine ⟨?_, fun c hc d hd _ => ?_⟩
  · rintro c ⟨i, hc⟩
    cases hc
  · have hallocated := (tabled_step (tabled_init hashMin fun _ => conn) (.add conn)).allocated
    have hone : ((init fun _ => conn).step hashMin (.add conn)).allocated = 1 := rfl
    have hc0 := hallocated c hc
    have hd0 := hallocated d hd
    omega

theorem identified_direct :
    Run.Always (step hash32) (Identified hash32) [.add direct] (init fun _ => direct) := by
  refine ((identified_iff hash32 (fun _ => direct) [.add direct]).2 (distinct_single hash32 direct)).2
    ⟨fun _ => ⟨rfl, ?_⟩, trivial⟩
  rintro d ⟨i, hd⟩
  cases hd

/-- A connection that is forwarded to another address and port is not found by its report. -/
theorem not_identified_forwarded :
    ¬ Run.Always (step hash32) (fun t => t.Distinct → t.Identified hash32) [.add forwarded]
      (init fun _ => forwarded) := by
  intro h
  have hheld : (0 : Nat) ∈ ((init fun _ => forwarded).step hash32 (.add forwarded)).held :=
    ⟨bucket hash32 forwarded, by decide⟩
  have hfound := (h.2 (distinct_single hash32 forwarded).2 0 hheld ⟨0, 0, 0, 0, 0, 0, 0, 0⟩).1
  exact absurd hfound (by decide)

end ConnTable

end Immwrt.FastClassifier
