import Immwrt.Lib.Filing
import Immwrt.Sfe6.Engine

/-!
# The tables of the IPv6 engine

In every run the hash chains hold the connections and matches of the list of all connections, each once, and
every connection with its two matches is as a rule made it. A step leaves the tables as they are, adds a
connection or takes one out.
-/

namespace Immwrt.Sfe6

open Sfe (Dev Reason)

/-! ### Connections and their matches -/

/-- `m` is one of the two matches of a connection. -/
def Table.MatchOf (t : Table) (c m : Nat) : Prop := m = (t.conn c).originalMatch ∨ m = (t.conn c).replyMatch

/-- The matches of the connections in the table. -/
def Table.matchSet (t : Table) : Set Nat := {m | ∃ c ∈ t.all, t.MatchOf c m}

def Table.connSet (t : Table) : Set Nat := {c | c ∈ t.all}

/-- The connection and its two matches are as the rule says. -/
structure Table.Made (t : Table) (r : Rule) (c : Nat) : Prop where
  conn : t.conn c = r.conn (t.conn c).originalMatch (t.conn c).replyMatch
  original : t.info (t.conn c).originalMatch = r.originalMatch c (t.conn c).replyMatch
  reply : t.info (t.conn c).replyMatch = r.replyMatch c (t.conn c).originalMatch
  ne : (t.conn c).originalMatch ≠ (t.conn c).replyMatch

structure Inv (t : Table) : Prop where
  nodup : t.all.Nodup
  made : ∀ c ∈ t.all, ∃ r, t.Made r c
  bound : ∀ c ∈ t.all, c < t.fresh ∧ ∀ m, t.MatchOf c m → m < t.fresh
  matchesFiled : Filed t.matchHash (fun m => matchHashOf (t.info m).key) t.matchSet
  connsFiled : Filed t.connHash (fun c => (t.conn c).index) t.connSet

theorem computeTranslations_eq (cm : Match) :
    cm.computeTranslations.connection = cm.connection ∧
    cm.computeTranslations.counterMatch = cm.counterMatch ∧
    cm.computeTranslations.key = cm.key ∧ cm.computeTranslations.xlate = cm.xlate ∧
    cm.computeTranslations.xlateSrc = cm.xlateSrc ∧ cm.computeTranslations.xlateDest = cm.xlateDest ∧
    cm.computeTranslations.xmitDev = cm.xmitDev := by
  rw [Match.computeTranslations]
  split
  · split
    · exact ⟨rfl, rfl, rfl, rfl, rfl, rfl, rfl⟩
    · exact ⟨rfl, rfl, rfl, rfl, rfl, rfl, rfl⟩
  · split
    · exact ⟨rfl, rfl, rfl, rfl, rfl, rfl, rfl⟩
    · exact ⟨rfl, rfl, rfl, rfl, rfl, rfl, rfl⟩

/-- The key of packets that answer those that leave by a match. -/
def Match.reverseKey (m : Match) : Key :=
  { dev := m.xmitDev, protocol := m.key.protocol, tuple := m.xlate.swap }

theorem Rule.originalMatch_eq (r : Rule) (c reply : Nat) :
    (r.originalMatch c reply).connection = c ∧ (r.originalMatch c reply).counterMatch = reply ∧
    (r.originalMatch c reply).key = { dev := r.srcDev.dev, protocol := r.protocol.setWidth 8, tuple := r.tuple } ∧
    (r.originalMatch c reply).xlate = r.xlate ∧ (r.originalMatch c reply).xmitDev = r.destDev.dev := by
  obtain ⟨hconnection, hcounter, hkey, hxlate, -, -, hdev⟩ := computeTranslations_eq _
  exact ⟨hconnection, hcounter, hkey, hxlate, hdev⟩

theorem Rule.replyMatch_eq (r : Rule) (c original : Nat) :
    (r.replyMatch c original).connection = c ∧ (r.replyMatch c original).counterMatch = original ∧
    (r.replyMatch c original).key =
      { dev := r.destDev.dev, protocol := r.protocol.setWidth 8, tuple := r.xlate.swap } ∧
    (r.replyMatch c original).xlate = r.tuple.swap ∧ (r.replyMatch c original).xmitDev = r.srcDev.dev := by
  obtain ⟨hconnection, hcounter, hkey, hxlate, -, -, hdev⟩ := computeTranslations_eq _
  exact ⟨hconnection, hcounter, hkey, hxlate, hdev⟩

section Owner

variable {t : Table} {r : Rule} {c m : Nat}

theorem Table.Made.connection (h : t.Made r c) (hm : t.MatchOf c m) : (t.info m).connection = c := by
  rcases hm with rfl | rfl
  · rw [h.original]
    exact (r.originalMatch_eq c _).1
  · rw [h.reply]
    exact (r.replyMatch_eq c _).1

/-- The counter match of a match is the other one of its connection. Each is for the answers to the packets
of the other. -/
theorem Table.Made.counter (h : t.Made r c) (hm : t.MatchOf c m) :
    t.MatchOf c (t.info m).counterMatch ∧ (t.info (t.info m).counterMatch).key = (t.info m).reverseKey ∧
    (t.info m).key = (t.info (t.info m).counterMatch).reverseKey := by
  obtain ⟨-, hcounter, hkey, hxlate, hdev⟩ := r.originalMatch_eq c (t.conn c).replyMatch
  obtain ⟨-, hcounter', hkey', hxlate', hdev'⟩ := r.replyMatch_eq c (t.conn c).originalMatch
  rw [← h.original] at hcounter hkey hxlate hdev
  rw [← h.reply] at hcounter' hkey' hxlate' hdev'
  rcases hm with rfl | rfl
  · rw [hcounter, Match.reverseKey, Match.reverseKey, hkey', hkey, hxlate, hxlate', hdev, hdev']
    exact ⟨.inr rfl, rfl, rfl⟩
  · rw [hcounter', Match.reverseKey, Match.reverseKey, hkey', hkey, hxlate, hxlate', hdev, hdev']
    exact ⟨.inl rfl, rfl, rfl⟩

theorem Inv.connection (h : Inv t) (hc : c ∈ t.all) (hm : t.MatchOf c m) : (t.info m).connection = c := by
  obtain ⟨r, hmade⟩ := h.made c hc
  exact hmade.connection hm

/-- A match in the table is one of its own connection's. -/
theorem Inv.owner (h : Inv t) (hm : m ∈ t.matchSet) :
    (t.info m).connection ∈ t.all ∧ t.MatchOf (t.info m).connection m := by
  obtain ⟨c, hc, hmatch⟩ := hm
  rw [h.connection hc hmatch]
  exact ⟨hc, hmatch⟩

theorem Inv.counter (h : Inv t) (hm : m ∈ t.matchSet) :
    (t.info m).counterMatch ∈ t.matchSet ∧
    (t.info (t.info m).counterMatch).connection = (t.info m).connection ∧
    (t.info (t.info m).counterMatch).key = (t.info m).reverseKey ∧
    (t.info m).key = (t.info (t.info m).counterMatch).reverseKey := by
  obtain ⟨hc, hmatch⟩ := h.owner hm
  obtain ⟨r, hmade⟩ := h.made _ hc
  obtain ⟨hcounter, hkeys⟩ := hmade.counter hmatch
  exact ⟨⟨_, hc, hcounter⟩, h.connection hc hcounter, hkeys⟩

/-- Where a match does not translate, it has the addresses and ports of its key. -/
theorem Table.Made.untranslated (h : t.Made r c) (hm : t.MatchOf c m) :
    ((t.info m).xlateSrc = false → (t.info m).xlate.srcIp = (t.info m).key.tuple.srcIp ∧
      (t.info m).xlate.srcPort = (t.info m).key.tuple.srcPort) ∧
    ((t.info m).xlateDest = false → (t.info m).xlate.destIp = (t.info m).key.tuple.destIp ∧
      (t.info m).xlate.destPort = (t.info m).key.tuple.destPort) := by
  have hsrc : r.xlatesSrc = false → r.xlate.srcIp = r.tuple.srcIp ∧ r.xlate.srcPort = r.tuple.srcPort := by
    intro hsame
    simp only [Rule.xlatesSrc, ne_eq, decide_eq_false_iff_not, not_or, not_not] at hsame
    exact ⟨hsame.1.symm, hsame.2.symm⟩
  have hdest : r.xlatesDest = false → r.xlate.destIp = r.tuple.destIp ∧ r.xlate.destPort = r.tuple.destPort := by
    intro hsame
    simp only [Rule.xlatesDest, ne_eq, decide_eq_false_iff_not, not_or, not_not] at hsame
    exact ⟨hsame.1.symm, hsame.2.symm⟩
  rcases hm with rfl | rfl
  · obtain ⟨-, -, hkey, hxlate, hxsrc, hxdest, -⟩ := computeTranslations_eq _
    rw [h.original, Rule.originalMatch, hkey, hxlate, hxsrc, hxdest]
    exact ⟨hsrc, hdest⟩
  · obtain ⟨-, -, hkey, hxlate, hxsrc, hxdest, -⟩ := computeTranslations_eq _
    rw [h.reply, Rule.replyMatch, hkey, hxlate, hxsrc, hxdest]
    refine ⟨?_, ?_⟩
    · intro hsame
      exact ⟨(hdest hsame).1.symm, (hdest hsame).2.symm⟩
    · intro hsame
      exact ⟨(hsrc hsame).1.symm, (hsrc hsame).2.symm⟩

/-- A packet that a match in the table forwards leaves with the match's translated addresses and ports. -/
theorem Inv.forward_tuple (h : Inv t) (hm : m ∈ t.matchSet) {udp : Bool} {mark : Word} {p : Packet} {ihl : Nat}
    (hkey : (t.info m).key.tuple = p.tuple ihl) :
    ((t.info m).forward udp mark p ihl).dev = (t.info m).xmitDev ∧
    ((t.info m).forward udp mark p ihl).tuple = (t.info m).xlate := by
  obtain ⟨hc, hmatch⟩ := h.owner hm
  obtain ⟨r, hmade⟩ := h.made _ hc
  obtain ⟨hsrc, hdest⟩ := hmade.untranslated hmatch
  rw [hkey] at hsrc hdest
  rw [Match.forward, Sent.tuple]
  cases hxsrc : (t.info m).xlateSrc with
  | true =>
    cases hxdest : (t.info m).xlateDest with
    | true => exact ⟨rfl, rfl⟩
    | false =>
      obtain ⟨hip, hport⟩ := hdest hxdest
      exact ⟨rfl, Tuple.ext rfl rfl hip.symm hport.symm⟩
  | false =>
    obtain ⟨hip, hport⟩ := hsrc hxsrc
    cases hxdest : (t.info m).xlateDest with
    | true => exact ⟨rfl, Tuple.ext hip.symm hport.symm rfl rfl⟩
    | false =>
      obtain ⟨hip', hport'⟩ := hdest hxdest
      exact ⟨rfl, Tuple.ext hip.symm hport.symm hip'.symm hport'.symm⟩

end Owner

/-! ### A connection leaves -/

/-- The table `t'` is `t` without the connection `c`. -/
structure Table.Without (t t' : Table) (c : Nat) : Prop where
  all : ∀ x, x ∈ t'.all ↔ x ∈ t.all ∧ x ≠ c
  connHash : ∀ i x, x ∈ t'.connHash i ↔ x ∈ t.connHash i ∧ x ≠ c
  matchHash : ∀ i m, m ∈ t'.matchHash i ↔ m ∈ t.matchHash i ∧ (t.info m).connection ≠ c

/-- The tables `t` and `t'` have the same connections. -/
structure Table.SameConns (t t' : Table) : Prop where
  all : ∀ x, x ∈ t'.all ↔ x ∈ t.all
  connHash : ∀ i x, x ∈ t'.connHash i ↔ x ∈ t.connHash i
  matchHash : ∀ i m, m ∈ t'.matchHash i ↔ m ∈ t.matchHash i

theorem Table.SameConns.refl (t : Table) : t.SameConns t :=
  ⟨fun _ => Iff.rfl, fun _ _ => Iff.rfl, fun _ _ => Iff.rfl⟩

section Remove

variable {t : Table} {c : Nat}

/-- What is left of the matches when both matches of a connection are gone. -/
theorem Inv.matchSet_removeConnection (h : Inv t) (hc : c ∈ t.all) :
    (t.matchSet \ {(t.conn c).replyMatch}) \ {(t.conn c).originalMatch} = (t.removeConnection c).matchSet := by
  ext m
  simp only [Set.mem_sdiff, Set.mem_singleton_iff]
  constructor
  · rintro ⟨⟨⟨d, hd, hm⟩, hreply⟩, horiginal⟩
    refine ⟨d, h.nodup.mem_erase_iff.mpr ⟨?_, hd⟩, hm⟩
    rintro rfl
    exact hm.elim horiginal hreply
  · rintro ⟨d, hd, hm⟩
    obtain ⟨hne, hd⟩ := h.nodup.mem_erase_iff.mp hd
    have hown : (t.info m).connection = d := h.connection hd hm
    refine ⟨⟨⟨d, hd, hm⟩, ?_⟩, ?_⟩
    · rintro rfl
      exact hne (hown.symm.trans (h.connection hc (.inr rfl)))
    · rintro rfl
      exact hne (hown.symm.trans (h.connection hc (.inl rfl)))

theorem Inv.removeConnection (h : Inv t) (hc : c ∈ t.all) : Inv (t.removeConnection c) := by
  refine ⟨h.nodup.erase c, ?_, ?_, ?_, ?_⟩
  · intro d hd
    obtain ⟨r, hconn, horiginal, hreply, hne⟩ := h.made d (List.mem_of_mem_erase hd)
    exact ⟨r, hconn, horiginal, hreply, hne⟩
  · intro d hd
    exact h.bound d (List.mem_of_mem_erase hd)
  · rw [← h.matchSet_removeConnection hc]
    exact (h.matchesFiled.erase _).erase _
  · have hset : t.connSet \ {c} = (t.removeConnection c).connSet := by
      ext d
      rw [Set.mem_sdiff, Set.mem_singleton_iff, and_comm]
      exact h.nodup.mem_erase_iff.symm
    rw [← hset]
    exact h.connsFiled.erase c

theorem Inv.without_removeConnection (h : Inv t) (hc : c ∈ t.all) : t.Without (t.removeConnection c) c := by
  have hafter := h.removeConnection hc
  refine ⟨?_, ?_, ?_⟩
  · intro x
    rw [and_comm]
    exact h.nodup.mem_erase_iff
  · intro i x
    rw [hafter.connsFiled.mem_iff, h.connsFiled.mem_iff]
    have hmem : x ∈ (t.removeConnection c).connSet ↔ x ≠ c ∧ x ∈ t.connSet := h.nodup.mem_erase_iff
    rw [hmem]
    tauto
  · intro i m
    rw [hafter.matchesFiled.mem_iff, h.matchesFiled.mem_iff, ← h.matchSet_removeConnection hc]
    simp only [Set.mem_sdiff, Set.mem_singleton_iff]
    have howner : m ∈ t.matchSet →
        ((t.info m).connection ≠ c ↔ m ≠ (t.conn c).replyMatch ∧ m ≠ (t.conn c).originalMatch) := by
      intro hm
      obtain ⟨hown, hmatch⟩ := h.owner hm
      constructor
      · intro hne
        constructor
        · rintro rfl
          exact hne (h.connection hc (.inr rfl))
        · rintro rfl
          exact hne (h.connection hc (.inl rfl))
      · rintro ⟨hreply, horiginal⟩ heq
        rw [heq] at hmatch
        exact hmatch.elim horiginal hreply
    constructor
    · rintro ⟨⟨⟨hm, hreply⟩, horiginal⟩, hhash⟩
      exact ⟨⟨hm, hhash⟩, (howner hm).mpr ⟨hreply, horiginal⟩⟩
    · rintro ⟨⟨hm, hhash⟩, hne⟩
      obtain ⟨hreply, horiginal⟩ := (howner hm).mp hne
      exact ⟨⟨⟨hm, hreply⟩, horiginal⟩, hhash⟩

end Remove

/-! ### A connection enters -/

/-- The objects of the connections in `t` are the same in `t'`. -/
structure Table.Kept (t t' : Table) : Prop where
  conn : ∀ c ∈ t.all, t'.conn c = t.conn c
  info : ∀ m ∈ t.matchSet, t'.info m = t.info m
  fresh : t.fresh ≤ t'.fresh
  all : t'.all = t.all
  connHash : t'.connHash = t.connHash
  matchHash : t'.matchHash = t.matchHash

section Insert

variable {t t' : Table} {c : Nat} {r : Rule}

theorem Table.Kept.matchOf (hkept : t.Kept t') (hc : c ∈ t.all) (m : Nat) : t'.MatchOf c m ↔ t.MatchOf c m := by
  rw [Table.MatchOf, Table.MatchOf, hkept.conn c hc]

theorem Table.Kept.matchSet (hkept : t.Kept t') : t'.matchSet = t.matchSet := by
  ext m
  simp only [Table.matchSet, Set.mem_ofPred_eq, hkept.all]
  apply exists_congr
  intro c
  apply and_congr_right
  intro hc
  exact hkept.matchOf hc m

theorem Inv.kept (h : Inv t) (hkept : t.Kept t') : Inv t' := by
  refine ⟨hkept.all ▸ h.nodup, ?_, ?_, ?_, ?_⟩
  · intro c hc
    rw [hkept.all] at hc
    obtain ⟨r, hconn, horiginal, hreply, hne⟩ := h.made c hc
    refine ⟨r, ?_, ?_, ?_, ?_⟩
    · rw [hkept.conn c hc]
      exact hconn
    · rw [hkept.conn c hc, hkept.info _ ⟨c, hc, .inl rfl⟩]
      exact horiginal
    · rw [hkept.conn c hc, hkept.info _ ⟨c, hc, .inr rfl⟩]
      exact hreply
    · rw [hkept.conn c hc]
      exact hne
  · intro c hc
    rw [hkept.all] at hc
    obtain ⟨hlt, hmatch⟩ := h.bound c hc
    refine ⟨hlt.trans_le hkept.fresh, ?_⟩
    intro m hm
    exact (hmatch m ((hkept.matchOf hc m).mp hm)).trans_le hkept.fresh
  · rw [hkept.matchHash, hkept.matchSet]
    apply h.matchesFiled.congr_hash
    intro m hm
    rw [hkept.info m hm]
  · rw [hkept.connHash, Table.connSet, hkept.all]
    apply h.connsFiled.congr_hash
    intro c hc
    rw [hkept.conn c hc]

/-- Another order within the chains. -/
theorem Inv.chains (h : Inv t) {chains : Index → List Nat}
    (hfiled : Filed chains (fun m => matchHashOf (t.info m).key) t.matchSet) :
    Inv { t with matchHash := chains } := by
  refine ⟨h.nodup, ?_, h.bound, hfiled, h.connsFiled⟩
  intro c hc
  obtain ⟨r, hconn, horiginal, hreply, hne⟩ := h.made c hc
  exact ⟨r, hconn, horiginal, hreply, hne⟩

/-- The active list does not matter. -/
theorem Inv.setActive (h : Inv t) (active : List Nat) : Inv { t with active } :=
  h.kept ⟨fun _ _ => rfl, fun _ _ => rfl, le_rfl, rfl, rfl, rfl⟩

/-- A connection that is filled in and not yet in the table. -/
theorem Inv.insertConnection (h : Inv t) (hmade : t.Made r c) (hc : c ∉ t.all)
    (hnew : ∀ m, t.MatchOf c m → m ∉ t.matchSet) (hbound : c < t.fresh ∧ ∀ m, t.MatchOf c m → m < t.fresh) :
    Inv (t.insertConnection c) := by
  have hall (d : Nat) : d ∈ t.all ++ [c] ↔ d ∈ t.all ∨ d = c := by
    rw [List.mem_append, List.mem_singleton]
  refine ⟨?_, ?_, ?_, ?_, ?_⟩
  · exact List.nodup_append.mpr ⟨h.nodup, List.nodup_singleton c, by
      intro d hd d' hd' heq
      rw [List.mem_singleton.mp hd'] at heq
      exact hc (heq ▸ hd)⟩
  · intro d hd
    rcases (hall d).mp hd with hd | rfl
    · obtain ⟨r, hconn, horiginal, hreply, hne⟩ := h.made d hd
      exact ⟨r, hconn, horiginal, hreply, hne⟩
    · obtain ⟨hconn, horiginal, hreply, hne⟩ := hmade
      exact ⟨r, hconn, horiginal, hreply, hne⟩
  · intro d hd
    rcases (hall d).mp hd with hd | rfl
    · exact h.bound d hd
    · exact hbound
  · have hset : insert (t.conn c).replyMatch (insert (t.conn c).originalMatch t.matchSet)
        = (t.insertConnection c).matchSet := by
      ext m
      simp only [Set.mem_insert_iff]
      constructor
      · rintro (rfl | rfl | ⟨d, hd, hm⟩)
        · exact ⟨c, (hall c).mpr (.inr rfl), .inr rfl⟩
        · exact ⟨c, (hall c).mpr (.inr rfl), .inl rfl⟩
        · exact ⟨d, (hall d).mpr (.inl hd), hm⟩
      · rintro ⟨d, hd, hm⟩
        rcases (hall d).mp hd with hd | rfl
        · exact .inr (.inr ⟨d, hd, hm⟩)
        · exact hm.elim (fun hm => .inr (.inl hm)) .inl
    rw [← hset]
    apply (h.matchesFiled.push (hnew _ (.inl rfl))).push
    rintro (heq | hmem)
    · exact hmade.ne heq.symm
    · exact hnew _ (.inr rfl) hmem
  · have hset : insert c t.connSet = (t.insertConnection c).connSet := by
      ext d
      rw [Set.mem_insert_iff, or_comm]
      exact (hall d).symm
    rw [← hset]
    exact h.connsFiled.push hc

/-- The new objects of a connection, filled in. -/
theorem Inv.fill {s : Engine} (h : Inv s.toTable) (r : Rule) (now : BitVec 64) :
    Inv (({ s with fresh := s.fresh + 3 }.fill r s.fresh (s.fresh + 1) (s.fresh + 2) now).insertConnection
      s.fresh) := by
  set s' := { s with fresh := s.fresh + 3 }.fill r s.fresh (s.fresh + 1) (s.fresh + 2) now with hs'
  have hlt {c : Nat} (hc : c ∈ s.all) : c < s.fresh := (h.bound c hc).1
  have hmatch {m : Nat} (hm : m ∈ s.matchSet) : m < s.fresh := by
    obtain ⟨c, hc, hm⟩ := hm
    exact (h.bound c hc).2 m hm
  have hconn : s'.conn s.fresh = r.conn (s.fresh + 1) (s.fresh + 2) := Function.update_self _ _ _
  have hkept : s.Kept s'.toTable := by
    refine ⟨?_, ?_, Nat.le_add_right _ _, rfl, rfl, rfl⟩
    · intro c hc
      exact Function.update_of_ne (hlt hc).ne _ _
    · intro m hm
      have := hmatch hm
      change Function.update (Function.update s.info _ _) _ _ m = s.info m
      rw [Function.update_of_ne (by omega), Function.update_of_ne (by omega)]
  have hmade : s'.Made r s.fresh := by
    have horiginal : (s'.conn s.fresh).originalMatch = s.fresh + 1 := by rw [hconn]; rfl
    have hreply : (s'.conn s.fresh).replyMatch = s.fresh + 2 := by rw [hconn]; rfl
    refine ⟨?_, ?_, ?_, ?_⟩
    · rw [horiginal, hreply, hconn]
    · rw [horiginal, hreply]
      change Function.update (Function.update s.info _ _) _ _ (s.fresh + 1) = _
      rw [Function.update_of_ne (by omega), Function.update_self]
    · rw [horiginal, hreply]
      exact Function.update_self _ _ _
    · rw [horiginal, hreply]
      omega
  have hnew {m : Nat} (hm : s'.MatchOf s.fresh m) : s.fresh < m ∧ m < s.fresh + 3 := by
    rw [Table.MatchOf, hconn] at hm
    simp only [Rule.conn] at hm
    omega
  apply (h.kept hkept).insertConnection hmade
  · intro hc
    exact absurd (hlt hc) (lt_irrefl _)
  · intro m hm hmem
    rw [hkept.matchSet] at hmem
    exact absurd (hmatch hmem) (hnew hm).1.le.not_gt
  · exact ⟨Nat.lt_add_of_pos_right (by decide), fun m hm => (hnew hm).2⟩

end Insert

/-! ### A match is found -/

section Find

variable {s : Engine} {k : Key}

/-- What a lookup leaves of the tables, and what it finds. -/
structure Found (s s' : Engine) (k : Key) (found : Option Nat) : Prop where
  inv : Inv s'.toTable
  sameConns : s.SameConns s'.toTable
  info : s'.info = s.info
  conn : s'.conn = s.conn
  all : s'.all = s.all
  key : ∀ cm, found = some cm → cm ∈ s.matchSet ∧ (s.info cm).key = k
  missing : found = none → ∀ m ∈ s.matchSet, (s.info m).key ≠ k

theorem Inv.find (h : Inv s.toTable) (k : Key) :
    Found s (s.findConnectionMatch k).1 k (s.findConnectionMatch k).2 := by
  have hchain {m : Nat} (hm : m ∈ s.matchSet) (hkey : (s.info m).key = k) : m ∈ s.matchHash (matchHashOf k) := by
    have hmem := h.matchesFiled.mem_chain hm
    rwa [hkey] at hmem
  have hset {m : Nat} (hm : m ∈ s.matchHash (matchHashOf k)) : m ∈ s.matchSet :=
    ((h.matchesFiled.mem_iff _ _).mp hm).1
  rw [Engine.findConnectionMatch]
  cases hlist : s.matchHash (matchHashOf k) with
  | nil =>
    refine ⟨h, .refl _, rfl, rfl, rfl, (fun _ hfound => nomatch hfound), ?_⟩
    intro _ m hm hkey
    have hmem := hchain hm hkey
    rw [hlist] at hmem
    exact absurd hmem List.not_mem_nil
  | cons head rest =>
    dsimp only
    split
    · next hkey =>
      refine ⟨h, .refl _, rfl, rfl, rfl, ?_, fun hfound => nomatch hfound⟩
      intro cm hfound
      rw [← Option.some.inj hfound]
      exact ⟨hset (hlist ▸ List.mem_cons_self), hkey⟩
    next hhead =>
    cases hfind : rest.find? fun cm => (s.info cm).key = k with
    | none =>
      refine ⟨h, .refl _, rfl, rfl, rfl, (fun _ hfound => nomatch hfound), ?_⟩
      intro _ m hm hkey
      have hmem := hchain hm hkey
      rw [hlist] at hmem
      rcases List.mem_cons.mp hmem with rfl | hmem
      · exact hhead hkey
      · exact absurd hkey (by simpa using List.find?_eq_none.mp hfind m hmem)
    | some cm =>
      have hrest := List.mem_of_find?_eq_some hfind
      have hmem : cm ∈ s.matchHash (matchHashOf k) := hlist ▸ List.mem_cons_of_mem _ hrest
      have hfiled := h.matchesFiled.toFront hmem
      rw [hlist] at hfiled
      refine ⟨h.chains hfiled, ⟨fun _ => Iff.rfl, fun _ _ => Iff.rfl, ?_⟩, rfl, rfl,
        rfl, ?_, fun hfound => nomatch hfound⟩
      · intro i m
        exact (hfiled.mem_iff i m).trans (h.matchesFiled.mem_iff i m).symm
      · intro cm' hfound
        rw [← Option.some.inj hfound]
        exact ⟨hset hmem, by simpa using List.find?_some hfind⟩

end Find

/-! ### Runs -/

section Steps

variable {s : Engine}

theorem Inv.activate {t : Table} (h : Inv t) (cm : Nat) : Inv (t.activate cm) := by
  rw [Table.activate]
  split
  · exact h
  · exact h.setActive _

theorem Inv.forward (h : Inv s.toTable) (cm : Nat) (udp : Bool) (p : Packet) (ihl : Nat) :
    Inv (s.forward cm udp p ihl).1.toTable := by
  rw [Engine.forward]
  split
  · exact h
  · exact h.activate cm

theorem Inv.flushFor (h : Inv s.toTable) {cm : Nat} (hcm : cm ∈ s.matchSet) (e : Exception) :
    Inv (s.flushFor cm e).toTable := h.removeConnection (h.owner hcm).1

/-- After a lookup the match that was found is still one. -/
theorem Found.mem {s' : Engine} {k : Key} {cm : Nat} (hfound : Found s s' k (some cm)) : cm ∈ s'.matchSet := by
  obtain ⟨c, hc, hm⟩ := (hfound.key cm rfl).1
  refine ⟨c, hfound.all ▸ hc, ?_⟩
  rw [Table.MatchOf, hfound.conn]
  exact hm

theorem Inv.recvUdp (h : Inv s.toTable) (dev : Dev) (p : Packet) (ihl : Nat) (flushOnFind : Bool) :
    Inv (s.recvUdp dev p ihl flushOnFind).1.toTable := by
  rw [Engine.recvUdp]
  split
  · exact h
  have hfound := h.find { dev, protocol := Sfe.ipprotoUdp, tuple := p.tuple ihl }
  split
  · next s' hfind =>
    rw [hfind] at hfound
    exact hfound.inv
  next s' cm hfind =>
  rw [hfind] at hfound
  split
  · exact hfound.inv.flushFor hfound.mem _
  split
  · exact hfound.inv
  split
  · exact hfound.inv.flushFor hfound.mem _
  split
  · exact hfound.inv.flushFor hfound.mem _
  · exact hfound.inv.forward _ _ _ _

theorem Inv.recvTcp (h : Inv s.toTable) (dev : Dev) (p : Packet) (ihl : Nat) (flushOnFind : Bool) :
    Inv (s.recvTcp dev p ihl flushOnFind).1.toTable := by
  rw [Engine.recvTcp]
  dsimp only
  split
  · exact h
  have hfound := h.find { dev, protocol := Sfe.ipprotoTcp, tuple := p.tuple ihl }
  split
  · next s' hfind =>
    rw [hfind] at hfound
    exact hfound.inv
  next s' cm hfind =>
  rw [hfind] at hfound
  split
  · exact hfound.inv.flushFor hfound.mem _
  split
  · exact hfound.inv
  split
  · exact hfound.inv.flushFor hfound.mem _
  split
  · exact hfound.inv.flushFor hfound.mem _
  split
  · exact hfound.inv.flushFor hfound.mem _
  split
  · exact hfound.inv.flushFor hfound.mem _
  · next tcp counterTcp _ =>
    have hinv : Inv ({ s' with
      tcp := Function.update (Function.update s'.tcp cm tcp) (s'.info cm).counterMatch counterTcp } :
        Engine).toTable := hfound.inv
    exact hinv.forward _ _ _ _

theorem Inv.recvIcmp (h : Inv s.toTable) (dev : Dev) (p : Packet) (ihl : Nat) :
    Inv (s.recvIcmp dev p ihl).toTable := by
  rw [Engine.recvIcmp]
  split
  · exact h
  split
  · exact h
  split
  · exact h
  split
  · exact h
  split
  · exact h
  next nextHdr ihl' _ =>
  split
  · exact h
  have hfound := h.find (p.icmpKey dev (ihl + 8) ihl')
  split
  · next s' hfind =>
    rw [hfind] at hfound
    exact hfound.inv
  · next s' cm hfind =>
    rw [hfind] at hfound
    exact hfound.inv.flushFor hfound.mem _

theorem Inv.recv (h : Inv s.toTable) (dev : Dev) (p : Packet) : Inv (s.recv dev p).1.toTable := by
  rw [Engine.recv]
  split
  · exact h
  split
  · exact h
  split
  · exact h
  split
  · exact h
  split
  · exact h.recvUdp dev p _ _
  split
  · exact h.recvTcp dev p _ _
  split
  · exact h.recvIcmp dev p _
  · exact h

theorem updateProtocolState_table (s : Engine) (c : Nat) (r : Rule) :
    (s.updateProtocolState c r).toTable = s.toTable := by
  rw [Engine.updateProtocolState]
  split
  · rfl
  · rfl

theorem Inv.step (h : Inv s.toTable) (a : Step) : Inv (s.step a).toTable := by
  cases a with
  | create r memory now =>
    rw [Engine.step, Engine.createRule]
    split
    · exact h
    dsimp only
    split
    · rw [updateProtocolState_table]
      exact h
    split
    · exact Inv.fill (s := s.bump .connectionCreateRequests) h r now
    · exact h
  | update r =>
    rw [Engine.step, Engine.updateRule]
    split
    · exact h
    · rw [updateProtocolState_table]
      exact h
  | setMark protocol t mark =>
    rw [Engine.step, Engine.markRule]
    split
    · exact h
    · exact h
  | destroy protocol t =>
    rw [Engine.step, Engine.destroyRule]
    split
    · exact h
    · next c hfind =>
      have hmem := List.mem_of_find?_eq_some hfind
      exact h.removeConnection ((h.connsFiled.mem_iff _ _).mp hmem).1
  | destroyForDev dev =>
    rw [Engine.step, Engine.destroyForDev]
    split
    · exact h
    · next c hfind => exact h.removeConnection (List.mem_of_find?_eq_some hfind)
  | flush i now =>
    rw [Engine.step, Engine.flushConnection]
    split
    · exact h
    · dsimp only
      split
      · exact h
      · exact h
  | recv dev p => exact h.recv dev p
  | syncBegin =>
    rw [Engine.step, Engine.syncBegin]
    split
    · exact h
    · exact h
  | syncNext now =>
    rw [Engine.step, Engine.syncNext]
    split
    · exact h
    split
    · exact h
    · exact h.setActive _
  | registerCallback callback => exact h

theorem Inv.run (h : Inv s.toTable) (steps : List Step) : Inv (s.run steps).toTable := by
  induction steps generalizing s with
  | nil => exact h
  | cons a steps ih => exact ih (h.step a)

theorem Engine.Initial.inv (h : s.Initial) : Inv s.toTable := by
  have hnone (c : Nat) : c ∉ s.all := by
    rw [h.all]
    exact List.not_mem_nil
  have hempty : s.matchSet = ∅ := by
    apply Set.eq_empty_of_forall_notMem
    rintro m ⟨c, hc, -⟩
    exact hnone c hc
  have hempty' : s.connSet = ∅ := Set.eq_empty_of_forall_notMem hnone
  refine ⟨h.all ▸ List.nodup_nil, fun c hc => absurd hc (hnone c), fun c hc => absurd hc (hnone c), ?_, ?_⟩
  · rw [hempty]
    exact .empty _ h.matchHash
  · rw [hempty']
    exact .empty _ h.connHash

end Steps

/-! ### A translated flow -/

def host (w : Word) : Addr := { w0 := 0x20, w1 := 0, w2 := 0, w3 := w }

/-- A UDP flow whose source is translated. -/
def masquerade : Rule :=
  { protocol := 17
    srcDev := { dev := 1, registered := true, pointToPoint := false, ethHeader := true, addr := 0xa0 }
    destDev := { dev := 2, registered := true, pointToPoint := false, ethHeader := true, addr := 0xb0 }
    remarkPriority := false
    remarkDscp := false
    noSeqCheck := false
    srcMtu := 1500
    destMtu := 1500
    tuple := { srcIp := host 1, srcPort := 1, destIp := host 2, destPort := 2 }
    xlate := { srcIp := host 3, srcPort := 3, destIp := host 2, destPort := 2 }
    srcMac := 0xa1
    destMacXlate := 0xb1
    srcTd := { winScale := 0, maxWin := 0, endSeq := 0, maxEnd := 0, noSeqCheck := false }
    destTd := { winScale := 0, maxWin := 0, endSeq := 0, maxEnd := 0, noSeqCheck := false }
    mark := 0
    originalAccel := true
    replyAccel := true
    srcPriority := 0
    destPriority := 0
    srcDscp := 0
    destDscp := 0 }

/-- The engine with the flow. -/
def masqueraded : Engine := (Engine.zeroed true).run [.create masquerade true 0]

end Immwrt.Sfe6
