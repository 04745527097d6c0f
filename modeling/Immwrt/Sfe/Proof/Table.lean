import Immwrt.Sfe.Proof.Lists

/-!
# The invariant of the connection table

The connections of the table are exactly those that are allocated and not about to be flushed, each was
filled in from a rule, and the four linked structures hold them and their matches as they should. Every
step of the engine keeps this, so it holds after every run.
-/

namespace Immwrt.Sfe

open Doubly

/-! ### Connections on their lists -/

section Conn

variable {t : Table} {all : List Nat} {chain : Index → List Nat}

theorem ConnLists.find (h : ConnLists t all chain) (hlt : ∀ c ∈ all, c < t.fresh) (protocol : BitVec 32)
    (tuple : Tuple) :
    (∀ c, t.findConnection protocol tuple = some c →
      c ∈ all ∧ (t.conn c).tuple = tuple ∧ (t.conn c).protocol = protocol) ∧
    (t.findConnection protocol tuple = none →
      ∀ c ∈ all, ¬ ((t.conn c).tuple = tuple ∧ (t.conn c).protocol = protocol)) := by
  have hlist := h.chains.isList (connHashOf (protocol.setWidth 8) tuple)
  have hmem (c : Nat) (hc : c ∈ chain (connHashOf (protocol.setWidth 8) tuple)) : c ∈ all :=
    ((h.mem_chain _ c).mp hc).1
  have hlength := length_le_of_lt hlist.nodup fun c hc => hlt c (hmem c hc)
  rw [Table.findConnection, h.chains.head, hlist.segment.find _ (Nat.lt_succ_of_le hlength)]
  constructor
  · intro c hc
    have hkey := List.find?_some hc
    exact ⟨hmem c (List.mem_of_find?_eq_some hc), by simpa using hkey⟩
  · intro hnone c hc hkey
    have hin : c ∈ chain (connHashOf (protocol.setWidth 8) tuple) := by
      rw [h.mem_chain]
      refine ⟨hc, ?_⟩
      rw [Conn.index, hkey.1, hkey.2]
    have hmiss := List.find?_eq_none.mp hnone c hin
    simp [hkey.1, hkey.2] at hmiss

theorem ConnLists.insert (h : ConnLists t all chain) {c : Nat} (hc : c ∉ all) :
    ∃ chain', ConnLists { t with
      connLinks := t.connLinks.pushFront (t.connHash (t.conn c).index) c
      connHash := Function.update t.connHash (t.conn c).index (some c)
      allLinks := (t.allLinks.setNext c none).pushBack t.allTail c
      allHead := if t.allTail = none then some c else t.allHead
      allTail := some c
      numConnections := t.numConnections + 1 } (all ++ [c]) chain' := by
  have hout (i : Index) : c ∉ chain i := fun hmem => hc ((h.mem_chain i c).mp hmem).1
  have hbase : IsList (t.allLinks.setNext c none) all := by
    refine ⟨h.isList.nodup, h.isList.segment.congr (fun x hx => ?_) fun x _ => rfl⟩
    exact setNext_next_of_ne _ _ fun hxc => hc (hxc ▸ hx)
  refine ⟨_, h.chains.pushFront (t.conn c).index hout, fun i x => ?_, ?_, ?_, by simp, ?_⟩
  · rw [List.mem_append, List.mem_singleton]
    by_cases hi : i = (t.conn c).index
    · subst hi
      rw [Function.update_self, List.mem_cons, h.mem_chain]
      constructor
      · rintro (rfl | ⟨hx, hindex⟩)
        · exact ⟨Or.inr rfl, rfl⟩
        · exact ⟨Or.inl hx, hindex⟩
      · rintro ⟨hx | rfl, hindex⟩
        · exact Or.inr ⟨hx, hindex⟩
        · exact Or.inl rfl
    · rw [Function.update_of_ne hi, h.mem_chain]
      constructor
      · rintro ⟨hx, hindex⟩
        exact ⟨Or.inl hx, hindex⟩
      · rintro ⟨hx | rfl, hindex⟩
        · exact ⟨hx, hindex⟩
        · exact absurd hindex.symm hi
  · rw [h.tail]
    exact hbase.pushBack hc (by simp)
  · simp only [h.tail, h.head]
    cases all <;> simp
  · simp [h.num]

theorem ConnLists.remove {pre post : List Nat} {c : Nat} (h : ConnLists t (pre ++ c :: post) chain) :
    ∃ chain', ConnLists { t with
      connLinks := t.connLinks.unlink c
      connHash := Function.update t.connHash (t.conn c).index
        (t.connLinks.headWithout (t.connHash (t.conn c).index) c)
      allLinks := t.allLinks.unlink c
      allHead := t.allLinks.headWithout t.allHead c
      allTail := t.allLinks.tailWithout t.allTail c
      numConnections := t.numConnections - 1 } (pre ++ post) chain' := by
  have hnodup := h.isList.nodup
  obtain ⟨pre', post', hsplit⟩ := List.append_of_mem ((h.mem_chain (t.conn c).index c).mpr
    ⟨List.mem_append_right _ List.mem_cons_self, rfl⟩)
  refine ⟨_, h.chains.unlink hsplit, fun i x => ?_, h.isList.unlink, ?_, ?_, ?_⟩
  · rw [mem_pre_post hnodup]
    by_cases hi : i = (t.conn c).index
    · subst hi
      have hnodup' := (h.chains.isList (t.conn c).index).nodup
      rw [hsplit] at hnodup'
      rw [Function.update_self, mem_pre_post hnodup', ← hsplit, h.mem_chain]
      tauto
    · rw [Function.update_of_ne hi, h.mem_chain]
      constructor
      · rintro ⟨hx, hindex⟩
        refine ⟨⟨hx, ?_⟩, hindex⟩
        rintro rfl
        exact hi hindex.symm
      · rintro ⟨⟨hx, -⟩, hindex⟩
        exact ⟨hx, hindex⟩
  · rw [← h.isList.headWithout, ← h.head]
  · rw [← h.isList.tailWithout, ← h.tail]
  · have := h.num
    simp only [List.length_append, List.length_cons] at this ⊢
    omega

end Conn

/-! ### Connections and their matches -/

/-- `m` is a match of one of the connections. -/
def Table.IsMatch (t : Table) (all : List Nat) (m : Nat) : Prop :=
  ∃ c ∈ all, m = (t.conn c).originalMatch ∨ m = (t.conn c).replyMatch

/-- The connection and its two matches are as the rule says. -/
structure Table.Made (t : Table) (r : Rule) (c : Nat) : Prop where
  conn : t.conn c = r.conn (t.conn c).originalMatch (t.conn c).replyMatch
  original : t.info (t.conn c).originalMatch = r.originalMatch c (t.conn c).replyMatch
  reply : t.info (t.conn c).replyMatch = r.replyMatch c (t.conn c).originalMatch
  ne : (t.conn c).originalMatch ≠ (t.conn c).replyMatch

/-- The invariant: `live` are the allocated connections, `all` those in the table. -/
structure Inv (t : Table) (live all : List Nat) : Prop where
  matchLists : ∃ chain active, MatchLists t (t.IsMatch all) chain active
  connLists : ∃ chain, ConnLists t all chain
  sub : ∀ c ∈ all, c ∈ live
  made : ∀ c ∈ live, ∃ r, t.Made r c
  bound : ∀ c ∈ live, c < t.fresh ∧ (t.conn c).originalMatch < t.fresh ∧ (t.conn c).replyMatch < t.fresh
  distinct : ∀ c ∈ all, ∀ c' ∈ all, (t.conn c).tuple = (t.conn c').tuple →
    (t.conn c).protocol = (t.conn c').protocol → c = c'

theorem computeTranslations_eq (cm : Match) :
    cm.computeTranslations.connection = cm.connection ∧
    cm.computeTranslations.counterMatch = cm.counterMatch ∧
    cm.computeTranslations.key = cm.key ∧ cm.computeTranslations.xlate = cm.xlate ∧
    cm.computeTranslations.xlateSrc = cm.xlateSrc ∧ cm.computeTranslations.xlateDest = cm.xlateDest ∧
    cm.computeTranslations.xmitDev = cm.xmitDev := by
  rw [Match.computeTranslations]
  split
  · split <;> exact ⟨rfl, rfl, rfl, rfl, rfl, rfl, rfl⟩
  · split <;> exact ⟨rfl, rfl, rfl, rfl, rfl, rfl, rfl⟩

section Owner

variable {t : Table} {live all : List Nat} {r : Rule} {c : Nat}

theorem Table.Made.original_connection (h : t.Made r c) :
    (t.info (t.conn c).originalMatch).connection = c := by
  rw [h.original]
  exact (computeTranslations_eq _).1

theorem Table.Made.reply_connection (h : t.Made r c) :
    (t.info (t.conn c).replyMatch).connection = c := by
  rw [h.reply]
  exact (computeTranslations_eq _).1

theorem Table.Made.original_counter (h : t.Made r c) :
    (t.info (t.conn c).originalMatch).counterMatch = (t.conn c).replyMatch := by
  rw [h.original]
  exact (computeTranslations_eq _).2.1

theorem Table.Made.reply_counter (h : t.Made r c) :
    (t.info (t.conn c).replyMatch).counterMatch = (t.conn c).originalMatch := by
  rw [h.reply]
  exact (computeTranslations_eq _).2.1

/-- The owner of a match is the connection it points to. -/
theorem Inv.owner (h : Inv t live all) {c m : Nat} (hc : c ∈ live)
    (hm : m = (t.conn c).originalMatch ∨ m = (t.conn c).replyMatch) : (t.info m).connection = c := by
  obtain ⟨r, hmade⟩ := h.made c hc
  rcases hm with rfl | rfl
  · exact hmade.original_connection
  · exact hmade.reply_connection

/-- The counter match of a match of a connection is the other one. -/
theorem Inv.counter (h : Inv t live all) {c m : Nat} (hc : c ∈ all)
    (hm : m = (t.conn c).originalMatch ∨ m = (t.conn c).replyMatch) :
    (t.info m).counterMatch ≠ m ∧ t.IsMatch all (t.info m).counterMatch := by
  obtain ⟨r, hmade⟩ := h.made c (h.sub c hc)
  rcases hm with rfl | rfl
  · rw [hmade.original_counter]
    exact ⟨hmade.ne.symm, c, hc, Or.inr rfl⟩
  · rw [hmade.reply_counter]
    exact ⟨hmade.ne, c, hc, Or.inl rfl⟩

theorem Inv.isMatch_lt (h : Inv t live all) {m : Nat} (hm : t.IsMatch all m) : m < t.fresh := by
  obtain ⟨c, hc, rfl | rfl⟩ := hm
  · exact (h.bound c (h.sub c hc)).2.1
  · exact (h.bound c (h.sub c hc)).2.2

theorem Inv.connection_mem (h : Inv t live all) {m : Nat} (hm : t.IsMatch all m) :
    (t.info m).connection ∈ all := by
  obtain ⟨c, hc, hm⟩ := hm
  rwa [h.owner (h.sub c hc) hm]

end Owner

/-! ### Operations on the matches only -/

/-- The two tables differ at most in the match chains and the active list. -/
structure SameConns (t t' : Table) : Prop where
  conn : t'.conn = t.conn
  info : t'.info = t.info
  connLinks : t'.connLinks = t.connLinks
  connHash : t'.connHash = t.connHash
  allLinks : t'.allLinks = t.allLinks
  allHead : t'.allHead = t.allHead
  allTail : t'.allTail = t.allTail
  numConnections : t'.numConnections = t.numConnections
  fresh : t'.fresh = t.fresh

theorem SameConns.refl (t : Table) : SameConns t t := ⟨rfl, rfl, rfl, rfl, rfl, rfl, rfl, rfl, rfl⟩

theorem SameConns.trans {t t' t'' : Table} (h : SameConns t t') (h' : SameConns t' t'') :
    SameConns t t'' :=
  ⟨h'.conn.trans h.conn, h'.info.trans h.info, h'.connLinks.trans h.connLinks,
    h'.connHash.trans h.connHash, h'.allLinks.trans h.allLinks, h'.allHead.trans h.allHead,
    h'.allTail.trans h.allTail, h'.numConnections.trans h.numConnections, h'.fresh.trans h.fresh⟩

theorem sameConns_insertConnectionMatch (t : Table) (m : Nat) : SameConns t (t.insertConnectionMatch m) :=
  ⟨rfl, rfl, rfl, rfl, rfl, rfl, rfl, rfl, rfl⟩

theorem sameConns_removeConnectionMatch (t : Table) (m : Nat) : SameConns t (t.removeConnectionMatch m) := by
  rw [Table.removeConnectionMatch, Table.removeActive]
  split <;> exact ⟨rfl, rfl, rfl, rfl, rfl, rfl, rfl, rfl, rfl⟩

theorem sameConns_activate (t : Table) (m : Nat) : SameConns t (t.activate m) := by
  rw [Table.activate]
  split <;> exact ⟨rfl, rfl, rfl, rfl, rfl, rfl, rfl, rfl, rfl⟩

theorem sameConns_dropCounter (t : Table) (m : Nat) : SameConns t (t.dropCounter m) := by
  rw [Table.dropCounter]
  split <;> exact ⟨rfl, rfl, rfl, rfl, rfl, rfl, rfl, rfl, rfl⟩

theorem sameConns_dropHead (t : Table) (m : Nat) : SameConns t (t.dropHead m) :=
  ⟨rfl, rfl, rfl, rfl, rfl, rfl, rfl, rfl, rfl⟩

theorem sameConns_findConnectionMatch (s : Sfe) (k : Key) :
    SameConns s.toTable (s.findConnectionMatch k).1.toTable := by
  rw [Sfe.findConnectionMatch]
  split
  · exact SameConns.refl _
  · split
    · exact SameConns.refl _
    · split
      · exact SameConns.refl _
      · exact ⟨rfl, rfl, rfl, rfl, rfl, rfl, rfl, rfl, rfl⟩

theorem ConnLists.congr {t t' : Table} {all : List Nat} {chain : Index → List Nat}
    (h : ConnLists t all chain) (hsame : SameConns t t') : ConnLists t' all chain where
  chains := by
    rw [hsame.connLinks, hsame.connHash]
    exact h.chains
  mem_chain := by
    rw [hsame.conn]
    exact h.mem_chain
  isList := by
    rw [hsame.allLinks]
    exact h.isList
  head := hsame.allHead.trans h.head
  tail := hsame.allTail.trans h.tail
  num := hsame.numConnections.trans h.num

theorem Table.Made.congr {t t' : Table} {r : Rule} {c : Nat} (h : t.Made r c)
    (hconn : t'.conn c = t.conn c)
    (horiginal : t'.info (t.conn c).originalMatch = t.info (t.conn c).originalMatch)
    (hreply : t'.info (t.conn c).replyMatch = t.info (t.conn c).replyMatch) : t'.Made r c := by
  refine ⟨?_, ?_, ?_, ?_⟩ <;> rw [hconn]
  · exact h.conn
  · rw [horiginal]
    exact h.original
  · rw [hreply]
    exact h.reply
  · exact h.ne

theorem SameConns.isMatch {t t' : Table} (hsame : SameConns t t') (all : List Nat) :
    t'.IsMatch all = t.IsMatch all := by
  funext m
  rw [Table.IsMatch, Table.IsMatch, hsame.conn]

section

variable {t t' : Table} {live all : List Nat}

theorem Inv.congr (h : Inv t live all) (hsame : SameConns t t')
    (hlists : ∃ chain active, MatchLists t' (t.IsMatch all) chain active) : Inv t' live all := by
  obtain ⟨chain, hchain⟩ := h.connLists
  refine ⟨?_, ⟨chain, hchain.congr hsame⟩, h.sub, fun c hc => ?_, ?_, ?_⟩
  · rwa [hsame.isMatch]
  · obtain ⟨r, hmade⟩ := h.made c hc
    exact ⟨r, hmade.congr (by rw [hsame.conn]) (by rw [hsame.info]) (by rw [hsame.info])⟩
  · rw [hsame.conn, hsame.fresh]
    exact h.bound
  · rw [hsame.conn]
    exact h.distinct

theorem Inv.activate (h : Inv t live all) {m : Nat} (hm : t.IsMatch all m) :
    Inv (t.activate m) live all := by
  obtain ⟨chain, active, hlists⟩ := h.matchLists
  exact h.congr (sameConns_activate t m) ⟨chain, hlists.activate hm⟩

/-- The sync of the first active match takes it and its counter match off the active list. -/
theorem Inv.syncActive (h : Inv t live all) {cm : Nat} (hhead : t.activeHead = some cm) :
    t.IsMatch all cm ∧ Inv ((t.dropCounter (t.info cm).counterMatch).dropHead cm) live all := by
  obtain ⟨chain, active, hlists⟩ := h.matchLists
  have hmem : cm ∈ active := List.mem_of_head? (hlists.head.symm.trans hhead)
  have hcm : t.IsMatch all cm := ((hlists.mem_active cm).mp hmem).1
  obtain ⟨c, hc, howns⟩ := hcm
  obtain ⟨hne, hcounter⟩ := h.counter hc howns
  obtain ⟨active', hlists', hhead'⟩ := hlists.dropCounter hhead hne hcounter
  refine ⟨⟨c, hc, howns⟩, h.congr ((sameConns_dropCounter t _).trans (sameConns_dropHead _ cm)) ?_⟩
  exact ⟨chain, hlists'.dropHead hhead'⟩

theorem Inv.find {s : Sfe} (h : Inv s.toTable live all) (k : Key) :
    Inv (s.findConnectionMatch k).1.toTable live all ∧
    (∀ m, (s.findConnectionMatch k).2 = some m → s.IsMatch all m ∧ (s.info m).key = k) ∧
    ((s.findConnectionMatch k).2 = none → ∀ m, s.IsMatch all m → (s.info m).key ≠ k) := by
  obtain ⟨chain, active, hlists⟩ := h.matchLists
  obtain ⟨⟨chain', hlists'⟩, hsome, hnone⟩ := hlists.find (fun m hm => h.isMatch_lt hm) k
  exact ⟨h.congr (sameConns_findConnectionMatch s k) ⟨chain', active, hlists'⟩, hsome, hnone⟩

/-! ### Taking a connection out -/

theorem MatchLists.congr {M M' : Nat → Prop} {chain : Index → List Nat} {active : List Nat}
    (h : MatchLists t M chain active) (hM : ∀ m, M m ↔ M' m) : MatchLists t M' chain active := by
  obtain rfl : M = M' := funext fun m => propext (hM m)
  exact h

theorem MatchLists.connPart {M : Nat → Prop} {chain : Index → List Nat} {active : List Nat}
    (h : MatchLists t M chain active) (connLinks : Links Nat) (connHash : Index → Option Nat)
    (allLinks : Links Nat) (allHead allTail : Option Nat) (numConnections : Nat) :
    MatchLists { t with connLinks, connHash, allLinks, allHead, allTail, numConnections } M chain active :=
  ⟨h.chains, h.mem_chain, h.isList, h.head, h.tail, h.mem_active, h.idle⟩

theorem Inv.removeConnection (h : Inv t live all) {c : Nat} (hc : c ∈ all) :
    ∃ all', Inv (t.removeConnection c) live all' ∧ ∀ x, x ∈ all' ↔ x ∈ all ∧ x ≠ c := by
  obtain ⟨pre, post, rfl⟩ := List.append_of_mem hc
  obtain ⟨r, hmade⟩ := h.made c (h.sub c hc)
  obtain ⟨chain, active, hlists⟩ := h.matchLists
  obtain ⟨connChain, hconns⟩ := h.connLists
  have hnodup := hconns.isList.nodup
  -- the two matches leave their chains and the active list
  obtain ⟨chain₁, active₁, hlists₁⟩ := hlists.remove ⟨c, hc, Or.inr rfl⟩
  obtain ⟨chain₂, active₂, hlists₂⟩ := hlists₁.remove (m := (t.conn c).originalMatch)
    ⟨⟨c, hc, Or.inl rfl⟩, hmade.ne⟩
  have hsame := (sameConns_removeConnectionMatch t (t.conn c).replyMatch).trans
    (sameConns_removeConnectionMatch _ (t.conn c).originalMatch)
  -- then the connection leaves its own
  obtain ⟨connChain', hconns'⟩ := (hconns.congr hsame).remove
  have hmem : ∀ x, x ∈ pre ++ post ↔ x ∈ pre ++ c :: post ∧ x ≠ c := fun x => mem_pre_post hnodup
  have hM : ∀ m, (t.IsMatch (pre ++ c :: post) m ∧ m ≠ (t.conn c).replyMatch) ∧
      m ≠ (t.conn c).originalMatch ↔ t.IsMatch (pre ++ post) m := by
    intro m
    constructor
    · rintro ⟨⟨⟨c', hc', hm⟩, hreply⟩, horiginal⟩
      refine ⟨c', (hmem c').mpr ⟨hc', ?_⟩, hm⟩
      rintro rfl
      exact hm.elim horiginal hreply
    · rintro ⟨c', hc', hm⟩
      obtain ⟨hc', hne⟩ := (hmem c').mp hc'
      have howner := h.owner (h.sub c' hc') hm
      refine ⟨⟨⟨c', hc', hm⟩, ?_⟩, ?_⟩
      · rintro rfl
        exact hne (howner.symm.trans hmade.reply_connection)
      · rintro rfl
        exact hne (howner.symm.trans hmade.original_connection)
  have hconn : (t.removeConnection c).conn = t.conn := hsame.conn
  have hinfo : (t.removeConnection c).info = t.info := hsame.info
  have hfresh : (t.removeConnection c).fresh = t.fresh := hsame.fresh
  refine ⟨pre ++ post, ⟨⟨chain₂, active₂, ?_⟩, ⟨connChain', hconns'⟩, ?_, ?_, ?_, ?_⟩, hmem⟩
  · have hisMatch : (t.removeConnection c).IsMatch (pre ++ post) = t.IsMatch (pre ++ post) := by
      funext m
      rw [Table.IsMatch, Table.IsMatch, hconn]
    rw [hisMatch]
    exact (hlists₂.congr hM).connPart _ _ _ _ _ _
  · exact fun x hx => h.sub x ((hmem x).mp hx).1
  · intro x hx
    obtain ⟨r, hmade⟩ := h.made x hx
    exact ⟨r, hmade.congr (by rw [hconn]) (by rw [hinfo]) (by rw [hinfo])⟩
  · rw [hconn, hfresh]
    exact h.bound
  · rw [hconn]
    intro x hx x' hx'
    exact h.distinct x ((hmem x).mp hx).1 x' ((hmem x').mp hx').1

/-! ### A new connection -/

/-- The new objects are not those the lists are made of. -/
theorem MatchLists.fresh {M : Nat → Prop} {chain : Index → List Nat} {active : List Nat}
    (h : MatchLists t M chain active) (hlinks : t'.matchLinks = t.matchLinks)
    (hhash : t'.matchHash = t.matchHash) (hhead : t'.activeHead = t.activeHead)
    (htail : t'.activeTail = t.activeTail)
    (hsame : ∀ m, M m → t'.info m = t.info m ∧ t'.active m = t.active m ∧
      t'.activeLinks.next m = t.activeLinks.next m ∧ t'.activeLinks.prev m = t.activeLinks.prev m) :
    MatchLists t' M chain active := by
  refine ⟨?_, fun i m => ?_, ?_, hhead.trans h.head, htail.trans h.tail, fun m => ?_, fun m hm hidle => ?_⟩
  · rw [hlinks, hhash]
    exact h.chains
  · rw [h.mem_chain]
    refine and_congr_right fun hm => ?_
    rw [(hsame m hm).1]
  · have hmem (m : Nat) (hm : m ∈ active) : M m := ((h.mem_active m).mp hm).1
    exact ⟨h.isList.nodup, h.isList.segment.congr (fun m hm => (hsame m (hmem m hm)).2.2.1)
      fun m hm => (hsame m (hmem m hm)).2.2.2⟩
  · rw [h.mem_active]
    refine and_congr_right fun hm => ?_
    rw [(hsame m hm).2.1]
  · rw [(hsame m hm).2.2.1]
    exact h.idle m hm ((hsame m hm).2.1.symm.trans hidle)

theorem ConnLists.fresh {chain : Index → List Nat} (h : ConnLists t all chain)
    (hlinks : t'.connLinks = t.connLinks) (hhash : t'.connHash = t.connHash)
    (hall : t'.allLinks = t.allLinks) (hhead : t'.allHead = t.allHead) (htail : t'.allTail = t.allTail)
    (hnum : t'.numConnections = t.numConnections) (hsame : ∀ c ∈ all, t'.conn c = t.conn c) :
    ConnLists t' all chain := by
  refine ⟨?_, fun i c => ?_, ?_, hhead.trans h.head, htail.trans h.tail, hnum.trans h.num⟩
  · rw [hlinks, hhash]
    exact h.chains
  · rw [h.mem_chain]
    refine and_congr_right fun hc => ?_
    rw [hsame c hc]
  · rw [hall]
    exact h.isList

/-- A connection enters the table with both its matches. -/
theorem Inv.insertConnection {c : Nat} {r : Rule} (hM : ∃ chain active, MatchLists t (t.IsMatch all) chain active)
    (hC : ∃ chain, ConnLists t all chain) (hsub : ∀ c ∈ all, c ∈ live)
    (hmade : ∀ c ∈ live, ∃ r, t.Made r c)
    (hbound : ∀ c ∈ live,
      c < t.fresh ∧ (t.conn c).originalMatch < t.fresh ∧ (t.conn c).replyMatch < t.fresh)
    (hdistinct : ∀ x ∈ all, ∀ x' ∈ all, (t.conn x).tuple = (t.conn x').tuple →
      (t.conn x).protocol = (t.conn x').protocol → x = x')
    (hc : c ∉ all) (hcmade : t.Made r c)
    (hcbound : c < t.fresh ∧ (t.conn c).originalMatch < t.fresh ∧ (t.conn c).replyMatch < t.fresh)
    (horiginal : ¬ t.IsMatch all (t.conn c).originalMatch) (hreply : ¬ t.IsMatch all (t.conn c).replyMatch)
    (hidle : ∀ m, m = (t.conn c).originalMatch ∨ m = (t.conn c).replyMatch →
      t.active m = false ∧ t.activeLinks.next m = none)
    (hnew : ∀ x ∈ all, ¬ ((t.conn x).tuple = (t.conn c).tuple ∧ (t.conn x).protocol = (t.conn c).protocol)) :
    Inv (t.insertConnection c) (c :: live) (all ++ [c]) := by
  obtain ⟨chain, active, hM⟩ := hM
  obtain ⟨connChain, hC⟩ := hC
  obtain ⟨connChain', hC'⟩ := hC.insert hc
  obtain ⟨chain₁, hM₁⟩ := (hM.connPart (t.connLinks.pushFront (t.connHash (t.conn c).index) c)
    (Function.update t.connHash (t.conn c).index (some c))
    ((t.allLinks.setNext c none).pushBack t.allTail c) (if t.allTail = none then some c else t.allHead)
    (some c) (t.numConnections + 1)).insert horiginal (hidle _ (Or.inl rfl)).1 (hidle _ (Or.inl rfl)).2
  obtain ⟨chain₂, hM₂⟩ := hM₁.insert (m := (t.conn c).replyMatch)
    (fun hm => hm.elim hreply fun heq => hcmade.ne heq.symm) (hidle _ (Or.inr rfl)).1
    (hidle _ (Or.inr rfl)).2
  refine ⟨⟨chain₂, active, ?_⟩, ⟨connChain', hC'.congr ?_⟩, ?_, ?_, ?_, ?_⟩
  · refine hM₂.congr fun m => ?_
    constructor
    · rintro ((⟨x, hx, hm⟩ | rfl) | rfl)
      · exact ⟨x, List.mem_append_left _ hx, hm⟩
      · exact ⟨c, List.mem_append_right _ (List.mem_singleton_self c), Or.inl rfl⟩
      · exact ⟨c, List.mem_append_right _ (List.mem_singleton_self c), Or.inr rfl⟩
    · rintro ⟨x, hx, hm⟩
      rcases List.mem_append.mp hx with hx | hx
      · exact Or.inl (Or.inl ⟨x, hx, hm⟩)
      · rw [List.mem_singleton.mp hx] at hm
        exact hm.elim (fun hm => Or.inl (Or.inr hm)) Or.inr
  · exact (sameConns_insertConnectionMatch _ _).trans (sameConns_insertConnectionMatch _ _)
  · intro x hx
    rcases List.mem_append.mp hx with hx | hx
    · exact List.mem_cons_of_mem _ (hsub x hx)
    · exact List.mem_cons.mpr (Or.inl (List.mem_singleton.mp hx))
  · intro x hx
    rcases List.mem_cons.mp hx with rfl | hx
    · exact ⟨r, hcmade.congr rfl rfl rfl⟩
    · obtain ⟨r', hmade'⟩ := hmade x hx
      exact ⟨r', hmade'.congr rfl rfl rfl⟩
  · intro x hx
    rcases List.mem_cons.mp hx with rfl | hx
    · exact hcbound
    · exact hbound x hx
  · intro x hx x' hx' htuple hprotocol
    rcases List.mem_append.mp hx with hx | hx
    · rcases List.mem_append.mp hx' with hx' | hx'
      · exact hdistinct x hx x' hx' htuple hprotocol
      · rw [List.mem_singleton.mp hx'] at htuple hprotocol
        exact absurd ⟨htuple, hprotocol⟩ (hnew x hx)
    · rcases List.mem_append.mp hx' with hx' | hx'
      · rw [List.mem_singleton.mp hx] at htuple hprotocol
        exact absurd ⟨htuple.symm, hprotocol.symm⟩ (hnew x' hx')
      · rw [List.mem_singleton.mp hx, List.mem_singleton.mp hx']

end

/-- A rule that is accepted adds its connection to the table. -/
theorem Inv.create {s : Sfe} {live all : List Nat} (h : Inv s.toTable live all) (r : Rule) (now : BitVec 64)
    (hnew : ∀ x ∈ all, ¬ ((s.conn x).tuple = r.tuple ∧ (s.conn x).protocol = r.protocol)) :
    Inv (({ s with fresh := s.fresh + 3, live := s.fresh :: s.live }.fill r s.fresh (s.fresh + 1)
      (s.fresh + 2) now).insertConnection s.fresh) (s.fresh :: live) (all ++ [s.fresh]) := by
  set t := ({ s with fresh := s.fresh + 3, live := s.fresh :: s.live }.fill r s.fresh (s.fresh + 1)
    (s.fresh + 2) now).toTable with ht
  have hnext (m : Nat) (hm : m < s.fresh) : t.info m = s.info m ∧ t.active m = s.active m ∧
      t.activeLinks.next m = s.activeLinks.next m ∧ t.activeLinks.prev m = s.activeLinks.prev m := by
    have h₁ : m ≠ s.fresh + 1 := by omega
    have h₂ : m ≠ s.fresh + 2 := by omega
    simp [ht, Sfe.fill, Links.setNext, Links.setPrev, Function.update_of_ne, h₁, h₂]
  have hconn (c : Nat) (hc : c < s.fresh) : t.conn c = s.conn c := Function.update_of_ne hc.ne _ _
  have hself : t.conn s.fresh = r.conn (s.fresh + 1) (s.fresh + 2) := Function.update_self _ _ _
  have hlt (c : Nat) (hc : c ∈ all) : c < s.fresh := (h.bound c (h.sub c hc)).1
  have hisMatch (m : Nat) : t.IsMatch all m ↔ s.IsMatch all m :=
    exists_congr fun c => and_congr_right fun hc => by rw [hconn c (hlt c hc)]
  have hout (m : Nat) (hm : s.fresh ≤ m) : ¬ t.IsMatch all m := fun hmatch =>
    absurd (h.isMatch_lt ((hisMatch m).mp hmatch)) (by omega)
  obtain ⟨chain, active, hlists⟩ := h.matchLists
  obtain ⟨connChain, hconns⟩ := h.connLists
  refine Inv.insertConnection (r := r) ⟨chain, active, ?_⟩ ⟨connChain, ?_⟩ h.sub ?_ ?_ ?_ ?_ ?_ ?_ ?_ ?_ ?_ ?_
  · exact (hlists.congr fun m => (hisMatch m).symm).fresh rfl rfl rfl rfl fun m hm =>
      hnext m (h.isMatch_lt ((hisMatch m).mp hm))
  · exact hconns.fresh rfl rfl rfl rfl rfl rfl fun c hc => hconn c (hlt c hc)
  · intro c hc
    obtain ⟨r', hmade⟩ := h.made c hc
    obtain ⟨hlt, horiginal, hreply⟩ := h.bound c hc
    exact ⟨r', hmade.congr (hconn c hlt) (hnext _ horiginal).1 (hnext _ hreply).1⟩
  · intro c hc
    obtain ⟨hlt, horiginal, hreply⟩ := h.bound c hc
    have hfresh : t.fresh = s.fresh + 3 := rfl
    rw [hconn c hlt, hfresh]
    omega
  · intro x hx x' hx'
    rw [hconn x (hlt x hx), hconn x' (hlt x' hx')]
    exact h.distinct x hx x' hx'
  · exact fun hmem => absurd (hlt _ hmem) (lt_irrefl _)
  · refine ⟨?_, ?_, ?_, ?_⟩ <;> rw [hself]
    · rfl
    · simp [ht, Sfe.fill, Rule.conn, Function.update_of_ne]
    · simp [ht, Sfe.fill, Rule.conn]
    · simp [Rule.conn]
  · have hfresh : t.fresh = s.fresh + 3 := rfl
    rw [hself, hfresh]
    simp only [Rule.conn]
    omega
  · rw [hself]
    exact hout _ (Nat.le_succ _)
  · rw [hself]
    exact hout _ (Nat.le_add_right _ 2)
  · rw [hself]
    rintro m (rfl | rfl)
    · simp [ht, Sfe.fill, Rule.conn, Links.setNext, Links.setPrev, Function.update_of_ne]
    · simp [ht, Sfe.fill, Rule.conn, Links.setNext, Links.setPrev]
  · intro x hx
    rw [hself, hconn x (hlt x hx)]
    exact hnew x hx

end Immwrt.Sfe
