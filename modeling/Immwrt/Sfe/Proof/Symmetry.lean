import Immwrt.Sfe.Proof.Steps

/-!
# Translation there and back

The two matches of a connection are mirror images: what one sends is what the other looks for, and what
the other sends is what the first one looks for. So the reply to a packet that was translated is found and
translated back, whichever direction the packet went.
-/

namespace Immwrt.Sfe

/-! ### Mirrored matches -/

/-- Where a match leaves the source or the destination alone, it has nothing else for it. -/
structure Match.Plain (cm : Match) : Prop where
  src : cm.xlateSrc = false → cm.xlate.srcIp = cm.key.tuple.srcIp ∧ cm.xlate.srcPort = cm.key.tuple.srcPort
  dest : cm.xlateDest = false →
    cm.xlate.destIp = cm.key.tuple.destIp ∧ cm.xlate.destPort = cm.key.tuple.destPort

/-- `m` takes the packets that answer those that `cm` sends. -/
structure Match.Answers (m cm : Match) : Prop where
  dev : m.key.dev = cm.xmitDev
  protocol : m.key.protocol = cm.key.protocol
  tuple : m.key.tuple = cm.xlate.swap

theorem Match.forward_dev (cm : Match) (udp : Bool) (mark : Word) (p : Packet) :
    (cm.forward udp mark p).dev = cm.xmitDev := rfl

theorem Match.forward_tuple (cm : Match) (udp : Bool) (mark : Word) (p : Packet) :
    (cm.forward udp mark p).tuple =
      { srcIp := if cm.xlateSrc then cm.xlate.srcIp else p.ip.saddr
        srcPort := if cm.xlateSrc then cm.xlate.srcPort else p.source
        destIp := if cm.xlateDest then cm.xlate.destIp else p.ip.daddr
        destPort := if cm.xlateDest then cm.xlate.destPort else p.dest } := by
  rw [Sent.tuple, Match.forward]
  cases cm.xlateSrc <;> cases cm.xlateDest <;> rfl

/-- A packet of the flow leaves with the translated addresses and ports. -/
theorem Match.Plain.forward_tuple {cm : Match} (h : cm.Plain) (udp : Bool) (mark : Word) {p : Packet}
    (hkey : cm.key.tuple = p.tuple) : (cm.forward udp mark p).tuple = cm.xlate := by
  have hsrc := h.src
  have hdest := h.dest
  rw [hkey] at hsrc hdest
  rw [Match.forward_tuple]
  cases hxlateSrc : cm.xlateSrc with
  | false =>
    obtain ⟨hip, hport⟩ := hsrc hxlateSrc
    cases hxlateDest : cm.xlateDest with
    | false =>
      obtain ⟨hip', hport'⟩ := hdest hxlateDest
      exact Tuple.ext hip.symm hport.symm hip'.symm hport'.symm
    | true => exact Tuple.ext hip.symm hport.symm rfl rfl
  | true =>
    cases hxlateDest : cm.xlateDest with
    | false =>
      obtain ⟨hip, hport⟩ := hdest hxlateDest
      exact Tuple.ext rfl rfl hip.symm hport.symm
    | true => rfl

/-- The reply to a packet of the flow is one that the answering match takes. -/
theorem Match.Answers.key_eq {m cm : Match} (h : m.Answers cm) (hplain : cm.Plain) (udp : Bool) (mark : Word)
    {p q : Packet} {dev : Dev} (hkey : cm.key = p.key dev)
    (htuple : q.tuple = (cm.forward udp mark p).tuple.swap) (hprotocol : q.ip.protocol = p.ip.protocol) :
    m.key = q.key (cm.forward udp mark p).dev := by
  have hp : cm.key.tuple = p.tuple := by rw [hkey, Packet.key]
  rw [Packet.key, htuple, hplain.forward_tuple udp mark hp, hprotocol, Match.forward_dev]
  refine Key.ext h.dev ?_ h.tuple
  rw [h.protocol, hkey, Packet.key]

theorem Match.Plain.computeTranslations {cm : Match} (h : cm.Plain) : cm.computeTranslations.Plain := by
  obtain ⟨-, -, hkey, hxlate, hsrc, hdest, -⟩ := computeTranslations_eq cm
  constructor
  · rw [hsrc, hxlate, hkey]
    exact h.src
  · rw [hdest, hxlate, hkey]
    exact h.dest

theorem Match.Answers.computeTranslations {m cm : Match} (h : m.Answers cm) :
    m.computeTranslations.Answers cm.computeTranslations := by
  obtain ⟨-, -, hkey, hxlate, -, -, hdev⟩ := computeTranslations_eq cm
  obtain ⟨-, -, hmkey, -, -, -, -⟩ := computeTranslations_eq m
  refine ⟨?_, ?_, ?_⟩
  · rw [hmkey, hdev]
    exact h.dev
  · rw [hmkey, hkey]
    exact h.protocol
  · rw [hmkey, hxlate]
    exact h.tuple

theorem Rule.xlatesSrc_eq_false {r : Rule} (h : r.xlatesSrc = false) :
    r.xlate.srcIp = r.tuple.srcIp ∧ r.xlate.srcPort = r.tuple.srcPort := by
  simp only [Rule.xlatesSrc, decide_eq_false_iff_not, not_or, not_not] at h
  exact ⟨h.1.symm, h.2.symm⟩

theorem Rule.xlatesDest_eq_false {r : Rule} (h : r.xlatesDest = false) :
    r.xlate.destIp = r.tuple.destIp ∧ r.xlate.destPort = r.tuple.destPort := by
  simp only [Rule.xlatesDest, decide_eq_false_iff_not, not_or, not_not] at h
  exact ⟨h.1.symm, h.2.symm⟩

/-- The matches of a rule, each the mirror image of the other. -/
theorem Rule.mirrored (r : Rule) (c original reply : Nat) :
    (r.originalMatch c reply).Plain ∧ (r.replyMatch c original).Plain ∧
    (r.replyMatch c original).Answers (r.originalMatch c reply) ∧
    (r.originalMatch c reply).Answers (r.replyMatch c original) := by
  refine ⟨?_, ?_, ?_, ?_⟩
  · refine Match.Plain.computeTranslations ⟨fun h => r.xlatesSrc_eq_false h, fun h => r.xlatesDest_eq_false h⟩
  · refine Match.Plain.computeTranslations ⟨fun h => ?_, fun h => ?_⟩
    · obtain ⟨hip, hport⟩ := r.xlatesDest_eq_false h
      exact ⟨hip.symm, hport.symm⟩
    · obtain ⟨hip, hport⟩ := r.xlatesSrc_eq_false h
      exact ⟨hip.symm, hport.symm⟩
  · exact Match.Answers.computeTranslations ⟨rfl, rfl, rfl⟩
  · exact Match.Answers.computeTranslations ⟨rfl, rfl, rfl⟩

theorem Table.Made.mirrored {t : Table} {r : Rule} {c : Nat} (h : t.Made r c) (reply : Bool) :
    (t.info ((t.conn c).side reply)).Plain ∧
    (t.info ((t.conn c).side !reply)).Answers (t.info ((t.conn c).side reply)) := by
  obtain ⟨hplain, hplain', hanswers, hanswers'⟩ :=
    r.mirrored c (t.conn c).originalMatch (t.conn c).replyMatch
  rw [← h.original, ← h.reply] at *
  cases reply with
  | false => exact ⟨hplain, hanswers⟩
  | true => exact ⟨hplain', hanswers'⟩

/-! ### Replies -/

/-- No other match of the table has the key of `m`. -/
def Sfe.OnlyKey (s : Sfe) (m : Nat) : Prop :=
  ∀ c, s.InTable c → ∀ reply, (s.info ((s.conn c).side reply)).key = (s.info m).key →
    (s.conn c).side reply = m

/-- The lookup of a key finds the only match that has it. -/
theorem Sfe.Sound.find_only {s : Sfe} {all : List Nat} (h : s.Sound all) {c : Nat} (hc : s.InTable c)
    {reply : Bool} (honly : s.OnlyKey ((s.conn c).side reply)) {k : Key}
    (hkey : (s.info ((s.conn c).side reply)).key = k) :
    (s.findConnectionMatch k).2 = some ((s.conn c).side reply) := by
  obtain ⟨-, hsome, hnone⟩ := h.inv.find k
  have hmatch : s.IsMatch all ((s.conn c).side reply) := Conn.isMatch_side ((h.mem_all c).mpr hc) reply
  cases hfind : (s.findConnectionMatch k).2 with
  | none => exact absurd hkey (hnone hfind _ hmatch)
  | some m =>
    obtain ⟨hm, hmkey⟩ := hsome m hfind
    obtain ⟨c', hc', reply', rfl⟩ := hm.side
    rw [honly c' ((h.mem_all c').mp hc') reply' (hmkey.trans hkey.symm)]

/-- A packet that is forwarded leaves as the match found for it says. -/
theorem recv_sent {s : Sfe} {dev : Dev} {p : Packet} {sent : Sent} (hsent : (s.recv dev p).2 = some sent) :
    ∃ cm udp mark, (s.findConnectionMatch (p.key dev)).2 = some cm ∧ sent = (s.info cm).forward udp mark p := by
  have houtcome := recv_outcome s dev p
  generalize s.recv dev p = result at houtcome hsent
  cases houtcome with
  | ignored hquiet => exact absurd hsent (by simp)
  | found k hquiet => exact absurd hsent (by simp)
  | flushed k hfind hquiet => exact absurd hsent (by simp)
  | forwarded udp mark hfind hlen hquiet =>
    refine ⟨_, udp, mark, hfind, ?_⟩
    rw [← Option.some.inj hsent, (sameConns_findConnectionMatch s _).info]

/-- A rule is accepted, later one of its two matches forwards a packet, and later still, with the
connection in the table and no other match there having the key of the other match, the reply arrives on
the device the packet went out of. The other match is found for it, and it leaves with the addresses and
ports of the packet swapped, on the device the packet came from. -/
theorem reply_translated_back {s₀ s s' : Sfe} (h : s₀.Initial) (before : List Step) {r : Rule} {memory : Bool}
    {now : BitVec 64} {c : Nat} (hcreate : ((s₀.run before).createRule r memory now).2 = .ok c)
    (between : List Step) (hs : s = ((s₀.run before).createRule r memory now).1.run between)
    {reply : Bool} {dev : Dev} {p : Packet} {sent : Sent}
    (hmatch : (s.findConnectionMatch (p.key dev)).2 = some ((s.conn c).side reply))
    (hsent : (s.recv dev p).2 = some sent)
    (afterwards : List Step) (hs' : s' = (s.recv dev p).1.run afterwards)
    (hc : s'.InTable c) (honly : s'.OnlyKey ((s'.conn c).side !reply))
    {q : Packet} (htuple : q.tuple = sent.tuple.swap) (hprotocol : q.ip.protocol = p.ip.protocol) :
    (s'.findConnectionMatch (q.key sent.dev)).2 = some ((s'.conn c).side !reply) ∧
    ∀ back, (s'.recv sent.dev q).2 = some back → back.tuple = p.tuple.swap ∧ back.dev = dev := by
  obtain ⟨all₀, hsound₀⟩ := h.sound.run before
  obtain ⟨all₁, hsound₁⟩ := hsound₀.createRule r memory now
  obtain ⟨all, hsound⟩ := hsound₁.run between
  rw [← hs] at hsound
  obtain ⟨all₂, hsound₂⟩ := hsound.recv dev p
  obtain ⟨all', hsound'⟩ := hsound₂.run afterwards
  rw [← hs'] at hsound'
  -- the connection and its matches are in `s'` what they were in `s`
  have hkeeps : Keeps s.toTable s'.toTable := by
    rw [hs']
    exact (keeps_recv s dev p).trans (keeps_run _ afterwards)
  obtain ⟨hlt, hside⟩ : c < s.fresh ∧ (s.conn c).side reply < s.fresh := by
    obtain ⟨-, hlive, -⟩ := createRule_ok (Prod.ext rfl hcreate)
    have hmem : c ∈ ((s₀.run before).createRule r memory now).1.live := hlive ▸ List.mem_cons_self
    have hkeeps₁ := keeps_run ((s₀.run before).createRule r memory now).1 between
    rw [← hs] at hkeeps₁
    have hlt := (hsound₁.inv.bound c hmem).1
    rw [hkeeps₁.conn c hlt]
    exact ⟨hlt.trans_le hkeeps₁.fresh, (hsound₁.inv.side_lt hmem reply).trans_le hkeeps₁.fresh⟩
  have hinfo : s'.info ((s'.conn c).side reply) = s.info ((s.conn c).side reply) := by
    rw [hkeeps.conn c hlt, hkeeps.info _ hside]
  have hkey : (s'.info ((s'.conn c).side reply)).key = p.key dev := by
    rw [hinfo]
    exact ((hsound.inv.find _).2.1 _ hmatch).2
  obtain ⟨r', hmade⟩ := hsound'.inv.made c hc.1
  obtain ⟨hplain, hanswers⟩ := hmade.mirrored reply
  obtain ⟨hplain', hanswers'⟩ := hmade.mirrored !reply
  rw [Bool.not_not] at hanswers'
  obtain ⟨cm, udp, mark, hfind, rfl⟩ := recv_sent hsent
  obtain rfl : (s.conn c).side reply = cm := Option.some.inj (hmatch.symm.trans hfind)
  rw [← hinfo] at htuple ⊢
  have hkey' := hanswers.key_eq hplain udp mark hkey htuple hprotocol
  have hfound := hsound'.find_only hc honly hkey'
  refine ⟨hfound, fun back hback => ?_⟩
  obtain ⟨cm, udp', mark', hfind', rfl⟩ := recv_sent hback
  obtain rfl : (s'.conn c).side (!reply) = cm := Option.some.inj (hfound.symm.trans hfind')
  constructor
  · have hq : (s'.info ((s'.conn c).side !reply)).key.tuple = q.tuple := by rw [hkey', Packet.key]
    rw [hplain'.forward_tuple udp' mark' hq]
    exact (congrArg Tuple.swap (hanswers'.tuple.symm.trans (congrArg Key.tuple hkey)))
  · exact hanswers'.dev.symm.trans (congrArg Key.dev hkey)

theorem masqueraded_onlyKey : ((Sfe.zeroed true).run masqueraded).OnlyKey 2 := by
  intro c hc reply
  have hlive : ((Sfe.zeroed true).run masqueraded).live = [0] := by decide +kernel
  have hmem := hc.1
  rw [hlive, List.mem_singleton] at hmem
  subst hmem
  cases reply <;> decide +kernel

/-- A packet leaves with the translated source, and its answer is brought back to the host it came from. -/
theorem reply_translated_back_masqueraded :
    ∃ sent back,
      (((Sfe.zeroed true).createRule masquerade true 0).1.recv 1 (udpPacket masquerade.tuple)).2 = some sent ∧
      sent.tuple = masquerade.xlate ∧
      (((Sfe.zeroed true).run masqueraded).recv 2 (udpPacket masquerade.xlate.swap)).2 = some back ∧
      back.tuple = masquerade.tuple.swap ∧ back.dev = 1 := by
  set s := ((Sfe.zeroed true).createRule masquerade true 0).1 with hs
  obtain ⟨sent, hsent⟩ : ∃ sent, (s.recv 1 (udpPacket masquerade.tuple)).2 = some sent :=
    Option.isSome_iff_exists.mp (by decide +kernel)
  obtain ⟨back, hback⟩ :
      ∃ back, (((Sfe.zeroed true).run masqueraded).recv 2 (udpPacket masquerade.xlate.swap)).2 = some back :=
    Option.isSome_iff_exists.mp (by decide +kernel)
  have htuple : (s.recv 1 (udpPacket masquerade.tuple)).2.map Sent.tuple = some masquerade.xlate := by
    decide +kernel
  have hdev : (s.recv 1 (udpPacket masquerade.tuple)).2.map Sent.dev = some 2 := by decide +kernel
  rw [hsent] at htuple hdev
  have htuple : sent.tuple = masquerade.xlate := Option.some.inj htuple
  have hdev : sent.dev = 2 := Option.some.inj hdev
  have hmatch : (s.findConnectionMatch ((udpPacket masquerade.tuple).key 1)).2 =
      some ((s.conn 0).side false) := by decide +kernel
  have hanswer : (udpPacket masquerade.xlate.swap).tuple = sent.tuple.swap := by
    rw [htuple]
    rfl
  have hthere := (reply_translated_back (Sfe.initial_zeroed true) [] (by decide +kernel) [] hs hmatch hsent []
    rfl ⟨by decide +kernel, by decide +kernel⟩ masqueraded_onlyKey hanswer rfl).2
  rw [hdev] at hthere
  exact ⟨sent, back, hsent, htuple, hback, hthere back hback⟩

end Immwrt.Sfe
