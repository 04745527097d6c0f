import Immwrt.Ead.Daemon

/-!
# Commands need a verified session

What the daemon can rely on in a state is a stage: which session is open, for whom, and how far it has
come since its user name was accepted. Every packet keeps to the stages, and a command is run in the last
one only.
-/

namespace Immwrt.Ead

variable {lib : Srp} {cipher : Cipher} {cfg : Config} {host : Host} {buffer : Nat → Byte}
  {pkt : Packet} {d d' : Daemon lib} {h es : List (Event lib.Server)}
  {Correct : lib.Server → List Byte → Prop}

/-! ### Since a user name -/

/-- The last user name accepted was `name`, and these events happened since, in this order. -/
def Since {Server : Type} (h : List (Event Server)) (name : List Byte)
    (trail : List (Event Server)) : Prop :=
  ∃ front back, h = front ++ .user name :: back ∧ (∀ other, .user other ∉ back) ∧
    trail.Sublist back

theorem Since.append {name : List Byte} {trail more next : List (Event lib.Server)}
    (hs : Since h name trail) (hmore : ∀ other, .user other ∉ more) (hnext : next.Sublist more) :
    Since (h ++ more) name (trail ++ next) := by
  obtain ⟨front, back, rfl, hback, htrail⟩ := hs
  refine ⟨front, back ++ more, by simp, fun other hmem => ?_, htrail.append hnext⟩
  rcases List.mem_append.1 hmem with hmem | hmem
  · exact hback other hmem
  · exact hmore other hmem

theorem Since.keep {name : List Byte} {trail more : List (Event lib.Server)} (hs : Since h name trail)
    (hmore : ∀ other, .user other ∉ more) : Since (h ++ more) name trail := by
  have := hs.append hmore (List.nil_sublist more)
  rwa [List.append_nil] at this

theorem since_user (h : List (Event lib.Server)) (name : List Byte) :
    Since (h ++ [.user name]) name [] :=
  ⟨h, [], rfl, by simp, List.Sublist.refl _⟩

/-! ### Stages -/

/-- What has happened when the daemon is in a state. -/
def Stage (Correct : lib.Server → List Byte → Prop) (h : List (Event lib.Server))
    (d : Daemon lib) : Prop :=
  match d.state with
  | .setUsername => True
  | .getPrime => ∃ n ts, d.ts = some (n, ts) ∧ Since h d.username [.opened n d.username]
  | .sendA => ∃ n ts B, d.ts = some (n, ts) ∧ d.B = some (n, B) ∧
      Since h d.username [.opened n d.username]
  | .sendAuth => ∃ n ts B, d.ts = some (n, ts) ∧ d.B = some (n, B) ∧
      Since h d.username [.opened n d.username, .keyed n d.crypt.skey]
  | .sendCmd => ∃ n ts B ts' proof, d.ts = some (n, ts) ∧ d.B = some (n, B) ∧
      Since h d.username [.opened n d.username, .keyed n d.crypt.skey, .verified n ts' proof] ∧
      Correct ts' proof
  | _ => False

theorem stage_of_setUsername (hst : d.state = .setUsername) : Stage Correct h d := by
  rw [Stage, hst]
  trivial

theorem Stage.keep {more : List (Event lib.Server)} (hs : Stage Correct h d)
    (hmore : ∀ other, .user other ∉ more) : Stage Correct (h ++ more) d := by
  unfold Stage at hs ⊢
  split at hs
  · trivial
  · obtain ⟨n, ts, hts, hsince⟩ := hs
    exact ⟨n, ts, hts, hsince.keep hmore⟩
  · obtain ⟨n, ts, B, hts, hB, hsince⟩ := hs
    exact ⟨n, ts, B, hts, hB, hsince.keep hmore⟩
  · obtain ⟨n, ts, B, hts, hB, hsince⟩ := hs
    exact ⟨n, ts, B, hts, hB, hsince.keep hmore⟩
  · obtain ⟨n, ts, B, ts', proof, hts, hB, hsince, hcorrect⟩ := hs
    exact ⟨n, ts, B, ts', proof, hts, hB, hsince.keep hmore, hcorrect⟩
  · exact hs

theorem Stage.le_state (hs : Stage Correct h d) : .setUsername ≤ d.state := by
  unfold Stage at hs
  split at hs
  · rename_i hst
    rw [hst]
    decide
  · rename_i hst
    rw [hst]
    decide
  · rename_i hst
    rw [hst]
    decide
  · rename_i hst
    rw [hst]
    decide
  · rename_i hst
    rw [hst]
    decide
  · exact hs.elim

/-- From `GET_PRIME` on a session is open. -/
theorem Stage.ts_isSome (hs : Stage Correct h d) (hst : .getPrime ≤ d.state) : d.ts.isSome = true := by
  unfold Stage at hs
  split at hs
  · rename_i heq
    rw [heq] at hst
    exact absurd hst (by decide)
  · obtain ⟨n, ts, hts, -⟩ := hs
    rw [hts]
    rfl
  · obtain ⟨n, ts, B, hts, -⟩ := hs
    rw [hts]
    rfl
  · obtain ⟨n, ts, B, hts, -⟩ := hs
    rw [hts]
    rfl
  · obtain ⟨n, ts, B, ts', proof, hts, -⟩ := hs
    rw [hts]
    rfl
  · exact hs.elim

/-- From `SEND_A` on `B` is set. -/
theorem Stage.B_isSome (hs : Stage Correct h d) (hst : .sendA ≤ d.state) : d.B.isSome = true := by
  unfold Stage at hs
  split at hs
  · rename_i heq
    rw [heq] at hst
    exact absurd hst (by decide)
  · rename_i heq
    rw [heq] at hst
    exact absurd hst (by decide)
  · obtain ⟨n, ts, B, -, hB, -⟩ := hs
    rw [hB]
    rfl
  · obtain ⟨n, ts, B, -, hB, -⟩ := hs
    rw [hB]
    rfl
  · obtain ⟨n, ts, B, ts', proof, -, hB, -⟩ := hs
    rw [hB]
    rfl
  · exact hs.elim

/-! ### Moves between states -/

theorem EadType.eq_of_toInt {s t : EadType} (heq : s.toInt = t.toInt) : s = t := by
  cases s <;> cases t <;> first | rfl | exact absurd heq (by decide)

section

variable (cfg host)

theorem setState_self (d : Daemon lib) : setState cfg host d.state d = (d, []) := if_pos rfl

/-- Back to the start, from wherever. -/
theorem setState_setUsername (hle : .setUsername ≤ d.state) :
    (setState cfg host .setUsername d).1.state = .setUsername ∧
      (setState cfg host .setUsername d).2 = [] := by
  unfold setState
  split
  · rename_i heq
    exact ⟨heq, rfl⟩
  · rename_i hne
    have hlt : EadType.setUsername < d.state :=
      lt_of_le_of_ne hle fun heq => hne (EadType.eq_of_toInt heq).symm
    rw [if_pos hlt]
    split <;> exact ⟨rfl, rfl⟩

/-- A session is opened for the user name, or the daemon stays where it is. -/
theorem setState_getPrime (hst : d.state = .setUsername) :
    ((setState cfg host .getPrime d).1.state = .setUsername ∧
        (setState cfg host .getPrime d).2 = []) ∨
      ∃ n ts, (setState cfg host .getPrime d).1.state = .getPrime ∧
        (setState cfg host .getPrime d).1.ts = some (n, ts) ∧
        (setState cfg host .getPrime d).1.username = d.username ∧
        (setState cfg host .getPrime d).2 = [.opened n d.username] := by
  have hup : ¬ EadType.getPrime < d.state := by rw [hst]; decide
  have hne : d.state ≠ .getPrime := by rw [hst]; decide
  rw [setState, if_neg hne, if_neg hup, hst]
  dsimp only [preparePassword]
  cases (findPassword d.username cfg.passwd d.pwSaltbuf).1 with
  | none => exact .inl ⟨hst, rfl⟩
  | some password =>
      cases host.malloc with
      | false => exact .inl ⟨hst, rfl⟩
      | true => exact .inr ⟨d.opens, _, rfl, rfl, rfl, rfl⟩

theorem setState_sendA {n : Nat} {ts : lib.Server} (hst : d.state = .getPrime)
    (hts : d.ts = some (n, ts)) :
    setState cfg host .sendA d = ({ d with
      ts := some (n, (lib.serverGenExp ts host.random).2)
      B := some (n, (lib.serverGenExp ts host.random).1)
      state := .sendA }, []) := by
  have hup : ¬ EadType.sendA < d.state := by rw [hst]; decide
  have hne : d.state ≠ .sendA := by rw [hst]; decide
  rw [setState, if_neg hne, if_neg hup, hst, hts]

/-- The key of the session is set, or the daemon stays where it is. -/
theorem setState_sendAuth {n : Nat} {ts : lib.Server} (hst : d.state = .sendA)
    (hts : d.ts = some (n, ts)) :
    (∃ ts', setState cfg host .sendAuth d = ({ d with ts := some (n, ts') }, [])) ∨
      ∃ ts' skey, setState cfg host .sendAuth d = ({ d with
        ts := some (n, ts')
        crypt := setKey cfg.bigEndian skey d.crypt
        state := .sendAuth }, [.keyed n skey]) := by
  have hup : ¬ EadType.sendAuth < d.state := by rw [hst]; decide
  have hne : d.state ≠ .sendAuth := by rw [hst]; decide
  rw [setState, if_neg hne, if_neg hup, hst, hts]
  dsimp only
  cases (lib.serverGetKey ts d.A).1 with
  | none => exact .inl ⟨_, rfl⟩
  | some skey => exact .inr ⟨_, skey, rfl⟩

theorem setState_sendCmd (hst : d.state = .sendAuth) :
    setState cfg host .sendCmd d = ({ d with state := .sendCmd }, []) := by
  have hup : ¬ EadType.sendCmd < d.state := by rw [hst]; decide
  have hne : d.state ≠ .sendCmd := by rw [hst]; decide
  rw [setState, if_neg hne, if_neg hup, hst]

end

/-! ### What a packet can do -/

/-- The handler of a packet that is handled. -/
inductive Handles (cipher : Cipher) (cfg : Config) (host : Host) (buffer : Nat → Byte) (pkt : Packet)
    (d : Daemon lib) : Option (Handled lib) → Prop
  | ping : Handles cipher cfg host buffer pkt d (some (handlePing cfg d))
  | setUsername : Handles cipher cfg host buffer pkt d (some (handleSetUsername cfg host pkt d))
  | getPrime : d.state = .getPrime → Handles cipher cfg host buffer pkt d (handleGetPrime d)
  | sendA : d.state = .sendA → Handles cipher cfg host buffer pkt d (handleSendA pkt d)
  | sendAuth : d.state = .sendAuth → Handles cipher cfg host buffer pkt d (handleSendAuth pkt d)
  | sendCmd : d.state = .sendCmd →
      Handles cipher cfg host buffer pkt d (some (commandHandled cipher cfg host buffer pkt d))

theorem parseMessage_cases :
    parseMessage cipher cfg host buffer pkt d = (d, []) ∨
      ∃ handled, Handles cipher cfg host buffer pkt d handled ∧
        parseMessage cipher cfg host buffer pkt d = finish cfg host pkt d handled := by
  unfold parseMessage
  dsimp only
  split
  · exact .inl rfl
  rename_i hstate
  split
  · exact .inl rfl
  have hown : ∀ t : EadType, .getPrime ≤ t → pkt.type.toInt = t.toInt → d.state = t := by
    intro t hle heq
    by_contra hne
    exact hstate ⟨heq ▸ hle, fun h => hne (EadType.eq_of_toInt (h.trans heq))⟩
  unfold dispatch
  split
  · exact .inl rfl
  rename_i minLen handled hdispatch
  split
  · exact .inl rfl
  refine .inr ⟨handled, ?_, rfl⟩
  split at hdispatch
  · cases hdispatch
    exact .ping
  · cases hdispatch
    exact .setUsername
  · rename_i htype
    cases hdispatch
    exact .getPrime (hown .getPrime (by decide) htype)
  · rename_i htype
    cases hdispatch
    exact .sendA (hown .sendA (by decide) htype)
  · rename_i htype
    cases hdispatch
    exact .sendAuth (hown .sendAuth (by decide) htype)
  · rename_i htype
    cases hdispatch
    exact .sendCmd (hown .sendCmd (by decide) htype)
  · cases hdispatch

theorem handlePacket_cases :
    handlePacket cipher cfg host buffer pkt d = (d, []) ∨
      ∃ handled, Handles cipher cfg host buffer pkt d handled ∧
        handlePacket cipher cfg host buffer pkt d = finish cfg host pkt d handled := by
  unfold handlePacket
  repeat' split
  all_goals first
    | exact .inl rfl
    | exact parseMessage_cases

/-! ### Commands -/

/-- Before each command that is run among `more`, with the key it was decrypted with, a proof was
verified for the session that the key is from and that was opened for the last user name. -/
def Gated (Correct : lib.Server → List Byte → Prop) (h more : List (Event lib.Server)) : Prop :=
  ∀ pre post skey command, more = pre ++ .ran skey command :: post →
    ∃ name n ts proof, Since (h ++ pre) name [.opened n name, .keyed n skey, .verified n ts proof] ∧
      Correct ts proof

theorem gated_of_not_mem {more : List (Event lib.Server)}
    (hnone : ∀ skey command, .ran skey command ∉ more) : Gated Correct h more := by
  rintro pre post skey command rfl
  exact absurd (List.mem_append_right pre List.mem_cons_self) (hnone skey command)

theorem Gated.append {more : List (Event lib.Server)} (hes : Gated Correct h es)
    (hmore : Gated Correct (h ++ es) more) : Gated Correct h (es ++ more) := by
  intro pre post skey command heq
  rcases List.append_eq_append_iff.1 heq with ⟨mid, hpre, hmid⟩ | ⟨mid, hes', hmid⟩
  · obtain ⟨name, n, ts, proof, hsince, hcorrect⟩ := hmore mid post skey command hmid
    rw [hpre, ← List.append_assoc]
    exact ⟨name, n, ts, proof, hsince, hcorrect⟩
  · cases mid with
    | nil =>
        rw [List.append_nil] at hes'
        rw [List.nil_append] at hmid
        obtain ⟨name, n, ts, proof, hsince, hcorrect⟩ := hmore [] post skey command hmid.symm
        rw [List.append_nil, hes'] at hsince
        exact ⟨name, n, ts, proof, hsince, hcorrect⟩
    | cons e mid =>
        obtain ⟨rfl, -⟩ := List.cons.inj hmid
        exact hes pre mid skey command hes'

theorem encryptMessage_skey (payload : List Byte) (c : Crypt) :
    (encryptMessage cipher payload buffer c).2.skey = c.skey := rfl

variable (cipher) in
theorem streamOutput_skey (output : List (List Byte × (Nat → Byte))) (c : Crypt) :
    (streamOutput cipher output c).2.skey = c.skey := by
  induction output generalizing c with
  | nil => rfl
  | cons out output ih => rw [streamOutput, ih, encryptMessage_skey]

theorem checkRxIv_skey (iv : Word) (c : Crypt) : (checkRxIv iv c).2.skey = c.skey := by
  unfold checkRxIv
  repeat' split
  all_goals rfl

variable (cipher) in
theorem decryptMessage_skey (len : Word) (data : List Byte) (c : Crypt) :
    (decryptMessage cipher len data c).2.skey = c.skey := by
  unfold decryptMessage
  dsimp only
  repeat' split
  all_goals first | rfl | exact checkRxIv_skey _ c

variable (cipher cfg host buffer) in
theorem handleSendCmd_skey (len : Word) (data : List Byte) (c : Crypt) :
    (handleSendCmd cipher cfg host buffer len data c).crypt.skey = c.skey := by
  have hkey := decryptMessage_skey cipher len data c
  unfold handleSendCmd sayDone
  dsimp only
  repeat' split
  all_goals first
    | exact hkey
    | exact (streamOutput_skey cipher host.output _).trans hkey

/-! ### One packet -/

/-- The stages hold after `r`, and its commands were run behind the gate. -/
def Keeps (Correct : lib.Server → List Byte → Prop) (h : List (Event lib.Server))
    (r : Daemon lib × List (Event lib.Server)) : Prop :=
  Stage Correct (h ++ r.2) r.1 ∧ Gated Correct h r.2

/-- A step that accepts no user name and runs no command, and leaves the daemon as it is. -/
theorem Stage.keeps {more : List (Event lib.Server)} (hs : Stage Correct h d)
    (huser : ∀ other, .user other ∉ more) (hran : ∀ skey command, .ran skey command ∉ more) :
    Keeps Correct h (d, more) :=
  ⟨hs.keep huser, gated_of_not_mem hran⟩

theorem keeps_restart (h : List (Event lib.Server)) (d : Daemon lib) :
    Keeps Correct h (d.restart, [.died]) :=
  ⟨stage_of_setUsername rfl, gated_of_not_mem (by simp)⟩

theorem keeps_ping (hs : Stage Correct h d) :
    Keeps Correct h (finish cfg host pkt d (some (handlePing cfg d))) := by
  rw [finish, handlePing]
  dsimp only
  rw [setState_self]
  exact hs.keeps (by simp) (by simp)

theorem keeps_setUsername (hs : Stage Correct h d) :
    Keeps Correct h (finish cfg host pkt d (some (handleSetUsername cfg host pkt d))) := by
  obtain ⟨hst, hnone⟩ := setState_setUsername cfg host hs.le_state
  rw [finish, handleSetUsername]
  dsimp only
  rw [hnone]
  generalize (setState cfg host .setUsername d).1 = cleared at hst ⊢
  generalize (CString.ofBytes (pkt.data.take 31)).bytes = name
  have hmoved := setState_getPrime cfg host
    (d := { cleared with username := name }) hst
  generalize setState cfg host .getPrime { cleared with username := name } = moved at hmoved ⊢
  rcases hmoved with ⟨hst', hev⟩ | ⟨n, ts, hst', hts, hname, hev⟩
  · rw [hev]
    exact ⟨stage_of_setUsername hst', gated_of_not_mem (by simp)⟩
  · rw [hev]
    refine ⟨?_, gated_of_not_mem (by simp)⟩
    rw [Stage, hst']
    refine ⟨n, ts, hts, ?_⟩
    rw [hname]
    have hsince : Since (h ++ [.user name] ++ [.sent pkt.sid .ackUsername, .opened n name]) name
        ([] ++ [.opened n name]) := (since_user h name).append (by simp) (by simp)
    simpa using hsince

theorem keeps_getPrime (hs : Stage Correct h d) (hst : d.state = .getPrime) :
    Keeps Correct h (finish cfg host pkt d (handleGetPrime d)) := by
  rw [Stage, hst] at hs
  obtain ⟨n, ts, hts, hsince⟩ := hs
  rw [handleGetPrime, hts]
  dsimp only [Option.map_some, finish]
  rw [setState_sendA cfg host hst hts]
  exact ⟨⟨n, _, _, rfl, rfl, hsince.keep (by simp)⟩, gated_of_not_mem (by simp)⟩

theorem keeps_sendA (hs : Stage Correct h d) (hst : d.state = .sendA) :
    Keeps Correct h (finish cfg host pkt d (handleSendA pkt d)) := by
  have hstage := hs
  rw [Stage, hst] at hs
  obtain ⟨n, ts, B, hts, hB, hsince⟩ := hs
  rw [handleSendA, hB]
  split
  · rw [finish, setState_self]
    exact hstage.keeps (by simp) (by simp)
  split
  · exact keeps_restart h d
  dsimp only [Option.map_some, finish]
  generalize (pkt.data.drop 1).take _ = A
  have hmoved := setState_sendAuth cfg host (d := { d with A, B := some (n, B) })
    hst hts
  rcases hmoved with ⟨ts', heq⟩ | ⟨ts', skey, heq⟩
  · rw [heq]
    refine ⟨?_, gated_of_not_mem (by simp)⟩
    dsimp only [Stage]
    rw [hst]
    exact ⟨n, ts', B, rfl, rfl, hsince.keep (by simp)⟩
  · rw [heq]
    refine ⟨⟨n, ts', B, rfl, rfl, ?_⟩, gated_of_not_mem (by simp)⟩
    exact hsince.append (by simp) (by simp [setKey])

theorem keeps_sendAuth (hverify : ∀ ts proof, (lib.serverVerify ts proof).1 = true → Correct ts proof)
    (hs : Stage Correct h d) (hst : d.state = .sendAuth) :
    Keeps Correct h (finish cfg host pkt d (handleSendAuth pkt d)) := by
  rw [Stage, hst] at hs
  obtain ⟨n, ts, B, hts, hB, hsince⟩ := hs
  rw [handleSendAuth, hts]
  dsimp only [Option.map_some, finish]
  cases hproof : (lib.serverVerify ts (pkt.data.take 20)).1 with
  | true =>
      rw [if_pos rfl]
      dsimp only
      have hmoved := setState_sendCmd cfg host
        (d := { d with ts := some (n, (lib.serverVerify ts (pkt.data.take 20)).2) }) hst
      rw [hmoved]
      refine ⟨⟨n, _, B, ts, pkt.data.take 20, rfl, hB, ?_, hverify _ _ hproof⟩,
        gated_of_not_mem (by simp)⟩
      exact hsince.append (by simp) (by simp)
  | false =>
      rw [if_neg (by simp)]
      dsimp only
      obtain ⟨hst', hnone⟩ := setState_setUsername cfg host
        (d := { d with ts := some (n, (lib.serverVerify ts (pkt.data.take 20)).2) })
        (show .setUsername ≤ d.state by rw [hst]; decide)
      rw [hnone]
      exact ⟨stage_of_setUsername hst', gated_of_not_mem (by simp)⟩

theorem keeps_sendCmd (hs : Stage Correct h d) (hst : d.state = .sendCmd) :
    Keeps Correct h (finish cfg host pkt d (some (commandHandled cipher cfg host buffer pkt d))) := by
  rw [Stage, hst] at hs
  obtain ⟨n, ts, B, ts', proof, hts, hB, hsince, hcorrect⟩ := hs
  have hkey := handleSendCmd_skey cipher cfg host buffer pkt.msgLen pkt.data d.crypt
  rw [finish, commandHandled]
  dsimp only
  generalize handleSendCmd cipher cfg host buffer pkt.msgLen pkt.data d.crypt = done at hkey ⊢
  have hself := setState_self cfg host { d with crypt := done.crypt }
  dsimp only at hself
  rw [hself]
  have hsent : ∀ e ∈ (done.stream.map fun enc => Event.sent pkt.sid (.resultCmd enc)) ++
      ((done.last.map .resultCmd).map fun reply => (.sent pkt.sid reply : Event lib.Server)).toList,
      ∃ reply, e = .sent pkt.sid reply := by
    intro e he
    rcases List.mem_append.1 he with he | he
    · obtain ⟨enc, -, rfl⟩ := List.mem_map.1 he
      exact ⟨_, rfl⟩
    · rw [Option.mem_toList, Option.map_map, Option.map_eq_some_iff] at he
      obtain ⟨enc, -, rfl⟩ := he
      exact ⟨_, rfl⟩
  have hstage : Stage Correct h { d with crypt := done.crypt } := by
    dsimp only [Stage]
    rw [hst, hkey]
    exact ⟨n, ts, B, ts', proof, hts, hB, hsince, hcorrect⟩
  rw [List.append_nil, List.append_assoc]
  generalize (done.stream.map fun enc => Event.sent pkt.sid (.resultCmd enc)) ++ _ = messages at hsent ⊢
  have huser : ∀ other, (.user other : Event lib.Server) ∉ messages := fun other he => by
    obtain ⟨reply, heq⟩ := hsent _ he
    cases heq
  have hran : ∀ skey command, (.ran skey command : Event lib.Server) ∉ messages :=
    fun skey command he => by
      obtain ⟨reply, heq⟩ := hsent _ he
      cases heq
  cases done.command with
  | none => exact hstage.keeps huser hran
  | some command =>
      refine ⟨hstage.keep (by simpa using huser), ?_⟩
      intro pre post skey command' heq
      cases pre with
      | nil =>
          obtain ⟨hkey', -⟩ := Event.ran.inj (List.cons.inj heq).1
          rw [List.append_nil, ← hkey']
          exact ⟨d.username, n, ts', proof, hsince, hcorrect⟩
      | cons e pre =>
          have hmem : .ran skey command' ∈ messages := by
            rw [show messages = pre ++ .ran skey command' :: post from (List.cons.inj heq).2]
            exact List.mem_append_right pre List.mem_cons_self
          exact absurd hmem (hran skey command')

/-! ### All packets -/

theorem handlePacket_keeps
    (hverify : ∀ ts proof, (lib.serverVerify ts proof).1 = true → Correct ts proof)
    (hs : Stage Correct h d) : Keeps Correct h (handlePacket cipher cfg host buffer pkt d) := by
  rcases handlePacket_cases with heq | ⟨handled, hhandles, heq⟩
  · rw [heq]
    exact hs.keeps (by simp) (by simp)
  · rw [heq]
    cases hhandles with
    | ping => exact keeps_ping hs
    | setUsername => exact keeps_setUsername hs
    | getPrime hst => exact keeps_getPrime hs hst
    | sendA hst => exact keeps_sendA hs hst
    | sendAuth hst => exact keeps_sendAuth hverify hs hst
    | sendCmd hst => exact keeps_sendCmd hs hst

theorem pktloop_keeps
    (hverify : ∀ ts proof, (lib.serverVerify ts proof).1 = true → Correct ts proof)
    (received : List Received) (hs : Stage Correct h d) :
    Keeps Correct h (pktloop cipher cfg received d) := by
  induction received generalizing d h with
  | nil => exact hs.keeps (by simp) (by simp)
  | cons r received ih =>
      have hstep : Keeps Correct h (handlePacket cipher cfg r.host r.buffer r.pkt d) :=
        handlePacket_keeps hverify hs
      obtain ⟨hstage, hgated⟩ := hstep
      obtain ⟨hlast, hrest⟩ := ih hstage
      rw [pktloop]
      refine ⟨?_, hgated.append hrest⟩
      rw [← List.append_assoc]
      exact hlast

/-! ### Session numbers -/

def Event.session {Server : Type} : Event Server → Option Nat
  | .opened n _ => some n
  | _ => none

/-- The sessions opened on the way from `d` carry the numbers that follow. -/
def Numbered (d : Daemon lib) (r : Daemon lib × List (Event lib.Server)) : Prop :=
  d.opens ≤ r.1.opens ∧ r.2.filterMap Event.session = List.range' d.opens (r.1.opens - d.opens)

theorem numbered_of_none {es : List (Event lib.Server)} (hopens : d'.opens = d.opens)
    (hnone : es.filterMap Event.session = []) : Numbered d (d', es) := by
  refine ⟨hopens.ge, ?_⟩
  rw [hnone, hopens, Nat.sub_self]
  rfl

theorem Numbered.append {r : Daemon lib × List (Event lib.Server)} (h₁ : Numbered d (d', es))
    (h₂ : Numbered d' r) : Numbered d (r.1, es ++ r.2) := by
  obtain ⟨hle, hes⟩ := h₁
  obtain ⟨hle', hr⟩ := h₂
  refine ⟨hle.trans hle', ?_⟩
  dsimp only at hle hes ⊢
  have hnext : d'.opens = d.opens + 1 * (d'.opens - d.opens) := by omega
  rw [List.filterMap_append, hes, hr]
  nth_rewrite 2 [hnext]
  rw [List.range'_append]
  congr 1
  omega

theorem setState_numbered (cfg : Config) (host : Host) (nstate : EadType) (d : Daemon lib) :
    Numbered d (setState cfg host nstate d) := by
  unfold setState preparePassword
  dsimp only
  repeat' split
  all_goals first
    | exact numbered_of_none rfl rfl
    | exact ⟨Nat.le_succ _, by simp [Event.session]⟩

theorem finish_numbered_of {r : Handled lib} (hr : Numbered d (r.daemon, r.events)) :
    Numbered d (finish cfg host pkt d (some r)) := by
  have hreply : Numbered r.daemon
      (r.daemon, (r.reply.map fun reply => (.sent pkt.sid reply : Event lib.Server)).toList) := by
    refine numbered_of_none rfl ?_
    cases r.reply <;> rfl
  exact (hr.append hreply).append (setState_numbered cfg host r.nstate r.daemon)

theorem finish_numbered {handled : Option (Handled lib)}
    (hhandles : Handles cipher cfg host buffer pkt d handled) :
    Numbered d (finish cfg host pkt d handled) := by
  have hdied : Numbered d (d.restart, [.died]) := numbered_of_none rfl rfl
  cases hhandles with
  | ping => exact finish_numbered_of (numbered_of_none rfl rfl)
  | setUsername =>
      apply finish_numbered_of
      have hcleared := setState_numbered cfg host .setUsername d
      exact hcleared.append (r := ({ (setState cfg host .setUsername d).1 with username := _ }, [.user _]))
        (numbered_of_none rfl rfl)
  | getPrime hst =>
      unfold handleGetPrime
      cases d.ts with
      | none => exact hdied
      | some ts => exact finish_numbered_of (numbered_of_none rfl rfl)
  | sendA hst =>
      unfold handleSendA
      dsimp only
      split
      · exact finish_numbered_of (numbered_of_none rfl rfl)
      split
      · exact hdied
      cases d.B with
      | none => exact hdied
      | some B => exact finish_numbered_of (numbered_of_none rfl rfl)
  | sendAuth hst =>
      unfold handleSendAuth
      cases d.ts with
      | none => exact hdied
      | some ts =>
          apply finish_numbered_of
          dsimp only
          split <;> exact numbered_of_none rfl rfl
  | sendCmd hst =>
      refine finish_numbered_of (numbered_of_none rfl ?_)
      unfold commandHandled
      dsimp only
      rw [List.filterMap_append, List.filterMap_map]
      cases (handleSendCmd cipher cfg host buffer pkt.msgLen pkt.data d.crypt).command <;>
        simp [Event.session, Function.comp_def]

theorem pktloop_numbered (received : List Received) (d : Daemon lib) :
    Numbered d (pktloop cipher cfg received d) := by
  induction received generalizing d with
  | nil => exact numbered_of_none rfl rfl
  | cons r received ih =>
      have hstep : Numbered d (handlePacket cipher cfg r.host r.buffer r.pkt d) := by
        rcases handlePacket_cases with heq | ⟨handled, hhandles, heq⟩
        · rw [heq]
          exact numbered_of_none rfl rfl
        · rw [heq]
          exact finish_numbered hhandles
      exact hstep.append (ih _)

/-- No two sessions carry the same number. -/
theorem sessions_distinct (cipher : Cipher) (cfg : Config) (received : List Received) :
    ((pktloop cipher cfg received (Daemon.init : Daemon lib)).2.filterMap Event.session).Nodup := by
  rw [(pktloop_numbered received Daemon.init).2]
  exact List.nodup_range'

/-! ### The gate -/

/-- Whatever packets arrive: a command is run only after a proof was verified since the last user name
was accepted, for the session opened for that name and with the key of that session; a session is open
from `GET_PRIME` on, and `B` is set from `SEND_A` on. -/
theorem command_needs_proof (cipher : Cipher) (cfg : Config)
    (hverify : ∀ ts proof, (lib.serverVerify ts proof).1 = true → Correct ts proof)
    (received : List Received) :
    let r := pktloop cipher cfg received (Daemon.init : Daemon lib)
    (∀ pre post skey command, r.2 = pre ++ .ran skey command :: post →
      ∃ name n ts proof, Since pre name [.opened n name, .keyed n skey, .verified n ts proof] ∧
        Correct ts proof) ∧
    (.getPrime ≤ r.1.state → r.1.ts.isSome = true) ∧ (.sendA ≤ r.1.state → r.1.B.isSome = true) := by
  have hinit : Stage Correct [] (Daemon.init : Daemon lib) := trivial
  have hrun : Keeps Correct [] (pktloop cipher cfg received (Daemon.init : Daemon lib)) :=
    pktloop_keeps hverify received hinit
  obtain ⟨hstage, hgated⟩ := hrun
  exact ⟨hgated, hstage.ts_isSome, hstage.B_isSome⟩

/-! ### A run with a command -/

/-- The key is added to the block bit by bit, and the hash is a sum of words. -/
def xorCipher : Cipher where
  encrypt skey block := (List.range 16).map fun i => block.getD i 0 ^^^ skey.getD i 0
  decrypt skey block := (List.range 16).map fun i => block.getD i 0 ^^^ skey.getD i 0
  transform digest block := (List.range 5).map fun i => digest.getD i 0 * 31 + getU32 block (4 * i)
  length_encrypt skey block := by simp
  decrypt_encrypt skey block hlen := by
    apply List.ext_getElem (by simp [hlen])
    intro i hi hi'
    have hrange : (List.range 16)[i]? = some i := List.getElem?_range (hlen ▸ hi')
    simp [hrange, List.getElem?_eq_getElem hi', BitVec.xor_assoc]
  length_transform digest block := by simp

/-- A library whose session is what both sides have told each other. -/
def echoSrp : Srp where
  Server := List Byte
  prime := 0
  verifier name password random := name ++ password ++ random
  serverOpenRaw name verifier := name ++ verifier
  salt _ := []
  serverGenExp ts random := (random, ts ++ random)
  serverGetKey ts A := (some ((A ++ ts ++ List.replicate 40 0).take 40), ts ++ A)
  serverVerify ts proof := (proof == (ts.reverse ++ List.replicate 20 0).take 20, ts)
  serverResponse ts := ts.take 20

instance : DecidableEq echoSrp.Server := inferInstanceAs (DecidableEq (List Byte))

def rootConfig : Config where
  bigEndian := false
  sizeBits := 64
  id := 0
  nid := 0x3713
  devName := ofChars "Unknown"
  passwd := [CString.lit "root:$1$MCGAgYw.$Ip1GcyeUliId3wzVcKR/e/:0:0:root:/root:/bin/ash"]

/-- A packet to the daemon, handled while everything succeeds. -/
def received (type : Word) (data : List Byte) : Received where
  pkt := ⟨sizeofPacket + data.length, List.replicate 6 0xff, 0x0800, 17, eadPort, eadMagic,
    BitVec.ofNat 32 data.length, type, 0xffff, 0, data⟩
  host := ⟨ofChars "random", true, true, true, [(ofChars "ok", fun _ => 0)], false⟩
  buffer := fun _ => 0

def rootSession : List Byte :=
  ofChars "rootroot$1$MCGAgYw.$Ip1GcyeUliId3wzVcKR/e/randomrandom" ++ [7]

def rootKey : List Byte := ([7] ++ rootSession).take 40

/-- A client that knows the password logs in and has a command run. -/
def rootRun : List Received :=
  [received 2 (ofChars "root" ++ List.replicate 28 0), received 4 [], received 6 [1, 7],
    received 8 ((rootSession.reverse).take 20),
    received 10 (encryptMessage xorCipher ([0, 0, 10] ++ ofChars "reboot" ++ [0]) (fun _ => 0)
      (setKey false rootKey ⟨[], 0, 0, 0, 0⟩)).1]

set_option maxRecDepth 100000 in
theorem command_needs_proof_root :
    ∃ pre post, (pktloop xorCipher rootConfig rootRun (Daemon.init : Daemon echoSrp)).2 =
        pre ++ .ran rootKey (ofChars "reboot") :: post ∧
      ∃ name n ts proof, Since pre name [.opened n name, .keyed n rootKey, .verified n ts proof] ∧
        (proof == (ts.reverse ++ List.replicate 20 0).take 20) = true := by
  have hran : (pktloop xorCipher rootConfig rootRun (Daemon.init : Daemon echoSrp)).2 =
      (pktloop xorCipher rootConfig rootRun (Daemon.init : Daemon echoSrp)).2.take 8 ++
        .ran rootKey (ofChars "reboot") ::
          (pktloop xorCipher rootConfig rootRun (Daemon.init : Daemon echoSrp)).2.drop 9 := by
    decide +kernel
  exact ⟨_, _, hran, (command_needs_proof xorCipher rootConfig (fun _ _ h => h) rootRun).1 _ _ _ _ hran⟩

end Immwrt.Ead
