import Immwrt.Ead.Access
import Immwrt.Ead.Proof.Gate

/-!
# Where the daemon leaves its buffers

Responses fit in `pktbuf` whatever is asked, so what is to be said is about the packet: a handler stays in it exactly if
what it looks at was captured. Two handlers may go further for packets that are captured as a whole: the length of a number
that has none is negative, and a command without padding is ended behind the message.
-/

namespace Immwrt.Ead

variable {size : Region → Nat} {f : Frame} {accesses others : List Access} {access : Access}

@[simp]
theorem inBounds_nil : InBounds size [] := fun _ h => absurd h List.not_mem_nil

@[simp]
theorem inBounds_cons : InBounds size (access :: accesses) ↔ access.Ok size ∧ InBounds size accesses :=
  List.forall_mem_cons

@[simp]
theorem inBounds_append : InBounds size (accesses ++ others) ↔ InBounds size accesses ∧ InBounds size others :=
  List.forall_mem_append

theorem packet_ok {off : Nat} {len : Int} : (packetAt off len).Ok f.size ↔ 0 ≤ len ∧ off + len ≤ f.caplen := Iff.rfl

theorem pktbuf_ok {off : Nat} {len : Int} : (pktbufAt off len).Ok f.size ↔ 0 ≤ len ∧ off + len ≤ 1600 := Iff.rfl

/-- A response takes the addresses from the packet. -/
theorem inBounds_sendPacketClone {n : Nat} (hn : sizeofPacket + n ≤ pcapMru) :
    InBounds f.size (sendPacketClone n) ↔ sizeofPacket ≤ f.caplen := by
  rw [sizeofPacket, pcapMru] at hn
  rw [sendPacketClone, sizeofPacket]
  simp only [inBounds_cons, packet_ok, pktbuf_ok, inBounds_nil, and_true]
  omega

theorem inBounds_encryptAccesses {n : Nat} (hn : n ≤ 1025) : InBounds f.size (encryptAccesses n) := by
  have hpadding : padding n < 64 := Nat.mod_lt _ (by decide)
  rw [encryptAccesses, encryptedLen, sizeofPacket, sizeofEncrypted]
  simp only [inBounds_cons, pktbuf_ok, inBounds_nil, and_true]
  omega

theorem encryptedLen_le {n : Nat} (hn : n ≤ 1025) : sizeofPacket + encryptedLen n ≤ pcapMru := by
  have hpadding : padding n < 64 := Nat.mod_lt _ (by decide)
  rw [encryptedLen, sizeofPacket, sizeofEncrypted, pcapMru]
  omega

theorem inBounds_map_range {n : Nat} {at' : Nat → Access} :
    InBounds size ((List.range n).map at') ↔ ∀ i < n, (at' i).Ok size := by
  rw [InBounds, List.forall_mem_map]
  exact forall_congr' fun i => by rw [List.mem_range]

/-! ### Encrypted messages -/

theorem tmod_nonpos {n : Int} (hn : n < 0) : ¬ 0 < n.tmod encPad := by
  have hneg := Int.tmod_nonneg (encPad : Int) (show 0 ≤ -n by omega)
  rw [Int.neg_tmod] at hneg
  omega

/-- A message is decrypted in place. -/
theorem inBounds_decrypt (cipher : Cipher) (region : Region) (off : Nat) (len : Word) (data : List Byte) (c : Crypt) :
    InBounds size (decryptAccesses cipher region off len data c) ↔ EncryptedFits len (size region - off) := by
  have hat : ∀ more n : Nat, (Access.mk region (off + more) n).Ok size ↔ (more : Int) + n ≤ size region - off := by
    intro more n
    change 0 ≤ (n : Int) ∧ ((off + more : Nat) : Int) + n ≤ size region ↔ _
    omega
  rw [decryptAccesses, EncryptedFits, sizeofEncrypted]
  by_cases hskip : len.toInt = 0 ∨ 0 < len.toInt.tmod encPad
  · rw [if_pos hskip]
    refine iff_of_true inBounds_nil ⟨fun hneg => ?_, fun hpos hmod => ?_⟩
    · exact absurd hskip (not_or.2 ⟨hneg.ne, tmod_nonpos hneg⟩)
    · exact absurd hskip (not_or.2 ⟨hpos.ne', hmod.le.not_gt⟩)
  · rw [if_neg hskip]
    obtain ⟨hzero, hmod⟩ := not_or.1 hskip
    dsimp only
    rw [inBounds_append, inBounds_map_range, inBounds_cons]
    have hhead : ∀ (k : Nat) (b b' : Prop) [Decidable b] [Decidable b'], (25 : Int) ≤ size region - off →
        (∀ i < k, (Access.mk region (off + 64 * i) 64).Ok size) →
        InBounds size (if b then [] else ⟨region, off + 20, 4⟩ ::
          if b' then [] else ⟨region, off, 20⟩ :: (List.range k).map fun i => ⟨region, off + 64 * i, 64⟩) := by
      intro k b b' _ _ hroom hblocks
      split
      case isTrue => exact inBounds_nil
      case isFalse =>
        refine inBounds_cons.2 ⟨(hat 20 4).2 (by omega), ?_⟩
        split
        case isTrue => exact inBounds_nil
        case isFalse => exact inBounds_cons.2 ⟨(hat 0 20).2 (by omega), inBounds_map_range.2 hblocks⟩
    rcases Int.lt_or_gt_of_ne hzero with hneg | hpos
    · have hlen : len.toInt.toNat = 0 := by omega
      rw [hlen]
      constructor
      · rintro ⟨-, hpad, -⟩
        exact ⟨fun _ => (hat 24 1).1 hpad, fun hpos => absurd hpos (by omega)⟩
      · rintro ⟨hroom, -⟩
        have hroom := hroom hneg
        refine ⟨fun i hi => absurd hi (Nat.not_lt_zero i), (hat 24 1).2 (by omega), hhead _ _ _ (by omega) ?_⟩
        exact fun i hi => absurd hi (Nat.not_lt_zero i)
    · obtain ⟨blocks, hblocks⟩ : ∃ blocks : Nat, len.toInt = 64 * blocks := by
        have hzero : len.toInt.tmod encPad = 0 := by
          have := Int.tmod_nonneg (encPad : Int) hpos.le
          omega
        obtain ⟨k, hk⟩ := Int.dvd_of_tmod_eq_zero hzero
        rw [encPad] at hk
        exact ⟨k.toNat, by omega⟩
      rw [hblocks, show (64 * (blocks : Int)).toNat = 64 * blocks by omega,
        show (64 * blocks + 15) / 16 = 4 * blocks by omega, show (64 * blocks + 63) / 64 = blocks by omega]
      rw [hblocks] at hpos
      constructor
      · rintro ⟨hdata, -, -⟩
        have hlast := (hat (16 * (4 * blocks - 1)) 16).1 (hdata (4 * blocks - 1) (by omega))
        exact ⟨fun hneg => absurd hneg (by omega), fun _ _ => by omega⟩
      · rintro ⟨-, hroom⟩
        have hroom := hroom (by omega) (by rw [encPad]; exact Int.mul_tmod_right 64 blocks)
        refine ⟨fun i hi => (hat (16 * i) 16).2 (by omega), (hat 24 1).2 (by omega), hhead _ _ _ (by omega) ?_⟩
        exact fun i hi => (hat (64 * i) 64).2 (by omega)

/-! ### Handlers -/

section Handlers

variable {lib : Srp} {cipher : Cipher} {cfg : Config} {host : Host} {d : Daemon lib}

theorem inBounds_ping : InBounds f.size (pingAccesses cfg) ↔ sizeofPacket ≤ f.caplen := by
  have hslen : min cfg.devName.length 1024 ≤ 1024 := Nat.min_le_right _ _
  rw [pingAccesses, inBounds_append,
    inBounds_sendPacketClone (by rw [sizeofPacket, pcapMru]; omega)]
  simp only [inBounds_cons, pktbuf_ok, inBounds_nil, and_true]
  omega

theorem inBounds_setUsername :
    InBounds f.size (setUsernameAccesses f) ↔ sizeofPacket + strncpyReads f.mem 62 32 ≤ f.caplen := by
  have husername : ∀ off len : Nat, off + len ≤ 32 → (Access.mk .username off len).Ok f.size := by
    intro off len h
    refine ⟨Int.natCast_nonneg len, ?_⟩
    change (off : Int) + len ≤ 32
    omega
  rw [setUsernameAccesses, inBounds_append, inBounds_sendPacketClone (by decide)]
  simp only [inBounds_cons, packet_ok, pktbuf_ok, inBounds_nil, and_true, sizeofPacket]
  constructor
  · rintro ⟨⟨⟨-, h⟩, -⟩, -⟩
    omega
  · intro h
    exact ⟨⟨⟨by omega, by omega⟩, husername 0 32 (by decide), husername 31 1 (by decide), by omega⟩, by omega⟩

theorem inBounds_getPrime (hsalt : ∀ ts, (lib.salt ts).length ≤ maxSaltLen) (hts : d.ts.isSome = true) :
    InBounds f.size (getPrimeAccesses d) ↔ sizeofPacket ≤ f.caplen := by
  obtain ⟨ts, hts⟩ := Option.isSome_iff_exists.1 hts
  have hlength := hsalt ts.2
  rw [maxSaltLen] at hlength
  rw [getPrimeAccesses, hts]
  dsimp only
  rw [inBounds_append, inBounds_sendPacketClone (by decide), maxSaltLen]
  simp only [inBounds_cons, pktbuf_ok, inBounds_nil, and_true]
  omega

theorem inBounds_sendA (hB : d.B.isSome = true) (hlength : ∀ B ∈ d.B, B.2.length ≤ maxParamLen)
    (hheader : 58 ≤ f.caplen) :
    InBounds f.size (sendAAccesses f d) ↔
      maxParamLen + 1 < toCInt (f.packet.msgLen.toNat - 1) ∨
        0 ≤ toCInt (f.packet.msgLen.toNat - 1) ∧
          sizeofPacket + 1 + toCInt (f.packet.msgLen.toNat - 1) ≤ f.caplen := by
  obtain ⟨B, hB⟩ := Option.isSome_iff_exists.1 hB
  have hB' := hlength B hB
  rw [maxParamLen] at hB'
  have habuf : ∀ len : Int, (Access.mk .abuf 0 len).Ok f.size ↔ 0 ≤ len ∧ len ≤ 257 := by
    intro len
    change 0 ≤ len ∧ ((0 : Nat) : Int) + len ≤ 257 ↔ _
    omega
  rw [sendAAccesses, hB, maxParamLen, sizeofPacket]
  dsimp only
  generalize toCInt (f.packet.msgLen.toNat - 1) = len
  rw [inBounds_cons, packet_ok]
  split
  case isTrue hlong =>
    exact iff_of_true ⟨by omega, inBounds_nil⟩ (.inl hlong)
  case isFalse hshort =>
    rw [inBounds_append, inBounds_append, inBounds_sendPacketClone (by rw [sizeofPacket, pcapMru]; omega), sizeofPacket]
    simp only [inBounds_cons, packet_ok, pktbuf_ok, habuf, inBounds_nil, and_true]
    omega

theorem inBounds_sendAuth (hts : d.ts.isSome = true) :
    InBounds f.size (sendAuthAccesses f d) ↔ sizeofPacket + 20 ≤ f.caplen := by
  obtain ⟨ts, hts⟩ := Option.isSome_iff_exists.1 hts
  rw [sendAuthAccesses, hts]
  dsimp only
  rw [inBounds_cons, packet_ok, sizeofPacket]
  split
  case isTrue =>
    rw [inBounds_append, inBounds_sendPacketClone (by decide), sizeofPacket]
    simp only [inBounds_cons, pktbuf_ok, inBounds_nil, and_true]
    omega
  case isFalse =>
    simp only [inBounds_nil, and_true]
    omega

theorem length_ofBytes_le (bytes : List Byte) : (CString.ofBytes bytes).bytes.length ≤ bytes.length :=
  (List.takeWhile_sublist _).length_le

theorem inBounds_done (hcaplen : sizeofPacket ≤ f.caplen) : InBounds f.size doneAccesses := by
  rw [doneAccesses]
  refine inBounds_cons.2 ⟨pktbuf_ok.2 (by omega), inBounds_append.2 ⟨inBounds_encryptAccesses (by decide), ?_⟩⟩
  exact (inBounds_sendPacketClone (encryptedLen_le (by decide))).2 hcaplen

theorem inBounds_stream (hcaplen : sizeofPacket ≤ f.caplen) (output : List (List Byte × (Nat → Byte))) :
    InBounds f.size (streamAccesses output) := by
  have hread : ∀ n ≤ 1025, InBounds f.size
      ([pktbufAt 87 1, pktbufAt 88 1024] ++ encryptAccesses n ++ sendPacketClone (encryptedLen n)) := by
    intro n hn
    rw [inBounds_append, inBounds_append, inBounds_sendPacketClone (encryptedLen_le hn)]
    simp only [inBounds_cons, pktbuf_ok, inBounds_nil, and_true]
    exact ⟨⟨by omega, inBounds_encryptAccesses hn⟩, hcaplen⟩
  intro access haccess
  obtain ⟨read, -, hmem⟩ := List.mem_flatMap.1 haccess
  exact hread _ (by omega) access hmem

/-- The command is ended with a zero before anything else is done. -/
theorem inBounds_command (result : Option (Int × List Byte)) :
    InBounds f.size (commandAccesses cfg host result) ↔ CommandFits f result := by
  cases result with
  | none => exact iff_of_true inBounds_nil trivial
  | some result =>
      obtain ⟨ret, plain⟩ := result
      rw [commandAccesses, CommandFits]
      dsimp only
      generalize toCInt (ret - 3) = datalen
      split
      case isTrue hle => exact iff_of_true inBounds_nil fun hpos => absurd hpos (by omega)
      case isFalse hpos =>
        have hcommand := (length_ofBytes_le (slice plain 28 datalen.toNat)).trans (List.length_take_le _ _)
        generalize (CString.ofBytes (slice plain 28 datalen.toNat)).bytes.length = command at hcommand ⊢
        rw [inBounds_append]
        simp only [inBounds_cons, packet_ok, inBounds_nil, and_true]
        constructor
        · rintro ⟨⟨-, -, hend⟩, -⟩ -
          omega
        · intro hroom
          have hroom := hroom (by omega)
          have hcaplen : sizeofPacket ≤ f.caplen := by rw [sizeofPacket]; omega
          have hread : (packetAt 90 (command + 1)).Ok f.size := packet_ok.2 (by omega)
          refine ⟨by omega, ?_⟩
          split
          case isTrue =>
            split
            case isTrue => exact inBounds_nil
            case isFalse =>
              refine inBounds_cons.2 ⟨hread, inBounds_append.2 ⟨inBounds_stream hcaplen _, ?_⟩⟩
              split
              case isTrue => exact inBounds_nil
              case isFalse => exact inBounds_done hcaplen
          case isFalse =>
            split
            case isTrue =>
              split
              case isTrue => exact inBounds_nil
              case isFalse => exact inBounds_cons.2 ⟨hread, inBounds_done hcaplen⟩
            case isFalse => exact inBounds_nil

theorem inBounds_sendCmd (hheader : 58 ≤ f.caplen) :
    InBounds f.size (sendCmdAccesses cipher cfg host f d) ↔
      EncryptedFits f.packet.msgLen (f.caplen - sizeofPacket) ∧
        CommandFits f (decryptMessage cipher f.packet.msgLen f.packet.data d.crypt).1 := by
  rw [sendCmdAccesses, List.cons_append, inBounds_cons, inBounds_append, inBounds_decrypt, inBounds_command, packet_ok,
    and_iff_right (by omega)]
  rfl

/-! ### The header -/

theorem looked_of_all {checks : List Check} (h : checks.all Check.passes = true) : looked checks = checks := by
  induction checks with
  | nil => rfl
  | cons check checks ih =>
      rw [List.all_cons, Bool.and_eq_true] at h
      rw [looked, if_pos h.1, ih h.2]

theorem inBounds_looked (checks : List Check) :
    InBounds f.size ((looked checks).map fun check => packetAt check.off check.size) ↔
      ∀ check ∈ looked checks, check.off + check.size ≤ f.caplen := by
  rw [InBounds, List.forall_mem_map]
  refine forall₂_congr fun check _ => ?_
  rw [packet_ok]
  omega

/-- What the checks of the header say. -/
theorem headerChecks_all :
    (headerChecks cfg f d).all Check.passes = true ↔
      f.packet.etherType = 0x0800 ∧ f.packet.etherDhost = List.replicate 6 0xff ∧ f.packet.proto = 17 ∧
        f.packet.destport = eadPort ∧ f.packet.magic = eadMagic ∧
        (sizeofPacket + f.packet.msgLen.toNat) % 2 ^ cfg.sizeBits ≤ f.packet.len ∧
        (f.packet.nid = 0xffff ∨ f.packet.nid = cfg.nid) ∧
        (EadType.getPrime.toInt ≤ f.packet.type.toInt → d.state.toInt = f.packet.type.toInt) ∧
        (f.packet.type.toInt ≠ EadType.ping.toInt → ((f.packet.sid &&& 0xf000) >>> 12).toNat = cfg.id) := by
  have hsid : ((if f.packet.type.toInt = EadType.ping.toInt then []
      else [⟨56, 2, decide (((f.packet.sid &&& 0xf000) >>> 12).toNat = cfg.id)⟩] : List Check).all Check.passes = true) ↔
        (f.packet.type.toInt ≠ EadType.ping.toInt → ((f.packet.sid &&& 0xf000) >>> 12).toNat = cfg.id) := by
    split
    case isTrue hping => exact iff_of_true rfl fun hne => absurd hping hne
    case isFalse hping =>
      rw [imp_iff_right hping, List.all_cons, List.all_nil, Bool.and_true, decide_eq_true_iff]
  rw [headerChecks, List.all_append, Bool.and_eq_true, hsid]
  simp only [List.all_cons, List.all_nil, Bool.and_eq_true, and_true, beq_iff_eq, decide_eq_true_iff, Bool.or_eq_true,
    and_assoc]

variable (cfg d) in
theorem sid_looked (htype : f.packet.type.toInt ≠ EadType.ping.toInt) :
    ∃ passes, Check.mk 56 2 passes ∈ headerChecks cfg f d := by
  rw [headerChecks]
  rw [if_neg htype]
  exact ⟨_, List.mem_append_right _ (List.mem_singleton_self _)⟩

/-! ### States -/

/-- What the handlers rely on: from `GET_PRIME` on there is a session, and from `SEND_A` on there is a `B` of it, which
the library made. -/
structure Ready (d : Daemon lib) : Prop where
  ts : .getPrime ≤ d.state → d.ts.isSome = true
  B : .sendA ≤ d.state → d.B.isSome = true
  length : ∀ B ∈ d.B, B.2.length ≤ maxParamLen

variable (cfg host) in
theorem inBounds_handler (hsalt : ∀ ts, (lib.salt ts).length ≤ maxSaltLen) (hready : Ready d)
    (hstate : EadType.getPrime.toInt ≤ f.packet.type.toInt → d.state.toInt = f.packet.type.toInt)
    (hsid : f.packet.type.toInt ≠ EadType.ping.toInt → 58 ≤ f.caplen) {least : Nat}
    (hleast : minLen f.packet.type.toInt = some least) :
    58 ≤ f.caplen ∧ InBounds f.size (handlerAccesses cipher cfg host f d) ↔ HandlerFits cipher f d := by
  have hown : ∀ t : EadType, .getPrime ≤ t → f.packet.type.toInt = t.toInt → d.state = t := fun t hle htype =>
    EadType.eq_of_toInt ((hstate (htype ▸ hle)).trans htype)
  rw [handlerAccesses, HandlerFits]
  unfold minLen at hleast
  split at hleast
  case h_1 =>
    rw [inBounds_ping, sizeofPacket]
    omega
  case h_2 htype =>
    rw [and_iff_right (hsid (by rw [htype]; decide))]
    exact inBounds_setUsername
  case h_3 htype =>
    rw [and_iff_right (hsid (by rw [htype]; decide))]
    exact inBounds_getPrime hsalt (hready.ts (by rw [hown .getPrime (by decide) htype]; decide))
  case h_4 htype =>
    have hheader := hsid (by rw [htype]; decide)
    rw [and_iff_right hheader]
    exact inBounds_sendA (hready.B (by rw [hown .sendA (by decide) htype]; decide)) hready.length hheader
  case h_5 htype =>
    rw [and_iff_right (hsid (by rw [htype]; decide))]
    exact inBounds_sendAuth (hready.ts (by rw [hown .sendAuth (by decide) htype]; decide))
  case h_6 htype =>
    have hheader := hsid (by rw [htype]; decide)
    rw [and_iff_right hheader]
    exact inBounds_sendCmd hheader
  case h_7 => cases hleast

/-- Handling a packet stays in the buffers exactly if what is looked at was captured. -/
theorem packetAccesses_iff (hsalt : ∀ ts, (lib.salt ts).length ≤ maxSaltLen) (hready : Ready d) (f : Frame) :
    InBounds f.size (packetAccesses cipher cfg host f d) ↔ Fits cipher cfg f d := by
  rw [packetAccesses, Fits]
  by_cases hlen : f.len.toNat < sizeofPacket
  · rw [if_pos hlen]
    exact iff_of_true inBounds_nil fun hle => absurd hlen (Nat.not_lt.2 hle)
  · rw [if_neg hlen, imp_iff_right (Nat.not_lt.1 hlen)]
    dsimp only
    rw [inBounds_append, inBounds_looked]
    refine and_congr_right fun hlooked => ?_
    by_cases hall : (headerChecks cfg f d).all Check.passes = true
    · rw [if_pos hall]
      have hsid : f.packet.type.toInt ≠ EadType.ping.toInt → 58 ≤ f.caplen := by
        intro htype
        obtain ⟨passes, hmem⟩ := sid_looked cfg d htype
        exact hlooked _ ((looked_of_all hall).symm ▸ hmem)
      obtain ⟨-, -, -, -, -, -, -, hstate, -⟩ := headerChecks_all.1 hall
      rw [parseAccesses]
      cases hleast : minLen f.packet.type.toInt with
      | none =>
          refine iff_of_true inBounds_nil fun hcalled => ?_
          obtain ⟨least, hsome, -⟩ := hcalled.2
          rw [hleast] at hsome
          cases hsome
      | some least =>
          dsimp only
          by_cases hshort : f.len.toInt < sizeofPacket + least
          · rw [if_pos hshort]
            refine iff_of_true inBounds_nil fun hcalled => ?_
            obtain ⟨least', hsome, hle⟩ := hcalled.2
            rw [hleast] at hsome
            obtain rfl := Option.some.inj hsome
            omega
          · rw [if_neg hshort, imp_iff_right ⟨hall, least, hleast, by omega⟩, inBounds_append,
              ← inBounds_handler cfg host hsalt hready hstate hsid hleast]
            refine and_congr_left fun _ => ?_
            simp only [inBounds_cons, packet_ok, pktbuf_ok, inBounds_nil, and_true]
            omega
    · rw [if_neg hall]
      exact iff_of_true inBounds_nil fun hcalled => absurd hcalled.1 hall

/-! ### Handled packets -/

theorem map_dispatch (cipher : Cipher) (cfg : Config) (host : Host) (buffer : Nat → Byte) (pkt : Packet)
    (d : Daemon lib) : (dispatch cipher cfg host buffer pkt d).map Prod.fst = minLen pkt.type.toInt := by
  unfold dispatch
  split
  case h_7 hping husername hprime hsendA hauth hcmd =>
    unfold minLen
    split
    all_goals first | rfl | contradiction
  all_goals
    rename_i htype
    rw [htype]
    rfl

theorem packet_len (hlen : f.len.toNat < 2 ^ 31) : (f.packet.len : Int) = f.len.toInt := by
  rw [BitVec.toInt_eq_toNat_cond, if_pos (by omega)]
  rfl

/-- A packet for which no handler is called leaves the daemon as it was. -/
theorem handlePacket_of_not_called {buffer : Nat → Byte} (hlen : f.len.toNat < 2 ^ 31) (hcalled : ¬ Called cfg f d) :
    handlePacket cipher cfg host buffer f.packet d = (d, []) := by
  have hint := packet_len hlen
  have hdispatch := map_dispatch cipher cfg host buffer f.packet d
  by_contra hne
  apply hcalled
  unfold handlePacket at hne
  repeat' split at hne
  all_goals try exact absurd rfl hne
  rename_i hsize htype hdhost hproto hport hmagic hmsgLen hnid
  unfold parseMessage at hne
  dsimp only at hne
  split at hne
  · exact absurd rfl hne
  rename_i hstate
  split at hne
  · exact absurd rfl hne
  rename_i hsid
  split at hne
  · exact absurd rfl hne
  rename_i least handled hhandled
  split at hne
  · exact absurd rfl hne
  refine ⟨headerChecks_all.2 ?_, least, ?_, by omega⟩
  · exact ⟨not_not.1 htype, not_not.1 hdhost, not_not.1 hproto, not_not.1 hport, not_not.1 hmagic, Nat.not_lt.1 hmsgLen,
      by tauto, by tauto, by tauto⟩
  · rw [← hdispatch, hhandled]
    rfl

theorem handlePacket_of_called {buffer : Nat → Byte} (hlen : f.len.toNat < 2 ^ 31) (hcalled : Called cfg f d) :
    ∃ least handled, dispatch cipher cfg host buffer f.packet d = some (least, handled) ∧
      handlePacket cipher cfg host buffer f.packet d = finish cfg host f.packet d handled := by
  have hint := packet_len hlen
  have hdispatch := map_dispatch cipher cfg host buffer f.packet d
  obtain ⟨hall, least, hleast, hlong⟩ := hcalled
  obtain ⟨htype, hdhost, hproto, hport, hmagic, hmsgLen, hnid, hstate, hsid⟩ := headerChecks_all.1 hall
  rw [hleast] at hdispatch
  obtain ⟨⟨_, handled⟩, hhandled, rfl⟩ := Option.map_eq_some_iff.1 hdispatch
  refine ⟨_, handled, hhandled, ?_⟩
  rw [handlePacket, if_neg (by omega), if_neg (not_not.2 htype), if_neg (not_not.2 hdhost), if_neg (not_not.2 hproto),
    if_neg (not_not.2 hport), if_neg (not_not.2 hmagic), if_neg (Nat.not_lt.2 hmsgLen), if_neg (by tauto), parseMessage,
    if_neg (by tauto), if_neg (by tauto), hhandled]
  exact if_neg (by omega)

/-! ### Runs -/

theorem setState_length (hexp : ∀ ts random, (lib.serverGenExp ts random).1.length ≤ maxParamLen)
    (hB : ∀ B ∈ d.B, B.2.length ≤ maxParamLen) (nstate : EadType) :
    ∀ B ∈ (setState cfg host nstate d).1.B, B.2.length ≤ maxParamLen := by
  rw [setState]
  split
  · exact hB
  · split
    · split
      · exact hB
      · exact hB
    · split
      · dsimp only
        split
        · exact hB
        · split
          · exact hB
          · exact hB
      · split
        · rintro B ⟨⟩
        · rintro B ⟨⟩
          exact hexp _ _
      · split
        · rintro B ⟨⟩
        · dsimp only
          split
          · exact hB
          · exact hB
      · exact hB

theorem finish_length (hexp : ∀ ts random, (lib.serverGenExp ts random).1.length ≤ maxParamLen) {pkt : Packet}
    {handled : Option (Handled lib)} (hB : ∀ r ∈ handled, ∀ B ∈ r.daemon.B, B.2.length ≤ maxParamLen) :
    ∀ B ∈ (finish cfg host pkt d handled).1.B, B.2.length ≤ maxParamLen := by
  cases handled with
  | none => rintro B ⟨⟩
  | some r => exact setState_length hexp (hB r rfl) r.nstate

theorem handled_length (hexp : ∀ ts random, (lib.serverGenExp ts random).1.length ≤ maxParamLen)
    (hB : ∀ B ∈ d.B, B.2.length ≤ maxParamLen) {buffer : Nat → Byte} {pkt : Packet} {handled : Option (Handled lib)}
    (h : Handles cipher cfg host buffer pkt d handled) :
    ∀ r ∈ handled, ∀ B ∈ r.daemon.B, B.2.length ≤ maxParamLen := by
  cases h with
  | ping =>
      rintro r ⟨⟩
      exact hB
  | setUsername =>
      rintro r ⟨⟩
      exact setState_length hexp hB .setUsername
  | getPrime =>
      intro r hr
      obtain ⟨ts, -, rfl⟩ := Option.map_eq_some_iff.1 hr
      exact hB
  | sendA =>
      intro r hr
      rw [handleSendA] at hr
      split at hr
      · obtain rfl := Option.some.inj hr
        exact hB
      · split at hr
        · cases hr
        · obtain ⟨B, -, rfl⟩ := Option.map_eq_some_iff.1 hr
          exact hB
  | sendAuth =>
      intro r hr
      obtain ⟨ts, -, rfl⟩ := Option.map_eq_some_iff.1 hr
      dsimp only
      split
      · exact hB
      · exact hB
  | sendCmd =>
      rintro r ⟨⟩
      exact hB

/-- In every run the handlers find what they rely on. -/
theorem always_ready (cipher : Cipher) (cfg : Config)
    (hexp : ∀ ts random, (lib.serverGenExp ts random).1.length ≤ maxParamLen) (received : List Received) :
    Run.Always (afterPacket cipher cfg) Ready received (Daemon.init : Daemon lib) := by
  have hrun : Run.Always (afterPacket cipher cfg)
      (fun d => (∃ h, Stage (fun _ _ => True) h d) ∧ ∀ B ∈ d.B, B.2.length ≤ maxParamLen) received
      (Daemon.init : Daemon lib) := by
    refine Run.always_of_step (fun d r => ?_) received ⟨⟨[], trivial⟩, fun B hB => by cases hB⟩
    rintro ⟨⟨h, hstage⟩, hB⟩
    refine ⟨⟨_, (handlePacket_keeps (fun _ _ _ => trivial) hstage).1⟩, ?_⟩
    rw [afterPacket]
    rcases handlePacket_cases with heq | ⟨handled, hhandles, heq⟩
    · rw [heq]
      exact hB
    · rw [heq]
      exact finish_length hexp (handled_length hexp hB hhandles)
  exact hrun.mono fun d ⟨⟨_, hstage⟩, hB⟩ => ⟨hstage.ts_isSome, hstage.B_isSome, hB⟩

end Handlers

end Immwrt.Ead
