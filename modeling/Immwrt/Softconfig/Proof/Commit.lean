import Immwrt.Lib.Endian
import Immwrt.Softconfig.Commit

/-!
# A clean buffer is the flash

A commit that fails leaves a buffer that looks clean until it has marked it as invalid, so it counts as in
progress up to then; apart from such commits a clean buffer is what the flash holds. The CRC that a commit
writes is right when the CRC field is still 0 in the section that computes it.
-/

namespace Immwrt.Softconfig

/-! ### The CRC field -/

section Crc

variable {k : Kernel}

theorem getCrc_setCrc (c : Contents k.size) (crc : Word) : getCrc k (setCrc k c crc) = crc := by
  have hroom : crc32Offset ≤ c.bytes.length := by
    rw [c.length_eq]
    exact le_trans (by decide) k.header
  refine getU32_of_slice ?_
  rw [setCrc, Contents.setWord, ← length_u32le crc]
  exact slice_splice_self hroom

theorem getCrc_clrCrc (c : Contents k.size) : getCrc k (clrCrc k c) = 0 := getCrc_setCrc c 0

/-- Clearing the field of a buffer that had 0 in it undoes setting it. -/
theorem clrCrc_setCrc {c : Contents k.size} (hzero : getCrc k c = 0) (crc : Word) :
    (clrCrc k (setCrc k c crc)).bytes = c.bytes := by
  have hroom : crc32Offset + 4 ≤ c.bytes.length := by
    rw [c.length_eq]
    exact k.header
  have hfield : slice c.bytes crc32Offset 4 = u32le 0 := by
    have hlen : (slice c.bytes crc32Offset 4).length = 4 := by
      rw [slice, List.length_take, List.length_drop]
      omega
    rw [← u32le_ofLe hlen]
    exact congrArg u32le hzero
  rw [clrCrc, setCrc, setCrc, Contents.setWord, Contents.setWord]
  dsimp only
  rw [splice_splice_self (by omega) (by rw [length_u32le, length_u32le]), ← hfield]
  exact splice_slice_self _ _ hroom

end Crc

/-! ### The invariant -/

section Invariant

variable {k : Kernel} {s s' : Soft k} {event : Event k}

/-- A commit has failed and has not marked the buffer yet. -/
def Soft.Failing (s : Soft k) : Prop := ∃ id err, s.commits id = some (.failed err)

/-- A buffer that looks clean is what the flash holds, or about to be marked as invalid. -/
def Soft.InSync (s : Soft k) : Prop := s.clean → s.Failing ∨ s.buf = s.flash

theorem failing_setCommit (s : Soft k) (id : Nat) (err : Errno) :
    (s.setCommit id (some (.failed err))).Failing :=
  ⟨id, err, Function.update_self _ _ _⟩

theorem Soft.reread_inSync (s : Soft k) (id : Nat) (read : MtdResult k.size) :
    (s.reread id read).InSync := by
  intro _
  cases read with
  | done => exact Or.inr rfl
  | short left => exact Or.inl (failing_setCommit _ _ _)
  | failed err left => exact Or.inl (failing_setCommit _ _ _)

theorem Soft.flush_inSync (s : Soft k) (id : Nat) (erase : Option (Errno × Contents k.size))
    (write : MtdResult k.size) : (s.flush id erase write).InSync := by
  intro _
  cases erase with
  | some erase => exact Or.inl (failing_setCommit _ _ _)
  | none =>
    cases write with
    | done => exact Or.inr rfl
    | short left => exact Or.inl (failing_setCommit _ _ _)
    | failed err left => exact Or.inl (failing_setCommit _ _ _)

/-- A store either leaves the buffer or writes its word and clears the CRC field. -/
theorem scAttrStore_cases {attr : ScAttr k.size} {capable : Bool} {text : CString}
    {buf buf' : Contents k.size} (hstore : scAttrStore k attr capable text buf = .ok buf') :
    ∃ data hroom, buf' = clrCrc k (buf.setWord attr.pldOfs data hroom) := by
  unfold scAttrStore at hstore
  split at hstore
  · cases hstore
  · split at hstore
    · cases hstore
    · split at hstore
      · cases hstore
      · split at hstore
        · cases hstore
        · split at hstore
          · exact ⟨_, _, (Except.ok.inj hstore).symm⟩
          · cases hstore

/-- What one section can do. -/
theorem Soft.step_cases (hstep : s.step event = some s') :
    s' = s ∨
    (∃ attr capable text buf, event = .attrStore attr capable text ∧
      scAttrStore k attr capable text s.buf = .ok buf ∧ s' = { s with buf := buf }) ∨
    (∃ id text device flush, event = .commitTest id text device ∧ s.commits id = none ∧
      s' = s.setCommit id (some (.tested flush))) ∨
    (∃ id read, event = .commitReread id read ∧ s' = s.reread id read) ∨
    (∃ id erase write, event = .commitFlush id erase write ∧ s' = s.flush id erase write) ∨
    (∃ id, event = .commitFail id ∧ s' = { s with buf := clrCrc k s.buf }.setCommit id none) := by
  cases event with
  | attrStore attr capable text =>
    rw [Soft.step] at hstep
    split at hstep
    case h_1 => exact Or.inl (Option.some.inj hstep).symm
    case h_2 buf hbuf =>
      exact Or.inr (Or.inl ⟨attr, capable, text, buf, rfl, hbuf, (Option.some.inj hstep).symm⟩)
  | commitTest id text device =>
    rw [Soft.step] at hstep
    split at hstep
    case isTrue => cases hstep
    case isFalse hidle =>
      split at hstep
      · exact Or.inl (Option.some.inj hstep).symm
      · split at hstep
        · exact Or.inl (Option.some.inj hstep).symm
        case h_2 flush _ =>
          split at hstep
          · exact Or.inr (Or.inr (Or.inl ⟨id, text, device, flush, rfl, by simpa using hidle,
              (Option.some.inj hstep).symm⟩))
          · exact Or.inl (Option.some.inj hstep).symm
  | commitReread id read =>
    rw [Soft.step] at hstep
    split at hstep
    · exact Or.inr (Or.inr (Or.inr (Or.inl ⟨id, read, rfl, (Option.some.inj hstep).symm⟩)))
    · cases hstep
  | commitFlush id erase write =>
    rw [Soft.step] at hstep
    split at hstep
    · exact Or.inr (Or.inr (Or.inr (Or.inr (Or.inl
        ⟨id, erase, write, rfl, (Option.some.inj hstep).symm⟩))))
    · cases hstep
  | commitFail id =>
    rw [Soft.step] at hstep
    split at hstep
    · exact Or.inr (Or.inr (Or.inr (Or.inr (Or.inr ⟨id, rfl, (Option.some.inj hstep).symm⟩))))
    · cases hstep

theorem Soft.step_inSync (hsync : s.InSync) (hstep : s.step event = some s') : s'.InSync := by
  rcases Soft.step_cases hstep with rfl | ⟨attr, capable, text, buf, -, hstore, rfl⟩ |
    ⟨id, text, device, flush, -, hidle, rfl⟩ | ⟨id, read, -, rfl⟩ | ⟨id, erase, write, -, rfl⟩ |
    ⟨id, -, rfl⟩
  · exact hsync
  · obtain ⟨data, hroom, rfl⟩ := scAttrStore_cases hstore
    exact fun hclean => absurd (getCrc_clrCrc _) hclean
  · intro hclean
    rcases hsync hclean with ⟨other, err, hother⟩ | hbuf
    · refine Or.inl ⟨other, err, ?_⟩
      have hne : other ≠ id := by
        rintro rfl
        rw [hidle] at hother
        cases hother
      rw [← hother]
      exact Function.update_of_ne hne _ _
    · exact Or.inr hbuf
  · exact s.reread_inSync id read
  · exact s.flush_inSync id erase write
  · exact fun hclean => absurd (getCrc_clrCrc _) hclean

/-- A flash content with the CRC that it would have with a CRC field of 0. -/
def Sealed (c : Contents k.size) : Prop :=
  getCrc k c = ~~~ k.crc32 (~~~ 0) (clrCrc k c).bytes

/-- The section of a commit that flushes finds the CRC field as 0 as the commit's test left it. -/
def Soft.FieldStillZero (s : Soft k) : Event k → Prop
  | .commitFlush _ _ _ => getCrc k s.buf = 0
  | _ => True

theorem sealed_setCrc {c : Contents k.size} (hzero : getCrc k c = 0) :
    Sealed (setCrc k c (~~~ k.crc32 (~~~ 0) c.bytes)) := by
  rw [Sealed, getCrc_setCrc, clrCrc_setCrc hzero]

theorem Soft.step_sealed (hsealed : ∀ c ∈ s.committed, Sealed c) (hzero : s.FieldStillZero event)
    (hstep : s.step event = some s') : ∀ c ∈ s'.committed, Sealed c := by
  rcases Soft.step_cases hstep with rfl | ⟨attr, capable, text, buf, -, hstore, rfl⟩ |
    ⟨id, text, device, flush, -, hidle, rfl⟩ | ⟨id, read, -, rfl⟩ | ⟨id, erase, write, rfl, rfl⟩ |
    ⟨id, -, rfl⟩
  · exact hsealed
  · exact hsealed
  · exact hsealed
  · cases read <;> exact hsealed
  · cases erase with
    | some erase => exact hsealed
    | none =>
      cases write with
      | short left => exact hsealed
      | failed err left => exact hsealed
      | done =>
        intro c hc
        rcases List.mem_cons.1 hc with rfl | hc
        · exact sealed_setCrc hzero
        · exact hsealed c hc
  · exact hsealed

end Invariant

/-! ### Runs -/

section Runs

variable {k : Kernel}

/-- Every section of the run that flushes finds a CRC field of 0. -/
def Soft.Guarded : Soft k → List (Event k) → Prop
  | _, [] => True
  | s, event :: events => s.FieldStillZero event ∧ ∀ s', s.step event = some s' → s'.Guarded events

theorem Soft.run_keeps {events : List (Event k)} {s s' : Soft k} (hsync : s.InSync)
    (hsealed : ∀ c ∈ s.committed, Sealed c) (hguard : s.Guarded events) (hrun : s.run events = some s') :
    s'.InSync ∧ ∀ c ∈ s'.committed, Sealed c := by
  induction events generalizing s with
  | nil =>
    obtain rfl := Option.some.inj hrun
    exact ⟨hsync, hsealed⟩
  | cons event events ih =>
    rw [Soft.run] at hrun
    split at hrun
    case h_1 => cases hrun
    case h_2 next hnext =>
      exact ih (Soft.step_inSync hsync hnext) (Soft.step_sealed hsealed hguard.1 hnext)
        (hguard.2 next hnext) hrun

/-- The bytes that a store may change: its payload word and the CRC field. -/
def ScAttr.Touches (attr : ScAttr k.size) (x : Nat) : Prop :=
  (attr.pldOfs ≤ x ∧ x < attr.pldOfs + 4) ∨ (crc32Offset ≤ x ∧ x < crc32Offset + 4)

theorem Contents.setWord_frame {size : Nat} (c : Contents size) {ofs : Nat} (w : Word)
    (hroom : ofs + 4 ≤ size) {x : Nat} (hx : ¬ (ofs ≤ x ∧ x < ofs + 4)) :
    (c.setWord ofs w hroom).bytes[x]? = c.bytes[x]? := by
  rw [Contents.setWord, getElem?_splice (by rw [c.length_eq]; omega), length_u32le]
  by_cases hlt : x < ofs
  · rw [if_pos hlt]
  · rw [if_neg hlt, if_neg (by omega)]

theorem Soft.step_store_frame {s s' : Soft k} {attr : ScAttr k.size} {capable : Bool} {text : CString}
    (hstep : s.step (.attrStore attr capable text) = some s') :
    s'.flash = s.flash ∧ ∀ x, ¬ attr.Touches x → s'.buf.bytes[x]? = s.buf.bytes[x]? := by
  rw [Soft.step] at hstep
  split at hstep
  case h_1 =>
    obtain rfl := Option.some.inj hstep
    exact ⟨rfl, fun _ _ => rfl⟩
  case h_2 buf hbuf =>
    obtain rfl := Option.some.inj hstep
    obtain ⟨data, hroom, rfl⟩ := scAttrStore_cases hbuf
    refine ⟨rfl, fun x hx => ?_⟩
    have hout : ¬ (attr.pldOfs ≤ x ∧ x < attr.pldOfs + 4) ∧
        ¬ (crc32Offset ≤ x ∧ x < crc32Offset + 4) := not_or.1 hx
    exact (Contents.setWord_frame _ _ k.crcFits hout.2).trans (Contents.setWord_frame _ _ hroom hout.1)

/-- In every run in which the sections that flush find a CRC field of 0: between commits a clean buffer is
what the flash holds, every content that a successful commit has written carries its CRC, and a store
changes nothing but its word and the CRC field. -/
theorem soft_config_consistent (k : Kernel) (flash : Contents k.size) (events : List (Event k)) (s : Soft k)
    (hguard : (Soft.init k flash).Guarded events) (hrun : (Soft.init k flash).run events = some s) :
    ((∀ id, s.commits id = none) → s.clean → s.buf = s.flash) ∧
      (∀ c ∈ s.committed, Sealed c) ∧
      ∀ attr capable text s', s.step (.attrStore attr capable text) = some s' →
        s'.flash = s.flash ∧ ∀ x, ¬ attr.Touches x → s'.buf.bytes[x]? = s.buf.bytes[x]? := by
  obtain ⟨hsync, hsealed⟩ := Soft.run_keeps (s := Soft.init k flash) (fun _ => Or.inr rfl)
    (fun _ hc => absurd hc List.not_mem_nil) hguard hrun
  refine ⟨fun hidle hclean => ?_, hsealed, fun attr capable text s' hstep => Soft.step_store_frame hstep⟩
  rcases hsync hclean with ⟨id, err, hid⟩ | hbuf
  · rw [hidle id] at hid
    cases hid
  · exact hbuf

end Runs

/-! ### Two commits at once -/

/-- A kernel for a partition of 16 bytes. -/
def smallKernel : Kernel where
  sysfsStreq text str := text = str
  kstrtobool text :=
    if text = CString.lit "1" then some true else if text = CString.lit "0" then some false else none
  kstrtou32 _ := .error .einval
  crc32 := Immwrt.crc32
  size := 16
  header := Nat.le_add_right 8 8

/-- The magic, the CRC, and the tag of the boot protocol, which is bootp. -/
def bootpConfig : Contents smallKernel.size where
  bytes := [0x53, 0x6f, 0x66, 0x74, 0x0d, 0x3a, 0x10, 0x91, 0x09, 0x00, 0x04, 0x00, 0x00, 0x00, 0x00, 0x00]
  length_eq := rfl

def bootProto : ScAttr smallKernel.size where
  tstore := some (.boolts (CString.lit "bootp") (CString.lit "dhcp"))
  pldOfs := 12
  pldLen := 4
  behind := Nat.le_add_right 8 4
  inside _ := Nat.le_refl 16

/-- A store and one commit of it. -/
def storeAndCommit : List (Event smallKernel) :=
  [.attrStore bootProto true (CString.lit "dhcp"), .commitTest 0 (CString.lit "1") true,
    .commitFlush 0 none .done]

theorem storeAndCommit_guarded : (Soft.init smallKernel bootpConfig).Guarded storeAndCommit := by
  refine ⟨trivial, fun s1 h1 => ⟨trivial, fun s2 h2 => ⟨?_, fun _ _ => trivial⟩⟩⟩
  obtain rfl := Option.some.inj h1
  obtain rfl := Option.some.inj h2
  exact getCrc_clrCrc _

theorem soft_config_consistent_storeAndCommit :
    ∃ s, (Soft.init smallKernel bootpConfig).run storeAndCommit = some s ∧
      s.committed.length = 1 ∧ ∀ c ∈ s.committed, Sealed c :=
  ⟨_, rfl, rfl, (soft_config_consistent smallKernel bootpConfig storeAndCommit _ storeAndCommit_guarded
    rfl).2.1⟩

/-- Two commits that have both tested the CRC field before either of them writes. -/
def twoCommits : List (Event smallKernel) :=
  [.attrStore bootProto true (CString.lit "dhcp"), .commitTest 0 (CString.lit "1") true,
    .commitTest 1 (CString.lit "1") true, .commitFlush 0 none .done, .commitFlush 1 none .done]

/-- The second of two commits writes a CRC that covers the CRC of the first one. -/
theorem second_commit_not_sealed :
    ∃ s, (Soft.init smallKernel bootpConfig).run twoCommits = some s ∧ ∃ c ∈ s.committed, ¬ Sealed c := by
  refine ⟨_, rfl, _, List.mem_cons_self, ?_⟩
  unfold Sealed
  decide +kernel

end Immwrt.Softconfig
