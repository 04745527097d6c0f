import Immwrt.Bcm4908img.Proof.Parse
import Immwrt.Lib.CrcOrder

/-!
# The checksum of a created image

The checksum in the tail is that of the files alone, while the parser computes that of all bytes before the
tail. The two are the same when no option pads the image with zeros.
-/

namespace Immwrt.Bcm4908img

/-! ### The layout of an image -/

/-- The file that an option appends. -/
def CreateOption.input : CreateOption → List Byte
  | .f input => input.getD []
  | .a _ => []
  | .A _ => []

/-- The zeros that an option appends to an image that ends at `offset`. -/
def CreateOption.zeros (malloc : Nat → Bool) (offset : Nat) : CreateOption → List Byte
  | .f _ => []
  | .a alignment => alignZeros malloc offset (toSize alignment)
  | .A target => uptoZeros malloc offset target

/-- What the options append to an image that ends at `offset`. -/
def layout (malloc : Nat → Bool) : Nat → List CreateOption → List Byte
  | _, [] => []
  | offset, opt :: opts =>
    let bytes := opt.input ++ opt.zeros malloc offset
    bytes ++ layout malloc (offset + bytes.length) opts

/-- No option pads the image: at each `-a` it is aligned, at each `-A` it is as long already. -/
def unpadded (malloc : Nat → Bool) : Nat → List CreateOption → Prop
  | _, [] => True
  | offset, opt :: opts =>
    opt.zeros malloc offset = [] ∧ unpadded malloc (offset + opt.input.length) opts

theorem CreateState.option_eq {malloc : Nat → Bool} {state state' : CreateState} {opt : CreateOption}
    (hopt : state.option malloc opt = some state') :
    state'.out = state.out.append (opt.input ++ opt.zeros malloc state.out.offset) ∧
      state'.crc32 = bcm4908imgCrc32 state.crc32 opt.input := by
  cases opt with
  | f input =>
    cases input with
    | none =>
      obtain rfl := Option.some.inj hopt
      exact ⟨Cursor.advance_appendFile (show 0 < 1024 by decide) state.out none, rfl⟩
    | some input =>
      rw [CreateState.option, bcm4908imgCreateAppendFile, freadAll_eq streaming_crc32 (show 0 < 1024 by decide)] at hopt
      obtain rfl := Option.some.inj hopt
      refine ⟨?_, rfl⟩
      rw [CreateOption.zeros, List.append_nil]
      exact Cursor.advance_appendFile (by decide) state.out (some input)
  | a alignment =>
    rw [CreateState.option] at hopt
    split at hopt
    case isTrue => cases hopt
    case isFalse =>
      obtain rfl := Option.some.inj hopt
      exact ⟨Cursor.advance_appendAlign malloc state.out _, rfl⟩
  | A target =>
    obtain rfl := Option.some.inj hopt
    exact ⟨Cursor.advance_appendUpto malloc state.out target, rfl⟩

theorem CreateState.options_eq {malloc : Nat → Bool} {opts : List CreateOption} {state state' : CreateState}
    (hopts : CreateState.options malloc opts state = some state') :
    state'.out = state.out.append (layout malloc state.out.offset opts) ∧
      state'.crc32 = bcm4908imgCrc32 state.crc32 (opts.flatMap CreateOption.input) := by
  induction opts generalizing state with
  | nil =>
    obtain rfl := Option.some.inj hopts
    exact ⟨by simp [layout, Cursor.append], rfl⟩
  | cons opt opts ih =>
    rw [CreateState.options] at hopts
    split at hopts
    case h_1 => cases hopts
    case h_2 next hnext =>
      obtain ⟨hout, hcrc⟩ := CreateState.option_eq hnext
      obtain ⟨hout', hcrc'⟩ := ih hopts
      refine ⟨?_, ?_⟩
      · rw [hout', hout, Cursor.append_append]
        rfl
      · rw [hcrc', hcrc, streaming_crc32.append, List.flatMap_cons]

theorem layout_of_unpadded {malloc : Nat → Bool} {offset : Nat} {opts : List CreateOption}
    (hunpadded : unpadded malloc offset opts) :
    layout malloc offset opts = opts.flatMap CreateOption.input := by
  induction opts generalizing offset with
  | nil => rfl
  | cons opt opts ih =>
    obtain ⟨hzeros, hrest⟩ := hunpadded
    rw [layout, hzeros, List.append_nil, ih hrest, List.flatMap_cons]

/-! ### The tail -/

/-- The tail of an image created from `inputs`. -/
def createdTail (inputs : List Byte) : Tail where
  crc32 := bcm4908imgCrc32 0xffffffff inputs
  version := wfiVersion
  chipId := 0x4908
  flashType := wfiNand128Flash
  flags := wfiFlagSupportsBtrm

theorem bcm4908imgCreate_eq {malloc : Nat → Bool} {opts : List CreateOption} {img : List Byte}
    (hcreate : bcm4908imgCreate malloc opts = some img) :
    img = layout malloc 0 opts ++ (createdTail (opts.flatMap CreateOption.input)).bytes := by
  rw [bcm4908imgCreate] at hcreate
  split at hcreate
  case h_1 => cases hcreate
  case h_2 state hstate =>
    obtain ⟨hout, hcrc⟩ := CreateState.options_eq hstate
    obtain rfl := Option.some.inj hcreate
    rw [hout, hcrc]
    rfl

/-- The checksum in the tail is the one that the parser computes over all bytes before it. -/
def Agrees (img : List Byte) : Prop :=
  (Tail.read img (img.length - sizeofTail)).crc32 = (checksum img 0 (img.length - sizeofTail)).1

theorem agrees_iff {malloc : Nat → Bool} {opts : List CreateOption} {img : List Byte}
    (hcreate : bcm4908imgCreate malloc opts = some img) :
    Agrees img ↔ bcm4908imgCrc32 0xffffffff (layout malloc 0 opts) =
      bcm4908imgCrc32 0xffffffff (opts.flatMap CreateOption.input) := by
  obtain rfl := bcm4908imgCreate_eq hcreate
  generalize layout malloc 0 opts = content
  generalize opts.flatMap CreateOption.input = inputs
  have hlen : (content ++ (createdTail inputs).bytes).length - sizeofTail = content.length := by
    rw [List.length_append, length_tail, Nat.add_sub_cancel]
  have hread := read_tail [] (createdTail inputs) (rfl : content.length = content.length)
  rw [List.append_nil] at hread
  rw [Agrees, hlen, hread, checksum_eq, slice, List.drop_zero, List.take_left]
  exact eq_comm

/-! ### One padding -/

theorem CreateOption.zeros_eq (malloc : Nat → Bool) (offset : Nat) (opt : CreateOption) :
    opt.zeros malloc offset = List.replicate (opt.zeros malloc offset).length 0 := by
  have hzeros : ∀ n, zerosOf malloc n = List.replicate (zerosOf malloc n).length 0 := by
    intro n
    unfold zerosOf
    cases malloc n <;> simp
  cases opt with
  | f input => rfl
  | a alignment =>
    rw [CreateOption.zeros, alignZeros]
    split
    · rfl
    · exact hzeros _
  | A target =>
    rw [CreateOption.zeros, uptoZeros]
    split
    · rfl
    · exact hzeros _

theorem layout_append (malloc : Nat → Bool) (offset : Nat) (front back : List CreateOption) :
    layout malloc offset (front ++ back) =
      layout malloc offset front ++ layout malloc (offset + (layout malloc offset front).length) back := by
  induction front generalizing offset with
  | nil => rfl
  | cons opt front ih =>
    rw [List.cons_append, layout, ih, layout]
    simp only [List.append_assoc, List.length_append, Nat.add_assoc]

/-- Zeros leave a checksum alone when it is zero, and when there are as many of them as words other than zero
or a multiple of that. -/
theorem crc32_insert_zeros_iff (crc : Word) (front back : List Byte) (n : Nat) :
    bcm4908imgCrc32 crc (front ++ List.replicate n 0 ++ back) = bcm4908imgCrc32 crc (front ++ back) ↔
      bcm4908imgCrc32 crc front = 0 ∨ crcOrder ∣ n := by
  simp only [bcm4908imgCrc32, crc32ByTbl_eq, crc32_append]
  rw [← crc32_zeros_eq_iff]
  constructor
  · intro heq
    exact crc32_injective back heq
  · intro heq
    rw [heq]

/-- The files of `front` and `opt`. -/
def filesBefore (front : List CreateOption) (opt : CreateOption) : List Byte :=
  front.flatMap CreateOption.input ++ opt.input

theorem agrees_once_iff {malloc : Nat → Bool} {front back : List CreateOption} {opt : CreateOption}
    {img zeros : List Byte} (hcreate : bcm4908imgCreate malloc (front ++ opt :: back) = some img)
    (hfront : unpadded malloc 0 front)
    (hzeros : opt.zeros malloc (front.flatMap CreateOption.input).length = zeros)
    (hback : unpadded malloc ((filesBefore front opt).length + zeros.length) back) :
    Agrees img ↔ bcm4908imgCrc32 0xffffffff (filesBefore front opt) = 0 ∨ crcOrder ∣ zeros.length := by
  have hreplicate : zeros = List.replicate zeros.length 0 := by
    rw [← hzeros]
    exact CreateOption.zeros_eq malloc _ opt
  have hlayout : layout malloc 0 (front ++ opt :: back) =
      filesBefore front opt ++ List.replicate zeros.length 0 ++ back.flatMap CreateOption.input := by
    rw [filesBefore, List.length_append, Nat.add_assoc] at hback
    rw [layout_append, layout_of_unpadded hfront, layout, Nat.zero_add, hzeros, List.length_append,
      layout_of_unpadded hback, ← hreplicate, filesBefore]
    simp only [List.append_assoc]
  have hinputs : (front ++ opt :: back).flatMap CreateOption.input =
      filesBefore front opt ++ back.flatMap CreateOption.input := by
    rw [List.flatMap_append, List.flatMap_cons, filesBefore, List.append_assoc]
  rw [agrees_iff hcreate, hlayout, hinputs, crc32_insert_zeros_iff]

/-! ### A bootfs and a rootfs -/

/-- `-f bootfs -a 0x20000 -f rootfs` -/
def bootfsOptions (bootfs rootfs : List Byte) : List CreateOption :=
  [.f (some bootfs), .a 0x20000, .f (some rootfs)]

/-- The zeros behind the bootfs. -/
def bootfsPadding (malloc : Nat → Bool) (bootfs : List Byte) : List Byte :=
  alignZeros malloc bootfs.length blockSize

theorem bootfsPadding_eq (malloc : Nat → Bool) (bootfs : List Byte) :
    bootfsPadding malloc bootfs =
      if bootfs.length % blockSize = 0 then []
      else zerosOf malloc (blockSize - bootfs.length % blockSize) := by
  have hmask : (blockSize + (2 ^ 64 - 1)) % 2 ^ 64 = 2 ^ 17 - 1 := by decide
  have hblock : blockSize = 2 ^ 17 := by decide
  rw [bootfsPadding, alignZeros, hmask, Nat.and_two_pow_sub_one_eq_mod, hblock]

theorem create_bootfsOptions (malloc : Nat → Bool) (bootfs rootfs : List Byte) :
    bcm4908imgCreate malloc (bootfsOptions bootfs rootfs) =
      some (bootfs ++ bootfsPadding malloc bootfs ++ rootfs ++ (createdTail (bootfs ++ rootfs)).bytes) := by
  have hsize : toSize 0x20000 = blockSize := by decide
  have htraps : ∀ offset, ¬ alignTraps offset (toSize 0x20000) := by
    intro offset htrap
    exact absurd htrap.1 (by decide)
  have hsome : ∃ img, bcm4908imgCreate malloc (bootfsOptions bootfs rootfs) = some img := by
    simp only [bcm4908imgCreate, bootfsOptions, CreateState.options, CreateState.option, if_neg (htraps _)]
    exact ⟨_, rfl⟩
  obtain ⟨img, himg⟩ := hsome
  rw [himg, bcm4908imgCreate_eq himg]
  simp [bootfsOptions, layout, CreateOption.input, CreateOption.zeros, hsize, bootfsPadding]

/-- Whether the image of a bootfs and a rootfs is accepted and gives the rootfs back. -/
def Extracts (img rootfs : List Byte) : Prop :=
  (∃ info, bcm4908imgParse img = .ok info) ∧ bcm4908imgExtract img .rootfs = .ok rootfs

theorem bcm4908imgExtract_rootfs {img : List Byte} {info : Info} (hparsed : Parsed img info) :
    bcm4908imgExtract img .rootfs = .ok (slice img info.rootfsOffset (info.tailOffset - info.rootfsOffset)) := by
  have hfound := findRootfs_found hparsed.rootfs
  have hlt := hfound.lt
  have htail := tailOffsetOf_le img
  rw [← hparsed.tailOffset] at htail
  rw [bcm4908imgExtract, bcm4908imgParse_eq_ok.2 hparsed]
  dsimp only [Info.part]
  rw [if_neg (by omega), freadUpto_eq streaming_append (by decide), List.length_drop]
  dsimp only
  rw [if_neg (by omega), List.nil_append]
  rfl

/-- The condition under which an image of a bootfs and a rootfs can be read back: there is nothing to pad, or
there is memory for the padding and the checksum does not see it. -/
def PaddingUnseen (malloc : Nat → Bool) (bootfs : List Byte) : Prop :=
  bootfs.length % blockSize = 0 ∨
    malloc (blockSize - bootfs.length % blockSize) = true ∧ bcm4908imgCrc32 0xffffffff bootfs = 0

theorem paddingUnseen_iff (malloc : Nat → Bool) (bootfs rootfs : List Byte) :
    PaddingUnseen malloc bootfs ↔
      blockSize ∣ (bootfs ++ bootfsPadding malloc bootfs).length ∧
      bcm4908imgCrc32 0xffffffff (bootfs ++ bootfsPadding malloc bootfs ++ rootfs) =
        bcm4908imgCrc32 0xffffffff (bootfs ++ rootfs) := by
  have hblock : blockSize = 131072 := rfl
  have horder : crcOrder = 4294967295 := by decide
  rw [PaddingUnseen, bootfsPadding_eq]
  by_cases haligned : bootfs.length % blockSize = 0
  · rw [if_pos haligned, List.append_nil]
    exact ⟨fun _ => ⟨Nat.dvd_of_mod_eq_zero haligned, rfl⟩, fun _ => Or.inl haligned⟩
  · have hlt : bootfs.length % blockSize < blockSize := Nat.mod_lt _ (by decide)
    have hdiv := Nat.div_add_mod bootfs.length blockSize
    generalize hn : blockSize - bootfs.length % blockSize = n
    have hsmall : ¬ crcOrder ∣ n := Nat.not_dvd_of_pos_of_lt (by omega) (by omega)
    rw [if_neg haligned, zerosOf]
    cases hmalloc : malloc n with
    | false =>
      rw [if_neg Bool.false_ne_true, List.append_nil]
      constructor
      · rintro (hzero | ⟨hfail, -⟩)
        · exact absurd hzero haligned
        · cases hfail
      · rintro ⟨hdvd, -⟩
        exact absurd (Nat.mod_eq_zero_of_dvd hdvd) haligned
    | true =>
      have hdvd : blockSize ∣ bootfs.length + n := by
        refine ⟨bootfs.length / blockSize + 1, ?_⟩
        rw [Nat.mul_succ]
        omega
      rw [if_pos rfl, crc32_insert_zeros_iff, List.length_append, List.length_replicate]
      constructor
      · rintro (hzero | ⟨-, hcrc⟩)
        · exact absurd hzero haligned
        · exact ⟨hdvd, Or.inl hcrc⟩
      · rintro ⟨-, hcrc | hmultiple⟩
        · exact Or.inr ⟨rfl, hcrc⟩
        · exact absurd hmultiple hsmall

theorem extracts_iff {malloc : Nat → Bool} {bootfs rootfs img : List Byte}
    (hcreate : bcm4908imgCreate malloc (bootfsOptions bootfs rootfs) = some img)
    (hstart : [0x85, 0x19] <+: bootfs) (hubi : ubiMagic <+: rootfs) (hrootfs : 1024 ≤ rootfs.length)
    (hvendor : hasLinksysTail img = false)
    (hother : ∀ k, blockSize * k + rootfs.length + sizeofTail ≠ img.length → ¬ hasUbi img (blockSize * k)) :
    Extracts img rootfs ↔ PaddingUnseen malloc bootfs := by
  rw [paddingUnseen_iff malloc bootfs rootfs]
  rw [create_bootfsOptions] at hcreate
  have himg := Option.some.inj hcreate
  generalize hfront : bootfs ++ bootfsPadding malloc bootfs = front at himg ⊢
  have hfrontStart : [0x85, 0x19] <+: front := by
    rw [← hfront]
    exact hstart.trans (List.prefix_append _ _)
  have hlen : img.length = front.length + rootfs.length + sizeofTail := by
    rw [← himg, List.length_append, List.length_append, length_tail]
  have htail : tailOffsetOf img = front.length + rootfs.length := by
    rw [tailOffsetOf, hvendor, if_neg Bool.false_ne_true, hlen, Nat.add_sub_cancel]
  have hread : Tail.read img (front.length + rootfs.length) = createdTail (bootfs ++ rootfs) := by
    have hvalue := read_tail [] (createdTail (bootfs ++ rootfs))
      (List.length_append : (front ++ rootfs).length = _)
    rwa [List.append_nil, himg] at hvalue
  have hcontent : slice img 0 (front.length + rootfs.length) = front ++ rootfs := by
    rw [← himg, slice, List.drop_zero]
    exact List.take_left' List.length_append
  constructor
  · rintro ⟨⟨info, hparse⟩, -⟩
    have hparsed := bcm4908imgParse_eq_ok.1 hparse
    have himgStart : [0x85, 0x19] <+: img := by
      rw [← himg, List.append_assoc]
      exact hfrontStart.trans (List.prefix_append _ _)
    have hcferom : info.cferomOffset = 0 := by rw [hparsed.cferom, vendorHeader_of_start himgStart]
    have hbootfs : info.bootfsOffset = 0 := by
      have hfind := hparsed.bootfs
      rw [hcferom, hparsed.tailOffset, htail, findBootfs_of_start himgStart (by omega) (by omega)] at hfind
      exact (Except.ok.inj hfind).symm
    have hfound := findRootfs_found hparsed.rootfs
    have hvalid := hparsed.valid
    rw [hparsed.crc32, hparsed.tail, hparsed.tailOffset, htail, hcferom, Nat.sub_zero, hcontent, hread]
      at hvalid
    have haligned := hfound.aligned
    rw [hbootfs, Nat.sub_zero] at haligned
    obtain ⟨k, hk⟩ := haligned
    have hplace : blockSize * k + rootfs.length + sizeofTail = img.length := by
      by_contra hne
      exact hother k hne (hk ▸ hfound.ubi)
    exact ⟨⟨k, by omega⟩, hvalid⟩
  · rintro ⟨⟨k, hk⟩, hcrc⟩
    have hno : ∀ j < k, ¬ hasUbi img (blockSize * j) := by
      intro j hj
      apply hother
      have hmul : blockSize * j < blockSize * k := Nat.mul_lt_mul_of_pos_left hj (by decide)
      omega
    have himg' : front ++ rootfs ++ ((createdTail (bootfs ++ rootfs)).bytes ++ []) = img := by
      rw [List.append_nil, himg]
    obtain ⟨info, hparsed, -, hrootfsOffset, htailOffset⟩ := parsed_layout hfrontStart hk hubi hrootfs (by rw [himg']; exact hno)
      (by rw [himg']; exact htail) (show (createdTail (bootfs ++ rootfs)).crc32 = _ from hcrc.symm)
    rw [himg'] at hparsed
    refine ⟨⟨_, bcm4908imgParse_eq_ok.2 hparsed⟩, ?_⟩
    rw [bcm4908imgExtract_rootfs hparsed, hrootfsOffset, htailOffset, Nat.add_sub_cancel_left, ← himg, List.append_assoc,
      slice_append_right rfl, List.take_left]

end Immwrt.Bcm4908img
