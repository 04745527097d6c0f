import Immwrt.Bcm4908img.Image

/-!
# What an image that is accepted looks like

The parser accepts an image exactly when the two scans succeed and the checksum of what lies between the
vendor header and the tail is that of the tail.
-/

namespace Immwrt.Bcm4908img

theorem streaming_crc32 : Streaming bcm4908imgCrc32 where
  nil _ := rfl
  append crc front back := by
    rw [bcm4908imgCrc32, crc32ByTbl_eq, crc32ByTbl_eq, crc32ByTbl_eq, crc32_append]

theorem checksum_eq (img : List Byte) (offset length : Nat) :
    checksum img offset length =
      (bcm4908imgCrc32 0xffffffff (slice img offset length), length - (img.length - offset)) := by
  rw [checksum, freadUpto_eq streaming_crc32 (by decide), List.length_drop]
  rfl

theorem tailOffsetOf_le (img : List Byte) : tailOffsetOf img ≤ img.length - sizeofTail := by
  unfold tailOffsetOf
  split <;> omega

/-- An image that the parser accepts, and what it finds. -/
structure Parsed (img : List Byte) (info : Info) : Prop where
  length : 1024 ≤ img.length
  cferom : info.cferomOffset = vendorHeader img
  tailOffset : info.tailOffset = tailOffsetOf img
  bootfs : findBootfs img info.tailOffset img.length info.cferomOffset = .ok info.bootfsOffset
  rootfs : findRootfs img info.tailOffset img.length info.bootfsOffset 0 =
    .ok (info.rootfsOffset, info.paddingOffset)
  crc32 : info.crc32 =
    bcm4908imgCrc32 0xffffffff (slice img info.cferomOffset (info.tailOffset - info.cferomOffset))
  tail : info.tail = Tail.read img info.tailOffset
  valid : info.crc32 = info.tail.crc32

theorem bcm4908imgParse_eq_ok {img : List Byte} {info : Info} :
    bcm4908imgParse img = .ok info ↔ Parsed img info := by
  have htail := tailOffsetOf_le img
  unfold bcm4908imgParse
  simp only [checksum_eq]
  constructor
  · intro hparse
    split at hparse
    case isTrue => cases hparse
    case isFalse hlen =>
      split at hparse
      case h_1 => cases hparse
      case h_2 bootfs hbootfs =>
        split at hparse
        case h_1 => cases hparse
        case h_2 rootfs padding hrootfs =>
          split at hparse
          case isTrue => cases hparse
          case isFalse =>
            split at hparse
            case isTrue => cases hparse
            case isFalse =>
              split at hparse
              case isTrue => cases hparse
              case isFalse hcrc =>
                obtain rfl := Except.ok.inj hparse
                refine ⟨by omega, ?_, ?_, ?_, ?_, ?_, ?_, ?_⟩ <;> dsimp only
                · exact hbootfs
                · exact hrootfs
                · exact not_not.1 hcrc
  · intro hparsed
    have hlen := hparsed.length
    have hbootfs := hparsed.bootfs
    have hrootfs := hparsed.rootfs
    have hcrc := hparsed.valid
    rw [hparsed.crc32, hparsed.tail] at hcrc
    rw [hparsed.tailOffset] at hbootfs hrootfs hcrc
    rw [hparsed.cferom] at hbootfs hcrc
    rw [if_neg (by omega), hbootfs]
    dsimp only
    rw [hrootfs]
    dsimp only
    rw [if_neg (by omega), if_neg (by unfold sizeofTail at *; omega), if_neg (not_not.2 hcrc),
      ← hparsed.tailOffset, ← hparsed.cferom, ← hparsed.crc32, ← hparsed.tail]

/-! ### The scan for the bootfs -/

theorem findBootfs_ok {img : List Byte} {tailOffset fuel offset bootfs : Nat}
    (hfind : findBootfs img tailOffset fuel offset = .ok bootfs) :
    offset ≤ bootfs ∧ bootfs < tailOffset ∧ ofBe16 (slice img bootfs 2) = jffs2Magic := by
  induction fuel generalizing offset with
  | zero => cases hfind
  | succ fuel ih =>
    rw [findBootfs] at hfind
    split at hfind
    case isFalse => cases hfind
    case isTrue hlt =>
      dsimp only at hfind
      split at hfind
      case isTrue => cases hfind
      case isFalse =>
        split at hfind
        case isTrue hmagic =>
          obtain rfl := Except.ok.inj hfind
          exact ⟨le_rfl, hlt, hmagic⟩
        case isFalse =>
          obtain ⟨hle, hrest⟩ := ih hfind
          exact ⟨by omega, hrest⟩

/-! ### The scan for the rootfs -/

def hasUbi (img : List Byte) (offset : Nat) : Prop := ofBe (slice img offset 4) = ubiEcHdrMagic

instance (img : List Byte) (offset : Nat) : Decidable (hasUbi img offset) :=
  inferInstanceAs (Decidable (_ = _))

/-- The padding after a block. -/
def nextPadding (img : List Byte) (offset padding : Nat) : Nat :=
  if padding = 0 ∧ isAllFf (slice img offset 256) then offset else padding

def scanLength (padding : Nat) : Nat := if padding ≠ 0 then 4 else 256

/-- One block of the scan for the rootfs. -/
theorem findRootfs_succ (img : List Byte) (tailOffset fuel offset padding : Nat) :
    findRootfs img tailOffset (fuel + 1) offset padding =
      if offset < tailOffset then
        if (slice img offset (scanLength padding)).length ≠ scanLength padding then .error .eio
        else if hasUbi img offset then .ok (offset, nextPadding img offset padding)
        else findRootfs img tailOffset fuel (offset + blockSize) (nextPadding img offset padding)
      else .error .eproto := by
  rw [findRootfs, nextPadding, scanLength]
  unfold hasUbi
  by_cases hpadding : padding = 0
  · simp only [hpadding, ne_eq, not_true_eq_false, if_false, true_and, take_slice (show 4 ≤ 256 by decide)]
  · simp only [hpadding, ne_eq, not_false_eq_true, if_true, false_and, if_false, take_slice (le_refl 4)]

theorem scanLength_le (padding : Nat) : scanLength padding ≤ 256 := by
  unfold scanLength
  split <;> omega

/-- What the scan finds. -/
structure Found (img : List Byte) (tailOffset offset padding rootfs padding' : Nat) : Prop where
  le : offset ≤ rootfs
  lt : rootfs < tailOffset
  aligned : blockSize ∣ rootfs - offset
  ubi : hasUbi img rootfs
  room : rootfs + scanLength padding' ≤ img.length
  kept : padding ≠ 0 → padding' = padding
  padding : padding = 0 → padding' ≠ 0 → offset ≤ padding' ∧ padding' + blockSize ≤ rootfs

theorem extractLsb'_ofBe (bytes : List Byte) : (ofBe bytes).extractLsb' 24 8 = bytes.getD 0 0 := by
  apply BitVec.eq_of_getLsbD_eq
  intro i hi
  simp only [ofBe, BitVec.getLsbD_extractLsb', BitVec.getLsbD_append, hi, decide_true, Bool.true_and]
  grind

/-- A block of 0xff is not the start of the rootfs. -/
theorem nextPadding_of_hasUbi {img : List Byte} {offset : Nat} (hubi : hasUbi img offset) (padding : Nat) :
    nextPadding img offset padding = padding := by
  refine if_neg fun hff => ?_
  have htop := extractLsb'_ofBe (slice img offset 4)
  rw [show ofBe (slice img offset 4) = ubiEcHdrMagic from hubi,
    ← take_slice (show 4 ≤ 256 by decide)] at htop
  cases hslice : slice img offset 256 with
  | nil =>
    rw [hslice] at htop
    exact absurd htop (by decide)
  | cons byte bytes =>
    have hbyte : byte = 0xff := by
      rw [hslice, isAllFf] at hff
      simpa using (List.all_eq_true.1 hff.2) byte List.mem_cons_self
    rw [hslice, hbyte, List.take_succ_cons, List.getD_cons_zero] at htop
    exact absurd htop (by decide)

theorem findRootfs_found {img : List Byte} {tailOffset fuel offset padding rootfs padding' : Nat}
    (hfind : findRootfs img tailOffset fuel offset padding = .ok (rootfs, padding')) :
    Found img tailOffset offset padding rootfs padding' := by
  induction fuel generalizing offset padding with
  | zero => cases hfind
  | succ fuel ih =>
    rw [findRootfs_succ] at hfind
    split at hfind
    case isFalse => cases hfind
    case isTrue hlt =>
      split at hfind
      case isTrue => cases hfind
      case isFalse hlen =>
        split at hfind
        case isTrue hubi =>
          rw [nextPadding_of_hasUbi hubi] at hfind
          obtain ⟨rfl, rfl⟩ := Prod.mk.inj (Except.ok.inj hfind)
          rw [not_not, slice, List.length_take, List.length_drop] at hlen
          have hpos : 0 < scanLength padding := by unfold scanLength; split <;> omega
          exact ⟨le_rfl, hlt, by rw [Nat.sub_self]; exact Nat.dvd_zero _, hubi, by omega, fun _ => rfl,
            fun hzero hne => absurd hzero hne⟩
        case isFalse =>
          have hfound := ih hfind
          have hle := hfound.le
          have haligned := hfound.aligned
          have hstep : rootfs - offset = rootfs - (offset + blockSize) + blockSize := by omega
          refine ⟨by omega, hfound.lt, ?_, hfound.ubi, hfound.room, fun hne => ?_, fun hzero hne => ?_⟩
          · rw [hstep]
            exact Nat.dvd_add haligned (dvd_refl _)
          · have hnext : nextPadding img offset padding = padding := if_neg fun hff => hne hff.1
            rw [hnext] at hfound
            exact hfound.kept hne
          · by_cases hnext : nextPadding img offset padding = 0
            · obtain ⟨hge, hroom⟩ := hfound.padding hnext hne
              exact ⟨by omega, hroom⟩
            · have hkept := hfound.kept hnext
              have hcur : nextPadding img offset padding = offset := by
                rw [hzero] at hnext ⊢
                unfold nextPadding at hnext ⊢
                split
                case isTrue => rfl
                case isFalse hff => exact absurd (if_neg hff) hnext
              omega

/-- The scan finds the first aligned block that starts a rootfs. -/
theorem findRootfs_first {img : List Byte} {tailOffset fuel offset padding k : Nat} (hfuel : k < fuel)
    (hno : ∀ j < k, ¬ hasUbi img (offset + blockSize * j)) (hubi : hasUbi img (offset + blockSize * k))
    (hlt : offset + blockSize * k < tailOffset) (hroom : offset + blockSize * k + 256 ≤ img.length) :
    ∃ padding', findRootfs img tailOffset fuel offset padding = .ok (offset + blockSize * k, padding') := by
  induction k generalizing fuel offset padding with
  | zero =>
    obtain ⟨fuel, rfl⟩ : ∃ n, fuel = n + 1 := ⟨fuel - 1, by omega⟩
    have hscan := scanLength_le padding
    rw [Nat.mul_zero, Nat.add_zero] at *
    rw [findRootfs_succ, if_pos hlt, length_slice_of_le (by omega), if_neg (not_not.2 rfl), if_pos hubi]
    exact ⟨_, rfl⟩
  | succ k ih =>
    obtain ⟨fuel, rfl⟩ : ∃ n, fuel = n + 1 := ⟨fuel - 1, by omega⟩
    have hscan := scanLength_le padding
    have hstep : ∀ j, offset + blockSize * (j + 1) = offset + blockSize + blockSize * j := by
      intro j
      rw [Nat.mul_succ]
      omega
    have hhead := hno 0 (Nat.succ_pos k)
    rw [Nat.mul_zero, Nat.add_zero] at hhead
    rw [hstep] at hubi hlt hroom ⊢
    rw [findRootfs_succ, if_pos (by omega), length_slice_of_le (by omega), if_neg (not_not.2 rfl),
      if_neg hhead]
    refine ih (by omega) (fun j hj => ?_) hubi hlt hroom
    rw [← hstep]
    exact hno (j + 1) (by omega)

/-! ### The layout of an image -/

theorem length_tail (tail : Tail) : tail.bytes.length = sizeofTail := rfl

theorem read_tail {content : List Byte} (vendor : List Byte) (tail : Tail) {offset : Nat}
    (hoffset : content.length = offset) :
    Tail.read (content ++ (tail.bytes ++ vendor)) offset = tail := by
  have hfield : ∀ (off : Nat) (w : Word), off + 4 ≤ sizeofTail → slice tail.bytes off 4 = u32le w →
      getU32 (content ++ (tail.bytes ++ vendor)) (offset + off) = w := by
    intro off w hoff hw
    apply getU32_of_slice
    have hslice : slice (content ++ (tail.bytes ++ vendor)) (offset + off) 4 =
        slice (tail.bytes ++ vendor) off 4 := by
      rw [slice, slice, ← hoffset, ← List.drop_drop, List.drop_left]
    rw [hslice, slice_append_left hoff, hw]
  have hcrc32 := hfield 0 tail.crc32 (by decide) rfl
  have hversion := hfield 4 tail.version (by decide) rfl
  have hchipId := hfield 8 tail.chipId (by decide) rfl
  have hflashType := hfield 12 tail.flashType (by decide) rfl
  have hflags := hfield 16 tail.flags (by decide) rfl
  rw [Nat.add_zero] at hcrc32
  rw [Tail.read, hcrc32, hversion, hchipId, hflashType, hflags]

def ubiMagic : List Byte := ofChars "UBI#"

theorem ubiMagic_eq : ubiMagic = [0x55, 0x42, 0x49, 0x23] := by decide +kernel

section Start

variable {img : List Byte}

/-- An image that starts with a bootfs has no vendor header. -/
theorem vendorHeader_of_start (hstart : [0x85, 0x19] <+: img) : vendorHeader img = 0 := by
  obtain ⟨rest, rfl⟩ := hstart
  refine if_neg fun hmagic => ?_
  have htop := extractLsb'_ofBe (slice ([0x85, 0x19] ++ rest) 0 4)
  rw [hmagic, show (slice ([0x85, 0x19] ++ rest) 0 4).getD 0 0 = 0x85 from rfl] at htop
  exact absurd htop (by decide)

theorem findBootfs_of_start (hstart : [0x85, 0x19] <+: img) {tailOffset : Nat} (htail : 0 < tailOffset)
    (hlen : 0 < img.length) : findBootfs img tailOffset img.length 0 = .ok 0 := by
  obtain ⟨fuel, hfuel⟩ : ∃ n, img.length = n + 1 := ⟨img.length - 1, by omega⟩
  have hfront : slice img 0 2 = [0x85, 0x19] := by
    obtain ⟨rest, rfl⟩ := hstart
    rfl
  rw [hfuel, findBootfs, if_pos htail, hfront]
  rfl

end Start

/-- An image of a bootfs, a rootfs, a tail and perhaps a tail of a vendor is accepted. -/
theorem parsed_layout {bootfs rootfs vendor : List Byte} {tail : Tail} {k : Nat}
    (hstart : [0x85, 0x19] <+: bootfs) (hk : bootfs.length = blockSize * k) (hubi : ubiMagic <+: rootfs)
    (hrootfs : 1024 ≤ rootfs.length)
    (hno : ∀ j < k, ¬ hasUbi (bootfs ++ rootfs ++ (tail.bytes ++ vendor)) (blockSize * j))
    (htail : tailOffsetOf (bootfs ++ rootfs ++ (tail.bytes ++ vendor)) = bootfs.length + rootfs.length)
    (hcrc : tail.crc32 = bcm4908imgCrc32 0xffffffff (bootfs ++ rootfs)) :
    ∃ info, Parsed (bootfs ++ rootfs ++ (tail.bytes ++ vendor)) info ∧ info.bootfsOffset = 0 ∧
      info.rootfsOffset = bootfs.length ∧ info.tailOffset = bootfs.length + rootfs.length := by
  generalize himg : bootfs ++ rootfs ++ (tail.bytes ++ vendor) = img at hno htail ⊢
  have hlen : img.length = bootfs.length + rootfs.length + (sizeofTail + vendor.length) := by
    rw [← himg, List.length_append, List.length_append, List.length_append, length_tail]
  have hsize : sizeofTail = 20 := rfl
  have himgStart : [0x85, 0x19] <+: img := by
    rw [← himg, List.append_assoc]
    exact hstart.trans (List.prefix_append _ _)
  have hrootUbi : hasUbi img bootfs.length := by
    obtain ⟨rest, rfl⟩ := hubi
    rw [← himg, hasUbi, List.append_assoc, slice_append_right rfl, List.append_assoc,
      List.take_left' (by rw [ubiMagic_eq]; rfl), ubiMagic_eq]
    decide
  have hblock : 0 < blockSize := by decide
  obtain ⟨padding, hfindRootfs⟩ : ∃ padding,
      findRootfs img (bootfs.length + rootfs.length) img.length 0 0 = .ok (0 + blockSize * k, padding) := by
    have hmul : k ≤ blockSize * k := Nat.le_mul_of_pos_left k hblock
    refine findRootfs_first (by omega) (fun j hj => ?_) ?_ (by omega) (by omega)
    · rw [Nat.zero_add]
      exact hno j hj
    · rw [Nat.zero_add, ← hk]
      exact hrootUbi
  have hcontent : slice img 0 (bootfs.length + rootfs.length) = bootfs ++ rootfs := by
    rw [← himg, slice, List.drop_zero]
    exact List.take_left' List.length_append
  refine ⟨{ cferomOffset := 0, bootfsOffset := 0, paddingOffset := padding, rootfsOffset := bootfs.length
            tailOffset := bootfs.length + rootfs.length, crc32 := tail.crc32, tail := tail },
    ⟨by omega, (vendorHeader_of_start himgStart).symm, htail.symm,
      findBootfs_of_start himgStart (show 0 < bootfs.length + rootfs.length by omega) (by omega), ?_, ?_, ?_,
      rfl⟩, rfl, rfl, rfl⟩
  · rw [hfindRootfs, Nat.zero_add, ← hk]
  · rw [Nat.sub_zero, hcontent, hcrc]
  · rw [← himg, read_tail _ tail List.length_append]

/-! ### A small image -/

/-- A dirent with the name `a`. -/
def smallDirent : List Byte :=
  [0x85, 0x19, 0x01, 0xe0, 41, 0, 0, 0] ++ List.replicate 20 0 ++ [1] ++ List.replicate 11 0 ++ [0x61, 0, 0, 0]

def smallBootfs : List Byte := smallDirent ++ List.replicate (blockSize - smallDirent.length) 0

def smallRootfs : List Byte := ubiMagic ++ List.replicate 1020 0

theorem length_smallBootfs : smallBootfs.length = blockSize := by
  have hdirent : smallDirent.length ≤ blockSize := by decide
  rw [smallBootfs, List.length_append, List.length_replicate, Nat.add_sub_cancel' hdirent]

theorem length_smallRootfs : smallRootfs.length = 1024 := by
  rw [smallRootfs, List.length_append, List.length_replicate, ubiMagic_eq]
  rfl

theorem smallBootfs_start : [0x85, 0x19] <+: smallBootfs := ⟨_, rfl⟩

theorem not_hasUbi_of_start {img : List Byte} (hstart : [0x85, 0x19] <+: img) : ¬ hasUbi img 0 := by
  obtain ⟨rest, rfl⟩ := hstart
  intro hubi
  have htop := extractLsb'_ofBe (slice ([0x85, 0x19] ++ rest) 0 4)
  rw [show ofBe (slice ([0x85, 0x19] ++ rest) 0 4) = ubiEcHdrMagic from hubi,
    show (slice ([0x85, 0x19] ++ rest) 0 4).getD 0 0 = 0x85 from rfl] at htop
  exact absurd htop (by decide)

theorem not_hasUbi_of_length_le {img : List Byte} {offset : Nat} (hend : img.length ≤ offset) :
    ¬ hasUbi img offset := by
  intro hubi
  rw [hasUbi, slice, List.drop_eq_nil_of_le hend] at hubi
  exact absurd hubi (by decide)

/-- A small image has one rootfs. -/
theorem small_not_hasUbi {bootfs rest : List Byte} (hstart : [0x85, 0x19] <+: bootfs)
    (hlen : bootfs.length = blockSize) (hrest : rest.length ≤ 1024) {k : Nat} (hk : k ≠ 1) :
    ¬ hasUbi (bootfs ++ smallRootfs ++ rest) (blockSize * k) := by
  rcases Nat.lt_or_ge k 1 with hlt | hge
  · obtain rfl : k = 0 := by omega
    rw [List.append_assoc]
    exact not_hasUbi_of_start (hstart.trans (List.prefix_append _ _))
  · apply not_hasUbi_of_length_le
    rw [List.length_append, List.length_append, hlen, length_smallRootfs]
    calc blockSize + 1024 + rest.length ≤ blockSize + 1024 + 1024 := Nat.add_le_add_left hrest _
      _ ≤ blockSize * 2 := by decide
      _ ≤ blockSize * k := Nat.mul_le_mul_left _ (by omega)

theorem linksysMagic_eq : linksysMagic = [0x2e, 0x4c, 0x49, 0x4e, 0x4b, 0x53, 0x59, 0x53, 0x2e] := by
  decide +kernel

theorem small_hasLinksysTail (bootfs : List Byte) (tail : Tail) :
    hasLinksysTail (bootfs ++ smallRootfs ++ tail.bytes) = false := by
  have hlen : (bootfs ++ smallRootfs ++ tail.bytes).length - sizeofLinksys =
      (bootfs ++ ubiMagic ++ List.replicate 784 0).length := by
    have hubi : ubiMagic.length = 4 := by rw [ubiMagic_eq]; rfl
    have hsum : ∀ n, n + 1024 + sizeofTail - sizeofLinksys = n + 4 + 784 := by
      unfold sizeofTail sizeofLinksys
      omega
    rw [List.length_append, List.length_append, length_smallRootfs, length_tail, hsum, List.length_append,
      List.length_append, List.length_replicate, hubi]
  have hsplit : bootfs ++ smallRootfs ++ tail.bytes =
      (bootfs ++ ubiMagic ++ List.replicate 784 0) ++ (List.replicate 236 0 ++ tail.bytes) := by
    rw [smallRootfs, show 1020 = 784 + 236 from rfl, ← List.replicate_append_replicate]
    simp only [List.append_assoc]
  rw [hasLinksysTail, hlen, hsplit, slice_append_right rfl, linksysMagic_eq]
  rfl

/-- The same with a tail of Linksys. -/
def smallLinksysTail : List Byte := linksysMagic ++ List.replicate 247 0

theorem length_smallLinksysTail : smallLinksysTail.length = sizeofLinksys := by
  rw [smallLinksysTail, List.length_append, List.length_replicate, linksysMagic_eq]
  rfl

theorem small_hasLinksysTail_of_vendor (content : List Byte) :
    hasLinksysTail (content ++ smallLinksysTail) = true := by
  have hlen : (content ++ smallLinksysTail).length - sizeofLinksys = content.length := by
    rw [List.length_append, length_smallLinksysTail, Nat.add_sub_cancel]
  rw [hasLinksysTail, hlen, slice_append_right rfl, smallLinksysTail, List.take_left]
  exact decide_eq_true rfl

end Immwrt.Bcm4908img
