import Immwrt.Bcm4908img.Proof.Parse

/-!
# Renaming a file of the bootfs

The rename rewrites a name, its checksum and the last 20 bytes of the file. These are the tail of the image
unless a vendor tail follows it, which is then overwritten while the tail keeps a checksum that is out of
date.
-/

namespace Immwrt.Bcm4908img

/-! ### The walk over the nodes -/

/-- The offsets that a walk over the nodes from `start` on comes to. -/
inductive NodeAt (img : List Byte) (start : Nat) : Nat → Prop
  | start : NodeAt img start start
  | next {offset : Nat} (hnode : NodeAt img start offset)
      (hmagic : ofLe16 (slice img offset 2) = jffs2MagicBitmask) :
      NodeAt img start (offset + nodeLength img offset)

/-- A dirent with the name `name`. -/
structure Dirent (img : List Byte) (name : CString) (offset : Nat) : Prop where
  magic : ofLe16 (slice img offset 2) = jffs2MagicBitmask
  nodetype : ofLe16 (slice img (offset + 2) 2) = jffs2NodetypeDirent
  room : offset + sizeofDirent + direntNsize img offset ≤ img.length
  name : CString.ofBytes (slice img (offset + sizeofDirent) (direntNsize img offset)) = name

theorem findDirent_ok {img : List Byte} {oldname : CString} {fuel start offset found : Nat}
    (hnode : NodeAt img start offset) (hfind : findDirent img oldname fuel offset = some (.ok found)) :
    NodeAt img start found ∧ Dirent img oldname found := by
  induction fuel generalizing offset with
  | zero => cases hfind
  | succ fuel ih =>
    rw [findDirent] at hfind
    dsimp only at hfind
    split at hfind
    case isTrue => cases hfind
    case isFalse hlen =>
      split at hfind
      case isTrue => cases hfind
      case isFalse hmagic =>
        rw [not_not, take_slice (by decide)] at hmagic
        split at hfind
        case isTrue => exact ih (hnode.next hmagic) hfind
        case isFalse htype =>
          split at hfind
          case isTrue => cases hfind
          case isFalse hdirent =>
            split at hfind
            case isTrue => exact ih (hnode.next hmagic) hfind
            case isFalse =>
              split at hfind
              case isTrue => cases hfind
              case isFalse hroom =>
                split at hfind
                case isTrue => exact ih (hnode.next hmagic) hfind
                case isFalse hname =>
                  obtain rfl := Except.ok.inj (Option.some.inj hfind)
                  rw [not_not, slice_slice _ _ _ _ _ (by decide)] at htype
                  rw [not_not, slice, List.length_take, List.length_drop] at hdirent hroom
                  have hsize : sizeofDirent = 40 := rfl
                  exact ⟨hnode, hmagic, htype, by omega, not_not.1 hname⟩

theorem NodeAt.le {img : List Byte} {start offset : Nat} (hnode : NodeAt img start offset) : start ≤ offset := by
  induction hnode with
  | start => exact le_rfl
  | next _ _ ih => exact Nat.le_add_right_of_le ih

/-! ### The rename -/

/-- Where the bootfs ends. -/
def Info.bootfsEnd (info : Info) : Nat :=
  if info.paddingOffset ≠ 0 then info.paddingOffset else info.rootfsOffset

/-- What a rename should leave: at most the name and the name checksum of one dirent of the old name and the
checksum in the tail have changed, and the image is accepted. -/
structure Renamed (img : List Byte) (info : Info) (oldname : CString) (img' : List Byte) : Prop where
  changes : ∃ offset, NodeAt img info.bootfsOffset offset ∧ Dirent img oldname offset ∧
    ∀ i, img'[i]? ≠ img[i]? →
      (offset + direntNameCrc ≤ i ∧ i < offset + sizeofDirent + direntNsize img offset) ∨
      (info.tailOffset ≤ i ∧ i < info.tailOffset + 4)
  accepted : ∃ info', bcm4908imgParse img' = .ok info'

/-- The image with the new name, before the tail is written. -/
def renamedContent (img newname : List Byte) (offset : Nat) : List Byte :=
  splice (splice img (offset + direntNameCrc) (u32le (bcm4908imgCrc32 0 newname))) (offset + sizeofDirent) newname

section Content

variable {img newname : List Byte} {offset : Nat} (hroom : offset + sizeofDirent + newname.length ≤ img.length)
include hroom

theorem length_renamedContent : (renamedContent img newname offset).length = img.length := by
  have hcrc : direntNameCrc + 4 = sizeofDirent := rfl
  rw [renamedContent, length_splice, length_splice]
  · rw [length_u32le]
    omega
  · rw [length_splice]
    · exact hroom
    · rw [length_u32le]
      omega

theorem getElem?_renamedContent {i : Nat}
    (hi : i < offset + direntNameCrc ∨ offset + sizeofDirent + newname.length ≤ i) :
    (renamedContent img newname offset)[i]? = img[i]? := by
  have hcrc : direntNameCrc + 4 = sizeofDirent := rfl
  have hfirst : (splice img (offset + direntNameCrc) (u32le (bcm4908imgCrc32 0 newname))).length = img.length := by
    rw [length_splice]
    rw [length_u32le]
    omega
  rw [renamedContent, getElem?_splice (by omega)]
  rw [getElem?_splice (by omega), length_u32le]
  rcases hi with hlt | hge
  · rw [if_pos (by omega), if_pos hlt]
  · rw [if_neg (by omega), if_neg (by omega), if_neg (by omega), if_neg (by omega)]

end Content

/-! ### The scans of an image that differs a little -/

theorem findBootfs_congr {img img' : List Byte} {tailOffset fuel offset bootfs : Nat}
    (hagree : ∀ i < bootfs + 2, img'[i]? = img[i]?)
    (hfind : findBootfs img tailOffset fuel offset = .ok bootfs) :
    findBootfs img' tailOffset fuel offset = .ok bootfs := by
  induction fuel generalizing offset with
  | zero => cases hfind
  | succ fuel ih =>
    obtain ⟨hle, -, -⟩ := findBootfs_ok hfind
    have hslice : slice img' offset 2 = slice img offset 2 := slice_congr fun i _ hi => hagree i (by omega)
    rw [findBootfs] at hfind ⊢
    rw [hslice]
    split at hfind
    case isFalse => cases hfind
    case isTrue hlt =>
      dsimp only at hfind ⊢
      rw [if_pos hlt]
      split at hfind
      case isTrue => cases hfind
      case isFalse hlen =>
        rw [if_neg hlen]
        split at hfind
        case isTrue hmagic => rw [if_pos hmagic, hfind]
        case isFalse hmagic =>
          rw [if_neg hmagic]
          exact ih hfind

/-- Changes before the block where the padding was found, and before the rootfs, do not make the scan fail:
it may find a padding or a rootfs earlier. -/
theorem findRootfs_survives {img img' : List Byte} {tailOffset fuel offset padding padding' start rootfs found : Nat}
    (hlen : img'.length = img.length) (hagree : ∀ i, start ≤ i → i < tailOffset → img'[i]? = img[i]?)
    (hfind : findRootfs img tailOffset fuel offset padding = .ok (rootfs, found))
    (hpadding : padding ≠ 0 → padding' ≠ 0) (hrootfs : start ≤ rootfs) (hmagic : rootfs + 4 ≤ tailOffset)
    (hfound : padding = 0 → found ≠ 0 → start ≤ found ∧ found + 256 ≤ tailOffset) :
    ∃ result, findRootfs img' tailOffset fuel offset padding' = .ok result := by
  induction fuel generalizing offset padding padding' with
  | zero => cases hfind
  | succ fuel ih =>
    have hrest := findRootfs_found hfind
    rw [findRootfs_succ] at hfind ⊢
    split at hfind
    case isFalse => cases hfind
    case isTrue hlt =>
      rw [if_pos hlt]
      split at hfind
      case isTrue => cases hfind
      case isFalse hread =>
        have hscan : scanLength padding' ≤ scanLength padding := by
          unfold scanLength
          by_cases hzero : padding = 0
          · rw [if_neg (not_not.2 hzero)]
            split <;> omega
          · rw [if_pos hzero, if_pos (hpadding hzero)]
        have hpos : 0 < scanLength padding := by
          unfold scanLength
          split <;> omega
        rw [not_not, slice, List.length_take, List.length_drop] at hread
        rw [length_slice_of_le (by omega), if_neg (not_not.2 rfl)]
        by_cases hubi' : hasUbi img' offset
        · rw [if_pos hubi']
          exact ⟨_, rfl⟩
        · rw [if_neg hubi']
          split at hfind
          case isTrue hubi =>
            obtain ⟨rfl, -⟩ := Prod.mk.inj (Except.ok.inj hfind)
            rw [hasUbi, ← slice_congr fun i hge hi => hagree i (by omega) (by omega)] at hubi
            exact absurd hubi hubi'
          case isFalse =>
            refine ih hfind (fun hnext => ?_) fun hnext hne => ?_
            · by_cases hzero' : padding' = 0
              · have hzero : padding = 0 := by
                  by_contra hne
                  exact hpadding hne hzero'
                have hff : isAllFf (slice img offset 256) = true := by
                  by_contra hnot
                  exact hnext ((if_neg fun hff => hnot hff.2).trans hzero)
                have hcur : nextPadding img offset padding = offset := if_pos ⟨hzero, hff⟩
                have hkept := (findRootfs_found hfind).kept hnext
                rw [hcur] at hkept hnext
                obtain ⟨hge, hroom⟩ := hfound hzero (hkept ▸ hnext)
                rw [← slice_congr fun i hi hlt => hagree i (by omega) (by omega)] at hff
                have hcur' : nextPadding img' offset padding' = offset := if_pos ⟨hzero', hff⟩
                rwa [hcur']
              · have hcur' : nextPadding img' offset padding' = padding' := if_neg fun hff => hzero' hff.1
                rwa [hcur']
            · refine hfound ?_ hne
              by_contra hzero
              rw [nextPadding, if_neg fun hff => hzero hff.1] at hnext
              exact hzero hnext

/-! ### The tail that is written -/

theorem bytes_read {img : List Byte} {offset : Nat} (hroom : offset + sizeofTail ≤ img.length) :
    (Tail.read img offset).bytes = slice img offset sizeofTail := by
  have hsize : sizeofTail = 20 := rfl
  have hword : ∀ off, off + 4 ≤ img.length → u32le (getU32 img off) = slice img off 4 := by
    intro off hoff
    exact u32le_ofLe (length_slice_of_le hoff)
  have hadd : ∀ off m n, slice img off m ++ slice img (off + m) n = slice img off (m + n) := by
    intro off m n
    rw [slice, slice, slice, ← List.drop_drop, ← List.take_add]
  simp only [Tail.bytes, Tail.read]
  rw [hword _ (by omega), hword _ (by omega), hword _ (by omega), hword _ (by omega), hword _ (by omega), hadd,
    hadd offset 8 4, hadd offset 12 4, hadd offset 16 4, hsize]

/-- The bytes that follow the checksum in a tail. -/
theorem getElem?_bytes_crc32 (tail : Tail) (crc : Word) {i : Nat} (hi : 4 ≤ i) :
    ({ tail with crc32 := crc }.bytes)[i]? = tail.bytes[i]? := by
  have hbytes : ∀ w : Word, { tail with crc32 := w }.bytes = u32le w ++ tail.bytes.drop 4 := by
    intro w
    simp only [Tail.bytes, List.append_assoc]
    rfl
  rw [hbytes crc, show tail.bytes = u32le tail.crc32 ++ tail.bytes.drop 4 from hbytes tail.crc32,
    List.getElem?_append_right (by rw [length_u32le]; exact hi),
    List.getElem?_append_right (by rw [length_u32le]; exact hi)]
  rfl

/-- The image after a rename. -/
def renamedImage (img newname : List Byte) (info : Info) (offset : Nat) : List Byte :=
  let content := renamedContent img newname offset
  splice content (img.length - sizeofTail)
    { info.tail with
      crc32 := bcm4908imgCrc32 0xffffffff
        (slice content info.cferomOffset (info.tailOffset - info.cferomOffset)) }.bytes

/-- What is written as the new name has the length of the old one. -/
theorem length_newName (newname : CString) (junk : Nat → Byte) (nsize : Nat) :
    ((newname.bytes ++ 0 :: bytesAt junk 0 nsize).take nsize).length = nsize := by
  rw [List.length_take, List.length_append, List.length_cons, length_bytesAt]
  omega

theorem bcm4908imgBootfsMv_ok {img img' : List Byte} {info : Info} {oldname newname : CString}
    {junk : Nat → Byte} {fuel : Nat} (hmv : bcm4908imgBootfsMv img info oldname newname junk fuel = some (.ok img')) :
    ∃ offset new, NodeAt img info.bootfsOffset offset ∧ Dirent img oldname offset ∧
      new.length = direntNsize img offset ∧ img' = renamedImage img new info offset := by
  rw [bcm4908imgBootfsMv] at hmv
  split at hmv
  case isTrue => cases hmv
  case isFalse =>
    split at hmv
    case h_1 => cases hmv
    case h_2 => cases hmv
    case h_3 offset hfind =>
      obtain ⟨hnode, hdirent⟩ := findDirent_ok .start hfind
      dsimp only at hmv
      generalize hnew : (newname.bytes ++ 0 :: bytesAt junk 0 (direntNsize img offset)).take
        (direntNsize img offset) = new at hmv
      have hlen : new.length = direntNsize img offset := by
        rw [← hnew, length_newName]
      have hroom := hdirent.room
      rw [← hlen] at hroom
      refine ⟨offset, new, hnode, hdirent, hlen, ?_⟩
      have hrename := Option.some.inj hmv
      rw [renameDirent] at hrename
      simp only [checksum_eq] at hrename
      split at hrename
      case isTrue => cases hrename
      case isFalse =>
        have hcontent := length_renamedContent hroom
        rw [renamedContent] at hcontent
        rw [hcontent] at hrename
        exact (Except.ok.inj hrename).symm

/-! ### Images without a vendor tail -/

/-- Every dirent of the old name that the walk comes to lies in the bootfs. -/
def DirentsInBootfs (img : List Byte) (info : Info) (oldname : CString) : Prop :=
  ∀ offset, NodeAt img info.bootfsOffset offset → Dirent img oldname offset →
    offset + sizeofDirent + direntNsize img offset ≤ info.bootfsEnd

section Renamed

variable {img new : List Byte} {info : Info} {oldname : CString} {offset : Nat}

theorem Parsed.bootfsEnd_le (hparsed : Parsed img info) :
    info.bootfsEnd ≤ info.rootfsOffset ∧ info.bootfsEnd + 256 ≤ img.length := by
  have hfound := findRootfs_found hparsed.rootfs
  have hlt := hfound.lt
  have hroom := hfound.room
  have htail := tailOffsetOf_le img
  rw [← hparsed.tailOffset] at htail
  have hblock : blockSize = 131072 := rfl
  unfold Info.bootfsEnd
  split
  case isTrue hne =>
    obtain ⟨-, hle⟩ := hfound.padding rfl hne
    omega
  case isFalse hzero =>
    rw [not_not] at hzero
    rw [hzero, scanLength, if_neg (not_not.2 rfl)] at hroom
    exact ⟨le_rfl, hroom⟩

/-- An image that differs from a parsed one in a part of the bootfs, and whose tail has the checksum of its
contents. -/
structure Rewritten (img : List Byte) (info : Info) (first last : Nat) (img' : List Byte) : Prop where
  length : img'.length = img.length
  start : info.bootfsOffset + direntNameCrc ≤ first
  order : first ≤ last
  stop : last ≤ info.bootfsEnd
  same : ∀ i, i < first ∨ last ≤ i → i < info.tailOffset ∨ info.tailOffset + 4 ≤ i → img'[i]? = img[i]?
  crc32 : (Tail.read img' info.tailOffset).crc32 =
    bcm4908imgCrc32 0xffffffff (slice img' info.cferomOffset (info.tailOffset - info.cferomOffset))

/-- Such an image is accepted. -/
theorem Rewritten.accepted {first last : Nat} {img' : List Byte} (hrewritten : Rewritten img info first last img')
    (hparsed : Parsed img info) (hvendor : hasLinksysTail img = false)
    (hmagic : info.rootfsOffset + 4 ≤ info.tailOffset) : ∃ info', bcm4908imgParse img' = .ok info' := by
  obtain ⟨hlen, hstart, horder, hstop, hsame, hcrc⟩ := hrewritten
  have hlength := hparsed.length
  obtain ⟨hendRootfs, hendLen⟩ := hparsed.bootfsEnd_le
  have hsizes : sizeofTail = 20 ∧ sizeofLinksys = 256 ∧ direntNameCrc = 36 := ⟨rfl, rfl, rfl⟩
  have hmagicLen : linksysMagic.length = 9 := by
    rw [linksysMagic_eq]
    rfl
  have htail : info.tailOffset = img.length - sizeofTail := by
    rw [hparsed.tailOffset, tailOffsetOf, hvendor, if_neg Bool.false_ne_true]
  have hcferom : vendorHeader img' = vendorHeader img := by
    rw [vendorHeader, vendorHeader, slice_congr fun i _ hi => hsame i (by omega) (by omega),
      slice_congr fun i _ hi => hsame i (by omega) (by omega)]
  have hvendor' : hasLinksysTail img' = false := by
    rw [← hvendor, hasLinksysTail, hasLinksysTail, hlen, slice_congr fun i hge hi => hsame i (by omega) (by omega)]
  have htail' : tailOffsetOf img' = info.tailOffset := by
    rw [tailOffsetOf, hvendor', if_neg Bool.false_ne_true, hlen, htail]
  have hfound := findRootfs_found hparsed.rootfs
  obtain ⟨⟨rootfs, padding⟩, hfindRootfs⟩ : ∃ result,
      findRootfs img' info.tailOffset img.length info.bootfsOffset 0 = .ok result := by
    refine findRootfs_survives hlen (fun i hge hi => hsame i (by omega) (by omega)) hparsed.rootfs
      (fun hne => absurd rfl hne) hendRootfs hmagic fun _ hne => ?_
    have hpaddingEnd : info.bootfsEnd = info.paddingOffset := if_pos hne
    obtain ⟨-, hle⟩ := hfound.padding rfl hne
    have hblock : blockSize = 131072 := rfl
    omega
  have hbootfs : ∀ i < info.bootfsOffset + 2, img'[i]? = img[i]? := fun i hi => hsame i (by omega) (by omega)
  refine ⟨{ info with rootfsOffset := rootfs, paddingOffset := padding
                      crc32 := (Tail.read img' info.tailOffset).crc32
                      tail := Tail.read img' info.tailOffset }, bcm4908imgParse_eq_ok.2 ?_⟩
  refine ⟨by omega, ?_, htail'.symm, ?_, ?_, hcrc, rfl, rfl⟩
  · dsimp only
    rw [hcferom, hparsed.cferom]
  · dsimp only
    rw [hlen]
    exact findBootfs_congr hbootfs hparsed.bootfs
  · dsimp only
    rw [hlen]
    exact hfindRootfs

theorem renamedImage_rewritten (hparsed : Parsed img info) (hvendor : hasLinksysTail img = false)
    (hnode : NodeAt img info.bootfsOffset offset) (hdirent : Dirent img oldname offset)
    (hnew : new.length = direntNsize img offset)
    (hend : offset + sizeofDirent + direntNsize img offset ≤ info.bootfsEnd) :
    Rewritten img info (offset + direntNameCrc) (offset + sizeofDirent + direntNsize img offset)
      (renamedImage img new info offset) := by
  have hlength := hparsed.length
  have hstart := hnode.le
  obtain ⟨-, hendLen⟩ := hparsed.bootfsEnd_le
  have hsizes : sizeofTail = 20 ∧ sizeofDirent = 40 ∧ direntNameCrc = 36 := ⟨rfl, rfl, rfl⟩
  have htail : info.tailOffset = img.length - sizeofTail := by
    rw [hparsed.tailOffset, tailOffsetOf, hvendor, if_neg Bool.false_ne_true]
  have hroom := hdirent.room
  rw [← hnew] at hroom hend ⊢
  have hcontentLen := length_renamedContent hroom
  generalize hcrc : bcm4908imgCrc32 0xffffffff (slice (renamedContent img new offset) info.cferomOffset
    (info.tailOffset - info.cferomOffset)) = crc
  have himg' : renamedImage img new info offset =
      splice (renamedContent img new offset) info.tailOffset { info.tail with crc32 := crc }.bytes := by
    rw [renamedImage, ← hcrc, htail]
  generalize renamedImage img new info offset = img' at himg' ⊢
  have hbelow : ∀ i < info.tailOffset, img'[i]? = (renamedContent img new offset)[i]? := by
    intro i hi
    rw [himg', getElem?_splice (by omega), if_pos hi]
  have htailBytes : info.tail.bytes = slice img info.tailOffset sizeofTail := by
    rw [hparsed.tail, bytes_read (by omega)]
  refine ⟨?_, by omega, by omega, hend, ?_, ?_⟩
  · rw [himg', length_splice (by rw [length_tail]; omega), hcontentLen]
  · intro i hname hcrcField
    by_cases hi : i < info.tailOffset
    · rw [hbelow i hi, getElem?_renamedContent hroom hname]
    · rw [himg', getElem?_splice (by omega), if_neg hi, length_tail]
      split
      case isTrue hin =>
        rw [getElem?_bytes_crc32 _ _ (by omega), htailBytes, getElem?_slice, if_pos (by omega),
          Nat.add_sub_cancel' (by omega)]
      case isFalse => exact getElem?_renamedContent hroom hname
  · have hslice : slice img' info.tailOffset sizeofTail = { info.tail with crc32 := crc }.bytes := by
      rw [himg', ← length_tail { info.tail with crc32 := crc }, slice_splice_self (by omega)]
    rw [slice_congr fun i _ hi => hbelow i (by omega), hcrc]
    apply getU32_of_slice
    rw [← take_slice (show 4 ≤ sizeofTail by decide), hslice]
    rfl

theorem renamed_of_no_vendor (hparsed : Parsed img info) (hvendor : hasLinksysTail img = false)
    (hnode : NodeAt img info.bootfsOffset offset) (hdirent : Dirent img oldname offset)
    (hnew : new.length = direntNsize img offset)
    (hend : offset + sizeofDirent + direntNsize img offset ≤ info.bootfsEnd)
    (hmagic : info.rootfsOffset + 4 ≤ info.tailOffset) :
    Renamed img info oldname (renamedImage img new info offset) := by
  have hrewritten := renamedImage_rewritten hparsed hvendor hnode hdirent hnew hend
  refine ⟨⟨offset, hnode, hdirent, fun i hne => ?_⟩, hrewritten.accepted hparsed hvendor hmagic⟩
  by_contra hout
  exact hne (hrewritten.same i (by omega) (by omega))

/-! ### Images with a vendor tail -/

theorem not_renamed_of_vendor (hparsed : Parsed img info) (hvendor : hasLinksysTail img = true)
    (hdirents : DirentsInBootfs img info oldname) (hdirent : Dirent img oldname offset)
    (hnew : new.length = direntNsize img offset)
    (hdiffer : slice img (img.length - 16) 16 ≠ slice img (info.tailOffset + 4) 16) :
    ¬ Renamed img info oldname (renamedImage img new info offset) := by
  rintro ⟨⟨changed, hnode, hchanged, hchanges⟩, -⟩
  have hlength := hparsed.length
  have hroom := hdirent.room
  rw [← hnew] at hroom
  have hend := hdirents changed hnode hchanged
  obtain ⟨-, hendLen⟩ := hparsed.bootfsEnd_le
  have hsizes : sizeofTail = 20 ∧ sizeofLinksys = 256 := ⟨rfl, rfl⟩
  have htail : info.tailOffset = img.length - sizeofTail - sizeofLinksys := by
    rw [hparsed.tailOffset, tailOffsetOf, hvendor, if_pos rfl]
  have hcontentLen := length_renamedContent hroom
  apply hdiffer
  apply List.ext_getElem?
  intro i
  rw [getElem?_slice, getElem?_slice]
  by_cases hi : i < 16
  · rw [if_pos hi, if_pos hi]
    have hsame : (renamedImage img new info offset)[img.length - 16 + i]? = img[img.length - 16 + i]? := by
      by_contra hne
      rcases hchanges _ hne with hname | hcrc
      · omega
      · omega
    rw [← hsame, renamedImage, getElem?_splice (by omega), if_neg (by omega), length_tail, if_pos (by omega),
      getElem?_bytes_crc32 _ _ (by omega), hparsed.tail, bytes_read (by omega), getElem?_slice,
      if_pos (by omega), show img.length - 16 + i - (img.length - sizeofTail) = 4 + i by omega, Nat.add_assoc]
  · rw [if_neg hi, if_neg hi]

end Renamed

/-! ### Renaming in a small image -/

theorem bcm4908imgBootfsMv_exists {img : List Byte} {info : Info} {oldname newname : CString} {fuel offset : Nat}
    (hparsed : Parsed img info) (hlen : newname.strlen = oldname.strlen)
    (hfind : findDirent img oldname fuel info.bootfsOffset = some (.ok offset)) (junk : Nat → Byte) :
    ∃ img', bcm4908imgBootfsMv img info oldname newname junk fuel = some (.ok img') := by
  obtain ⟨-, hdirent⟩ := findDirent_ok .start hfind
  have hroom := hdirent.room
  have htail := tailOffsetOf_le img
  rw [← hparsed.tailOffset] at htail
  rw [bcm4908imgBootfsMv, if_neg (not_not.2 hlen), hfind]
  dsimp only
  generalize hnew : (newname.bytes ++ 0 :: bytesAt junk 0 (direntNsize img offset)).take
    (direntNsize img offset) = new
  have hnewLen : new.length = direntNsize img offset := by
    rw [← hnew, length_newName]
  rw [← hnewLen] at hroom
  have hcontent := length_renamedContent hroom
  rw [renamedContent] at hcontent
  rw [renameDirent]
  simp only [checksum_eq, hcontent]
  rw [if_neg (by omega)]
  exact ⟨_, rfl⟩

def smallTail : Tail where
  crc32 := bcm4908imgCrc32 0xffffffff (smallBootfs ++ smallRootfs)
  version := wfiVersion
  chipId := 0x4908
  flashType := wfiNand128Flash
  flags := wfiFlagSupportsBtrm

/-- A small image with a vendor tail, or with none. -/
def smallImage (vendor : List Byte) : List Byte := smallBootfs ++ smallRootfs ++ (smallTail.bytes ++ vendor)

section Small

variable (rest : List Byte)

theorem slice_smallBootfs {off n : Nat} (hroom : off + n ≤ smallDirent.length) :
    slice (smallBootfs ++ rest) off n = slice smallDirent off n := by
  rw [smallBootfs, List.append_assoc, slice_append_left hroom]

theorem nodeLength_smallBootfs : nodeLength (smallBootfs ++ rest) 0 = 44 := by
  rw [nodeLength, getU32, slice_smallBootfs rest (by decide)]
  decide

theorem slice_smallBootfs_next : slice (smallBootfs ++ rest) 44 2 = [0, 0] := by
  have hlen : smallDirent.length = 44 := by decide
  rw [smallBootfs, List.append_assoc, slice_append_right hlen, List.take_append_of_le_length,
    List.take_replicate, Nat.min_eq_left (by decide)]
  · rfl
  · rw [List.length_replicate]
    decide

theorem direntNsize_smallBootfs : direntNsize (smallBootfs ++ rest) 0 = 1 := by
  rw [direntNsize, smallBootfs, List.append_assoc, List.getD_eq_getElem?_getD,
    List.getElem?_append_left (by decide)]
  decide

theorem smallBootfs_nodeAt {offset : Nat} (hnode : NodeAt (smallBootfs ++ rest) 0 offset) :
    offset = 0 ∨ offset = 44 := by
  induction hnode with
  | start => exact Or.inl rfl
  | next _ hmagic ih =>
    rcases ih with rfl | rfl
    · rw [nodeLength_smallBootfs]
      exact Or.inr rfl
    · rw [slice_smallBootfs_next] at hmagic
      exact absurd hmagic (by decide)

theorem findDirent_smallBootfs :
    findDirent (smallBootfs ++ rest) (CString.ofBytes [0x61]) 1 0 = some (.ok 0) := by
  rw [findDirent]
  dsimp only
  rw [direntNsize_smallBootfs, slice_smallBootfs rest (by decide), slice_smallBootfs rest (by decide),
    slice_smallBootfs rest (by decide), if_neg (by decide), if_neg (by decide), if_neg (by decide),
    if_neg (by decide), if_neg (by decide), if_neg (by decide), if_neg (by decide)]

end Small

theorem smallImage_parsed {vendor : List Byte} (hvendor : vendor.length ≤ 256)
    (htail : tailOffsetOf (smallImage vendor) = smallBootfs.length + smallRootfs.length) :
    ∃ info, Parsed (smallImage vendor) info ∧ info.bootfsOffset = 0 ∧
      info.tailOffset = smallBootfs.length + smallRootfs.length ∧ info.rootfsOffset + 4 ≤ info.tailOffset ∧
      DirentsInBootfs (smallImage vendor) info (CString.ofBytes [0x61]) := by
  rw [smallImage] at htail ⊢
  have hno : ∀ j < 1, ¬ hasUbi (smallBootfs ++ smallRootfs ++ (smallTail.bytes ++ vendor)) (blockSize * j) := by
    intro j hj
    refine small_not_hasUbi smallBootfs_start length_smallBootfs ?_ (by omega)
    rw [List.length_append, length_tail]
    unfold sizeofTail
    omega
  have hk : smallBootfs.length = blockSize * 1 := by rw [length_smallBootfs, Nat.mul_one]
  have hrootfs : 1024 ≤ smallRootfs.length := by rw [length_smallRootfs]
  obtain ⟨info, hparsed, hbootfs, hrootfsOffset, htailOffset⟩ :=
    @parsed_layout smallBootfs smallRootfs vendor smallTail 1 smallBootfs_start hk ⟨_, rfl⟩ hrootfs hno htail
      (by simp only [smallTail])
  have hfound := findRootfs_found hparsed.rootfs
  have hblock : 41 ≤ blockSize := by decide
  refine ⟨info, hparsed, hbootfs, htailOffset, ?_, fun offset hnode hdirent => ?_⟩
  · rw [hrootfsOffset, htailOffset, length_smallRootfs]
    exact Nat.add_le_add_left (by decide) smallBootfs.length
  · rw [hbootfs, List.append_assoc] at hnode
    rw [List.append_assoc] at hdirent ⊢
    rcases smallBootfs_nodeAt _ hnode with rfl | rfl
    · rw [direntNsize_smallBootfs, Info.bootfsEnd]
      split
      case isTrue hne =>
        obtain ⟨-, hle⟩ := hfound.padding rfl hne
        rw [hrootfsOffset, length_smallBootfs] at hle
        omega
      case isFalse =>
        rw [hrootfsOffset, length_smallBootfs]
        exact hblock
    · have hmagic := hdirent.magic
      rw [slice_smallBootfs_next] at hmagic
      exact absurd hmagic (by decide)

end Immwrt.Bcm4908img
