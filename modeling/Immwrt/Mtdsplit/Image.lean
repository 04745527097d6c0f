import Immwrt.Mtdsplit.Mtd

/-!
# Splitting a uImage or a jImage

Both parsers look for a header at the start of an erase block. An image at the start of the device is followed by
the root file system, and in front of any other image the root file system starts the device. The parsers differ in
the header and in the length of the image.
-/

namespace Immwrt.Mtdsplit

/-- What a parser knows about a header, which it sees through the memory behind a pointer. -/
structure Format where
  headerLen : Nat
  /-- The length of the image, if the header is valid. -/
  length : (Nat → Byte) → Option Int

/-! ### Headers -/

def sizeofUimageHeader : Nat := 64

/-- `IH_OS_LINUX` -/
def ihOsLinux : Byte := 5

/-- What the device tree says about a uImage; the node may be missing or not compatible. -/
structure UimageNode where
  padding : Option Word
  ihMagic : Option Word
  ihType : Option Word
  offset : Option Word
  partitionMagic : Option Word

structure UimageDt where
  extralen : Int
  ihMagic : Word
  ihType : Word
  headerOffset : Word
  partMagic : Word

def uimageParseDt : Option UimageNode → UimageDt
  | none => { extralen := 0, ihMagic := 0x27051956, ihType := 2, headerOffset := 0, partMagic := 0 }
  | some node =>
    { extralen := (node.padding.getD 0).toInt
      ihMagic := node.ihMagic.getD 0x27051956
      ihType := node.ihType.getD 2
      headerOffset := node.offset.getD 0
      partMagic := node.partitionMagic.getD 0 }

def uimageVerifyDefault (buf : Nat → Byte) (header : Nat) (ihMagic ihType : Word) : Bool :=
  ofBe (bytesAt buf header 4) = ihMagic ∧ buf (header + 28) = ihOsLinux ∧
    (buf (header + 30)).setWidth 32 = ihType

def uimageFormat (node : Option UimageNode) : Format :=
  let dt := uimageParseDt node
  { headerLen := sizeofUimageHeader + dt.headerOffset.toNat
    length := fun buf =>
      if dt.headerOffset ≠ 0 ∧ dt.partMagic ≠ 0 ∧ ofBe (bytesAt buf 0 4) ≠ dt.partMagic then none
      else if uimageVerifyDefault buf dt.headerOffset.toNat dt.ihMagic dt.ihType then
        some (sizeofUimageHeader + (ofBe (bytesAt buf (dt.headerOffset.toNat + 12) 4)).toNat +
          dt.headerOffset.toNat + dt.extralen)
      else none }

/-- `STAG_MAGIC`, `SCH2_MAGIC`, `STAG_ID`, `SCH2_VER` -/
def stagMagic : HalfWord := 0x2b24

def sch2Magic : HalfWord := 0x2124

def stagId : Byte := 0x04

def sch2Ver : Byte := 0x02

/-- `MAX_HEADER_LEN`, which is the size of a header too. -/
def maxHeaderLen : Nat := 56

def jimageVerifyDefault (big : Bool) (buf : Nat → Byte) : Bool :=
  cpuHalfWord big (bytesAt buf 2 2) = stagMagic ∧ cpuHalfWord big (bytesAt buf 16 2) = sch2Magic ∧
    buf 0 = buf 1 ∧ buf 1 = stagId ∧ buf 19 = sch2Ver

def jimageFormat (big : Bool) : Format where
  headerLen := maxHeaderLen
  length buf :=
    if jimageVerifyDefault big buf then some (maxHeaderLen + (cpuWord big (bytesAt buf 24 4)).toNat) else none

/-! ### The parser -/

/-- The length in the header of a block, if there is one. -/
def Format.lengthAt (fmt : Format) (mtd : Mtd) (outside : Nat → Byte) (offset : Nat) : Option Int :=
  match readFull mtd offset (fmt.headerLen % 2 ^ 32) with
  | .error _ => none
  | .ok buf => fmt.length (bufferView buf outside)

/-- A length in a `size_t`. -/
def imageSize (len : Int) : Nat := (len % 2 ^ 32).toNat

/-- A turn of the scan for the header, which has an offset and the size of the image. -/
def splitTurn (fmt : Format) (mtd : Mtd) (outside : Nat → Byte) : Nat × Nat → (Nat × Nat) ⊕ (Nat × Nat)
  | (offset, size) =>
    if offset < mtd.size then
      match fmt.lengthAt mtd outside offset with
      | none => .inr (addSize offset mtd.erasesize, 0)
      | some len =>
        if mtd.size < addSize offset (imageSize len) then
          .inr (addSize offset mtd.erasesize, imageSize len)
        else .inl (offset, imageSize len)
    else .inl (offset, size)

/-- The root file system behind an image at the start. -/
def rootfsAfter (mtd : Mtd) : Except Errno (Nat × PartType) → Except Errno (List Partition)
  | .error err => .error err
  | .ok (rootfsOffset, type) =>
    if (mtd.size - rootfsOffset) % 2 ^ 32 = 0 then .error .enodev
    else .ok [
      { name := .kernel, offset := 0, size := rootfsOffset },
      { name := rootfsName type, offset := rootfsOffset, size := (mtd.size - rootfsOffset) % 2 ^ 32 }]

/-- The root file system in front of an image. -/
def rootfsBefore (big : Bool) (mtd : Mtd) (offset size : Nat) : Except Errno (List Partition) :=
  match mtdCheckRootfsMagic big mtd 0 with
  | .error err => .error err
  | .ok type => .ok [
      { name := rootfsName type, offset := 0, size := offset },
      { name := .kernel, offset := offset, size := size }]

def mtdsplitParse (fmt : Format) (big : Bool) (mtd : Mtd) (outside : Nat → Byte) (fuel : Nat) :
    Option (Except Errno (List Partition)) :=
  -- `vmalloc` gives nothing when it is asked for nothing
  if fmt.headerLen % 2 ^ 32 = 0 then some (.error .enomem)
  else
    match Loop.run (splitTurn fmt mtd outside) fuel (0, 0) with
    | none => none
    | some (offset, size) =>
      if size = 0 then some (.error .enodev)
      else if offset = 0 then (mtdFindRootfsFrom big mtd fuel (addSize offset size)).map (rootfsAfter mtd)
      else some (rootfsBefore big mtd offset size)

/-- `__mtdsplit_parse_uimage` -/
def mtdsplitParseUimage (node : Option UimageNode) (big : Bool) (mtd : Mtd) (outside : Nat → Byte) (fuel : Nat) :
    Option (Except Errno (List Partition)) :=
  mtdsplitParse (uimageFormat node) big mtd outside fuel

/-- `__mtdsplit_parse_jimage` with `jimage_verify_default` -/
def mtdsplitParseJimage (big : Bool) (mtd : Mtd) (outside : Nat → Byte) (fuel : Nat) :
    Option (Except Errno (List Partition)) :=
  mtdsplitParse (jimageFormat big) big mtd outside fuel

/-! ### What it is to do -/

/-- A valid header starts at an offset, and its image fits the device. -/
def ImageAt (fmt : Format) (mtd : Mtd) (offset : Nat) : Prop :=
  ∃ hdr len, readFull mtd offset fmt.headerLen = .ok hdr ∧ fmt.length (fun i => hdr.getD i 0) = some len ∧
    0 < len ∧ offset + len ≤ mtd.size

/-- What the partitions for the kernel and the root file system are to be. -/
structure SplitLayout (fmt : Format) (mtd : Mtd) (kernel rootfs : Partition) : Prop where
  names : kernel.name = .kernel ∧ (rootfs.name = .rootfs ∨ rootfs.name = .ubi)
  boundary : mtd.erasesize ∣ kernel.offset
  image : ImageAt fmt mtd kernel.offset
  lowest : ∀ o, mtd.erasesize ∣ o → o < kernel.offset → ¬ ImageAt fmt mtd o
  nonempty : 0 < kernel.size ∧ 0 < rootfs.size
  disjoint : kernel.stop ≤ rootfs.offset ∨ rootfs.stop ≤ kernel.offset
  inside : kernel.stop ≤ mtd.size ∧ rootfs.stop ≤ mtd.size

/-- The partitions that a parser makes are right, and it fails when there is no image. -/
structure SplitRight (fmt : Format) (mtd : Mtd) (parse : Nat → Option (Except Errno (List Partition))) : Prop where
  sound : ∀ fuel parts, parse fuel = some (.ok parts) →
    ∃ kernel rootfs, (parts = [kernel, rootfs] ∨ parts = [rootfs, kernel]) ∧ SplitLayout fmt mtd kernel rootfs
  fails : (∀ o, mtd.erasesize ∣ o → ¬ ImageAt fmt mtd o) → ∃ fuel err, parse fuel = some (.error err)

end Immwrt.Mtdsplit
