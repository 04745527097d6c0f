import Immwrt.Oseama.Image

/-!
# Extracting what was built

An entity is its header, its meta data and its image, and the walk of the extractor finds the next one as
long as the header holds their sizes. The result of the walk is lost on the way, so the command succeeds
whatever the walk found.
-/

namespace Immwrt.Oseama

/-! ### What an entity holds -/

/-- What a meta string appends to an entity that ends at `offset`. -/
def EntityOption.metaBytes (malloc : Nat → Bool) (offset : Nat) : EntityOption → List Byte
  | .m text => text.bytes ++ [0] ++ alignZeros malloc (offset + (text.strlen + 1)) 4
  | .f _ => []
  | .b _ => []

/-- What a file or an offset appends to an entity that ends at `offset`. -/
def EntityOption.imageBytes (malloc : Nat → Bool) (offset : Nat) : EntityOption → List Byte
  | .m _ => []
  | .f input => input.getD []
  | .b target => uptoZeros malloc offset target

/-- What a pass over the options appends from `offset` on. -/
def passBytes (bytes : Nat → EntityOption → List Byte) : Nat → List EntityOption → List Byte
  | _, [] => []
  | offset, opt :: opts => bytes offset opt ++ passBytes bytes (offset + (bytes offset opt).length) opts

def metaOf (malloc : Nat → Bool) (opts : List EntityOption) : List Byte :=
  passBytes (EntityOption.metaBytes malloc) sizeofEntity opts

def imageOf (malloc : Nat → Bool) (opts : List EntityOption) : List Byte :=
  passBytes (EntityOption.imageBytes malloc) (sizeofEntity + (metaOf malloc opts).length) opts

/-- `state` after an append of meta data. -/
def EntityState.withMeta (state : EntityState) (bytes : List Byte) : EntityState where
  out := state.out.append bytes
  metasize := state.metasize + bytes.length
  imagesize := state.imagesize

/-- `state` after an append of image data. -/
def EntityState.withImage (state : EntityState) (bytes : List Byte) : EntityState where
  out := state.out.append bytes
  metasize := state.metasize
  imagesize := state.imagesize + bytes.length

theorem sbytes_of_advance {out : Cursor} {appended : Appended} {bytes : List Byte}
    (hadvance : out.advance appended = out.append bytes) : appended.sbytes = bytes.length := by
  have hoffset := congrArg Cursor.offset hadvance
  rw [Cursor.advance_offset] at hoffset
  exact Nat.add_left_cancel hoffset

theorem EntityState.addMeta_eq {state : EntityState} {appended : Appended} {bytes : List Byte}
    (hadvance : state.out.advance appended = state.out.append bytes) :
    state.addMeta appended = state.withMeta bytes := by
  rw [EntityState.addMeta, hadvance, sbytes_of_advance hadvance, EntityState.withMeta]

theorem EntityState.addImage_eq {state : EntityState} {appended : Appended} {bytes : List Byte}
    (hadvance : state.out.advance appended = state.out.append bytes) :
    state.addImage appended = state.withImage bytes := by
  rw [EntityState.addImage, hadvance, sbytes_of_advance hadvance, EntityState.withImage]

theorem EntityState.withMeta_nil (state : EntityState) : state.withMeta [] = state := by
  simp [EntityState.withMeta, Cursor.append]

theorem EntityState.withImage_nil (state : EntityState) : state.withImage [] = state := by
  simp [EntityState.withImage, Cursor.append]

theorem EntityState.withMeta_withMeta (state : EntityState) (front back : List Byte) :
    (state.withMeta front).withMeta back = state.withMeta (front ++ back) := by
  simp [EntityState.withMeta, Cursor.append, Nat.add_assoc]

theorem EntityState.withImage_withImage (state : EntityState) (front back : List Byte) :
    (state.withImage front).withImage back = state.withImage (front ++ back) := by
  simp [EntityState.withImage, Cursor.append, Nat.add_assoc]

theorem EntityState.metaOption_eq (malloc : Nat → Bool) (state : EntityState) (opt : EntityOption) :
    state.metaOption malloc opt = state.withMeta (opt.metaBytes malloc state.out.offset) := by
  cases opt with
  | m text =>
    have htext : state.addMeta (.ok (state.out.file ++ (text.bytes ++ [0]), text.strlen + 1)) =
        state.withMeta (text.bytes ++ [0]) := by
      refine EntityState.addMeta_eq ?_
      simp [Cursor.advance, Cursor.append, CString.strlen]
    rw [EntityState.metaOption, htext, oseamaEntityAlign, EntityState.addMeta_eq (Cursor.advance_appendAlign malloc _ 4), EntityState.withMeta_withMeta,
      EntityOption.metaBytes]
    simp [EntityState.withMeta, Cursor.append, CString.strlen]
  | f input => exact (EntityState.withMeta_nil state).symm
  | b target => exact (EntityState.withMeta_nil state).symm

theorem EntityState.imageOption_eq (malloc : Nat → Bool) (state : EntityState) (opt : EntityOption) :
    state.imageOption malloc opt = state.withImage (opt.imageBytes malloc state.out.offset) := by
  cases opt with
  | m text => exact (EntityState.withImage_nil state).symm
  | f input => exact EntityState.addImage_eq (Cursor.advance_appendFile (by decide) state.out input)
  | b target => exact EntityState.addImage_eq (Cursor.advance_appendUpto malloc state.out target)

theorem foldl_metaOption (malloc : Nat → Bool) (opts : List EntityOption) (state : EntityState) :
    opts.foldl (EntityState.metaOption malloc) state =
      state.withMeta (passBytes (EntityOption.metaBytes malloc) state.out.offset opts) := by
  induction opts generalizing state with
  | nil => exact (EntityState.withMeta_nil state).symm
  | cons opt opts ih =>
    rw [List.foldl_cons, ih, EntityState.metaOption_eq, EntityState.withMeta_withMeta]
    rfl

theorem foldl_imageOption (malloc : Nat → Bool) (opts : List EntityOption) (state : EntityState) :
    opts.foldl (EntityState.imageOption malloc) state =
      state.withImage (passBytes (EntityOption.imageBytes malloc) state.out.offset opts) := by
  induction opts generalizing state with
  | nil => exact (EntityState.withImage_nil state).symm
  | cons opt opts ih =>
    rw [List.foldl_cons, ih, EntityState.imageOption_eq, EntityState.withImage_withImage]
    rfl

/-- The header of an entity with the given meta data and image. -/
def entityHeader (md5 : List Byte → Fin 16 → Byte) (metadata image : List Byte) : EntityHeader where
  magic := seamaMagic
  reserved := 0
  metasize := BitVec.ofNat 16 metadata.length
  imagesize := BitVec.ofNat 32 image.length
  md5 := md5 image

theorem length_bytes (hdr : EntityHeader) : hdr.bytes.length = sizeofEntity := rfl

/-- An entity is its header, its meta data and its image. -/
theorem oseamaEntity_eq (md5 : List Byte → Fin 16 → Byte) (malloc : Nat → Bool)
    (opts : List EntityOption) :
    oseamaEntity md5 malloc opts =
      (entityHeader md5 (metaOf malloc opts) (imageOf malloc opts)).bytes ++
        (metaOf malloc opts ++ imageOf malloc opts) := by
  have hstate : opts.foldl (EntityState.imageOption malloc)
      (opts.foldl (EntityState.metaOption malloc) entityStart) =
      (entityStart.withMeta (metaOf malloc opts)).withImage (imageOf malloc opts) := by
    rw [foldl_metaOption, foldl_imageOption]
    rfl
  rw [oseamaEntity, hstate]
  generalize imageOf malloc opts = image
  generalize metaOf malloc opts = metadata
  have hfile : ((entityStart.withMeta metadata).withImage image).out.file =
      List.replicate sizeofEntity 0 ++ (metadata ++ image) := List.append_assoc _ _ _
  have hmeta : ((entityStart.withMeta metadata).withImage image).metasize = metadata.length :=
    Nat.zero_add _
  have himage : ((entityStart.withMeta metadata).withImage image).imagesize = image.length :=
    Nat.zero_add _
  have hdrop : (List.replicate sizeofEntity 0 ++ (metadata ++ image)).drop
      (sizeofEntity + metadata.length) = image := by
    rw [← List.append_assoc]
    exact List.drop_left' (by simp)
  rw [hfile, hmeta, himage, oseamaEntityWriteHdr, hdrop, freadUpto_eq streaming_append (by decide),
    List.take_length, List.nil_append]
  dsimp only
  rw [splice, List.take_zero, List.nil_append, length_bytes, Nat.zero_add,
    List.drop_left' List.length_replicate]
  rfl

/-! ### The walk -/

section Walk

variable (md5 : List Byte → Fin 16 → Byte) (malloc : Nat → Bool)

/-- The sizes of an entity fit the fields of its header. -/
def Fits (opts : List EntityOption) : Prop :=
  (metaOf malloc opts).length < 2 ^ 16 ∧ (imageOf malloc opts).length < 2 ^ 32

/-- The length of an entity by the sizes in its header. -/
def recordedLength (opts : List EntityOption) : Nat :=
  sizeofEntity + (metaOf malloc opts).length % 2 ^ 16 + (imageOf malloc opts).length % 2 ^ 32

theorem length_oseamaEntity (opts : List EntityOption) :
    (oseamaEntity md5 malloc opts).length =
      sizeofEntity + (metaOf malloc opts).length + (imageOf malloc opts).length := by
  rw [oseamaEntity_eq, List.length_append, List.length_append, length_bytes, Nat.add_assoc]

theorem recordedLength_eq_iff (opts : List EntityOption) :
    recordedLength malloc opts = (oseamaEntity md5 malloc opts).length ↔ Fits malloc opts := by
  rw [length_oseamaEntity, recordedLength, Fits]
  omega

/-- One round of the walk at the start of an entity. -/
theorem oseamaExtractEntity_cons (entityIdx fuel i : Nat) (opts : List EntityOption) (rest : List Byte) :
    oseamaExtractEntity entityIdx (fuel + 1) (oseamaEntity md5 malloc opts ++ rest) i =
      if i ≠ entityIdx then
        oseamaExtractEntity entityIdx fuel
          ((oseamaEntity md5 malloc opts ++ rest).drop (recordedLength malloc opts)) (i + 1)
      else
        { err := if recordedLength malloc opts - (oseamaEntity md5 malloc opts ++ rest).length ≠ 0
            then some .eio else none
          out := (oseamaEntity md5 malloc opts ++ rest).take (recordedLength malloc opts) } := by
  have hlen : ¬ (oseamaEntity md5 malloc opts ++ rest).length < sizeofEntity := by
    rw [List.length_append, length_oseamaEntity]
    omega
  have hrecorded : recordedLength malloc opts =
      sizeofEntity + ((metaOf malloc opts).length % 2 ^ 16 + (imageOf malloc opts).length % 2 ^ 32) :=
    Nat.add_assoc _ _ _
  have hmagic : ofBe (slice (oseamaEntity md5 malloc opts ++ rest) 0 4) = seamaMagic := by
    rw [oseamaEntity_eq, List.append_assoc]
    exact ofBe_wordBe _
  have hmeta : (ofBe16 (slice (oseamaEntity md5 malloc opts ++ rest) 6 2)).toNat =
      (metaOf malloc opts).length % 2 ^ 16 := by
    rw [oseamaEntity_eq, List.append_assoc, ← BitVec.toNat_ofNat]
    exact congrArg BitVec.toNat (ofBe16_u16be _)
  have himage : (ofBe (slice (oseamaEntity md5 malloc opts ++ rest) 8 4)).toNat =
      (imageOf malloc opts).length % 2 ^ 32 := by
    rw [oseamaEntity_eq, List.append_assoc, ← BitVec.toNat_ofNat]
    exact congrArg BitVec.toNat (ofBe_wordBe _)
  rw [oseamaExtractEntity, if_neg hlen, hmagic, if_neg (by simp), hmeta, himage]
  dsimp only
  rw [freadUpto_eq streaming_append (by decide), List.nil_append, ← hrecorded, recordedLength]

/-- The walk passes over entities whose sizes fit. -/
theorem oseamaExtractEntity_skip {entityIdx fuel i : Nat} {entities : List (List EntityOption)}
    (rest : List Byte) (hfits : ∀ opts ∈ entities, Fits malloc opts)
    (hidx : entityIdx = i + entities.length) :
    oseamaExtractEntity entityIdx (entities.length + fuel)
        ((entities.map (oseamaEntity md5 malloc)).flatten ++ rest) i =
      oseamaExtractEntity entityIdx fuel rest entityIdx := by
  induction entities generalizing i with
  | nil =>
    rw [List.length_nil, Nat.add_zero] at hidx
    rw [hidx, List.length_nil, Nat.zero_add]
    rfl
  | cons opts entities ih =>
    rw [List.length_cons] at hidx
    have hrecorded := (recordedLength_eq_iff md5 malloc opts).2 (hfits opts List.mem_cons_self)
    rw [List.map_cons, List.flatten_cons, List.append_assoc, List.length_cons, Nat.succ_add,
      oseamaExtractEntity_cons, if_pos (by omega), hrecorded, List.drop_left]
    exact ih (fun opts hopts => hfits opts (List.mem_cons_of_mem _ hopts)) (by omega)

end Walk

/-! ### Containers -/

theorem length_le_length_flatten {files : List (List Byte)} (hfiles : ∀ file ∈ files, 1 ≤ file.length) :
    files.length ≤ files.flatten.length := by
  induction files with
  | nil => exact le_rfl
  | cons file files ih =>
    have hfile := hfiles file List.mem_cons_self
    have hrest := ih fun file hmem => hfiles file (List.mem_cons_of_mem _ hmem)
    rw [List.length_cons, List.flatten_cons, List.length_append]
    omega

/-- A container: a seal header, its meta data and the entities, of which a file has the first `size`
bytes. -/
structure Container where
  reserved : HalfWord
  metadata : List Byte
  entities : List (List EntityOption)
  size : Nat
  metasize : metadata.length < 2 ^ 16

namespace Container

variable (md5 : List Byte → Fin 16 → Byte) (malloc : Nat → Bool) (c : Container)

def sealHeader : SealHeader where
  magic := seamaMagic
  reserved := c.reserved
  metasize := BitVec.ofNat 16 c.metadata.length
  imagesize := 0

def files : List (List Byte) := c.entities.map (oseamaEntity md5 malloc)

def bytes : List Byte := (c.sealHeader.bytes ++ (c.metadata ++ (c.files md5 malloc).flatten)).take c.size

/-- The container holds the whole `k`-th entity. -/
structure Complete (k : Nat) : Prop where
  index : k < c.entities.length
  room : sizeofSeal + c.metadata.length + ((c.files md5 malloc).take (k + 1)).flatten.length ≤ c.size

/-- Extracting entity `k` succeeds exactly when the container holds it, and then gives its file. -/
def Agrees (k : Nat) : Prop :=
  (c.Complete md5 malloc k → ∃ file, (c.files md5 malloc)[k]? = some file ∧
    oseamaExtract (c.bytes md5 malloc) k = { err := none, out := file }) ∧
  (¬ c.Complete md5 malloc k → (oseamaExtract (c.bytes md5 malloc) k).err ≠ none)

variable {md5 malloc c}

theorem length_sealHeader : c.sealHeader.bytes.length = sizeofSeal := rfl

/-- Behind the seal and its meta data a container that holds entity `k` has the entities up to it. -/
theorem Complete.drop_bytes {k : Nat} (hcomplete : c.Complete md5 malloc k) :
    ∃ rest, (c.bytes md5 malloc).drop (sizeofSeal + c.metadata.length) =
      ((c.files md5 malloc).take (k + 1)).flatten ++ rest := by
  have hdrop : (c.sealHeader.bytes ++ (c.metadata ++ (c.files md5 malloc).flatten)).drop
      (sizeofSeal + c.metadata.length) = (c.files md5 malloc).flatten := by
    rw [← List.append_assoc]
    exact List.drop_left' (by rw [List.length_append, length_sealHeader])
  have hfiles : (c.files md5 malloc).flatten =
      ((c.files md5 malloc).take (k + 1)).flatten ++ ((c.files md5 malloc).drop (k + 1)).flatten := by
    rw [← List.flatten_append, List.take_append_drop]
  have hroom := hcomplete.room
  rw [bytes, List.drop_take, hdrop, hfiles, List.take_append, List.take_of_length_le (by omega)]
  exact ⟨_, rfl⟩

theorem Complete.length_le {k : Nat} (hcomplete : c.Complete md5 malloc k) :
    sizeofSeal + c.metadata.length + ((c.files md5 malloc).take (k + 1)).flatten.length ≤
      (c.bytes md5 malloc).length := by
  have hroom := hcomplete.room
  have hle : ((c.files md5 malloc).take (k + 1)).flatten.length ≤ (c.files md5 malloc).flatten.length := by
    conv_rhs => rw [← List.take_append_drop (k + 1) (c.files md5 malloc), List.flatten_append,
      List.length_append]
    exact Nat.le_add_right _ _
  rw [bytes, List.length_take, List.length_append, length_sealHeader, List.length_append]
  omega

/-- A container with a whole seal header gives every extraction the result 0. -/
theorem oseamaExtract_err (hsize : sizeofSeal ≤ (c.bytes md5 malloc).length) (k : Nat) :
    (oseamaExtract (c.bytes md5 malloc) k).err = none := by
  rw [oseamaExtract, if_neg (by omega), if_neg (by omega)]

theorem flatten_take_files {k : Nat} (hk : k < c.entities.length) :
    ((c.files md5 malloc).take (k + 1)).flatten =
      ((c.entities.take k).map (oseamaEntity md5 malloc)).flatten ++
        oseamaEntity md5 malloc (c.entities.get ⟨k, hk⟩) := by
  unfold files
  rw [← List.map_take, List.take_succ_eq_append_getElem hk, List.map_append, List.flatten_append]
  simp

/-- When the entities before it fit, entity `k` is where the walk arrives. -/
theorem Complete.extract {k : Nat} (hcomplete : c.Complete md5 malloc k)
    (hfits : ∀ opts ∈ c.entities.take k, Fits malloc opts) :
    ∃ rest, oseamaExtract (c.bytes md5 malloc) k =
      { err := none
        out := (oseamaEntity md5 malloc (c.entities.get ⟨k, hcomplete.index⟩) ++ rest).take
          (recordedLength malloc (c.entities.get ⟨k, hcomplete.index⟩)) } := by
  obtain ⟨rest, hrest⟩ := hcomplete.drop_bytes
  have hlength := hcomplete.length_le
  have hmeta : (ofBe16 (slice (c.bytes md5 malloc) 6 2)).toNat = c.metadata.length := by
    have hslice : slice (c.bytes md5 malloc) 6 2 = u16be c.sealHeader.metasize := by
      rw [bytes, slice_take (by have := hcomplete.room; unfold sizeofSeal at this; omega)]
      rfl
    rw [hslice, ofBe16_u16be]
    exact (BitVec.toNat_ofNat _ _).trans (Nat.mod_eq_of_lt c.metasize)
  have hfiles : ((c.files md5 malloc).take (k + 1)).flatten ++ rest =
      ((c.entities.take k).map (oseamaEntity md5 malloc)).flatten ++
        (oseamaEntity md5 malloc (c.entities.get ⟨k, hcomplete.index⟩) ++ rest) := by
    rw [flatten_take_files hcomplete.index, List.append_assoc]
  have hcount : k ≤ (c.bytes md5 malloc).length := by
    have hlen : ∀ file ∈ (c.files md5 malloc).take (k + 1), 1 ≤ file.length := by
      intro file hfile
      obtain ⟨opts, -, rfl⟩ := List.mem_map.1 (List.mem_of_mem_take hfile)
      rw [length_oseamaEntity]
      have hpos : 1 ≤ sizeofEntity := by decide
      omega
    have hsum := length_le_length_flatten hlen
    have hk := hcomplete.index
    rw [List.length_take, show (c.files md5 malloc).length = c.entities.length from List.length_map _]
      at hsum
    omega
  obtain ⟨fuel, hfuel⟩ : ∃ fuel, (c.bytes md5 malloc).length + 1 = k + (fuel + 1) :=
    ⟨(c.bytes md5 malloc).length - k, by omega⟩
  have hwalk : oseamaExtractEntity k ((c.entities.take k).length + (fuel + 1))
      (((c.entities.take k).map (oseamaEntity md5 malloc)).flatten ++
        (oseamaEntity md5 malloc (c.entities.get ⟨k, hcomplete.index⟩) ++ rest)) 0 =
      oseamaExtractEntity k (fuel + 1)
        (oseamaEntity md5 malloc (c.entities.get ⟨k, hcomplete.index⟩) ++ rest) k := by
    refine oseamaExtractEntity_skip md5 malloc _ hfits ?_
    rw [List.length_take, min_eq_left hcomplete.index.le, Nat.zero_add]
  rw [List.length_take, min_eq_left hcomplete.index.le] at hwalk
  refine ⟨rest, ?_⟩
  rw [oseamaExtract, if_neg (by omega), if_neg (by omega), hmeta]
  dsimp only
  rw [hrest, hfiles, hfuel, Int.toNat_natCast, hwalk, oseamaExtractEntity_cons, if_neg (by simp)]

theorem Complete.getElem?_files {k : Nat} (hcomplete : c.Complete md5 malloc k) :
    (c.files md5 malloc)[k]? = some (oseamaEntity md5 malloc (c.entities.get ⟨k, hcomplete.index⟩)) := by
  unfold files
  rw [List.getElem?_map, List.getElem?_eq_getElem hcomplete.index]
  rfl

/-- With fitting entities before it, a complete entity is extracted exactly when it fits itself. -/
theorem Complete.agrees_iff {k : Nat} (hcomplete : c.Complete md5 malloc k)
    (hfits : ∀ opts ∈ c.entities.take k, Fits malloc opts) :
    c.Agrees md5 malloc k ↔ Fits malloc (c.entities.get ⟨k, hcomplete.index⟩) := by
  obtain ⟨rest, hextract⟩ := hcomplete.extract hfits
  have hfile := hcomplete.getElem?_files
  rw [Agrees, hextract]
  generalize c.entities.get ⟨k, hcomplete.index⟩ = opts at hfile ⊢
  rw [← recordedLength_eq_iff md5 malloc opts]
  constructor
  · intro hagrees
    obtain ⟨file, hget, heq⟩ := hagrees.1 hcomplete
    obtain rfl : oseamaEntity md5 malloc opts = file := Option.some.inj (hfile.symm.trans hget)
    have hlen := congrArg (fun e : Extracted => e.out.length) heq
    simp only [List.length_take, List.length_append] at hlen
    have hle : recordedLength malloc opts ≤ (oseamaEntity md5 malloc opts).length := by
      rw [length_oseamaEntity, recordedLength]
      have hmeta := Nat.mod_le (metaOf malloc opts).length (2 ^ 16)
      have himage := Nat.mod_le (imageOf malloc opts).length (2 ^ 32)
      omega
    omega
  · intro hrecorded
    refine ⟨fun _ => ⟨_, hfile, ?_⟩, fun hnot => absurd hcomplete hnot⟩
    rw [hrecorded, List.take_left]

/-- `oseama extract` gives the right answer for the entities up to `k` exactly when the file ends in the
seal header, or when it holds all these entities and their sizes fit their headers. In particular it never
does for an entity that a container does not hold. -/
theorem extract_agrees_iff (md5 : List Byte → Fin 16 → Byte) (malloc : Nat → Bool) (c : Container)
    (k : Nat) :
    (∀ i ≤ k, c.Agrees md5 malloc i) ↔
      (c.bytes md5 malloc).length < sizeofSeal ∨
        c.Complete md5 malloc k ∧ ∀ opts ∈ c.entities.take (k + 1), Fits malloc opts := by
  constructor
  · intro hagrees
    by_cases hsize : (c.bytes md5 malloc).length < sizeofSeal
    · exact Or.inl hsize
    · refine Or.inr ?_
      have hcomplete : ∀ i ≤ k, c.Complete md5 malloc i := by
        intro i hi
        by_contra hnot
        exact (hagrees i hi).2 hnot (oseamaExtract_err (by omega) i)
      refine ⟨hcomplete k le_rfl, ?_⟩
      have hfits : ∀ i ≤ k + 1, ∀ opts ∈ c.entities.take i, Fits malloc opts := by
        intro i
        induction i with
        | zero => simp
        | succ i ih =>
          intro hi opts hopts
          have hi' : i ≤ k := by omega
          rw [List.take_succ_eq_append_getElem (hcomplete i hi').index] at hopts
          rcases List.mem_append.1 hopts with hopts | hopts
          · exact ih (by omega) opts hopts
          · rw [List.mem_singleton.1 hopts]
            exact ((hcomplete i hi').agrees_iff (ih (by omega))).1 (hagrees i hi')
      exact hfits (k + 1) le_rfl
  · rintro (hsize | ⟨hcomplete, hfits⟩) i hi
    · constructor
      · intro hcomplete
        have hle := hcomplete.length_le
        omega
      · intro _
        rw [oseamaExtract, if_neg (by omega), if_pos hsize]
        exact Option.some_ne_none _
    · have hcompleteI : c.Complete md5 malloc i := by
        refine ⟨lt_of_le_of_lt hi hcomplete.index, le_trans ?_ hcomplete.room⟩
        have hmono := (List.take_sublist_take_left (l := c.files md5 malloc)
          (show i + 1 ≤ k + 1 by omega)).flatten.length_le
        omega
      refine (hcompleteI.agrees_iff fun opts hopts => hfits opts ?_).2 (hfits _ ?_)
      · exact List.take_subset_take_left c.entities (by omega) hopts
      · refine List.take_subset_take_left c.entities (show i + 1 ≤ k + 1 by omega) ?_
        rw [List.take_succ_eq_append_getElem hcompleteI.index]
        exact List.mem_append_right _ (List.mem_singleton.2 rfl)

end Container

/-- The digest of the empty image. -/
def md5OfEmpty : Fin 16 → Byte :=
  ![0xd4, 0x1d, 0x8c, 0xd9, 0x8f, 0x00, 0xb2, 0x04, 0xe9, 0x80, 0x09, 0x98, 0xec, 0xf8, 0x42, 0x7e]

/-- A container with one entity, which has neither meta data nor an image. -/
def oneEntity : Container where
  reserved := 0
  metadata := []
  entities := [[]]
  size := 40
  metasize := Nat.two_pow_pos 16

/-- The second entity of a container with one entity is extracted without an error. -/
theorem missing_entity_extracted :
    ¬ oneEntity.Agrees (fun _ => md5OfEmpty) (fun _ => true) 1 := by
  intro hagrees
  have hnot : ¬ oneEntity.Complete (fun _ => md5OfEmpty) (fun _ => true) 1 :=
    fun hcomplete => absurd hcomplete.index (by decide)
  exact hagrees.2 hnot (Container.oseamaExtract_err (by decide +kernel) 1)

end Immwrt.Oseama
