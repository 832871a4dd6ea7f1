import SecureCore.Recovery

/-! Which containers `open_or_create` admits. Opening checks the magic, the key and
the range of `total_blocks`; it compares neither the version nor the length of
the file with what the superblock says. Whether all later writes stay in place
depends on that length. -/

namespace SecureCore.VirtualVolume

open FaultyFile FallibleState ByteImage

structure Extent (L : Nat) (v : Volume) : Prop where
  length : v.file.bytes.length = L
  blocks : v.totalBlocks * blockSize ≤ L
  lower : dataStartBlock ≤ v.totalBlocks
  width : v.blockBitmap.length = bitmapBlocks * blockSize

namespace Extent

variable {V : VaultPrimitives} {α : Type} {L : Nat} {v : Volume}

def At (L position : Nat) (v : Volume) : Prop := Extent L v ∧ v.file.cursor = position

theorem file (h : Extent L v) {f : File} (length : f.bytes.length = L) :
    Extent L { v with file := f } :=
  ⟨length, h.blocks, h.lower, h.width⟩

theorem onFile_quiet {m : FileM α} (quiet : Quiet m) : Preserves (Extent L) (onFile m) := by
  intro v h
  obtain ⟨cursor, script, hfinal⟩ := quiet v.file
  rw [finalState_onFile, hfinal]
  exact h.file h.length

theorem onFile_seek (position : Nat) :
    Spec (Extent L) (onFile (seek position)) (fun _ => At L position) (fun _ => Extent L) := by
  intro v h
  cases hrun : seek position v.file with
  | ok a f =>
    rw [onFile_ok hrun, ok_of_seek hrun]
    exact ⟨h.file h.length, rfl⟩
  | error e f =>
    have hkept := onFile_quiet (seek_quiet position) v h
    rwa [onFile_error hrun] at hkept ⊢

theorem put_length {f : File} {data : Bytes} (length : f.bytes.length = L)
    (fits : f.cursor + data.length ≤ L) : (put data f).bytes.length = L := by
  rw [put]
  exact (splice_length (by omega)).trans length

theorem onFile_writeAll {position : Nat} {data : Bytes} (fits : position + data.length ≤ L) :
    Spec (At L position) (onFile (writeAll data)) (fun _ => At L (position + data.length))
      (fun _ => Extent L) := by
  rintro v ⟨h, hcursor⟩
  have hbound : v.file.cursor + data.length ≤ L := hcursor ▸ fits
  rcases writeAll_cases data v.file with hrun | ⟨code, progress, hrun⟩
  · rw [onFile_ok hrun]
    exact ⟨h.file (put_length h.length hbound), congrArg (· + data.length) hcursor⟩
  · have hpart : v.file.cursor + (data.take progress).length ≤ L := by
      rw [List.length_take]
      omega
    rw [onFile_error hrun]
    exact h.file (put_length h.length hpart)

theorem writeBitmap : Preserves (Extent L) writeBitmap := by
  refine Spec.preserves (Spec.bind (onFile_seek _) fun _ => Spec.get_bind fun w => ?_)
  rintro v ⟨rfl, h⟩
  have hmeta : bitmapStartBlock * blockSize + bitmapBlocks * blockSize =
    dataStartBlock * blockSize := rfl
  have hlower := Nat.mul_le_mul_right blockSize h.1.lower
  have hblocks := h.1.blocks
  have fits : bitmapStartBlock * blockSize + v.blockBitmap.length ≤ L := by
    rw [h.1.width]
    omega
  refine Spec.bind (onFile_writeAll fits) (fun _ => ?_) v h
  refine Spec.consequence ?_ (fun _ h => h.1) (fun _ _ h => h) (fun _ _ h => h)
  exact Spec.bind (Spec.of_preserves (onFile_quiet touch_quiet)) fun _ =>
    Spec.of_preserves (onFile_quiet freezeTimestamps_quiet)

theorem tolerates : Tolerates (Extent L) where
  quiet := onFile_quiet
  memory _ _ _ h width := ⟨h.length, h.blocks, h.lower, width.trans h.width⟩
  bitmap := writeBitmap

theorem checkDataBlock (blockIdx : Nat) :
    Spec (Extent L) (checkDataBlock blockIdx)
      (fun _ v => Extent L v ∧ blockIdx * blockSize + blockSize ≤ L) (fun _ => Extent L) := by
  intro v h
  by_cases range : v.inRange blockIdx
  · rw [checkDataBlock_ok range]
    exact ⟨h, range.bounds.2.trans h.blocks⟩
  · rw [checkDataBlock_error range]
    exact h

theorem writeBlock (tagged : V.ChachaTagged) (blockIdx : Nat) (plaintext : Exactly payloadSize)
    (nonce : Exactly nonceSize) : Preserves (Extent L) (writeBlock V blockIdx plaintext nonce) := by
  refine Spec.preserves (Spec.bind (checkDataBlock blockIdx) fun _ => Spec.get_bind fun v => ?_)
  dsimp only
  split
  · exact Spec.of_throw fun _ h => h.2.1
  · next ciphertext hseal =>
    rintro w ⟨-, h, hblock⟩
    have hwidth := tagged hseal
    rw [plaintext.property] at hwidth
    have hsizes : nonceSize + (payloadSize + 16) = blockSize := rfl
    have hnonce := nonce.property
    refine Spec.bind (onFile_seek _) (fun _ => ?_) w h
    refine Spec.bind (onFile_writeAll (by omega)) fun _ =>
      Spec.bind (onFile_writeAll (by omega)) fun _ => ?_
    exact (Spec.of_preserves (onFile_quiet freezeTimestamps_quiet)).consequence
      (fun _ h => h.1) (fun _ _ h => h) (fun _ _ h => h)

theorem writeBlockRaw (blockIdx : Nat) (data : Exactly blockSize) :
    Preserves (Extent L) (writeBlockRaw blockIdx data) := by
  refine Spec.preserves (Spec.bind (checkDataBlock blockIdx) fun _ => ?_)
  rintro v ⟨h, hblock⟩
  have hdata := data.property
  refine Spec.bind (onFile_seek _) (fun _ => ?_) v h
  exact (onFile_writeAll (by omega)).consequence (fun _ h => h) (fun _ _ h => h.1) (fun _ _ h => h)

theorem program (tagged : V.ChachaTagged) (op : VolumeOp) :
    Preserves (Extent L) (op.program V) :=
  tolerates.program (writeBlock tagged) writeBlockRaw op

end Extent

/-- A volume after operations on it, with any system calls failing at any time. -/
inductive Later (V : VaultPrimitives) (v₀ : Volume) : Volume → Prop where
  | same : Later V v₀ v₀
  | step {v : Volume} (h : Later V v₀ v) (script : List (Option Fault)) (op : VolumeOp) :
      Later V v₀ (finalState (op.program V (v.facing script)))

/-- The version is the one this code writes, every block lies within the file, and
nothing done to the volume changes the file's length. -/
structure SoundContainer (V : VaultPrimitives) (v : Volume) : Prop where
  version : ∃ sb, readSuperblock (slice v.file.bytes 0 blockSize) = some sb ∧
    sb.version = vaultVersion
  extent : v.totalBlocks * blockSize ≤ v.file.bytes.length
  inside : ∀ blockIdx w, checkDataBlock blockIdx v = .ok () w →
    blockIdx * blockSize + blockSize ≤ v.file.bytes.length
  inPlace : ∀ w, Later V v w → w.file.bytes.length = v.file.bytes.length

/-- The superblock of an image names this code's version and no more blocks than
the image has. -/
def Faithful (image : Bytes) : Prop :=
  ∀ sb, readSuperblock (slice image 0 blockSize) = some sb →
    sb.version = vaultVersion ∧ sb.totalBlocks * blockSize ≤ image.length

section Opening

variable {V : VaultPrimitives} {masterKey : Bytes} {n L : Nat} {v w : Volume} {f f' : File}

theorem later_extent (tagged : V.ChachaTagged) (h : Extent L v) (later : Later V v w) :
    Extent L w := by
  induction later with
  | same => exact h
  | step later script op ih => exact Extent.program tagged op _ (ih.file ih.length)

theorem soundContainer_of_extent (tagged : V.ChachaTagged) (h : Extent v.file.bytes.length v)
    (version : ∃ sb, readSuperblock (slice v.file.bytes 0 blockSize) = some sb ∧
      sb.version = vaultVersion) : SoundContainer V v where
  version := version
  extent := h.blocks
  inside := by
    intro blockIdx w accepted
    by_cases range : v.inRange blockIdx
    · exact range.bounds.2.trans h.blocks
    · rw [checkDataBlock_error range] at accepted
      cases accepted
  inPlace := fun w later => (later_extent tagged h later).length

theorem isEmpty_eq (present : f.exists? = true) (nonempty : f.bytes ≠ []) :
    isEmpty f = .ok (f.script.headD none).isSome { f with script := f.script.tail } := by
  cases hnext : f.script.headD none with
  | none =>
    have hlength : (f.bytes.length == 0) = false := by simpa using nonempty
    rw [isEmpty, metadata_works hnext present]
    dsimp only
    rw [hlength]
    rfl
  | some fault =>
    rw [isEmpty, metadata, call_fails hnext]
    rfl

theorem works_two_iff (present : f.exists? = true) :
    Works 2 f ↔ f.script.headD none = none ∧ f.script.tail.headD none = none := by
  rw [works_succ, works_succ]
  simp [Works, present]

theorem openOrCreate_works (works : Works 2 f) (nonempty : f.bytes ≠ [])
    (capacity : n ≤ maxDataBlocks) : openOrCreate V masterKey n f =
      openExisting V masterKey { f with script := f.script.tail.tail } := by
  have present := works.1
  obtain ⟨first, second⟩ := (works_two_iff present).mp works
  rw [openOrCreate, if_neg (by omega), bind_ok (isEmpty_eq present nonempty),
    bind_ok (pathExists_eq _), first, second, present]
  rfl

theorem createNew_of_openOrCreate (present : f.exists? = true) (nonempty : f.bytes ≠ [])
    (capacity : n ≤ maxDataBlocks) (fails : ¬ Works 2 f)
    (opens : openOrCreate V masterKey n f = .ok v f') :
    ∃ g, createNew V masterKey n g = .ok v f' := by
  have hbranch : ((f.script.tail.headD none).isNone && f.exists? &&
      !(f.script.headD none).isSome) = false := by
    rw [works_two_iff present] at fails
    cases hfirst : f.script.headD none with
    | some fault => simp
    | none =>
      cases hsecond : f.script.tail.headD none with
      | some fault => simp
      | none => exact absurd ⟨hfirst, hsecond⟩ fails
  rw [openOrCreate, if_neg (by omega), bind_ok (isEmpty_eq present nonempty),
    bind_ok (pathExists_eq _)] at opens
  simp only [hbranch] at opens
  obtain ⟨exists?, g, -, opens⟩ := ok_of_bind opens
  cases exists? with
  | false => exact ⟨g, opens⟩
  | true =>
    obtain ⟨⟨⟩, g, -, opens⟩ := ok_of_bind opens
    exact ⟨g, opens⟩

end Opening

section Samples

theorem length_written_end (v : Volume) (data : Bytes) :
    (v.written v.file.bytes.length data).file.bytes.length =
      v.file.bytes.length + data.length := by
  change (splice v.file.bytes v.file.bytes.length data).length = _
  rw [splice_of_le (Nat.le_refl _)]
  simp

def sampleBlock : Exactly blockSize := ⟨List.replicate blockSize 0, List.length_replicate⟩

def sampleImage (version stored : Nat) : Bytes :=
  writeSuperblock ⟨version, dataStartBlock + 3, 3, hashMasterKey symbolicVault sampleKey⟩ ++
    List.replicate ((bitmapBlocks + stored) * blockSize) 0

def sampleFile (version stored : Nat) : File := ⟨true, sampleImage version stored, 0, []⟩

variable {version stored : Nat}

theorem sampleHead_length :
    (writeSuperblock
      ⟨version, dataStartBlock + 3, 3, hashMasterKey symbolicVault sampleKey⟩).length = blockSize :=
  writeSuperblock_length (hashMasterKey symbolicVault sampleKey).property

theorem sampleImage_length :
    (sampleImage version stored).length = (dataStartBlock + stored) * blockSize := by
  rw [sampleImage, List.length_append, sampleHead_length, List.length_replicate]
  have hstart : dataStartBlock = 1 + bitmapBlocks := rfl
  rw [hstart]
  ring

theorem sampleImage_superblock (small : version < 2 ^ 32) :
    readSuperblock (slice (sampleImage version stored) 0 blockSize) =
      some ⟨version, dataStartBlock + 3, 3, hashMasterKey symbolicVault sampleKey⟩ := by
  have hhead : slice (sampleImage version stored) 0 blockSize =
      writeSuperblock ⟨version, dataStartBlock + 3, 3, hashMasterKey symbolicVault sampleKey⟩ :=
    List.take_left' sampleHead_length
  rw [hhead]
  exact readSuperblock_writeSuperblock small (by dsimp only; decide) (by dsimp only; decide)
    (hashMasterKey symbolicVault sampleKey).property

theorem sampleFile_nonempty : (sampleFile version stored).bytes ≠ [] := by
  intro hnil
  have hlength : (sampleImage version stored).length = 0 := congrArg List.length hnil
  have hpos : 0 < dataStartBlock * blockSize := by decide
  rw [sampleImage_length, Nat.add_mul] at hlength
  omega

theorem sampleFile_opens (version stored : Nat) (small : version < 2 ^ 32) :
    ∃ v, openOrCreate symbolicVault sampleKey 3 (sampleFile version stored) = .ok v v.file ∧
      v.file.bytes = sampleImage version stored ∧ v.totalBlocks = dataStartBlock + 3 ∧
      v.file.exists? = true := by
  have hready : Ready (sampleFile version stored) := ⟨rfl, rfl⟩
  have hlength : dataStartBlock * blockSize ≤ (sampleImage version stored).length := by
    rw [sampleImage_length]
    exact Nat.mul_le_mul_right _ (Nat.le_add_right _ _)
  have hkept : Kept (slice (sampleImage version stored) 0 blockSize) sampleKey (dataStartBlock + 3)
      ⟨sampleFile version stored, sampleKey, dataStartBlock + 3, 3, freshBitmap⟩ :=
    ⟨rfl, hlength, rfl, rfl, rfl⟩
  have hbootable : Bootable symbolicVault (slice (sampleImage version stored) 0 blockSize) sampleKey
      (dataStartBlock + 3) := ⟨_, sampleImage_superblock small, rfl, rfl⟩
  obtain ⟨v, hopen, hpresent, -, hblocks, hbytes, -⟩ :=
    openExisting_bootable hkept hbootable (by decide) (by decide) hready
  refine ⟨v, ?_, hbytes, hblocks, hpresent⟩
  have hpos : 0 < dataStartBlock * blockSize := by decide
  rw [openOrCreate_present hready (hpos.trans_le hlength) (by decide)]
  exact hopen

end Samples

/-- A container that is there and is not empty opens as a sound one exactly when
its superblock is faithful to it, unless one of the first two system calls fails
and it is created anew. -/
theorem opened_container_sound_iff {V : VaultPrimitives} (tagged : V.ChachaTagged)
    {masterKey : Bytes} {n : Nat} {f f' : File} {v : Volume} (present : f.exists? = true)
    (nonempty : f.bytes ≠ []) (opens : openOrCreate V masterKey n f = .ok v f') :
    SoundContainer V v ↔ (Works 2 f → Faithful f.bytes) := by
  have capacity : n ≤ maxDataBlocks := by
    by_contra hover
    rw [openOrCreate, if_pos (by omega)] at opens
    cases opens
  by_cases works : Works 2 f
  · rw [openOrCreate_works works nonempty capacity] at opens
    have hsound := sound_of_opened (.opened _ _ _ opens)
    obtain ⟨hbytes, head, hkept, sb, hsb, -, htotal⟩ := opened_kept opens
    have himage : v.file.bytes = f.bytes := hbytes
    rw [← hkept.superblock] at hsb
    rw [← himage]
    constructor
    · rintro ⟨⟨sb', hsb', hversion⟩, hextent, -, -⟩ - sb'' hsb''
      cases hsb'.symm.trans hsb''
      cases hsb.symm.trans hsb''
      exact ⟨hversion, htotal ▸ hextent⟩
    · intro faithful
      obtain ⟨hversion, hextent⟩ := faithful works sb hsb
      refine soundContainer_of_extent tagged ⟨rfl, ?_, hsound.lower, hsound.width⟩
        ⟨sb, hsb, hversion⟩
      rwa [htotal] at hextent
  · obtain ⟨g, hcreate⟩ := createNew_of_openOrCreate present nonempty capacity works opens
    have hsound := sound_of_opened (.created _ _ capacity _ _ hcreate)
    obtain ⟨hbytes, head, hkept, -⟩ := created_kept capacity hcreate
    have hfresh : Intact (freshSuperblock V masterKey n) (freshVolume V masterKey n absentFile) :=
      intact_fresh rfl
    have hlength : v.file.bytes.length = v.totalBlocks * blockSize := by
      rw [hbytes, hkept.blocks]
      exact hfresh.length
    have hhead : slice v.file.bytes 0 blockSize =
        writeSuperblock (freshSuperblock V masterKey n) := by
      rw [hbytes]
      exact hfresh.superblock
    refine iff_of_true ?_ fun h => absurd h works
    refine soundContainer_of_extent tagged ⟨rfl, hlength.ge, hsound.lower, hsound.width⟩ ?_
    rw [hhead]
    exact ⟨_, readSuperblock_fresh capacity, rfl⟩

theorem opened_container_sound_sample :
    ∃ v f', openOrCreate symbolicVault sampleKey 3 (sampleFile vaultVersion 3) = .ok v f' ∧
      SoundContainer symbolicVault v := by
  obtain ⟨v, hopen, -⟩ := sampleFile_opens vaultVersion 3 (by decide)
  refine ⟨v, v.file, hopen, ?_⟩
  refine
    (opened_container_sound_iff symbolicVault_chachaTagged rfl sampleFile_nonempty hopen).mpr ?_
  intro _ sb hsb
  cases (sampleImage_superblock (by decide)).symm.trans hsb
  exact ⟨rfl, sampleImage_length.ge⟩

theorem unsound_containers_open :
    (∃ v f' w, openOrCreate symbolicVault sampleKey 3 (sampleFile vaultVersion 0) = .ok v f' ∧
      Later symbolicVault v w ∧ v.file.bytes.length < w.file.bytes.length) ∧
    ∃ v f', openOrCreate symbolicVault sampleKey 3 (sampleFile 2 3) = .ok v f' ∧
      ¬ SoundContainer symbolicVault v := by
  -- A container cut off behind its bitmap opens, and a write to its first data block makes it
  -- longer; a container of another version opens too.
  constructor
  · obtain ⟨v, hopen, hbytes, hblocks, hpresent⟩ := sampleFile_opens vaultVersion 0 (by decide)
    have hready : Ready (v.facing []).file := ⟨rfl, hpresent⟩
    have hrange : (v.facing []).inRange dataStartBlock := by
      refine ⟨le_rfl, ?_⟩
      change dataStartBlock < v.totalBlocks
      rw [hblocks]
      decide
    have hlength : v.file.bytes.length = dataStartBlock * blockSize := by
      rw [hbytes, sampleImage_length, Nat.add_zero]
    refine ⟨v, v.file, _, hopen, .step .same [] (.writeBlockRaw dataStartBlock sampleBlock), ?_⟩
    have hgrown := length_written_end (v.facing []) sampleBlock
    have hoffset : (v.facing []).file.bytes.length = dataStartBlock * blockSize := hlength
    rw [hoffset, sampleBlock.property] at hgrown
    rw [VolumeOp.program, finalState_bind_pure, writeBlockRaw_ready hready hrange, finalState_ok,
      hlength, hgrown]
    exact Nat.lt_add_of_pos_right (by decide)
  · obtain ⟨v, hopen, hbytes, -⟩ := sampleFile_opens 2 3 (by decide)
    refine ⟨v, v.file, hopen, ?_⟩
    rintro ⟨⟨sb, hsb, hversion⟩, -, -, -⟩
    rw [hbytes] at hsb
    cases (sampleImage_superblock (by decide)).symm.trans hsb
    exact absurd hversion (by decide)

end SecureCore.VirtualVolume
