import SecureCore.VolumeImage

/-! Dropping a vault and opening it again. As long as no system call fails, the
container of a created vault carries the superblock it was created with and the
current bitmap, so `open_or_create` finds the same volume; the free count it
returns is counted from the bitmap. `secure_erase_block` of `lib.rs`, which
overwrites a block with random bytes and frees it, is part of the runs; its
status code is 0 for success and 3 for failure. -/

namespace SecureCore.VirtualVolume

open FaultyFile FallibleState PackedBits ByteImage

section Operations

variable (V : VaultPrimitives)

def secureEraseBlock (blockIdx : Nat) (payload : Exactly payloadSize) (nonce : Exactly nonceSize) :
    VolumeM Unit := do
  writeBlock V blockIdx payload nonce
  freeBlock blockIdx

/-- Drop the volume and open its container again with the same key. -/
def reopen (totalDataBlocks : Nat) : VolumeM Unit := fun v =>
  match openOrCreate V v.masterKey totalDataBlocks (drop v) with
  | .ok w _ => .ok () w
  | .error failure f => .error failure { v with file := f }

inductive VaultOp where
  | volume (op : VolumeOp)
  | secureEraseBlock (blockIdx : Nat) (payload : Exactly payloadSize) (nonce : Exactly nonceSize)
  | reopen (totalDataBlocks : Nat) (capacity : totalDataBlocks ≤ maxDataBlocks)

def VaultOp.program : VaultOp → VolumeM VolumeReply
  | .volume op => op.program V
  | .secureEraseBlock blockIdx payload nonce => do
    VirtualVolume.secureEraseBlock V blockIdx payload nonce
    pure .done
  | .reopen totalDataBlocks _ => do
    VirtualVolume.reopen V totalDataBlocks
    pure .done

def Volume.steps (v : Volume) (ops : List VaultOp) : Volume :=
  ops.foldl (fun v op => finalState (op.program V v)) v

end Operations

/-- A vault created with `n` data blocks under `masterKey`, at any later time. -/
structure Live (V : VaultPrimitives) (masterKey : Bytes) (n : Nat) (v : Volume) : Prop where
  sound : Sound (dataStartBlock + n) freshBitmap v
  intact : Intact (freshSuperblock V masterKey n) v
  key : v.masterKey = masterKey

section Created

variable {V : VaultPrimitives} {masterKey : Bytes} {n : Nat} {f : File} {v w : Volume}

theorem intact_fresh (healthy : Healthy f) :
    Intact (freshSuperblock V masterKey n) (freshVolume V masterKey n f) := by
  have hsuper : (writeSuperblock (freshSuperblock V masterKey n)).length = blockSize :=
    writeSuperblock_length (hashMasterKey V masterKey).property
  have hbitmap : freshBitmap.length = bitmapBlocks * blockSize := List.length_replicate
  have hzeros := resize_length [] ((dataStartBlock + n) * blockSize)
  have hstart : bitmapStartBlock * blockSize = blockSize := rfl
  have hfits : blockSize + bitmapBlocks * blockSize ≤ (dataStartBlock + n) * blockSize := by
    rw [Nat.add_mul]
    exact Nat.le_add_right _ _
  have hinner : (splice (resize [] ((dataStartBlock + n) * blockSize)) 0
      (writeSuperblock (freshSuperblock V masterKey n))).length =
        (resize [] ((dataStartBlock + n) * blockSize)).length := splice_length (by omega)
  refine ⟨⟨healthy, rfl⟩, ?_, ?_, ?_⟩
  · change (freshImage V masterKey n).length = (dataStartBlock + n) * blockSize
    rw [freshImage, splice_length (by omega), hinner, hzeros]
  · change slice (freshImage V masterKey n) 0 blockSize = _
    rw [freshImage, slice_splice_of_disjoint (by omega) (by omega), ← hsuper,
      slice_splice_self]
  · change slice (freshImage V masterKey n) _ _ = freshBitmap
    rw [freshImage, ← hbitmap, slice_splice_self]

theorem readSuperblock_fresh (capacity : n ≤ maxDataBlocks) :
    readSuperblock (writeSuperblock (freshSuperblock V masterKey n)) =
      some (freshSuperblock V masterKey n) := by
  have hmax : dataStartBlock + maxDataBlocks < 2 ^ 64 := by decide
  have hversion : vaultVersion < 2 ^ 32 := by decide
  have htotal : dataStartBlock + n < 2 ^ 64 := by omega
  have hfree : n < 2 ^ 64 := by omega
  exact readSuperblock_writeSuperblock hversion htotal hfree (hashMasterKey V masterKey).property

theorem created_fresh (healthy : Healthy f) {f' : File}
    (created : createNew V masterKey n f = .ok v f') : v = freshVolume V masterKey n f := by
  cases hpresent : f.exists? with
  | false =>
    rw [createNew_healthy healthy hpresent] at created
    cases created
    rfl
  | true =>
    rw [createNew, bind_error (openNew_present healthy hpresent)] at created
    cases created

theorem live_created (capacity : n ≤ maxDataBlocks) (healthy : Healthy f) {f' : File}
    (created : createNew V masterKey n f = .ok v f') : Live V masterKey n v := by
  have hsound := sound_of_opened (.created masterKey n capacity f f' created)
  have hfresh := created_fresh healthy created
  subst hfresh
  exact ⟨hsound, intact_fresh healthy, rfl⟩

end Created

section Opening

variable {V : VaultPrimitives} {masterKey : Bytes} {n : Nat} {v : Volume}

theorem drop_ready (h : Ready v.file) : drop v = v.file := by
  rw [drop, syncAll_healthy h.healthy]
  rfl

theorem Live.total (live : Live V masterKey n v) : v.totalBlocks = dataStartBlock + n :=
  live.sound.blocks

theorem Live.capacity (live : Live V masterKey n v) : n ≤ maxDataBlocks := by
  have hupper := live.sound.upper
  omega

theorem Live.fits (live : Live V masterKey n v) :
    bitmapStartBlock * blockSize + bitmapBlocks * blockSize ≤ v.file.bytes.length := by
  rw [live.intact.length]
  exact bitmap_bounds (by rw [live.total]; exact Nat.le_add_right _ _)

theorem Live.readSuperblock (live : Live V masterKey n v) :
    readSuperblock (slice v.file.bytes 0 blockSize) =
      some (freshSuperblock V masterKey n) := by
  rw [live.intact.superblock]
  exact readSuperblock_fresh live.capacity

theorem seek_moved (h : Ready v.file) (position next : Nat) :
    seek next (v.moved position).file = .ok () (v.moved next).file :=
  seek_healthy (ready_moved h position).healthy next

theorem readExact_moved (h : Ready v.file) {position count : Nat}
    (fits : position + count ≤ v.file.bytes.length) :
    readExact count (v.moved position).file =
      .ok (slice v.file.bytes position count) (v.moved (position + count)).file :=
  readExact_healthy (ready_moved h position).healthy fits

theorem openExisting_live (live : Live V masterKey n v) (key : Bytes) :
    openExisting V key v.file =
      openAuthenticated V key (freshSuperblock V masterKey n) (v.moved (0 + blockSize)).file := by
  have hready := live.intact.ready
  have hfits := live.fits
  have hstart : bitmapStartBlock * blockSize = blockSize := rfl
  have hopen : FaultyFile.openExisting v.file = .ok () (v.moved 0).file :=
    openExisting_healthy hready.healthy hready.present
  rw [openExisting, bind_ok hopen, bind_ok (seek_moved hready 0 0),
    bind_ok (readExact_moved hready (by omega))]
  simp only [live.readSuperblock]

theorem openAuthenticated_live (live : Live V masterKey n v) (position : Nat) :
    openAuthenticated V masterKey (freshSuperblock V masterKey n) (v.moved position).file =
      .ok (v.moved (dataStartBlock * blockSize)) (v.moved (dataStartBlock * blockSize)).file := by
  have hready := live.intact.ready
  have hcapacity := live.capacity
  have htotal : (freshSuperblock V masterKey n).totalBlocks = dataStartBlock + n := rfl
  have hcount := countFree_zero live.sound.width hcapacity
    (v.moved (bitmapStartBlock * blockSize + bitmapBlocks * blockSize)).file
  have hfree : (clearBits v.blockBitmap n).card = v.freeBlocks := by
    rw [live.sound.counted, Nat.add_sub_cancel_left]
  rw [openAuthenticated, if_neg (by simp [freshSuperblock]),
    bind_ok (seek_moved hready _ _), bind_ok (readExact_moved hready live.fits),
    if_neg (by rw [htotal]; omega), htotal, Nat.add_sub_cancel_left, live.intact.bitmap,
    bind_ok hcount, bind_ok (get_apply _), hfree, ← live.total]
  conv_lhs => rw [← live.key]
  rfl

theorem openAuthenticated_denied {key : Bytes} (other : V.sha256 key ≠ V.sha256 masterKey)
    (f : File) :
    openAuthenticated V key (freshSuperblock V masterKey n) f =
      .error (.raised .permissionDenied
        "master key does not match the key that created this vault") f := by
  have hother : (hashMasterKey V key).val ≠ (freshSuperblock V masterKey n).masterKeyHash :=
    fun h => other (Subtype.ext h)
  rw [openAuthenticated, if_pos hother]
  rfl

theorem openOrCreate_present {f : File} (ready : Ready f) (nonempty : 0 < f.bytes.length) {m : Nat}
    (capacity : m ≤ maxDataBlocks) (key : Bytes) :
    openOrCreate V key m f = openExisting V key f := by
  have hempty : isEmpty f = .ok false f := by
    have hlength : (f.bytes.length == 0) = false := by
      rw [beq_eq_false_iff_ne]
      omega
    rw [isEmpty, metadata_healthy ready.healthy ready.present, ← hlength]
  rw [openOrCreate, if_neg (by omega), bind_ok hempty,
    bind_ok (pathExists_healthy ready.healthy), ready.present]
  rfl

theorem openOrCreate_blank {f : File} (healthy : Healthy f)
    (blank : f.exists? = true → f.bytes = []) {m : Nat} (capacity : m ≤ maxDataBlocks)
    (key : Bytes) : openOrCreate V key m f =
      .ok (freshVolume V key m f) (freshVolume V key m f).file := by
  have hempty : isEmpty f = .ok true f := by
    cases hpresent : f.exists? with
    | true => rw [isEmpty, metadata_healthy healthy hpresent, blank hpresent]; rfl
    | false => rw [isEmpty, metadata, call_healthy healthy, bind_ok (get_apply f), hpresent]; rfl
  rw [openOrCreate, if_neg (by omega), bind_ok hempty, bind_ok (pathExists_healthy healthy),
    Bool.not_true, Bool.and_false, if_neg Bool.false_ne_true,
    bind_ok (pathExists_healthy healthy)]
  cases hpresent : f.exists? with
  | false =>
    rw [if_neg Bool.false_ne_true]
    exact createNew_healthy healthy hpresent
  | true =>
    have hremove : removeFile f = .ok () { f with exists? := false, bytes := [] } := by
      rw [removeFile, bind_ok (outcome_healthy healthy)]
      rfl
    rw [if_pos rfl, bind_ok hremove]
    exact createNew_healthy healthy rfl

theorem openOrCreate_live (live : Live V masterKey n v) {m : Nat} (capacity : m ≤ maxDataBlocks)
    (key : Bytes) : openOrCreate V key m (drop v) = openExisting V key v.file := by
  have hfits := live.fits
  have hpos : 0 < bitmapStartBlock * blockSize := by decide
  rw [drop_ready live.intact.ready]
  exact openOrCreate_present live.intact.ready (by omega) capacity key

theorem reopen_live (live : Live V masterKey n v) {m : Nat} (capacity : m ≤ maxDataBlocks) :
    reopen V m v = .ok () (v.moved (dataStartBlock * blockSize)) := by
  rw [reopen, live.key, openOrCreate_live live capacity, openExisting_live live,
    openAuthenticated_live live]

end Opening

section Run

variable {V : VaultPrimitives} {masterKey : Bytes} {n : Nat} {v w : Volume}

theorem Live.step (live : Live V masterKey n v) {touched : Nat → Prop} (effect : Effect touched v w)
    (sound : Sound (dataStartBlock + n) freshBitmap w) : Live V masterKey n w :=
  ⟨sound, effect.intact live.intact (live.total ▸ live.sound.lower) sound.width,
    effect.masterKey.trans live.key⟩

theorem writeBlock_live (tagged : V.ChachaTagged) (live : Live V masterKey n v) (blockIdx : Nat)
    (plaintext : Exactly payloadSize) (nonce : Exactly nonceSize) :
    Live V masterKey n (finalState (writeBlock V blockIdx plaintext nonce v)) :=
  live.step (writeBlock_effect tagged live.intact plaintext nonce)
    ((writeBlock_keeps V blockIdx plaintext nonce).sound live.sound)

theorem freeBlock_live (live : Live V masterKey n v) (blockIdx : Nat) :
    Live V masterKey n (finalState (freeBlock blockIdx v)) := by
  have effect : Effect (fun _ => False) v (finalState (freeBlock blockIdx v)) :=
    freeBlock_effect live.sound live.intact.ready blockIdx
  exact live.step effect ((freeBlock_keeps blockIdx).sound live.sound)

theorem Live.moved (live : Live V masterKey n v) (position : Nat) :
    Live V masterKey n (v.moved position) := by
  have effect : Effect (fun _ => False) v (v.moved position) := .moved position
  exact live.step effect (live.sound.file _)

theorem program_live (tagged : V.ChachaTagged) (live : Live V masterKey n v) (op : VaultOp) :
    Live V masterKey n (finalState (op.program V v)) := by
  cases op with
  | volume op =>
    exact live.step (program_effect tagged live.sound live.intact op)
      ((program_keeps V op).sound live.sound)
  | secureEraseBlock blockIdx payload nonce =>
    rw [VaultOp.program, finalState_bind_pure]
    exact finalState_bind (Live V masterKey n) (writeBlock_live tagged live blockIdx payload nonce)
      fun _ _ live => freeBlock_live live blockIdx
  | reopen m capacity =>
    rw [VaultOp.program, finalState_bind_pure, reopen_live live capacity]
    exact live.moved _

theorem steps_live (tagged : V.ChachaTagged) (live : Live V masterKey n v) (ops : List VaultOp) :
    Live V masterKey n (v.steps V ops) := by
  induction ops generalizing v with
  | nil => exact live
  | cons op ops ih => exact ih (program_live tagged live op)

end Run

/-- After any run without failing system calls on a created vault, opening the
container again with the key gives the volume back, whatever size is asked for,
although the free count in the superblock is still the first one. The container
has kept its length, and a key with another hash is refused and leaves the
container as it was. -/
theorem reopen_restores_volume {V : VaultPrimitives} (tagged : V.ChachaTagged)
    {masterKey : Bytes} {n : Nat} (capacity : n ≤ maxDataBlocks) {f f' : File} {v₀ v : Volume}
    (healthy : Healthy f) (created : createNew V masterKey n f = .ok v₀ f') (ops : List VaultOp)
    (reached : v = v₀.steps V ops) :
    (∀ m ≤ maxDataBlocks, ∃ w file, openOrCreate V masterKey m (drop v) = .ok w file ∧
      w.totalBlocks = v.totalBlocks ∧ w.freeBlocks = v.freeBlocks ∧
      w.blockBitmap = v.blockBitmap ∧ w.masterKey = masterKey) ∧
    (v.totalBlocks = v₀.totalBlocks ∧ v.file.bytes.length = v.totalBlocks * 4096 ∧
      (readSuperblock (slice v.file.bytes 0 4096)).map SuperblockInfo.freeBlocks = some n) ∧
    ∀ key, V.sha256 key ≠ V.sha256 masterKey → ∀ m ≤ maxDataBlocks, ∃ failure file,
      openOrCreate V key m (drop v) = .error failure file ∧
      file.bytes = v.file.bytes ∧ file.exists? = true := by
  have live₀ := live_created capacity healthy created
  have live : Live V masterKey n v := by
    rw [reached]
    exact steps_live tagged live₀ ops
  have hstale : (readSuperblock (slice v.file.bytes 0 4096)).map SuperblockInfo.freeBlocks =
      some n := congrArg (Option.map SuperblockInfo.freeBlocks) live.readSuperblock
  refine ⟨fun m hm => ?_, ⟨live.total.trans live₀.total.symm, live.intact.length, hstale⟩,
    fun key other m hm => ?_⟩
  · have hopened := (openOrCreate_live live hm masterKey).trans
      ((openExisting_live live masterKey).trans (openAuthenticated_live live _))
    exact ⟨_, _, hopened, rfl, rfl, rfl, live.key⟩
  · have hdenied := (openOrCreate_live live hm key).trans
      ((openExisting_live live key).trans (openAuthenticated_denied other _))
    exact ⟨_, _, hdenied, rfl, live.intact.ready.present⟩

theorem reopen_restores_volume_sample :
    (∃ w file, openOrCreate symbolicVault sampleKey 7
        (drop (sampleVolume.steps symbolicVault
          [.volume .allocateBlock, .reopen 5 (by decide), .volume (.freeBlock 9)])) = .ok w file ∧
      w.totalBlocks = 12) ∧
    ∃ failure file, openOrCreate symbolicVault (List.replicate 32 8) 7
      (drop (sampleVolume.steps symbolicVault
          [.volume .allocateBlock, .reopen 5 (by decide), .volume (.freeBlock 9)])) =
        .error failure file := by
  obtain ⟨hsame, ⟨htotal, -⟩, hother⟩ :=
    reopen_restores_volume symbolicVault_chachaTagged (by decide) (f := absentFile) rfl
      createNew_sample
      [.volume .allocateBlock, .reopen 5 (by decide), .volume (.freeBlock 9)] rfl
  obtain ⟨w, file, hopened, hblocks, -⟩ := hsame 7 (by decide)
  obtain ⟨failure, file', hdenied, -⟩ :=
    hother (List.replicate 32 8) (by decide) 7 (by decide)
  exact ⟨⟨w, file, hopened, hblocks.trans htotal⟩, failure, file', hdenied⟩

end SecureCore.VirtualVolume
