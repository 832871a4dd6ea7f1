import SecureCore.VirtualVolume

/-! The free counter and the bitmap of a volume stay in step, whatever is called
with whatever arguments and whichever system calls fail. The counter is the
number of clear bits among those that stand for data blocks; the bits above
them are never touched. Three failures are therefore impossible: an index
outside the bitmap, a counter below zero, and a scan that finds no clear bit. -/

namespace SecureCore.VirtualVolume

open FaultyFile FallibleState PackedBits

/-- The invariant of a volume with `total` blocks that was opened with `bitmap₀`. -/
structure Sound (total : Nat) (bitmap₀ : Bytes) (v : Volume) : Prop where
  width : v.blockBitmap.length = bitmapBlocks * blockSize
  blocks : v.totalBlocks = total
  lower : dataStartBlock ≤ total
  upper : total ≤ dataStartBlock + maxDataBlocks
  counted : v.freeBlocks = (clearBits v.blockBitmap (total - dataStartBlock)).card
  above : ∀ i, total - dataStartBlock ≤ i → test v.blockBitmap i = test bitmap₀ i

/-- None of the three failures the invariant rules out. -/
def Expected (failure : Failure) : Prop :=
  failure ≠ indexOutOfBounds ∧ failure ≠ subtractOverflow ∧ failure ≠ bitmapInconsistency

theorem expected_os (code : Nat) : Expected (.os code) := by
  simp [Expected, indexOutOfBounds, subtractOverflow, bitmapInconsistency]

theorem expected_raised {kind : ErrorKind} {message : String} (hkind : kind ≠ .storageFull) :
    Expected (.raised kind message) := by
  simp [Expected, indexOutOfBounds, subtractOverflow, bitmapInconsistency, hkind]

def Clean {α : Type} (m : FileM α) : Prop :=
  Spec (fun _ => True) m (fun _ _ => True) (fun e _ => Expected e)

section Clean

variable {α : Type}

theorem expected_of_plain {failure : Failure} (h : failure.Plain) : Expected failure := by
  cases failure with
  | os code => exact expected_os code
  | raised kind message => exact expected_raised h
  | panic message => exact h.elim

theorem clean_of_plain {m : FileM α} (h : FailsPlainly m) : Clean m :=
  h.consequence (fun _ h => h) (fun _ _ h => h) (fun _ _ h => expected_of_plain h)

theorem seek_clean (position : Nat) : Clean (seek position) := clean_of_plain (.seek position)

theorem readExact_clean (count : Nat) : Clean (readExact count) :=
  clean_of_plain (.readExact count)

theorem writeAll_clean (data : Bytes) : Clean (writeAll data) := clean_of_plain (.writeAll data)

theorem syncAll_clean : Clean syncAll := clean_of_plain .touch

theorem freezeTimestamps_plainly : FailsPlainly freezeTimestamps :=
  .bind .metadata fun _ => .bind .touch fun _ => .bind .touch fun _ => .touch

theorem freezeTimestamps_clean : Clean freezeTimestamps := clean_of_plain freezeTimestamps_plainly

end Clean

section Sound

variable {α : Type} {T : Nat} {B : Bytes} {v : Volume} {bitIdx : Nat}

theorem Sound.file (h : Sound T B v) (f : File) : Sound T B { v with file := f } :=
  ⟨h.width, h.blocks, h.lower, h.upper, h.counted, h.above⟩

theorem Sound.stored (h : Sound T B v) (hbit : bitIdx < T - dataStartBlock) :
    bitIdx >>> 3 < v.blockBitmap.length := by
  have hupper := h.upper
  have hcapacity : maxDataBlocks = bitmapBlocks * blockSize * 8 := rfl
  rw [h.width, Nat.shiftRight_eq_div_pow]
  omega

theorem Sound.taken (h : Sound T B v) (hbit : bitIdx < T - dataStartBlock)
    (hclear : test v.blockBitmap bitIdx = false) : Sound T B (taken v bitIdx) := by
  have hstored := h.stored hbit
  refine ⟨by simp [VirtualVolume.taken, h.width], h.blocks, h.lower, h.upper, ?_, fun i hi => ?_⟩
  · have hmem : bitIdx ∈ clearBits v.blockBitmap (T - dataStartBlock) := by simp [hbit, hclear]
    simp only [VirtualVolume.taken]
    rw [clearBits_set hstored, Finset.card_erase_of_mem hmem, h.counted]
  · have hne : i ≠ bitIdx := by omega
    simp [VirtualVolume.taken, test_set hstored, hne, h.above i hi]

theorem Sound.released (h : Sound T B v) (hbit : bitIdx < T - dataStartBlock)
    (hset : test v.blockBitmap bitIdx = true) : Sound T B (released v bitIdx) := by
  have hstored := h.stored hbit
  refine ⟨by simp [VirtualVolume.released, h.width], h.blocks, h.lower, h.upper, ?_,
    fun i hi => ?_⟩
  · have hmem : bitIdx ∉ clearBits v.blockBitmap (T - dataStartBlock) := by simp [hset]
    simp only [VirtualVolume.released]
    rw [clearBits_clear hstored hbit, Finset.card_insert_of_notMem hmem, h.counted]
  · have hne : i ≠ bitIdx := by omega
    simp [VirtualVolume.released, test_clear hstored, hne, h.above i hi]

theorem Sound.free_pos (h : Sound T B v) (hbit : bitIdx < T - dataStartBlock)
    (hclear : test v.blockBitmap bitIdx = false) : 0 < v.freeBlocks := by
  rw [h.counted]
  exact Finset.card_pos.mpr ⟨bitIdx, by simp [hbit, hclear]⟩

theorem Sound.first_clear (h : Sound T B v) (free : v.freeBlocks ≠ 0) :
    ∃ i < T - dataStartBlock, test v.blockBitmap i = false ∧
      ∀ j < i, test v.blockBitmap j = true := by
  have hclear : ∃ i, i < T - dataStartBlock ∧ test v.blockBitmap i = false := by
    rw [h.counted, ← Nat.pos_iff_ne_zero, Finset.card_pos] at free
    obtain ⟨i, hi⟩ := free
    exact ⟨i, mem_clearBits.mp hi⟩
  obtain ⟨hlt, hfirst⟩ := Nat.find_spec hclear
  refine ⟨Nat.find hclear, hlt, hfirst, fun j hj => ?_⟩
  have hset := Nat.find_min hclear hj
  simpa [hj.trans hlt] using hset

def Keeps (T : Nat) (B : Bytes) (m : VolumeM α) : Prop :=
  Spec (Sound T B) m (fun _ => Sound T B) (fun e v => Sound T B v ∧ Expected e)

theorem Keeps.sound {m : VolumeM α} (h : Keeps T B m) (hv : Sound T B v) :
    Sound T B (finalState (m v)) := by
  have hspec := h v hv
  cases hrun : m v with
  | ok a w =>
    rw [hrun] at hspec
    exact hspec
  | error e w =>
    rw [hrun] at hspec
    exact hspec.1

theorem onFile_keeps {m : FileM α} (h : Clean m) : Keeps T B (onFile m) := by
  intro v hv
  have hclean := h v.file trivial
  cases hrun : m v.file with
  | ok a f =>
    rw [onFile_ok hrun]
    exact hv.file f
  | error e f =>
    rw [hrun] at hclean
    rw [onFile_error hrun]
    exact ⟨hv.file f, hclean⟩

theorem writeBitmap_keeps : Keeps T B writeBitmap := by
  refine Spec.bind (onFile_keeps (seek_clean _)) fun _ => Spec.get_bind fun w => ?_
  refine Spec.consequence ?_ (fun _ h => h.2) (fun _ _ h => h) (fun _ _ h => h)
  exact Spec.bind (onFile_keeps (writeAll_clean _)) fun _ =>
    Spec.bind (onFile_keeps syncAll_clean) fun _ => onFile_keeps freezeTimestamps_clean

theorem checkDataBlock_spec (blockIdx : Nat) :
    Spec (Sound T B) (checkDataBlock blockIdx)
      (fun _ v => Sound T B v ∧ blockIdx - dataStartBlock < T - dataStartBlock)
      (fun e v => Sound T B v ∧ Expected e) := by
  intro v hv
  by_cases h : dataStartBlock ≤ blockIdx ∧ blockIdx < v.totalBlocks
  · rw [checkDataBlock_ok h]
    refine ⟨hv, ?_⟩
    have hblocks := hv.blocks
    omega
  · rw [checkDataBlock_error h]
    exact ⟨hv, expected_raised (by decide)⟩

theorem bitIsClear_spec (bitIdx : Nat) :
    Spec (fun v => Sound T B v ∧ bitIdx < T - dataStartBlock) (bitIsClear bitIdx)
      (fun clear v => Sound T B v ∧ bitIdx < T - dataStartBlock ∧
        clear = !test v.blockBitmap bitIdx)
      (fun e v => Sound T B v ∧ Expected e) := by
  rintro v ⟨hv, hbit⟩
  rw [bitIsClear_ok (hv.stored hbit)]
  exact ⟨hv, hbit, rfl⟩

theorem takeBit_spec (bitIdx : Nat) :
    Spec (fun v => Sound T B v ∧ bitIdx < T - dataStartBlock ∧ test v.blockBitmap bitIdx = false)
      (takeBit bitIdx) (fun _ => Sound T B) (fun e v => Sound T B v ∧ Expected e) := by
  rintro v ⟨hv, hbit, hclear⟩
  rw [takeBit_eq (hv.free_pos hbit hclear)]
  exact writeBitmap_keeps _ (hv.taken hbit hclear)

theorem allocateScan_spec (remaining bitIdx : Nat)
    (hend : bitIdx + remaining = T - dataStartBlock) :
    Spec (fun v => Sound T B v ∧
        ∃ i, bitIdx ≤ i ∧ i < T - dataStartBlock ∧ test v.blockBitmap i = false)
      (allocateScan remaining bitIdx) (fun _ => Sound T B)
      (fun e v => Sound T B v ∧ Expected e) := by
  induction remaining generalizing bitIdx with
  | zero =>
    rintro v ⟨-, i, hle, hlt, -⟩
    omega
  | succ remaining ih =>
    rintro v ⟨hv, i, hle, hlt, hclear⟩
    rw [allocateScan, bind_ok (bitIsClear_ok (hv.stored (by omega)))]
    cases hbit : test v.blockBitmap bitIdx with
    | false =>
      exact Spec.bind_pure (takeBit_spec bitIdx) (fun _ => dataStartBlock + bitIdx) v
        ⟨hv, by omega, hbit⟩
    | true =>
      have hne : i ≠ bitIdx := by
        rintro rfl
        rw [hclear] at hbit
        cases hbit
      exact ih (bitIdx + 1) (by omega) v ⟨hv, i, by omega, hlt, hclear⟩

theorem allocateBlock_keeps : Keeps T B allocateBlock := by
  intro v hv
  rw [allocateBlock, bind_ok (get_apply v)]
  by_cases hfree : v.freeBlocks = 0
  · rw [if_pos hfree]
    refine ⟨hv, ?_⟩
    simp [Expected, indexOutOfBounds, subtractOverflow, bitmapInconsistency]
  · have hsub : subtract v.totalBlocks dataStartBlock v = .ok (T - dataStartBlock) v := by
      have hlower := hv.lower
      rw [subtract, hv.blocks, if_neg (by omega)]
      rfl
    obtain ⟨i, hi, hclear, -⟩ := hv.first_clear hfree
    rw [if_neg hfree, bind_ok hsub]
    exact allocateScan_spec _ 0 (by omega) v ⟨hv, i, by omega, hi, hclear⟩

theorem reserveBlock_keeps (blockIdx : Nat) : Keeps T B (reserveBlock blockIdx) := by
  refine Spec.bind (checkDataBlock_spec blockIdx) fun _ =>
    Spec.bind (bitIsClear_spec _) fun clear => ?_
  cases clear with
  | false => exact Spec.of_pure fun _ h => h.1
  | true =>
    exact Spec.consequence (takeBit_spec _) (fun v h => ⟨h.1, h.2.1, by simpa using h.2.2⟩)
      (fun _ _ h => h) (fun _ _ h => h)

theorem freeBlock_keeps (blockIdx : Nat) : Keeps T B (freeBlock blockIdx) := by
  refine Spec.bind (checkDataBlock_spec blockIdx) fun _ =>
    Spec.bind (bitIsClear_spec _) fun clear => ?_
  cases clear with
  | true => exact Spec.of_throw fun _ h => ⟨h.1, expected_raised (by decide)⟩
  | false =>
    rintro v ⟨hv, hbit, hset⟩
    exact writeBitmap_keeps _ (hv.released hbit (by simpa using hset))

variable (V : VaultPrimitives)

theorem copyPlaintext_keeps (decrypted : Option Bytes) : Keeps T B (copyPlaintext decrypted) := by
  cases decrypted with
  | none => exact Spec.of_throw fun _ h => ⟨h, expected_raised (by decide)⟩
  | some plaintext =>
    rw [copyPlaintext]
    split_ifs
    · exact Spec.of_pure fun _ h => h
    · refine Spec.of_throw fun _ h => ⟨h, ?_⟩
      simp [Expected, indexOutOfBounds, subtractOverflow, bitmapInconsistency]

theorem readBlock_keeps (blockIdx : Nat) : Keeps T B (readBlock V blockIdx) := by
  refine Spec.bind (checkDataBlock_spec blockIdx) fun _ => ?_
  refine Spec.consequence ?_ (fun _ h => h.1) (fun _ _ h => h) (fun _ _ h => h)
  refine Spec.bind (onFile_keeps (seek_clean _)) fun _ =>
    Spec.bind (onFile_keeps (readExact_clean _)) fun raw => Spec.get_bind fun v => ?_
  exact Spec.consequence (copyPlaintext_keeps _) (fun _ h => h.2) (fun _ _ h => h)
    (fun _ _ h => h)

theorem writeBlock_keeps (blockIdx : Nat) (plaintext : Exactly payloadSize)
    (nonce : Exactly nonceSize) : Keeps T B (writeBlock V blockIdx plaintext nonce) := by
  refine Spec.bind (checkDataBlock_spec blockIdx) fun _ => Spec.get_bind fun v => ?_
  refine Spec.consequence ?_ (fun _ h => h.2.1) (fun _ _ h => h) (fun _ _ h => h)
  dsimp only
  split
  · exact Spec.of_throw fun _ h => ⟨h, expected_raised (by decide)⟩
  · exact Spec.bind (onFile_keeps (seek_clean _)) fun _ =>
      Spec.bind (onFile_keeps (writeAll_clean _)) fun _ =>
      Spec.bind (onFile_keeps (writeAll_clean _)) fun _ => onFile_keeps freezeTimestamps_clean

theorem readBlockRaw_keeps (blockIdx : Nat) : Keeps T B (readBlockRaw blockIdx) := by
  refine Spec.bind (checkDataBlock_spec blockIdx) fun _ => ?_
  refine Spec.consequence ?_ (fun _ h => h.1) (fun _ _ h => h) (fun _ _ h => h)
  exact Spec.bind (onFile_keeps (seek_clean _)) fun _ => onFile_keeps (readExact_clean _)

theorem writeBlockRaw_keeps (blockIdx : Nat) (data : Exactly blockSize) :
    Keeps T B (writeBlockRaw blockIdx data) := by
  refine Spec.bind (checkDataBlock_spec blockIdx) fun _ => ?_
  refine Spec.consequence ?_ (fun _ h => h.1) (fun _ _ h => h) (fun _ _ h => h)
  exact Spec.bind (onFile_keeps (seek_clean _)) fun _ => onFile_keeps (writeAll_clean _)

theorem program_keeps (op : VolumeOp) : Keeps T B (op.program V) := by
  cases op with
  | readBlock blockIdx => exact Spec.bind_pure (readBlock_keeps V _) _
  | writeBlock blockIdx plaintext nonce =>
    exact Spec.bind_pure (writeBlock_keeps V _ _ _) fun _ => VolumeReply.done
  | readBlockRaw blockIdx => exact Spec.bind_pure (readBlockRaw_keeps _) _
  | writeBlockRaw blockIdx data =>
    exact Spec.bind_pure (writeBlockRaw_keeps _ _) fun _ => VolumeReply.done
  | allocateBlock => exact Spec.bind_pure allocateBlock_keeps _
  | reserveBlock blockIdx => exact Spec.bind_pure (reserveBlock_keeps _) fun _ => VolumeReply.done
  | freeBlock blockIdx => exact Spec.bind_pure (freeBlock_keeps _) fun _ => VolumeReply.done

theorem exec_sound (op : VolumeOp) (h : Sound T B v) :
    Sound T B (op.exec V v).2 ∧ ∀ failure, (op.exec V v).1 = .error failure → Expected failure := by
  have hspec := program_keeps V op v h
  unfold VolumeOp.exec
  cases hrun : op.program V v with
  | ok reply w =>
    rw [hrun] at hspec
    exact ⟨hspec, fun failure hfailed => by cases hfailed⟩
  | error failure w =>
    rw [hrun] at hspec
    refine ⟨hspec.1, fun failure' hfailed => ?_⟩
    cases hfailed
    exact hspec.2

end Sound

section Opening

variable {V : VaultPrimitives}

theorem countFree_ok {σ : Type} {bitmap : Bytes} (remaining bitIdx : Nat)
    (stored : ∀ i < bitIdx + remaining, i >>> 3 < bitmap.length) (s : σ) :
    countFree bitmap remaining bitIdx (clearBits bitmap bitIdx).card s =
      .ok (clearBits bitmap (bitIdx + remaining)).card s := by
  induction remaining generalizing bitIdx with
  | zero => rfl
  | succ remaining ih =>
    have hcount : (if bitmap.getD (bitIdx >>> 3) 0 &&& mask bitIdx = 0 then
        (clearBits bitmap bitIdx).card + 1 else (clearBits bitmap bitIdx).card) =
        (clearBits bitmap (bitIdx + 1)).card := by
      simp only [clearBits_succ, test, bne_eq_false_iff_eq]
      split_ifs <;> rfl
    rw [countFree, bind_ok (indexed_ok (stored bitIdx (by omega)) s), hcount]
    rw [ih (bitIdx + 1) (fun i hi => stored i (by omega))]
    congr 3
    omega

theorem countFree_zero {σ : Type} {bitmap : Bytes} {n : Nat}
    (width : bitmap.length = bitmapBlocks * blockSize) (capacity : n ≤ maxDataBlocks) (s : σ) :
    countFree bitmap n 0 0 s = .ok (clearBits bitmap n).card s := by
  have hcapacity : maxDataBlocks = bitmapBlocks * blockSize * 8 := rfl
  have hcount := countFree_ok n 0 (fun i hi => by
    rw [width, Nat.shiftRight_eq_div_pow]
    omega) s
  rwa [Nat.zero_add] at hcount

theorem createNew_spec (masterKey : Bytes) (n : Nat) :
    Spec (fun _ => True) (createNew V masterKey n)
      (fun v _ => v.masterKey = masterKey ∧ v.totalBlocks = dataStartBlock + n ∧
        v.freeBlocks = n ∧ v.blockBitmap = List.replicate (bitmapBlocks * blockSize) 0)
      (fun _ _ => True) := by
  refine .skip fun _ => .skip fun _ => .skip fun _ => .skip fun _ => .skip fun _ =>
    .skip fun _ => .skip fun _ => .skip fun _ => ?_
  exact Spec.of_pure fun _ _ => ⟨rfl, rfl, rfl, rfl⟩

theorem readExact_length (count : Nat) :
    Spec (fun _ => True) (readExact count) (fun bytes _ => bytes.length = count)
      (fun _ _ => True) := by
  refine .skip fun next => ?_
  cases next with
  | some fault => exact Spec.of_throw fun _ _ => True.intro
  | none =>
    refine Spec.get_bind fun f => ?_
    split_ifs with fits
    · exact .skip fun _ => Spec.of_pure fun _ _ => ByteImage.slice_length fits
    · exact .skip fun _ => Spec.of_throw fun _ _ => True.intro

theorem openAuthenticated_spec (masterKey : Bytes) (sb : SuperblockInfo) :
    Spec (fun _ => True) (openAuthenticated V masterKey sb)
      (fun v _ => v.masterKey = masterKey ∧ Sound v.totalBlocks v.blockBitmap v)
      (fun _ _ => True) := by
  rw [openAuthenticated]
  split_ifs with hkey hrange
  · exact Spec.of_throw fun _ _ => True.intro
  · exact .skip fun _ => .skip fun _ => Spec.of_throw fun _ _ => True.intro
  · refine .skip fun _ => Spec.bind (readExact_length _) fun bitmap => ?_
    intro f hwidth
    have hlower : dataStartBlock ≤ sb.totalBlocks := by omega
    have hupper : sb.totalBlocks ≤ dataStartBlock + maxDataBlocks := by omega
    rw [bind_ok (countFree_zero hwidth (by omega) f)]
    exact ⟨rfl, hwidth, rfl, hlower, hupper, rfl, fun _ _ => rfl⟩

theorem openExisting_spec (masterKey : Bytes) :
    Spec (fun _ => True) (openExisting V masterKey)
      (fun v _ => v.masterKey = masterKey ∧ Sound v.totalBlocks v.blockBitmap v)
      (fun _ _ => True) := by
  refine .skip fun _ => .skip fun _ => .skip fun raw => ?_
  cases readSuperblock raw with
  | none => exact Spec.of_throw fun _ _ => True.intro
  | some sb => exact openAuthenticated_spec masterKey sb

/-- A volume as `create_new` or `open_existing` returns it, from any file and
with any system calls failing on the way. -/
inductive Opened (V : VaultPrimitives) (v : Volume) : Prop where
  | created (masterKey : Bytes) (n : Nat) (capacity : n ≤ maxDataBlocks) (f f' : File)
      (h : createNew V masterKey n f = .ok v f')
  | opened (masterKey : Bytes) (f f' : File) (h : openExisting V masterKey f = .ok v f')

theorem sound_of_opened {v : Volume} (h : Opened V v) :
    Sound v.totalBlocks v.blockBitmap v := by
  cases h with
  | created masterKey n capacity f f' h =>
    obtain ⟨-, htotal, hfree, hbitmap⟩ := (createNew_spec masterKey n).ok_of_run True.intro h
    refine ⟨by rw [hbitmap, List.length_replicate], rfl, by omega, by omega, ?_, fun _ _ => rfl⟩
    rw [hfree, hbitmap, card_clearBits_replicate_zero, htotal]
    omega
  | opened masterKey f f' h => exact ((openExisting_spec masterKey).ok_of_run True.intro h).2

theorem sound_after {T : Nat} {B : Bytes} {v : Volume} (h : Sound T B v) (ops : List VolumeOp) :
    Sound T B (v.after V ops) ∧
      ∀ failure, .error failure ∈ v.replies V ops → Expected failure := by
  induction ops generalizing v with
  | nil => exact ⟨h, by simp [Volume.replies]⟩
  | cons op ops ih =>
    obtain ⟨hstep, hexpected⟩ := exec_sound V op h
    obtain ⟨hafter, hrest⟩ := ih hstep
    refine ⟨hafter, fun failure hmem => ?_⟩
    rcases List.mem_cons.mp hmem with heq | hmem
    · exact hexpected failure heq.symm
    · exact hrest failure hmem

end Opening

/-- From any volume that was created or opened, any operations with any arguments
and any failing system calls keep counter and bitmap in step, the size fixed and
the bits above the data blocks as they were; no index is out of range, the
counter never falls below zero and the scan never misses a clear bit. -/
theorem allocation_state_sound {V : VaultPrimitives} {v : Volume} (h : Opened V v)
    (ops : List VolumeOp) :
    ((v.after V ops).blockBitmap.length = 8 * 4096 ∧
      (v.after V ops).totalBlocks = v.totalBlocks ∧
      9 ≤ v.totalBlocks ∧ v.totalBlocks ≤ 9 + maxDataBlocks ∧
      (v.after V ops).freeBlocks =
        (clearBits (v.after V ops).blockBitmap (v.totalBlocks - 9)).card ∧
      ∀ i, v.totalBlocks - 9 ≤ i →
        test (v.after V ops).blockBitmap i = test v.blockBitmap i) ∧
    ∀ failure, .error failure ∈ v.replies V ops →
      failure ≠ indexOutOfBounds ∧ failure ≠ subtractOverflow ∧
        failure ≠ bitmapInconsistency := by
  obtain ⟨hsound, hexpected⟩ := sound_after (V := V) (sound_of_opened h) ops
  exact ⟨⟨hsound.width, hsound.blocks, hsound.lower, hsound.upper, hsound.counted,
    hsound.above⟩, hexpected⟩

theorem allocation_state_sound_sample :
    Opened symbolicVault sampleVolume ∧
      (sampleVolume.after symbolicVault
        [.allocateBlock, .reserveBlock 11, .freeBlock 9]).freeBlocks =
        (clearBits (sampleVolume.after symbolicVault
          [.allocateBlock, .reserveBlock 11, .freeBlock 9]).blockBitmap 3).card := by
  have h : Opened symbolicVault sampleVolume :=
    .created sampleKey 3 (by decide) absentFile _ createNew_sample
  exact ⟨h, (allocation_state_sound h [.allocateBlock, .reserveBlock 11, .freeBlock 9]).1.2.2.2.2.1⟩

end SecureCore.VirtualVolume
