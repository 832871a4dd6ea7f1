import SecureCore.AllocationInvariant

/-! What volume operations do to the container when no system call fails. Every
operation then has one of three effects: it moves the cursor only, it overwrites
one data block, or it changes the bitmap and writes it through. A volume whose
container carries its superblock and its bitmap keeps doing so under all three. -/

namespace SecureCore.VirtualVolume

open FaultyFile FallibleState PackedBits ByteImage

def Volume.moved (v : Volume) (position : Nat) : Volume :=
  { v with file := { v.file with cursor := position } }

def Volume.appended (v : Volume) (data : Bytes) : Volume := { v with file := put data v.file }

def Volume.written (v : Volume) (offset : Nat) (data : Bytes) : Volume :=
  (v.moved offset).appended data

def Volume.mapped (v : Volume) (bitmap : Bytes) (free : Nat) : Volume :=
  ({ v with blockBitmap := bitmap, freeBlocks := free } : Volume).written
    (bitmapStartBlock * blockSize) bitmap

@[simp] theorem Volume.written_bytes (v : Volume) (offset : Nat) (data : Bytes) :
    (v.written offset data).file.bytes = splice v.file.bytes offset data := rfl

@[simp] theorem Volume.moved_bytes (v : Volume) (position : Nat) :
    (v.moved position).file.bytes = v.file.bytes := rfl

@[simp] theorem Volume.mapped_bytes (v : Volume) (bitmap : Bytes) (free : Nat) :
    (v.mapped bitmap free).file.bytes =
      splice v.file.bytes (bitmapStartBlock * blockSize) bitmap := rfl

@[simp] theorem Volume.mapped_totalBlocks (v : Volume) (bitmap : Bytes) (free : Nat) :
    (v.mapped bitmap free).totalBlocks = v.totalBlocks := rfl

@[simp] theorem Volume.mapped_blockBitmap (v : Volume) (bitmap : Bytes) (free : Nat) :
    (v.mapped bitmap free).blockBitmap = bitmap := rfl

def Volume.blockAt (v : Volume) (blockIdx : Nat) : Bytes :=
  slice v.file.bytes (blockIdx * blockSize) blockSize

def Volume.inRange (v : Volume) (blockIdx : Nat) : Prop :=
  dataStartBlock ≤ blockIdx ∧ blockIdx < v.totalBlocks

instance (v : Volume) (blockIdx : Nat) : Decidable (v.inRange blockIdx) :=
  inferInstanceAs (Decidable (_ ∧ _))

section Ready

variable {v : Volume} {f : File}

theorem freezeTimestamps_ready (h : Ready f) : freezeTimestamps f = .ok () f := by
  have touch : call (pure () : FileM Unit) f = .ok () f := call_healthy h.healthy _
  rw [freezeTimestamps, bind_ok (metadata_healthy h.healthy h.present), bind_ok touch,
    bind_ok touch, touch]

theorem ready_moved (h : Ready v.file) (position : Nat) : Ready (v.moved position).file :=
  h.cursor position

theorem ready_appended (h : Ready v.file) (data : Bytes) : Ready (v.appended data).file :=
  h.put data

theorem ready_written (h : Ready v.file) (offset : Nat) (data : Bytes) :
    Ready (v.written offset data).file :=
  ready_appended (ready_moved h offset) data

theorem ready_mapped (h : Ready v.file) (bitmap : Bytes) (free : Nat) :
    Ready (v.mapped bitmap free).file :=
  ready_written h _ bitmap

theorem onFile_seek (h : Ready v.file) (position : Nat) :
    onFile (seek position) v = .ok () (v.moved position) :=
  onFile_ok (seek_healthy h.healthy position)

theorem onFile_writeAll (h : Ready v.file) (data : Bytes) :
    onFile (writeAll data) v = .ok () (v.appended data) :=
  onFile_ok (writeAll_healthy h.healthy data)

theorem onFile_syncAll (h : Ready v.file) : onFile syncAll v = .ok () v :=
  onFile_ok (syncAll_healthy h.healthy)

theorem onFile_freezeTimestamps (h : Ready v.file) : onFile freezeTimestamps v = .ok () v :=
  onFile_ok (freezeTimestamps_ready h)

theorem onFile_readExact (h : Ready v.file) {count : Nat}
    (fits : v.file.cursor + count ≤ v.file.bytes.length) :
    onFile (readExact count) v =
      .ok (slice v.file.bytes v.file.cursor count) (v.moved (v.file.cursor + count)) :=
  onFile_ok (readExact_healthy h.healthy fits)

theorem writeBitmap_ready (h : Ready v.file) :
    writeBitmap v = .ok () (v.mapped v.blockBitmap v.freeBlocks) := by
  have hmoved := ready_moved h (bitmapStartBlock * blockSize)
  have happended := ready_appended hmoved (v.moved (bitmapStartBlock * blockSize)).blockBitmap
  rw [writeBitmap, bind_ok (onFile_seek h _), bind_ok (get_apply _),
    bind_ok (onFile_writeAll hmoved _), bind_ok (onFile_syncAll happended),
    onFile_freezeTimestamps happended]
  rfl

theorem takeBit_ready {bitIdx : Nat} (h : Ready v.file) (free : 0 < v.freeBlocks) :
    takeBit bitIdx v =
      .ok () (v.mapped (PackedBits.set v.blockBitmap bitIdx) (v.freeBlocks - 1)) := by
  rw [takeBit_eq free]
  exact writeBitmap_ready h

theorem allocateScan_eq {i : Nat} (hclear : test v.blockBitmap i = false) (remaining bitIdx : Nat)
    (stored : ∀ j < bitIdx + remaining, j >>> 3 < v.blockBitmap.length)
    (hle : bitIdx ≤ i) (hlt : i < bitIdx + remaining)
    (hset : ∀ j, bitIdx ≤ j → j < i → test v.blockBitmap j = true) :
    allocateScan remaining bitIdx v = (takeBit i >>= fun _ => pure (dataStartBlock + i)) v := by
  induction remaining generalizing bitIdx with
  | zero => omega
  | succ remaining ih =>
    rw [allocateScan, bind_ok (bitIsClear_ok (stored bitIdx (by omega)))]
    by_cases hfound : bitIdx = i
    · subst hfound
      rw [hclear, Bool.not_false, if_pos rfl]
    · rw [hset bitIdx (Nat.le_refl _) (by omega), Bool.not_true, if_neg (by decide)]
      exact ih (bitIdx + 1) (fun j hj => stored j (by omega)) (by omega) (by omega)
        (fun j hj => hset j (by omega))

theorem allocateBlock_full (full : v.freeBlocks = 0) :
    allocateBlock v = .error (.raised .storageFull "no free blocks remaining in vault") v := by
  rw [allocateBlock, bind_ok (get_apply v), if_pos full]
  rfl

theorem allocateBlock_eq {T i : Nat} {B : Bytes} (sound : Sound T B v)
    (hi : i < T - dataStartBlock) (hclear : test v.blockBitmap i = false)
    (hset : ∀ j < i, test v.blockBitmap j = true) :
    allocateBlock v = (takeBit i >>= fun _ => pure (dataStartBlock + i)) v := by
  have free := sound.free_pos hi hclear
  have hsub : subtract v.totalBlocks dataStartBlock v = .ok (T - dataStartBlock) v := by
    rw [subtract, sound.blocks, if_neg (Nat.not_lt.mpr sound.lower)]
    rfl
  rw [allocateBlock, bind_ok (get_apply v), if_neg (Nat.ne_of_gt free), bind_ok hsub]
  exact allocateScan_eq hclear _ 0 (fun j hj => sound.stored (by omega)) (by omega)
    (by omega) (fun j _ hj => hset j hj)

theorem allocateBlock_ready {T i : Nat} {B : Bytes} (sound : Sound T B v) (h : Ready v.file)
    (hi : i < T - dataStartBlock) (hclear : test v.blockBitmap i = false)
    (hset : ∀ j < i, test v.blockBitmap j = true) :
    allocateBlock v = .ok (dataStartBlock + i)
      (v.mapped (PackedBits.set v.blockBitmap i) (v.freeBlocks - 1)) := by
  rw [allocateBlock_eq sound hi hclear hset,
    bind_ok (takeBit_ready h (sound.free_pos hi hclear))]
  rfl

section Block

variable {blockIdx : Nat}

theorem reserveBlock_outside (outside : ¬ v.inRange blockIdx) :
    reserveBlock blockIdx v = .error (outsideDataRange v blockIdx) v := by
  rw [reserveBlock, bind_error (checkDataBlock_error outside)]

theorem freeBlock_outside (outside : ¬ v.inRange blockIdx) :
    freeBlock blockIdx v = .error (outsideDataRange v blockIdx) v := by
  rw [freeBlock, bind_error (checkDataBlock_error outside)]

theorem reserveBlock_taken (range : v.inRange blockIdx)
    (stored : (blockIdx - dataStartBlock) >>> 3 < v.blockBitmap.length)
    (hset : test v.blockBitmap (blockIdx - dataStartBlock) = true) :
    reserveBlock blockIdx v = .ok () v := by
  rw [reserveBlock, bind_ok (checkDataBlock_ok range), bind_ok (bitIsClear_ok stored), hset]
  rfl

theorem reserveBlock_eq (range : v.inRange blockIdx)
    (stored : (blockIdx - dataStartBlock) >>> 3 < v.blockBitmap.length)
    (hclear : test v.blockBitmap (blockIdx - dataStartBlock) = false) :
    reserveBlock blockIdx v = takeBit (blockIdx - dataStartBlock) v := by
  rw [reserveBlock, bind_ok (checkDataBlock_ok range), bind_ok (bitIsClear_ok stored), hclear,
    Bool.not_false, if_pos rfl]

theorem reserveBlock_ready (h : Ready v.file) (range : v.inRange blockIdx)
    (stored : (blockIdx - dataStartBlock) >>> 3 < v.blockBitmap.length)
    (free : test v.blockBitmap (blockIdx - dataStartBlock) = false → 0 < v.freeBlocks) :
    reserveBlock blockIdx v = .ok () (
      if test v.blockBitmap (blockIdx - dataStartBlock) then v
      else v.mapped (PackedBits.set v.blockBitmap (blockIdx - dataStartBlock))
        (v.freeBlocks - 1)) := by
  cases hbit : test v.blockBitmap (blockIdx - dataStartBlock) with
  | true => exact reserveBlock_taken range stored hbit
  | false =>
    rw [reserveBlock_eq range stored hbit, takeBit_ready h (free hbit)]
    rfl

theorem freeBlock_already_free (range : v.inRange blockIdx)
    (stored : (blockIdx - dataStartBlock) >>> 3 < v.blockBitmap.length)
    (hclear : test v.blockBitmap (blockIdx - dataStartBlock) = false) :
    freeBlock blockIdx v = .error
      (.raised .invalidInput ("block " ++ toString blockIdx ++ " is already free")) v := by
  rw [freeBlock, bind_ok (checkDataBlock_ok range), bind_ok (bitIsClear_ok stored), hclear,
    Bool.not_false, if_pos rfl]
  rfl

theorem freeBlock_eq (range : v.inRange blockIdx)
    (stored : (blockIdx - dataStartBlock) >>> 3 < v.blockBitmap.length)
    (hset : test v.blockBitmap (blockIdx - dataStartBlock) = true) :
    freeBlock blockIdx v = writeBitmap (released v (blockIdx - dataStartBlock)) := by
  rw [freeBlock, bind_ok (checkDataBlock_ok range), bind_ok (bitIsClear_ok stored), hset,
    Bool.not_true, if_neg (by decide), bind_ok (modify_apply _ v)]
  rfl

theorem freeBlock_ready (h : Ready v.file) (range : v.inRange blockIdx)
    (stored : (blockIdx - dataStartBlock) >>> 3 < v.blockBitmap.length)
    (hset : test v.blockBitmap (blockIdx - dataStartBlock) = true) :
    freeBlock blockIdx v = .ok () (
      v.mapped (PackedBits.clear v.blockBitmap (blockIdx - dataStartBlock))
        (v.freeBlocks + 1)) := by
  rw [freeBlock_eq range stored hset]
  exact writeBitmap_ready (v := released v (blockIdx - dataStartBlock)) h

end Block

end Ready

/-- What a container must hold for its volume to be opened again. -/
structure Intact (sb : SuperblockInfo) (v : Volume) : Prop where
  ready : Ready v.file
  length : v.file.bytes.length = v.totalBlocks * blockSize
  superblock : slice v.file.bytes 0 blockSize = writeSuperblock sb
  bitmap : slice v.file.bytes (bitmapStartBlock * blockSize) (bitmapBlocks * blockSize) =
    v.blockBitmap

/-- What an operation that writes to no data blocks but the touched ones can do to
a volume. -/
inductive Effect (touched : Nat → Prop) (v : Volume) : Volume → Prop where
  | moved (position : Nat) : Effect touched v (v.moved position)
  | stored (blockIdx : Nat) (content : Bytes) (allowed : touched blockIdx)
      (range : v.inRange blockIdx) (width : content.length = blockSize) :
      Effect touched v (v.written (blockIdx * blockSize) content)
  | mapped (bitmap : Bytes) (free : Nat) : Effect touched v (v.mapped bitmap free)

theorem Effect.refl {touched : Nat → Prop} (v : Volume) : Effect touched v v :=
  .moved v.file.cursor

section Regions

variable {v : Volume} {blockIdx : Nat}

theorem Volume.inRange.bounds (range : v.inRange blockIdx) :
    dataStartBlock * blockSize ≤ blockIdx * blockSize ∧
      blockIdx * blockSize + blockSize ≤ v.totalBlocks * blockSize := by
  refine ⟨Nat.mul_le_mul_right _ range.1, ?_⟩
  rw [← Nat.succ_mul]
  exact Nat.mul_le_mul_right _ range.2

theorem Sound.bit_of_inRange {T : Nat} {B : Bytes} (h : Sound T B v) (range : v.inRange blockIdx) :
    blockIdx - dataStartBlock < T - dataStartBlock := by
  have hblocks := h.blocks
  obtain ⟨hlower, hupper⟩ := range
  omega

theorem bitmap_bounds (lower : dataStartBlock ≤ v.totalBlocks) :
    bitmapStartBlock * blockSize + bitmapBlocks * blockSize ≤ v.totalBlocks * blockSize := by
  rw [← Nat.add_mul]
  exact Nat.mul_le_mul_right _ lower

theorem blocks_disjoint {i j : Nat} (hne : i ≠ j) :
    i * blockSize + blockSize ≤ j * blockSize ∨ j * blockSize + blockSize ≤ i * blockSize := by
  rw [← Nat.succ_mul, ← Nat.succ_mul]
  rcases Nat.lt_or_gt_of_ne hne with hlt | hlt
  · exact Or.inl (Nat.mul_le_mul_right _ hlt)
  · exact Or.inr (Nat.mul_le_mul_right _ hlt)

end Regions

namespace Effect

variable {touched : Nat → Prop} {sb : SuperblockInfo} {v w : Volume}

theorem masterKey (h : Effect touched v w) : w.masterKey = v.masterKey := by
  cases h <;> rfl

theorem totalBlocks (h : Effect touched v w) : w.totalBlocks = v.totalBlocks := by
  cases h <;> rfl

theorem blockAt (h : Effect touched v w) (before : Intact sb v) {blockIdx : Nat}
    (range : v.inRange blockIdx) (apart : ¬ touched blockIdx)
    (width : w.blockBitmap.length = bitmapBlocks * blockSize) :
    w.blockAt blockIdx = v.blockAt blockIdx := by
  obtain ⟨hlower, hupper⟩ := range.bounds
  have hlength := before.length
  cases h with
  | moved position => rfl
  | stored other content allowed hother hwidth =>
    have hne : blockIdx ≠ other := by
      rintro rfl
      exact apart allowed
    have hdisjoint := blocks_disjoint hne
    have hfits := hother.bounds.2
    rw [Volume.blockAt, Volume.written_bytes,
      slice_splice_of_disjoint (by omega) (by omega)]
    rfl
  | mapped bitmap free =>
    have hwidth : bitmap.length = bitmapBlocks * blockSize := width
    have hmeta : dataStartBlock * blockSize =
      bitmapStartBlock * blockSize + bitmapBlocks * blockSize := rfl
    rw [Volume.blockAt, Volume.mapped_bytes,
      slice_splice_of_disjoint (by omega) (by omega)]
    rfl

theorem intact (h : Effect touched v w) (before : Intact sb v)
    (lower : dataStartBlock ≤ v.totalBlocks)
    (width : w.blockBitmap.length = bitmapBlocks * blockSize) : Intact sb w := by
  cases h with
  | moved position =>
    exact ⟨ready_moved before.ready _, before.length, before.superblock, before.bitmap⟩
  | stored blockIdx content allowed range hwidth =>
    obtain ⟨hlower, hupper⟩ := range.bounds
    have hlength := before.length
    have hmeta : dataStartBlock * blockSize = blockSize + bitmapBlocks * blockSize := rfl
    have hstart : bitmapStartBlock * blockSize = blockSize := rfl
    refine ⟨ready_written before.ready _ _, ?_, ?_, ?_⟩
    · rw [Volume.written_bytes, splice_length (by omega)]
      exact hlength
    · rw [Volume.written_bytes, slice_splice_of_disjoint (by omega) (by omega)]
      exact before.superblock
    · rw [Volume.written_bytes, slice_splice_of_disjoint (by omega) (by omega)]
      exact before.bitmap
  | mapped bitmap free =>
    have hfits := bitmap_bounds lower
    have hlength := before.length
    have hwidth : bitmap.length = bitmapBlocks * blockSize := width
    have hstart : bitmapStartBlock * blockSize = blockSize := rfl
    refine ⟨ready_written before.ready _ _, ?_, ?_, ?_⟩
    · rw [Volume.mapped_bytes, splice_length (by omega)]
      exact hlength
    · rw [Volume.mapped_bytes, slice_splice_of_disjoint (by omega) (by omega)]
      exact before.superblock
    · rw [Volume.mapped_bytes, ← hwidth, slice_splice_self]
      rfl

end Effect

section Blocks

variable {touched : Nat → Prop} {V : VaultPrimitives} {sb : SuperblockInfo} {v : Volume}
  {blockIdx : Nat}

theorem Intact.fits (intact : Intact sb v) (range : v.inRange blockIdx) :
    blockIdx * blockSize + blockSize ≤ v.file.bytes.length := by
  rw [intact.length]
  exact range.bounds.2

theorem fetch_block (ready : Ready v.file)
    (fits : blockIdx * blockSize + blockSize ≤ v.file.bytes.length) :
    onFile (readExact blockSize) (v.moved (blockIdx * blockSize)) =
      .ok (v.blockAt blockIdx) (v.moved (blockIdx * blockSize + blockSize)) :=
  onFile_readExact (ready_moved ready _) fits

theorem readBlock_fits (ready : Ready v.file) (range : v.inRange blockIdx)
    (fits : blockIdx * blockSize + blockSize ≤ v.file.bytes.length)
    {payload : Exactly payloadSize}
    (opens : V.chachaDecrypt (deriveBlockKey V v.masterKey blockIdx)
      ((v.blockAt blockIdx).take nonceSize) ((v.blockAt blockIdx).drop nonceSize) =
        some payload.val) :
    readBlock V blockIdx v = .ok payload (v.moved (blockIdx * blockSize + blockSize)) := by
  rw [readBlock, bind_ok (checkDataBlock_ok range), bind_ok (onFile_seek ready _),
    bind_ok (fetch_block ready fits), bind_ok (get_apply _)]
  refine Eq.trans ?_ (copyPlaintext_some payload _)
  rw [← opens]
  rfl

theorem readBlock_ready (intact : Intact sb v) (range : v.inRange blockIdx)
    {payload : Exactly payloadSize}
    (opens : V.chachaDecrypt (deriveBlockKey V v.masterKey blockIdx)
      ((v.blockAt blockIdx).take nonceSize) ((v.blockAt blockIdx).drop nonceSize) =
        some payload.val) :
    readBlock V blockIdx v = .ok payload (v.moved (blockIdx * blockSize + blockSize)) :=
  readBlock_fits intact.ready range (intact.fits range) opens

theorem readBlock_outside (outside : ¬ v.inRange blockIdx) :
    readBlock V blockIdx v = .error (outsideDataRange v blockIdx) v := by
  rw [readBlock, bind_error (checkDataBlock_error outside)]

theorem ok_of_readBlock {w : Volume} {payload : Exactly payloadSize}
    (h : readBlock V blockIdx v = .ok payload w) :
    v.inRange blockIdx ∧ blockIdx * blockSize + blockSize ≤ v.file.bytes.length ∧
      V.chachaDecrypt (deriveBlockKey V v.masterKey blockIdx)
        ((v.blockAt blockIdx).take nonceSize) ((v.blockAt blockIdx).drop nonceSize) =
          some payload.val := by
  by_cases range : v.inRange blockIdx
  · rw [readBlock, bind_ok (checkDataBlock_ok range)] at h
    obtain ⟨⟨⟩, v₁, hseek, h⟩ := ok_of_bind h
    obtain ⟨raw, v₂, hread, h⟩ := ok_of_bind h
    obtain ⟨f₁, hmoved, rfl⟩ := ok_of_onFile hseek
    obtain ⟨f₂, hfetched, rfl⟩ := ok_of_onFile hread
    obtain ⟨hraw, hfits, -⟩ := ok_of_readExact hfetched
    rw [ok_of_seek hmoved] at hraw hfits
    have hblock : raw = v.blockAt blockIdx := hraw
    rw [bind_ok (get_apply _), hblock] at h
    exact ⟨range, hfits, ok_of_copyPlaintext h⟩
  · rw [readBlock_outside range] at h
    cases h

theorem fetch_short (ready : Ready v.file)
    (short : v.file.bytes.length < blockIdx * blockSize + blockSize) :
    onFile (readExact blockSize) (v.moved (blockIdx * blockSize)) =
      .error (.raised .unexpectedEof "failed to fill whole buffer")
        (v.moved (max (blockIdx * blockSize) v.file.bytes.length)) := by
  obtain ⟨⟨present, bytes, cursor, script⟩, masterKey, total, free, bitmap⟩ := v
  obtain rfl : script = [] := ready.healthy
  exact onFile_error (readExact_short rfl short)

theorem readBlock_moves (ready : Ready v.file) (blockIdx : Nat) :
    ∃ position, finalState (readBlock V blockIdx v) = v.moved position := by
  by_cases range : v.inRange blockIdx
  · rw [readBlock, bind_ok (checkDataBlock_ok range), bind_ok (onFile_seek ready _)]
    by_cases fits : blockIdx * blockSize + blockSize ≤ v.file.bytes.length
    · rw [bind_ok (fetch_block ready fits), bind_ok (get_apply _)]
      exact ⟨_, finalState_copyPlaintext _ _⟩
    · rw [bind_error (fetch_short ready (Nat.lt_of_not_le fits))]
      exact ⟨_, rfl⟩
  · rw [readBlock_outside range]
    exact ⟨v.file.cursor, rfl⟩

theorem readBlock_effect (intact : Intact sb v) :
    Effect touched v (finalState (readBlock V blockIdx v)) := by
  obtain ⟨position, hmoved⟩ := readBlock_moves (V := V) intact.ready blockIdx
  rw [hmoved]
  exact .moved position

theorem sealed_length (tagged : V.ChachaTagged) {key ciphertext : Bytes}
    {plaintext : Exactly payloadSize} {nonce : Exactly nonceSize}
    (seals : V.chachaEncrypt key nonce plaintext = some ciphertext) :
    (nonce ++ ciphertext).length = blockSize := by
  rw [List.length_append, nonce.property, tagged seals, plaintext.property]
  rfl

theorem Volume.written_appended {offset : Nat} {data more : Bytes} :
    (v.written offset data).appended more = v.written offset (data ++ more) := by
  rw [Volume.written, Volume.written, Volume.appended, Volume.appended, Volume.appended, put_put]

/-- The system calls of a `write_block` whose payload was sealed. -/
def storeSealed (blockIdx : Nat) (nonce ciphertext : Bytes) : VolumeM Unit := do
  onFile (seek (blockIdx * blockSize))
  onFile (writeAll nonce)
  onFile (writeAll ciphertext)
  onFile freezeTimestamps

theorem writeBlock_eq (range : v.inRange blockIdx)
    {plaintext : Exactly payloadSize} {nonce : Exactly nonceSize} {ciphertext : Bytes}
    (seals : V.chachaEncrypt (deriveBlockKey V v.masterKey blockIdx) nonce plaintext =
      some ciphertext) :
    writeBlock V blockIdx plaintext nonce v = storeSealed blockIdx nonce ciphertext v := by
  rw [writeBlock, bind_ok (checkDataBlock_ok range), bind_ok (get_apply v)]
  simp only [seals]
  rfl

theorem writeBlock_ready (ready : Ready v.file) (range : v.inRange blockIdx)
    {plaintext : Exactly payloadSize} {nonce : Exactly nonceSize} {ciphertext : Bytes}
    (seals : V.chachaEncrypt (deriveBlockKey V v.masterKey blockIdx) nonce plaintext =
      some ciphertext) :
    writeBlock V blockIdx plaintext nonce v =
      .ok () (v.written (blockIdx * blockSize) (nonce ++ ciphertext)) := by
  have hmoved := ready_moved ready (blockIdx * blockSize)
  have happended := ready_appended hmoved nonce.val
  rw [writeBlock_eq range seals, storeSealed, bind_ok (onFile_seek ready _),
    bind_ok (onFile_writeAll hmoved _), bind_ok (onFile_writeAll happended _),
    onFile_freezeTimestamps (ready_appended happended _)]
  exact congrArg (EStateM.Result.ok ()) Volume.written_appended

theorem blockAt_written (v : Volume) (blockIdx : Nat) {content : Bytes}
    (width : content.length = blockSize) :
    (v.written (blockIdx * blockSize) content).blockAt blockIdx = content := by
  have hself : slice (splice v.file.bytes (blockIdx * blockSize) content) (blockIdx * blockSize)
      content.length = content := slice_splice_self
  rwa [width] at hself

theorem writeBlock_outside (outside : ¬ v.inRange blockIdx) (plaintext : Exactly payloadSize)
    (nonce : Exactly nonceSize) :
    writeBlock V blockIdx plaintext nonce v = .error (outsideDataRange v blockIdx) v := by
  rw [writeBlock, bind_error (checkDataBlock_error outside)]

theorem writeBlock_unsealed {plaintext : Exactly payloadSize} {nonce : Exactly nonceSize}
    (range : v.inRange blockIdx)
    (fails : V.chachaEncrypt (deriveBlockKey V v.masterKey blockIdx) nonce plaintext = none) :
    writeBlock V blockIdx plaintext nonce v =
      .error (.raised .other "AEAD encryption failed") v := by
  rw [writeBlock, bind_ok (checkDataBlock_ok range), bind_ok (get_apply v)]
  simp only [fails]
  rfl

theorem writeBlock_effect (tagged : V.ChachaTagged) (intact : Intact sb v)
    (plaintext : Exactly payloadSize) (nonce : Exactly nonceSize) :
    Effect (· = blockIdx) v (finalState (writeBlock V blockIdx plaintext nonce v)) := by
  by_cases range : v.inRange blockIdx
  · cases hseal : V.chachaEncrypt (deriveBlockKey V v.masterKey blockIdx) nonce plaintext with
    | none =>
      rw [writeBlock_unsealed range hseal]
      exact .refl v
    | some ciphertext =>
      rw [writeBlock_ready intact.ready range hseal]
      exact .stored blockIdx _ rfl range (sealed_length tagged hseal)
  · rw [writeBlock_outside range]
    exact .refl v

theorem readBlockRaw_effect (intact : Intact sb v) :
    Effect touched v (finalState (readBlockRaw blockIdx v)) := by
  by_cases range : v.inRange blockIdx
  · rw [readBlockRaw, bind_ok (checkDataBlock_ok range), bind_ok (onFile_seek intact.ready _),
      fetch_block intact.ready (intact.fits range)]
    exact .moved _
  · rw [readBlockRaw, bind_error (checkDataBlock_error range)]
    exact .refl v

theorem writeBlockRaw_ready (ready : Ready v.file)
    (range : v.inRange blockIdx) (data : Exactly blockSize) :
    writeBlockRaw blockIdx data v = .ok () (v.written (blockIdx * blockSize) data) := by
  rw [writeBlockRaw, bind_ok (checkDataBlock_ok range), bind_ok (onFile_seek ready _),
    onFile_writeAll (ready_moved ready _)]
  rfl

theorem writeBlockRaw_effect (intact : Intact sb v) (data : Exactly blockSize) :
    Effect (· = blockIdx) v (finalState (writeBlockRaw blockIdx data v)) := by
  by_cases range : v.inRange blockIdx
  · rw [writeBlockRaw_ready intact.ready range]
    exact .stored blockIdx _ rfl range data.property
  · rw [writeBlockRaw, bind_error (checkDataBlock_error range)]
    exact .refl v

end Blocks

section Allocation

variable {touched : Nat → Prop} {T : Nat} {B : Bytes} {v : Volume}

theorem allocateBlock_effect (sound : Sound T B v) (ready : Ready v.file) :
    Effect touched v (finalState (allocateBlock v)) := by
  by_cases full : v.freeBlocks = 0
  · rw [allocateBlock_full full]
    exact .refl v
  · obtain ⟨i, hi, hclear, hset⟩ := sound.first_clear full
    rw [allocateBlock_ready sound ready hi hclear hset]
    exact .mapped _ _

theorem reserveBlock_effect (sound : Sound T B v) (ready : Ready v.file) (blockIdx : Nat) :
    Effect touched v (finalState (reserveBlock blockIdx v)) := by
  by_cases range : v.inRange blockIdx
  · have hi := sound.bit_of_inRange range
    rw [reserveBlock_ready ready range (sound.stored hi) (sound.free_pos hi)]
    split_ifs
    · exact .refl v
    · exact .mapped _ _
  · rw [reserveBlock_outside range]
    exact .refl v

theorem freeBlock_effect (sound : Sound T B v) (ready : Ready v.file) (blockIdx : Nat) :
    Effect touched v (finalState (freeBlock blockIdx v)) := by
  by_cases range : v.inRange blockIdx
  · have hstored := sound.stored (sound.bit_of_inRange range)
    cases hbit : test v.blockBitmap (blockIdx - dataStartBlock) with
    | false =>
      rw [freeBlock_already_free range hstored hbit]
      exact .refl v
    | true =>
      rw [freeBlock_ready ready range hstored hbit]
      exact .mapped _ _
  · rw [freeBlock_outside range]
    exact .refl v

def VolumeOp.touches : VolumeOp → Nat → Prop
  | .writeBlock blockIdx _ _ | .writeBlockRaw blockIdx _ => (· = blockIdx)
  | _ => fun _ => False

theorem program_effect {V : VaultPrimitives} {sb : SuperblockInfo} (tagged : V.ChachaTagged)
    (sound : Sound T B v) (intact : Intact sb v) (op : VolumeOp) :
    Effect op.touches v (finalState (op.program V v)) := by
  cases op with
  | readBlock blockIdx =>
    exact (finalState_bind_pure _ _ v).symm ▸ readBlock_effect intact
  | writeBlock blockIdx plaintext nonce =>
    exact (finalState_bind_pure _ _ v).symm ▸ writeBlock_effect tagged intact plaintext nonce
  | readBlockRaw blockIdx =>
    exact (finalState_bind_pure _ _ v).symm ▸ readBlockRaw_effect intact
  | writeBlockRaw blockIdx data =>
    exact (finalState_bind_pure _ _ v).symm ▸ writeBlockRaw_effect intact data
  | allocateBlock =>
    exact (finalState_bind_pure _ _ v).symm ▸ allocateBlock_effect sound intact.ready
  | reserveBlock blockIdx =>
    exact (finalState_bind_pure _ _ v).symm ▸ reserveBlock_effect sound intact.ready blockIdx
  | freeBlock blockIdx =>
    exact (finalState_bind_pure _ _ v).symm ▸ freeBlock_effect sound intact.ready blockIdx

end Allocation

end SecureCore.VirtualVolume
