import SecureCore.FaultyFile
import SecureCore.PackedBits
import SecureCore.Superblock

/-! `virtual_volume.rs`: the vault container with its allocation bitmap and
encrypted data blocks. Panics of the Rust code (an index out of range, a
subtraction below zero, a slice copy of unequal lengths) are failures of the
model. The nonce that `write_block` draws from `OsRng` is an argument. The path
is the one file of `FaultyFile`; it had no NUL byte when it was opened, so the
conversion to a C string in `freeze_timestamps` cannot fail. `bitmap_write_count`
is written once and never read. -/

namespace SecureCore.VirtualVolume

open FaultyFile FallibleState PackedBits

structure Volume where
  file : File
  masterKey : Bytes
  totalBlocks : Nat
  freeBlocks : Nat
  blockBitmap : Bytes
  deriving DecidableEq, Repr

abbrev VolumeM := EStateM Failure Volume

def onFile {α : Type} (m : FileM α) : VolumeM α :=
  zoom Volume.file (fun f v => { v with file := f }) m

def indexOutOfBounds : Failure := .panic "index out of bounds"

def subtractOverflow : Failure := .panic "attempt to subtract with overflow"

def bitmapInconsistency : Failure :=
  .raised .storageFull "bitmap inconsistency: free_blocks > 0 but no free bits found"

def indexed {σ : Type} (bytes : Bytes) (i : Nat) : EStateM Failure σ UInt8 :=
  match bytes[i]? with
  | some byte => pure byte
  | none => throw indexOutOfBounds

def subtract {σ : Type} (x y : Nat) : EStateM Failure σ Nat :=
  if x < y then throw subtractOverflow else pure (x - y)

section Construction

variable (V : VaultPrimitives)

def createNew (masterKey : Bytes) (totalDataBlocks : Nat) : FileM Volume := do
  let totalBlocks := dataStartBlock + totalDataBlocks
  openNew
  setLen (totalBlocks * blockSize)
  seek 0
  writeAll (writeSuperblock
    ⟨vaultVersion, totalBlocks, totalDataBlocks, hashMasterKey V masterKey⟩)
  let bitmap := List.replicate (bitmapBlocks * blockSize) 0
  seek (bitmapStartBlock * blockSize)
  writeAll bitmap
  syncAll
  let file ← get
  pure ⟨file, masterKey, totalBlocks, totalDataBlocks, bitmap⟩

/-- The loop of `open_existing` over the bits from `bitIdx` on. -/
def countFree {σ : Type} (bitmap : Bytes) :
    (remaining bitIdx actualFree : Nat) → EStateM Failure σ Nat
  | 0, _, actualFree => pure actualFree
  | remaining + 1, bitIdx, actualFree => do
    let byte ← indexed bitmap (bitIdx >>> 3)
    countFree bitmap remaining (bitIdx + 1)
      (if byte &&& mask bitIdx = 0 then actualFree + 1 else actualFree)

/-- The part of `open_existing` from the key check on. -/
def openAuthenticated (masterKey : Bytes) (sb : SuperblockInfo) : FileM Volume := do
  if hashMasterKey V masterKey ≠ sb.masterKeyHash then
    throw (.raised .permissionDenied
      "master key does not match the key that created this vault")
  else do
    seek (bitmapStartBlock * blockSize)
    let bitmap ← readExact (bitmapBlocks * blockSize)
    if sb.totalBlocks < dataStartBlock ∨ dataStartBlock + maxDataBlocks < sb.totalBlocks then
      throw (.raised .invalidData "superblock total_blocks out of range")
    else do
      let actualFree ← countFree bitmap (sb.totalBlocks - dataStartBlock) 0 0
      let file ← get
      pure ⟨file, masterKey, sb.totalBlocks, actualFree, bitmap⟩

def openExisting (masterKey : Bytes) : FileM Volume := do
  FaultyFile.openExisting
  seek 0
  let raw ← readExact blockSize
  match readSuperblock raw with
  | none => throw (.raised .invalidData
      "vault.sec superblock magic mismatch — file is not a valid vault container")
  | some sb => openAuthenticated V masterKey sb

/-- `metadata(path).map(|m| m.len() == 0).unwrap_or(true)`. -/
def isEmpty : FileM Bool := fun f =>
  match metadata f with
  | .ok length f => .ok (length == 0) f
  | .error _ f => .ok true f

def openOrCreate (masterKey : Bytes) (totalDataBlocks : Nat) : FileM Volume := do
  if maxDataBlocks < totalDataBlocks then
    throw (.raised .invalidInput ("total_data_blocks " ++ toString totalDataBlocks ++
      " exceeds bitmap capacity " ++ toString maxDataBlocks))
  else do
    let empty ← isEmpty
    let exists? ← pathExists
    if exists? && !empty then openExisting V masterKey
    else do
      if ← pathExists then removeFile else pure ()
      createNew V masterKey totalDataBlocks

end Construction

def outsideDataRange (v : Volume) (blockIdx : Nat) : Failure :=
  .raised .invalidInput ("block " ++ toString blockIdx ++ " is outside data range [" ++
    toString dataStartBlock ++ ".." ++ toString v.totalBlocks ++ ")")

def checkDataBlock (blockIdx : Nat) : VolumeM Unit := do
  let v ← get
  if blockIdx < dataStartBlock ∨ v.totalBlocks ≤ blockIdx then
    throw (outsideDataRange v blockIdx)
  else pure ()

/-- Metadata, access time, modification time and `utimes`, each of which may fail. -/
def freezeTimestamps : FileM Unit := do
  let _ ← metadata
  call (pure ())
  call (pure ())
  call (pure ())

def writeBitmap : VolumeM Unit := do
  onFile (seek (bitmapStartBlock * blockSize))
  onFile (writeAll (← get).blockBitmap)
  onFile syncAll
  onFile freezeTimestamps

section BlockIO

variable (V : VaultPrimitives)

/-- The end of `read_block`: a failed decryption is an error, a plaintext of
another length than the output buffer a panic. -/
def copyPlaintext : Option Bytes → VolumeM (Exactly payloadSize)
  | none => throw (.raised .invalidData "AEAD decryption failed")
  | some plaintext =>
    if h : plaintext.length = payloadSize then pure ⟨plaintext, h⟩
    else throw (.panic "source slice length does not match destination slice length")

def readBlock (blockIdx : Nat) : VolumeM (Exactly payloadSize) := do
  checkDataBlock blockIdx
  onFile (seek (blockIdx * blockSize))
  let raw ← onFile (readExact blockSize)
  let key := deriveBlockKey V (← get).masterKey blockIdx
  copyPlaintext (V.chachaDecrypt key (raw.take nonceSize) (raw.drop nonceSize))

def writeBlock (blockIdx : Nat) (plaintext : Exactly payloadSize) (nonce : Exactly nonceSize) :
    VolumeM Unit := do
  checkDataBlock blockIdx
  let key := deriveBlockKey V (← get).masterKey blockIdx
  match V.chachaEncrypt key nonce plaintext with
  | none => throw (.raised .other "AEAD encryption failed")
  | some ciphertext => do
    onFile (seek (blockIdx * blockSize))
    onFile (writeAll nonce)
    onFile (writeAll ciphertext)
    onFile freezeTimestamps

end BlockIO

def readBlockRaw (blockIdx : Nat) : VolumeM Bytes := do
  checkDataBlock blockIdx
  onFile (seek (blockIdx * blockSize))
  onFile (readExact blockSize)

def writeBlockRaw (blockIdx : Nat) (data : Exactly blockSize) : VolumeM Unit := do
  checkDataBlock blockIdx
  onFile (seek (blockIdx * blockSize))
  onFile (writeAll data)

def bitIsClear (bitIdx : Nat) : VolumeM Bool := do
  let byte ← indexed (← get).blockBitmap (bitIdx >>> 3)
  pure (byte &&& mask bitIdx == 0)

def takeBit (bitIdx : Nat) : VolumeM Unit := do
  modify fun v => { v with blockBitmap := PackedBits.set v.blockBitmap bitIdx }
  let free ← subtract (← get).freeBlocks 1
  modify fun v => { v with freeBlocks := free }
  writeBitmap

/-- The loop of `allocate_block` over the bits from `bitIdx` on. -/
def allocateScan : (remaining bitIdx : Nat) → VolumeM Nat
  | 0, _ => throw bitmapInconsistency
  | remaining + 1, bitIdx => do
    if ← bitIsClear bitIdx then do
      takeBit bitIdx
      pure (dataStartBlock + bitIdx)
    else allocateScan remaining (bitIdx + 1)

def allocateBlock : VolumeM Nat := do
  let v ← get
  if v.freeBlocks = 0 then throw (.raised .storageFull "no free blocks remaining in vault")
  else do
    let totalData ← subtract v.totalBlocks dataStartBlock
    allocateScan totalData 0

def reserveBlock (blockIdx : Nat) : VolumeM Unit := do
  checkDataBlock blockIdx
  let bitIdx := blockIdx - dataStartBlock
  if ← bitIsClear bitIdx then takeBit bitIdx else pure ()

def freeBlock (blockIdx : Nat) : VolumeM Unit := do
  checkDataBlock blockIdx
  let bitIdx := blockIdx - dataStartBlock
  if ← bitIsClear bitIdx then
    throw (.raised .invalidInput ("block " ++ toString blockIdx ++ " is already free"))
  else do
    modify fun v => { v with
      blockBitmap := PackedBits.clear v.blockBitmap bitIdx
      freeBlocks := v.freeBlocks + 1 }
    writeBitmap

inductive VolumeOp where
  | readBlock (blockIdx : Nat)
  | writeBlock (blockIdx : Nat) (plaintext : Exactly payloadSize) (nonce : Exactly nonceSize)
  | readBlockRaw (blockIdx : Nat)
  | writeBlockRaw (blockIdx : Nat) (data : Exactly blockSize)
  | allocateBlock
  | reserveBlock (blockIdx : Nat)
  | freeBlock (blockIdx : Nat)
  deriving DecidableEq

inductive VolumeReply where
  | done
  | block (blockIdx : Nat)
  | payload (plaintext : Exactly payloadSize)
  | raw (bytes : Bytes)
  deriving DecidableEq

section Equations

variable {v : Volume} {blockIdx bitIdx : Nat}

theorem onFile_ok {α : Type} {m : FileM α} {a : α} {f : File} (h : m v.file = .ok a f) :
    onFile m v = .ok a { v with file := f } := zoom_ok h

theorem onFile_error {α : Type} {m : FileM α} {e : Failure} {f : File}
    (h : m v.file = .error e f) : onFile m v = .error e { v with file := f } := zoom_error h

theorem finalState_onFile {α : Type} (m : FileM α) (v : Volume) :
    finalState (onFile m v) = { v with file := finalState (m v.file) } := finalState_zoom v

theorem ok_of_onFile {α : Type} {m : FileM α} {a : α} {w : Volume} (h : onFile m v = .ok a w) :
    ∃ f, m v.file = .ok a f ∧ w = { v with file := f } := by
  cases hrun : m v.file with
  | ok b f =>
    rw [onFile_ok hrun] at h
    cases h
    exact ⟨f, rfl, rfl⟩
  | error e f =>
    rw [onFile_error hrun] at h
    cases h

theorem checkDataBlock_ok (h : dataStartBlock ≤ blockIdx ∧ blockIdx < v.totalBlocks) :
    checkDataBlock blockIdx v = .ok () v := by
  rw [checkDataBlock, bind_ok (get_apply v), if_neg (by omega)]
  rfl

theorem checkDataBlock_error (h : ¬ (dataStartBlock ≤ blockIdx ∧ blockIdx < v.totalBlocks)) :
    checkDataBlock blockIdx v = .error (outsideDataRange v blockIdx) v := by
  rw [checkDataBlock, bind_ok (get_apply v), if_pos (by omega)]
  rfl

theorem indexed_ok {σ : Type} {bytes : Bytes} {i : Nat} (h : i < bytes.length) (s : σ) :
    indexed bytes i s = .ok (bytes.getD i 0) s := by
  rw [indexed, List.getD_eq_getElem?_getD, List.getElem?_eq_getElem h]
  rfl

theorem bitIsClear_ok (stored : bitIdx >>> 3 < v.blockBitmap.length) :
    bitIsClear bitIdx v = .ok (!test v.blockBitmap bitIdx) v := by
  rw [bitIsClear, bind_ok (get_apply v), bind_ok (indexed_ok stored v), pure_apply, test,
    bne, Bool.not_not]

theorem copyPlaintext_some (payload : Exactly payloadSize) (v : Volume) :
    copyPlaintext (some payload.val) v = .ok payload v := by
  rw [copyPlaintext, dif_pos payload.property]
  rfl

theorem ok_of_copyPlaintext {decrypted : Option Bytes} {payload : Exactly payloadSize}
    {w : Volume}
    (h : copyPlaintext decrypted v = .ok payload w) : decrypted = some payload.val := by
  cases decrypted with
  | none => cases h
  | some plaintext =>
    rw [copyPlaintext] at h
    split_ifs at h
    · cases h
      rfl
    · cases h

theorem finalState_copyPlaintext (decrypted : Option Bytes) (v : Volume) :
    finalState (copyPlaintext decrypted v) = v := by
  cases decrypted with
  | none => rfl
  | some plaintext =>
    rw [copyPlaintext]
    split_ifs <;> rfl

def taken (v : Volume) (bitIdx : Nat) : Volume :=
  { v with blockBitmap := PackedBits.set v.blockBitmap bitIdx, freeBlocks := v.freeBlocks - 1 }

def released (v : Volume) (bitIdx : Nat) : Volume :=
  { v with blockBitmap := PackedBits.clear v.blockBitmap bitIdx, freeBlocks := v.freeBlocks + 1 }

theorem takeBit_eq (h : 0 < v.freeBlocks) : takeBit bitIdx v = writeBitmap (taken v bitIdx) := by
  have hsub : ∀ w : Volume, subtract v.freeBlocks 1 w = .ok (v.freeBlocks - 1) w := by
    intro w
    rw [subtract, if_neg (by omega)]
    rfl
  rw [takeBit, bind_ok (modify_apply _ v), bind_ok (get_apply _), bind_ok (hsub _),
    bind_ok (modify_apply _ _)]
  rfl

end Equations

section Fresh

variable (V : VaultPrimitives) (masterKey : Bytes) (totalDataBlocks : Nat) (f : File)

def freshSuperblock : SuperblockInfo :=
  ⟨vaultVersion, dataStartBlock + totalDataBlocks, totalDataBlocks, hashMasterKey V masterKey⟩

def freshBitmap : Bytes := List.replicate (bitmapBlocks * blockSize) 0

def freshImage : Bytes :=
  ByteImage.splice (ByteImage.splice
      (ByteImage.resize [] ((dataStartBlock + totalDataBlocks) * blockSize))
      0 (writeSuperblock (freshSuperblock V masterKey totalDataBlocks)))
    (bitmapStartBlock * blockSize) freshBitmap

def freshVolume : Volume :=
  { file := { f with
      exists? := true
      bytes := freshImage V masterKey totalDataBlocks
      cursor := bitmapStartBlock * blockSize + freshBitmap.length }
    masterKey := masterKey
    totalBlocks := dataStartBlock + totalDataBlocks
    freeBlocks := totalDataBlocks
    blockBitmap := freshBitmap }

variable {V masterKey totalDataBlocks f}

theorem createNew_healthy (healthy : Healthy f) (absent : f.exists? = false) :
    createNew V masterKey totalDataBlocks f =
      .ok (freshVolume V masterKey totalDataBlocks f)
        (freshVolume V masterKey totalDataBlocks f).file := by
  rw [createNew, bind_ok (openNew_healthy healthy absent), bind_ok (setLen_healthy ?_ _),
    bind_ok (seek_healthy ?_ _), bind_ok (writeAll_healthy ?_ _), bind_ok (seek_healthy ?_ _),
    bind_ok (writeAll_healthy ?_ _), bind_ok (syncAll_healthy ?_), bind_ok (get_apply _)]
  · rfl
  all_goals exact healthy

def absentFile : File := ⟨false, [], 0, []⟩

def sampleKey : Bytes := List.replicate 32 7

def sampleVolume : Volume := freshVolume symbolicVault sampleKey 3 absentFile

theorem createNew_sample :
    createNew symbolicVault sampleKey 3 absentFile = .ok sampleVolume sampleVolume.file :=
  createNew_healthy rfl rfl

end Fresh

namespace VolumeOp

variable (V : VaultPrimitives)

def program : VolumeOp → VolumeM VolumeReply
  | readBlock blockIdx => do pure (.payload (← VirtualVolume.readBlock V blockIdx))
  | writeBlock blockIdx plaintext nonce => do
    VirtualVolume.writeBlock V blockIdx plaintext nonce
    pure .done
  | readBlockRaw blockIdx => do pure (.raw (← VirtualVolume.readBlockRaw blockIdx))
  | writeBlockRaw blockIdx data => do
    VirtualVolume.writeBlockRaw blockIdx data
    pure .done
  | allocateBlock => do pure (.block (← VirtualVolume.allocateBlock))
  | reserveBlock blockIdx => do
    VirtualVolume.reserveBlock blockIdx
    pure .done
  | freeBlock blockIdx => do
    VirtualVolume.freeBlock blockIdx
    pure .done

def exec (op : VolumeOp) (v : Volume) : Except Failure VolumeReply × Volume :=
  match op.program V v with
  | .ok reply w => (.ok reply, w)
  | .error failure w => (.error failure, w)

variable {V} {α : Type} {op : VolumeOp} {m : VolumeM α} {wrap : α → VolumeReply} {v w : Volume}

theorem exec_of_ok (wraps : op.program V = m >>= fun a => pure (wrap a)) {a : α}
    (run : m v = .ok a w) : op.exec V v = (.ok (wrap a), w) := by
  rw [exec, wraps, bind_ok run]
  rfl

theorem exec_of_error (wraps : op.program V = m >>= fun a => pure (wrap a)) {failure : Failure}
    (run : m v = .error failure w) : op.exec V v = (.error failure, w) := by
  rw [exec, wraps, bind_error run]

end VolumeOp

def Volume.after (V : VaultPrimitives) (v : Volume) (ops : List VolumeOp) : Volume :=
  ops.foldl (fun v op => (op.exec V v).2) v

def Volume.replies (V : VaultPrimitives) :
    Volume → List VolumeOp → List (Except Failure VolumeReply)
  | _, [] => []
  | v, op :: ops => (op.exec V v).1 :: Volume.replies V (op.exec V v).2 ops

/-- What dropping a volume leaves behind; the result of the last sync is ignored. -/
def drop (v : Volume) : File := finalState (syncAll v.file)

end SecureCore.VirtualVolume
