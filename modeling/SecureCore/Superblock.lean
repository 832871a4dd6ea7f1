import SecureCore.ByteImage
import SecureCore.SymbolicPrimitives

/-! Layout of the vault container and its superblock. Block 0 is the superblock,
blocks 1 to 8 the allocation bitmap, data blocks follow. `u64` values are
natural numbers; those that reach the disk are written in 8 bytes. -/

namespace SecureCore.VirtualVolume

open ByteImage

def blockSize : Nat := 4096

def payloadSize : Nat := blockSize - 16 - 12

def nonceSize : Nat := 12

def superblockMagic : Nat := 0x53454333

def vaultVersion : Nat := 3

def bitmapStartBlock : Nat := 1

def bitmapBlocks : Nat := 8

def dataStartBlock : Nat := bitmapStartBlock + bitmapBlocks

def maxDataBlocks : Nat := bitmapBlocks * blockSize * 8

abbrev Exactly (n : Nat) := { bytes : Bytes // bytes.length = n }

/-- `sha2`, `hmac` and `chacha20poly1305`; a digest is a `[u8; 32]`. -/
structure VaultPrimitives where
  sha256 : Bytes → Exactly 32
  hmacSha256 : (key message : Bytes) → Exactly 32
  chachaEncrypt : (key nonce plaintext : Bytes) → Option Bytes
  chachaDecrypt : (key nonce ciphertext : Bytes) → Option Bytes

def VaultPrimitives.ChachaTagged (V : VaultPrimitives) : Prop :=
  ∀ ⦃key nonce pt ct : Bytes⦄, V.chachaEncrypt key nonce pt = some ct →
    ct.length = pt.length + 16

def VaultPrimitives.ChachaInverts (V : VaultPrimitives) : Prop :=
  ∀ ⦃key nonce pt ct : Bytes⦄, V.chachaEncrypt key nonce pt = some ct →
    V.chachaDecrypt key nonce ct = some pt

def symbolicVault : VaultPrimitives where
  sha256 bytes := ⟨SymbolicPrimitives.fit32 bytes, SymbolicPrimitives.fit32_length bytes⟩
  hmacSha256 key message :=
    ⟨SymbolicPrimitives.fit32 (message ++ key), SymbolicPrimitives.fit32_length _⟩
  chachaEncrypt _ _ pt := some (pt ++ List.replicate 16 0)
  chachaDecrypt _ _ ct := some (ct.take (ct.length - 16))

theorem symbolicVault_chachaTagged : symbolicVault.ChachaTagged := by
  intro key nonce pt ct h
  cases h
  simp

theorem symbolicVault_chachaInverts : symbolicVault.ChachaInverts := by
  intro key nonce pt ct h
  cases h
  simp [symbolicVault]

def hashMasterKey (V : VaultPrimitives) (key : Bytes) : Exactly 32 := V.sha256 key

def deriveBlockKey (V : VaultPrimitives) (master : Bytes) (blockIdx : Nat) : Exactly 32 :=
  V.hmacSha256 master (LittleEndian.encode 8 blockIdx ++ ascii "blk_key_v1")

structure SuperblockInfo where
  version : Nat
  totalBlocks : Nat
  freeBlocks : Nat
  masterKeyHash : Bytes
  deriving DecidableEq, Repr

def readSuperblock (raw : Bytes) : Option SuperblockInfo :=
  if LittleEndian.decode (slice raw 0 4) ≠ superblockMagic then none
  else some
    { version := LittleEndian.decode (slice raw 4 4)
      totalBlocks := LittleEndian.decode (slice raw 8 8)
      freeBlocks := LittleEndian.decode (slice raw 16 8)
      masterKeyHash := slice raw 24 32 }

/-- All 4096 bytes are overwritten, those past offset 56 with zeros. -/
def writeSuperblock (info : SuperblockInfo) : Bytes :=
  LittleEndian.encode 4 superblockMagic ++ LittleEndian.encode 4 info.version ++
    LittleEndian.encode 8 info.totalBlocks ++ LittleEndian.encode 8 info.freeBlocks ++
    info.masterKeyHash ++ List.replicate (blockSize - 56) 0

theorem writeSuperblock_length {info : SuperblockInfo} (hash : info.masterKeyHash.length = 32) :
    (writeSuperblock info).length = blockSize := by
  simp only [writeSuperblock, List.length_append, LittleEndian.encode_length,
    List.length_replicate, hash]
  rfl

theorem slice_writeSuperblock {info : SuperblockInfo} (hash : info.masterKeyHash.length = 32) :
    slice (writeSuperblock info) 0 4 = LittleEndian.encode 4 superblockMagic ∧
      slice (writeSuperblock info) 4 4 = LittleEndian.encode 4 info.version ∧
      slice (writeSuperblock info) 8 8 = LittleEndian.encode 8 info.totalBlocks ∧
      slice (writeSuperblock info) 16 8 = LittleEndian.encode 8 info.freeBlocks ∧
      slice (writeSuperblock info) 24 32 = info.masterKeyHash := by
  unfold writeSuperblock
  generalize hm : LittleEndian.encode 4 superblockMagic = m
  generalize hv : LittleEndian.encode 4 info.version = v
  generalize ht : LittleEndian.encode 8 info.totalBlocks = t
  generalize hf : LittleEndian.encode 8 info.freeBlocks = f
  generalize List.replicate (blockSize - 56) (0 : UInt8) = zeros
  have hm : m.length = 4 := by simp [← hm]
  have hv : v.length = 4 := by simp [← hv]
  have ht : t.length = 8 := by simp [← ht]
  have hf : f.length = 8 := by simp [← hf]
  refine ⟨?_, ?_, ?_, ?_, ?_⟩
  · rw [show m ++ v ++ t ++ f ++ info.masterKeyHash ++ zeros =
      [] ++ m ++ (v ++ t ++ f ++ info.masterKeyHash ++ zeros) by simp]
    exact slice_field rfl hm
  · rw [show m ++ v ++ t ++ f ++ info.masterKeyHash ++ zeros =
      m ++ v ++ (t ++ f ++ info.masterKeyHash ++ zeros) by simp]
    exact slice_field hm hv
  · rw [show m ++ v ++ t ++ f ++ info.masterKeyHash ++ zeros =
      m ++ v ++ t ++ (f ++ info.masterKeyHash ++ zeros) by simp]
    exact slice_field (by simp [hm, hv]) ht
  · rw [show m ++ v ++ t ++ f ++ info.masterKeyHash ++ zeros =
      m ++ v ++ t ++ f ++ (info.masterKeyHash ++ zeros) by simp]
    exact slice_field (by simp [hm, hv, ht]) hf
  · exact slice_field (by simp [hm, hv, ht, hf]) hash

theorem readSuperblock_writeSuperblock {info : SuperblockInfo}
    (version : info.version < 2 ^ 32) (total : info.totalBlocks < 2 ^ 64)
    (free : info.freeBlocks < 2 ^ 64) (hash : info.masterKeyHash.length = 32) :
    readSuperblock (writeSuperblock info) = some info := by
  obtain ⟨hmagic, hversion, htotal, hfree, hhash⟩ := slice_writeSuperblock hash
  have magic : LittleEndian.decode (LittleEndian.encode 4 superblockMagic) = superblockMagic :=
    LittleEndian.decode_encode (by decide)
  rw [readSuperblock, hmagic, hversion, htotal, hfree, hhash, magic,
    LittleEndian.decode_encode (by simpa using version),
    LittleEndian.decode_encode (by simpa using total),
    LittleEndian.decode_encode (by simpa using free)]
  rfl

end SecureCore.VirtualVolume
