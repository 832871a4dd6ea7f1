import SecureCore.LittleEndian

/-! The third-party cryptography the crate calls: `sha2`, `hkdf`, `aes-gcm` and
`pqc_kyber`. None of it is under the crate's sources, so it is a parameter.
`OsRng` draws are explicit `coins` arguments.

A `[u8; 32]` is a byte string here and its width is not imposed. No function into
strings of a fixed width is injective: `HkdfInjective` is an ideal, the one the
protocol's documentation has in mind when it calls message keys independent. Only
results about every root there may ever be assume it. The others ask that the message
keys of the roots that occur do not collide, which 32 bytes allow. -/

namespace SecureCore

export LittleEndian (Bytes)

abbrev Key := Bytes

structure Primitives where
  sha256 : Bytes → Bytes
  /-- `Hkdf::<Sha256>::new(Some(salt), ikm)` expanded by `info` to 32 bytes. -/
  hkdf : (salt ikm info : Bytes) → Key
  /-- `Aes256Gcm::encrypt`, its error erased by `.ok()`. -/
  aeadEncrypt : (key : Key) → (nonce aad plaintext : Bytes) → Option Bytes
  /-- `Aes256Gcm::decrypt`, its error erased by `.ok()`. -/
  aeadDecrypt : (key : Key) → (nonce aad ciphertext : Bytes) → Option Bytes
  keypair : (coins : Bytes) → Bytes × Bytes
  encapsulate : (pk coins : Bytes) → Option (Bytes × Bytes)
  decapsulate : (kemCt sk : Bytes) → Option Bytes

namespace Primitives

variable (P : Primitives)

def expand (salt ikm info : Bytes) (length : Nat) : Option Key :=
  if length ≤ 255 * 32 then some (P.hkdf salt ikm info) else none

@[simp] theorem expand_32 (salt ikm info : Bytes) :
    P.expand salt ikm info 32 = some (P.hkdf salt ikm info) := rfl

def HkdfInjective : Prop :=
  ∀ ⦃salt ikm info salt' ikm' info' : Bytes⦄, P.hkdf salt ikm info = P.hkdf salt' ikm' info' →
    salt = salt' ∧ ikm = ikm' ∧ info = info'

def HkdfMoves : Prop :=
  ∀ salt ikm info : Bytes, P.hkdf salt ikm info ≠ ikm

/-- The secret key recovers what was encapsulated to the public key. -/
def KemMatches (pk sk : Bytes) : Prop :=
  ∀ ⦃coins kemCt ss : Bytes⦄, P.encapsulate pk coins = some (kemCt, ss) →
    P.decapsulate kemCt sk = some ss

def KemCorrect : Prop :=
  ∀ coins : Bytes, P.KemMatches (P.keypair coins).1 (P.keypair coins).2

/-- Decryption inverts encryption, and a ciphertext carries its 16-byte tag. -/
structure AeadCorrect : Prop where
  inverts : ∀ ⦃key : Key⦄ ⦃nonce aad pt ct : Bytes⦄,
    P.aeadEncrypt key nonce aad pt = some ct → P.aeadDecrypt key nonce aad ct = some pt
  tagged : ∀ ⦃key : Key⦄ ⦃nonce aad pt ct : Bytes⦄,
    P.aeadEncrypt key nonce aad pt = some ct → 16 ≤ ct.length

/-- Only outputs of encryption decrypt, and under no second key or AAD. -/
structure AeadAuthentic : Prop where
  produced : ∀ ⦃key : Key⦄ ⦃nonce aad pt ct : Bytes⦄,
    P.aeadDecrypt key nonce aad ct = some pt → P.aeadEncrypt key nonce aad pt = some ct
  committing : ∀ ⦃key key' : Key⦄ ⦃nonce nonce' aad aad' pt pt' ct : Bytes⦄,
    P.aeadEncrypt key nonce aad pt = some ct → P.aeadEncrypt key' nonce' aad' pt' = some ct →
      key = key' ∧ aad = aad'

end Primitives

/-- `shared_secret.as_slice().try_into()` for a `[u8; 32]` target. -/
def tryInto32 (bytes : Bytes) : Option Key :=
  if bytes.length = 32 then some bytes else none

/-- `OsRng.fill_bytes` over a buffer of `length` bytes, with the generator's stream
an argument. -/
def fillBytes (length : Nat) (noise : Nat → UInt8) : Bytes :=
  (List.range length).map noise

@[simp] theorem fillBytes_length (length : Nat) (noise : Nat → UInt8) :
    (fillBytes length noise).length = length := by
  simp [fillBytes]

def ascii (text : String) : Bytes :=
  text.toList.map (fun c => UInt8.ofNat c.toNat)

end SecureCore
