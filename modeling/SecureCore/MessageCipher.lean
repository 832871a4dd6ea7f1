import SecureCore.RootState

/-! `message_cipher.rs`: the sequence counter, the message keys, the wire format
`[12 B nonce | ciphertext | tag]` and the decryption that commits a pending
evolution. The nonce is the deterministic one of `build_nonce`; the module's
header, which names an `OsRng` nonce, describes an earlier design. -/

namespace SecureCore.MessageCipher

open AtomicProgram Program RootState

/-- `MSG_COUNTER.fetch_add(1)`, which returns the old value and wraps. -/
def nextMsgSeq : SessionM UInt64 :=
  atomic .nextMsgSeq fun s => (s.msgCounter, { s with msgCounter := s.msgCounter + 1 })

@[simp] theorem run_nextMsgSeq (s : Session) :
    nextMsgSeq.run s = (s.msgCounter, { s with msgCounter := s.msgCounter + 1 }) := rfl

def le32 (x : UInt32) : Bytes := LittleEndian.encode 4 x.toNat

def le64 (x : UInt64) : Bytes := LittleEndian.encode 8 x.toNat

theorem le32_append_inj {x y : UInt32} {xs ys : Bytes} (h : le32 x ++ xs = le32 y ++ ys) :
    x = y ∧ xs = ys := by
  obtain ⟨hxy, hrest⟩ := LittleEndian.encode_append_inj
    (by simpa using x.toNat_lt) (by simpa using y.toNat_lt) h
  exact ⟨UInt32.toNat.inj hxy, hrest⟩

theorem le64_append_inj {x y : UInt64} {xs ys : Bytes} (h : le64 x ++ xs = le64 y ++ ys) :
    x = y ∧ xs = ys := by
  obtain ⟨hxy, hrest⟩ := LittleEndian.encode_append_inj
    (by simpa using x.toNat_lt) (by simpa using y.toNat_lt) h
  exact ⟨UInt64.toNat.inj hxy, hrest⟩

theorem le64_injective {x y : UInt64} (h : le64 x = le64 y) : x = y :=
  (le64_append_inj (x := x) (y := y) (by rw [h] : le64 x ++ [] = le64 y ++ [])).1

section Keys

variable (P : Primitives)

def deriveMessageKeyFromRoot (root : Key) (epoch : UInt32) (msgSeq : UInt64) : Key :=
  P.hkdf root (ascii "LinkChat HKDF Expand") (le32 epoch ++ le64 msgSeq)

def deriveMessageKey (epoch : UInt32) (msgSeq : UInt64) : SessionM Key := do
  let curr ← readRootStateCurr
  pure (deriveMessageKeyFromRoot P curr epoch msgSeq)

@[simp] theorem run_deriveMessageKey (epoch : UInt32) (msgSeq : UInt64) (s : Session) :
    (deriveMessageKey P epoch msgSeq).run s =
      (deriveMessageKeyFromRoot P s.curr epoch msgSeq, s) := by
  simp [deriveMessageKey]

variable {P}

def MessageKeysDistinct (P : Primitives) (roots : Set Key) : Prop :=
  ∀ ⦃root root' : Key⦄ ⦃epoch epoch' : UInt32⦄ ⦃msgSeq msgSeq' : UInt64⦄,
    root ∈ roots → root' ∈ roots → deriveMessageKeyFromRoot P root epoch msgSeq =
      deriveMessageKeyFromRoot P root' epoch' msgSeq' →
        root = root' ∧ epoch = epoch' ∧ msgSeq = msgSeq'

theorem messageKeysDistinct_of_injective (hkdf : P.HkdfInjective) (roots : Set Key) :
    MessageKeysDistinct P roots := by
  intro root root' epoch epoch' msgSeq msgSeq' _ _ h
  obtain ⟨hroot, -, hinfo⟩ := hkdf h
  obtain ⟨hepoch, hseq⟩ := le32_append_inj hinfo
  exact ⟨hroot, hepoch, le64_injective hseq⟩

end Keys

structure Header where
  idStamp : Bytes
  outgoing : Bool
  epoch : UInt32
  msgSeq : UInt64
  timestamp : UInt64
  deriving DecidableEq, Repr

def buildNonce (epoch : UInt32) (timestamp msgSeq : UInt64) : Bytes :=
  le32 epoch ++ le64 (timestamp ^^^ msgSeq)

def protoVersion : Nat := 4

def buildAad (h : Header) : Bytes :=
  h.idStamp ++ [if h.outgoing then 0 else 1] ++ le32 h.epoch ++ le64 h.msgSeq ++
    le64 h.timestamp ++ LittleEndian.encode 2 protoVersion

@[simp] theorem buildNonce_length (epoch : UInt32) (timestamp msgSeq : UInt64) :
    (buildNonce epoch timestamp msgSeq).length = 12 := by
  simp [buildNonce, le32, le64]

theorem buildNonce_inj {epoch : UInt32} {timestamp timestamp' msgSeq : UInt64}
    (h : buildNonce epoch timestamp msgSeq = buildNonce epoch timestamp' msgSeq) :
    timestamp = timestamp' := by
  have hxor : timestamp ^^^ msgSeq = timestamp' ^^^ msgSeq :=
    le64_injective (le32_append_inj h).2
  have hcancel : (timestamp ^^^ msgSeq) ^^^ msgSeq = (timestamp' ^^^ msgSeq) ^^^ msgSeq := by
    rw [hxor]
  simpa [UInt64.xor_assoc] using hcancel

theorem buildAad_epoch_inj {h h' : Header} (aad : buildAad h = buildAad h') :
    h.epoch = h'.epoch := by
  -- The fields behind the stamp have fixed widths, so the AAD determines them whatever the
  -- stamp.
  have assoc : ∀ g : Header, buildAad g = (g.idStamp ++ [if g.outgoing then 0 else 1]) ++
      (le32 g.epoch ++ (le64 g.msgSeq ++ (le64 g.timestamp ++
        LittleEndian.encode 2 protoVersion))) := by
    intro g
    simp [buildAad]
  rw [assoc h, assoc h'] at aad
  have tail := (List.append_inj' aad (by simp [le32, le64])).2
  exact (le32_append_inj tail).1

section Envelope

variable (P : Primitives)

def encrypt (plaintext : Bytes) (key : Key) (h : Header) : Option Bytes :=
  let nonce := buildNonce h.epoch h.timestamp h.msgSeq
  (P.aeadEncrypt key nonce (buildAad h) plaintext).map (fun ct => nonce ++ ct)

def decrypt (wire : Bytes) (key : Key) (h : Header) : Option Bytes :=
  if wire.length < 28 then none
  else P.aeadDecrypt key (wire.take 12) (buildAad h) (wire.drop 12)

/-- The current root first; a message one epoch ahead is tried under the pending
root, and success there commits whatever is pending by then. -/
def tryDecryptWithEvolution (wire : Bytes) (h : Header) : SessionM (Option (Bytes × Bool)) := do
  let curr ← readRootStateCurr
  let localEpoch ← readEpochId
  match decrypt P wire (deriveMessageKeyFromRoot P curr h.epoch h.msgSeq) h with
  | some pt => pure (some (pt, false))
  | none =>
    if h.epoch = localEpoch + 1 then do
      match ← readRootStatePend with
      | some pend =>
        match decrypt P wire (deriveMessageKeyFromRoot P pend h.epoch h.msgSeq) h with
        | some pt => do
          let code ← commitEvolution
          pure (some (pt, code == 0))
        | none => pure none
      | none => pure none
    else pure none

variable {P}

theorem tryDecryptWithEvolution_cases (wire : Bytes) (h : Header) (s : Session) :
    (∃ pt, decrypt P wire (deriveMessageKeyFromRoot P s.curr h.epoch h.msgSeq) h = some pt ∧
      (tryDecryptWithEvolution P wire h).run s = (some (pt, false), s)) ∨
    (∃ pend pt, decrypt P wire (deriveMessageKeyFromRoot P s.curr h.epoch h.msgSeq) h = none ∧
      h.epoch = s.epoch + 1 ∧ s.pend = some pend ∧
      decrypt P wire (deriveMessageKeyFromRoot P pend h.epoch h.msgSeq) h = some pt ∧
      (tryDecryptWithEvolution P wire h).run s = (some (pt, true), promoted s pend)) ∨
    (tryDecryptWithEvolution P wire h).run s = (none, s) := by
  cases fast : decrypt P wire (deriveMessageKeyFromRoot P s.curr h.epoch h.msgSeq) h with
  | some pt =>
    left
    exact ⟨pt, rfl, by simp [tryDecryptWithEvolution, fast]⟩
  | none =>
    right
    by_cases ahead : h.epoch = s.epoch + 1
    · cases hp : s.pend with
      | none =>
        right
        rw [ahead] at fast
        simp [tryDecryptWithEvolution, fast, ahead, hp]
      | some pend =>
        cases slow : decrypt P wire (deriveMessageKeyFromRoot P pend h.epoch h.msgSeq) h with
        | none =>
          right
          rw [ahead] at fast slow
          simp [tryDecryptWithEvolution, fast, ahead, hp, slow]
        | some pt =>
          left
          refine ⟨pend, pt, rfl, ahead, rfl, slow, ?_⟩
          rw [ahead] at fast slow
          simp [tryDecryptWithEvolution, fast, ahead, hp, slow, run_commitEvolution_some hp]
    · right
      simp [tryDecryptWithEvolution, fast, ahead]

theorem decrypt_produced (aead : P.AeadAuthentic) {wire : Bytes} {key : Key} {h : Header}
    {pt : Bytes} (hd : decrypt P wire key h = some pt) :
    P.aeadEncrypt key (wire.take 12) (buildAad h) pt = some (wire.drop 12) := by
  unfold decrypt at hd
  split at hd
  · cases hd
  · exact aead.produced hd

theorem encrypt_split {pt wire : Bytes} {key : Key} {h : Header}
    (he : encrypt P pt key h = some wire) :
    P.aeadEncrypt key (wire.take 12) (buildAad h) pt = some (wire.drop 12) := by
  obtain ⟨ct, hct, rfl⟩ := Option.map_eq_some_iff.mp he
  rw [List.take_left' (buildNonce_length ..), List.drop_left' (buildNonce_length ..)]
  exact hct

theorem decrypt_encrypt (aead : P.AeadCorrect) {pt wire : Bytes} {key : Key} {h : Header}
    (he : encrypt P pt key h = some wire) : decrypt P wire key h = some pt := by
  have split := encrypt_split he
  have tag := aead.tagged split
  have long : ¬ wire.length < 28 := by
    rw [List.length_drop] at tag
    omega
  rw [decrypt, if_neg long]
  exact aead.inverts split

theorem decrypt_other_key (aead : P.AeadAuthentic) {pt wire : Bytes} {key key' : Key}
    {h : Header} (he : encrypt P pt key h = some wire) (hkey : key' ≠ key) (h' : Header) :
    decrypt P wire key' h' = none := by
  cases hd : decrypt P wire key' h' with
  | none => rfl
  | some pt' => exact absurd (aead.committing (decrypt_produced aead hd) (encrypt_split he)).1 hkey

end Envelope

end SecureCore.MessageCipher
