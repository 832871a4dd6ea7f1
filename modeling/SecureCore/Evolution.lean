import SecureCore.MessageCipher

/-! `evolution.rs`: the KEM exchange that installs a pending root on both sides.
`start_evolution` keeps the guard of `bob_public_key` to its end and
`set_peer_public_key` writes key and hash under that guard, so the setter is one
section. The encapsulation's `OsRng` draw is the argument `coins`. -/

namespace SecureCore.Evolution

open AtomicProgram Program RootState

section

variable (P : Primitives)

def readBobPublicKey : SessionM Bytes :=
  atomic .readBobPublicKey fun s => (s.bobPublicKey, s)

def readPeerPkHash : SessionM Bytes :=
  atomic .readPeerPkHash fun s => (s.peerPkHash, s)

def setKemCipher (kemCt : Bytes) : SessionM Unit :=
  atomic .setKemCipher fun s => ((), { s with kemCipher := some kemCt })

def generateBobKeypair (coins : Bytes) : SessionM UInt32 :=
  atomic .setBobKeys fun s => (0, { s with bobKeys := P.keypair coins })

def setPeerPublicKey (pk : Bytes) : SessionM Unit :=
  atomic .setPeerPublicKey fun s =>
    ((), { s with bobPublicKey := pk, peerPkHash := P.sha256 pk })

def derivePendingKey (ss curr : Key) : Key :=
  P.hkdf ss curr (ascii "LinkChat Evolution")

/-- The accumulated XOR of the constant-time comparison. -/
def hashDifference (current stored : Bytes) : UInt8 :=
  (List.zipWith (· ^^^ ·) current stored).foldl (· ||| ·) 0

def startEvolution (coins : Bytes) : SessionM UInt32 := do
  let curr ← readRootStateCurr
  let pk ← readBobPublicKey
  if pk.isEmpty then pure 2
  else do
    let storedHash ← readPeerPkHash
    if storedHash ≠ zeros32 ∧ hashDifference (P.sha256 pk) storedHash ≠ 0 then pure 5
    else match P.encapsulate pk coins with
      | none => pure 1
      | some (kemCt, sharedSecret) =>
        match tryInto32 sharedSecret with
        | none => pure 4
        | some ss => do
          setRootStatePend (some (derivePendingKey P ss curr))
          setKemCipher kemCt
          pure 0

/-- The ciphertext cut to a buffer of `capacity` bytes, empty when there is none. -/
def getKemCipher (capacity : Nat) : SessionM Bytes :=
  atomic .readKemCipher fun s =>
    (match s.kemCipher with
      | some buf => buf.take (min buf.length capacity)
      | none => [], s)

def kemCipherLen : SessionM Nat :=
  atomic .readKemCipher fun s => (s.kemCipher.elim 0 List.length, s)

def readBobSecretKey : SessionM Bytes :=
  atomic .readBobKeys fun s => (s.bobKeys.2, s)

def applyPeerKem (kemCt : Bytes) : SessionM UInt32 := do
  let sk ← readBobSecretKey
  if sk.isEmpty then pure 3
  else match P.decapsulate kemCt sk with
    | none => pure 2
    | some sharedSecret =>
      match tryInto32 sharedSecret with
      | none => pure 4
      | some ss => do
        let curr ← readRootStateCurr
        setRootStatePend (some (derivePendingKey P ss curr))
        pure 0

end

@[simp] theorem run_readBobPublicKey (s : Session) :
    readBobPublicKey.run s = (s.bobPublicKey, s) := rfl

@[simp] theorem run_readPeerPkHash (s : Session) :
    readPeerPkHash.run s = (s.peerPkHash, s) := rfl

@[simp] theorem run_setKemCipher (kemCt : Bytes) (s : Session) :
    (setKemCipher kemCt).run s = ((), { s with kemCipher := some kemCt }) := rfl

@[simp] theorem run_readBobSecretKey (s : Session) :
    readBobSecretKey.run s = (s.bobKeys.2, s) := rfl

@[simp] theorem run_getKemCipher (capacity : Nat) (s : Session) :
    (getKemCipher capacity).run s =
      (match s.kemCipher with
        | some buf => buf.take (min buf.length capacity)
        | none => [], s) := rfl

variable {P : Primitives}

theorem startEvolution_cases (coins : Bytes) (s : Session) :
    (∃ kemCt ss, s.bobPublicKey ≠ [] ∧ P.encapsulate s.bobPublicKey coins = some (kemCt, ss) ∧
      ss.length = 32 ∧
      (startEvolution P coins).run s =
        (0, { s with pend := some (derivePendingKey P ss s.curr), kemCipher := some kemCt })) ∨
    (∃ code, code ≠ 0 ∧ (startEvolution P coins).run s = (code, s)) := by
  by_cases hpk : s.bobPublicKey = []
  · right
    exact ⟨2, by decide, by simp [startEvolution, hpk]⟩
  · by_cases swapped : s.peerPkHash ≠ zeros32 ∧
        hashDifference (P.sha256 s.bobPublicKey) s.peerPkHash ≠ 0
    · right
      exact ⟨5, by decide, by simp [startEvolution, hpk, swapped]⟩
    · cases henc : P.encapsulate s.bobPublicKey coins with
      | none =>
        right
        refine ⟨1, by decide, ?_⟩
        simp [startEvolution, hpk, swapped, henc]
      | some out =>
        obtain ⟨kemCt, ss⟩ := out
        by_cases width : ss.length = 32
        · left
          refine ⟨kemCt, ss, hpk, rfl, width, ?_⟩
          simp [startEvolution, hpk, swapped, henc, tryInto32, width]
        · right
          refine ⟨4, by decide, ?_⟩
          simp [startEvolution, hpk, swapped, henc, tryInto32, width]

theorem applyPeerKem_cases (kemCt : Bytes) (s : Session) :
    (∃ ss, s.bobKeys.2 ≠ [] ∧ P.decapsulate kemCt s.bobKeys.2 = some ss ∧ ss.length = 32 ∧
      (applyPeerKem P kemCt).run s =
        (0, { s with pend := some (derivePendingKey P ss s.curr) })) ∨
    (∃ code, code ≠ 0 ∧ (applyPeerKem P kemCt).run s = (code, s)) := by
  by_cases hsk : s.bobKeys.2 = []
  · right
    exact ⟨3, by decide, by simp [applyPeerKem, hsk]⟩
  · cases hdec : P.decapsulate kemCt s.bobKeys.2 with
    | none =>
      right
      refine ⟨2, by decide, ?_⟩
      simp [applyPeerKem, hsk, hdec]
    | some ss =>
      by_cases width : ss.length = 32
      · left
        refine ⟨ss, hsk, rfl, width, ?_⟩
        simp [applyPeerKem, hsk, hdec, tryInto32, width]
      · right
        refine ⟨4, by decide, ?_⟩
        simp [applyPeerKem, hsk, hdec, tryInto32, width]

theorem hashDifference_self (hash : Bytes) : hashDifference hash hash = 0 := by
  induction hash with
  | nil => rfl
  | cons byte bytes ih => simpa [hashDifference] using ih

theorem startEvolution_ne_swapped {coins : Bytes} {s : Session}
    (hash : s.peerPkHash = zeros32 ∨ s.peerPkHash = P.sha256 s.bobPublicKey) :
    ((startEvolution P coins).run s).1 ≠ 5 := by
  -- The swap check passes on an unset hash and on the hash of the stored key.
  have unswapped : ¬ (s.peerPkHash ≠ zeros32 ∧
      hashDifference (P.sha256 s.bobPublicKey) s.peerPkHash ≠ 0) := by
    rcases hash with hzero | hself
    · exact fun h => h.1 hzero
    · exact fun h => h.2 (hself ▸ hashDifference_self _)
  by_cases hpk : s.bobPublicKey = []
  · simp [startEvolution, hpk]
  · cases henc : P.encapsulate s.bobPublicKey coins with
    | none => simp [startEvolution, hpk, unswapped, henc]
    | some out =>
      cases hss : tryInto32 out.2 with
      | none => simp [startEvolution, hpk, unswapped, henc, hss]
      | some ss => simp [startEvolution, hpk, unswapped, henc, hss]

end SecureCore.Evolution
