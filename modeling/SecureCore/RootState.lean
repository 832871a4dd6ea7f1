import SecureCore.AtomicProgram
import SecureCore.Primitives

/-! The statics of one process and the functions of `root_state.rs`.
Every accessor is one critical section of the mutexes it locks. The message
counter is an atomic of `message_cipher.rs`; it is reset while the root locks
are held, so `commitEvolution` and `rollEpochForward` are single sections too.
`EPOCH_ID` and the counter wrap, as in a build without overflow checks.
Zeroization of local copies leaves nothing observable and is not represented. -/

namespace SecureCore

open AtomicProgram

structure Session where
  curr : Key
  pend : Option Key
  epoch : UInt32
  msgCounter : UInt64
  /-- `EvolutionState::kem_cipher`. -/
  kemCipher : Option Bytes
  /-- `evolution::bob_keys`: public key, secret key. -/
  bobKeys : Bytes × Bytes
  /-- `evolution::bob_public_key`: the peer's key on the encapsulating side. -/
  bobPublicKey : Bytes
  peerPkHash : Bytes
  /-- `init_module::bob_pk_store`. -/
  bobPkStore : Bytes
  deriving DecidableEq, Repr

def zeros32 : Bytes := List.replicate 32 0

def Session.fresh : Session where
  curr := zeros32
  pend := none
  epoch := 0
  msgCounter := 1
  kemCipher := none
  bobKeys := ([], [])
  bobPublicKey := []
  peerPkHash := zeros32
  bobPkStore := []

/-- The critical sections of the session modules, under the names of the
functions that enter them. -/
inductive Label where
  | setRootStateCurr | readRootStateCurr | setRootStatePend | readRootStatePend
  | readEpochId | setEpochId | commitEvolution | rollEpochForward
  | nextMsgSeq | storeBobPublicKey | readBobPk
  | readBobKeys | setBobKeys | readBobPublicKey | setPeerPublicKey | readPeerPkHash
  | setKemCipher | readKemCipher
  deriving DecidableEq, Repr

abbrev SessionM := Program Label Session

namespace RootState

open Program

def setRootStateCurr (key : Key) : SessionM Unit :=
  atomic .setRootStateCurr fun s => ((), { s with curr := key })

def readRootStateCurr : SessionM Key :=
  atomic .readRootStateCurr fun s => (s.curr, s)

def setRootStatePend (key : Option Key) : SessionM Unit :=
  atomic .setRootStatePend fun s => ((), { s with pend := key })

def readRootStatePend : SessionM (Option Key) :=
  atomic .readRootStatePend fun s => (s.pend, s)

def readEpochId : SessionM UInt32 :=
  atomic .readEpochId fun s => (s.epoch, s)

def setEpochId (id : UInt32) : SessionM Unit :=
  atomic .setEpochId fun s => ((), { s with epoch := id })

def u32Max : UInt32 := 4294967295

def commitEvolution : SessionM UInt32 :=
  atomic .commitEvolution fun s =>
    match s.pend with
    | none => (1, s)
    | some newKey =>
      (0, { s with curr := newKey, pend := none, epoch := s.epoch + 1, msgCounter := 1 })

def rollEpochForward (P : Primitives) (salt info : Bytes) : SessionM UInt32 :=
  atomic .rollEpochForward fun s =>
    match P.expand salt s.curr info 32 with
    | some okm =>
      (s.epoch + 1, { s with curr := okm, epoch := s.epoch + 1, msgCounter := 1 })
    | none => (u32Max, s)

@[simp] theorem run_setRootStateCurr (key : Key) (s : Session) :
    (setRootStateCurr key).run s = ((), { s with curr := key }) := rfl

@[simp] theorem run_readRootStateCurr (s : Session) :
    readRootStateCurr.run s = (s.curr, s) := rfl

@[simp] theorem run_setRootStatePend (key : Option Key) (s : Session) :
    (setRootStatePend key).run s = ((), { s with pend := key }) := rfl

@[simp] theorem run_readRootStatePend (s : Session) :
    readRootStatePend.run s = (s.pend, s) := rfl

@[simp] theorem run_readEpochId (s : Session) : readEpochId.run s = (s.epoch, s) := rfl

@[simp] theorem run_setEpochId (id : UInt32) (s : Session) :
    (setEpochId id).run s = ((), { s with epoch := id }) := rfl

def promoted (s : Session) (newKey : Key) : Session :=
  { s with curr := newKey, pend := none, epoch := s.epoch + 1, msgCounter := 1 }

theorem run_commitEvolution_none {s : Session} (h : s.pend = none) :
    commitEvolution.run s = (1, s) := by
  simp [commitEvolution, h]

theorem run_commitEvolution_some {s : Session} {newKey : Key} (h : s.pend = some newKey) :
    commitEvolution.run s = (0, promoted s newKey) := by
  simp [commitEvolution, h, promoted]

def rolled (s : Session) (okm : Key) : Session :=
  { s with curr := okm, epoch := s.epoch + 1, msgCounter := 1 }

@[simp] theorem run_rollEpochForward (P : Primitives) (salt info : Bytes) (s : Session) :
    (rollEpochForward P salt info).run s = (s.epoch + 1, rolled s (P.hkdf salt s.curr info)) := by
  simp [rollEpochForward, rolled]

end RootState

end SecureCore
