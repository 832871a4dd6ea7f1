import SecureCore.LockedProgram
import SecureCore.SessionOps
import SecureCore.SymbolicPrimitives

/-! The session operations with the acquisitions and releases of their mutexes.
A guard bound by `let` lives to the end of its block and a guard that is a
temporary to the end of its statement; all of them are scopes here, closed on
every path that leaves the function. `start_evolution` is the one function that
keeps a guard across calls into another module.

The sections are those of the model in which each of them is atomic, cut at the
acquisitions: run alone, an operation computes the same. `OsRng`, HKDF and the
KEM take no mutex of the crate. -/

namespace SecureCore.SessionLocks

open AtomicProgram MutexThreads LockedProgram LockedProgram.Locked RootState MessageCipher
open SymbolicPrimitives (symbolic)

/-- The statics behind a `Mutex` in `root_state.rs`, `evolution.rs` and
`init_module.rs`. -/
inductive SessionLock where
  | rootCurr | rootPend | epoch
  | evoState | bobKeys | bobPublicKey | peerPkHash
  | bobPkStore
  deriving DecidableEq, Repr

instance : Fintype SessionLock where
  elems := {.rootCurr, .rootPend, .epoch, .evoState, .bobKeys, .bobPublicKey, .peerPkHash,
    .bobPkStore}
  complete := fun lock => by cases lock <;> decide

def SessionLock.rank : SessionLock → Nat
  | .bobPublicKey => 0
  | .peerPkHash => 1
  | .rootCurr => 1
  | .rootPend => 2
  | .epoch => 3
  | .evoState => 1
  | .bobKeys => 0
  | .bobPkStore => 0

abbrev LockedM := Locked SessionLock Session

section Operations

variable (P : Primitives)

def setRootStateCurr (key : Key) : LockedM Unit :=
  guarded .rootCurr (atomic fun s => ((), { s with curr := key }))

def readRootStateCurr : LockedM Key :=
  guarded .rootCurr (atomic fun s => (s.curr, s))

def setRootStatePend (key : Option Key) : LockedM Unit :=
  guarded .rootPend (atomic fun s => ((), { s with pend := key }))

def readRootStatePend : LockedM (Option Key) :=
  guarded .rootPend (atomic fun s => (s.pend, s))

def readEpochId : LockedM UInt32 :=
  guarded .epoch (atomic fun s => (s.epoch, s))

def setEpochId (id : UInt32) : LockedM Unit :=
  guarded .epoch (atomic fun s => ((), { s with epoch := id }))

def commitEvolution : LockedM UInt32 :=
  guarded .rootCurr <| guarded .rootPend <| guarded .epoch <| atomic fun s =>
    match s.pend with
    | none => (1, s)
    | some newKey =>
      (0, { s with curr := newKey, pend := none, epoch := s.epoch + 1, msgCounter := 1 })

def rollEpochForward (salt info : Bytes) : LockedM UInt32 :=
  guarded .rootCurr <| guarded .epoch <| atomic fun s =>
    match P.expand salt s.curr info 32 with
    | some okm =>
      (s.epoch + 1, { s with curr := okm, epoch := s.epoch + 1, msgCounter := 1 })
    | none => (u32Max, s)

def generateBobKeypair (coins : Bytes) : LockedM UInt32 :=
  guarded .bobKeys (atomic fun s => (0, { s with bobKeys := P.keypair coins }))

/-- The key is replaced before the second mutex is taken. -/
def setPeerPublicKey (pk : Bytes) : LockedM Unit :=
  guarded .bobPublicKey do
    atomic fun s => ((), { s with bobPublicKey := pk })
    guarded .peerPkHash (atomic fun s => ((), { s with peerPkHash := P.sha256 pk }))

def readPeerPkHash : LockedM Bytes :=
  guarded .peerPkHash (atomic fun s => (s.peerPkHash, s))

def setKemCipher (kemCt : Bytes) : LockedM Unit :=
  guarded .evoState (atomic fun s => ((), { s with kemCipher := some kemCt }))

def startEvolution (coins : Bytes) : LockedM UInt32 := do
  let curr ← readRootStateCurr
  guarded .bobPublicKey do
    let pk ← atomic fun s => (s.bobPublicKey, s)
    if pk.isEmpty then pure 2
    else do
      let storedHash ← readPeerPkHash
      if storedHash ≠ zeros32 ∧ Evolution.hashDifference (P.sha256 pk) storedHash ≠ 0 then pure 5
      else match P.encapsulate pk coins with
        | none => pure 1
        | some (kemCt, sharedSecret) =>
          match tryInto32 sharedSecret with
          | none => pure 4
          | some ss => do
            setRootStatePend (some (Evolution.derivePendingKey P ss curr))
            setKemCipher kemCt
            pure 0

def getKemCipher (capacity : Nat) : LockedM Bytes :=
  guarded .evoState <| atomic fun s =>
    (match s.kemCipher with
      | some buf => buf.take (min buf.length capacity)
      | none => [], s)

def kemCipherLen : LockedM Nat :=
  guarded .evoState (atomic fun s => (s.kemCipher.elim 0 List.length, s))

def readBobSecretKey : LockedM Bytes :=
  guarded .bobKeys (atomic fun s => (s.bobKeys.2, s))

def applyPeerKem (kemCt : Bytes) : LockedM UInt32 := do
  let sk ← readBobSecretKey
  if sk.isEmpty then pure 3
  else match P.decapsulate kemCt sk with
    | none => pure 2
    | some sharedSecret =>
      match tryInto32 sharedSecret with
      | none => pure 4
      | some ss => do
        let curr ← readRootStateCurr
        setRootStatePend (some (Evolution.derivePendingKey P ss curr))
        pure 0

def storeBobPublicKey (pk : Bytes) : LockedM Unit :=
  guarded .bobPkStore (atomic fun s => ((), { s with bobPkStore := pk }))

def readBobPk : LockedM Bytes :=
  guarded .bobPkStore (atomic fun s => (s.bobPkStore, s))

def initialiseRootState (alice bob bobPk : Bytes) : LockedM UInt32 :=
  if InitModule.entropyReject alice || InitModule.entropyReject bob then pure 2
  else if (InitModule.oddEvenInterleave alice bob).length < 64 then pure 1
  else if bobPk.isEmpty then pure 3
  else do
    storeBobPublicKey bobPk
    setRootStateCurr (InitModule.initialRoot P alice bob)
    setEpochId 0
    pure 0

def generateIdStampFromCurr : LockedM Bytes := do
  let curr ← readRootStateCurr
  let pk ← readBobPk
  pure (InitModule.computeIdStamp P curr pk)

def rollLoop : (gap : Nat) → (last : UInt32) → LockedM UInt32
  | 0, last => pure last
  | gap + 1, _ => do
    let r ← rollEpochForward P AntiDos.rollSalt AntiDos.rollInfo
    if r = u32Max then pure u32Max else rollLoop gap r

def recoverAfterLoss (targetEpoch : UInt32) : LockedM UInt32 := do
  let e ← readEpochId
  if targetEpoch ≤ e then pure e
  else if targetEpoch - e > 100000 then pure u32Max
  else rollLoop P (targetEpoch - e).toNat e

/-- `MSG_COUNTER` is an atomic and needs no mutex. -/
def nextMsgSeq : LockedM UInt64 :=
  atomic fun s => (s.msgCounter, { s with msgCounter := s.msgCounter + 1 })

def deriveMessageKey (epoch : UInt32) (msgSeq : UInt64) : LockedM Key := do
  let curr ← readRootStateCurr
  pure (deriveMessageKeyFromRoot P curr epoch msgSeq)

def tryDecryptWithEvolution (wire : Bytes) (h : Header) : LockedM (Option (Bytes × Bool)) := do
  let curr ← readRootStateCurr
  let localEpoch ← readEpochId
  match decrypt P wire (deriveMessageKeyFromRoot P curr h.epoch h.msgSeq) h with
  | some pt => pure (some (pt, false))
  | none =>
    if h.epoch = localEpoch + 1 then do
      match ← readRootStatePend with
      | some pend =>
        match decrypt P wire (deriveMessageKeyFromRoot P pend h.epoch h.msgSeq) h with
        | some pt => do
          let code ← commitEvolution
          pure (some (pt, code == 0))
        | none => pure none
      | none => pure none
    else pure none

inductive LockingOp where
  | session (op : SessionOp)
  | generateIdStampFromCurr
  deriving DecidableEq, Repr

def sessionProgram : SessionOp → LockedM Reply
  | .initialiseRootState alice bob bobPk => do
    pure (.code (← initialiseRootState P alice bob bobPk))
  | .generateBobKeypair coins => do pure (.code (← generateBobKeypair P coins))
  | .setPeerPublicKey pk => do
    setPeerPublicKey P pk
    pure (.code 0)
  | .startEvolution coins => do pure (.code (← startEvolution P coins))
  | .getKemCipher capacity => do pure (.bytes (← getKemCipher capacity))
  | .kemCipherLen => do pure (.length (← kemCipherLen))
  | .applyPeerKem kemCt => do pure (.code (← applyPeerKem P kemCt))
  | .commitEvolution => do pure (.code (← commitEvolution))
  | .recoverAfterLoss target => do pure (.code (← recoverAfterLoss P target))
  | .getEpochId => do pure (.code (← readEpochId))
  | .msgCounterNext => do pure (.seq (← nextMsgSeq))
  | .deriveMessageKey epoch msgSeq => do pure (.bytes (← deriveMessageKey P epoch msgSeq))
  | .send plaintext idStamp outgoing timestamp => do
    let msgSeq ← nextMsgSeq
    let epoch ← readEpochId
    let key ← deriveMessageKey P epoch msgSeq
    let header : Header := ⟨idStamp, outgoing, epoch, msgSeq, timestamp⟩
    pure (.sent key header (encrypt P plaintext key header))
  | .tryDecryptWithEvolution wire header => do
    pure (.opened (← tryDecryptWithEvolution P wire header))

def program : LockingOp → LockedM Reply
  | .session op => sessionProgram P op
  | .generateIdStampFromCurr => do pure (.bytes (← generateIdStampFromCurr P))

end Operations

section Alone

variable {P : Primitives}

theorem run_startEvolution (coins : Bytes) (s : Session) :
    (startEvolution P coins).run s = (Evolution.startEvolution P coins).run s := by
  by_cases hpk : s.bobPublicKey = []
  · simp [startEvolution, Evolution.startEvolution, readRootStateCurr, hpk]
  · by_cases swapped : s.peerPkHash ≠ zeros32 ∧
        Evolution.hashDifference (P.sha256 s.bobPublicKey) s.peerPkHash ≠ 0
    · simp [startEvolution, Evolution.startEvolution, readRootStateCurr, readPeerPkHash, hpk,
        swapped]
    · cases henc : P.encapsulate s.bobPublicKey coins with
      | none =>
        simp [startEvolution, Evolution.startEvolution, readRootStateCurr, readPeerPkHash, hpk,
          swapped, henc]
      | some out =>
        cases hss : tryInto32 out.2 <;>
          simp [startEvolution, Evolution.startEvolution, readRootStateCurr, readPeerPkHash,
            setRootStatePend, setKemCipher, hpk, swapped, henc, hss]

theorem run_applyPeerKem (kemCt : Bytes) (s : Session) :
    (applyPeerKem P kemCt).run s = (Evolution.applyPeerKem P kemCt).run s := by
  by_cases hsk : s.bobKeys.2 = []
  · simp [applyPeerKem, Evolution.applyPeerKem, readBobSecretKey, hsk]
  · cases hdec : P.decapsulate kemCt s.bobKeys.2 with
    | none => simp [applyPeerKem, Evolution.applyPeerKem, readBobSecretKey, hsk, hdec]
    | some ss =>
      cases hss : tryInto32 ss <;>
        simp [applyPeerKem, Evolution.applyPeerKem, readBobSecretKey, readRootStateCurr,
          setRootStatePend, hsk, hdec, hss]

theorem run_commitEvolution (s : Session) :
    commitEvolution.run s = RootState.commitEvolution.run s := by
  cases hpend : s.pend <;> simp [commitEvolution, RootState.commitEvolution, hpend]

theorem run_rollLoop (gap : Nat) (last : UInt32) (s : Session) :
    (rollLoop P gap last).run s = (AntiDos.rollLoop P gap last).run s := by
  induction gap generalizing last s with
  | zero => rfl
  | succ gap ih =>
    have hroll : (rollEpochForward P AntiDos.rollSalt AntiDos.rollInfo).run s =
        (RootState.rollEpochForward P AntiDos.rollSalt AntiDos.rollInfo).run s := by
      simp [rollEpochForward, rolled]
    rw [rollLoop, AntiDos.rollLoop, run_bind, Program.run_bind, hroll]
    split_ifs
    · rfl
    · exact ih _ _

theorem run_recoverAfterLoss (target : UInt32) (s : Session) :
    (recoverAfterLoss P target).run s = (AntiDos.recoverAfterLoss P target).run s := by
  by_cases reached : target ≤ s.epoch
  · simp [recoverAfterLoss, AntiDos.recoverAfterLoss, readEpochId, reached]
  · by_cases far : target - s.epoch > 100000
    · simp [recoverAfterLoss, AntiDos.recoverAfterLoss, readEpochId, reached, far]
    · simp [recoverAfterLoss, AntiDos.recoverAfterLoss, readEpochId, reached, far, run_rollLoop]

theorem run_tryDecryptWithEvolution (wire : Bytes) (h : Header) (s : Session) :
    (tryDecryptWithEvolution P wire h).run s =
      (MessageCipher.tryDecryptWithEvolution P wire h).run s := by
  simp only [tryDecryptWithEvolution, MessageCipher.tryDecryptWithEvolution, readRootStateCurr,
    readEpochId, readRootStatePend, run_bind, run_guarded, run_atomic, Program.run_bind,
    run_readRootStateCurr, run_readEpochId]
  cases decrypt P wire (deriveMessageKeyFromRoot P s.curr h.epoch h.msgSeq) h with
  | some pt => rfl
  | none =>
    by_cases hnext : h.epoch = s.epoch + 1
    · cases hpend : s.pend with
      | none => simp [hnext, hpend]
      | some pend =>
        cases hpt : decrypt P wire (deriveMessageKeyFromRoot P pend h.epoch h.msgSeq) h with
        | none => simp [← hnext, hpend, hpt]
        | some pt => simp [← hnext, hpend, hpt, run_commitEvolution]
    · simp [hnext]

theorem run_sessionProgram (op : SessionOp) (s : Session) :
    (sessionProgram P op).run s = op.exec P s := by
  cases op with
  | initialiseRootState alice bob bobPk =>
    simp only [sessionProgram, initialiseRootState, SessionOp.exec, SessionOp.program,
      InitModule.initialiseRootState]
    split_ifs <;> simp [storeBobPublicKey, setRootStateCurr, setEpochId]
  | startEvolution coins => simp [sessionProgram, run_startEvolution]
  | applyPeerKem kemCt => simp [sessionProgram, run_applyPeerKem]
  | commitEvolution => simp [sessionProgram, run_commitEvolution]
  | recoverAfterLoss target => simp [sessionProgram, run_recoverAfterLoss]
  | tryDecryptWithEvolution wire header => simp [sessionProgram, run_tryDecryptWithEvolution]
  | send plaintext idStamp outgoing timestamp =>
    simp [sessionProgram, nextMsgSeq, readEpochId, deriveMessageKey, readRootStateCurr]
  | generateBobKeypair coins => rfl
  | setPeerPublicKey pk => rfl
  | getKemCipher capacity => rfl
  | kemCipherLen => rfl
  | getEpochId => rfl
  | msgCounterNext => rfl
  | deriveMessageKey epoch msgSeq => rfl

theorem run_generateIdStampFromCurr (s : Session) :
    (generateIdStampFromCurr P).run s = (InitModule.generateIdStampFromCurr P).run s := rfl

end Alone

section Order

variable {P : Primitives} {held : Finset SessionLock}

theorem nests_section {α : Type} {lock : SessionLock} {body : Session → α × Session}
    (above : ∀ own ∈ held, own.rank < lock.rank) :
    (guarded lock (atomic body)).Nests SessionLock.rank held held :=
  Nests.guarded above (Nests.atomic _ body)

theorem nests_commitEvolution : commitEvolution.Nests SessionLock.rank ∅ ∅ := by
  refine Nests.guarded (by decide) (Nests.guarded (by decide) ?_)
  exact nests_section (by decide)

theorem nests_rollEpochForward (salt info : Bytes) :
    (rollEpochForward P salt info).Nests SessionLock.rank ∅ ∅ :=
  Nests.guarded (by decide) (nests_section (by decide))

theorem nests_rollLoop (gap : Nat) (last : UInt32) :
    (rollLoop P gap last).Nests SessionLock.rank ∅ ∅ := by
  induction gap generalizing last with
  | zero => exact Nests.pure ∅ last
  | succ gap ih =>
    refine Nests.bind (nests_rollEpochForward _ _) fun r => ?_
    split_ifs
    · exact Nests.pure ∅ u32Max
    · exact ih r

theorem nests_recoverAfterLoss (target : UInt32) :
    (recoverAfterLoss P target).Nests SessionLock.rank ∅ ∅ := by
  refine Nests.bind (nests_section (by decide)) fun e => ?_
  split_ifs
  · exact Nests.pure ∅ e
  · exact Nests.pure ∅ u32Max
  · exact nests_rollLoop _ e

theorem nests_initialiseRootState (alice bob bobPk : Bytes) :
    (initialiseRootState P alice bob bobPk).Nests SessionLock.rank ∅ ∅ := by
  rw [initialiseRootState]
  split_ifs
  · exact Nests.pure ∅ _
  · exact Nests.pure ∅ _
  · exact Nests.pure ∅ _
  · refine Nests.bind (nests_section (by decide)) fun _ => ?_
    refine Nests.bind (nests_section (by decide)) fun _ => ?_
    exact Nests.bind (nests_section (by decide)) fun _ => Nests.pure ∅ _

theorem nests_setPeerPublicKey (pk : Bytes) :
    (setPeerPublicKey P pk).Nests SessionLock.rank ∅ ∅ := by
  refine Nests.guarded (by decide) (Nests.bind (Nests.atomic _ _) fun _ => ?_)
  exact nests_section (by decide)

theorem nests_startEvolution (coins : Bytes) :
    (startEvolution P coins).Nests SessionLock.rank ∅ ∅ := by
  -- Everything `start_evolution` takes while it holds the peer's key ranks above that key.
  refine Nests.bind (nests_section (by decide)) fun curr => ?_
  refine Nests.guarded (by decide) (Nests.bind (Nests.atomic _ _) fun pk => ?_)
  split_ifs
  · exact Nests.pure _ _
  · refine Nests.bind (nests_section (by decide)) fun storedHash => ?_
    split_ifs
    · exact Nests.pure _ _
    · split
      · exact Nests.pure _ _
      · split
        · exact Nests.pure _ _
        · refine Nests.bind (nests_section (by decide)) fun _ => ?_
          exact Nests.bind (nests_section (by decide)) fun _ => Nests.pure _ _

theorem nests_applyPeerKem (kemCt : Bytes) :
    (applyPeerKem P kemCt).Nests SessionLock.rank ∅ ∅ := by
  refine Nests.bind (nests_section (by decide)) fun sk => ?_
  split_ifs
  · exact Nests.pure _ _
  · split
    · exact Nests.pure _ _
    · split
      · exact Nests.pure _ _
      · refine Nests.bind (nests_section (by decide)) fun curr => ?_
        exact Nests.bind (nests_section (by decide)) fun _ => Nests.pure _ _

theorem nests_deriveMessageKey (epoch : UInt32) (msgSeq : UInt64) :
    (deriveMessageKey P epoch msgSeq).Nests SessionLock.rank ∅ ∅ :=
  Nests.bind (nests_section (by decide)) fun _ => Nests.pure _ _

theorem nests_tryDecryptWithEvolution (wire : Bytes) (h : Header) :
    (tryDecryptWithEvolution P wire h).Nests SessionLock.rank ∅ ∅ := by
  refine Nests.bind (nests_section (by decide)) fun curr => ?_
  refine Nests.bind (nests_section (by decide)) fun localEpoch => ?_
  split
  · exact Nests.pure _ _
  · split_ifs
    · refine Nests.bind (nests_section (by decide)) fun pend => ?_
      split
      · split
        · exact Nests.bind nests_commitEvolution fun _ => Nests.pure _ _
        · exact Nests.pure _ _
      · exact Nests.pure _ _
    · exact Nests.pure _ _

theorem nests_sessionProgram (op : SessionOp) :
    (sessionProgram P op).Nests SessionLock.rank ∅ ∅ := by
  have reply {α : Type} {p : LockedM α} (f : α → Reply) (hp : p.Nests SessionLock.rank ∅ ∅) :
      (p >>= fun value => pure (f value)).Nests SessionLock.rank ∅ ∅ :=
    Nests.bind hp fun value => Nests.pure ∅ (f value)
  cases op with
  | initialiseRootState alice bob bobPk => exact reply _ (nests_initialiseRootState alice bob bobPk)
  | generateBobKeypair coins => exact reply _ (nests_section (by decide))
  | setPeerPublicKey pk => exact reply _ (nests_setPeerPublicKey pk)
  | startEvolution coins => exact reply _ (nests_startEvolution coins)
  | getKemCipher capacity => exact reply _ (nests_section (by decide))
  | kemCipherLen => exact reply _ (nests_section (by decide))
  | applyPeerKem kemCt => exact reply _ (nests_applyPeerKem kemCt)
  | commitEvolution => exact reply _ nests_commitEvolution
  | recoverAfterLoss target => exact reply _ (nests_recoverAfterLoss target)
  | getEpochId => exact reply _ (nests_section (by decide))
  | msgCounterNext => exact reply _ (Nests.atomic _ _)
  | deriveMessageKey epoch msgSeq => exact reply _ (nests_deriveMessageKey epoch msgSeq)
  | send plaintext idStamp outgoing timestamp =>
    refine Nests.bind (Nests.atomic _ _) fun msgSeq => ?_
    refine Nests.bind (nests_section (by decide)) fun epoch => ?_
    exact reply _ (nests_deriveMessageKey epoch msgSeq)
  | tryDecryptWithEvolution wire header => exact reply _ (nests_tryDecryptWithEvolution wire header)

theorem nests_program (op : LockingOp) : (program P op).Nests SessionLock.rank ∅ ∅ := by
  cases op with
  | session op => exact nests_sessionProgram op
  | generateIdStampFromCurr =>
    refine Nests.bind ?_ fun _ => Nests.pure _ _
    refine Nests.bind (nests_section (by decide)) fun _ => ?_
    exact Nests.bind (nests_section (by decide)) fun _ => Nests.pure _ _

end Order

/-- Whatever operations any number of threads have made, from any state of the
session in which no mutex is held, no threads wait for each other. -/
theorem session_operations_never_deadlock {ι : Type} [DecidableEq ι] (P : Primitives)
    (s : Session) (replies : ι → Reply) {c : System ι SessionLock Session (LockedM Reply)}
    (run : Run (instr (program P)) (fun _ _ _ => True) (atRest s replies) c) (stuck : Set ι) :
    ¬ Deadlocked (instr (program P)) c stuck :=
  not_deadlocked_of_nests nests_program run stuck

theorem session_operations_never_deadlock_contended :
    ∃ c, Run (instr (program symbolic)) (fun _ _ _ => True)
        (atRest Session.fresh (fun _ : Bool => Reply.code 0)) c ∧
      WaitsFor (instr (program symbolic)) c true .rootCurr false ∧
      ∀ stuck, ¬ Deadlocked (instr (program symbolic)) c stuck := by
  obtain ⟨c, run, waits⟩ : ∃ c, Run (instr (program symbolic)) (fun _ _ _ => True)
      (atRest Session.fresh (fun _ : Bool => Reply.code 0)) c ∧
      WaitsFor (instr (program symbolic)) c true .rootCurr false :=
    exists_run [(false, .session .commitEvolution), (false, .session .commitEvolution),
      (true, .session .commitEvolution)] (by decide)
  exact ⟨c, run, waits, session_operations_never_deadlock symbolic _ _ run⟩

end SecureCore.SessionLocks
