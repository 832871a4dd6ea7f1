import SecureCore.LockReduction
import SecureCore.SessionLocks

/-! The session functions access by access, and that they may be read as programs of
atomic sections. `commit_evolution` and `roll_epoch_forward` write the root, the
pending root and the epoch one after another and reset the message counter, an
atomic that other threads reach without a mutex; `set_peer_public_key` and
`store_bob_public_key` clear the key before they copy the new one, and the first hashes
it under a second mutex. All of these take effect at once: at the reset of the counter,
the write of the hash, or the copy. -/

namespace SecureCore.SectionRefinement

open AtomicProgram MutexThreads LockedProgram LockedProgram.Locked LockReduction
open RootState (u32Max)
open MessageCipher SessionLocks
open SymbolicPrimitives (symbolic)

section Accesses

variable (P : Primitives)

def resetMsgCounter : LockedM Unit :=
  atomic fun s => ((), { s with msgCounter := 1 })

def commitEvolution : LockedM UInt32 :=
  guarded .rootCurr <| guarded .rootPend <| guarded .epoch do
    match ← atomic fun s => (s.pend, s) with
    | none => pure 1
    | some newKey => do
      atomic fun s => ((), { s with curr := zeros32 })
      atomic fun s => ((), { s with curr := newKey })
      atomic fun s => ((), { s with pend := none })
      atomic fun s => ((), { s with epoch := s.epoch + 1 })
      resetMsgCounter
      pure 0

def rollEpochForward (salt info : Bytes) : LockedM UInt32 :=
  guarded .rootCurr <| guarded .epoch do
    match P.expand salt (← atomic fun s => (s.curr, s)) info 32 with
    | some okm => do
      atomic fun s => ((), { s with curr := zeros32 })
      atomic fun s => ((), { s with curr := okm })
      atomic fun s => ((), { s with epoch := s.epoch + 1 })
      resetMsgCounter
      atomic fun s => (s.epoch, s)
    | none => pure u32Max

def setPeerPublicKey (pk : Bytes) : LockedM Unit :=
  guarded .bobPublicKey do
    atomic fun s => ((), { s with bobPublicKey := [] })
    atomic fun s => ((), { s with bobPublicKey := pk })
    guarded .peerPkHash (atomic fun s => ((), { s with peerPkHash := P.sha256 pk }))

def storeBobPublicKey (pk : Bytes) : LockedM Unit :=
  guarded .bobPkStore do
    atomic fun s => ((), { s with bobPkStore := [] })
    atomic fun s => ((), { s with bobPkStore := pk })

def initialiseRootState (alice bob bobPk : Bytes) : LockedM UInt32 :=
  if InitModule.entropyReject alice || InitModule.entropyReject bob then pure 2
  else if (InitModule.oddEvenInterleave alice bob).length < 64 then pure 1
  else if bobPk.isEmpty then pure 3
  else do
    storeBobPublicKey bobPk
    setRootStateCurr (InitModule.initialRoot P alice bob)
    setEpochId 0
    pure 0

def rollLoop : (gap : Nat) → (last : UInt32) → LockedM UInt32
  | 0, last => pure last
  | gap + 1, _ => do
    let r ← rollEpochForward P AntiDos.rollSalt AntiDos.rollInfo
    if r = u32Max then pure u32Max else rollLoop gap r

def recoverAfterLoss (targetEpoch : UInt32) : LockedM UInt32 := do
  let e ← readEpochId
  if targetEpoch ≤ e then pure e
  else if targetEpoch - e > 100000 then pure u32Max
  else rollLoop P (targetEpoch - e).toNat e

def tryDecryptWithEvolution (wire : Bytes) (h : Header) : LockedM (Option (Bytes × Bool)) := do
  let curr ← readRootStateCurr
  let localEpoch ← readEpochId
  match decrypt P wire (deriveMessageKeyFromRoot P curr h.epoch h.msgSeq) h with
  | some pt => pure (some (pt, false))
  | none =>
    if h.epoch = localEpoch + 1 then do
      match ← readRootStatePend with
      | some pend =>
        match decrypt P wire (deriveMessageKeyFromRoot P pend h.epoch h.msgSeq) h with
        | some pt => do
          let code ← commitEvolution
          pure (some (pt, code == 0))
        | none => pure none
      | none => pure none
    else pure none

def program : LockingOp → LockedM Reply
  | .session (.initialiseRootState alice bob bobPk) => do
    pure (.code (← initialiseRootState P alice bob bobPk))
  | .session (.setPeerPublicKey pk) => do
    setPeerPublicKey P pk
    pure (.code 0)
  | .session .commitEvolution => do pure (.code (← commitEvolution))
  | .session (.recoverAfterLoss target) => do pure (.code (← recoverAfterLoss P target))
  | .session (.tryDecryptWithEvolution wire header) => do
    pure (.opened (← tryDecryptWithEvolution P wire header))
  | op => SessionLocks.program P op

def sectionProgram : LockingOp → SessionM Reply
  | .session op => op.program P
  | .generateIdStampFromCurr => do pure (.bytes (← InitModule.generateIdStampFromCurr P))

end Accesses

def region : SessionLock → Session → Session → Prop
  | .rootCurr, s, t => s.curr = t.curr
  | .rootPend, s, t => s.pend = t.pend
  | .epoch, s, t => s.epoch = t.epoch
  | .evoState, s, t => s.kemCipher = t.kemCipher
  | .bobKeys, s, t => s.bobKeys = t.bobKeys
  | .bobPublicKey, s, t => s.bobPublicKey = t.bobPublicKey
  | .peerPkHash, s, t => s.peerPkHash = t.peerPkHash
  | .bobPkStore, s, t => s.bobPkStore = t.bobPkStore

theorem region_equivalence (lock : SessionLock) : Equivalence (region lock) := by
  cases lock <;> exact ⟨fun _ => rfl, Eq.symm, Eq.trans⟩

/-- What is left is the message counter, an atomic. -/
def regions : Regions SessionLock Session where
  guarded := region
  bare s t := s.msgCounter = t.msgCounter
  guarded_equiv := region_equivalence
  bare_equiv := ⟨fun _ => rfl, Eq.symm, Eq.trans⟩
  ext {s t} hguarded hcounter := by
    have hcurr : s.curr = t.curr := hguarded .rootCurr
    have hpend : s.pend = t.pend := hguarded .rootPend
    have hepoch : s.epoch = t.epoch := hguarded .epoch
    have hkem : s.kemCipher = t.kemCipher := hguarded .evoState
    have hkeys : s.bobKeys = t.bobKeys := hguarded .bobKeys
    have hpk : s.bobPublicKey = t.bobPublicKey := hguarded .bobPublicKey
    have hhash : s.peerPkHash = t.peerPkHash := hguarded .peerPkHash
    have hstore : s.bobPkStore = t.bobPkStore := hguarded .bobPkStore
    cases s
    simp_all

def Slot : SessionLock → Type
  | .rootCurr => Key
  | .rootPend => Option Key
  | .epoch => UInt32
  | .evoState => Option Bytes
  | .bobKeys => Bytes × Bytes
  | .bobPublicKey | .peerPkHash | .bobPkStore => Bytes

def store : (lock : SessionLock) → Slot lock → Session → Session
  | .rootCurr, curr, s => { s with curr := curr }
  | .rootPend, pend, s => { s with pend := pend }
  | .epoch, epoch, s => { s with epoch := epoch }
  | .evoState, kemCipher, s => { s with kemCipher := kemCipher }
  | .bobKeys, bobKeys, s => { s with bobKeys := bobKeys }
  | .bobPublicKey, pk, s => { s with bobPublicKey := pk }
  | .peerPkHash, hash, s => { s with peerPkHash := hash }
  | .bobPkStore, pk, s => { s with bobPkStore := pk }

section Sections

variable {P : Primitives} {held : Finset SessionLock} {α : Type} {label : Label}

theorem hidden_of_region {lock : SessionLock} {update : Session → Session} (own : lock ∈ held)
    (others : ∀ s other, other ≠ lock → region other s (update s))
    (counter : ∀ s, s.msgCounter = (update s).msgCounter)
    (same : ∀ s t, region lock s t → region lock (update s) (update t)) :
    Hidden regions held update where
  within s other hother := others s other fun heq => hother (heq ▸ own)
  bare := counter
  same s t hsame other hother := by
    by_cases hne : other = lock
    · rw [hne]
      exact same s t (hsame lock own)
    · exact (region_equivalence other).trans ((region_equivalence other).symm (others s other hne))
        ((region_equivalence other).trans (hsame other hother) (others t other hne))

theorem hidden_store (lock : SessionLock) (own : lock ∈ held) (value : Slot lock) :
    Hidden regions held (store lock value) := by
  refine hidden_of_region own (fun s other hne => ?_) (fun s => ?_) fun s t _ => ?_
  · cases lock <;> cases other <;> first | rfl | exact absurd rfl hne
  · cases lock <;> rfl
  · cases lock <;> rfl

theorem hidden_nextEpoch (own : SessionLock.epoch ∈ held) :
    Hidden regions held fun s => { s with epoch := s.epoch + 1 } := by
  refine hidden_of_region own (fun s other hne => ?_) (fun _ => rfl) fun s t h => ?_
  · cases other <;> first | rfl | exact absurd rfl hne
  · exact congrArg (· + 1) h

theorem refines_read (lock : SessionLock) {get : Session → α} (free : lock ∉ held)
    (same : ∀ s t, region lock s t → get s = get t) :
    Refines regions held (guarded lock (atomic fun s => (get s, s)))
      (Program.atomic label fun s => (get s, s)) :=
  Refines.guarded free (Refines.read fun s t h => same s t (h lock (Finset.mem_insert_self _ _)))

theorem refines_store (lock : SessionLock) (free : lock ∉ held) (stored : Slot lock) (value : α) :
    Refines regions held (guarded lock (atomic fun s => (value, store lock stored s)))
      (Program.atomic label fun s => (value, store lock stored s)) :=
  Refines.guarded free (Refines.write (hidden_store lock (Finset.mem_insert_self _ _) stored) value)

theorem sameOn_roots {s t : Session} :
    regions.SameOn {SessionLock.epoch, .rootPend, .rootCurr} s t ↔
      s.epoch = t.epoch ∧ s.pend = t.pend ∧ s.curr = t.curr := by
  simp [Regions.SameOn, regions, region]

theorem refines_commitEvolution :
    Refines regions ∅ commitEvolution RootState.commitEvolution := by
  -- Nothing happens for the others until the counter starts again.
  refine Refines.guarded (by decide) (Refines.guarded (by decide) (Refines.guarded (by decide) ?_))
  intro s t hsame
  change Sim _ _ (atomic (fun s : Session => (s.pend, s)) >>= _) _ s t
    (Program.atomic Label.commitEvolution _ >>= Program.done)
  cases hnew : s.pend with
  | none =>
    apply Sim.effect
    intro s' t' hs ht hbare
    have hsame' : regions.SameOn {SessionLock.epoch, .rootPend, .rootCurr} s' t' :=
      hs.symm.trans (hsame.trans ht)
    have hs' : s'.pend = none := (sameOn_roots.mp hs).2.1 ▸ hnew
    have ht' : t'.pend = none := (sameOn_roots.mp hsame').2.1 ▸ hs'
    rw [hs', ht']
    exact ⟨.refl, .refl, hbare, rfl, hsame', rfl⟩
  | some newKey =>
    refine Sim.read (Returns.stable _) (fun s s' h => (sameOn_roots.mp h).2.1) ?_
    rw [hnew]
    refine Sim.write (Returns.stable _) (hidden_store .rootCurr (by decide) zeros32) ?_
    refine Sim.write (Returns.stable _) (hidden_store .rootCurr (by decide) newKey) ?_
    refine Sim.write (Returns.stable _) (hidden_store .rootPend (by decide) none) ?_
    refine Sim.write (Returns.stable _) (hidden_nextEpoch (by decide)) ?_
    apply Sim.effect
    intro s' t' hs ht _
    obtain ⟨hepoch, hpend, hcurr⟩ := sameOn_roots.mp hs
    obtain ⟨hepoch', hpend', -⟩ := sameOn_roots.mp (hsame.trans ht)
    rw [hnew] at hpend'
    rw [← hpend']
    refine ⟨?_, ?_, rfl, rfl, ?_, rfl⟩
    · rintro (_ | _) _ <;> rfl
    · rintro (_ | _) h <;> first | rfl | exact absurd (by decide) h
    · exact sameOn_roots.mpr ⟨hepoch.symm.trans (congrArg (· + 1) hepoch'), hpend.symm, hcurr.symm⟩

theorem sameOn_roll {s t : Session} :
    regions.SameOn {SessionLock.epoch, .rootCurr} s t ↔ s.epoch = t.epoch ∧ s.curr = t.curr := by
  simp [Regions.SameOn, regions, region]

theorem refines_rollEpochForward (salt info : Bytes) :
    Refines regions ∅ (rollEpochForward P salt info) (RootState.rollEpochForward P salt info) := by
  refine Refines.guarded (by decide) (Refines.guarded (by decide) ?_)
  intro s t hsame
  change Sim _ _ (atomic (fun s : Session => (s.curr, s)) >>= _) _ s t
    (Program.atomic Label.rollEpochForward _ >>= Program.done)
  refine Sim.read (Returns.stable _) (fun s s' h => (sameOn_roll.mp h).2) ?_
  rw [Primitives.expand_32]
  refine Sim.write (Returns.stable _) (hidden_store .rootCurr (by decide) zeros32) ?_
  refine Sim.write (Returns.stable _) (hidden_store .rootCurr (by decide) _) ?_
  refine Sim.write (Returns.stable _) (hidden_nextEpoch (by decide)) ?_
  apply Sim.effect
  intro s' t' hs ht _
  obtain ⟨hepoch, hcurr⟩ := sameOn_roll.mp hs
  obtain ⟨hepoch', hcurr'⟩ := sameOn_roll.mp (hsame.trans ht)
  have hnext : s'.epoch = t'.epoch + 1 := hepoch.symm.trans (congrArg (· + 1) hepoch')
  have hroot : s'.curr = P.hkdf salt t'.curr info := by rw [← hcurr', ← hcurr]
  refine ⟨?_, ?_, rfl, ?_⟩
  · rintro (_ | _) _ <;> rfl
  · rintro (_ | _) h <;> first | rfl | exact absurd (by decide) h
  · -- The new epoch is read back with both mutexes still held.
    refine Sim.read (Returns.stable _) (fun s s' h => (sameOn_roll.mp h).1) (f := pure) ?_
    refine ⟨rfl, sameOn_roll.mpr ⟨hnext, hroot⟩, ?_⟩
    exact congrArg Program.done hnext.symm

theorem refines_setPeerPublicKey (pk : Bytes) :
    Refines regions ∅ (setPeerPublicKey P pk) (Evolution.setPeerPublicKey P pk) := by
  refine Refines.guarded (by decide) ?_
  intro s t hsame
  refine Sim.write (Returns.stable _) (hidden_store .bobPublicKey (by decide) []) ?_
  refine Sim.write (Returns.stable _) (hidden_store .bobPublicKey (by decide) pk) ?_
  change Sim _ _ (guarded _ (atomic _) >>= pure) _ _ t
    (Program.atomic Label.setPeerPublicKey _ >>= Program.done)
  refine Sim.effect_guarded (by decide) fun s' t' hs ht _ hbare => ?_
  refine ⟨?_, ?_, rfl, hbare, rfl, ?_, rfl⟩
  · rintro (_ | _) h <;> first | rfl | exact absurd (by decide) h
  · rintro (_ | _) h <;> first | rfl | exact absurd (by decide) h
  · intro lock hlock
    obtain rfl : lock = .bobPublicKey := by simpa using hlock
    exact (hs .bobPublicKey (by decide)).symm

theorem refines_rollLoop (gap : Nat) (last : UInt32) :
    Refines regions ∅ (rollLoop P gap last) (AntiDos.rollLoop P gap last) := by
  induction gap generalizing last with
  | zero => exact Refines.pure last
  | succ gap ih =>
    refine (refines_rollEpochForward _ _).bind fun r => ?_
    split_ifs
    · exact Refines.pure u32Max
    · exact ih r

theorem refines_readRootStateCurr :
    Refines regions ∅ readRootStateCurr RootState.readRootStateCurr :=
  refines_read .rootCurr (by decide) fun _ _ h => h

theorem refines_readEpochId : Refines regions ∅ readEpochId RootState.readEpochId :=
  refines_read .epoch (by decide) fun _ _ h => h

theorem refines_recoverAfterLoss (target : UInt32) :
    Refines regions ∅ (recoverAfterLoss P target) (AntiDos.recoverAfterLoss P target) := by
  refine refines_readEpochId.bind fun e => ?_
  split_ifs
  · exact Refines.pure e
  · exact Refines.pure u32Max
  · exact refines_rollLoop _ e

theorem refines_installation (own : held = {SessionLock.bobPublicKey})
    (curr pk storedHash coins : Bytes) :
    Refines regions held
      (if storedHash ≠ zeros32 ∧ Evolution.hashDifference (P.sha256 pk) storedHash ≠ 0 then pure 5
        else match P.encapsulate pk coins with
          | none => pure 1
          | some (kemCt, sharedSecret) =>
            match tryInto32 sharedSecret with
            | none => pure 4
            | some ss => do
              setRootStatePend (some (Evolution.derivePendingKey P ss curr))
              setKemCipher kemCt
              pure (0 : UInt32))
      (if storedHash ≠ zeros32 ∧ Evolution.hashDifference (P.sha256 pk) storedHash ≠ 0 then pure 5
        else match P.encapsulate pk coins with
          | none => pure 1
          | some (kemCt, sharedSecret) =>
            match tryInto32 sharedSecret with
            | none => pure 4
            | some ss => do
              RootState.setRootStatePend (some (Evolution.derivePendingKey P ss curr))
              Evolution.setKemCipher kemCt
              pure (0 : UInt32)) := by
  subst own
  split_ifs
  · exact Refines.pure 5
  · cases P.encapsulate pk coins with
    | none => exact Refines.pure 1
    | some out =>
      dsimp only
      cases tryInto32 out.2 with
      | none => exact Refines.pure 4
      | some ss =>
        refine (refines_store .rootPend (by decide) _ ()).bind fun _ => ?_
        exact (refines_store .evoState (by decide) _ ()).bind fun _ => Refines.pure 0

theorem refines_startEvolution (coins : Bytes) :
    Refines regions ∅ (startEvolution P coins) (Evolution.startEvolution P coins) := by
  -- The guard of the peer's key is held over four sections.
  refine refines_readRootStateCurr.bind fun curr => Refines.guarded (by decide) ?_
  refine Refines.bind (Refines.read fun s t h => h .bobPublicKey (by decide)) fun pk => ?_
  split_ifs
  · exact Refines.pure 2
  · refine (refines_read .peerPkHash (by decide) fun _ _ h => h).bind fun storedHash => ?_
    exact refines_installation rfl curr pk storedHash coins

theorem refines_applyPeerKem (kemCt : Bytes) :
    Refines regions ∅ (applyPeerKem P kemCt) (Evolution.applyPeerKem P kemCt) := by
  refine Refines.bind (refines_read .bobKeys (by decide) fun _ _ h => congrArg Prod.snd h)
    fun sk => ?_
  split_ifs
  · exact Refines.pure 3
  · cases P.decapsulate kemCt sk with
    | none => exact Refines.pure 2
    | some sharedSecret =>
      dsimp only
      cases tryInto32 sharedSecret with
      | none => exact Refines.pure 4
      | some ss =>
        refine refines_readRootStateCurr.bind fun curr => ?_
        exact (refines_store .rootPend (by decide) _ ()).bind fun _ => Refines.pure 0

theorem refines_storeBobPublicKey (pk : Bytes) :
    Refines regions ∅ (storeBobPublicKey pk) (InitModule.storeBobPublicKey pk) := by
  have hidden (key : Bytes) : Hidden regions {SessionLock.bobPkStore} (store .bobPkStore key) :=
    hidden_store .bobPkStore (by decide) key
  refine Refines.guarded (by decide) ?_
  intro s t hsame
  refine Sim.write (Returns.stable _) (hidden []) ?_
  change Sim _ _ (atomic _ >>= pure) _ _ t
    (Program.atomic Label.storeBobPublicKey _ >>= Program.done)
  apply Sim.effect
  intro s' t' _ _ hbare
  refine ⟨(hidden pk).within s', (hidden pk).within t', hbare, rfl, ?_, rfl⟩
  intro lock hlock
  obtain rfl : lock = .bobPkStore := by simpa using hlock
  rfl

theorem refines_initialiseRootState (alice bob bobPk : Bytes) :
    Refines regions ∅ (initialiseRootState P alice bob bobPk)
      (InitModule.initialiseRootState P alice bob bobPk) := by
  rw [initialiseRootState, InitModule.initialiseRootState]
  split_ifs
  · exact Refines.pure 2
  · exact Refines.pure 1
  · exact Refines.pure 3
  · refine (refines_storeBobPublicKey bobPk).bind fun _ => ?_
    refine (refines_store .rootCurr (by decide) _ ()).bind fun _ => ?_
    exact (refines_store .epoch (by decide) (0 : UInt32) ()).bind fun _ => Refines.pure 0

theorem refines_nextMsgSeq : Refines regions ∅ nextMsgSeq MessageCipher.nextMsgSeq := by
  -- No mutex protects the counter, and nothing else is touched.
  refine Refines.atomic (fun s => ?_) fun s t hsame hbare => ?_
  · rintro (_ | _) _ <;> rfl
  · have hcounter : s.msgCounter = t.msgCounter := hbare
    exact ⟨hcounter, fun lock h => absurd h (Finset.notMem_empty lock), congrArg (· + 1) hcounter⟩

theorem refines_deriveMessageKey (epoch : UInt32) (msgSeq : UInt64) :
    Refines regions ∅ (deriveMessageKey P epoch msgSeq)
      (MessageCipher.deriveMessageKey P epoch msgSeq) :=
  refines_readRootStateCurr.bind fun _ => Refines.pure _

theorem refines_tryDecryptWithEvolution (wire : Bytes) (h : Header) :
    Refines regions ∅ (tryDecryptWithEvolution P wire h)
      (MessageCipher.tryDecryptWithEvolution P wire h) := by
  refine refines_readRootStateCurr.bind fun curr => ?_
  refine refines_readEpochId.bind fun localEpoch => ?_
  cases decrypt P wire (deriveMessageKeyFromRoot P curr h.epoch h.msgSeq) h with
  | some pt => exact Refines.pure _
  | none =>
    dsimp only
    split_ifs
    · refine (refines_read .rootPend (by decide) fun _ _ h => h).bind fun pend => ?_
      cases pend with
      | none => exact Refines.pure none
      | some pend =>
        dsimp only
        cases decrypt P wire (deriveMessageKeyFromRoot P pend h.epoch h.msgSeq) h with
        | none => exact Refines.pure none
        | some pt => exact refines_commitEvolution.bind fun _ => Refines.pure _
    · exact Refines.pure none

theorem refines_program (op : LockingOp) :
    Refines regions ∅ (program P op) (sectionProgram P op) := by
  have reply {α : Type} {p : LockedM α} {q : SessionM α} (f : α → Reply)
      (h : Refines regions ∅ p q) : Refines regions ∅ (p >>= fun value => pure (f value))
        (q >>= fun value => pure (f value)) := h.bind fun value => Refines.pure (f value)
  cases op with
  | generateIdStampFromCurr =>
    refine reply _ (refines_readRootStateCurr.bind fun curr => ?_)
    exact (refines_read .bobPkStore (by decide) fun _ _ h => h).bind fun _ => Refines.pure _
  | session op =>
    cases op with
    | initialiseRootState => exact reply _ (refines_initialiseRootState _ _ _)
    | generateBobKeypair => exact reply _ (refines_store .bobKeys (by decide) _ 0)
    | setPeerPublicKey pk => exact (refines_setPeerPublicKey pk).bind fun _ => Refines.pure _
    | startEvolution coins => exact reply _ (refines_startEvolution coins)
    | getKemCipher capacity =>
      exact reply _ (refines_read .evoState (by decide) fun s t h => by
        rw [show s.kemCipher = t.kemCipher from h])
    | kemCipherLen =>
      exact reply _ (refines_read .evoState (by decide) fun s t h => by
        rw [show s.kemCipher = t.kemCipher from h])
    | applyPeerKem kemCt => exact reply _ (refines_applyPeerKem kemCt)
    | commitEvolution => exact reply _ refines_commitEvolution
    | recoverAfterLoss target => exact reply _ (refines_recoverAfterLoss target)
    | getEpochId => exact reply _ refines_readEpochId
    | msgCounterNext => exact reply _ refines_nextMsgSeq
    | deriveMessageKey epoch msgSeq => exact reply _ (refines_deriveMessageKey epoch msgSeq)
    | send plaintext idStamp outgoing timestamp =>
      refine refines_nextMsgSeq.bind fun msgSeq => refines_readEpochId.bind fun epoch => ?_
      exact reply _ (refines_deriveMessageKey epoch msgSeq)
    | tryDecryptWithEvolution wire header =>
      exact reply _ (refines_tryDecryptWithEvolution wire header)

end Sections

/-- Whatever any number of threads call, each deciding by the replies it has had, and
however their accesses interleave: some interleaving of whole sections gives every
finished thread the same replies, agrees on everything no thread has locked, and is in
the same state when no mutex is held. -/
theorem accesses_refine_sections {ι : Type} [DecidableEq ι] (P : Primitives) (s : Session)
    (clients : ι → Client LockingOp Reply)
    {c : System ι SessionLock Session (LockedM (List (LockingOp × Reply)))}
    (run : Run code (fun _ _ _ => True) (launch s fun i => (clients i).locked (program P)) c) :
    ∃ d, Config.Reachable s (fun i => (clients i).sections (sectionProgram P)) d ∧
      (∀ i calls, c.threads i = .done calls → d.threads i = .done calls) ∧
      (∀ lock, c.owner lock = none → region lock c.shared d.shared) ∧
      ((∀ lock, c.owner lock = none) → c.shared = d.shared) := by
  obtain ⟨d, held, hreach, hcoupled⟩ :=
    Refines.run (fun i => Client.refines refines_program (clients i)) run
  exact ⟨d, hreach, fun i calls => hcoupled.done, hcoupled.free, hcoupled.shared_eq⟩

theorem accesses_refine_sections_midCommit :
    let clients : Bool → Client LockingOp Reply := fun i =>
      .call (.session (if i then .msgCounterNext else .commitEvolution)) fun _ => .stop
    let s : Session := { Session.fresh with pend := some zeros32, msgCounter := 7 }
    ∃ d, Config.Reachable s (fun i => (clients i).sections (sectionProgram symbolic)) d ∧
      d.threads true = .done [(.session .msgCounterNext, .seq 7)] ∧
      d.shared = { s with pend := none, epoch := 1, msgCounter := 1 } := by
  -- A number is drawn while a commit is under way, before the counter is reset.
  intro clients s
  obtain ⟨c, run, hdone, hfree, hshared⟩ : ∃ c, Run code (fun _ _ _ => True)
      (launch s fun i => (clients i).locked (program symbolic)) c ∧
      finished? (c.threads true) = some [(.session .msgCounterNext, .seq 7)] ∧
      (∀ lock, c.owner lock = none) ∧
      c.shared = { s with pend := none, epoch := 1, msgCounter := 1 } :=
    exists_run (List.replicate 6 (false, ()) ++ (true, ()) :: List.replicate 6 (false, ()))
      (by decide +kernel)
  obtain ⟨d, hreach, hreplies, -, hrest⟩ := accesses_refine_sections symbolic s clients run
  refine ⟨d, hreach, hreplies true _ (finished?_eq_some.mp hdone), ?_⟩
  rw [← hrest hfree, hshared]

end SecureCore.SectionRefinement
