import SecureCore.SessionSteps
import SecureCore.TwoParty

/-! What `initialise_root_state` leaves of the session before it. The call sets the
root, the epoch and the stored public key. The pending root, the message counter
and the KEM ciphertext stay, and later calls read all three. -/

namespace SecureCore.Reinitialisation

open AtomicProgram Program RootState MessageCipher Evolution

/-- The calls by which two sessions are compared. -/
def Compares : SessionOp → Prop
  | .getEpochId | .msgCounterNext | .deriveMessageKey .. | .commitEvolution
  | .tryDecryptWithEvolution .. | .recoverAfterLoss _ | .kemCipherLen | .getKemCipher _ => True
  | _ => False

def view (call : Call) : Reply × Key × Option Key × UInt32 :=
  (call.reply, call.after.curr, call.after.pend, call.after.epoch)

section

variable (P : Primitives)

def Indistinguishable (s t : Session) : Prop :=
  ∀ ops : List SessionOp, (∀ op ∈ ops, Compares op) →
    (trace P s ops).map view = (trace P t ops).map view

structure Alike (s t : Session) : Prop where
  curr : s.curr = t.curr
  pend : s.pend = t.pend
  epoch : s.epoch = t.epoch
  msgCounter : s.msgCounter = t.msgCounter
  kemCipher : s.kemCipher.getD [] = t.kemCipher.getD []

end

variable {P : Primitives} {s t : Session}

theorem readRootStateCurr_lockstep : readRootStateCurr.Lockstep Alike :=
  fun _ _ h => ⟨h.curr, h⟩

theorem readEpochId_lockstep : readEpochId.Lockstep Alike :=
  fun _ _ h => ⟨h.epoch, h⟩

theorem readRootStatePend_lockstep : readRootStatePend.Lockstep Alike :=
  fun _ _ h => ⟨h.pend, h⟩

theorem nextMsgSeq_lockstep : nextMsgSeq.Lockstep Alike := by
  intro s t h
  refine ⟨h.msgCounter, { h with msgCounter := ?_ }⟩
  exact congrArg (· + 1) h.msgCounter

theorem commitEvolution_lockstep : commitEvolution.Lockstep Alike := by
  intro s t h
  cases hs : s.pend with
  | none =>
    rw [run_commitEvolution_none hs, run_commitEvolution_none (h.pend ▸ hs)]
    exact ⟨rfl, h⟩
  | some newKey =>
    rw [run_commitEvolution_some hs, run_commitEvolution_some (h.pend ▸ hs)]
    exact ⟨rfl, rfl, rfl, congrArg (· + 1) h.epoch, rfl, h.kemCipher⟩

theorem rollEpochForward_lockstep (salt info : Bytes) :
    (rollEpochForward P salt info).Lockstep Alike := by
  intro s t h
  rw [run_rollEpochForward, run_rollEpochForward, h.epoch, h.curr]
  exact ⟨rfl, rfl, h.pend, congrArg (· + 1) h.epoch, rfl, h.kemCipher⟩

theorem getKemCipher_eq (capacity : Nat) (s : Session) :
    (getKemCipher capacity).run s = ((s.kemCipher.getD []).take capacity, s) := by
  cases hs : s.kemCipher with
  | none => simp [hs]
  | some buf => simp [hs, List.take_eq_take_iff, Nat.min_comm]

theorem getKemCipher_lockstep (capacity : Nat) : (getKemCipher capacity).Lockstep Alike := by
  intro s t h
  rw [getKemCipher_eq, getKemCipher_eq, h.kemCipher]
  exact ⟨rfl, h⟩

theorem kemCipherLen_lockstep : kemCipherLen.Lockstep Alike := by
  have hlen : ∀ s : Session, kemCipherLen.run s = ((s.kemCipher.getD []).length, s) := by
    intro s
    cases hs : s.kemCipher <;> simp [kemCipherLen, hs]
  intro s t h
  rw [hlen, hlen, h.kemCipher]
  exact ⟨rfl, h⟩

theorem deriveMessageKey_lockstep (epoch : UInt32) (msgSeq : UInt64) :
    (deriveMessageKey P epoch msgSeq).Lockstep Alike :=
  readRootStateCurr_lockstep.bind fun _ => .pure _ _

theorem rollLoop_lockstep (gap : Nat) (last : UInt32) :
    (AntiDos.rollLoop P gap last).Lockstep Alike := by
  induction gap generalizing last with
  | zero => exact .pure _ _
  | succ gap ih =>
    refine (rollEpochForward_lockstep _ _).bind fun r => ?_
    split
    · exact .pure _ _
    · exact ih r

theorem recoverAfterLoss_lockstep (target : UInt32) :
    (AntiDos.recoverAfterLoss P target).Lockstep Alike := by
  refine readEpochId_lockstep.bind fun e => ?_
  split
  · exact .pure _ _
  · split
    · exact .pure _ _
    · exact rollLoop_lockstep _ _

theorem tryDecryptWithEvolution_lockstep (wire : Bytes) (header : Header) :
    (tryDecryptWithEvolution P wire header).Lockstep Alike := by
  refine readRootStateCurr_lockstep.bind fun curr => readEpochId_lockstep.bind fun localEpoch => ?_
  split
  · exact .pure _ _
  · split
    · refine readRootStatePend_lockstep.bind fun pend => ?_
      cases pend with
      | none => exact .pure _ _
      | some pend =>
        dsimp only
        split
        · exact commitEvolution_lockstep.bind fun _ => .pure _ _
        · exact .pure _ _
    · exact .pure _ _

theorem program_lockstep {op : SessionOp} (compares : Compares op) :
    (op.program P).Lockstep Alike := by
  cases op with
  | getKemCipher capacity => exact (getKemCipher_lockstep capacity).bind fun _ => .pure _ _
  | kemCipherLen => exact kemCipherLen_lockstep.bind fun _ => .pure _ _
  | commitEvolution => exact commitEvolution_lockstep.bind fun _ => .pure _ _
  | recoverAfterLoss target => exact (recoverAfterLoss_lockstep target).bind fun _ => .pure _ _
  | getEpochId => exact readEpochId_lockstep.bind fun _ => .pure _ _
  | msgCounterNext => exact nextMsgSeq_lockstep.bind fun _ => .pure _ _
  | deriveMessageKey epoch msgSeq =>
    exact (deriveMessageKey_lockstep epoch msgSeq).bind fun _ => .pure _ _
  | tryDecryptWithEvolution wire header =>
    exact (tryDecryptWithEvolution_lockstep wire header).bind fun _ => .pure _ _
  | _ => exact compares.elim

theorem Alike.indistinguishable (h : Alike s t) : Indistinguishable P s t := by
  intro ops hops
  induction ops generalizing s t with
  | nil => rfl
  | cons op ops ih =>
    obtain ⟨hreply, hafter⟩ := program_lockstep (P := P) (hops op List.mem_cons_self) s t h
    have hview : view (op.call P s) = view (op.call P t) := by
      simp only [view, SessionOp.call, SessionOp.exec]
      rw [hreply, hafter.curr, hafter.pend, hafter.epoch]
    have hrest := ih hafter fun op' hop' => hops op' (List.mem_cons_of_mem _ hop')
    simp only [trace, List.map_cons]
    exact congrArg₂ List.cons hview hrest

theorem Indistinguishable.view_call (h : Indistinguishable P s t) (op : SessionOp)
    (compares : Compares op) : view (op.call P s) = view (op.call P t) := by
  have hview := h [op] (by simpa using compares)
  simpa [trace] using hview

theorem Indistinguishable.statics (h : Indistinguishable P s t) :
    s.pend = t.pend ∧ s.msgCounter = t.msgCounter ∧
      s.kemCipher.getD [] = t.kemCipher.getD [] := by
  have hpend : s.pend = t.pend :=
    congrArg (fun shown => shown.2.2.1) (h.view_call .getEpochId trivial)
  have hseq : Reply.seq s.msgCounter = Reply.seq t.msgCounter :=
    congrArg Prod.fst (h.view_call .msgCounterNext trivial)
  let capacity := (s.kemCipher.getD []).length + (t.kemCipher.getD []).length
  have hcipher := congrArg Prod.fst (h.view_call (.getKemCipher capacity) trivial)
  have htake : ((s.kemCipher.getD []).take capacity) = ((t.kemCipher.getD []).take capacity) := by
    simpa only [view, SessionOp.call, SessionOp.exec, SessionOp.program, run_bind, getKemCipher_eq,
      run_pure, Reply.bytes.injEq] using hcipher
  rw [List.take_of_length_le (by omega), List.take_of_length_le (by omega)] at htake
  exact ⟨hpend, Reply.seq.inj hseq, htake⟩

theorem exec_initialiseRootState_ok {alice bob bobPk : Bytes}
    (h : ((SessionOp.initialiseRootState alice bob bobPk).exec P s).1 = .code 0) :
    ((SessionOp.initialiseRootState alice bob bobPk).exec P s).2 =
      { s with bobPkStore := bobPk, curr := InitModule.initialRoot P alice bob, epoch := 0 } := by
  simp only [SessionOp.exec, SessionOp.program, run_bind, run_pure, Reply.code.injEq] at h ⊢
  exact InitModule.initialiseRootState_ok h

/-- Two sessions, both initialised with the same arguments, are told apart exactly
when they held different pending roots, message counters or KEM ciphertexts. -/
theorem reinitialised_indistinguishable_iff (P : Primitives) (alice bob bobPk : Bytes)
    (s t : Session)
    (first : ((SessionOp.initialiseRootState alice bob bobPk).exec P s).1 = .code 0)
    (second : ((SessionOp.initialiseRootState alice bob bobPk).exec P t).1 = .code 0) :
    Indistinguishable P ((SessionOp.initialiseRootState alice bob bobPk).exec P s).2
        ((SessionOp.initialiseRootState alice bob bobPk).exec P t).2 ↔
      s.pend = t.pend ∧ s.msgCounter = t.msgCounter ∧
        s.kemCipher.getD [] = t.kemCipher.getD [] := by
  rw [exec_initialiseRootState_ok first, exec_initialiseRootState_ok second]
  constructor
  · intro h
    exact h.statics
  · rintro ⟨hpend, hcounter, hcipher⟩
    exact Alike.indistinguishable ⟨rfl, hpend, rfl, hcounter, hcipher⟩

theorem reinitialised_indistinguishable_iff_afterRecovery :
    let P := SymbolicPrimitives.symbolic
    let op := SessionOp.initialiseRootState sampleEntropy sampleEntropy [1, 4]
    let s := Session.fresh.after P [op, .recoverAfterLoss 2]
    s.curr ≠ Session.fresh.curr ∧
      Indistinguishable P (op.exec P s).2 (op.exec P Session.fresh).2 := by
  refine ⟨by decide +kernel, ?_⟩
  refine (reinitialised_indistinguishable_iff _ _ _ _ _ _ ?_ ?_).2 ?_
  · decide +kernel
  · decide +kernel
  · decide +kernel

theorem sent_message_survives_reinitialisation :
    let P := SymbolicPrimitives.symbolic
    let op := SessionOp.initialiseRootState sampleEntropy sampleEntropy [1, 4]
    let s := Session.fresh.after P [op, .send [7] [] true 1000]
    (op.exec P s).1 = .code 0 ∧ (op.exec P Session.fresh).1 = .code 0 ∧
      (SessionOp.msgCounterNext.exec P (op.exec P s).2).1 = .seq 2 ∧
      (SessionOp.msgCounterNext.exec P (op.exec P Session.fresh).2).1 = .seq 1 ∧
      ¬ Indistinguishable P (op.exec P s).2 (op.exec P Session.fresh).2 := by
  -- One message sent before the second initialisation: the next number is 2, not 1.
  refine ⟨by decide +kernel, by decide +kernel, by decide +kernel, by decide +kernel, fun h => ?_⟩
  exact absurd h.statics.2.1 (by decide +kernel)

end SecureCore.Reinitialisation
