import SecureCore.SessionOps
import SecureCore.SymbolicPrimitives

/-! What one session call can do to the statics. Every call either has the one
effect its name announces, with the reply that reports it, or leaves the process
exactly as it was. The results about runs of session calls read an invariant off
these cases. -/

namespace SecureCore

open RootState MessageCipher

/-- The replies with which a call may leave the process as it was. -/
def SessionOp.Idle : SessionOp → Reply → Prop
  | .initialiseRootState .., reply | .startEvolution _, reply | .applyPeerKem _, reply
  | .commitEvolution, reply => ∃ value, value ≠ 0 ∧ reply = .code value
  | .tryDecryptWithEvolution .., reply => ∀ pt, reply ≠ .opened (some (pt, true))
  | .generateBobKeypair _, _ | .setPeerPublicKey _, _ | .msgCounterNext, _ | .send .., _ => False
  | _, _ => True

inductive SessionStep (P : Primitives) (s : Session) : SessionOp → Reply → Session → Prop where
  | initialised (alice bob bobPk : Bytes) (accepted : InitModule.Accepts alice bob bobPk) :
      SessionStep P s (.initialiseRootState alice bob bobPk) (.code 0)
        { s with bobPkStore := bobPk, curr := InitModule.initialRoot P alice bob, epoch := 0 }
  | keyed (coins : Bytes) :
      SessionStep P s (.generateBobKeypair coins) (.code 0) { s with bobKeys := P.keypair coins }
  | supplied (pk : Bytes) :
      SessionStep P s (.setPeerPublicKey pk) (.code 0)
        { s with bobPublicKey := pk, peerPkHash := P.sha256 pk }
  | started (coins kemCt ss : Bytes) (nonempty : s.bobPublicKey ≠ [])
      (encapsulated : P.encapsulate s.bobPublicKey coins = some (kemCt, ss))
      (width : ss.length = 32) :
      SessionStep P s (.startEvolution coins) (.code 0)
        { s with pend := some (Evolution.derivePendingKey P ss s.curr), kemCipher := some kemCt }
  | applied (kemCt ss : Bytes) (decapsulated : P.decapsulate kemCt s.bobKeys.2 = some ss)
      (width : ss.length = 32) :
      SessionStep P s (.applyPeerKem kemCt) (.code 0)
        { s with pend := some (Evolution.derivePendingKey P ss s.curr) }
  | committed (newKey : Key) (pending : s.pend = some newKey) :
      SessionStep P s .commitEvolution (.code 0) (promoted s newKey)
  | autoCommitted (wire : Bytes) (header : Header) (newKey : Key) (pt : Bytes)
      (pending : s.pend = some newKey) :
      SessionStep P s (.tryDecryptWithEvolution wire header) (.opened (some (pt, true)))
        (promoted s newKey)
  | recovered (target : UInt32) (ahead : s.epoch < target) (near : target - s.epoch ≤ 100000) :
      SessionStep P s (.recoverAfterLoss target) (.code target)
        (AntiDos.rolledBy P (target - s.epoch).toNat s)
  | numbered :
      SessionStep P s .msgCounterNext (.seq s.msgCounter) { s with msgCounter := s.msgCounter + 1 }
  | sent (plaintext idStamp : Bytes) (outgoing : Bool) (timestamp : UInt64) (reply : Reply) :
      SessionStep P s (.send plaintext idStamp outgoing timestamp) reply
        { s with msgCounter := s.msgCounter + 1 }
  | idle (op : SessionOp) (reply : Reply) (reports : op.Idle reply) : SessionStep P s op reply s

variable {P : Primitives}

theorem exec_initialiseRootState_step (alice bob bobPk : Bytes) (s : Session) :
    SessionStep P s (.initialiseRootState alice bob bobPk)
      ((SessionOp.initialiseRootState alice bob bobPk).exec P s).1
      ((SessionOp.initialiseRootState alice bob bobPk).exec P s).2 := by
  simp only [SessionOp.exec, SessionOp.program, InitModule.initialiseRootState]
  split_ifs with hentropy hlength hpk
  · exact .idle _ _ ⟨2, by decide, rfl⟩
  · exact .idle _ _ ⟨1, by decide, rfl⟩
  · exact .idle _ _ ⟨3, by decide, rfl⟩
  · exact .initialised alice bob bobPk ⟨hentropy, hlength, hpk⟩

theorem exec_recoverAfterLoss_step (target : UInt32) (s : Session) :
    SessionStep P s (.recoverAfterLoss target) ((SessionOp.recoverAfterLoss target).exec P s).1
      ((SessionOp.recoverAfterLoss target).exec P s).2 := by
  rw [SessionOp.exec_recoverAfterLoss, AntiDos.run_recoverAfterLoss]
  split_ifs with hle hgap
  · exact .idle _ _ trivial
  · exact .idle _ _ trivial
  · exact .recovered target (UInt32.not_le.mp hle) (UInt32.not_lt.mp hgap)

theorem exec_step (op : SessionOp) (s : Session) :
    SessionStep P s op (op.exec P s).1 (op.exec P s).2 := by
  cases op with
  | initialiseRootState alice bob bobPk => exact exec_initialiseRootState_step alice bob bobPk s
  | generateBobKeypair coins => exact .keyed coins
  | setPeerPublicKey pk => exact .supplied pk
  | startEvolution coins =>
    rw [SessionOp.exec_startEvolution]
    rcases Evolution.startEvolution_cases (P := P) coins s with
      ⟨kemCt, ss, hpk, henc, hwidth, hrun⟩ | ⟨code, hcode, hrun⟩
    · rw [hrun]
      exact .started coins kemCt ss hpk henc hwidth
    · rw [hrun]
      exact .idle _ _ ⟨code, hcode, rfl⟩
  | getKemCipher capacity => exact .idle _ _ trivial
  | kemCipherLen => exact .idle _ _ trivial
  | applyPeerKem kemCt =>
    rw [SessionOp.exec_applyPeerKem]
    rcases Evolution.applyPeerKem_cases (P := P) kemCt s with
      ⟨ss, -, hdec, hwidth, hrun⟩ | ⟨code, hcode, hrun⟩
    · rw [hrun]
      exact .applied kemCt ss hdec hwidth
    · rw [hrun]
      exact .idle _ _ ⟨code, hcode, rfl⟩
  | commitEvolution =>
    rw [SessionOp.exec_commitEvolution]
    cases hp : s.pend with
    | none =>
      rw [run_commitEvolution_none hp]
      exact .idle _ _ ⟨1, by decide, rfl⟩
    | some newKey =>
      rw [run_commitEvolution_some hp]
      exact .committed newKey hp
  | recoverAfterLoss target => exact exec_recoverAfterLoss_step target s
  | getEpochId => exact .idle _ _ trivial
  | msgCounterNext => exact .numbered
  | deriveMessageKey epoch msgSeq => exact .idle _ _ trivial
  | send plaintext idStamp outgoing timestamp =>
    rw [SessionOp.exec_send]
    exact .sent plaintext idStamp outgoing timestamp _
  | tryDecryptWithEvolution wire header =>
    rw [SessionOp.exec_tryDecryptWithEvolution]
    rcases tryDecryptWithEvolution_cases (P := P) wire header s with
      ⟨pt, -, hrun⟩ | ⟨pend, pt, -, -, hp, -, hrun⟩ | hrun
    · rw [hrun]
      exact .idle _ _ fun pt' => by simp
    · rw [hrun]
      exact .autoCommitted wire header pend pt hp
    · rw [hrun]
      exact .idle _ _ fun pt' => by simp

section Runs

theorem mem_trace_step {s : Session} {ops : List SessionOp} {call : Call}
    (h : call ∈ trace P s ops) : SessionStep P call.before call.op call.reply call.after := by
  obtain ⟨-, hreply, hafter⟩ := mem_trace h
  rw [hreply, hafter]
  exact exec_step call.op call.before

def Session.after (P : Primitives) (s : Session) (ops : List SessionOp) : Session :=
  ops.foldl (fun s op => (op.exec P s).2) s

theorem trace_append (s : Session) (ops more : List SessionOp) :
    trace P s (ops ++ more) = trace P s ops ++ trace P (s.after P ops) more := by
  induction ops generalizing s with
  | nil => rfl
  | cons op ops ih => exact congrArg (op.call P s :: ·) (ih (op.exec P s).2)

theorem trace_split {s : Session} {ops : List SessionOp} {earlier later : List Call} {call : Call}
    (h : trace P s ops = earlier ++ call :: later) :
    ∃ past, ∃ op : SessionOp, earlier = trace P s past ∧ call = op.call P (s.after P past) := by
  induction earlier generalizing s ops with
  | nil =>
    cases ops with
    | nil => simp [trace] at h
    | cons op ops =>
      obtain ⟨hcall, -⟩ := List.cons.inj h
      exact ⟨[], op, rfl, hcall.symm⟩
  | cons first earlier ih =>
    cases ops with
    | nil => simp [trace] at h
    | cons op ops =>
      obtain ⟨hfirst, hrest⟩ := List.cons.inj h
      obtain ⟨past, last, hpast, hcall⟩ := ih hrest
      exact ⟨op :: past, last, by rw [hpast, ← hfirst]; rfl, hcall⟩

theorem run_induction {motive : List Call → Session → Prop} {s₀ : Session} (start : motive [] s₀)
    (step : ∀ (calls : List Call) (s : Session) (op : SessionOp), motive calls s →
      motive (calls ++ [op.call P s]) (op.exec P s).2) (ops : List SessionOp) :
    motive (trace P s₀ ops) (s₀.after P ops) := by
  induction ops using List.reverseRecOn with
  | nil => exact start
  | append_singleton ops op ih =>
    have hafter : s₀.after P (ops ++ [op]) = (op.exec P (s₀.after P ops)).2 := by
      simp [Session.after]
    rw [trace_append, hafter]
    exact step _ _ op ih

def latestOf {α : Type} (yields : Call → Option α) (calls : List Call) : Option α :=
  calls.foldl (fun found call => (yields call).or found) none

@[simp] theorem latestOf_snoc {α : Type} (yields : Call → Option α) (calls : List Call)
    (call : Call) :
    latestOf yields (calls ++ [call]) = (yields call).or (latestOf yields calls) := by
  simp [latestOf]

end Runs

/-- The reply says that the call did nothing: an error code, no plaintext, or a
plaintext without a commit. -/
def SessionOp.Failed : SessionOp → Reply → Prop
  | .initialiseRootState .., reply | .startEvolution _, reply | .applyPeerKem _, reply
  | .commitEvolution, reply => ∃ value, value ≠ 0 ∧ reply = .code value
  | .tryDecryptWithEvolution .., reply =>
    reply = .opened none ∨ ∃ pt, reply = .opened (some (pt, false))
  | _, _ => False

/-- In every run, a call that reports failure leaves all nine statics as they
were, whatever the KEM and the AEAD answered. -/
theorem failed_calls_change_nothing (P : Primitives) (s₀ : Session) (ops : List SessionOp) :
    ∀ call ∈ trace P s₀ ops, call.op.Failed call.reply → call.after = call.before := by
  rintro ⟨op, before, reply, after⟩ hcall failed
  have hstep := mem_trace_step hcall
  dsimp only at hstep failed ⊢
  cases hstep with
  | idle op reply reports => rfl
  | initialised | started | applied | committed | autoCommitted =>
    simp [SessionOp.Failed] at failed
  | keyed | supplied | recovered | numbered | sent => exact failed.elim

theorem failed_calls_change_nothing_strayWire :
    let s := Session.fresh.after SymbolicPrimitives.symbolic
      [.setPeerPublicKey [1, 4], .startEvolution [4]]
    let call := (SessionOp.tryDecryptWithEvolution (List.replicate 30 0) ⟨[], true, 1, 1, 7⟩).call
      SymbolicPrimitives.symbolic s
    s.pend ≠ none ∧ call.reply = .opened none ∧ call.after = s := by
  refine ⟨by decide +kernel, by decide +kernel, ?_⟩
  exact failed_calls_change_nothing SymbolicPrimitives.symbolic Session.fresh
    [.setPeerPublicKey [1, 4], .startEvolution [4],
      .tryDecryptWithEvolution (List.replicate 30 0) ⟨[], true, 1, 1, 7⟩] _
    (by simp [trace, Session.after]) (Or.inl (by decide +kernel))

end SecureCore
