import SecureCore.SessionSteps
import SecureCore.TwoParty

/-! Which root a commit chains from. A pending root is derived from the root in
force when it is installed. A commit promotes it whatever the root in force is by
then, and two calls replace that root without touching the pending one:
`initialise_root_state`, and `recover_after_loss` through `roll_epoch_forward`. -/

namespace SecureCore.ChainedRoots

open RootState MessageCipher Evolution

section

variable (P : Primitives)

def secretOf (call : Call) : Option Bytes :=
  if call.reply = .code 0 then
    match call.op with
    | .startEvolution coins => (P.encapsulate call.before.bobPublicKey coins).map Prod.snd
    | .applyPeerKem kemCt => P.decapsulate kemCt call.before.bobKeys.2
    | _ => none
  else none

def ReplacesRoot (s : Session) : SessionOp → Prop
  | .initialiseRootState alice bob bobPk => InitModule.Accepts alice bob bobPk
  | .recoverAfterLoss target => s.epoch < target ∧ target - s.epoch ≤ 100000
  | _ => False

def Commits (call : Call) : Prop :=
  (call.op = .commitEvolution ∧ call.reply = .code 0) ∨
    ∃ wire header pt, call.op = .tryDecryptWithEvolution wire header ∧
      call.reply = .opened (some (pt, true))

def Derived (secret : Option Bytes) (s : Session) : Prop :=
  ∀ pend, s.pend = some pend → ∃ ss, secret = some ss ∧ pend = derivePendingKey P ss s.curr

end

variable {P : Primitives} {secret : Option Bytes} {s : Session}

theorem secretOf_of_idle {op : SessionOp} {reply : Reply} (reports : op.Idle reply) :
    secretOf P ⟨op, s, reply, s⟩ = none := by
  by_cases hreply : reply = .code 0
  · subst hreply
    cases op <;> first | rfl | simp [SessionOp.Idle] at reports
  · exact if_neg hreply

theorem derived_step {op : SessionOp} (h : Derived P secret s)
    (empty : ReplacesRoot s op → s.pend = none) :
    Derived P ((secretOf P (op.call P s)).or secret) (op.exec P s).2 := by
  -- One call keeps the pending root derived from the root in force, provided it replaces that
  -- root only while nothing is pending.
  have hstep := exec_step (P := P) op s
  rw [SessionOp.call]
  generalize op.exec P s = result at hstep
  obtain ⟨reply, after⟩ := result
  dsimp only at hstep ⊢
  cases hstep with
  | initialised alice bob bobPk accepted =>
    intro pend hpend
    exact absurd hpend (by simp [empty accepted])
  | recovered target ahead near =>
    intro pend hpend
    rw [(AntiDos.rolledBy_frame _ s).1, empty ⟨ahead, near⟩] at hpend
    exact absurd hpend (by simp)
  | started coins kemCt ss hpk encapsulated hwidth =>
    rintro pend ⟨⟩
    exact ⟨ss, by simp [secretOf, encapsulated], rfl⟩
  | applied kemCt ss decapsulated hwidth =>
    rintro pend ⟨⟩
    exact ⟨ss, by simp [secretOf, decapsulated], rfl⟩
  | committed newKey pending | autoCommitted wire header newKey pt pending =>
    intro pend hpend
    exact absurd hpend (by simp [promoted])
  | keyed | supplied | numbered => exact h
  | sent plaintext idStamp outgoing timestamp reply =>
    have hnone : secretOf P ⟨.send plaintext idStamp outgoing timestamp, s, reply,
        { s with msgCounter := s.msgCounter + 1 }⟩ = none := by
      simp [secretOf]
    rw [hnone]
    exact h
  | idle op reply reports =>
    rw [secretOf_of_idle reports]
    exact h

theorem Commits.curr {op : SessionOp} (commits : Commits (op.call P s)) :
    s.pend = some (op.exec P s).2.curr := by
  have hstep := exec_step (P := P) op s
  rw [SessionOp.call] at commits
  generalize op.exec P s = result at hstep commits
  obtain ⟨reply, after⟩ := result
  dsimp only at hstep commits ⊢
  rcases commits with ⟨hop, hreply⟩ | ⟨wire, header, pt, hop, hreply⟩
  · dsimp only at hop hreply
    subst hop hreply
    cases hstep with
    | committed newKey pending => exact pending
    | idle op reply reports => simp [SessionOp.Idle] at reports
  · dsimp only at hop hreply
    subst hop hreply
    cases hstep with
    | autoCommitted wire header newKey pt pending => exact pending
    | idle op reply reports => simp [SessionOp.Idle] at reports

/-- Each commit among the calls promoted the root derived from the one in force
before it and the latest secret shared by then. -/
def CommitsChain (P : Primitives) (calls : List Call) : Prop :=
  ∀ earlier call later, calls = earlier ++ call :: later → Commits call →
    ∃ ss, latestOf (secretOf P) earlier = some ss ∧
      call.after.curr = derivePendingKey P ss call.before.curr

theorem run_derived (ops : List SessionOp)
    (empty : ∀ call ∈ trace P .fresh ops,
      ReplacesRoot call.before call.op → call.before.pend = none) :
    Derived P (latestOf (secretOf P) (trace P .fresh ops)) (Session.fresh.after P ops) := by
  revert empty
  refine run_induction (motive := fun calls s =>
    (∀ call ∈ calls, ReplacesRoot call.before call.op → call.before.pend = none) →
      Derived P (latestOf (secretOf P) calls) s) ?_ ?_ ops
  · rintro - pend ⟨⟩
  · intro calls s op ih empty
    rw [latestOf_snoc]
    refine derived_step (ih fun call hcall => ?_) ?_
    · exact empty call (List.mem_append_left _ hcall)
    · exact empty (op.call P s) (by simp)

/-- In every run that replaces the root only while nothing is pending, the
pending root is derived from the root in force and the latest KEM secret, and
every commit chains from the root it replaces. -/
theorem commits_chain_from_root_in_force (P : Primitives) (ops : List SessionOp)
    (empty : ∀ call ∈ trace P .fresh ops,
      ReplacesRoot call.before call.op → call.before.pend = none) :
    (∀ pend, (Session.fresh.after P ops).pend = some pend →
      ∃ ss, latestOf (secretOf P) (trace P .fresh ops) = some ss ∧
        pend = derivePendingKey P ss (Session.fresh.after P ops).curr) ∧
      CommitsChain P (trace P .fresh ops) := by
  refine ⟨run_derived ops empty, ?_⟩
  intro earlier call later hsplit commits
  have hempty : ∀ call ∈ earlier, ReplacesRoot call.before call.op → call.before.pend = none :=
    fun call hcall => empty call (hsplit ▸ List.mem_append_left _ hcall)
  obtain ⟨past, op, rfl, rfl⟩ := trace_split hsplit
  exact run_derived past hempty _ commits.curr

theorem commits_chain_from_root_in_force_afterRecovery :
    let P := SymbolicPrimitives.symbolic
    let ops : List SessionOp := [.initialiseRootState sampleEntropy sampleEntropy [1, 4],
      .recoverAfterLoss 2, .setPeerPublicKey [1, 4], .startEvolution [4], .commitEvolution]
    ((trace P .fresh ops).map Call.reply = [.code 0, .code 2, .code 0, .code 0, .code 0]) ∧
      CommitsChain P (trace P .fresh ops) := by
  refine ⟨by decide +kernel, ?_⟩
  refine (commits_chain_from_root_in_force _ _ ?_).2
  intro call hcall
  simp only [trace, List.mem_cons, List.not_mem_nil, or_false] at hcall
  rcases hcall with rfl | rfl | rfl | rfl | rfl
  · exact fun _ => by decide +kernel
  · exact fun _ => by decide +kernel
  all_goals exact False.elim

/-- After this call, made while a root is pending, a commit succeeds and promotes a
root that is not derived from the one it replaces. -/
def BreaksChain (replacing : SessionOp) : Prop :=
  let P := SymbolicPrimitives.symbolic
  let ops : List SessionOp := [.setPeerPublicKey [1, 4], .startEvolution [4], replacing]
  let s := Session.fresh.after P ops
  let call := SessionOp.commitEvolution.call P s
  call.reply = .code 0 ∧ ∃ ss, latestOf (secretOf P) (trace P .fresh ops) = some ss ∧
    call.after.curr ≠ derivePendingKey P ss s.curr

theorem commit_promotes_root_of_abandoned_chain :
    BreaksChain (.recoverAfterLoss 1) ∧
      BreaksChain (.initialiseRootState sampleEntropy sampleEntropy [1, 4]) := by
  constructor
  · exact ⟨by decide +kernel, SymbolicPrimitives.fit32 [4], by decide +kernel, by decide +kernel⟩
  · exact ⟨by decide +kernel, SymbolicPrimitives.fit32 [4], by decide +kernel, by decide +kernel⟩

end SecureCore.ChainedRoots
