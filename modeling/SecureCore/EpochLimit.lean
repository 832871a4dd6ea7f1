import SecureCore.CheckedArithmetic
import SecureCore.FallibleState
import SecureCore.RecoveryPaths
import SecureCore.TwoParty

/-! The epoch near the top of its range. The functions that add to an epoch are
given once more with these additions checked, as a build with overflow checks
executes them; where nothing overflows both agree. Each addition stands where the
source has it: a promotion has replaced the root and cleared the pending one when
`*e += 1` panics, and has not yet reset the message counter. The panic also poisons
the mutexes it holds, which a `Session` does not show. Recovery takes its targets from
outside and may be repeated, so every epoch up to `u32::MAX` can be reached, and
`u32::MAX` is also the value recovery reports errors with. -/

namespace SecureCore.EpochLimit

open FallibleState CheckedArithmetic AtomicProgram Program RootState AntiDos MessageCipher

abbrev CheckedM := EStateM Panic Session

def increment (e : UInt32) : Checked UInt32 := do
  pure (UInt32.ofNat (← add 32 e.toNat 1))

section Source

variable (P : Primitives)

def commitEvolution : CheckedM UInt32 := do
  let s ← get
  match s.pend with
  | none => pure 1
  | some newKey => do
    -- `*curr = new_key` and `*pend = None` come before `*e += 1`, and stay when that panics
    modify fun s => { s with curr := newKey, pend := none }
    let epoch ← orFail id (increment s.epoch)
    modify fun s => { s with epoch := epoch, msgCounter := 1 }
    pure 0

def rollEpochForward (salt info : Bytes) : CheckedM UInt32 := do
  let s ← get
  match P.expand salt s.curr info 32 with
  | some okm => do
    modify fun s => { s with curr := okm }
    let epoch ← orFail id (increment s.epoch)
    modify fun s => { s with epoch := epoch, msgCounter := 1 }
    pure epoch
  | none => pure u32Max

def rollLoop : (gap : Nat) → (last : UInt32) → CheckedM UInt32
  | 0, last => pure last
  | gap + 1, _ => do
    let r ← rollEpochForward P rollSalt rollInfo
    if r = u32Max then pure u32Max else rollLoop gap r

def recoverAfterLoss (targetEpoch : UInt32) : CheckedM UInt32 := do
  let s ← get
  if targetEpoch ≤ s.epoch then pure s.epoch
  else if targetEpoch - s.epoch > 100000 then pure u32Max
  else rollLoop P (targetEpoch - s.epoch).toNat s.epoch

def tryDecryptWithEvolution (wire : Bytes) (h : Header) : CheckedM (Option (Bytes × Bool)) := do
  let s ← get
  match decrypt P wire (deriveMessageKeyFromRoot P s.curr h.epoch h.msgSeq) h with
  | some pt => pure (some (pt, false))
  | none => do
    let ahead ← orFail id (increment s.epoch)
    if h.epoch = ahead then
      match s.pend with
      | some pend =>
        match decrypt P wire (deriveMessageKeyFromRoot P pend h.epoch h.msgSeq) h with
        | some pt => do
          let code ← commitEvolution
          pure (some (pt, code == 0))
        | none => pure none
      | none => pure none
    else pure none

end Source

inductive EpochOp where
  | commitEvolution
  | recoverAfterLoss (targetEpoch : UInt32)
  | tryDecryptWithEvolution (wire : Bytes) (header : Header)
  deriving DecidableEq, Repr

namespace EpochOp

def toSession : EpochOp → SessionOp
  | commitEvolution => .commitEvolution
  | recoverAfterLoss targetEpoch => .recoverAfterLoss targetEpoch
  | tryDecryptWithEvolution wire header => .tryDecryptWithEvolution wire header

variable (P : Primitives)

/-- The call with its additions checked. -/
def checked : EpochOp → CheckedM Reply
  | commitEvolution => do pure (.code (← EpochLimit.commitEvolution))
  | recoverAfterLoss targetEpoch => do pure (.code (← EpochLimit.recoverAfterLoss P targetEpoch))
  | tryDecryptWithEvolution wire header => do
    pure (.opened (← EpochLimit.tryDecryptWithEvolution P wire header))

def exec (op : EpochOp) (s : Session) : Reply × Session := op.toSession.exec P s

end EpochOp

section Increment

variable {e : UInt32}

theorem increment_ok (h : e ≠ u32Max) : increment e = .ok (e + 1) := by
  have hlt : e.toNat + 1 < 2 ^ 32 := by
    have hbound := e.toNat_lt
    have hne : e.toNat ≠ u32Max.toNat := fun h' => h (UInt32.toNat.inj h')
    have hmax : u32Max.toNat = 2 ^ 32 - 1 := rfl
    omega
  rw [increment, bind_ok (add_ok hlt), UInt32.ofNat_add, UInt32.ofNat_toNat]
  rfl

theorem increment_max : increment u32Max = .error .addOverflow := rfl

end Increment

section Agreement

variable {P : Primitives} {s : Session}

theorem commitEvolution_none (h : s.pend = none) : commitEvolution s = .ok 1 s := by
  rw [commitEvolution, bind_ok (get_apply s), h]
  rfl

theorem commitEvolution_some {newKey : Key} (h : s.pend = some newKey)
    (room : s.epoch ≠ u32Max) : commitEvolution s = .ok 0 (promoted s newKey) := by
  rw [commitEvolution, bind_ok (get_apply s), h]
  dsimp only
  rw [bind_ok (modify_apply _ s), bind_ok (orFail_ok (increment_ok room) id _)]
  rfl

theorem commitEvolution_max {newKey : Key} (h : s.pend = some newKey) (top : s.epoch = u32Max) :
    commitEvolution s = .error .addOverflow { s with curr := newKey, pend := none } := by
  have hadd : increment s.epoch = .error .addOverflow := top ▸ increment_max
  rw [commitEvolution, bind_ok (get_apply s), h]
  dsimp only
  rw [bind_ok (modify_apply _ s), bind_error (orFail_error hadd id _)]
  rfl

theorem rollEpochForward_ok (salt info : Bytes) (room : s.epoch ≠ u32Max) :
    rollEpochForward P salt info s = .ok (s.epoch + 1) (rolled s (P.hkdf salt s.curr info)) := by
  rw [rollEpochForward, bind_ok (get_apply s), Primitives.expand_32]
  dsimp only
  rw [bind_ok (modify_apply _ s), bind_ok (orFail_ok (increment_ok room) id _)]
  rfl

theorem rollLoop_ok (gap : Nat) (last : UInt32) (s : Session)
    (fits : s.epoch.toNat + gap < 2 ^ 32) :
    rollLoop P gap last s =
      .ok ((AntiDos.rollLoop P gap last).run s).1 ((AntiDos.rollLoop P gap last).run s).2 := by
  -- The loop counts up to an epoch there is, so none of its additions overflows.
  induction gap generalizing last s with
  | zero => rfl
  | succ gap ih =>
    have room : s.epoch ≠ u32Max := by
      intro top
      have hmax : s.epoch.toNat = 2 ^ 32 - 1 := by rw [top]; rfl
      omega
    have hnext : (s.epoch + 1).toNat = s.epoch.toNat + 1 := by
      rw [UInt32.toNat_add]
      exact Nat.mod_eq_of_lt (by simp; omega)
    rw [rollLoop, bind_ok (rollEpochForward_ok _ _ room), AntiDos.rollLoop, run_bind,
      run_rollEpochForward]
    dsimp only
    split_ifs
    · rfl
    · apply ih
      change (s.epoch + 1).toNat + gap < 2 ^ 32
      omega

theorem recoverAfterLoss_ok (target : UInt32) (s : Session) :
    recoverAfterLoss P target s =
      .ok ((AntiDos.recoverAfterLoss P target).run s).1
        ((AntiDos.recoverAfterLoss P target).run s).2 := by
  rw [recoverAfterLoss, bind_ok (get_apply s), AntiDos.recoverAfterLoss, run_bind,
    run_readEpochId]
  dsimp only
  split_ifs with behind far
  · rfl
  · rfl
  · apply rollLoop_ok
    have hgap : (target - s.epoch).toNat = target.toNat - s.epoch.toNat :=
      UInt32.toNat_sub_of_le _ _ (UInt32.le_of_lt (UInt32.not_le.mp behind))
    have hlt := UInt32.lt_iff_toNat_lt.mp (UInt32.not_le.mp behind)
    have hbound := target.toNat_lt
    omega

theorem tryDecrypt_fast {wire pt : Bytes} {h : Header}
    (opens : decrypt P wire (deriveMessageKeyFromRoot P s.curr h.epoch h.msgSeq) h = some pt) :
    tryDecryptWithEvolution P wire h s = .ok (some (pt, false)) s := by
  rw [tryDecryptWithEvolution, bind_ok (get_apply s), opens]
  rfl

theorem tryDecrypt_max {wire : Bytes} {h : Header}
    (closed : decrypt P wire (deriveMessageKeyFromRoot P s.curr h.epoch h.msgSeq) h = none)
    (top : s.epoch = u32Max) :
    tryDecryptWithEvolution P wire h s = .error .addOverflow s := by
  have hadd : increment s.epoch = .error .addOverflow := top ▸ increment_max
  rw [tryDecryptWithEvolution, bind_ok (get_apply s), closed]
  dsimp only
  rw [bind_error (orFail_error hadd id s)]
  rfl

theorem tryDecrypt_ok {wire : Bytes} {h : Header} (room : s.epoch ≠ u32Max) :
    tryDecryptWithEvolution P wire h s =
      .ok ((MessageCipher.tryDecryptWithEvolution P wire h).run s).1
        ((MessageCipher.tryDecryptWithEvolution P wire h).run s).2 := by
  cases fast : decrypt P wire (deriveMessageKeyFromRoot P s.curr h.epoch h.msgSeq) h with
  | some pt =>
    rw [tryDecrypt_fast fast]
    simp [MessageCipher.tryDecryptWithEvolution, fast]
  | none =>
    rw [tryDecryptWithEvolution, bind_ok (get_apply s), fast]
    dsimp only
    rw [bind_ok (orFail_ok (increment_ok room) id s)]
    by_cases ahead : h.epoch = s.epoch + 1
    · rw [if_pos ahead]
      cases hpend : s.pend with
      | none =>
        rw [ahead] at fast
        simp [MessageCipher.tryDecryptWithEvolution, fast, ahead, hpend]
        rfl
      | some pend =>
        dsimp only
        cases slow : decrypt P wire (deriveMessageKeyFromRoot P pend h.epoch h.msgSeq) h with
        | none =>
          rw [ahead] at fast slow
          simp [MessageCipher.tryDecryptWithEvolution, fast, ahead, hpend, slow]
          rfl
        | some pt =>
          dsimp only
          rw [bind_ok (commitEvolution_some hpend room)]
          rw [ahead] at fast slow
          simp [MessageCipher.tryDecryptWithEvolution, fast, ahead, hpend, slow,
            run_commitEvolution_some hpend]
          rfl
    · rw [if_neg ahead]
      simp [MessageCipher.tryDecryptWithEvolution, fast, ahead]
      rfl

end Agreement

section Calls

variable (P : Primitives)

def Refused (s : Session) (targetEpoch : UInt32) : Prop :=
  s.epoch < targetEpoch ∧ 100000 < targetEpoch.toNat - s.epoch.toNat

/-- One call on a session, as it should be: nothing overflows, the epoch does not
fall, and recovery returns `u32::MAX` only to refuse, with nothing changed. -/
structure Proper (op : EpochOp) (s : Session) : Prop where
  adds : ∃ reply t, op.checked P s = .ok reply t
  rises : s.epoch ≤ (op.exec P s).2.epoch
  reports : ∀ target, op = .recoverAfterLoss target → (op.exec P s).1 = .code u32Max →
    Refused s target ∧ (op.exec P s).2.curr = s.curr ∧ (op.exec P s).2.epoch = s.epoch ∧
      (op.exec P s).2.msgCounter = s.msgCounter

/-- The call keeps away from the top: it promotes no root there, recovers neither
there nor to there, and decrypts there only what the current root opens. -/
def Guarded (s : Session) : EpochOp → Prop
  | .commitEvolution => s.epoch = u32Max → s.pend = none
  | .recoverAfterLoss target => s.epoch ≠ u32Max ∧ (target = u32Max → Refused s target)
  | .tryDecryptWithEvolution wire h => s.epoch = u32Max →
    ∃ pt, decrypt P wire (deriveMessageKeyFromRoot P s.curr h.epoch h.msgSeq) h = some pt

def visits : Session → List EpochOp → List (EpochOp × Session)
  | _, [] => []
  | s, op :: ops => (op, s) :: visits (op.exec P s).2 ops

def after (s : Session) (ops : List EpochOp) : Session :=
  ops.foldl (fun s op => (op.exec P s).2) s

variable {P} {s : Session}

theorem epoch_rises (room : s.epoch ≠ u32Max) : s.epoch ≤ s.epoch + 1 := by
  have hbound := s.epoch.toNat_lt
  have hne : s.epoch.toNat ≠ u32Max.toNat := fun h => room (UInt32.toNat.inj h)
  have hmax : u32Max.toNat = 2 ^ 32 - 1 := rfl
  rw [UInt32.le_iff_toNat_le, UInt32.toNat_add]
  simp only [UInt32.reduceToNat]
  omega

theorem proper_of_exec {op : EpochOp} {reply : Reply} {t : Session}
    (adds : ∃ reply t, op.checked P s = .ok reply t) (run : op.exec P s = (reply, t))
    (rises : s.epoch ≤ t.epoch) (silent : reply ≠ .code u32Max) : Proper P op s where
  adds := adds
  rises := by
    rw [run]
    exact rises
  reports target _ reported := by
    rw [run] at reported
    exact absurd reported silent

theorem commit_proper_iff : Proper P .commitEvolution s ↔ Guarded P s .commitEvolution := by
  cases hpend : s.pend with
  | none =>
    have hexec : EpochOp.commitEvolution.exec P s = (.code 1, s) := by
      rw [EpochOp.exec, EpochOp.toSession, SessionOp.exec_commitEvolution,
        run_commitEvolution_none hpend]
    refine ⟨fun _ _ => hpend, fun _ =>
      proper_of_exec ⟨.code 1, s, ?_⟩ hexec (UInt32.le_refl _) (by decide)⟩
    rw [EpochOp.checked, bind_ok (commitEvolution_none hpend)]
    rfl
  | some newKey =>
    have hexec : EpochOp.commitEvolution.exec P s = (.code 0, promoted s newKey) := by
      rw [EpochOp.exec, EpochOp.toSession, SessionOp.exec_commitEvolution,
        run_commitEvolution_some hpend]
    constructor
    · intro proper top
      obtain ⟨reply, t, hrun⟩ := proper.adds
      rw [EpochOp.checked, bind_error (commitEvolution_max hpend top)] at hrun
      cases hrun
    · intro guarded
      have room : s.epoch ≠ u32Max := fun top => by
        rw [guarded top] at hpend
        cases hpend
      refine proper_of_exec ⟨.code 0, promoted s newKey, ?_⟩ hexec (epoch_rises room) (by decide)
      rw [EpochOp.checked, bind_ok (commitEvolution_some hpend room)]
      rfl

theorem recover_exec (target : UInt32) (s : Session) :
    (EpochOp.recoverAfterLoss target).exec P s =
      (.code ((AntiDos.recoverAfterLoss P target).run s).1,
        ((AntiDos.recoverAfterLoss P target).run s).2) :=
  SessionOp.exec_recoverAfterLoss P target s

theorem recover_adds (target : UInt32) (s : Session) :
    ∃ reply t, (EpochOp.recoverAfterLoss target).checked P s = .ok reply t :=
  ⟨.code _, _, bind_ok (recoverAfterLoss_ok target s)⟩

theorem recover_proper_iff (target : UInt32) :
    Proper P (.recoverAfterLoss target) s ↔ Guarded P s (.recoverAfterLoss target) := by
  have hexec := recover_exec (P := P) target s
  -- recovery stays, refuses, or arrives; only the first and the last can report wrongly
  by_cases behind : target ≤ s.epoch
  · rw [recover_behind behind] at hexec
    constructor
    · intro proper
      refine ⟨fun top => ?_, fun htarget => ?_⟩
      · have hreport := proper.reports target rfl (by rw [hexec, top])
        exact absurd hreport.1.1 (UInt32.not_lt.mpr behind)
      · have htop : s.epoch = u32Max := by
          rw [htarget] at behind
          exact UInt32.le_antisymm (UInt32.le_iff_toNat_le.mpr (Nat.le_of_lt_succ
            s.epoch.toNat_lt)) behind
        exact (proper.reports target rfl (by rw [hexec, htop])).1
    · intro guarded
      exact proper_of_exec (recover_adds target s) hexec (UInt32.le_refl _)
        fun reported => guarded.1 (Reply.code.inj reported)
  · have ahead : s.epoch < target := UInt32.not_le.mp behind
    have room : s.epoch ≠ u32Max := by
      intro top
      have hlt := UInt32.lt_iff_toNat_lt.mp ahead
      have hbound := target.toNat_lt
      have hmax : s.epoch.toNat = 2 ^ 32 - 1 := by rw [top]; rfl
      omega
    by_cases far : 100000 < target.toNat - s.epoch.toNat
    · rw [recover_refused ahead far] at hexec
      refine ⟨fun _ => ⟨room, fun _ => ⟨ahead, far⟩⟩, fun _ => ⟨recover_adds target s, ?_, ?_⟩⟩
      · rw [hexec]
        exact UInt32.le_refl _
      · rintro target' ⟨⟩ -
        rw [hexec]
        exact ⟨⟨ahead, far⟩, rfl, rfl, rfl⟩
    · rw [recover_reached ahead (by omega)] at hexec
      constructor
      · intro proper
        refine ⟨room, fun htarget => ?_⟩
        exact (proper.reports target rfl (by rw [hexec, htarget])).1
      · intro guarded
        exact proper_of_exec (recover_adds target s) hexec (UInt32.le_of_lt ahead)
          fun reported => far (guarded.2 (Reply.code.inj reported)).2

theorem tryDecrypt_proper_iff (wire : Bytes) (h : Header) :
    Proper P (.tryDecryptWithEvolution wire h) s ↔
      Guarded P s (.tryDecryptWithEvolution wire h) := by
  have hexec : (EpochOp.tryDecryptWithEvolution wire h).exec P s =
      (.opened ((MessageCipher.tryDecryptWithEvolution P wire h).run s).1,
        ((MessageCipher.tryDecryptWithEvolution P wire h).run s).2) :=
    SessionOp.exec_tryDecryptWithEvolution P wire h s
  by_cases top : s.epoch = u32Max
  · cases fast : decrypt P wire (deriveMessageKeyFromRoot P s.curr h.epoch h.msgSeq) h with
    | none =>
      constructor
      · intro proper
        obtain ⟨reply, t, hrun⟩ := proper.adds
        rw [EpochOp.checked, bind_error (tryDecrypt_max fast top)] at hrun
        cases hrun
      · intro guarded
        obtain ⟨pt, hopens⟩ := guarded top
        rw [fast] at hopens
        cases hopens
    | some pt =>
      have hrun : (MessageCipher.tryDecryptWithEvolution P wire h).run s =
          (some (pt, false), s) := by
        simp [MessageCipher.tryDecryptWithEvolution, fast]
      rw [hrun] at hexec
      refine ⟨fun _ _ => ⟨pt, fast⟩, fun _ =>
        proper_of_exec ⟨.opened (some (pt, false)), s, ?_⟩ hexec (UInt32.le_refl _) (by rintro ⟨⟩)⟩
      rw [EpochOp.checked, bind_ok (tryDecrypt_fast fast)]
      rfl
  · refine ⟨fun _ htop => absurd htop top, fun _ =>
      proper_of_exec ⟨.opened _, _, bind_ok (tryDecrypt_ok top)⟩ hexec ?_ (by rintro ⟨⟩)⟩
    rcases MessageCipher.tryDecryptWithEvolution_cases (P := P) wire h s with
      ⟨pt, -, hrun⟩ | ⟨pend, pt, -, -, -, -, hrun⟩ | hrun
    · rw [hrun]
      exact UInt32.le_refl _
    · rw [hrun]
      exact epoch_rises top
    · rw [hrun]
      exact UInt32.le_refl _

theorem proper_iff (op : EpochOp) (s : Session) : Proper P op s ↔ Guarded P s op := by
  cases op with
  | commitEvolution => exact commit_proper_iff
  | recoverAfterLoss target => exact recover_proper_iff target
  | tryDecryptWithEvolution wire h => exact tryDecrypt_proper_iff wire h

/-- The calls of a run, whatever session it starts from, are proper just when each
keeps away from the top of the range. -/
theorem epoch_arithmetic_proper_iff (P : Primitives) (s : Session) (ops : List EpochOp) :
    (∀ visit ∈ visits P s ops, Proper P visit.1 visit.2) ↔
      ∀ visit ∈ visits P s ops, Guarded P visit.2 visit.1 :=
  forall₂_congr fun visit _ => proper_iff visit.1 visit.2

theorem climbs (k : Nat) (s : Session) {m : Nat} (bound : m < 2 ^ 32)
    (ahead : s.epoch.toNat ≤ m) (near : m - s.epoch.toNat ≤ 100000 * k) :
    ∃ ops, (after P s ops).epoch.toNat = m ∧ (after P s ops).pend = s.pend := by
  induction k generalizing s with
  | zero => exact ⟨[], by simp only [after, List.foldl_nil]; omega, rfl⟩
  | succ k ih =>
    by_cases close : m ≤ s.epoch.toNat + 100000 * k
    · exact ih s ahead (by omega)
    · have htarget : (UInt32.ofNat (min m (s.epoch.toNat + 100000))).toNat =
          min m (s.epoch.toNat + 100000) := by
        rw [UInt32.toNat_ofNat', Nat.mod_eq_of_lt (by omega)]
      by_cases here : s.epoch.toNat = m
      · exact ⟨[], here, rfl⟩
      · have hstep := recover_exec (P := P) (UInt32.ofNat (min m (s.epoch.toNat + 100000))) s
        rw [recover_reached (UInt32.lt_iff_toNat_lt.mpr (by omega)) (by omega)] at hstep
        obtain ⟨ops, hepoch, hpend⟩ := ih
          (rolledTo P (UInt32.ofNat (min m (s.epoch.toNat + 100000))) s)
          (by simp only [rolledTo]; omega) (by simp only [rolledTo]; omega)
        refine ⟨.recoverAfterLoss (UInt32.ofNat (min m (s.epoch.toNat + 100000))) :: ops, ?_, ?_⟩
        · rw [after, List.foldl_cons, hstep]
          exact hepoch
        · rw [after, List.foldl_cons, hstep]
          exact hpend

end Calls

def evolving : Session :=
  ((SessionOp.startEvolution []).exec SymbolicPrimitives.symbolic
    ((SessionOp.setPeerPublicKey [9]).exec SymbolicPrimitives.symbolic Session.fresh).2).2

def initialisedEvolving : Session :=
  ((InitModule.initialiseRootState SymbolicPrimitives.symbolic sampleEntropy sampleEntropy
    [1]).run evolving).2

theorem epoch_arithmetic_proper_low :
    ∀ visit ∈ visits SymbolicPrimitives.symbolic initialisedEvolving
        [.recoverAfterLoss 5, .commitEvolution],
      Proper SymbolicPrimitives.symbolic visit.1 visit.2 := by
  refine (epoch_arithmetic_proper_iff SymbolicPrimitives.symbolic initialisedEvolving _).mpr ?_
  have htarget : (5 : UInt32) ≠ u32Max := by decide
  have hstart : initialisedEvolving.epoch ≠ u32Max := by decide +kernel
  have hepoch : ((EpochOp.recoverAfterLoss 5).exec SymbolicPrimitives.symbolic
      initialisedEvolving).2.epoch ≠ u32Max := by decide +kernel
  intro visit hvisit
  simp only [visits, List.mem_cons, List.not_mem_nil, or_false] at hvisit
  generalize ((EpochOp.recoverAfterLoss 5).exec SymbolicPrimitives.symbolic
    initialisedEvolving).2 = t at hvisit hepoch
  rcases hvisit with rfl | rfl
  · exact ⟨hstart, fun top => absurd top htarget⟩
  · exact fun top => absurd top hepoch

theorem epoch_overflows_at_the_top :
    ((InitModule.initialiseRootState SymbolicPrimitives.symbolic sampleEntropy sampleEntropy
        [1]).run evolving).1 = 0 ∧
      ∃ (ops : List EpochOp) (s t : Session) (newKey : Key),
        s = after SymbolicPrimitives.symbolic initialisedEvolving ops ∧
        (EpochOp.recoverAfterLoss u32Max).exec SymbolicPrimitives.symbolic s =
          (.code u32Max, t) ∧ t.epoch ≠ s.epoch ∧
        (EpochOp.tryDecryptWithEvolution [] ⟨[], true, 0, 0, 0⟩).checked
          SymbolicPrimitives.symbolic t = .error .addOverflow t ∧
        t.pend = some newKey ∧
        EpochOp.commitEvolution.checked SymbolicPrimitives.symbolic t =
          .error .addOverflow { t with curr := newKey, pend := none } ∧
        (EpochOp.commitEvolution.exec SymbolicPrimitives.symbolic t).2.epoch = 0 := by
  -- After an initialisation, recoveries lead next to the top. One more reports `u32::MAX`
  -- although it rolled there; then decrypting a foreign wire and promoting the pending root
  -- overflow, the latter with the root already replaced, and in a build that wraps the epoch
  -- falls back to 0.
  refine ⟨by decide +kernel, ?_⟩
  have hstart : initialisedEvolving.epoch = 0 := by decide +kernel
  obtain ⟨newKey, hnew⟩ : ∃ newKey, initialisedEvolving.pend = some newKey :=
    Option.isSome_iff_exists.mp (by decide +kernel)
  have hzero : initialisedEvolving.epoch.toNat = 0 := by rw [hstart]; rfl
  obtain ⟨ops, hepoch, hpend⟩ := climbs (P := SymbolicPrimitives.symbolic) 42950
    initialisedEvolving (m := 2 ^ 32 - 2) (by omega) (by omega) (by omega)
  obtain ⟨s, hs⟩ : ∃ s, s = after SymbolicPrimitives.symbolic initialisedEvolving ops := ⟨_, rfl⟩
  rw [← hs] at hepoch hpend
  have hmax : u32Max.toNat = 2 ^ 32 - 1 := rfl
  have hahead : s.epoch < u32Max := UInt32.lt_iff_toNat_lt.mpr (by omega)
  have hreach := recover_reached (P := SymbolicPrimitives.symbolic) hahead (by omega)
  have hexec := recover_exec (P := SymbolicPrimitives.symbolic) u32Max s
  rw [hreach] at hexec
  -- the roll to the top leaves the pending root of the evolution in place
  have hkept : (rolledTo SymbolicPrimitives.symbolic u32Max s).pend = some newKey :=
    hpend.trans hnew
  have htop : (rolledTo SymbolicPrimitives.symbolic u32Max s).epoch = u32Max := rfl
  refine ⟨ops, s, rolledTo SymbolicPrimitives.symbolic u32Max s, newKey, hs, hexec, ?_, ?_, hkept,
    ?_, ?_⟩
  · intro same
    rw [← same, htop] at hepoch
    omega
  · rw [EpochOp.checked, bind_error (tryDecrypt_max rfl htop)]
  · rw [EpochOp.checked, bind_error (commitEvolution_max hkept htop)]
  · rw [EpochOp.exec, EpochOp.toSession, SessionOp.exec_commitEvolution,
      run_commitEvolution_some hkept]
    change (rolledTo SymbolicPrimitives.symbolic u32Max s).epoch + 1 = 0
    rw [htop]
    rfl

end SecureCore.EpochLimit
