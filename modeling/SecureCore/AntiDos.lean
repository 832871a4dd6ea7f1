import SecureCore.RootState

/-! `anti_dos.rs`: recovery by rolling the root forward to the peer's epoch.
The gap is computed from one read of the epoch and then counted down by rolls,
each of which is a critical section of its own. -/

namespace SecureCore.AntiDos

open AtomicProgram Program RootState

variable (P : Primitives)

def rollSalt : Bytes := ascii "epoch_roll"

def rollInfo : Bytes := ascii "LinkChat Epoch Roll"

def rollKey (root : Key) : Key := P.hkdf rollSalt root rollInfo

/-- The `for _ in 0..gap` loop; `last` is the epoch the previous roll returned. -/
def rollLoop : (gap : Nat) → (last : UInt32) → SessionM UInt32
  | 0, last => pure last
  | gap + 1, _ => do
    let r ← rollEpochForward P rollSalt rollInfo
    if r = u32Max then pure u32Max else rollLoop gap r

def recoverAfterLoss (targetEpoch : UInt32) : SessionM UInt32 := do
  let e ← readEpochId
  if targetEpoch ≤ e then pure e
  else if targetEpoch - e > 100000 then pure u32Max
  else rollLoop P (targetEpoch - e).toNat e

def rolledBy : (n : Nat) → Session → Session
  | 0, s => s
  | n + 1, s => rolledBy n (rolled s (rollKey P s.curr))

variable {P}

theorem rolledBy_epoch (n : Nat) (s : Session) :
    (rolledBy P n s).epoch = s.epoch + UInt32.ofNat n := by
  induction n generalizing s with
  | zero => simp [rolledBy]
  | succ n ih =>
    have hrolled : (rolled s (rollKey P s.curr)).epoch = s.epoch + 1 := rfl
    rw [rolledBy, ih, hrolled, UInt32.ofNat_add, UInt32.add_assoc, UInt32.add_comm 1]
    rfl

theorem rolledBy_frame (n : Nat) (s : Session) :
    (rolledBy P n s).pend = s.pend ∧ (rolledBy P n s).bobKeys = s.bobKeys ∧
      (rolledBy P n s).bobPublicKey = s.bobPublicKey ∧
      (rolledBy P n s).kemCipher = s.kemCipher := by
  induction n generalizing s with
  | zero => exact ⟨rfl, rfl, rfl, rfl⟩
  | succ n ih => exact ih (rolled s (rollKey P s.curr))

theorem rolledBy_stores (n : Nat) (s : Session) :
    (rolledBy P n s).peerPkHash = s.peerPkHash ∧ (rolledBy P n s).bobPkStore = s.bobPkStore := by
  induction n generalizing s with
  | zero => exact ⟨rfl, rfl⟩
  | succ n ih => exact ih (rolled s (rollKey P s.curr))

theorem run_rollLoop (gap : Nat) (last : UInt32) (s : Session)
    (fits : s.epoch.toNat + gap < 2 ^ 32) :
    (rollLoop P gap last).run s =
      (if gap = 0 then last else s.epoch + UInt32.ofNat gap, rolledBy P gap s) := by
  -- The loop's early return is taken only by its last roll: the value it tests for is the
  -- greatest epoch there is.
  induction gap generalizing last s with
  | zero => rfl
  | succ gap ih =>
    have hnext : (s.epoch + 1).toNat = s.epoch.toNat + 1 := by
      rw [UInt32.toNat_add]
      exact Nat.mod_eq_of_lt (by simp; omega)
    have hstep : rolledBy P (gap + 1) s = rolledBy P gap (rolled s (rollKey P s.curr)) := rfl
    have hsum : s.epoch + 1 + UInt32.ofNat gap = s.epoch + UInt32.ofNat (gap + 1) := by
      rw [UInt32.ofNat_add, UInt32.add_assoc, UInt32.add_comm (UInt32.ofNat gap)]
      rfl
    have hrest := ih (s.epoch + 1) (rolled s (rollKey P s.curr)) (by
      change (s.epoch + 1).toNat + gap < 2 ^ 32
      omega)
    by_cases hmax : s.epoch + 1 = u32Max
    · have hzero : gap = 0 := by
        have : (s.epoch + 1).toNat = 2 ^ 32 - 1 := by rw [hmax]; rfl
        omega
      subst hzero
      simp [rollLoop, rolledBy, hmax, rollKey]
    · rw [hstep]
      simp only [rollLoop, run_bind, run_rollEpochForward, hmax, if_false]
      change (rollLoop P gap (s.epoch + 1)).run (rolled s (rollKey P s.curr)) = _
      rw [hrest]
      by_cases hzero : gap = 0
      · subst hzero
        simp
      · simp only [hzero, if_false, Nat.succ_ne_zero]
        exact Prod.ext hsum rfl

theorem run_recoverAfterLoss (target : UInt32) (s : Session) :
    (recoverAfterLoss P target).run s =
      if target ≤ s.epoch then (s.epoch, s)
      else if target - s.epoch > 100000 then (u32Max, s)
      else (target, rolledBy P (target - s.epoch).toNat s) := by
  by_cases hle : target ≤ s.epoch
  · simp [recoverAfterLoss, hle]
  · by_cases hgap : target - s.epoch > 100000
    · simp [recoverAfterLoss, hle, hgap]
    · have hlt : s.epoch.toNat < target.toNat := by
        simpa [UInt32.le_iff_toNat_le] using hle
      have hsub : (target - s.epoch).toNat = target.toNat - s.epoch.toNat :=
        UInt32.toNat_sub_of_le _ _ (by
          rw [UInt32.le_iff_toNat_le]
          omega)
      have hbound := target.toNat_lt
      simp only [recoverAfterLoss, run_bind, run_readEpochId, hle, if_false, hgap]
      rw [run_rollLoop _ _ _ (by omega), if_neg (by omega), UInt32.ofNat_toNat,
        UInt32.add_comm, UInt32.sub_add_cancel]

end SecureCore.AntiDos
