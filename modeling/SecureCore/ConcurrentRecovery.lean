import SecureCore.AntiDos
import SecureCore.SymbolicPrimitives

/-! Recoveries that run at the same time. A call computes its gap from one read of
the epoch and then rolls that many times, each roll a section of its own; a roll
of another call in between is not deducted. Calls that read while nobody has
rolls left to make settle on the largest target. -/

namespace SecureCore.ConcurrentRecovery

open AtomicProgram Program RootState AntiDos Config

variable {ι : Type} [Fintype ι]

def nextSection {α : Type} : Program Label Session α → Option Label
  | .done _ => none
  | .step label _ _ => some label

def lastEpoch (e₀ : UInt32) (t : ι → UInt32) : Nat :=
  max e₀.toNat (Finset.univ.sup fun i => (t i).toNat)

/-- All calls have returned and agree with a single recovery to the largest target. -/
structure Settled (P : Primitives) (s : Session) (t : ι → UInt32)
    (c : Config ι Label Session UInt32) : Prop where
  epoch : c.shared.epoch.toNat = lastEpoch s.epoch t
  curr : c.shared.curr = (rollKey P)^[lastEpoch s.epoch t - s.epoch.toNat] s.curr
  replies : ∀ i value, (c.threads i).result? = some value → value.toNat ≤ lastEpoch s.epoch t

/-- If the next section of the call reads an epoch below its target, no call has a
roll left to make. -/
def ReadsAlone (t : ι → UInt32) (c : Config ι Label Session UInt32) (i : ι) : Prop :=
  nextSection (c.threads i) = some .readEpochId → c.shared.epoch < t i →
    ∀ j, nextSection (c.threads j) ≠ some .rollEpochForward

instance (t : ι → UInt32) (c : Config ι Label Session UInt32) (i : ι) :
    Decidable (ReadsAlone t c i) :=
  inferInstanceAs (Decidable (nextSection (c.threads i) = some .readEpochId →
    c.shared.epoch < t i → ∀ j, nextSection (c.threads j) ≠ some .rollEpochForward))

theorem recoverAfterLoss_eq (P : Primitives) (target : UInt32) :
    recoverAfterLoss P target = .step .readEpochId id fun s =>
      if target ≤ s.epoch then .done s.epoch
      else if target - s.epoch > 100000 then .done u32Max
      else rollLoop P (target - s.epoch).toNat s.epoch := rfl

theorem rollLoop_succ_eq (P : Primitives) (gap : Nat) (last : UInt32) :
    rollLoop P (gap + 1) last =
      .step .rollEpochForward (fun s => rolled s (rollKey P s.curr)) fun s =>
        if s.epoch + 1 = u32Max then .done u32Max else rollLoop P gap (s.epoch + 1) := rfl

/-- Where a call stands, with the epoch as it is now: it has not read yet, it still
has rolls to make and will reach its target with them, or it has returned. -/
inductive Phase (P : Primitives) (target : UInt32) (epoch : Nat) :
    Program Label Session UInt32 → Prop where
  | waiting : Phase P target epoch (recoverAfterLoss P target)
  | rolling (gap : Nat) (last : UInt32) (reaches : epoch + (gap + 1) = target.toNat) :
      Phase P target epoch (rollLoop P (gap + 1) last)
  | returned (value : UInt32) (past : target.toNat ≤ epoch) (below : value.toNat ≤ epoch) :
      Phase P target epoch (.done value)

structure Progress (P : Primitives) (s : Session) (t : ι → UInt32)
    (c : Config ι Label Session UInt32) : Prop where
  phase : ∀ i, Phase P (t i) c.shared.epoch.toNat (c.threads i)
  single : ∀ i j, nextSection (c.threads i) = some .rollEpochForward →
    nextSection (c.threads j) = some .rollEpochForward → i = j
  low : s.epoch.toNat ≤ c.shared.epoch.toNat
  high : c.shared.epoch.toNat ≤ lastEpoch s.epoch t
  curr : c.shared.curr = (rollKey P)^[c.shared.epoch.toNat - s.epoch.toNat] s.curr

section Steps

variable {P : Primitives} {s : Session} {t : ι → UInt32} {c : Config ι Label Session UInt32}
  {i : ι}

theorem target_le_lastEpoch (e₀ : UInt32) (t : ι → UInt32) (i : ι) :
    (t i).toNat ≤ lastEpoch e₀ t :=
  (Finset.le_sup (f := fun i => (t i).toNat) (Finset.mem_univ i)).trans (le_max_right _ _)

theorem lastEpoch_le {e₀ : UInt32} {t : ι → UInt32} {bound : Nat} (start : e₀.toNat ≤ bound)
    (targets : ∀ i, (t i).toNat ≤ bound) : lastEpoch e₀ t ≤ bound :=
  max_le start (Finset.sup_le fun i _ => targets i)

theorem phase_read (target epoch : UInt32) (near : target.toNat ≤ epoch.toNat + 100000) :
    Phase P target epoch.toNat
      (if target ≤ epoch then .done epoch
        else if target - epoch > 100000 then .done u32Max
        else rollLoop P (target - epoch).toNat epoch) := by
  by_cases hle : target ≤ epoch
  · rw [if_pos hle]
    exact .returned epoch (UInt32.le_iff_toNat_le.mp hle) le_rfl
  · have hlt : epoch.toNat < target.toNat := by simpa [UInt32.le_iff_toNat_le] using hle
    have hsub : (target - epoch).toNat = target.toNat - epoch.toNat :=
      UInt32.toNat_sub_of_le _ _ (UInt32.le_iff_toNat_le.mpr hlt.le)
    have hgap : ¬ target - epoch > 100000 := by
      intro hgt
      have hgt := UInt32.lt_iff_toNat_lt.mp hgt
      have hbound : (100000 : UInt32).toNat = 100000 := rfl
      omega
    obtain ⟨gap, hrest⟩ : ∃ gap, (target - epoch).toNat = gap + 1 :=
      ⟨target.toNat - epoch.toNat - 1, by omega⟩
    rw [if_neg hle, if_neg hgap, hrest]
    exact .rolling gap epoch (by omega)

theorem phase_rolled {target epoch : UInt32} {gap : Nat}
    (reaches : epoch.toNat + (gap + 1) = target.toNat) :
    (epoch + 1).toNat = epoch.toNat + 1 ∧
      Phase P target (epoch + 1).toNat
        (if epoch + 1 = u32Max then .done u32Max else rollLoop P gap (epoch + 1)) := by
  have hbound := target.toNat_lt
  have hnext : (epoch + 1).toNat = epoch.toNat + 1 := by
    rw [UInt32.toNat_add]
    exact Nat.mod_eq_of_lt (by simp; omega)
  refine ⟨hnext, ?_⟩
  by_cases hmax : epoch + 1 = u32Max
  · have hlast : (epoch + 1).toNat = 2 ^ 32 - 1 := by
      rw [hmax]
      rfl
    rw [if_pos hmax, ← hmax]
    exact .returned _ (by omega) le_rfl
  · rw [if_neg hmax]
    cases gap with
    | zero => exact .returned _ (by omega) le_rfl
    | succ gap => exact .rolling gap _ (by omega)

theorem Phase.later {target : UInt32} {epoch : Nat} {p : Program Label Session UInt32}
    (h : Phase P target epoch p) (idle : nextSection p ≠ some .rollEpochForward) :
    Phase P target (epoch + 1) p := by
  cases h with
  | waiting => exact .waiting
  | rolling gap last reaches => exact absurd rfl idle
  | returned value past below => exact .returned value (by omega) (by omega)

section

variable [DecidableEq ι]

theorem progress_read (h : Progress P s t c) (near : (t i).toNat ≤ s.epoch.toNat + 100000)
    (waiting : c.threads i = recoverAfterLoss P (t i)) (alone : ReadsAlone t c i) :
    Progress P s t (c.advance i) := by
  have hlow := h.low
  have hread := phase_read (P := P) (t i) c.shared.epoch (by omega)
  have hahead : nextSection (if t i ≤ c.shared.epoch then .done c.shared.epoch
      else if t i - c.shared.epoch > 100000 then .done u32Max
      else rollLoop P (t i - c.shared.epoch).toNat c.shared.epoch) = some .rollEpochForward →
        c.shared.epoch < t i := by
    intro hroll
    by_contra hnot
    rw [if_pos (UInt32.not_lt.mp hnot)] at hroll
    cases hroll
  have hquiet := fun hlt => alone (by rw [waiting]; rfl) hlt
  rw [advance_of_step (waiting.trans (recoverAfterLoss_eq P (t i)))]
  refine ⟨fun j => ?_, fun j k hj hk => ?_, h.low, h.high, h.curr⟩
  · by_cases hji : j = i
    · subst hji
      dsimp only
      rw [Function.update_self]
      exact hread
    · dsimp only
      rw [Function.update_of_ne hji]
      exact h.phase j
  · dsimp only at hj hk
    by_cases hji : j = i
    · by_cases hki : k = i
      · rw [hji, hki]
      · subst hji
        rw [Function.update_self] at hj
        rw [Function.update_of_ne hki] at hk
        exact absurd hk (hquiet (hahead hj) k)
    · rw [Function.update_of_ne hji] at hj
      by_cases hki : k = i
      · subst hki
        rw [Function.update_self] at hk
        exact absurd hj (hquiet (hahead hk) j)
      · rw [Function.update_of_ne hki] at hk
        exact h.single j k hj hk

theorem progress_roll (h : Progress P s t c) {gap : Nat} {last : UInt32}
    (rolling : c.threads i = rollLoop P (gap + 1) last)
    (reaches : c.shared.epoch.toNat + (gap + 1) = (t i).toNat) : Progress P s t (c.advance i) := by
  obtain ⟨hnext, hphase⟩ := phase_rolled (P := P) reaches
  have hlow := h.low
  have htarget := target_le_lastEpoch s.epoch t i
  have hother : ∀ j, j ≠ i → nextSection (c.threads j) ≠ some .rollEpochForward := by
    intro j hji hroll
    exact hji (h.single j i hroll (by rw [rolling]; rfl))
  rw [advance_of_step (rolling.trans (rollLoop_succ_eq P gap last))]
  have hepoch : (rolled c.shared (rollKey P c.shared.curr)).epoch = c.shared.epoch + 1 := rfl
  refine ⟨fun j => ?_, fun j k hj hk => ?_, ?_, ?_, ?_⟩
  · by_cases hji : j = i
    · subst hji
      dsimp only
      rw [Function.update_self, hepoch]
      exact hphase
    · dsimp only
      rw [Function.update_of_ne hji, hepoch, hnext]
      exact (h.phase j).later (hother j hji)
  · dsimp only at hj hk
    have hself : ∀ l, nextSection (Function.update c.threads i (if c.shared.epoch + 1 = u32Max then
        .done u32Max else rollLoop P gap (c.shared.epoch + 1)) l) = some .rollEpochForward →
          l = i := by
      intro l hl
      by_contra hli
      rw [Function.update_of_ne hli] at hl
      exact hother l hli hl
    rw [hself j hj, hself k hk]
  · rw [hepoch, hnext]
    omega
  · rw [hepoch, hnext]
    omega
  · have hsteps : c.shared.epoch.toNat + 1 - s.epoch.toNat =
        c.shared.epoch.toNat - s.epoch.toNat + 1 := by omega
    rw [hepoch, hnext, hsteps, Function.iterate_succ_apply', ← h.curr]
    rfl

theorem progress_advance (h : Progress P s t c) (near : (t i).toNat ≤ s.epoch.toNat + 100000)
    (alone : ReadsAlone t c i) : Progress P s t (c.advance i) := by
  generalize hthread : c.threads i = p
  have hphase := h.phase i
  rw [hthread] at hphase
  cases hphase with
  | waiting => exact progress_read h near hthread alone
  | rolling gap last reaches => exact progress_roll h hthread reaches
  | returned value past below => rwa [advance_of_done hthread]

end

theorem progress_start : Progress P s t (start s fun i => recoverAfterLoss P (t i)) := by
  refine ⟨fun i => .waiting, fun i j hi _ => ?_, le_rfl, le_max_left _ _, ?_⟩
  · cases hi
  · change s.curr = (rollKey P)^[s.epoch.toNat - s.epoch.toNat] s.curr
    rw [Nat.sub_self]
    rfl

theorem Phase.of_result {target : UInt32} {epoch : Nat} {p : Program Label Session UInt32}
    {value : UInt32} (h : Phase P target epoch p) (result : p.result? = some value) :
    target.toNat ≤ epoch ∧ value.toNat ≤ epoch := by
  cases h with
  | waiting => cases result
  | rolling gap last reaches => cases result
  | returned value past below =>
    cases result
    exact ⟨past, below⟩

theorem Progress.settled (h : Progress P s t c)
    (returned : ∀ i, (c.threads i).result?.isSome) : Settled P s t c := by
  have hepoch : c.shared.epoch.toNat = lastEpoch s.epoch t := by
    refine le_antisymm h.high (lastEpoch_le h.low fun i => ?_)
    obtain ⟨value, hvalue⟩ := Option.isSome_iff_exists.mp (returned i)
    exact ((h.phase i).of_result hvalue).1
  refine ⟨hepoch, ?_, fun i value hvalue => ?_⟩
  · rw [← hepoch]
    exact h.curr
  · rw [← hepoch]
    exact ((h.phase i).of_result hvalue).2

end Steps

/-- In every interleaving in which no call reads an epoch below its target while a
call has rolls left to make, once all calls have returned the epoch is the
largest of the starting epoch and the targets, the root is rolled exactly that
far, and no call returned more. -/
theorem recoveries_settle [DecidableEq ι] (P : Primitives) (s : Session) (t : ι → UInt32)
    (near : ∀ i, (t i).toNat ≤ s.epoch.toNat + 100000) (order : List ι)
    (alone : ∀ k (hk : k < order.length),
      ReadsAlone t ((start s fun i => recoverAfterLoss P (t i)).schedule (order.take k)) order[k])
    (returned : ∀ i, (((start s fun i => recoverAfterLoss P (t i)).schedule order).threads
      i).result?.isSome) :
    Settled P s t ((start s fun i => recoverAfterLoss P (t i)).schedule order) := by
  refine Progress.settled ?_ returned
  clear returned
  induction order using List.reverseRecOn with
  | nil => exact progress_start
  | append_singleton order i ih =>
    have hlast := alone order.length (by simp)
    rw [List.take_left' rfl, List.getElem_concat_length rfl] at hlast
    rw [schedule, List.foldl_append]
    refine progress_advance (ih fun k hk => ?_) (near i) hlast
    have hearlier := alone k (by rw [List.length_append]; omega)
    rwa [List.take_append_of_le_length hk.le, List.getElem_append_left hk] at hearlier

theorem recoveries_settle_inTurn :
    Settled SymbolicPrimitives.symbolic Session.fresh ![2, 3]
      ((start Session.fresh fun i => recoverAfterLoss SymbolicPrimitives.symbolic
        ((![2, 3] : Fin 2 → UInt32) i)).schedule [0, 0, 0, 1, 1]) :=
  recoveries_settle SymbolicPrimitives.symbolic Session.fresh ![2, 3] (by decide) [0, 0, 0, 1, 1]
    (by decide +kernel) (by decide +kernel)

theorem overlapping_recoveries_overshoot :
    let c := (start Session.fresh fun i => recoverAfterLoss SymbolicPrimitives.symbolic
      ((![1, 1] : Fin 2 → UInt32) i)).schedule [0, 1, 0, 1]
    (∀ i, (c.threads i).result?.isSome) ∧ lastEpoch Session.fresh.epoch ![1, 1] = 1 ∧
      c.shared.epoch = 2 ∧ (c.threads 1).result? = some 2 := by
  -- Two calls that both read epoch 0 go one epoch past their common target.
  decide +kernel

end SecureCore.ConcurrentRecovery
