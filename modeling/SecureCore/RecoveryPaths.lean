import SecureCore.AntiDos
import SecureCore.SymbolicPrimitives

/-! Where recoveries lead. One recovery leaves a session at the target with its
root rolled once per epoch in between; a sequence of them leaves it where a single
one would, so peers that lost different packets meet again. -/

namespace SecureCore.AntiDos

open AtomicProgram Program RootState

variable (P : Primitives)

def rolledTo (target : UInt32) (s : Session) : Session :=
  { s with
    curr := (rollKey P)^[target.toNat - s.epoch.toNat] s.curr
    epoch := target
    msgCounter := 1 }

def recoverThrough : List UInt32 → SessionM Unit
  | [] => pure ()
  | target :: targets => do
    let _ ← recoverAfterLoss P target
    recoverThrough targets

/-- Targets that do not decrease, each within 100 000 of the one before it and the
first within 100 000 of the epoch the session is at. -/
def Paced (epoch : UInt32) (targets : List UInt32) : Prop :=
  targets.IsChain (fun t t' => t.toNat ≤ t'.toNat ∧ t'.toNat ≤ t.toNat + 100000) ∧
    ∀ t ∈ targets.head?, t.toNat ≤ epoch.toNat + 100000

variable {P}

theorem rolledBy_eq (n : Nat) (s : Session) :
    rolledBy P (n + 1) s =
      { s with
        curr := (rollKey P)^[n + 1] s.curr
        epoch := s.epoch + UInt32.ofNat (n + 1)
        msgCounter := 1 } := by
  induction n generalizing s with
  | zero => rfl
  | succ n ih =>
    have hepoch : s.epoch + 1 + UInt32.ofNat (n + 1) = s.epoch + UInt32.ofNat (n + 1 + 1) := by
      rw [UInt32.ofNat_add (n + 1), UInt32.add_assoc, UInt32.add_comm (UInt32.ofNat (n + 1))]
      rfl
    rw [rolledBy, ih]
    simp only [rolled, hepoch, Function.iterate_succ_apply]

theorem rolledBy_rolledTo {target : UInt32} {s : Session} (ahead : s.epoch < target) :
    rolledBy P (target - s.epoch).toNat s = rolledTo P target s := by
  have hlt : s.epoch.toNat < target.toNat := UInt32.lt_iff_toNat_lt.mp ahead
  have hgap : (target - s.epoch).toNat = target.toNat - s.epoch.toNat :=
    UInt32.toNat_sub_of_le _ _ (UInt32.le_of_lt ahead)
  obtain ⟨n, hn⟩ : ∃ n, target.toNat - s.epoch.toNat = n + 1 :=
    ⟨target.toNat - s.epoch.toNat - 1, by omega⟩
  have hepoch : s.epoch + UInt32.ofNat (n + 1) = target := by
    apply UInt32.toNat.inj
    have hbound := target.toNat_lt
    rw [UInt32.toNat_add, UInt32.toNat_ofNat', Nat.mod_eq_of_lt (a := n + 1) (by omega)]
    omega
  rw [hgap, hn, rolledBy_eq, hepoch, rolledTo, hn]

theorem recover_behind {target : UInt32} {s : Session} (behind : target ≤ s.epoch) :
    (recoverAfterLoss P target).run s = (s.epoch, s) := by
  rw [run_recoverAfterLoss, if_pos behind]

theorem gap_iff {target epoch : UInt32} (ahead : epoch < target) :
    target - epoch > 100000 ↔ 100000 < target.toNat - epoch.toNat := by
  rw [gt_iff_lt, UInt32.lt_iff_toNat_lt, UInt32.toNat_sub_of_le _ _ (UInt32.le_of_lt ahead)]
  rfl

theorem recover_refused {target : UInt32} {s : Session} (ahead : s.epoch < target)
    (far : 100000 < target.toNat - s.epoch.toNat) :
    (recoverAfterLoss P target).run s = (u32Max, s) := by
  rw [run_recoverAfterLoss, if_neg (UInt32.not_le.mpr ahead), if_pos ((gap_iff ahead).mpr far)]

theorem recover_reached {target : UInt32} {s : Session} (ahead : s.epoch < target)
    (near : target.toNat - s.epoch.toNat ≤ 100000) :
    (recoverAfterLoss P target).run s = (target, rolledTo P target s) := by
  rw [run_recoverAfterLoss, if_neg (UInt32.not_le.mpr ahead),
    if_neg (fun far => absurd ((gap_iff ahead).mp far) (by omega)), rolledBy_rolledTo ahead]

structure StandsAt (P : Primitives) (s : Session) (e : Nat) (s' : Session) : Prop where
  epoch : s'.epoch.toNat = e
  curr : s'.curr = (rollKey P)^[e - s.epoch.toNat] s.curr

theorem recover_standsAt (target : UInt32) (s : Session)
    (near : target.toNat ≤ s.epoch.toNat + 100000) :
    StandsAt P s (max s.epoch.toNat target.toNat) ((recoverAfterLoss P target).run s).2 := by
  by_cases behind : target ≤ s.epoch
  · have hle : target.toNat ≤ s.epoch.toNat := UInt32.le_iff_toNat_le.mp behind
    rw [recover_behind behind, Nat.max_eq_left hle]
    exact ⟨rfl, by simp⟩
  · have ahead : s.epoch < target := UInt32.not_le.mp behind
    have hlt : s.epoch.toNat < target.toNat := UInt32.lt_iff_toNat_lt.mp ahead
    rw [recover_reached ahead (by omega), Nat.max_eq_right (by omega)]
    exact ⟨rfl, rfl⟩

theorem StandsAt.trans {s s₁ s₂ : Session} {e₁ e₂ : Nat} (first : StandsAt P s e₁ s₁)
    (second : StandsAt P s₁ e₂ s₂) (start : s.epoch.toNat ≤ e₁) (up : e₁ ≤ e₂) :
    StandsAt P s e₂ s₂ := by
  refine ⟨second.epoch, ?_⟩
  rw [second.curr, first.curr, first.epoch, ← Function.iterate_add_apply]
  congr 2
  omega

theorem Paced.head_le {epoch first last : UInt32} {targets : List UInt32}
    (paced : Paced epoch (first :: targets)) (hlast : (first :: targets).getLast? = some last) :
    first.toNat ≤ last.toNat := by
  induction targets generalizing epoch first with
  | nil =>
    cases hlast
    exact le_refl _
  | cons next targets ih =>
    obtain ⟨hstep, hchain⟩ := List.isChain_cons_cons.mp paced.1
    have hrest : Paced next (next :: targets) := ⟨hchain, by simp⟩
    exact hstep.1.trans (ih hrest (by rwa [List.getLast?_cons_cons] at hlast))

theorem recoverThrough_standsAt {targets : List UInt32} {last : UInt32} (s : Session)
    (paced : Paced s.epoch targets) (hlast : targets.getLast? = some last) :
    StandsAt P s (max s.epoch.toNat last.toNat) ((recoverThrough P targets).run s).2 := by
  induction targets generalizing s with
  | nil => cases hlast
  | cons target targets ih =>
    have hnear := paced.2 target rfl
    have hfirst := recover_standsAt (P := P) target s hnear
    have hle := paced.head_le hlast
    rw [recoverThrough, run_bind]
    cases targets with
    | nil =>
      cases hlast
      exact hfirst
    | cons next targets =>
      obtain ⟨hstep, hchain⟩ := List.isChain_cons_cons.mp paced.1
      have hpaced : Paced ((recoverAfterLoss P target).run s).2.epoch (next :: targets) := by
        refine ⟨hchain, fun t ht => ?_⟩
        cases ht
        rw [hfirst.epoch]
        omega
      have hrest := ih _ hpaced (by rwa [List.getLast?_cons_cons] at hlast)
      rw [hfirst.epoch] at hrest
      have hmax : max (max s.epoch.toNat target.toNat) last.toNat =
        max s.epoch.toNat last.toNat := by omega
      rw [hmax] at hrest
      exact hfirst.trans hrest (by omega) (by omega)

/-- Recovery stays put, refuses, or rolls exactly to its target; and sessions with
the same root and epoch that recover through different targets to the same last one
have the same root and epoch again. -/
theorem recovery_exact_path_independent (P : Primitives) :
    (∀ (s : Session) (t : UInt32),
      (t ≤ s.epoch → (recoverAfterLoss P t).run s = (s.epoch, s)) ∧
      (s.epoch < t → 100000 < t.toNat - s.epoch.toNat →
        (recoverAfterLoss P t).run s = (u32Max, s)) ∧
      (s.epoch < t → t.toNat - s.epoch.toNat ≤ 100000 →
        (recoverAfterLoss P t).run s =
          (t, { s with
            curr := (rollKey P)^[t.toNat - s.epoch.toNat] s.curr
            epoch := t
            msgCounter := 1 }))) ∧
    ∀ (s s' : Session) (targets targets' : List UInt32) (t : UInt32),
      s.curr = s'.curr → s.epoch = s'.epoch →
      Paced s.epoch targets → Paced s.epoch targets' →
      targets.getLast? = some t → targets'.getLast? = some t →
      ((recoverThrough P targets).run s).2.curr = ((recoverThrough P targets').run s').2.curr ∧
      ((recoverThrough P targets).run s).2.epoch =
        ((recoverThrough P targets').run s').2.epoch := by
  constructor
  · intro s t
    exact ⟨recover_behind, recover_refused, recover_reached⟩
  · intro s s' targets targets' t hcurr hepoch paced paced' hlast hlast'
    have hstands := recoverThrough_standsAt (P := P) s paced hlast
    rw [hepoch] at paced'
    have hstands' := recoverThrough_standsAt (P := P) s' paced' hlast'
    refine ⟨?_, UInt32.toNat.inj ?_⟩
    · rw [hstands.curr, hstands'.curr, hcurr, hepoch]
    · rw [hstands.epoch, hstands'.epoch, hepoch]

theorem recovery_exact_path_independent_sample :
    ((recoverThrough SymbolicPrimitives.symbolic [2, 2, 5]).run Session.fresh).2.curr =
        ((recoverThrough SymbolicPrimitives.symbolic [5]).run Session.fresh).2.curr ∧
      ((recoverThrough SymbolicPrimitives.symbolic [2, 2, 5]).run Session.fresh).2.epoch =
        ((recoverThrough SymbolicPrimitives.symbolic [5]).run Session.fresh).2.epoch :=
  (recovery_exact_path_independent SymbolicPrimitives.symbolic).2 Session.fresh Session.fresh
    [2, 2, 5] [5] 5 rfl rfl (by simp [Paced, Session.fresh]) (by simp [Paced, Session.fresh])
    rfl rfl

end SecureCore.AntiDos
