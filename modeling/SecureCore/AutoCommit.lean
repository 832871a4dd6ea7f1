import SecureCore.SessionOps
import SecureCore.SymbolicPrimitives

/-! `try_decrypt_with_evolution` among other threads. The call reads the current
root, the epoch and the pending root in three sections, decrypts outside all of
them and commits in a fourth whatever is pending by then. What it promotes is
the root it decrypted under exactly when both slots were left alone meanwhile. -/

namespace SecureCore.AutoCommit

open AtomicProgram Program RootState MessageCipher Config

variable {ι : Type} [DecidableEq ι] {P : Primitives}

/-- The call promoted the pending root it had read, the wire decrypts under that
root, and the epoch it entered is the one in the message header. -/
def PromotesItsRoot (P : Primitives) (wire : Bytes) (h : Header) (pt : Bytes)
    (calls : List (Event ι Label Session)) : Prop :=
  ∃ read ∈ sectionAt .readRootStatePend calls, ∃ commit ∈ sectionAt .commitEvolution calls,
    read.before.pend = some commit.after.curr ∧
    decrypt P wire (deriveMessageKeyFromRoot P commit.after.curr h.epoch h.msgSeq) h = some pt ∧
    commit.after.epoch = h.epoch

/-- At its commit the call finds the pending root and the epoch as it read them. -/
def SlotsKept (calls : List (Event ι Label Session)) : Prop :=
  ∃ epochRead ∈ sectionAt .readEpochId calls, ∃ pendRead ∈ sectionAt .readRootStatePend calls,
    ∃ commit ∈ sectionAt .commitEvolution calls,
      commit.before.pend = pendRead.before.pend ∧ commit.before.epoch = epochRead.before.epoch

omit [DecidableEq ι] in
theorem auto_commit_path {wire : Bytes} {h : Header} {pt : Bytes}
    {events : List (Event ι Label Session)}
    (path : Path ((SessionOp.tryDecryptWithEvolution wire h).program P) events
      (.done (.opened (some (pt, true))))) :
    ∃ i₁ i₂ i₃ i₄ s₁ s₂ s₃ s₄ pend newKey,
      events = [⟨i₁, .readRootStateCurr, s₁, s₁⟩, ⟨i₂, .readEpochId, s₂, s₂⟩,
        ⟨i₃, .readRootStatePend, s₃, s₃⟩,
        ⟨i₄, .commitEvolution, s₄, promoted s₄ newKey⟩] ∧
      h.epoch = s₂.epoch + 1 ∧ s₃.pend = some pend ∧ s₄.pend = some newKey ∧
      decrypt P wire (deriveMessageKeyFromRoot P pend h.epoch h.msgSeq) h = some pt := by
  simp only [SessionOp.program, tryDecryptWithEvolution, bind_assoc] at path
  obtain ⟨i₁, s₁, rest₁, rfl, path₁⟩ := Path.of_atomic_bind path
  obtain ⟨i₂, s₂, rest₂, rfl, path₂⟩ := Path.of_atomic_bind path₁
  cases fast : decrypt P wire (deriveMessageKeyFromRoot P s₁.curr h.epoch h.msgSeq) h with
  | some pt' =>
    simp only [fast, pure_bind] at path₂
    cases (Path.of_pure path₂).2
  | none =>
    by_cases ahead : h.epoch = s₂.epoch + 1
    · simp only [fast, if_pos ahead, bind_assoc] at path₂
      obtain ⟨i₃, s₃, rest₃, rfl, path₃⟩ := Path.of_atomic_bind path₂
      cases hpend : s₃.pend with
      | none =>
        simp only [hpend, pure_bind] at path₃
        cases (Path.of_pure path₃).2
      | some pend =>
        cases slow : decrypt P wire (deriveMessageKeyFromRoot P pend h.epoch h.msgSeq) h with
        | none =>
          simp only [hpend, slow, pure_bind] at path₃
          cases (Path.of_pure path₃).2
        | some pt' =>
          simp only [hpend, slow, bind_assoc, pure_bind] at path₃
          obtain ⟨i₄, s₄, rest₄, rfl, path₄⟩ := Path.of_atomic_bind path₃
          obtain ⟨rfl, hreply⟩ := Path.of_pure path₄
          cases hnew : s₄.pend with
          | none => simp [hnew] at hreply
          | some newKey =>
            obtain ⟨rfl⟩ : pt' = pt := by simpa [hnew] using hreply
            refine ⟨i₁, i₂, i₃, i₄, s₁, s₂, s₃, s₄, pend, newKey, ?_, ahead, hpend, hnew, slow⟩
            simp [promoted]
    · simp only [fast, if_neg ahead, pure_bind] at path₂
      cases (Path.of_pure path₂).2

section Runs

variable {start₀ : Session} {ops : ι → SessionOp} {c : Config ι Label Session Reply} {i : ι}
  {wire : Bytes} {h : Header} {pt : Bytes}

/-- In every interleaving, a call that reports an auto-commit promoted the root
its wire decrypted under, into the epoch of the header, if and only if no other
thread had changed the pending root or the epoch by the time it committed. -/
theorem promotesItsRoot_iff_slotsKept
    (reach : Reachable start₀ (fun j => (ops j).program P) c)
    (hop : ops i = .tryDecryptWithEvolution wire h)
    (returned : c.threads i = .done (.opened (some (pt, true)))) :
    PromotesItsRoot P wire h pt (own i c.history) ↔ SlotsKept (own i c.history) := by
  have path := reach.path i
  rw [hop, returned] at path
  obtain ⟨i₁, i₂, i₃, i₄, s₁, s₂, s₃, s₄, pend, newKey, events, ahead, hpend, hnew, slow⟩ :=
    auto_commit_path path
  have epochs : (promoted s₄ newKey).epoch = h.epoch ↔ s₄.epoch = s₂.epoch := by
    rw [ahead]
    exact UInt32.add_left_inj 1
  have roots : s₃.pend = some newKey ↔ s₄.pend = s₃.pend := by
    rw [hpend, hnew]
    exact eq_comm
  have decrypts : s₄.pend = s₃.pend →
      decrypt P wire (deriveMessageKeyFromRoot P newKey h.epoch h.msgSeq) h = some pt := by
    intro hkept
    rw [hpend, hnew, Option.some.injEq] at hkept
    rw [hkept]
    exact slow
  have hcurr : (promoted s₄ newKey).curr = newKey := rfl
  simp only [PromotesItsRoot, SlotsKept, sectionAt, events, List.find?_cons, reduceCtorEq,
    decide_false, decide_true, Option.mem_some_iff, exists_eq_left', hcurr, roots, epochs]
  exact ⟨fun ⟨hp, _, he⟩ => ⟨hp, he⟩, fun ⟨hp, he⟩ => ⟨hp, decrypts hp, he⟩⟩

theorem slotsKept_of_quiet_window
    (reach : Reachable start₀ (fun j => (ops j).program P) c)
    (hop : ops i = .tryDecryptWithEvolution wire h)
    (returned : c.threads i = .done (.opened (some (pt, true))))
    (quiet : ∀ (xs : List (Event ι Label Session)) (epochRead : Event ι Label Session)
      (ys : List (Event ι Label Session)) (commit : Event ι Label Session)
      (zs : List (Event ι Label Session)), c.history = xs ++ epochRead :: (ys ++ commit :: zs) →
      epochRead.thread = i → epochRead.label = .readEpochId →
      commit.thread = i → commit.label = .commitEvolution →
      ∀ event ∈ ys, event.after.pend = event.before.pend ∧
        event.after.epoch = event.before.epoch) :
    SlotsKept (own i c.history) := by
  have path := reach.path i
  rw [hop, returned] at path
  obtain ⟨i₁, i₂, i₃, i₄, s₁, s₂, s₃, s₄, pend, newKey, events, -, -, -, -⟩ :=
    auto_commit_path path
  obtain ⟨xs, ws, hxs, -, hws⟩ := own_eq_cons events
  obtain ⟨ys, vs, hys, hi₂, hvs⟩ := own_eq_cons hws
  obtain ⟨zs, us, hzs, -, hus⟩ := own_eq_cons hvs
  obtain ⟨ts, rs, hts, hi₄, -⟩ := own_eq_cons hus
  have frame := quiet (xs ++ ⟨i₁, .readRootStateCurr, s₁, s₁⟩ :: ys)
    ⟨i₂, .readEpochId, s₂, s₂⟩ (zs ++ ⟨i₃, .readRootStatePend, s₃, s₃⟩ :: ts)
    ⟨i₄, .commitEvolution, s₄, promoted s₄ newKey⟩ rs (by simp [hxs, hys, hzs, hts])
    hi₂ rfl hi₄ rfl
  have chain := reach.chained
  rw [hxs, hys, hzs, hts] at chain
  obtain ⟨_, -, -, chain⟩ := chained_append.mp chain
  obtain ⟨_, -, -, chain⟩ := chained_append.mp chain
  obtain ⟨t₃, early, rfl, chain⟩ := chained_append.mp chain
  obtain ⟨t₄, late, rfl, -⟩ := chained_append.mp chain
  have hpend := late.component_eq (f := Session.pend) (fun e he => (frame e (by simp [he])).1)
  have hlate := late.component_eq (f := Session.epoch) (fun e he => (frame e (by simp [he])).2)
  have hearly := early.component_eq (f := Session.epoch) (fun e he => (frame e (by simp [he])).2)
  simp only [SlotsKept, sectionAt, events, List.find?_cons, reduceCtorEq, decide_false,
    decide_true, Option.mem_some_iff, exists_eq_left']
  exact ⟨hpend, hlate.trans hearly⟩

end Runs

/-! A receiver whose peer has committed, and a second thread that starts the
next evolution between the receiver's reading of the pending root and its commit. -/

def sharedRoot : Key := List.replicate 32 7

def racedHeader : Header := ⟨List.replicate 32 9, true, 1, 1, 1000⟩

def racedWire : Bytes :=
  (encrypt SymbolicPrimitives.symbolic [104, 105]
    (deriveMessageKeyFromRoot SymbolicPrimitives.symbolic sharedRoot 1 1) racedHeader).getD []

def receiving : Session :=
  { Session.fresh with pend := some sharedRoot, bobPublicKey := [1] }

def racingOps : Fin 2 → SessionOp
  | 0 => .tryDecryptWithEvolution racedWire racedHeader
  | 1 => .startEvolution [5]

def race (order : List (Fin 2)) : Config (Fin 2) Label Session Reply :=
  (start receiving fun i => (racingOps i).program SymbolicPrimitives.symbolic).schedule order

theorem race_reachable (order : List (Fin 2)) :
    Reachable receiving (fun i => (racingOps i).program SymbolicPrimitives.symbolic)
      (race order) :=
  reachable_schedule _ _ order

theorem promotesItsRoot_iff_slotsKept_unraced :
    PromotesItsRoot SymbolicPrimitives.symbolic racedWire racedHeader [104, 105]
      (own 0 (race [0, 0, 0, 0, 1, 1, 1, 1, 1]).history) := by
  refine (promotesItsRoot_iff_slotsKept (race_reachable _) rfl
    (result?_eq_some.mp ?_)).mpr ?_
  · decide +kernel
  · unfold SlotsKept
    decide +kernel

theorem raced_commit_promotes_foreign_root :
    ∃ c, Reachable receiving (fun i => (racingOps i).program SymbolicPrimitives.symbolic) c ∧
      c.threads 0 = .done (.opened (some ([104, 105], true))) ∧
      ¬ PromotesItsRoot SymbolicPrimitives.symbolic racedWire racedHeader [104, 105]
        (own 0 c.history) := by
  -- The call returns `(pt, true)` and the session has promoted the root of the other thread's
  -- evolution, which never decrypted anything.
  refine ⟨race [0, 0, 0, 1, 1, 1, 1, 0], race_reachable _, result?_eq_some.mp ?_, ?_⟩
  · decide +kernel
  · unfold PromotesItsRoot
    decide +kernel

end SecureCore.AutoCommit
