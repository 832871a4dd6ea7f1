import SecureCore.FlowLocks

/-! Which callback a worker may call, and when. The host calls the entry points
one at a time; any number of workers may be left over from earlier starts. A stop
empties the callback slot under the mutex that a worker keeps while it is in the
callback, so after its return nothing is called until the next start.

The steps are first seen as steps between phases: what a thread still has to do
to `RUNNING`, the slot and the log. A start passes its check with an empty slot,
unless a worker that panicked has lowered `RUNNING` and not emptied the slot yet.
A worker left over from an earlier start may then call the old callback after the
new start has passed. -/

namespace SecureCore.ConstantFlow

open MutexThreads

def stopped : List Event → Bool
  | [] => false
  | .stopReturned :: _ => true
  | .startBegan :: _ => false
  | _ :: earlier => stopped earlier

def latestPassed : List Event → Option TxCallback
  | [] => none
  | .startPassed cb :: _ => some cb
  | _ :: earlier => latestPassed earlier

def EveryInvocation (φ : List Event → Emission → Prop) (log : List Event) : Prop :=
  ∀ later e earlier, log = later ++ .invoked e :: earlier → φ earlier e

theorem everyInvocation_nil (φ : List Event → Emission → Prop) : EveryInvocation φ [] := by
  intro later e earlier h
  simp at h

theorem everyInvocation_cons {φ : List Event → Emission → Prop} {event : Event}
    {log : List Event} (h : EveryInvocation φ log) (now : ∀ e, event = .invoked e → φ log e) :
    EveryInvocation φ (event :: log) := by
  intro later e earlier hlog
  cases later with
  | nil =>
    cases hlog
    exact now e rfl
  | cons first later =>
    cases hlog
    exact h later e earlier rfl

/-- The stages of a start and of a stop, of a worker in its callback and of the
handler of a worker that panicked. -/
inductive Phase where
  | idle
  | asked (cb : TxCallback) | passed (cb : TxCallback) | assigned | stored
  | stopping | clearing | cleared
  | calling
  | handling
  deriving DecidableEq, Repr

def Call.phase : Call → Phase
  | .startLoad cb => .asked cb
  | .startLock cb | .startAssign cb => .passed cb
  | .startUnlock | .startStore => .assigned
  | .startSpawn => .stored
  | .stopStore => .stopping
  | .stopLock | .stopClear => .clearing
  | .stopUnlock | .stopLockPending | .stopClearPending | .stopUnlockPending | .stopReturn =>
    .cleared
  | .queueLock _ | .queueAssign _ | .queueUnlock | .unwind => .idle

def Worker.phase : Worker → Phase
  | .inCallback _ _ => .calling
  | .caughtLock | .caughtClear => .handling
  | _ => .idle

def Point.phase : Point → Phase
  | .host (some call) => call.phase
  | .worker w => w.phase
  | _ => .idle

def Phase.starting : Phase → Bool
  | .asked _ | .passed _ | .assigned | .stored => true
  | _ => false

def Phase.switching : Phase → Bool
  | .idle | .calling | .handling => false
  | _ => true

/-- `RUNNING` may be lowered with a callback in the slot. -/
def Phase.unsettled : Phase → Bool
  | .passed _ | .assigned | .clearing | .handling => true
  | _ => false

inductive PhaseStep (s s' : Flow) : Phase → Phase → Prop where
  | rest {phase : Phase} (running : s'.running = s.running) (slot : s'.txCallback = s.txCallback)
      (log : s'.log = s.log ∨ ∃ payload, s'.log = .queued payload :: s.log) :
      PhaseStep s s' phase phase
  | ask (cb : TxCallback) (h : s' = s.record .startBegan) : PhaseStep s s' .idle (.asked cb)
  | refuse (cb : TxCallback) (h : s' = s) : PhaseStep s s' (.asked cb) .idle
  | pass (cb : TxCallback) (lowered : s.running = false) (h : s' = s.record (.startPassed cb)) :
      PhaseStep s s' (.asked cb) (.passed cb)
  | assign (cb : TxCallback) (h : s' = { s with txCallback := some cb }) :
      PhaseStep s s' (.passed cb) .assigned
  | store (h : s' = { s with running := true }) : PhaseStep s s' .assigned .stored
  | spawn (h : s' = { s with births := s.births + 1 }) : PhaseStep s s' .stored .idle
  | stop (h : s' = s) : PhaseStep s s' .idle .stopping
  | lower (h : s' = { s with running := false }) : PhaseStep s s' .stopping .clearing
  | clear (h : s' = { s with txCallback := none }) : PhaseStep s s' .clearing .cleared
  | stopReturn (h : s' = s.record .stopReturned) : PhaseStep s s' .cleared .idle
  | unwind (h : s' = s) : PhaseStep s s' .cleared .idle
  | invoke (e : Emission) (slot : s.txCallback = some e.callback) (h : s' = s.record (.invoked e)) :
      PhaseStep s s' .idle .calling
  | callbackReturn (h : s' = s) : PhaseStep s s' .calling .idle
  | catchPanic (h : s' = { s with running := false }) : PhaseStep s s' .idle .handling
  | handle (h : s' = { s with txCallback := none }) : PhaseStep s s' .handling .idle

section Phases

variable {ι : Type} {phases phases' : ι → Phase} {s s' : Flow} {i : ι}

/-- Starts and stops are made one at a time, and nothing is called after a stop. -/
structure Serialised (phases : ι → Phase) (s : Flow) : Prop where
  one : ∀ i j, (phases i).switching = true → (phases j).switching = true → i = j
  starting : stopped s.log = true → ∀ i, (phases i).starting = false
  silent : stopped s.log = true ∨ (∃ i, phases i = .cleared) →
    s.txCallback = none ∧ ∀ j, phases j ≠ .calling
  invocations : EveryInvocation (fun earlier _ => stopped earlier = false) s.log

theorem Serialised.one_step (h : Serialised phases s) (hother : ∀ j, j ≠ i → phases' j = phases j)
    (serial : (phases' i).switching = true →
      (phases i).switching = true ∨ ∀ j, (phases j).switching = false) (j k : ι)
    (hj : (phases' j).switching = true) (hk : (phases' k).switching = true) : j = k := by
  have halone (k : ι) (hki : k ≠ i) (hi : (phases' i).switching = true)
      (hk : (phases' k).switching = true) : k = i := by
    rw [hother k hki] at hk
    rcases serial hi with hbefore | hnone
    · exact h.one k i hk hbefore
    · rw [hnone k] at hk
      cases hk
  by_cases hji : j = i <;> by_cases hki : k = i
  · exact hji.trans hki.symm
  · subst hji
    exact (halone k hki hj hk).symm
  · subst hki
    exact halone j hji hk hj
  · rw [hother j hji] at hj
    rw [hother k hki] at hk
    exact h.one j k hj hk

theorem Serialised.quiet (h : Serialised phases s) (hother : ∀ j, j ≠ i → phases' j = phases j)
    (serial : (phases' i).switching = true →
      (phases i).switching = true ∨ ∀ j, (phases j).switching = false)
    (hstopped : stopped s'.log = stopped s.log)
    (hinvocations : EveryInvocation (fun earlier _ => stopped earlier = false) s'.log)
    (hslot : s'.txCallback = s.txCallback ∨ s'.txCallback = none)
    (hstarting : (phases' i).starting = true → (phases i).starting = true)
    (hcalling : phases' i = .calling → phases i = .calling)
    (hcleared : phases' i = .cleared → phases i = .cleared) : Serialised phases' s' where
  one := h.one_step hother serial
  starting hlog := by
    have hbefore := h.starting (hstopped ▸ hlog)
    refine forall_threads (fun phase => phase.starting = false) hother ?_ fun j _ => hbefore j
    by_contra hi
    have hself := hstarting (Bool.not_eq_false _ ▸ hi)
    rw [hbefore i] at hself
    cases hself
  silent hsilent := by
    have hbefore : stopped s.log = true ∨ ∃ j, phases j = .cleared := by
      refine hsilent.imp (fun hlog => hstopped ▸ hlog) ?_
      rintro ⟨j, hj⟩
      refine ⟨j, ?_⟩
      by_cases hji : j = i
      · subst hji
        exact hcleared hj
      · rwa [hother j hji] at hj
    obtain ⟨hnone, hcalls⟩ := h.silent hbefore
    exact ⟨hslot.elim (fun hsame => hsame.trans hnone) id, forall_threads (· ≠ .calling) hother
      (fun hi => hcalls i (hcalling hi)) fun j _ => hcalls j⟩
  invocations := hinvocations

theorem Serialised.ask (h : Serialised phases s) (hother : ∀ j, j ≠ i → phases' j = phases j)
    {cb : TxCallback} (hto : phases' i = .asked cb)
    (hidle : ∀ j, (phases j).switching = false) : Serialised phases' (s.record .startBegan) := by
  refine ⟨h.one_step hother fun _ => Or.inr hidle, by rintro ⟨⟩, ?_,
    everyInvocation_cons h.invocations (by rintro e ⟨⟩)⟩
  rintro (⟨⟨⟩⟩ | ⟨j, hj⟩)
  by_cases hji : j = i
  · rw [hji, hto] at hj
    cases hj
  · have hswitching := hidle j
    rw [← hother j hji, hj] at hswitching
    cases hswitching

theorem Serialised.assign (h : Serialised phases s) (hother : ∀ j, j ≠ i → phases' j = phases j)
    {cb : TxCallback} (hfrom : phases i = .passed cb) (hto : phases' i = .assigned) :
    Serialised phases' { s with txCallback := some cb } := by
  have hone := h.one_step hother fun _ => Or.inl (by rw [hfrom]; rfl)
  have hstarting : stopped s.log ≠ true := fun hlog => by
    have hself := h.starting hlog i
    rw [hfrom] at hself
    cases hself
  refine ⟨hone, fun hlog => absurd hlog hstarting, ?_, h.invocations⟩
  rintro (hlog | ⟨j, hj⟩)
  · exact absurd hlog hstarting
  · have hji : j = i := hone j i (by rw [hj]; rfl) (by rw [hto]; rfl)
    rw [hji, hto] at hj
    cases hj

theorem Serialised.clear (h : Serialised phases s) (hother : ∀ j, j ≠ i → phases' j = phases j)
    (hfrom : phases i = .clearing) (hto : phases' i = .cleared)
    (exclusive : ∀ j, phases j ≠ .calling) : Serialised phases' { s with txCallback := none } := by
  refine ⟨h.one_step hother fun _ => Or.inl (by rw [hfrom]; rfl), fun hlog => ?_,
    fun _ => ⟨rfl, ?_⟩, h.invocations⟩
  · exact forall_threads (fun phase => phase.starting = false) hother (by rw [hto]; rfl)
      fun j _ => h.starting hlog j
  · exact forall_threads (· ≠ .calling) hother (by rw [hto]; simp) fun j _ => exclusive j

theorem Phase.switching_of_starting {phase : Phase} (h : phase.starting = true) :
    phase.switching = true := by
  cases phase <;> first | rfl | cases h

theorem Serialised.stopReturn (h : Serialised phases s)
    (hother : ∀ j, j ≠ i → phases' j = phases j) (hfrom : phases i = .cleared)
    (hto : phases' i = .idle) : Serialised phases' (s.record .stopReturned) := by
  obtain ⟨hnone, hcalls⟩ := h.silent (Or.inr ⟨i, hfrom⟩)
  refine ⟨h.one_step hother fun hself => ?_, fun _ => ?_, fun _ => ⟨hnone, ?_⟩,
    everyInvocation_cons h.invocations (by rintro e ⟨⟩)⟩
  · rw [hto] at hself
    cases hself
  · refine forall_threads (fun phase => phase.starting = false) hother (by rw [hto]; rfl)
      fun j hji => ?_
    by_contra hj
    have hswitching := Phase.switching_of_starting (Bool.not_eq_false _ ▸ hj)
    exact hji (h.one j i hswitching (by rw [hfrom]; rfl))
  · exact forall_threads (· ≠ .calling) hother (by rw [hto]; simp) fun j _ => hcalls j

theorem Serialised.invoke (h : Serialised phases s) (hother : ∀ j, j ≠ i → phases' j = phases j)
    {e : Emission} (hto : phases' i = .calling) (slot : s.txCallback = some e.callback) :
    Serialised phases' (s.record (.invoked e)) := by
  have hloud : ¬ (stopped s.log = true ∨ ∃ j, phases j = .cleared) := fun hsilent => by
    rw [(h.silent hsilent).1] at slot
    cases slot
  have hlog : stopped s.log = false := Bool.eq_false_iff.mpr fun hlog => hloud (Or.inl hlog)
  refine ⟨h.one_step hother fun hself => ?_, fun hlog' => absurd (Or.inl hlog') hloud, ?_,
    everyInvocation_cons h.invocations fun _ _ => hlog⟩
  · rw [hto] at hself
    cases hself
  · rintro (hlog' | ⟨j, hj⟩)
    · exact absurd (Or.inl hlog') hloud
    · by_cases hji : j = i
      · rw [hji, hto] at hj
        cases hj
      · exact absurd (Or.inr ⟨j, hother j hji ▸ hj⟩) hloud

theorem Serialised.step (h : Serialised phases s) (hother : ∀ j, j ≠ i → phases' j = phases j)
    (serial : (phases' i).switching = true →
      (phases i).switching = true ∨ ∀ j, (phases j).switching = false)
    (exclusive : phases i = .clearing → phases' i = .cleared → ∀ j, phases j ≠ .calling)
    (step : PhaseStep s s' (phases i) (phases' i)) : Serialised phases' s' := by
  generalize hfrom : phases i = before at step
  generalize hto : phases' i = after at step
  cases step with
  | rest running slot log =>
    refine h.quiet hother serial ?_ ?_ (Or.inl slot) ?_ ?_ ?_
    · rcases log with hlog | ⟨payload, hlog⟩ <;> rw [hlog]
      rfl
    · rcases log with hlog | ⟨payload, hlog⟩ <;> rw [hlog]
      · exact h.invocations
      · exact everyInvocation_cons h.invocations (by rintro e ⟨⟩)
    all_goals
      rw [hto, hfrom]
      exact id
  | ask cb hs =>
    subst hs
    refine h.ask hother hto ((serial (by rw [hto]; rfl)).resolve_left ?_)
    rw [hfrom]
    decide
  | pass cb lowered hs =>
    subst hs
    refine h.quiet hother serial rfl (everyInvocation_cons h.invocations (by rintro e ⟨⟩))
      (Or.inl rfl) ?_ ?_ ?_ <;> simp [hto, hfrom, Phase.starting]
  | assign cb hs => exact hs ▸ h.assign hother hfrom hto
  | clear hs => exact hs ▸ h.clear hother hfrom hto (exclusive hfrom hto)
  | stopReturn hs => exact hs ▸ h.stopReturn hother hfrom hto
  | invoke e slot hs => exact hs ▸ h.invoke hother hto slot
  | refuse cb hs | store hs | spawn hs | stop hs | lower hs | unwind hs | callbackReturn hs
  | catchPanic hs =>
    subst hs
    refine h.quiet hother serial rfl h.invocations (Or.inl rfl) ?_ ?_ ?_ <;>
      simp [hto, hfrom, Phase.starting]
  | handle hs =>
    subst hs
    refine h.quiet hother serial rfl h.invocations (Or.inr rfl) ?_ ?_ ?_ <;>
      simp [hto, hfrom, Phase.starting]

/-- The callback in the slot is that of the latest start that passed. While
`RUNNING` is lowered the slot is empty, or somebody is about to settle it. -/
structure Current (phases : ι → Phase) (s : Flow) : Prop where
  lowered : s.running = false → s.txCallback = none ∨ ∃ i, (phases i).unsettled = true
  passed : ∀ i cb, phases i = .passed cb → s.txCallback = none ∧ latestPassed s.log = some cb
  slot : ∀ cb, s.txCallback = some cb → latestPassed s.log = some cb
  invocations :
    EveryInvocation (fun earlier e => latestPassed earlier = some e.callback) s.log

theorem Current.quiet (h : Current phases s) (hother : ∀ j, j ≠ i → phases' j = phases j)
    (hslot : s'.txCallback = s.txCallback ∨ s'.txCallback = none)
    (hpassed : latestPassed s'.log = latestPassed s.log)
    (hinvocations :
      EveryInvocation (fun earlier e => latestPassed earlier = some e.callback) s'.log)
    (hlowered : s'.running = false → s'.txCallback = none ∨ (phases' i).unsettled = true ∨
      s.running = false ∧ (phases i).unsettled = false)
    (hself : ∀ cb, phases' i = .passed cb → phases i = .passed cb) : Current phases' s' where
  lowered hrunning := by
    have hempty : s.txCallback = none → s'.txCallback = none := fun hnone =>
      hslot.elim (fun hsame => hsame.trans hnone) id
    rcases hlowered hrunning with hnone | hi | ⟨hbefore, hi⟩
    · exact Or.inl hnone
    · exact Or.inr ⟨i, hi⟩
    · rcases h.lowered hbefore with hnone | ⟨j, hj⟩
      · exact Or.inl (hempty hnone)
      · have hji : j ≠ i := by
          rintro rfl
          rw [hi] at hj
          cases hj
        exact Or.inr ⟨j, by rw [hother j hji]; exact hj⟩
  passed j cb hj := by
    have hbefore : phases j = .passed cb := by
      by_cases hji : j = i
      · subst hji
        exact hself cb hj
      · rwa [hother j hji] at hj
    obtain ⟨hnone, hlatest⟩ := h.passed j cb hbefore
    exact ⟨hslot.elim (fun hsame => hsame.trans hnone) id, hpassed.trans hlatest⟩
  slot cb hcb := by
    rcases hslot with hsame | hnone
    · exact hpassed.trans (h.slot cb (hsame ▸ hcb))
    · rw [hnone] at hcb
      cases hcb
  invocations := hinvocations

theorem Current.pass (h : Current phases s) (one : Serialised phases s)
    (hother : ∀ j, j ≠ i → phases' j = phases j) {cb : TxCallback} (hfrom : phases i = .asked cb)
    (hto : phases' i = .passed cb) (lowered : s.running = false)
    (settled : ∀ j, phases j ≠ .handling) : Current phases' (s.record (.startPassed cb)) := by
  have honly (j : ι) (hj : (phases j).switching = true) : j = i :=
    one.one j i hj (by rw [hfrom]; rfl)
  have hnone : s.txCallback = none := by
    refine (h.lowered lowered).resolve_right ?_
    rintro ⟨j, hj⟩
    have hswitching : (phases j).switching = true := by
      cases hphase : phases j with
      | handling => exact absurd hphase (settled j)
      | _ => rw [hphase] at hj; first | rfl | cases hj
    rw [honly j hswitching, hfrom] at hj
    cases hj
  refine ⟨fun _ => Or.inl hnone, fun j cb' hj => ⟨hnone, ?_⟩, fun cb' hcb => ?_,
    everyInvocation_cons h.invocations (by rintro e ⟨⟩)⟩
  · by_cases hji : j = i
    · rw [hji, hto] at hj
      cases hj
      rfl
    · rw [hother j hji] at hj
      exact absurd (honly j (by rw [hj]; rfl)) hji
  · have hcb' : s.txCallback = some cb' := hcb
    rw [hnone] at hcb'
    cases hcb'

theorem Current.assign (h : Current phases s) (one : Serialised phases s)
    (hother : ∀ j, j ≠ i → phases' j = phases j) {cb : TxCallback}
    (hfrom : phases i = .passed cb) (hto : phases' i = .assigned) :
    Current phases' { s with txCallback := some cb } := by
  have hlatest := (h.passed i cb hfrom).2
  refine ⟨fun _ => Or.inr ⟨i, by rw [hto]; rfl⟩, fun j cb' hj => ?_, ?_, h.invocations⟩
  · by_cases hji : j = i
    · rw [hji, hto] at hj
      cases hj
    · rw [hother j hji] at hj
      exact absurd (one.one j i (by rw [hj]; rfl) (by rw [hfrom]; rfl)) hji
  · rintro cb' ⟨⟩
    exact hlatest

theorem Current.step (h : Current phases s) (one : Serialised phases s)
    (hother : ∀ j, j ≠ i → phases' j = phases j)
    (settled : ∀ cb, phases i = .asked cb → phases' i = .passed cb → ∀ j, phases j ≠ .handling)
    (step : PhaseStep s s' (phases i) (phases' i)) : Current phases' s' := by
  generalize hfrom : phases i = before at step
  generalize hto : phases' i = after at step
  cases step with
  | rest running slot log =>
    refine h.quiet hother (Or.inl slot) ?_ ?_ (fun hrunning => ?_) ?_
    · rcases log with hlog | ⟨payload, hlog⟩ <;> rw [hlog]
      rfl
    · rcases log with hlog | ⟨payload, hlog⟩ <;> rw [hlog]
      · exact h.invocations
      · exact everyInvocation_cons h.invocations (by rintro e ⟨⟩)
    · by_cases hi : (phases i).unsettled = true
      · exact Or.inr (Or.inl (by rw [hto, ← hfrom]; exact hi))
      · exact Or.inr (Or.inr ⟨running ▸ hrunning, Bool.eq_false_iff.mpr hi⟩)
    · intro cb hcb
      rw [hfrom, ← hto, hcb]
  | pass cb lowered hs => exact hs ▸ h.pass one hother hfrom hto lowered (settled cb hfrom hto)
  | assign cb hs => exact hs ▸ h.assign one hother hfrom hto
  | invoke e slot hs =>
    subst hs
    refine h.quiet hother (Or.inl rfl) rfl
      (everyInvocation_cons h.invocations fun e' he' => ?_) (fun hrunning => ?_) ?_
    · cases he'
      exact h.slot e.callback slot
    · exact Or.inr (Or.inr ⟨hrunning, by rw [hfrom]; rfl⟩)
    · simp [hto]
  | ask cb hs | stopReturn hs =>
    subst hs
    refine h.quiet hother (Or.inl rfl) rfl
      (everyInvocation_cons h.invocations (by rintro e ⟨⟩)) (fun hrunning => ?_) ?_
    · exact Or.inr (Or.inr ⟨hrunning, by rw [hfrom]; rfl⟩)
    · simp [hto]
  | refuse cb hs | spawn hs | stop hs | unwind hs | callbackReturn hs =>
    subst hs
    refine h.quiet hother (Or.inl rfl) rfl h.invocations (fun hrunning => ?_) (by simp [hto])
    exact Or.inr (Or.inr ⟨hrunning, by rw [hfrom]; rfl⟩)
  | store hs =>
    subst hs
    exact h.quiet hother (Or.inl rfl) rfl h.invocations (by rintro ⟨⟩) (by simp [hto])
  | lower hs | catchPanic hs =>
    subst hs
    refine h.quiet hother (Or.inl rfl) rfl h.invocations (fun _ => ?_) (by simp [hto])
    exact Or.inr (Or.inl (by rw [hto]; rfl))
  | clear hs | handle hs =>
    subst hs
    exact h.quiet hother (Or.inr rfl) rfl h.invocations (fun _ => Or.inl rfl)
      (by simp [hto])

end Phases

def Request.switches : Request → Bool
  | .queue _ => false
  | _ => true

def hostSwitches (point : Point) (choice : Choice) : Bool :=
  match point with
  | .host none => choice.request.any Request.switches
  | _ => false

def callbackSwitches (point : Point) (choice : Choice) : Bool :=
  match point with
  | .worker (.inCallback _ none) => choice.request.any Request.switches
  | _ => false

/-- Starts and stops are called by the host, one at a time. -/
def Serial {ι : Type} (c : FlowSystem ι) (i : ι) (choice : Choice) : Prop :=
  callbackSwitches (c.threads i) choice = false ∧
    (hostSwitches (c.threads i) choice = true → ∀ j, (c.threads j).phase.switching = false)

def Point.asks : Point → Bool
  | .host (some (.startLoad _)) => true
  | _ => false

/-- No worker that panicked is between lowering `RUNNING` and emptying the slot
when a start passes its check. -/
def Settled {ι : Type} (c : FlowSystem ι) (i : ι) (_ : Choice) : Prop :=
  (c.threads i).asks = true → c.shared.running = false →
    ∀ j, (c.threads j).phase ≠ .handling

instance {ι : Type} [Fintype ι] (c : FlowSystem ι) (i : ι) (choice : Choice) :
    Decidable (Serial c i choice) :=
  inferInstanceAs (Decidable (_ ∧ (_ → _)))

instance {ι : Type} [Fintype ι] (c : FlowSystem ι) (i : ι) (choice : Choice) :
    Decidable (Settled c i choice) :=
  inferInstanceAs (Decidable (_ → _ → _))

theorem Call.Step.phase {call : Call} {s s' : Flow} {next : Option Call}
    (step : Call.Step s call next s') : PhaseStep s s' call.phase (Point.host next).phase := by
  cases step with
  | refuse cb running => exact .refuse cb rfl
  | pass cb lowered => exact .pass cb lowered rfl
  | assign cb => exact .assign cb rfl
  | store => exact .store rfl
  | spawn => exact .spawn rfl
  | lower => exact .lower rfl
  | clear => exact .clear rfl
  | stopPanic poisoned => exact .unwind rfl
  | stopReturn => exact .stopReturn rfl
  | queue payload clean => exact .rest rfl rfl (Or.inr ⟨payload, rfl⟩)
  | _ => exact .rest rfl rfl (Or.inl rfl)

theorem Call.Step.idle {call : Call} {s s' : Flow} {next : Option Call}
    (step : Call.Step s call next s') (idle : call.phase = .idle) :
    (Point.host next).phase = .idle ∧ s'.running = s.running ∧ s'.txCallback = s.txCallback ∧
      (s'.log = s.log ∨ ∃ payload, s'.log = .queued payload :: s.log) := by
  cases step with
  | queue payload clean => exact ⟨rfl, rfl, rfl, Or.inr ⟨payload, rfl⟩⟩
  | queueLock | queuePanic | queueUnlock | unwind => exact ⟨rfl, rfl, rfl, Or.inl rfl⟩
  | _ => cases idle

def Point.modest : Point → Bool
  | .worker (.inCallback _ inner) => decide ((Point.host inner).phase = .idle)
  | _ => true

theorem Worker.Step.phase {w next : Worker} {choice : Choice} {s s' : Flow}
    (step : Worker.Step choice s w next s') (modest : (Point.worker w).modest = true)
    (serial : callbackSwitches (.worker w) choice = false) :
    PhaseStep s s' w.phase next.phase ∧ (Point.worker next).modest = true := by
  cases step with
  | invoke packet cb slot => exact ⟨.invoke ⟨cb, packet, s.now⟩ slot rfl, rfl⟩
  | callbackReturn cb silent => exact ⟨.callbackReturn rfl, rfl⟩
  | request cb request asked =>
    cases request with
    | queue payload => exact ⟨.rest rfl rfl (Or.inl rfl), rfl⟩
    | _ => simp [callbackSwitches, asked, Request.switches] at serial
  | inner cb step =>
    obtain ⟨hidle, hrunning, hslot, hlog⟩ := step.idle (of_decide_eq_true modest)
    exact ⟨.rest hrunning hslot hlog, decide_eq_true hidle⟩
  | caught => exact ⟨.catchPanic rfl, rfl⟩
  | caughtClear => exact ⟨.handle rfl, rfl⟩
  | _ => exact ⟨.rest rfl rfl (Or.inl rfl), rfl⟩

theorem Point.Step.phase {point next : Point} {choice : Choice} {s s' : Flow}
    (step : Point.Step choice s point next s') (modest : point.modest = true)
    (serial : callbackSwitches point choice = false) :
    PhaseStep s s' point.phase next.phase ∧ next.modest = true := by
  cases step with
  | request request asked =>
    cases request with
    | start cb => exact ⟨.ask cb rfl, rfl⟩
    | stop => exact ⟨.stop rfl, rfl⟩
    | queue payload => exact ⟨.rest rfl rfl (Or.inl rfl), rfl⟩
  | call step => exact ⟨step.phase, rfl⟩
  | worker step => exact step.phase modest serial
  | born ticket => exact ⟨.rest rfl rfl (Or.inl rfl), rfl⟩
  | tick => exact ⟨.rest rfl rfl (Or.inl rfl), rfl⟩

theorem Point.Step.switching {point next : Point} {choice : Choice} {s s' : Flow}
    (step : Point.Step choice s point next s') (h : next.phase.switching = true) :
    point.phase.switching = true ∨ hostSwitches point choice = true := by
  cases step with
  | request request asked =>
    right
    cases request with
    | queue payload => cases h
    | _ => simp [hostSwitches, asked, Request.switches]
  | call step =>
    left
    cases step <;> first | rfl | cases h
  | @worker w next s' step => cases next <;> cases h
  | born ticket => cases h
  | tick => cases h

theorem Point.Step.clears {point next : Point} {choice : Choice} {s s' : Flow}
    (step : Point.Step choice s point next s') (hfrom : point.phase = .clearing)
    (hto : next.phase = .cleared) : FlowLock.txCallback ∈ point.held := by
  cases step with
  | call step =>
    cases step with
    | clear => exact Finset.mem_singleton_self _
    | stopLock => cases hto
    | _ => cases hfrom
  | @worker w next s' step => cases w <;> cases hfrom
  | _ => cases hfrom

theorem Point.held_of_calling {point : Point} (h : point.phase = .calling) :
    FlowLock.txCallback ∈ point.held := by
  cases point with
  | host call =>
    cases call with
    | none => cases h
    | some call => cases call <;> cases h
  | worker w =>
    cases w <;> cases h
    exact Finset.mem_insert_self _ _
  | unborn => cases h
  | clock => cases h

theorem Point.Step.asks {point next : Point} {choice : Choice} {s s' : Flow} {cb : TxCallback}
    (step : Point.Step choice s point next s') (hfrom : point.phase = .asked cb)
    (hto : next.phase = .passed cb) : point.asks = true ∧ s.running = false := by
  cases step with
  | call step =>
    cases step with
    | pass cb lowered => exact ⟨rfl, lowered⟩
    | refuse => cases hto
    | _ => cases hfrom
  | @worker w next s' step => cases w <;> cases hfrom
  | _ => cases hfrom

section Runs

variable {ι : Type} {c c' : FlowSystem ι}

def phasesOf (c : FlowSystem ι) (i : ι) : Phase := (c.threads i).phase

structure SerialRun (c : FlowSystem ι) : Prop where
  modest : ∀ i, (c.threads i).modest = true
  serialised : Serialised (phasesOf c) c.shared

theorem boot_phases (roles : ι → Role) (i : ι) : phasesOf (boot roles) i = .idle := by
  change (roles i).point.phase = .idle
  cases roles i <;> rfl

theorem boot_serialRun (roles : ι → Role) : SerialRun (boot roles) := by
  refine ⟨fun i => ?_, fun i j hi => ?_, by rintro ⟨⟩, fun _ => ⟨rfl, fun j => ?_⟩,
    everyInvocation_nil _⟩
  · change (roles i).point.modest = true
    cases roles i <;> rfl
  · rw [boot_phases] at hi
    cases hi
  · rw [boot_phases]
    simp

variable [DecidableEq ι]

theorem SerialRun.step (h : SerialRun c)
    (owner : ∀ lock i, c.owner lock = some i ↔ lock ∈ (c.threads i).held) {i : ι}
    {choice : Choice} (serial : Serial c i choice)
    (fires : fire Point.instr c i choice = some c') : SerialRun c' := by
  -- Two threads do not hold the slot at once, so no stop empties it under a callback.
  obtain ⟨step, hother⟩ := flow_step fires
  obtain ⟨hphase, hmodest⟩ := step.phase (h.modest i) serial.1
  refine ⟨?_, h.serialised.step (i := i) (fun j hj => ?_) (fun hself => ?_)
    (fun hfrom hto j hj => ?_) hphase⟩
  · exact forall_threads (fun point => point.modest = true) hother hmodest fun j _ => h.modest j
  · rw [phasesOf, hother j hj, phasesOf]
  · exact (step.switching hself).imp id serial.2
  · have hstop := (owner .txCallback i).mpr (step.clears hfrom hto)
    have hcall := (owner .txCallback j).mpr (Point.held_of_calling hj)
    have hij : i = j := Option.some.inj (hstop.symm.trans hcall)
    rw [← hij, hfrom] at hj
    cases hj

theorem reenters_of_modest {point : Point} {s : Flow} {choice : Choice}
    (modest : point.modest = true) (serial : callbackSwitches point choice = false) :
    reenters point s choice = true := by
  cases point with
  | worker w =>
    cases w with
    | inCallback cb inner =>
      cases inner with
      | none =>
        simp only [reenters, bne_iff_ne]
        intro hstop
        simp [callbackSwitches, hstop, Request.switches] at serial
      | some call => cases call <;> first | rfl | cases modest
    | _ => rfl
  | _ => rfl

theorem serialRun_of_run {roles : ι → Role} (run : Run Point.instr Serial (boot roles) c) :
    SerialRun c := by
  -- the callbacks do not take the slot, so the owners are known along the run
  have both : SerialRun c ∧ Run Point.instr Reenters (boot roles) c := by
    induction run with
    | start => exact ⟨boot_serialRun roles, .start⟩
    | step _ i choice meets fires ih =>
      obtain ⟨h, reentrant⟩ := ih
      exact ⟨h.step (owner_iff reentrant) meets fires,
        reentrant.step i choice (reenters_of_modest (h.modest i) meets.1) fires⟩
  exact both.1

theorem current_of_run {roles : ι → Role}
    (run : Run Point.instr (fun c i choice => Serial c i choice ∧ Settled c i choice)
      (boot roles) c) : Current (phasesOf c) c.shared := by
  induction run with
  | start =>
    refine ⟨fun _ => Or.inl rfl, fun i cb hi => ?_, by rintro cb ⟨⟩, everyInvocation_nil _⟩
    rw [boot_phases] at hi
    cases hi
  | step run i choice meets fires h =>
    have hserial := serialRun_of_run (run.mono fun _ _ _ _ meets => meets.1)
    obtain ⟨step, hother⟩ := flow_step fires
    obtain ⟨hphase, -⟩ := step.phase (hserial.modest i) meets.1.1
    refine h.step hserial.serialised (i := i) (fun j hj => ?_) (fun cb hfrom hto j hj => ?_) hphase
    · rw [phasesOf, hother j hj, phasesOf]
    · obtain ⟨hasks, hrunning⟩ := step.asks hfrom hto
      exact meets.2 hasks hrunning j hj

/-- With starts and stops called by the host one at a time: from the return of a
stop to the next start nobody is in a callback, and none is invoked; and, where no
start passes its check between the two stores of a panicked worker's handler, every
callback invoked is the one of the latest start that passed. -/
theorem no_callback_after_stop (roles : ι → Role) {c : FlowSystem ι} :
    (Run Point.instr Serial (boot roles) c →
      (stopped c.shared.log = true → ∀ i, (c.threads i).phase ≠ .calling) ∧
        EveryInvocation (fun earlier _ => stopped earlier = false) c.shared.log) ∧
    (Run Point.instr (fun c i choice => Serial c i choice ∧ Settled c i choice) (boot roles) c →
      EveryInvocation (fun earlier e => latestPassed earlier = some e.callback) c.shared.log) := by
  refine ⟨fun run => ?_, fun run => (current_of_run run).invocations⟩
  have hserial := (serialRun_of_run run).serialised
  exact ⟨fun hstopped => (hserial.silent (Or.inl hstopped)).2, hserial.invocations⟩

theorem no_callback_after_stop_restarted :
    ∃ c, Run Point.instr (fun c i choice => Serial c i choice ∧ Settled c i choice)
        (boot twoWorkers) c ∧ c.shared.emissions.map Emission.callback = [8, 7] ∧
      stopped c.shared.log = true ∧ (∀ i, (c.threads i).phase ≠ .calling) ∧
      EveryInvocation (fun earlier _ => stopped earlier = false) c.shared.log ∧
      EveryInvocation (fun earlier e => latestPassed earlier = some e.callback) c.shared.log := by
  -- Two flows, one after the other, each stopped after its packet.
  obtain ⟨c, run, hcallbacks, hstopped⟩ : ∃ c, Run Point.instr
      (fun c i choice => Serial c i choice ∧ Settled c i choice) (boot twoWorkers) c ∧
      c.shared.emissions.map Emission.callback = [8, 7] ∧ stopped c.shared.log = true :=
    exists_run (starting 0 7 ++ turns 1 1 ++ emitting 1 3 ++ turns 1 2 ++ stopping 0 ++
      starting 0 8 ++ turns 2 1 ++ emitting 2 3 ++ turns 2 2 ++ stopping 0) (by decide +kernel)
  obtain ⟨hsilent, hloud⟩ :=
    (no_callback_after_stop twoWorkers).1 (run.mono fun _ _ _ _ meets => meets.1)
  exact ⟨c, run, hcallbacks, hstopped, hsilent hstopped, hloud,
    (no_callback_after_stop twoWorkers).2 run⟩

theorem stale_callback_invoked :
    ∃ c e earlier, Run Point.instr Serial (boot twoWorkers) c ∧
      c.shared.log = .invoked e :: earlier ∧ e.callback = 7 ∧ latestPassed earlier = some 8 := by
  -- Two workers are left from a stop and a start within one sleep. The second panics while
  -- the first holds a packet; the host starts the flow with callback 8 before the handler has
  -- emptied the slot, and the first worker calls callback 7.
  obtain ⟨c, run, hhead, hlatest⟩ : ∃ c, Run Point.instr Serial (boot twoWorkers) c ∧
      (c.shared.log.head?.bind Event.emission?).map Emission.callback = some 7 ∧
      latestPassed c.shared.log.tail = some 8 :=
    exists_run (starting 0 7 ++ turns 1 3 ++ stopping 0 ++ starting 0 7 ++ turns 2 3 ++
      turns 3 5 ++ turns 1 3 ++ [(1, drawing)] ++ turns 1 1 ++ turns 2 6 ++
      [(0, calling (.start 8))] ++ turns 0 1 ++ turns 1 2) (by decide +kernel)
  cases hlog : c.shared.log with
  | nil =>
    rw [hlog] at hhead
    cases hhead
  | cons event earlier =>
    rw [hlog] at hhead hlatest
    cases event with
    | invoked e => exact ⟨c, e, earlier, run, hlog, Option.some.inj hhead, hlatest⟩
    | _ => cases hhead

end Runs

end SecureCore.ConstantFlow
