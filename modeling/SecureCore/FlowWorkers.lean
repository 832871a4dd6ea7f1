import SecureCore.ConstantFlow

/-! How many workers are in their loop, and how far apart their packets are.
`RUNNING` says both that a worker exists and that it should go on, and a worker
looks at it only around its sleep. A start that stores the flag while an earlier
worker is still in its loop, or while another start is about to spawn one, makes
two of them. When no start does, there is one worker at most and it sleeps the
whole interval before each packet. -/

namespace SecureCore.ConstantFlow

open MutexThreads

def Worker.inLoop : Worker → Bool
  | .unwind | .caught | .caughtLock | .caughtClear | .caughtUnlock | .finished => false
  | _ => true

def Point.inLoop : Point → Bool
  | .worker w => w.inLoop
  | _ => false

def Point.live : Point → Bool
  | .worker w => w.inLoop
  | .host (some .startSpawn) => true
  | _ => false

def Point.storing : Point → Bool
  | .host (some .startStore) => true
  | .worker (.inCallback _ (some .startStore)) => true
  | _ => false

/-- A start stores `RUNNING` only when no worker is in its loop or about to be. -/
def Sole {ι : Type} (c : FlowSystem ι) (i : ι) (_ : Choice) : Prop :=
  (c.threads i).storing = true → (∀ j, (c.threads j).live = false) ∧ c.shared.births = 0

instance {ι : Type} [Fintype ι] (c : FlowSystem ι) (i : ι) (choice : Choice) :
    Decidable (Sole c i choice) :=
  inferInstanceAs (Decidable (_ → _ ∧ _))

def Flow.Spaced (s : Flow) : Prop :=
  s.emissions.Pairwise fun later earlier => earlier.time + intervalSecs ≤ later.time

def Flow.due (s : Flow) : Nat := s.emissions.head?.elim 0 fun last => last.time + intervalSecs

def Worker.slept (now : Nat) : Worker → Option Nat
  | .asleep wake => some wake
  | .recheck | .lockPending | .take | .unlockPending _ | .lockSlot _ | .look _ => some now
  | _ => none

def Point.slept (now : Nat) : Point → Option Nat
  | .worker w => w.slept now
  | _ => none

theorem Call.Step.births {call : Call} {s s' : Flow} {next : Option Call}
    (step : Call.Step s call next s') :
    (s'.births = s.births ∧ (next = some .startSpawn → call = .startStore)) ∨
      call = .startSpawn ∧ next = none ∧ s'.births = s.births + 1 := by
  cases step with
  | spawn => exact Or.inr ⟨rfl, rfl, rfl⟩
  | store => exact Or.inl ⟨rfl, fun _ => rfl⟩
  | _ => exact Or.inl ⟨rfl, by rintro ⟨⟩⟩

theorem Worker.Step.births {w next : Worker} {choice : Choice} {s s' : Flow}
    (step : Worker.Step choice s w next s') :
    (next.inLoop = true → w.inLoop = true) ∧
      (s'.births = s.births ∨ ∃ cb, w = .inCallback cb (some .startSpawn)) ∧
      ∀ cb, next = .inCallback cb (some .startSpawn) → w = .inCallback cb (some .startStore) := by
  cases step with
  | request cb request asked =>
    cases request <;> exact ⟨fun _ => rfl, Or.inl rfl, by rintro cb ⟨⟩⟩
  | inner cb step =>
    rcases step.births with ⟨hbirths, hspawn⟩ | ⟨rfl, rfl, -⟩
    · refine ⟨fun _ => rfl, Or.inl hbirths, ?_⟩
      rintro cb' ⟨⟩
      rw [hspawn rfl]
    · exact ⟨fun _ => rfl, Or.inr ⟨cb, rfl⟩, by rintro cb' ⟨⟩⟩
  | unwind | caught | caughtLock | caughtClear | caughtUnlock =>
    exact ⟨by rintro ⟨⟩, Or.inl rfl, by rintro cb ⟨⟩⟩
  | _ => exact ⟨fun _ => rfl, Or.inl rfl, by rintro cb ⟨⟩⟩

theorem Point.Step.live {point next : Point} {choice : Choice} {s s' : Flow}
    (step : Point.Step choice s point next s') :
    (s'.births = s.births ∧ (next.live = true → point.live = true ∨ point.storing = true)) ∨
      (point = .host (some .startSpawn) ∧ next = .host none ∧ s'.births = s.births + 1) ∨
      (point = .unborn ∧ s.births = s'.births + 1) ∨
      ∃ cb, point = .worker (.inCallback cb (some .startSpawn)) := by
  cases step with
  | request request asked => cases request <;> exact Or.inl ⟨rfl, by rintro ⟨⟩⟩
  | @call call after s' step =>
    rcases step.births with ⟨hbirths, hspawn⟩ | ⟨rfl, rfl, hbirths⟩
    · refine Or.inl ⟨hbirths, fun hlive => Or.inr ?_⟩
      obtain rfl : after = some .startSpawn := by
        unfold Point.live at hlive
        split at hlive <;> simp_all
      rw [hspawn rfl]
      rfl
    · exact Or.inr (Or.inl ⟨rfl, rfl, hbirths⟩)
  | worker step =>
    obtain ⟨hloop, hbirths | ⟨cb, rfl⟩, -⟩ := step.births
    · exact Or.inl ⟨hbirths, fun hlive => Or.inl (hloop hlive)⟩
    · exact Or.inr (Or.inr (Or.inr ⟨cb, rfl⟩))
  | born ticket => exact Or.inr (Or.inr (Or.inl ⟨rfl, (Nat.sub_add_cancel ticket).symm⟩))
  | tick => exact Or.inl ⟨rfl, by rintro ⟨⟩⟩

theorem Point.Step.inside {point next : Point} {choice : Choice} {s s' : Flow} {cb : TxCallback}
    (step : Point.Step choice s point next s')
    (h : next = .worker (.inCallback cb (some .startSpawn))) :
    point = .worker (.inCallback cb (some .startStore)) := by
  cases step with
  | worker step =>
    cases h
    rw [step.births.2.2 cb rfl]
  | _ => cases h

theorem Flow.due_congr {s s' : Flow} (h : s'.emissions = s.emissions) : s'.due = s.due := by
  rw [Flow.due, Flow.due, h]

theorem Flow.Spaced.le_due {s : Flow} (h : s.Spaced) {e : Emission} (he : e ∈ s.emissions) :
    e.time + intervalSecs ≤ s.due := by
  unfold Flow.Spaced at h
  unfold Flow.due
  cases hlist : s.emissions with
  | nil => simp [hlist] at he
  | cons last earlier =>
    rw [hlist] at h he
    rcases List.mem_cons.mp he with rfl | hmem
    · exact le_refl _
    · have hspace := List.rel_of_pairwise_cons h hmem
      simp only [List.head?_cons, Option.elim]
      omega

theorem Request.begin_emissions (request : Request) (s : Flow) :
    (request.begin s).emissions = s.emissions ∧ (request.begin s).now = s.now := by
  cases request <;> exact ⟨rfl, rfl⟩

theorem Call.Step.emissions {call : Call} {s s' : Flow} {next : Option Call}
    (step : Call.Step s call next s') : s'.emissions = s.emissions ∧ s'.now = s.now := by
  cases step <;> exact ⟨rfl, rfl⟩

theorem Worker.Step.emissions {w next : Worker} {choice : Choice} {s s' : Flow}
    (step : Worker.Step choice s w next s') :
    s'.now = s.now ∧
      (s'.emissions = s.emissions ∨ ∃ packet cb, w = .look packet ∧ next = .inCallback cb none ∧
        s'.emissions = ⟨cb, packet, s.now⟩ :: s.emissions) := by
  cases step with
  | invoke packet cb slot => exact ⟨rfl, Or.inr ⟨packet, cb, rfl, rfl, rfl⟩⟩
  | request cb request asked =>
    obtain ⟨hemissions, hnow⟩ := Request.begin_emissions request s
    exact ⟨hnow, Or.inl hemissions⟩
  | inner cb step => exact ⟨step.emissions.2, Or.inl step.emissions.1⟩
  | _ => exact ⟨rfl, Or.inl rfl⟩

theorem Worker.Step.slept {w next : Worker} {choice : Choice} {s s' : Flow} {due : Nat}
    (step : Worker.Step choice s w next s') (recent : due ≤ s.now + intervalSecs)
    (rested : ∀ t ∈ w.slept s.now, due ≤ t) : ∀ t ∈ next.slept s.now, due ≤ t := by
  cases step with
  | sleep =>
    rintro t ⟨⟩
    exact recent
  | @wake wake awake =>
    rintro t ⟨⟩
    exact (rested wake rfl).trans awake
  | awake running | lockPending | take noise drawn clean | unlockPending packet
  | lockSlot packet =>
    rintro t ⟨⟩
    exact rested s.now rfl
  | _ => rintro t ⟨⟩

theorem Point.Step.emissions {point next : Point} {choice : Choice} {s s' : Flow}
    (step : Point.Step choice s point next s')
    (recent : s.due ≤ s.now + intervalSecs) (rested : ∀ t ∈ point.slept s.now, s.due ≤ t) :
    (s'.emissions = s.emissions ∧ s.now ≤ s'.now ∧ ∀ t ∈ next.slept s'.now, s.due ≤ t) ∨
      ∃ packet cb, point = .worker (.look packet) ∧ next = .worker (.inCallback cb none) ∧
        s'.now = s.now ∧ s'.emissions = ⟨cb, packet, s.now⟩ :: s.emissions := by
  cases step with
  | request request asked =>
    obtain ⟨hemissions, hnow⟩ := Request.begin_emissions request s
    exact Or.inl ⟨hemissions, hnow.ge, by rintro t ⟨⟩⟩
  | call step => exact Or.inl ⟨step.emissions.1, step.emissions.2.ge, by rintro t ⟨⟩⟩
  | worker step =>
    obtain ⟨hnow, hemissions | ⟨packet, cb, rfl, rfl, hemissions⟩⟩ := step.emissions
    · refine Or.inl ⟨hemissions, hnow.ge, ?_⟩
      rw [hnow]
      exact step.slept recent rested
    · exact Or.inr ⟨packet, cb, rfl, rfl, hnow, hemissions⟩
  | born ticket => exact Or.inl ⟨rfl, le_refl _, by rintro t ⟨⟩⟩
  | tick => exact Or.inl ⟨rfl, Nat.le_succ _, by rintro t ⟨⟩⟩

theorem Point.slept_mono {point : Point} {now now' due : Nat} (later : now ≤ now')
    (rested : ∀ t ∈ point.slept now, due ≤ t) : ∀ t ∈ point.slept now', due ≤ t := by
  cases point with
  | worker w =>
    cases w with
    | recheck | lockPending | take | unlockPending packet | lockSlot packet | look packet =>
      rintro t ⟨⟩
      exact (rested now rfl).trans later
    | _ => exact rested
  | _ => exact rested

theorem Point.slept_of_idle {point : Point} {now : Nat} (idle : point.live = false) :
    point.slept now = none := by
  cases point with
  | worker w => cases w <;> first | rfl | cases idle
  | _ => rfl

section Runs

variable {ι : Type} {c c' : FlowSystem ι}

/-- One thread at most is a worker in its loop or spawns one, and none is while a
ticket is out. -/
structure OneLive (c : FlowSystem ι) : Prop where
  lone : ∀ i j, (c.threads i).live = true → (c.threads j).live = true → i = j
  tickets : 0 < c.shared.births → c.shared.births = 1 ∧ ∀ i, (c.threads i).live = false
  inside : ∀ i cb, c.threads i ≠ .worker (.inCallback cb (some .startSpawn))

theorem boot_oneLive (roles : ι → Role) : OneLive (boot roles) := by
  have hlive : ∀ i, ((boot roles).threads i).live = false := fun i => by
    change (roles i).point.live = false
    cases roles i <;> rfl
  refine ⟨fun i j hi => ?_, fun h => absurd h (lt_irrefl 0), fun i cb h => ?_⟩
  · rw [hlive i] at hi
    cases hi
  · have hi := hlive i
    rw [h] at hi
    cases hi

theorem OneLive.only {i : ι} (honly : ∀ j, (c.threads j).live = true → j = i)
    (tickets : c.shared.births = 0)
    (inside : ∀ j cb, c.threads j ≠ .worker (.inCallback cb (some .startSpawn))) : OneLive c where
  lone j k hj hk := (honly j hj).trans (honly k hk).symm
  tickets hpos := absurd tickets (by omega)
  inside := inside

theorem OneLive.fewer (h : OneLive c)
    (hbefore : ∀ j, (c'.threads j).live = true → (c.threads j).live = true)
    (hbirths : c'.shared.births = c.shared.births)
    (inside : ∀ j cb, c'.threads j ≠ .worker (.inCallback cb (some .startSpawn))) :
    OneLive c' where
  lone j k hj hk := h.lone j k (hbefore j hj) (hbefore k hk)
  tickets hpos := by
    obtain ⟨hone, hidle⟩ := h.tickets (hbirths ▸ hpos)
    refine ⟨hbirths.trans hone, fun j => ?_⟩
    by_contra hj
    have hlive := hbefore j (Bool.not_eq_false _ ▸ hj)
    rw [hidle j] at hlive
    cases hlive
  inside := inside

theorem OneLive.spawned (hidle : ∀ j, (c.threads j).live = false) (tickets : c.shared.births = 1)
    (inside : ∀ j cb, c.threads j ≠ .worker (.inCallback cb (some .startSpawn))) : OneLive c where
  lone j k hj := by
    rw [hidle j] at hj
    cases hj
  tickets _ := ⟨tickets, hidle⟩
  inside := inside

theorem OneLive.births_of_live (h : OneLive c) {i : ι} (hi : (c.threads i).live = true) :
    c.shared.births = 0 := by
  by_contra hpos
  have hidle := (h.tickets (by omega)).2 i
  rw [hi] at hidle
  cases hidle

variable [DecidableEq ι]

theorem OneLive.step (h : OneLive c) {i : ι} {choice : Choice} (sole : Sole c i choice)
    (fires : fire Point.instr c i choice = some c') : OneLive c' := by
  obtain ⟨step, hother⟩ := flow_step fires
  have hinside : ∀ j cb, c'.threads j ≠ .worker (.inCallback cb (some .startSpawn)) := by
    intro j cb hj
    by_cases hji : j = i
    · subst hji
      have hpoint := step.inside hj
      have hidle := (sole (by rw [hpoint]; rfl)).1 j
      rw [hpoint] at hidle
      cases hidle
    · exact h.inside j cb (hother j hji ▸ hj)
  have honly (hidle : ∀ j, (c.threads j).live = false) (j : ι)
      (hj : (c'.threads j).live = true) : j = i := by
    by_contra hji
    rw [hother j hji, hidle j] at hj
    cases hj
  rcases step.live with ⟨hbirths, hlive⟩ | ⟨hpoint, hnext, hbirths⟩ |
    ⟨hpoint, hbirths⟩ | ⟨cb, hpoint⟩
  · by_cases hstoring : (c.threads i).storing = true
    · obtain ⟨hidle, hnone⟩ := sole hstoring
      exact .only (honly hidle) (hbirths.trans hnone) hinside
    · refine h.fewer (fun j hj => ?_) hbirths hinside
      by_cases hji : j = i
      · subst hji
        exact (hlive hj).resolve_right hstoring
      · rwa [hother j hji] at hj
  · have hspawning : (c.threads i).live = true := by rw [hpoint]; rfl
    refine .spawned (fun j => ?_) (by rw [hbirths, h.births_of_live hspawning]) hinside
    by_cases hji : j = i
    · subst hji
      rw [hnext]
      rfl
    · rw [hother j hji]
      by_contra hj
      exact hji (h.lone j i (Bool.not_eq_false _ ▸ hj) hspawning)
  · obtain ⟨hone, hidle⟩ := h.tickets (by omega)
    exact .only (honly hidle) (by omega) hinside
  · exact absurd hpoint (h.inside i cb)

theorem oneLive_of_run {roles : ι → Role} (run : Run Point.instr Sole (boot roles) c) :
    OneLive c :=
  run.invariant (boot_oneLive roles) fun _ _ _ _ _ meets fires h => h.step meets fires

/-- The packets so far are spaced, and a worker that has slept has slept long
enough after the last of them. -/
structure Paced (c : FlowSystem ι) : Prop where
  spaced : c.shared.Spaced
  recent : c.shared.due ≤ c.shared.now + intervalSecs
  rested : ∀ i, ∀ t ∈ (c.threads i).slept c.shared.now, c.shared.due ≤ t

omit [DecidableEq ι] in
theorem boot_paced (roles : ι → Role) : Paced (boot roles) where
  spaced := List.Pairwise.nil
  recent := Nat.zero_le _
  rested _ t _ := Nat.zero_le t

theorem Paced.quiet (h : Paced c) {i : ι} (hemissions : c'.shared.emissions = c.shared.emissions)
    (hnow : c.shared.now ≤ c'.shared.now)
    (hself : ∀ t ∈ (c'.threads i).slept c'.shared.now, c.shared.due ≤ t)
    (hother : ∀ j, j ≠ i → c'.threads j = c.threads j) : Paced c' where
  spaced := by
    rw [Flow.Spaced, hemissions]
    exact h.spaced
  recent := by
    rw [Flow.due_congr hemissions]
    exact h.recent.trans (Nat.add_le_add_right hnow _)
  rested j := by
    rw [Flow.due_congr hemissions]
    by_cases hji : j = i
    · subst hji
      exact hself
    · rw [hother j hji]
      exact Point.slept_mono hnow (h.rested j)

theorem Paced.step (h : Paced c) (live : OneLive c) {i : ι} {choice : Choice}
    (fires : fire Point.instr c i choice = some c') : Paced c' := by
  obtain ⟨step, hother⟩ := flow_step fires
  rcases step.emissions h.recent (h.rested i) with ⟨hemissions, hnow, hself⟩ |
    ⟨packet, cb, hpoint, hnext, hnow, hemissions⟩
  · exact h.quiet hemissions hnow hself hother
  · have hdue : c.shared.due ≤ c.shared.now := h.rested i _ (by rw [hpoint]; rfl)
    have hdue' : c'.shared.due = c.shared.now + intervalSecs := by
      rw [Flow.due, hemissions]
      rfl
    refine ⟨?_, by rw [hdue', hnow], fun j => ?_⟩
    · rw [Flow.Spaced, hemissions]
      exact List.pairwise_cons.mpr ⟨fun e he => (h.spaced.le_due he).trans hdue, h.spaced⟩
    · by_cases hji : j = i
      · subst hji
        rw [hnext]
        simp [Point.slept, Worker.slept]
      · -- a second worker that is about to emit would be live
        have hidle : (c.threads j).live = false := by
          by_contra hj
          exact hji (live.lone j i (Bool.not_eq_false _ ▸ hj) (by rw [hpoint]; rfl))
        rw [hother j hji, Point.slept_of_idle hidle]
        simp

/-- In every run in which a start stores `RUNNING` only while no worker is in its
loop or about to be, no two workers ever are, and every packet follows the one
before it by a whole interval. -/
theorem lone_worker_spaced_packets (roles : ι → Role) {c : FlowSystem ι}
    (run : Run Point.instr Sole (boot roles) c) :
    (∀ i j, (c.threads i).inLoop = true → (c.threads j).inLoop = true → i = j) ∧
      c.shared.Spaced := by
  have hlive : ∀ i, (c.threads i).inLoop = true → (c.threads i).live = true := fun i hi => by
    cases hpoint : c.threads i with
    | worker w => rwa [hpoint] at hi
    | _ =>
      rw [hpoint] at hi
      cases hi
  have hpaced : Paced c :=
    run.invariant (boot_paced roles) fun _ _ _ _ run _ fires h =>
      h.step (oneLive_of_run run) fires
  exact ⟨fun i j hi hj => (oneLive_of_run run).lone i j (hlive i hi) (hlive j hj), hpaced.spaced⟩

theorem lone_worker_spaced_packets_restarted :
    ∃ c, Run Point.instr Sole (boot twoWorkers) c ∧
      c.shared.emissions.map Emission.time = [10, 5] ∧
      (∀ i j, (c.threads i).inLoop = true → (c.threads j).inLoop = true → i = j) ∧
      c.shared.Spaced := by
  obtain ⟨c, run, times⟩ : ∃ c, Run Point.instr Sole (boot twoWorkers) c ∧
      c.shared.emissions.map Emission.time = [10, 5] :=
    exists_run (starting 0 7 ++ turns 1 1 ++ emitting 1 3 ++ turns 1 2 ++ stopping 0 ++
      turns 1 1 ++ starting 0 7 ++ turns 2 1 ++ emitting 2 3) (by decide +kernel)
  exact ⟨c, run, times, lone_worker_spaced_packets twoWorkers run⟩

theorem restart_within_sleep_doubles_workers :
    ∃ c, Run Point.instr (fun _ _ _ => True) (boot twoWorkers) c ∧
      c.shared.running = true ∧ (c.threads 1).inLoop = true ∧ (c.threads 2).inLoop = true ∧
      c.shared.emissions.map Emission.time = [5, 5] :=
  -- One host thread starts, stops and starts the flow while the first worker sleeps: both
  -- workers go on, and send their packets in the same second.
  exists_run (starting 0 7 ++ turns 1 3 ++ stopping 0 ++ starting 0 7 ++ turns 2 1 ++
    emitting 2 3 ++ turns 2 2 ++ turns 1 3 ++ [(1, drawing)] ++ turns 1 3) (by decide +kernel)

end Runs

end SecureCore.ConstantFlow
