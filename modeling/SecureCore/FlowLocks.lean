import SecureCore.ConstantFlow

/-! The mutexes of the cover traffic while callbacks call its entry points again.
Each control point holds a fixed set of them. The callback slot is taken before
the mailbox everywhere, so the threads cannot deadlock as long as no callback
takes the slot, which its own worker holds: it must not call `stop_constant_flow`,
and a `start_constant_flow` it calls must find the flow running. -/

namespace SecureCore.ConstantFlow

open MutexThreads

def FlowLock.rank : FlowLock → Nat
  | .txCallback => 0
  | .pendingPayload => 1

def Call.held : Call → Finset FlowLock
  | .startAssign _ | .startUnlock | .stopClear | .stopUnlock => {.txCallback}
  | .stopClearPending | .stopUnlockPending | .queueAssign _ | .queueUnlock | .unwind =>
    {.pendingPayload}
  | _ => ∅

def heldBy : Option Call → Finset FlowLock
  | none => ∅
  | some call => call.held

def Worker.held : Worker → Finset FlowLock
  | .take | .unlockPending _ | .unwind => {.pendingPayload}
  | .look _ | .unlockSlot | .caughtClear | .caughtUnlock => {.txCallback}
  | .inCallback _ inner => insert .txCallback (heldBy inner)
  | _ => ∅

def Point.held : Point → Finset FlowLock
  | .host call => heldBy call
  | .worker w => w.held
  | _ => ∅

def Call.reentrant : Call → Bool
  | .startLoad _ | .queueLock _ | .queueAssign _ | .queueUnlock | .unwind => true
  | _ => false

def Point.reentrant : Point → Bool
  | .worker (.inCallback _ (some call)) => call.reentrant
  | _ => true

/-- A callback does not call `stop_constant_flow`, and where it calls
`start_constant_flow` the flow is running. -/
def reenters (point : Point) (s : Flow) (choice : Choice) : Bool :=
  match point with
  | .worker (.inCallback _ none) => choice.request != some .stop
  | .worker (.inCallback _ (some (.startLoad _))) => s.running
  | _ => true

def Reenters {ι : Type} (c : FlowSystem ι) (i : ι) (choice : Choice) : Prop :=
  reenters (c.threads i) c.shared choice = true

instance {ι : Type} (c : FlowSystem ι) (i : ι) (choice : Choice) :
    Decidable (Reenters c i choice) :=
  inferInstanceAs (Decidable (_ = _))

theorem Call.acquire_held {call : Call} {lock : FlowLock} {next : Option Call}
    (h : call.instr = .acquire lock next) : call.held = ∅ ∧ heldBy next = {lock} := by
  cases call <;> first | (cases h; exact ⟨rfl, rfl⟩) | cases h

theorem Call.release_held {call : Call} {lock : FlowLock} {next : Option Call}
    (h : call.instr = .release lock next) : call.held = {lock} ∧ heldBy next = ∅ := by
  cases call <;> first | (cases h; exact ⟨rfl, rfl⟩) | cases h

theorem Call.act_held {call : Call} {body : Choice → Flow → Option (Option Call × Flow)}
    {choice : Choice} {s s' : Flow} {next : Option Call} (h : call.instr = .act body)
    (moves : body choice s = some (next, s')) : heldBy next = call.held := by
  cases call <;> cases h <;> dsimp only at moves <;>
    first | (cases moves; rfl) | (split_ifs at moves <;> (cases moves; rfl))

theorem Call.reentrant_acquire {call : Call} {lock : FlowLock} {next : Option Call}
    (safe : call.reentrant = true) (h : call.instr = .acquire lock next) :
    lock = .pendingPayload ∧ ∃ inner, next = some inner ∧ inner.reentrant = true := by
  cases call <;> cases safe <;> cases h
  exact ⟨rfl, _, rfl, rfl⟩

theorem Call.reentrant_release {call : Call} {lock : FlowLock} {next : Option Call}
    (safe : call.reentrant = true) (h : call.instr = .release lock next) :
    lock = .pendingPayload ∧ next = none := by
  cases call <;> cases safe <;> cases h <;> exact ⟨rfl, rfl⟩

theorem Call.reentrant_act {call : Call} {body : Choice → Flow → Option (Option Call × Flow)}
    {choice : Choice} {s s' : Flow} {next : Option Call} (safe : call.reentrant = true)
    (running : ∀ cb, call = .startLoad cb → s.running = true) (h : call.instr = .act body)
    (moves : body choice s = some (next, s')) : ∀ inner ∈ next, inner.reentrant = true := by
  cases call <;> cases safe <;> cases h <;> dsimp only at moves
  case startLoad cb =>
    rw [if_pos (running cb rfl)] at moves
    cases moves
    simp
  case queueAssign payload =>
    split_ifs at moves <;> cases moves <;> simp [Call.reentrant]

/-- The mutexes of a point are what its place says, and no callback takes the slot. -/
def Disciplined (held : Finset FlowLock) (point : Point) : Prop :=
  held = point.held ∧ point.reentrant = true

theorem Worker.acquire_held {w : Worker} {lock : FlowLock} {next : Worker}
    (safe : (Point.worker w).reentrant = true) (h : w.instr = .acquire lock next) :
    (∀ own ∈ w.held, own.rank < lock.rank) ∧ next.held = insert lock w.held ∧
      (Point.worker next).reentrant = true := by
  cases w with
  | inCallback cb inner =>
    cases inner with
    | none => cases h
    | some call =>
      obtain ⟨after, hcall, rfl⟩ := Instr.map_eq_acquire h
      obtain ⟨hbefore, hafter⟩ := Call.acquire_held hcall
      obtain ⟨rfl, inner, rfl, hinner⟩ := Call.reentrant_acquire safe hcall
      refine ⟨?_, ?_, hinner⟩
      · simp [Worker.held, heldBy, hbefore, FlowLock.rank]
      · rw [Worker.held, Worker.held, hafter, heldBy, hbefore]
        decide
  | lockPending => cases h; exact ⟨by decide, rfl, rfl⟩
  | lockSlot packet => cases h; exact ⟨by simp [Worker.held], rfl, rfl⟩
  | caughtLock => cases h; exact ⟨by decide, rfl, rfl⟩
  | _ => cases h

theorem Worker.release_held {w : Worker} {lock : FlowLock} {next : Worker}
    (safe : (Point.worker w).reentrant = true) (h : w.instr = .release lock next) :
    lock ∈ w.held ∧ next.held = w.held.erase lock ∧ (Point.worker next).reentrant = true := by
  cases w with
  | inCallback cb inner =>
    cases inner with
    | none => cases h
    | some call =>
      obtain ⟨after, hcall, rfl⟩ := Instr.map_eq_release h
      obtain ⟨hbefore, hafter⟩ := Call.release_held hcall
      obtain ⟨rfl, rfl⟩ := Call.reentrant_release safe hcall
      have hinner : heldBy (some call) = {.pendingPayload} := hbefore
      rw [Worker.held, Worker.held, hinner, hafter]
      exact ⟨by decide, by decide, rfl⟩
  | unlockPending packet => cases h; exact ⟨by simp [Worker.held], rfl, rfl⟩
  | unlockSlot => cases h; exact ⟨by decide, rfl, rfl⟩
  | unwind => cases h; exact ⟨by decide, rfl, rfl⟩
  | caughtUnlock => cases h; exact ⟨by decide, rfl, rfl⟩
  | _ => cases h

theorem Worker.act_held {w : Worker} {body : Choice → Flow → Option (Worker × Flow)}
    {choice : Choice} {s s' : Flow} {next : Worker}
    (safe : (Point.worker w).reentrant = true) (meets : reenters (.worker w) s choice = true)
    (h : w.instr = .act body) (moves : body choice s = some (next, s')) :
    next.held = w.held ∧ (Point.worker next).reentrant = true := by
  cases w with
  | inCallback cb inner =>
    cases inner with
    | none =>
      cases h
      dsimp only at moves
      cases hrequest : choice.request with
      | none =>
        rw [hrequest] at moves
        cases moves
        exact ⟨rfl, rfl⟩
      | some request =>
        rw [hrequest] at moves
        cases moves
        cases request with
        | stop => simp [reenters, hrequest] at meets
        | start cb => exact ⟨rfl, rfl⟩
        | queue payload => exact ⟨rfl, rfl⟩
    | some call =>
      obtain ⟨inner, after, hcall, hinner, rfl⟩ := Instr.map_eq_act h moves
      have hheld : heldBy after = call.held := Call.act_held hcall hinner
      have hrunning : ∀ cb, call = .startLoad cb → s.running = true := by
        rintro cb rfl
        exact meets
      have hsafe := Call.reentrant_act safe hrunning hcall hinner
      refine ⟨by rw [Worker.held, Worker.held, hheld, heldBy], ?_⟩
      cases after with
      | none => rfl
      | some later => exact hsafe later rfl
  | check | asleep wake | recheck =>
    cases h
    dsimp only at moves
    split_ifs at moves <;> cases moves <;> exact ⟨rfl, rfl⟩
  | take =>
    cases h
    dsimp only at moves
    split_ifs at moves
    · cases moves
      exact ⟨rfl, rfl⟩
    · cases hnoise : choice.noise <;> rw [hnoise] at moves <;> cases moves <;> exact ⟨rfl, rfl⟩
  | look packet =>
    cases h
    dsimp only at moves
    cases hslot : s.txCallback <;> rw [hslot] at moves <;> cases moves <;> exact ⟨rfl, rfl⟩
  | sleep | caught | caughtClear =>
    cases h
    cases moves
    exact ⟨rfl, rfl⟩
  | _ => cases h

section Runs

variable {ι : Type}

theorem flow_ordered :
    Ordered Point.instr FlowLock.rank (Reenters : FlowSystem ι → ι → Choice → Prop)
      Disciplined where
  acquire {held point lock next} good h := by
    obtain ⟨rfl, safe⟩ := good
    cases point with
    | host call =>
      cases call with
      | none => cases h
      | some call =>
        obtain ⟨after, hcall, rfl⟩ := Instr.map_eq_acquire h
        obtain ⟨hbefore, hafter⟩ := Call.acquire_held hcall
        have hheld : Point.held (.host (some call)) = ∅ := hbefore
        rw [hheld]
        exact ⟨by simp, hafter.symm, rfl⟩
    | worker w =>
      obtain ⟨after, hw, rfl⟩ := Instr.map_eq_acquire h
      obtain ⟨above, hafter, hsafe⟩ := Worker.acquire_held safe hw
      exact ⟨above, hafter.symm, hsafe⟩
    | unborn => cases h
    | clock => cases h
  release {held point lock next} good h := by
    obtain ⟨rfl, safe⟩ := good
    cases point with
    | host call =>
      cases call with
      | none => cases h
      | some call =>
        obtain ⟨after, hcall, rfl⟩ := Instr.map_eq_release h
        obtain ⟨hbefore, hafter⟩ := Call.release_held hcall
        have hheld : Point.held (.host (some call)) = {lock} := hbefore
        rw [hheld]
        refine ⟨Finset.mem_singleton_self lock, ?_, rfl⟩
        rw [Point.held, hafter, Finset.erase_singleton]
    | worker w =>
      obtain ⟨after, hw, rfl⟩ := Instr.map_eq_release h
      obtain ⟨own, hafter, hsafe⟩ := Worker.release_held safe hw
      exact ⟨own, hafter.symm, hsafe⟩
    | unborn => cases h
    | clock => cases h
  act {held c i choice body next s} good h meets moves := by
    obtain ⟨rfl, safe⟩ := good
    rw [Reenters] at meets
    generalize c.threads i = point at h safe meets ⊢
    cases point with
    | host call =>
      cases call with
      | none =>
        cases h
        obtain ⟨request, -, hout⟩ := Option.map_eq_some_iff.mp moves
        cases hout
        cases request <;> exact ⟨rfl, rfl⟩
      | some call =>
        obtain ⟨inner, after, hcall, hinner, rfl⟩ := Instr.map_eq_act h moves
        exact ⟨(Call.act_held hcall hinner).symm, rfl⟩
    | worker w =>
      obtain ⟨inner, after, hw, hinner, rfl⟩ := Instr.map_eq_act h moves
      obtain ⟨hheld, hsafe⟩ := Worker.act_held safe meets hw hinner
      exact ⟨hheld.symm, hsafe⟩
    | unborn =>
      cases h
      dsimp only at moves
      split_ifs at moves
      cases moves
      exact ⟨rfl, rfl⟩
    | clock =>
      cases h
      cases moves
      exact ⟨rfl, rfl⟩

theorem boot_owned (roles : ι → Role) : Owned Disciplined (fun _ => ∅) (boot roles) where
  good i := by
    change Disciplined ∅ (roles i).point
    cases roles i <;> exact ⟨rfl, rfl⟩
  owner lock i := by simp [boot]

variable [DecidableEq ι] {roles : ι → Role} {c : FlowSystem ι}

theorem owner_iff (run : Run Point.instr Reenters (boot roles) c) (lock : FlowLock) (i : ι) :
    c.owner lock = some i ↔ lock ∈ (c.threads i).held := by
  obtain ⟨held, howned⟩ := run.owned flow_ordered (boot_owned roles)
  rw [howned.owner, (howned.good i).1]

theorem reentrant_callbacks_never_deadlock (roles : ι → Role) {c : FlowSystem ι}
    (run : Run Point.instr Reenters (boot roles) c) (stuck : Set ι) :
    ¬ Deadlocked Point.instr c stuck :=
  run.not_deadlocked flow_ordered (boot_owned roles) stuck

theorem reentrant_callbacks_never_deadlock_queueing :
    ∃ c, Run Point.instr Reenters (boot oneWorker) c ∧
      WaitsFor Point.instr c 0 .pendingPayload 1 ∧
      ∀ stuck, ¬ Deadlocked Point.instr c stuck := by
  -- A callback queues a message, and the host waits for the mailbox.
  obtain ⟨c, run, waits⟩ : ∃ c, Run Point.instr Reenters (boot oneWorker) c ∧
      WaitsFor Point.instr c 0 .pendingPayload 1 :=
    exists_run (starting 0 7 ++ turns 1 1 ++ emitting 1 2 ++
      [(1, calling (.queue [1])), (1, go), (0, calling (.queue [2]))]) (by decide)
  exact ⟨c, run, waits, reentrant_callbacks_never_deadlock oneWorker run⟩

theorem callback_waits_for_its_own_worker :
    (∃ c, Run Point.instr (fun _ _ _ => True) (boot oneWorker) c ∧
      WaitsFor Point.instr c 1 .txCallback 1 ∧ Deadlocked Point.instr c {1}) ∧
    ∃ c, Run Point.instr (fun _ _ _ => True) (boot oneWorker) c ∧
      WaitsFor Point.instr c 1 .txCallback 1 ∧ Deadlocked Point.instr c {1} := by
  -- The worker waits for itself when its callback stops the flow, and when its callback
  -- starts the flow after the host has begun to stop it.
  have stops : ∃ c, Run Point.instr (fun _ _ _ => True) (boot oneWorker) c ∧
      WaitsFor Point.instr c 1 .txCallback 1 :=
    exists_run (starting 0 7 ++ turns 1 1 ++ emitting 1 2 ++
      [(1, calling .stop), (1, go)]) (by decide)
  have starts : ∃ c, Run Point.instr (fun _ _ _ => True) (boot oneWorker) c ∧
      WaitsFor Point.instr c 1 .txCallback 1 :=
    exists_run (starting 0 7 ++ turns 1 1 ++ emitting 1 2 ++
      [(0, calling .stop), (0, go), (1, calling (.start 8)), (1, go)]) (by decide)
  obtain ⟨c, hrun, hwaits⟩ := stops
  obtain ⟨d, hrun', hwaits'⟩ := starts
  exact ⟨⟨c, hrun, hwaits, deadlocked_of_self hwaits⟩, d, hrun', hwaits',
    deadlocked_of_self hwaits'⟩

end Runs

end SecureCore.ConstantFlow
