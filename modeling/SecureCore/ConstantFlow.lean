import SecureCore.MutexThreads
import SecureCore.Primitives

/-! `constant_flow.rs`: the cover traffic worker, the two entry points that start
and stop it and the one-slot mailbox in front of it. Every load, store, sleep,
acquisition and release is a step of its own. The guard of the callback slot is a
temporary of an `if let` and lives while the callback runs; the callback may call
the entry points again.

`OsRng` may fail, which panics: the mailbox is then poisoned, and the worker ends
in its `catch_unwind` handler. A panic out of an entry point ends the call; where
the process would abort at the C boundary, the model lets it go on. `thread::spawn`
hands a ticket to a thread that has not run yet. -/

namespace SecureCore.ConstantFlow

open MutexThreads

def packetSize : Nat := 4096

def buildNoisePacket (noise : Nat → UInt8) : Bytes := fillBytes packetSize noise

def buildPacket (taken : Option Bytes) (noise : Nat → UInt8) : Bytes :=
  match taken with
  | some data =>
    let pkt := if data.length > packetSize then data.take packetSize else data
    pkt ++ fillBytes (packetSize - pkt.length) noise
  | none => buildNoisePacket noise

theorem buildPacket_fitting {data : Bytes} (fits : data.length ≤ packetSize)
    (noise : Nat → UInt8) :
    buildPacket (some data) noise = data ++ fillBytes (packetSize - data.length) noise := by
  simp only [buildPacket]
  rw [if_neg (by omega)]

@[simp] theorem buildPacket_length (taken : Option Bytes) (noise : Nat → UInt8) :
    (buildPacket taken noise).length = packetSize := by
  cases taken with
  | none => simp [buildPacket, buildNoisePacket]
  | some data =>
    by_cases long : data.length > packetSize
    · simp only [buildPacket, if_pos long, List.length_append, List.length_take, fillBytes_length]
      omega
    · rw [buildPacket_fitting (by omega), List.length_append, fillBytes_length]
      omega

/-- The address of a `TxCallback`. -/
abbrev TxCallback := Nat

def intervalSecs : Nat := 5

inductive FlowLock where
  | txCallback | pendingPayload
  deriving DecidableEq, Repr

instance : Fintype FlowLock where
  elems := {.txCallback, .pendingPayload}
  complete := fun lock => by cases lock <;> decide

structure Packet where
  bytes : Bytes
  origin : Option Bytes

structure Emission where
  callback : TxCallback
  packet : Packet
  time : Nat

inductive Event where
  | startBegan
  | startPassed (cb : TxCallback)
  | stopReturned
  | queued (payload : Bytes)
  | invoked (emission : Emission)

/-- The statics of the module, the clock in seconds and the tickets of spawned
threads. `log` is not read: it keeps what happened, the latest first. -/
structure Flow where
  running : Bool
  txCallback : Option TxCallback
  pendingPayload : Option Bytes
  poisoned : Bool
  now : Nat
  births : Nat
  log : List Event

def Flow.record (s : Flow) (event : Event) : Flow := { s with log := event :: s.log }

inductive Request where
  | start (cb : TxCallback)
  | stop
  | queue (payload : Bytes)
  deriving DecidableEq, Repr

/-- What a step does not decide itself: the call that is made next, if any, and
the generator's answer, if it gives one. -/
structure Choice where
  request : Option Request
  noise : Option (Nat → UInt8)

/-- Where a call of an entry point stands. -/
inductive Call where
  | startLoad (cb : TxCallback) | startLock (cb : TxCallback) | startAssign (cb : TxCallback)
  | startUnlock | startStore | startSpawn
  | stopStore | stopLock | stopClear | stopUnlock
  | stopLockPending | stopClearPending | stopUnlockPending | stopReturn
  | queueLock (payload : Bytes) | queueAssign (payload : Bytes) | queueUnlock
  | unwind
  deriving DecidableEq, Repr

def Request.call : Request → Call
  | .start cb => .startLoad cb
  | .stop => .stopStore
  | .queue payload => .queueLock payload

def Request.begin (request : Request) (s : Flow) : Flow :=
  match request with
  | .start _ => s.record .startBegan
  | _ => s

def Call.instr : Call → Instr FlowLock Choice Flow (Option Call)
  | .startLoad cb => .act fun _ s =>
    if s.running then some (none, s) else some (some (.startLock cb), s.record (.startPassed cb))
  | .startLock cb => .acquire .txCallback (some (.startAssign cb))
  | .startAssign cb => .act fun _ s => some (some .startUnlock, { s with txCallback := some cb })
  | .startUnlock => .release .txCallback (some .startStore)
  | .startStore => .act fun _ s => some (some .startSpawn, { s with running := true })
  | .startSpawn => .act fun _ s => some (none, { s with births := s.births + 1 })
  | .stopStore => .act fun _ s => some (some .stopLock, { s with running := false })
  | .stopLock => .acquire .txCallback (some .stopClear)
  | .stopClear => .act fun _ s => some (some .stopUnlock, { s with txCallback := none })
  | .stopUnlock => .release .txCallback (some .stopLockPending)
  | .stopLockPending => .acquire .pendingPayload (some .stopClearPending)
  | .stopClearPending => .act fun _ s =>
    if s.poisoned then some (some .unwind, s)
    else some (some .stopUnlockPending, { s with pendingPayload := none })
  | .stopUnlockPending => .release .pendingPayload (some .stopReturn)
  | .stopReturn => .act fun _ s => some (none, s.record .stopReturned)
  | .queueLock payload => .acquire .pendingPayload (some (.queueAssign payload))
  | .queueAssign payload => .act fun _ s =>
    if s.poisoned then some (some .unwind, s)
    else some (some .queueUnlock,
      { s with pendingPayload := some payload }.record (.queued payload))
  | .queueUnlock => .release .pendingPayload none
  | .unwind => .release .pendingPayload none

/-- Where a worker stands: its loop, and the handler behind `catch_unwind`. -/
inductive Worker where
  | check | sleep | asleep (wake : Nat) | recheck
  | lockPending | take | unlockPending (packet : Packet)
  | lockSlot (packet : Packet) | look (packet : Packet)
  | inCallback (cb : TxCallback) (inner : Option Call) | unlockSlot
  | unwind | caught | caughtLock | caughtClear | caughtUnlock
  | finished

def Worker.instr : Worker → Instr FlowLock Choice Flow Worker
  | .check => .act fun _ s => if s.running then some (.sleep, s) else some (.finished, s)
  | .sleep => .act fun _ s => some (.asleep (s.now + intervalSecs), s)
  | .asleep wake => .act fun _ s => if wake ≤ s.now then some (.recheck, s) else none
  | .recheck => .act fun _ s => if s.running then some (.lockPending, s) else some (.finished, s)
  | .lockPending => .acquire .pendingPayload .take
  | .take => .act fun choice s =>
    if s.poisoned then some (.unwind, s)
    else match choice.noise with
      | some noise =>
        some (.unlockPending ⟨buildPacket s.pendingPayload noise, s.pendingPayload⟩,
          { s with pendingPayload := none })
      | none => some (.unwind, { s with pendingPayload := none, poisoned := true })
  | .unlockPending packet => .release .pendingPayload (.lockSlot packet)
  | .lockSlot packet => .acquire .txCallback (.look packet)
  | .look packet => .act fun _ s =>
    match s.txCallback with
    | some cb => some (.inCallback cb none, s.record (.invoked ⟨cb, packet, s.now⟩))
    | none => some (.unlockSlot, s)
  | .inCallback cb none => .act fun choice s =>
    match choice.request with
    | some request => some (.inCallback cb (some request.call), request.begin s)
    | none => some (.unlockSlot, s)
  | .inCallback cb (some call) => call.instr.map (.inCallback cb)
  | .unlockSlot => .release .txCallback .check
  | .unwind => .release .pendingPayload .caught
  | .caught => .act fun _ s => some (.caughtLock, { s with running := false })
  | .caughtLock => .acquire .txCallback .caughtClear
  | .caughtClear => .act fun _ s => some (.caughtUnlock, { s with txCallback := none })
  | .caughtUnlock => .release .txCallback .finished
  | .finished => .halt

/-- The threads: the host's, the workers', and the passing of time. -/
inductive Point where
  | host (call : Option Call)
  | unborn
  | worker (worker : Worker)
  | clock

def Point.instr : Point → Instr FlowLock Choice Flow Point
  | .host none => .act fun choice s =>
    choice.request.map fun request => (.host (some request.call), request.begin s)
  | .host (some call) => call.instr.map .host
  | .unborn => .act fun _ s =>
    if 0 < s.births then some (.worker .check, { s with births := s.births - 1 }) else none
  | .worker w => w.instr.map .worker
  | .clock => .act fun _ s => some (.clock, { s with now := s.now + 1 })

inductive Call.Step (s : Flow) : Call → Option Call → Flow → Prop where
  | refuse (cb : TxCallback) (running : s.running = true) : Step s (.startLoad cb) none s
  | pass (cb : TxCallback) (lowered : s.running = false) :
      Step s (.startLoad cb) (some (.startLock cb)) (s.record (.startPassed cb))
  | startLock (cb : TxCallback) : Step s (.startLock cb) (some (.startAssign cb)) s
  | assign (cb : TxCallback) :
      Step s (.startAssign cb) (some .startUnlock) { s with txCallback := some cb }
  | startUnlock : Step s .startUnlock (some .startStore) s
  | store : Step s .startStore (some .startSpawn) { s with running := true }
  | spawn : Step s .startSpawn none { s with births := s.births + 1 }
  | lower : Step s .stopStore (some .stopLock) { s with running := false }
  | stopLock : Step s .stopLock (some .stopClear) s
  | clear : Step s .stopClear (some .stopUnlock) { s with txCallback := none }
  | stopUnlock : Step s .stopUnlock (some .stopLockPending) s
  | stopLockPending : Step s .stopLockPending (some .stopClearPending) s
  | clearPending (clean : s.poisoned = false) :
      Step s .stopClearPending (some .stopUnlockPending) { s with pendingPayload := none }
  | stopPanic (poisoned : s.poisoned = true) : Step s .stopClearPending (some .unwind) s
  | stopUnlockPending : Step s .stopUnlockPending (some .stopReturn) s
  | stopReturn : Step s .stopReturn none (s.record .stopReturned)
  | queueLock (payload : Bytes) : Step s (.queueLock payload) (some (.queueAssign payload)) s
  | queue (payload : Bytes) (clean : s.poisoned = false) :
      Step s (.queueAssign payload) (some .queueUnlock)
        ({ s with pendingPayload := some payload }.record (.queued payload))
  | queuePanic (payload : Bytes) (poisoned : s.poisoned = true) :
      Step s (.queueAssign payload) (some .unwind) s
  | queueUnlock : Step s .queueUnlock none s
  | unwind : Step s .unwind none s

theorem Call.step_of_outcome {call : Call} {choice : Choice} {s s' : Flow} {next : Option Call}
    (h : call.instr.outcome choice s = some (next, s')) : Call.Step s call next s' := by
  cases call with
  | startLoad cb =>
    simp only [Call.instr, Instr.outcome] at h
    split_ifs at h with running <;> cases h
    · exact .refuse cb running
    · exact .pass cb (Bool.eq_false_iff.mpr running)
  | stopClearPending =>
    simp only [Call.instr, Instr.outcome] at h
    split_ifs at h with poisoned <;> cases h
    · exact .stopPanic poisoned
    · exact .clearPending (Bool.eq_false_iff.mpr poisoned)
  | queueAssign payload =>
    simp only [Call.instr, Instr.outcome] at h
    split_ifs at h with poisoned <;> cases h
    · exact .queuePanic payload poisoned
    · exact .queue payload (Bool.eq_false_iff.mpr poisoned)
  | _ =>
    cases h
    constructor

inductive Worker.Step (choice : Choice) (s : Flow) : Worker → Worker → Flow → Prop where
  | goOn (running : s.running = true) : Step choice s .check .sleep s
  | leave (lowered : s.running = false) : Step choice s .check .finished s
  | sleep : Step choice s .sleep (.asleep (s.now + intervalSecs)) s
  | wake {wake : Nat} (due : wake ≤ s.now) : Step choice s (.asleep wake) .recheck s
  | awake (running : s.running = true) : Step choice s .recheck .lockPending s
  | awakeLeave (lowered : s.running = false) : Step choice s .recheck .finished s
  | lockPending : Step choice s .lockPending .take s
  | takePoisoned (poisoned : s.poisoned = true) : Step choice s .take .unwind s
  | take (noise : Nat → UInt8) (drawn : choice.noise = some noise) (clean : s.poisoned = false) :
      Step choice s .take
        (.unlockPending ⟨buildPacket s.pendingPayload noise, s.pendingPayload⟩)
        { s with pendingPayload := none }
  | takePanic (failed : choice.noise = none) (clean : s.poisoned = false) :
      Step choice s .take .unwind { s with pendingPayload := none, poisoned := true }
  | unlockPending (packet : Packet) : Step choice s (.unlockPending packet) (.lockSlot packet) s
  | lockSlot (packet : Packet) : Step choice s (.lockSlot packet) (.look packet) s
  | invoke (packet : Packet) (cb : TxCallback) (slot : s.txCallback = some cb) :
      Step choice s (.look packet) (.inCallback cb none)
        (s.record (.invoked ⟨cb, packet, s.now⟩))
  | dropPacket (packet : Packet) (slot : s.txCallback = none) :
      Step choice s (.look packet) .unlockSlot s
  | request (cb : TxCallback) (request : Request) (asked : choice.request = some request) :
      Step choice s (.inCallback cb none) (.inCallback cb (some request.call)) (request.begin s)
  | callbackReturn (cb : TxCallback) (silent : choice.request = none) :
      Step choice s (.inCallback cb none) .unlockSlot s
  | inner (cb : TxCallback) {call : Call} {after : Option Call} {s' : Flow}
      (step : Call.Step s call after s') :
      Step choice s (.inCallback cb (some call)) (.inCallback cb after) s'
  | unlockSlot : Step choice s .unlockSlot .check s
  | unwind : Step choice s .unwind .caught s
  | caught : Step choice s .caught .caughtLock { s with running := false }
  | caughtLock : Step choice s .caughtLock .caughtClear s
  | caughtClear : Step choice s .caughtClear .caughtUnlock { s with txCallback := none }
  | caughtUnlock : Step choice s .caughtUnlock .finished s

theorem Worker.step_of_outcome {w next : Worker} {choice : Choice} {s s' : Flow}
    (h : w.instr.outcome choice s = some (next, s')) : Worker.Step choice s w next s' := by
  cases w with
  | check =>
    simp only [Worker.instr, Instr.outcome] at h
    split_ifs at h with running <;> cases h
    · exact .goOn running
    · exact .leave (Bool.eq_false_iff.mpr running)
  | asleep wake =>
    simp only [Worker.instr, Instr.outcome] at h
    split_ifs at h with due
    cases h
    exact .wake due
  | recheck =>
    simp only [Worker.instr, Instr.outcome] at h
    split_ifs at h with running <;> cases h
    · exact .awake running
    · exact .awakeLeave (Bool.eq_false_iff.mpr running)
  | take =>
    simp only [Worker.instr, Instr.outcome] at h
    split_ifs at h with poisoned
    · cases h
      exact .takePoisoned poisoned
    · split at h <;> cases h
      · next noise drawn => exact .take noise drawn (Bool.eq_false_iff.mpr poisoned)
      · next failed => exact .takePanic failed (Bool.eq_false_iff.mpr poisoned)
  | look packet =>
    simp only [Worker.instr, Instr.outcome] at h
    split at h <;> cases h
    · next cb slot => exact .invoke packet cb slot
    · next slot => exact .dropPacket packet slot
  | inCallback cb inner =>
    cases inner with
    | none =>
      simp only [Worker.instr, Instr.outcome] at h
      split at h <;> cases h
      · next request asked => exact .request cb request asked
      · next silent => exact .callbackReturn cb silent
    | some call =>
      obtain ⟨after, hcall, rfl⟩ := Instr.outcome_map h
      exact .inner cb (Call.step_of_outcome hcall)
  | finished => cases h
  | _ =>
    cases h
    constructor

inductive Point.Step (choice : Choice) (s : Flow) : Point → Point → Flow → Prop where
  | request (request : Request) (asked : choice.request = some request) :
      Step choice s (.host none) (.host (some request.call)) (request.begin s)
  | call {call : Call} {after : Option Call} {s' : Flow} (step : Call.Step s call after s') :
      Step choice s (.host (some call)) (.host after) s'
  | born (ticket : 0 < s.births) :
      Step choice s .unborn (.worker .check) { s with births := s.births - 1 }
  | worker {w next : Worker} {s' : Flow} (step : Worker.Step choice s w next s') :
      Step choice s (.worker w) (.worker next) s'
  | tick : Step choice s .clock .clock { s with now := s.now + 1 }

theorem Point.step_of_outcome {point next : Point} {choice : Choice} {s s' : Flow}
    (h : point.instr.outcome choice s = some (next, s')) : Point.Step choice s point next s' := by
  cases point with
  | host call =>
    cases call with
    | none =>
      obtain ⟨request, asked, hout⟩ := Option.map_eq_some_iff.mp h
      cases hout
      exact .request request asked
    | some call =>
      obtain ⟨after, hcall, rfl⟩ := Instr.outcome_map h
      exact .call (Call.step_of_outcome hcall)
  | worker w =>
    obtain ⟨after, hw, rfl⟩ := Instr.outcome_map h
    exact .worker (Worker.step_of_outcome hw)
  | unborn =>
    simp only [Point.instr, Instr.outcome] at h
    split_ifs at h with ticket
    cases h
    exact .born ticket
  | clock =>
    cases h
    exact .tick

abbrev FlowSystem (ι : Type) := System ι FlowLock Flow Point

theorem flow_step {ι : Type} [DecidableEq ι] {c c' : FlowSystem ι} {i : ι} {choice : Choice}
    (fires : fire Point.instr c i choice = some c') :
    Point.Step choice c.shared (c.threads i) (c'.threads i) c'.shared ∧
      ∀ j, j ≠ i → c'.threads j = c.threads j := by
  obtain ⟨step, hother⟩ := fire_outcome fires
  exact ⟨Point.step_of_outcome step, hother⟩

def Flow.initial : Flow where
  running := false
  txCallback := none
  pendingPayload := none
  poisoned := false
  now := 0
  births := 0
  log := []

inductive Role where
  | host | worker | clock
  deriving DecidableEq, Repr

def Role.point : Role → Point
  | .host => .host none
  | .worker => .unborn
  | .clock => .clock

def boot {ι : Type} (roles : ι → Role) : FlowSystem ι where
  shared := .initial
  owner := fun _ => none
  threads := fun i => (roles i).point

def Event.emission? : Event → Option Emission
  | .invoked emission => some emission
  | _ => none

def Event.payload? : Event → Option Bytes
  | .queued payload => some payload
  | _ => none

def Flow.emissions (s : Flow) : List Emission := s.log.filterMap Event.emission?

section Schedules

variable {ι : Type}

def go : Choice := ⟨none, none⟩

def calling (request : Request) : Choice := ⟨some request, none⟩

def drawing : Choice := ⟨none, some fun _ => 0⟩

def turns (i : ι) (n : Nat) : List (ι × Choice) := List.replicate n (i, go)

def starting (host : ι) (cb : TxCallback) : List (ι × Choice) :=
  (host, calling (.start cb)) :: turns host 6

def stopping (host : ι) : List (ι × Choice) := (host, calling .stop) :: turns host 8

def queueing (host : ι) (payload : Bytes) : List (ι × Choice) :=
  (host, calling (.queue payload)) :: turns host 3

def emitting (worker clock : ι) : List (ι × Choice) :=
  turns worker 2 ++ turns clock intervalSecs ++ turns worker 3 ++ (worker, drawing) ::
    turns worker 3

def oneWorker : Fin 3 → Role := ![.host, .worker, .clock]

def twoWorkers : Fin 4 → Role := ![.host, .worker, .worker, .clock]

end Schedules

end SecureCore.ConstantFlow
