import SecureCore.FlowWorkers

/-! The one-slot mailbox between `queue_real_message` and the worker. With one
worker and no stop, what was queued is in the mailbox, in the worker's hands or
out, in the order of the calls, as long as every payload finds the mailbox empty
and fits a packet, and `OsRng` works. A second payload before a tick replaces the
first, and a payload of more than 4096 bytes is cut. Every packet has 4096 bytes
in any case. -/

namespace SecureCore.ConstantFlow

open MutexThreads

def Flow.queued (s : Flow) : List Bytes := s.log.filterMap Event.payload?

def Flow.sent (s : Flow) : List Bytes := s.emissions.filterMap fun e => e.packet.origin

def Worker.carried : Worker → Option Packet
  | .unlockPending packet | .lockSlot packet | .look packet => some packet
  | _ => none

def Point.carried : Point → Option Packet
  | .worker w => w.carried
  | _ => none

/-- Every payload queued so far is in the mailbox, in a worker's hands or out,
once and in order. -/
def Conserved {ι : Type} (c : FlowSystem ι) : Prop :=
  ((∀ i, (c.threads i).carried = none) ∧
      c.shared.queued = c.shared.pendingPayload.toList ++ c.shared.sent) ∨
    ∃ i packet, (c.threads i).carried = some packet ∧
      c.shared.queued =
        c.shared.pendingPayload.toList ++ packet.origin.toList ++ c.shared.sent

def stops (point : Point) (choice : Choice) : Bool :=
  match point with
  | .host none | .worker (.inCallback _ none) => choice.request == some .stop
  | _ => false

/-- A payload finds the mailbox empty and fits a packet; the generator works. -/
def delivers (point : Point) (s : Flow) (choice : Choice) : Bool :=
  match point with
  | .host (some (.queueAssign payload)) | .worker (.inCallback _ (some (.queueAssign payload))) =>
    s.pendingPayload.isNone && decide (payload.length ≤ packetSize)
  | .worker .take => choice.noise.isSome
  | _ => true

def KeepsFlowing {ι : Type} (c : FlowSystem ι) (i : ι) (choice : Choice) : Prop :=
  Sole c i choice ∧ stops (c.threads i) choice = false

def Delivers {ι : Type} (c : FlowSystem ι) (i : ι) (choice : Choice) : Prop :=
  KeepsFlowing c i choice ∧ delivers (c.threads i) c.shared choice = true

instance {ι : Type} [Fintype ι] (c : FlowSystem ι) (i : ι) (choice : Choice) :
    Decidable (KeepsFlowing c i choice) :=
  inferInstanceAs (Decidable (_ ∧ _))

instance {ι : Type} [Fintype ι] (c : FlowSystem ι) (i : ι) (choice : Choice) :
    Decidable (Delivers c i choice) :=
  inferInstanceAs (Decidable (_ ∧ _))

structure Packet.Sound (packet : Packet) : Prop where
  size : packet.bytes.length = packetSize
  payload : ∀ payload ∈ packet.origin, payload <+: packet.bytes

def Call.calm : Call → Bool
  | .startLoad _ | .startLock _ | .startAssign _ | .startUnlock | .startStore | .startSpawn => true
  | .queueLock _ | .queueAssign _ | .queueUnlock => true
  | _ => false

def Worker.calm : Worker → Bool
  | .unwind | .caught | .caughtLock | .caughtClear | .caughtUnlock => false
  | .inCallback _ (some call) => call.calm
  | _ => true

def Point.calm : Point → Bool
  | .host (some call) => call.calm
  | .worker w => w.calm
  | _ => true

def Point.supplied : Point → Bool
  | .host (some .startUnlock) | .host (some .startStore) | .host (some .startSpawn) => true
  | .worker w => w.inLoop
  | _ => false

def Flow.Receives (s s' : Flow) : Prop :=
  (s'.pendingPayload = s.pendingPayload ∧ s'.queued = s.queued) ∨
    ∃ payload, s.pendingPayload = none ∧ payload.length ≤ packetSize ∧
      s'.pendingPayload = some payload ∧ s'.queued = payload :: s.queued

theorem Call.Step.mail {call : Call} {s s' : Flow} {next : Option Call}
    (step : Call.Step s call next s') (calm : call.calm = true) (clean : s.poisoned = false)
    (fits : ∀ payload, call = .queueAssign payload →
      s.pendingPayload = none ∧ payload.length ≤ packetSize) :
    (Point.host next).calm = true ∧ s'.poisoned = false ∧ s.Receives s' := by
  cases step with
  | queue payload _ =>
    obtain ⟨hempty, hfits⟩ := fits payload rfl
    exact ⟨rfl, clean, Or.inr ⟨payload, hempty, hfits, rfl, rfl⟩⟩
  | queuePanic payload poisoned =>
    rw [clean] at poisoned
    cases poisoned
  | refuse | pass | startLock | assign | startUnlock | store | spawn | queueLock | queueUnlock =>
    exact ⟨rfl, clean, Or.inl ⟨rfl, rfl⟩⟩
  | _ => cases calm

theorem Request.begin_receives (request : Request) (s : Flow) :
    (request.begin s).poisoned = s.poisoned ∧ s.Receives (request.begin s) := by
  cases request <;> exact ⟨rfl, Or.inl ⟨rfl, rfl⟩⟩

theorem Request.calm_of_ne_stop {request : Request} (h : request ≠ .stop) :
    request.call.calm = true := by
  cases request <;> first | rfl | exact absurd rfl h

inductive Handles (s s' : Flow) : Point → Point → Prop where
  | keeps {point next : Point} (carried : next.carried = point.carried)
      (emissions : s'.emissions = s.emissions) (receives : s.Receives s') : Handles s s' point next
  | takes (noise : Nat → UInt8) (emissions : s'.emissions = s.emissions)
      (empty : s'.pendingPayload = none) (queued : s'.queued = s.queued) :
      Handles s s' (.worker .take)
        (.worker (.unlockPending ⟨buildPacket s.pendingPayload noise, s.pendingPayload⟩))
  | emits (packet : Packet) (cb : TxCallback) (time : Nat)
      (emissions : s'.emissions = ⟨cb, packet, time⟩ :: s.emissions)
      (pending : s'.pendingPayload = s.pendingPayload) (queued : s'.queued = s.queued) :
      Handles s s' (.worker (.look packet)) (.worker (.inCallback cb none))

theorem Worker.Step.mail {w next : Worker} {choice : Choice} {s s' : Flow}
    (step : Worker.Step choice s w next s') (calm : w.calm = true) (clean : s.poisoned = false)
    (slot : w.inLoop = true → s.txCallback.isSome = true)
    (going : stops (.worker w) choice = false) (meets : delivers (.worker w) s choice = true) :
    next.calm = true ∧ s'.poisoned = false ∧ Handles s s' (.worker w) (.worker next) := by
  cases step with
  | take noise drawn _ => exact ⟨rfl, clean, .takes noise rfl rfl rfl⟩
  | takePoisoned poisoned =>
    rw [clean] at poisoned
    cases poisoned
  | takePanic failed _ =>
    rw [delivers, failed] at meets
    cases meets
  | invoke packet cb _ => exact ⟨rfl, clean, .emits packet cb s.now rfl rfl rfl⟩
  | dropPacket packet empty =>
    have hslot := slot rfl
    rw [empty] at hslot
    cases hslot
  | request cb request asked =>
    have hne : request ≠ .stop := by
      rintro rfl
      simp [stops, asked] at going
    obtain ⟨hclean, hreceives⟩ := Request.begin_receives request s
    exact ⟨Request.calm_of_ne_stop hne, hclean.trans clean,
      .keeps rfl (Request.begin_emissions request s).1 hreceives⟩
  | @inner cb call after s' step =>
    have hfits : ∀ payload, call = .queueAssign payload →
        s.pendingPayload = none ∧ payload.length ≤ packetSize := by
      rintro payload rfl
      simpa [delivers] using meets
    obtain ⟨hcalm, hclean, hreceives⟩ := step.mail calm clean hfits
    refine ⟨?_, hclean, .keeps rfl step.emissions.1 hreceives⟩
    cases after <;> exact hcalm
  | unwind | caught | caughtLock | caughtClear | caughtUnlock => cases calm
  | _ => exact ⟨rfl, clean, .keeps rfl rfl (Or.inl ⟨rfl, rfl⟩)⟩

theorem Point.Step.mail {point next : Point} {choice : Choice} {s s' : Flow}
    (step : Point.Step choice s point next s') (calm : point.calm = true)
    (clean : s.poisoned = false) (slot : point.supplied = true → s.txCallback.isSome = true)
    (going : stops point choice = false) (meets : delivers point s choice = true) :
    next.calm = true ∧ s'.poisoned = false ∧ Handles s s' point next := by
  cases step with
  | request request asked =>
    have hne : request ≠ .stop := by
      rintro rfl
      simp [stops, asked] at going
    obtain ⟨hclean, hreceives⟩ := Request.begin_receives request s
    exact ⟨Request.calm_of_ne_stop hne, hclean.trans clean,
      .keeps rfl (Request.begin_emissions request s).1 hreceives⟩
  | @call call after s' step =>
    have hfits : ∀ payload, call = .queueAssign payload →
        s.pendingPayload = none ∧ payload.length ≤ packetSize := by
      rintro payload rfl
      simpa [delivers] using meets
    obtain ⟨hcalm, hclean, hreceives⟩ := step.mail calm clean hfits
    exact ⟨hcalm, hclean, .keeps rfl step.emissions.1 hreceives⟩
  | worker step => exact step.mail calm clean slot going meets
  | born ticket => exact ⟨rfl, clean, .keeps rfl rfl (Or.inl ⟨rfl, rfl⟩)⟩
  | tick => exact ⟨rfl, clean, .keeps rfl rfl (Or.inl ⟨rfl, rfl⟩)⟩

theorem Call.Step.slot {call : Call} {s s' : Flow} {next : Option Call}
    (step : Call.Step s call next s') (calm : call.calm = true) :
    (s.txCallback.isSome = true → s'.txCallback.isSome = true) ∧
      ((Point.host next).supplied = true →
        (Point.host (some call)).supplied = true ∨ s'.txCallback.isSome = true) := by
  cases step with
  | assign cb => exact ⟨fun _ => rfl, fun _ => Or.inr rfl⟩
  | startUnlock | store => exact ⟨id, fun _ => Or.inl rfl⟩
  | refuse | pass | startLock | spawn | queueLock | queue | queuePanic | queueUnlock =>
    exact ⟨id, by rintro ⟨⟩⟩
  | _ => cases calm

theorem Worker.Step.slot {w next : Worker} {choice : Choice} {s s' : Flow}
    (step : Worker.Step choice s w next s') (calm : w.calm = true)
    (slot : s.txCallback.isSome = true) : s'.txCallback.isSome = true := by
  cases step with
  | request cb request asked => cases request <;> exact slot
  | inner cb step => exact (step.slot calm).1 slot
  | caughtClear => cases calm
  | _ => exact slot

theorem Point.Step.slot {point next : Point} {choice : Choice} {s s' : Flow}
    (step : Point.Step choice s point next s') (calm : point.calm = true)
    (slot : point.supplied = true → s.txCallback.isSome = true)
    (ticket : 0 < s.births → s.txCallback.isSome = true) :
    (s.txCallback.isSome = true → s'.txCallback.isSome = true) ∧
      (next.supplied = true → s'.txCallback.isSome = true) ∧
      (0 < s'.births → s'.txCallback.isSome = true) := by
  cases step with
  | request request asked => cases request <;> exact ⟨id, by rintro ⟨⟩, ticket⟩
  | call step =>
    obtain ⟨hkeeps, hnext⟩ := step.slot calm
    refine ⟨hkeeps, fun h => ?_, fun hpos => ?_⟩
    · exact (hnext h).elim (fun hself => hkeeps (slot hself)) id
    · rcases step.births with ⟨hbirths, -⟩ | ⟨rfl, -, -⟩
      · exact hkeeps (ticket (hbirths ▸ hpos))
      · exact hkeeps (slot rfl)
  | worker step =>
    have hkeeps := step.slot calm
    obtain ⟨hloop, hbirths, -⟩ := step.births
    refine ⟨hkeeps, fun h => hkeeps (slot (hloop h)), fun hpos => ?_⟩
    rcases hbirths with hsame | ⟨cb, rfl⟩
    · exact hkeeps (ticket (hsame ▸ hpos))
    · exact hkeeps (slot rfl)
  | born hpos => exact ⟨id, fun _ => ticket hpos, fun _ => ticket hpos⟩
  | tick => exact ⟨id, by rintro ⟨⟩, ticket⟩

theorem buildPacket_sound {pending : Option Bytes}
    (fits : ∀ payload ∈ pending, payload.length ≤ packetSize) (noise : Nat → UInt8) :
    Packet.Sound ⟨buildPacket pending noise, pending⟩ where
  size := buildPacket_length pending noise
  payload := by
    rintro payload ⟨⟩
    rw [buildPacket_fitting (fits payload rfl)]
    exact List.prefix_append payload _

theorem Worker.Step.carried {w next : Worker} {choice : Choice} {s s' : Flow} {packet : Packet}
    (step : Worker.Step choice s w next s') (h : next.carried = some packet) :
    w.carried = some packet ∨ ∃ noise, packet.bytes = buildPacket packet.origin noise := by
  cases step with
  | take noise drawn clean =>
    cases h
    exact Or.inr ⟨noise, rfl⟩
  | unlockPending held | lockSlot held => exact Or.inl h
  | _ => cases h

theorem Point.Step.size {point next : Point} {choice : Choice} {s s' : Flow}
    (step : Point.Step choice s point next s')
    (carried : ∀ packet ∈ point.carried, packet.bytes.length = packetSize)
    (emitted : ∀ e ∈ s.emissions, e.packet.bytes.length = packetSize) :
    (∀ packet ∈ next.carried, packet.bytes.length = packetSize) ∧
      ∀ e ∈ s'.emissions, e.packet.bytes.length = packetSize := by
  cases step with
  | request request asked =>
    exact ⟨by rintro packet ⟨⟩, (Request.begin_emissions request s).1 ▸ emitted⟩
  | call step => exact ⟨by rintro packet ⟨⟩, step.emissions.1 ▸ emitted⟩
  | worker step =>
    refine ⟨fun packet hpacket => ?_, ?_⟩
    · rcases step.carried hpacket with hbefore | ⟨noise, hbuilt⟩
      · exact carried packet hbefore
      · rw [hbuilt, buildPacket_length]
    · obtain ⟨-, hsame | ⟨packet, cb, rfl, -, hsent⟩⟩ := step.emissions
      · exact hsame ▸ emitted
      · rw [hsent]
        intro e he
        rcases List.mem_cons.mp he with rfl | hmem
        · exact carried packet rfl
        · exact emitted e hmem
  | born ticket => exact ⟨by rintro packet ⟨⟩, emitted⟩
  | tick => exact ⟨by rintro packet ⟨⟩, emitted⟩

theorem Point.live_of_carried {point : Point} {packet : Packet}
    (h : point.carried = some packet) : point.live = true := by
  cases point with
  | worker w => cases w <;> first | rfl | cases h
  | _ => cases h

section Runs

variable {ι : Type} {c c' : FlowSystem ι}

/-- Nothing stops or panics, and every worker finds a callback. -/
structure Flowing (c : FlowSystem ι) : Prop where
  calm : ∀ i, (c.threads i).calm = true
  clean : c.shared.poisoned = false
  slot : ∀ i, (c.threads i).supplied = true → c.shared.txCallback.isSome = true
  ticket : 0 < c.shared.births → c.shared.txCallback.isSome = true

structure Delivering (c : FlowSystem ι) : Prop extends Flowing c where
  fits : ∀ payload ∈ c.shared.pendingPayload, payload.length ≤ packetSize
  carried : ∀ i, ∀ packet ∈ (c.threads i).carried, packet.Sound
  emitted : ∀ e ∈ c.shared.emissions, e.packet.Sound
  conserved : Conserved c

theorem boot_flowing (roles : ι → Role) : Flowing (boot roles) := by
  refine ⟨fun i => ?_, rfl, fun i hi => ?_, fun h => absurd h (lt_irrefl 0)⟩
  · change (roles i).point.calm = true
    cases roles i <;> rfl
  · change (roles i).point.supplied = true at hi
    cases hrole : roles i <;> rw [hrole] at hi <;> cases hi

theorem boot_delivering (roles : ι → Role) : Delivering (boot roles) := by
  have hcarried : ∀ i, ((boot roles).threads i).carried = none := fun i => by
    change (roles i).point.carried = none
    cases roles i <;> rfl
  refine ⟨boot_flowing roles, by rintro payload ⟨⟩, fun i => ?_, by rintro e ⟨⟩,
    Or.inl ⟨hcarried, rfl⟩⟩
  rw [hcarried i]
  rintro packet ⟨⟩

theorem Conserved.at_live (h : Conserved c) (live : OneLive c) {i : ι}
    (hi : (c.threads i).live = true) :
    (∀ j, j ≠ i → (c.threads j).carried = none) ∧
      c.shared.queued = c.shared.pendingPayload.toList ++
        ((c.threads i).carried.bind Packet.origin).toList ++ c.shared.sent := by
  have hothers : ∀ j, j ≠ i → (c.threads j).carried = none := fun j hji => by
    cases hj : (c.threads j).carried with
    | none => rfl
    | some packet => exact absurd (live.lone j i (Point.live_of_carried hj) hi) hji
  refine ⟨hothers, ?_⟩
  rcases h with ⟨hnone, hqueued⟩ | ⟨j, packet, hj, hqueued⟩
  · rw [hnone i]
    simpa using hqueued
  · have hji : j = i := live.lone j i (Point.live_of_carried hj) hi
    subst hji
    rw [hj]
    exact hqueued

theorem Conserved.keeps (h : Conserved c)
    (carried : ∀ j, (c'.threads j).carried = (c.threads j).carried)
    (emissions : c'.shared.emissions = c.shared.emissions)
    (receives : c.shared.Receives c'.shared) : Conserved c' := by
  have hsent : c'.shared.sent = c.shared.sent := by rw [Flow.sent, Flow.sent, emissions]
  rcases receives with ⟨hpending, hqueued⟩ | ⟨payload, hempty, -, hpending, hqueued⟩ <;>
    rcases h with ⟨hnone, hsame⟩ | ⟨j, packet, hj, hsame⟩
  · exact Or.inl ⟨fun j => (carried j).trans (hnone j), by rw [hqueued, hpending, hsent, hsame]⟩
  · exact Or.inr ⟨j, packet, (carried j).trans hj, by rw [hqueued, hpending, hsent, hsame]⟩
  · refine Or.inl ⟨fun j => (carried j).trans (hnone j), ?_⟩
    rw [hqueued, hpending, hsent, hsame, hempty]
    rfl
  · refine Or.inr ⟨j, packet, (carried j).trans hj, ?_⟩
    rw [hqueued, hpending, hsent, hsame, hempty]
    rfl

theorem Delivering.takes {i : ι} (h : Delivering c) (flowing : Flowing c') (live : OneLive c)
    (hother : ∀ j, j ≠ i → c'.threads j = c.threads j) {noise : Nat → UInt8}
    (hpoint : c.threads i = .worker .take)
    (hnext : c'.threads i = .worker (.unlockPending
      ⟨buildPacket c.shared.pendingPayload noise, c.shared.pendingPayload⟩))
    (emissions : c'.shared.emissions = c.shared.emissions)
    (empty : c'.shared.pendingPayload = none) (queued : c'.shared.queued = c.shared.queued) :
    Delivering c' := by
  obtain ⟨-, hqueued⟩ := h.conserved.at_live live (i := i) (by rw [hpoint]; rfl)
  refine ⟨flowing, by rw [empty]; rintro payload ⟨⟩, ?_, emissions ▸ h.emitted,
    Or.inr ⟨i, _, by rw [hnext]; rfl, ?_⟩⟩
  · refine forall_threads (fun point => ∀ packet ∈ point.carried, packet.Sound) hother ?_
      fun j _ => h.carried j
    rw [hnext]
    rintro packet ⟨⟩
    exact buildPacket_sound h.fits noise
  · rw [hpoint] at hqueued
    rw [queued, hqueued, empty, Flow.sent, Flow.sent, emissions]
    simp [Point.carried, Worker.carried]

theorem Delivering.emits {i : ι} (h : Delivering c) (flowing : Flowing c') (live : OneLive c)
    (hother : ∀ j, j ≠ i → c'.threads j = c.threads j) {packet : Packet} {cb : TxCallback}
    {time : Nat} (hpoint : c.threads i = .worker (.look packet))
    (hnext : c'.threads i = .worker (.inCallback cb none))
    (emissions : c'.shared.emissions = ⟨cb, packet, time⟩ :: c.shared.emissions)
    (pending : c'.shared.pendingPayload = c.shared.pendingPayload)
    (queued : c'.shared.queued = c.shared.queued) : Delivering c' := by
  obtain ⟨hothers, hqueued⟩ := h.conserved.at_live live (i := i) (by rw [hpoint]; rfl)
  have hnone : (c'.threads i).carried = none := by rw [hnext]; rfl
  refine ⟨flowing, pending ▸ h.fits, ?_, ?_, Or.inl ⟨?_, ?_⟩⟩
  · refine forall_threads (fun point => ∀ packet ∈ point.carried, packet.Sound) hother ?_
      fun j _ => h.carried j
    rw [hnone]
    rintro other ⟨⟩
  · rw [emissions]
    intro e he
    rcases List.mem_cons.mp he with rfl | hmem
    · exact h.carried i packet (by rw [hpoint]; rfl)
    · exact h.emitted e hmem
  · exact forall_threads (fun point => point.carried = none) hother hnone hothers
  · rw [hpoint] at hqueued
    rw [queued, hqueued, pending, Flow.sent, Flow.sent, emissions]
    cases horigin : packet.origin <;> simp [Point.carried, Worker.carried, horigin]

theorem Delivering.keeps (h : Delivering c) (flowing : Flowing c')
    (hsame : ∀ j, (c'.threads j).carried = (c.threads j).carried)
    (emissions : c'.shared.emissions = c.shared.emissions)
    (receives : c.shared.Receives c'.shared) : Delivering c' := by
  refine ⟨flowing, ?_, fun j => hsame j ▸ h.carried j, emissions ▸ h.emitted,
    h.conserved.keeps hsame emissions receives⟩
  rcases receives with ⟨hpending, -⟩ | ⟨payload, -, hfits, hpending, -⟩
  · exact hpending ▸ h.fits
  · rw [hpending]
    rintro other ⟨⟩
    exact hfits

variable [DecidableEq ι]

theorem Flowing.step (h : Flowing c) {i : ι} {choice : Choice} (meets : Delivers c i choice)
    (fires : fire Point.instr c i choice = some c') : Flowing c' := by
  obtain ⟨step, hother⟩ := flow_step fires
  obtain ⟨hcalm, hclean, -⟩ := step.mail (h.calm i) h.clean (h.slot i) meets.1.2 meets.2
  obtain ⟨hkeeps, hslot, hticket⟩ := step.slot (h.calm i) (h.slot i) h.ticket
  refine ⟨?_, hclean, ?_, hticket⟩
  · exact forall_threads (fun point => point.calm = true) hother hcalm fun j _ => h.calm j
  · exact forall_threads (fun point => point.supplied = true → _) hother hslot
      fun j _ hj => hkeeps (h.slot j hj)

theorem Delivering.step (h : Delivering c) (live : OneLive c) {i : ι} {choice : Choice}
    (meets : Delivers c i choice) (fires : fire Point.instr c i choice = some c') :
    Delivering c' := by
  have flowing : Flowing c' := h.toFlowing.step meets fires
  obtain ⟨step, hother⟩ := flow_step fires
  obtain ⟨-, -, handles⟩ := step.mail (h.calm i) h.clean (h.slot i) meets.1.2 meets.2
  generalize hpoint : c.threads i = point at handles
  generalize hnext : c'.threads i = next at handles
  cases handles with
  | keeps carried emissions receives =>
    refine h.keeps flowing (fun j => ?_) emissions receives
    by_cases hji : j = i
    · rw [hji, hnext, hpoint, carried]
    · rw [hother j hji]
  | takes noise emissions empty queued =>
    exact h.takes flowing live hother hpoint hnext emissions empty queued
  | emits packet cb time emissions pending queued =>
    exact h.emits flowing live hother hpoint hnext emissions pending queued

theorem delivering_of_run {roles : ι → Role} (run : Run Point.instr Delivers (boot roles) c) :
    Delivering c :=
  run.invariant (boot_delivering roles) fun _ _ _ _ run meets fires h =>
    h.step (oneLive_of_run (run.mono fun _ _ _ _ meets => meets.1.1)) meets fires

structure Sized (c : FlowSystem ι) : Prop where
  carried : ∀ i, ∀ packet ∈ (c.threads i).carried, packet.bytes.length = packetSize
  emitted : ∀ e ∈ c.shared.emissions, e.packet.bytes.length = packetSize

theorem sized_of_run {roles : ι → Role} {allowed : FlowSystem ι → ι → Choice → Prop}
    (run : Run Point.instr allowed (boot roles) c) : Sized c := by
  refine run.invariant ⟨fun i => ?_, by rintro e ⟨⟩⟩ ?_
  · have hrole : (boot roles).threads i = (roles i).point := rfl
    rw [hrole]
    cases roles i <;> rintro packet ⟨⟩
  · intro c i choice c' _ _ fires h
    obtain ⟨step, hother⟩ := flow_step fires
    obtain ⟨hcarried, hemitted⟩ := step.size (h.carried i) h.emitted
    refine ⟨?_, hemitted⟩
    exact forall_threads (fun point => ∀ packet ∈ point.carried, packet.bytes.length = packetSize)
      hother hcarried fun j _ => h.carried j

/-- Every packet has full size in every run. In every run with one worker and no
stop in which each payload finds the mailbox empty and fits a packet and the
generator works, no payload is lost, repeated or overtaken, and each packet starts
with its payload. -/
theorem queued_messages_conserved (roles : ι → Role) {c : FlowSystem ι} :
    (Run Point.instr (fun _ _ _ => True) (boot roles) c →
      ∀ e ∈ c.shared.emissions, e.packet.bytes.length = packetSize) ∧
    (Run Point.instr Delivers (boot roles) c →
      Conserved c ∧
        ∀ e ∈ c.shared.emissions, ∀ payload ∈ e.packet.origin, payload <+: e.packet.bytes) := by
  refine ⟨fun run => (sized_of_run run).emitted, fun run => ?_⟩
  have hdelivering := delivering_of_run run
  exact ⟨hdelivering.conserved, fun e he => (hdelivering.emitted e he).payload⟩

theorem queued_messages_conserved_spread :
    ∃ c, Run Point.instr Delivers (boot oneWorker) c ∧
      c.shared.sent = [[1]] ∧ c.shared.pendingPayload = some [2] ∧
      (∀ e ∈ c.shared.emissions, e.packet.bytes.length = packetSize) ∧ Conserved c ∧
      ∀ e ∈ c.shared.emissions, ∀ payload ∈ e.packet.origin, payload <+: e.packet.bytes := by
  -- Two payloads with a tick between them: one is out, one is pending.
  obtain ⟨c, run, hsent, hpending⟩ : ∃ c, Run Point.instr Delivers (boot oneWorker) c ∧
      c.shared.sent = [[1]] ∧ c.shared.pendingPayload = some [2] :=
    exists_run (starting 0 7 ++ turns 1 1 ++ queueing 0 [1] ++ emitting 1 2 ++ queueing 0 [2])
      (by decide +kernel)
  have hsized := (queued_messages_conserved oneWorker).1 (run.mono fun _ _ _ _ _ => trivial)
  obtain ⟨hconserved, hprefix⟩ := (queued_messages_conserved oneWorker).2 run
  exact ⟨c, run, hsent, hpending, hsized, hconserved, hprefix⟩

theorem queued_messages_lost :
    (∃ c, Run Point.instr KeepsFlowing (boot oneWorker) c ∧ c.shared.queued = [[2], [1]] ∧
      ¬ Conserved c) ∧
    ∃ c, Run Point.instr KeepsFlowing (boot oneWorker) c ∧
      ∃ e ∈ c.shared.emissions, ∃ payload ∈ e.packet.origin, ¬ payload <+: e.packet.bytes := by
  -- A second payload before the tick replaces the first, which is then nowhere; and of a
  -- payload of 4097 bytes the packet holds 4096.
  constructor
  · obtain ⟨c, run, hqueued, hpending, hsent, hcarried⟩ :
        ∃ c, Run Point.instr KeepsFlowing (boot oneWorker) c ∧ c.shared.queued = [[2], [1]] ∧
          c.shared.pendingPayload = some [2] ∧ c.shared.sent = [] ∧
          ∀ i, (c.threads i).carried.isNone = true :=
      exists_run (starting 0 7 ++ turns 1 1 ++ queueing 0 [1] ++ queueing 0 [2])
        (by decide +kernel)
    refine ⟨c, run, hqueued, ?_⟩
    rintro (⟨-, hsame⟩ | ⟨i, packet, hi, -⟩)
    · rw [hqueued, hpending, hsent] at hsame
      simp at hsame
    · have hnone := hcarried i
      rw [hi] at hnone
      cases hnone
  · obtain ⟨c, run, hlengths⟩ : ∃ c, Run Point.instr KeepsFlowing (boot oneWorker) c ∧
        (c.shared.emissions.map fun e => e.packet.origin.map List.length) = [some 4097] :=
      exists_run (starting 0 7 ++ turns 1 1 ++ queueing 0 (List.replicate 4097 0) ++
        emitting 1 2) (by decide +kernel)
    obtain ⟨e, he, horigin⟩ := List.exists_of_mem_map (hlengths ▸ List.mem_singleton_self _)
    obtain ⟨payload, hpayload, hlong⟩ := Option.map_eq_some_iff.mp horigin
    refine ⟨c, run, e, he, payload, hpayload, fun hprefix => ?_⟩
    have hsize := (sized_of_run run).emitted e he
    have hle := hprefix.length_le
    rw [hlong, hsize] at hle
    exact absurd hle (by decide)

end Runs

end SecureCore.ConstantFlow
