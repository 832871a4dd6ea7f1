import SecureCore.Reopen
import SecureCore.SessionOps

/-! The vault entry points of `lib.rs` and the ID stamp of `init_module.rs`, which
joins vault and session. An entry point turns the errors of the volume into status
codes; a panic in one crosses the C boundary and ends the process. What `OsRng`
draws (the filling of an erased block or a canary, the nonces) are arguments.
`start + i` cannot overflow: the loops stop at the first index out of range. -/

namespace SecureCore.VaultEntries

open VirtualVolume FaultyFile FallibleState

def u64Max : Nat := 2 ^ 64 - 1

/-- A `Result` that is looked at and not passed on. -/
def attempt {α : Type} (m : VolumeM α) : VolumeM (Option α) := fun v =>
  match m v with
  | .ok a w => .ok (some a) w
  | .error (.panic message) w => .error (.panic message) w
  | .error _ w => .ok none w

def status (failed : Nat) (result : Option Unit) : Nat := if result.isSome then 0 else failed

/-- A `[u8; 4068]` written to a block, with the nonce drawn for it. -/
structure Draft where
  payload : Exactly payloadSize
  nonce : Exactly nonceSize

structure CanaryDraw where
  fill : Exactly (payloadSize - 8)
  nonce : Exactly nonceSize

def reservedBlocks : List Nat := [994, 995, 996, 997, 998, 999]

def canaryMark : Bytes := ascii "CANARY"

def canaryBlock (slot : UInt8) (fill : Exactly (payloadSize - 8)) : Exactly payloadSize :=
  ⟨canaryMark ++ [slot, 1] ++ fill, by
    rw [List.length_append, fill.property]
    rfl⟩

def idStampBlock : Nat := 994

def stampBlock (stamp : Exactly 32) : Exactly payloadSize :=
  ⟨stamp.val ++ List.replicate (payloadSize - 32) 0, by
    rw [List.length_append, stamp.property, List.length_replicate]
    rfl⟩

section Entries

variable (V : VaultPrimitives)

def allocateVaultBlock : VolumeM Nat := do
  match ← attempt allocateBlock with
  | some blockIdx => pure blockIdx
  | none => pure u64Max

def freeVaultBlock (blockIdx : Nat) : VolumeM Nat := do
  pure (status 3 (← attempt (freeBlock blockIdx)))

def secureEraseBlock (blockIdx : Nat) (draft : Draft) : VolumeM Nat := do
  match ← attempt (writeBlock V blockIdx draft.payload draft.nonce) with
  | none => pure 3
  | some () => pure (status 3 (← attempt (freeBlock blockIdx)))

/-- The payloads copied out, as many as the returned count says. -/
def readVaultBlocks (start : Nat) : (n : Nat) → VolumeM (List (Exactly payloadSize))
  | 0 => pure []
  | n + 1 => do
    match ← attempt (readBlock V start) with
    | none => pure []
    | some payload => do pure (payload :: (← readVaultBlocks (start + 1) n))

def writeVaultBlocks (start : Nat) : List Draft → VolumeM Nat
  | [] => pure 0
  | draft :: drafts => do
    match ← attempt (writeBlock V start draft.payload draft.nonce) with
    | none => pure 0
    | some () => do pure ((← writeVaultBlocks (start + 1) drafts) + 1)

def reserveBlocks : List Nat → VolumeM Unit
  | [] => pure ()
  | blockIdx :: rest => do
    let _ ← attempt (reserveBlock blockIdx)
    reserveBlocks rest

def plantCanaries (slot : Nat) : List CanaryDraw → VolumeM Nat
  | [] => pure 0
  | draw :: draws => do
    match ← attempt (writeBlock V (995 + slot) (canaryBlock (UInt8.ofNat slot) draw.fill)
      draw.nonce) with
    | none => pure 2
    | some () => plantCanaries (slot + 1) draws

def initCanarySlots (draws : Fin 5 → CanaryDraw) : VolumeM Nat := do
  reserveBlocks reservedBlocks
  plantCanaries V 0 (List.ofFn draws)

def checkCanaries : List Nat → VolumeM Nat
  | [] => pure 0
  | blockIdx :: rest => do
    match ← attempt (readBlock V blockIdx) with
    | none => pure 2
    | some payload =>
      if payload.val.take 6 ≠ canaryMark then pure 2 else checkCanaries rest

def vaultReadBlock (blockIdx : Nat) : VolumeM (Option (Exactly payloadSize)) :=
  attempt (readBlock V blockIdx)

def vaultWriteBlock (blockIdx : Nat) (draft : Draft) : VolumeM Nat := do
  pure (status 1 (← attempt (writeBlock V blockIdx draft.payload draft.nonce)))

/-- A stamp of another length than 32 panics in `copy_from_slice`. -/
def persistIdStamp (stamp : Bytes) (nonce : Exactly nonceSize) : VolumeM Nat :=
  if h : stamp.length = 32 then vaultWriteBlock V idStampBlock ⟨stampBlock ⟨stamp, h⟩, nonce⟩
  else throw (.panic "source slice length does not match destination slice length")

def readIdStamp : VolumeM (Option Bytes) := do
  pure ((← vaultReadBlock V idStampBlock).map fun payload => payload.val.take 32)

end Entries

/-- The statics of a process: those of the session, `VFS` and `CANARY_INTACT`. -/
structure Device where
  session : Session
  vfs : Option Volume
  canaryIntact : Bool

abbrev DeviceM := EStateM Failure Device

def withVaultOr {α : Type} (default : α) (m : VolumeM α) : DeviceM α := fun d =>
  match d.vfs with
  | none => .ok default d
  | some v =>
    match m v with
    | .ok a w => .ok a { d with vfs := some w }
    | .error failure w => .error failure { d with vfs := some w }

def onSession {α : Type} (m : SessionM α) : DeviceM α := fun d =>
  .ok (m.run d.session).1 { d with session := (m.run d.session).2 }

section Device

variable (P : Primitives) (V : VaultPrimitives)

def validateCanarySlots : DeviceM Nat := do
  let code ← withVaultOr 1 (checkCanaries V [995, 996, 997, 998, 999])
  if code = 0 then modify fun d => { d with canaryIntact := true }
  pure code

def canarySlotsIntact : DeviceM Nat := do
  pure (if (← get).canaryIntact then 1 else 0)

def generateIdStamp (nonce : Exactly nonceSize) : DeviceM Nat := do
  let stamp ← onSession (InitModule.generateIdStampFromCurr P)
  withVaultOr 1 (persistIdStamp V stamp nonce)

def loadIdStamp : DeviceM (Option Bytes) := withVaultOr none (readIdStamp V)

/-- The process ends, and the next one opens the vault again under its key. -/
def restart (totalDataBlocks : Nat) : DeviceM Unit := do
  withVaultOr () (reopen V totalDataBlocks)
  modify fun d => { session := Session.fresh, vfs := d.vfs, canaryIntact := false }

end Device

inductive DeviceOp where
  | session (op : SessionOp)
  | allocateVaultBlock
  | freeVaultBlock (blockIdx : Nat)
  | secureEraseBlock (blockIdx : Nat) (draft : Draft)
  | readVaultBlocks (start n : Nat)
  | writeVaultBlocks (start : Nat) (drafts : List Draft)
  | initCanarySlots (draws : Fin 5 → CanaryDraw)
  | validateCanarySlots
  | canarySlotsIntact
  | generateIdStamp (nonce : Exactly nonceSize)
  | loadIdStamp
  | restart (totalDataBlocks : Nat)

inductive DeviceReply where
  | session (reply : Reply)
  | block (blockIdx : Nat)
  | code (value : Nat)
  | payloads (values : List (Exactly payloadSize))
  | count (value : Nat)
  | stamp (value : Option Bytes)
  | done

def DeviceOp.program (P : Primitives) (V : VaultPrimitives) : DeviceOp → DeviceM DeviceReply
  | .session op => do pure (.session (← onSession (op.program P)))
  | .allocateVaultBlock => do
    pure (.block (← withVaultOr u64Max VaultEntries.allocateVaultBlock))
  | .freeVaultBlock blockIdx => do
    pure (.code (← withVaultOr 1 (VaultEntries.freeVaultBlock blockIdx)))
  | .secureEraseBlock blockIdx draft => do
    pure (.code (← withVaultOr 1 (VaultEntries.secureEraseBlock V blockIdx draft)))
  | .readVaultBlocks start n => do
    pure (.payloads (← withVaultOr [] (VaultEntries.readVaultBlocks V start n)))
  | .writeVaultBlocks start drafts => do
    pure (.count (← withVaultOr 0 (VaultEntries.writeVaultBlocks V start drafts)))
  | .initCanarySlots draws => do
    pure (.code (← withVaultOr 1 (VaultEntries.initCanarySlots V draws)))
  | .validateCanarySlots => do pure (.code (← VaultEntries.validateCanarySlots V))
  | .canarySlotsIntact => do pure (.code (← VaultEntries.canarySlotsIntact))
  | .generateIdStamp nonce => do pure (.code (← VaultEntries.generateIdStamp P V nonce))
  | .loadIdStamp => do pure (.stamp (← VaultEntries.loadIdStamp V))
  | .restart totalDataBlocks => do
    VaultEntries.restart V totalDataBlocks
    pure .done

structure DeviceCall where
  op : DeviceOp
  before : Device
  reply : DeviceReply
  after : Device

inductive Run (P : Primitives) (V : VaultPrimitives) (d₀ : Device) :
    List DeviceCall → Device → Prop where
  | start : Run P V d₀ [] d₀
  | step {calls : List DeviceCall} {d d' : Device} (run : Run P V d₀ calls d) (op : DeviceOp)
      (reply : DeviceReply) (returns : op.program P V d = .ok reply d') :
      Run P V d₀ (calls ++ [⟨op, d, reply, d'⟩]) d'

section Runs

variable {P : Primitives} {V : VaultPrimitives} {d₀ d₁ d : Device}

theorem Run.append {calls more : List DeviceCall} (first : Run P V d₀ calls d₁)
    (second : Run P V d₁ more d) : Run P V d₀ (calls ++ more) d := by
  induction second with
  | start => rwa [List.append_nil]
  | step run op reply returns ih =>
    rw [← List.append_assoc]
    exact .step ih op reply returns

theorem Run.single {op : DeviceOp} {reply : DeviceReply}
    (returns : op.program P V d₀ = .ok reply d) : Run P V d₀ [⟨op, d₀, reply, d⟩] d :=
  .step .start op reply returns

theorem Run.split {calls earlier later : List DeviceCall} {call : DeviceCall}
    (run : Run P V d₀ calls d) (h : calls = earlier ++ call :: later) :
    Run P V d₀ earlier call.before ∧
      call.op.program P V call.before = .ok call.reply call.after := by
  induction run generalizing later with
  | start => simp at h
  | @step calls d₁ d₂ run op reply returns ih =>
    rcases List.eq_nil_or_concat later with rfl | ⟨later, last, rfl⟩
    · obtain ⟨rfl, hcall⟩ := List.append_inj' h rfl
      obtain rfl := (List.cons.inj hcall).1
      exact ⟨run, returns⟩
    · rw [List.concat_eq_append, ← List.cons_append, ← List.append_assoc] at h
      exact ih (List.append_inj' h rfl).1

end Runs

section Equations

variable {α β : Type} {m : VolumeM α} {v w : Volume} {d d' : Device}

theorem attempt_ok {a : α} (h : m v = .ok a w) : attempt m v = .ok (some a) w := by
  rw [attempt, h]

theorem attempt_raised {kind : ErrorKind} {message : String}
    (h : m v = .error (.raised kind message) w) : attempt m v = .ok none w := by
  rw [attempt, h]

theorem attempt_os {code : Nat} (h : m v = .error (.os code) w) : attempt m v = .ok none w := by
  rw [attempt, h]

theorem of_attempt {result : Option α} (h : attempt m v = .ok result w) :
    (∃ a, result = some a ∧ m v = .ok a w) ∨ ∃ failure, result = none ∧ m v = .error failure w := by
  rw [attempt] at h
  cases hrun : m v with
  | ok a t =>
    rw [hrun] at h
    cases h
    exact Or.inl ⟨a, rfl, rfl⟩
  | error failure t =>
    rw [hrun] at h
    cases failure with
    | panic message => cases h
    | os code =>
      cases h
      exact Or.inr ⟨_, rfl, rfl⟩
    | raised kind message =>
      cases h
      exact Or.inr ⟨_, rfl, rfl⟩

theorem attempt_bind (f : α → VolumeM β) :
    attempt (m >>= f) = attempt m >>= fun result =>
      match result with
      | none => pure none
      | some a => attempt (f a) := by
  funext v
  cases hrun : m v with
  | ok a w =>
    rw [bind_ok (attempt_ok hrun), attempt, bind_ok hrun]
    rfl
  | error failure w =>
    cases failure with
    | panic message =>
      have hpanic : attempt m v = .error (.panic message) w := by rw [attempt, hrun]
      rw [bind_error hpanic, attempt, bind_error hrun]
    | os code =>
      rw [bind_ok (attempt_os hrun), attempt, bind_error hrun]
      rfl
    | raised kind message =>
      rw [bind_ok (attempt_raised hrun), attempt, bind_error hrun]
      rfl

theorem secureEraseBlock_eq (V : VaultPrimitives) (blockIdx : Nat) (draft : Draft) :
    secureEraseBlock V blockIdx draft =
      attempt (VirtualVolume.secureEraseBlock V blockIdx draft.payload draft.nonce) >>=
        fun result => pure (status 3 result) := by
  -- Both failures of `secure_erase_block` have one status, so it is the one of the two calls
  -- in sequence.
  rw [VirtualVolume.secureEraseBlock, attempt_bind, bind_assoc, secureEraseBlock]
  congr 1
  funext result
  cases result with
  | none => rfl
  | some _ => rfl

theorem finalState_attempt (v : Volume) : finalState (attempt m v) = finalState (m v) := by
  rw [attempt]
  cases hrun : m v with
  | ok a w => rfl
  | error failure w => cases failure <;> rfl

theorem ok_of_withVaultOr {default a : α} (vault : d.vfs = some v)
    (h : withVaultOr default m d = .ok a d') :
    ∃ w, m v = .ok a w ∧ d' = { d with vfs := some w } := by
  rw [withVaultOr, vault] at h
  dsimp only at h
  split at h
  · next b w hrun =>
    cases h
    exact ⟨w, hrun, rfl⟩
  · cases h

theorem withVaultOr_ok {default a : α} (vault : d.vfs = some v) (h : m v = .ok a w) :
    withVaultOr default m d = .ok a { d with vfs := some w } := by
  rw [withVaultOr, vault]
  dsimp only
  rw [h]

theorem wrapped_ok {default a : α} {wrap : α → DeviceReply} (vault : d.vfs = some v)
    (h : m v = .ok a w) :
    (withVaultOr default m >>= fun a => pure (wrap a)) d =
      .ok (wrap a) { d with vfs := some w } := by
  rw [bind_ok (withVaultOr_ok vault h)]
  rfl

theorem ok_of_wrapped {n : DeviceM α} {wrap : α → DeviceReply} {reply : DeviceReply}
    (h : (n >>= fun a => pure (wrap a)) d = .ok reply d') :
    ∃ a, n d = .ok a d' ∧ reply = wrap a := by
  obtain ⟨a, d₁, hrun, hpure⟩ := ok_of_bind h
  cases hpure
  exact ⟨a, hrun, rfl⟩

end Equations

end SecureCore.VaultEntries
