import SecureCore.BlockHeap
import SecureCore.NativeBuffers
import SecureCore.SessionOps

/-! The entry points of `lib.rs` that hand out, read, clear and release native buffers,
over the heap that holds them. A host that passes pointers with the lengths it was
told, and releases a buffer once and whole, never causes a fault. What it then sees is
what the functions behind the entry points compute from the contents of its buffers. -/

namespace SecureCore.NativeHeap

open AtomicProgram BlockHeap ByteImage FallibleState
open MessageCipher (Header)

/-- An argument pointer: null, into memory of the host that holds these bytes from there
on, or into a native buffer. -/
inductive Pointer where
  | null
  | own (data : Bytes)
  | native (address offset : Nat)
  deriving DecidableEq

def Pointer.isNull : Pointer → Bool
  | .null => true
  | _ => false

def fetch (pointer : Pointer) (count : Nat) : HeapM Bytes :=
  match pointer with
  | .null => throw .unallocated
  | .own data => if count ≤ data.length then pure (data.take count) else throw .outOfBounds
  | .native address offset => load address offset count

section Heap

variable (grant : Option Grant)

def allocateNativeBuffer (size : UInt32) : HeapM (Option Nat) :=
  if size = 0 then pure none else alloc grant size.toNat

def releaseNativeBuffer (pointer : Pointer) (len : UInt32) : HeapM Unit :=
  if pointer.isNull || len == 0 then pure ()
  else match pointer with
    | .native address offset => do
      store address offset (List.replicate len.toNat 0)
      if offset = 0 then free address len.toNat else throw .unallocated
    | _ => throw .unallocated

def zeroizeKey (pointer : Pointer) (len : UInt32) : HeapM Unit :=
  if pointer.isNull || len == 0 then pure ()
  else match pointer with
    | .native address offset => store address offset (List.replicate len.toNat 0)
    | .own data => if len.toNat ≤ data.length then pure () else throw .outOfBounds
    | .null => pure ()

def copyOut (size : UInt32) (data : Bytes) : HeapM (Option Nat) := do
  let address ← allocateNativeBuffer grant size
  match address with
  | none => pure none
  | some a => do
    store a 0 data
    pure (some a)

/-- The returned pointer, and what is stored in `*out_len` unless that is null. -/
structure Returned where
  outLen : Option UInt32
  pointer : Option Nat
  deriving DecidableEq, Repr

def handOver (produced : Bytes) : HeapM Returned := do
  let pointer ← copyOut grant (UInt32.ofNat produced.length) produced
  pure ⟨some (UInt32.ofNat produced.length), pointer⟩

def refused (outLen : Bool) : Returned := ⟨if outLen then some 0 else none, none⟩

def deliver (result : Option Bytes) : HeapM Returned :=
  match result with
  | some produced => handOver grant produced
  | none => pure (refused true)

structure WireArgs where
  data : Pointer
  len : UInt32
  stamp : Pointer
  outgoing : UInt32
  epoch : UInt32
  msgSeq : UInt64
  timestamp : UInt64
  /-- Whether `out_len` is not null. -/
  outLen : Bool

def WireArgs.header (args : WireArgs) (stamp : Bytes) : Header :=
  ⟨stamp, args.outgoing != 0, args.epoch, args.msgSeq, args.timestamp⟩

def WireArgs.lacking (args : WireArgs) : Bool :=
  args.data.isNull || args.stamp.isNull || !args.outLen || args.len == 0

def cipherMessage (cipher : Bytes → Key → Header → Option Bytes) (key : Pointer)
    (args : WireArgs) : HeapM Returned := do
  if args.lacking || key.isNull then pure (refused args.outLen)
  else do
    let data ← fetch args.data args.len.toNat
    let k ← fetch key 32
    let stamp ← fetch args.stamp 32
    deliver grant (cipher data k (args.header stamp))

def encryptMessage (P : Primitives) (key : Pointer) (args : WireArgs) : HeapM Returned :=
  cipherMessage grant (MessageCipher.encrypt P) key args

def decryptMessage (P : Primitives) (key : Pointer) (args : WireArgs) : HeapM Returned :=
  cipherMessage grant (MessageCipher.decrypt P) key args

def padMessage (padding : Bytes → Option Bytes) (data : Pointer) (len : UInt32) (outLen : Bool) :
    HeapM Returned := do
  if data.isNull || !outLen || len == 0 then pure (refused outLen)
  else do
    let bytes ← fetch data len.toNat
    deliver grant (padding bytes)

def addTailPadding (data : Pointer) (len : UInt32) (outLen : Bool) (draw : UInt32)
    (noise : Nat → UInt8) : HeapM Returned :=
  padMessage grant (fun bytes => some (TailPadding.addTailPadding bytes draw noise)) data len outLen

def stripTailPadding (data : Pointer) (len : UInt32) (outLen : Bool) : HeapM Returned :=
  padMessage grant TailPadding.stripTailPadding data len outLen

end Heap

structure Process where
  session : Session
  heap : Heap

abbrev ProcessM := EStateM Fault Process

def onHeap {α : Type} (m : HeapM α) : ProcessM α :=
  zoom Process.heap (fun h p => { p with heap := h }) m

def onSession {α : Type} (m : SessionM α) : ProcessM α :=
  fun p => .ok (m.run p.session).1 { p with session := (m.run p.session).2 }

section Process

variable (P : Primitives) (grant : Option Grant)

def deriveMessageKey (epoch : UInt32) (msgSeq : UInt64) : ProcessM (Option Nat) := do
  let key ← onSession (MessageCipher.deriveMessageKey P epoch msgSeq)
  onHeap (copyOut grant 32 key)

def commitFlag (didCommit committed : Bool) : Option UInt32 :=
  if didCommit then some (if committed then 1 else 0) else none

def handOverOpened (didCommit : Bool) (opened : Option (Bytes × Bool)) :
    ProcessM (Returned × Option UInt32) := do
  match opened with
  | some (pt, committed) => do
    let returned ← onHeap (handOver grant pt)
    pure (returned, commitFlag didCommit committed)
  | none => pure (refused true, commitFlag didCommit false)

def decryptWithAutoCommit (args : WireArgs) (didCommit : Bool) :
    ProcessM (Returned × Option UInt32) := do
  if args.lacking then pure (refused args.outLen, commitFlag didCommit false)
  else do
    let ct ← onHeap (fetch args.data args.len.toNat)
    let stamp ← onHeap (fetch args.stamp 32)
    let opened ← onSession (MessageCipher.tryDecryptWithEvolution P ct (args.header stamp))
    handOverOpened grant didCommit opened

end Process

inductive NativeCall where
  | session (op : SessionOp)
  | allocateNativeBuffer (size : UInt32)
  | releaseNativeBuffer (pointer : Pointer) (len : UInt32)
  | deriveMessageKey (epoch : UInt32) (msgSeq : UInt64)
  | encryptMessage (key : Pointer) (args : WireArgs)
  | decryptMessage (key : Pointer) (args : WireArgs)
  | decryptWithAutoCommit (args : WireArgs) (didCommit : Bool)
  | zeroizeKey (pointer : Pointer) (len : UInt32)
  | addTailPadding (data : Pointer) (len : UInt32) (outLen : Bool) (draw : UInt32)
      (noise : Nat → UInt8)
  | stripTailPadding (data : Pointer) (len : UInt32) (outLen : Bool)

inductive NativeReply where
  | session (reply : Reply)
  | pointer (address : Option Nat)
  | buffer (returned : Returned)
  | opened (returned : Returned) (didCommit : Option UInt32)
  | done

structure NativeStep where
  call : NativeCall
  grant : Option Grant

def NativeStep.program (P : Primitives) (step : NativeStep) : ProcessM NativeReply :=
  match step.call with
  | .session op => do pure (.session (← onSession (op.program P)))
  | .allocateNativeBuffer size => do
    pure (.pointer (← onHeap (NativeHeap.allocateNativeBuffer step.grant size)))
  | .releaseNativeBuffer pointer len => do
    onHeap (NativeHeap.releaseNativeBuffer pointer len)
    pure .done
  | .deriveMessageKey epoch msgSeq => do
    pure (.pointer (← NativeHeap.deriveMessageKey P step.grant epoch msgSeq))
  | .encryptMessage key args => do
    pure (.buffer (← onHeap (NativeHeap.encryptMessage step.grant P key args)))
  | .decryptMessage key args => do
    pure (.buffer (← onHeap (NativeHeap.decryptMessage step.grant P key args)))
  | .decryptWithAutoCommit args didCommit => do
    let result ← NativeHeap.decryptWithAutoCommit P step.grant args didCommit
    pure (.opened result.1 result.2)
  | .zeroizeKey pointer len => do
    onHeap (NativeHeap.zeroizeKey pointer len)
    pure .done
  | .addTailPadding data len outLen draw noise => do
    pure (.buffer (← onHeap (NativeHeap.addTailPadding step.grant data len outLen draw noise)))
  | .stripTailPadding data len outLen => do
    pure (.buffer (← onHeap (NativeHeap.stripTailPadding step.grant data len outLen)))

structure View where
  session : Session
  held : Blocks

def Process.view (p : Process) : View := ⟨p.session, p.heap.blocks⟩

section Values

variable (held : Blocks)

def Pointer.value : Pointer → Bytes
  | .null => []
  | .own data => data
  | .native address offset => ((held address).getD []).drop offset

def given (grant : Option Grant) (produced : Bytes) : Option Nat × Blocks :=
  if produced = [] then (none, held) else place grant produced held

def returned (grant : Option Grant) (produced : Option Bytes) : Returned × Blocks :=
  match produced with
  | none => (refused true, held)
  | some bytes =>
    (⟨some (UInt32.ofNat bytes.length), (given held grant bytes).1⟩, (given held grant bytes).2)

def WireArgs.wire (args : WireArgs) : Bytes := (args.data.value held).take args.len.toNat

def WireArgs.valueHeader (args : WireArgs) : Header :=
  args.header ((args.stamp.value held).take 32)

def cipherValue (cipher : Bytes → Key → Header → Option Bytes) (grant : Option Grant)
    (key : Pointer) (args : WireArgs) : Returned × Blocks :=
  if args.lacking || key.isNull then (refused args.outLen, held)
  else returned held grant
    (cipher (args.wire held) ((key.value held).take 32) (args.valueHeader held))

def padValue (padding : Bytes → Option Bytes) (grant : Option Grant) (data : Pointer)
    (len : UInt32) (outLen : Bool) : Returned × Blocks :=
  if data.isNull || !outLen || len == 0 then (refused outLen, held)
  else returned held grant (padding ((data.value held).take len.toNat))

def cleared (pointer : Pointer) (len : UInt32) : Blocks :=
  match pointer with
  | .native address offset =>
    if len = 0 then held
    else Function.update held address
      ((held address).map fun block => splice block offset (List.replicate len.toNat 0))
  | _ => held

def dropped (pointer : Pointer) : Blocks :=
  match pointer with
  | .native address _ => Function.update held address none
  | _ => held

end Values

def openedValue (P : Primitives) (grant : Option Grant) (args : WireArgs) (didCommit : Bool)
    (v : View) : (Returned × Option UInt32) × View :=
  if args.lacking then ((refused args.outLen, commitFlag didCommit false), v)
  else
    let result := (MessageCipher.tryDecryptWithEvolution P (args.wire v.held)
      (args.valueHeader v.held)).run v.session
    let handed := returned v.held grant (result.1.map Prod.fst)
    ((handed.1, commitFlag didCommit ((result.1.map Prod.snd).getD false)),
      ⟨result.2, handed.2⟩)

def NativeStep.value (P : Primitives) (step : NativeStep) (v : View) : NativeReply × View :=
  match step.call with
  | .session op => (.session ((op.program P).run v.session).1,
      { v with session := ((op.program P).run v.session).2 })
  | .allocateNativeBuffer size =>
    let placed := given v.held step.grant (uncleared step.grant size.toNat)
    (.pointer placed.1, { v with held := placed.2 })
  | .releaseNativeBuffer pointer _ => (.done, { v with held := dropped v.held pointer })
  | .deriveMessageKey epoch msgSeq =>
    let key := MessageCipher.deriveMessageKeyFromRoot P v.session.curr epoch msgSeq
    let placed := given v.held step.grant key
    (.pointer placed.1, { v with held := placed.2 })
  | .encryptMessage key args =>
    let result := cipherValue v.held (MessageCipher.encrypt P) step.grant key args
    (.buffer result.1, { v with held := result.2 })
  | .decryptMessage key args =>
    let result := cipherValue v.held (MessageCipher.decrypt P) step.grant key args
    (.buffer result.1, { v with held := result.2 })
  | .decryptWithAutoCommit args didCommit =>
    let result := openedValue P step.grant args didCommit v
    (.opened result.1.1 result.1.2, result.2)
  | .zeroizeKey pointer len => (.done, { v with held := cleared v.held pointer len })
  | .addTailPadding data len outLen draw noise =>
    let result := padValue v.held (fun bytes => some (TailPadding.addTailPadding bytes draw noise))
      step.grant data len outLen
    (.buffer result.1, { v with held := result.2 })
  | .stripTailPadding data len outLen =>
    let result := padValue v.held TailPadding.stripTailPadding step.grant data len outLen
    (.buffer result.1, { v with held := result.2 })

def Pointer.Covers (held : Blocks) (count : Nat) : Pointer → Prop
  | .null => True
  | .own data => count ≤ data.length
  | .native address offset => ∃ block, held address = some block ∧ offset + count ≤ block.length

def WireArgs.Covered (held : Blocks) (args : WireArgs) : Prop :=
  args.data.Covers held args.len.toNat ∧ args.stamp.Covers held 32

/-- A call that reads and clears within its buffers, releases a buffer with the length it
has, and produces a vector whose length is a `u32`. -/
def NativeCall.Respects (held : Blocks) : NativeCall → Prop
  | .session _ => True
  | .allocateNativeBuffer _ => True
  | .releaseNativeBuffer pointer len => pointer = .null ∨
      ∃ address block, pointer = .native address 0 ∧ held address = some block ∧
        block.length = len.toNat ∧ len ≠ 0
  | .deriveMessageKey _ _ => True
  | .encryptMessage key args =>
    args.Covered held ∧ key.Covers held 32 ∧ args.len.toNat + 28 < 2 ^ 32
  | .decryptMessage key args => args.Covered held ∧ key.Covers held 32
  | .decryptWithAutoCommit args _ => args.Covered held
  | .zeroizeKey pointer len => pointer.Covers held len.toNat
  | .addTailPadding data len _ _ _ => data.Covers held len.toNat ∧ len.toNat + 514 < 2 ^ 32
  | .stripTailPadding data len _ => data.Covers held len.toNat

def Respectful (P : Primitives) : List NativeStep → View → Prop
  | [], _ => True
  | step :: steps, v => step.call.Respects v.held ∧ Respectful P steps (step.value P v).2

section Entries

variable {held : Blocks} {grant : Option Grant} {produced : Bytes}

theorem fetch_implements {pointer : Pointer} {count : Nat} (present : pointer.isNull = false)
    (covers : pointer.Covers held count) :
    Implements (fetch pointer count) held ((pointer.value held).take count, held) := by
  cases pointer with
  | null => cases present
  | own data =>
    have hfits : count ≤ data.length := covers
    rw [fetch, if_pos hfits]
    exact .pure _ _
  | native address offset =>
    obtain ⟨block, hblock, hfits⟩ := covers
    refine .of_run fun released => ?_
    rw [fetch, load_ok hblock hfits, Pointer.value, hblock]
    rfl

theorem allocateNativeBuffer_implements (size : UInt32) :
    Implements (allocateNativeBuffer grant size) held
      (given held grant (uncleared grant size.toNat)) := by
  by_cases zero : size = 0
  · subst zero
    have hempty : uncleared grant (0 : UInt32).toNat = [] := by
      cases grant <;> rfl
    rw [allocateNativeBuffer, if_pos rfl, given, if_pos hempty]
    exact .pure _ _
  · have hplaced : given held grant (uncleared grant size.toNat) =
        place grant (uncleared grant size.toNat) held := by
      cases grant with
      | none => rfl
      | some g =>
        have hlength := uncleared_length g size.toNat
        refine if_neg fun hempty => zero (UInt32.toNat.inj ?_)
        rw [← hlength, hempty]
        rfl
    rw [allocateNativeBuffer, if_neg zero, hplaced]
    exact .alloc grant size.toNat held

theorem copyOut_implements {size : UInt32} (sized : size.toNat = produced.length) :
    Implements (copyOut grant size produced) held (given held grant produced) := by
  rw [given]
  split_ifs with empty
  · have hzero : size = 0 := UInt32.toNat.inj (by rw [sized, empty]; rfl)
    rw [copyOut, allocateNativeBuffer, if_pos hzero]
    exact .pure _ _
  · have hsome : size ≠ 0 := by
      rintro rfl
      exact empty (List.eq_nil_of_length_eq_zero sized.symm)
    rw [copyOut, allocateNativeBuffer, if_neg hsome, sized]
    refine .bind (.alloc grant produced.length held) ?_
    cases grant with
    | none => exact .pure _ _
    | some g =>
      by_cases vacant : held g.address = none
      · have hstore := Implements.store_placed vacant produced
        simp only [place, if_pos vacant] at hstore ⊢
        exact .bind hstore (.pure _ _)
      · simp only [place, if_neg vacant]
        exact .pure _ _

theorem handOver_implements (short : produced.length < 2 ^ 32) :
    Implements (handOver grant produced) held (returned held grant (some produced)) := by
  have hsize : (UInt32.ofNat produced.length).toNat = produced.length := by
    rw [UInt32.toNat_ofNat', Nat.mod_eq_of_lt short]
  exact .bind (copyOut_implements hsize) (.pure _ _)

def granted (grant : Option Grant) (held : Blocks) : Bool :=
  match grant with
  | none => false
  | some g => (held g.address).isNone

theorem copyOut_faults_iff {released : List Bytes} {size : UInt32} :
    (∃ fault h, copyOut grant size produced ⟨held, released⟩ = .error fault h) ↔
      size ≠ 0 ∧ granted grant held = true ∧ size.toNat < produced.length := by
  rw [copyOut, allocateNativeBuffer]
  by_cases zero : size = 0
  · rw [if_pos zero]
    refine iff_of_false ?_ fun overruns => overruns.1 zero
    rintro ⟨fault, h, hrun⟩
    cases hrun
  rw [if_neg zero, and_iff_right zero]
  cases grant with
  | none =>
    refine iff_of_false ?_ fun overruns => Bool.false_ne_true overruns.1
    rintro ⟨fault, h, hrun⟩
    cases hrun
  | some g =>
    cases hblock : held g.address with
    | some block =>
      have hplace : place (some g) (uncleared (some g) size.toNat) held = (none, held) :=
        if_neg (by simp [hblock])
      rw [bind_ok (alloc_eq hplace), granted, hblock]
      refine iff_of_false ?_ fun overruns => Bool.false_ne_true overruns.1
      rintro ⟨fault, h, hrun⟩
      cases hrun
    | none =>
      have hplace : place (some g) (uncleared (some g) size.toNat) held =
          (some g.address,
            Function.update held g.address (some (uncleared (some g) size.toNat))) :=
        if_pos hblock
      have hlength := uncleared_length g size.toNat
      rw [bind_ok (alloc_eq hplace), granted, hblock, and_iff_right Option.isNone_none]
      dsimp only
      constructor
      · rintro ⟨fault, h, hrun⟩
        by_contra fits
        rw [bind_ok (store_ok (Function.update_self ..) (by omega))] at hrun
        cases hrun
      · intro overruns
        rw [bind_error (store_outOfBounds (Function.update_self ..) (by omega))]
        exact ⟨_, _, rfl⟩

theorem handOver_faults_iff {released : List Bytes} :
    (∃ fault h, handOver grant produced ⟨held, released⟩ = .error fault h) ↔
      ∃ size ∈ (NativeBuffers.handOver (granted grant held) produced).buffer,
        size.toNat < (NativeBuffers.handOver (granted grant held) produced).copied := by
  have hpure : (∃ fault h, handOver grant produced ⟨held, released⟩ = .error fault h) ↔
      ∃ fault h, copyOut grant (UInt32.ofNat produced.length) produced ⟨held, released⟩ =
        .error fault h := by
    rw [handOver]
    cases hrun : copyOut grant (UInt32.ofNat produced.length) produced ⟨held, released⟩ with
    | ok pointer h => simp [bind_ok hrun, pure_apply]
    | error fault h => simp [bind_error hrun]
  rw [hpure, copyOut_faults_iff, NativeBuffers.handOver, NativeBuffers.allocateNativeBuffer]
  split_ifs with zero grants
  · simp [zero]
  · simp [zero, grants]
  · simp [grants]

theorem deliver_implements {result : Option Bytes}
    (short : ∀ produced, result = some produced → produced.length < 2 ^ 32) :
    Implements (deliver grant result) held (returned held grant result) := by
  cases result with
  | none => exact .pure _ _
  | some produced => exact handOver_implements (short produced rfl)

theorem zeroizeKey_implements {pointer : Pointer} {len : UInt32}
    (covers : pointer.Covers held len.toNat) :
    Implements (zeroizeKey pointer len) held ((), cleared held pointer len) := by
  unfold zeroizeKey
  by_cases zero : len = 0
  · subst zero
    have hsame : cleared held pointer 0 = held := by
      cases pointer <;> rfl
    rw [if_pos (by simp), hsame]
    exact .pure _ _
  · cases pointer with
    | null => exact .pure _ _
    | own data =>
      have hfits : len.toNat ≤ data.length := covers
      rw [if_neg (by simpa [Pointer.isNull] using zero)]
      simp only [if_pos hfits]
      exact .pure _ _
    | native address offset =>
      obtain ⟨block, hblock, hfits⟩ := covers
      rw [if_neg (by simpa [Pointer.isNull] using zero), cleared, if_neg zero, hblock]
      exact .of_run fun released => store_ok hblock (by rwa [List.length_replicate])

theorem releaseNativeBuffer_implements {pointer : Pointer} {len : UInt32}
    (respects : NativeCall.Respects held (.releaseNativeBuffer pointer len)) :
    Implements (releaseNativeBuffer pointer len) held ((), dropped held pointer) := by
  obtain rfl | ⟨address, block, rfl, hblock, hlength, hpositive⟩ := respects
  · exact .pure _ _
  · rw [releaseNativeBuffer, if_neg (by simpa [Pointer.isNull] using hpositive), ← hlength]
    exact .clear_free hblock

theorem cipherMessage_implements {cipher : Bytes → Key → Header → Option Bytes} {key : Pointer}
    {args : WireArgs} (covered : args.Covered held) (keyed : key.Covers held 32)
    (short : ∀ produced,
      cipher (args.wire held) ((key.value held).take 32) (args.valueHeader held) = some produced →
        produced.length < 2 ^ 32) :
    Implements (cipherMessage grant cipher key args) held
      (cipherValue held cipher grant key args) := by
  rw [cipherMessage, cipherValue]
  split_ifs with lacks
  · exact .pure _ _
  · simp only [WireArgs.lacking, Bool.or_eq_true, not_or, Bool.not_eq_true] at lacks
    obtain ⟨⟨⟨⟨hdata, hstamp⟩, -⟩, -⟩, hkey⟩ := lacks
    refine .bind (fetch_implements hdata covered.1) (.bind (fetch_implements hkey keyed)
      (.bind (fetch_implements hstamp covered.2) ?_))
    exact deliver_implements short

theorem padMessage_implements {padding : Bytes → Option Bytes} {data : Pointer} {len : UInt32}
    {outLen : Bool} (covers : data.Covers held len.toNat)
    (short : ∀ produced, padding ((data.value held).take len.toNat) = some produced →
      produced.length < 2 ^ 32) :
    Implements (padMessage grant padding data len outLen) held
      (padValue held padding grant data len outLen) := by
  rw [padMessage, padValue]
  split_ifs with lacks
  · exact .pure _ _
  · simp only [Bool.or_eq_true, not_or, Bool.not_eq_true] at lacks
    exact .bind (fetch_implements lacks.1.1 covers) (deliver_implements short)

end Entries

/-- A program of the process that does what a function of the view does, and clears what
it gives back. -/
def Realises {α : Type} (m : ProcessM α) (v : View) (result : α × View) : Prop :=
  ∀ released, Wiped released → ∃ released', Wiped released' ∧
    m ⟨v.session, ⟨v.held, released⟩⟩ = .ok result.1 ⟨result.2.session, ⟨result.2.held, released'⟩⟩

namespace Realises

variable {α β : Type} {v : View}

theorem pure (a : α) (v : View) : Realises (pure a) v (a, v) :=
  fun released wiped => ⟨released, wiped, rfl⟩

theorem bind {m : ProcessM α} {f : α → ProcessM β} {first : α × View} {result : β × View}
    (hm : Realises m v first) (hf : Realises (f first.1) first.2 result) :
    Realises (m >>= f) v result := by
  intro released wiped
  obtain ⟨between, hwiped, hrun⟩ := hm released wiped
  obtain ⟨released', hwiped', hrest⟩ := hf between hwiped
  exact ⟨released', hwiped', (bind_ok hrun).trans hrest⟩

theorem onHeap {m : HeapM α} {result : α × Blocks} (h : Implements m v.held result) :
    Realises (onHeap m) v (result.1, { v with held := result.2 }) := by
  intro released wiped
  obtain ⟨released', hwiped, hrun⟩ := h released wiped
  exact ⟨released', hwiped, zoom_ok hrun⟩

theorem onSession (m : SessionM α) (v : View) :
    Realises (onSession m) v ((m.run v.session).1, { v with session := (m.run v.session).2 }) :=
  fun released wiped => ⟨released, wiped, rfl⟩

theorem heapReply {m : HeapM α} {result : α × Blocks} (h : Implements m v.held result)
    (reply : α → NativeReply) :
    Realises (do Pure.pure (reply (← NativeHeap.onHeap m))) v
      (reply result.1, { v with held := result.2 }) :=
  .bind (.onHeap h) (.pure _ _)

end Realises

section Calls

variable {P : Primitives} {v : View}

def HkdfWidth (P : Primitives) : Prop := ∀ salt ikm info : Bytes, (P.hkdf salt ikm info).length = 32

theorem deriveMessageKey_realises (width : HkdfWidth P) (grant : Option Grant) (epoch : UInt32)
    (msgSeq : UInt64) :
    let placed := given v.held grant
      (MessageCipher.deriveMessageKeyFromRoot P v.session.curr epoch msgSeq)
    Realises (deriveMessageKey P grant epoch msgSeq) v
      (placed.1, { v with held := placed.2 }) := by
  have hsize : (32 : UInt32).toNat =
      (MessageCipher.deriveMessageKeyFromRoot P v.session.curr epoch msgSeq).length :=
    (width _ _ _).symm
  refine .bind (.onSession _ v) ?_
  rw [MessageCipher.run_deriveMessageKey]
  exact .onHeap (copyOut_implements hsize)

theorem handOverOpened_realises {grant : Option Grant} {didCommit : Bool}
    {opened : Option (Bytes × Bool)}
    (short : ∀ pt committed, opened = some (pt, committed) → pt.length < 2 ^ 32) (v : View) :
    let handed := returned v.held grant (opened.map Prod.fst)
    Realises (handOverOpened grant didCommit opened) v
      ((handed.1, commitFlag didCommit ((opened.map Prod.snd).getD false)),
        { v with held := handed.2 }) := by
  cases opened with
  | none => exact .pure _ _
  | some pair => exact .bind (.onHeap (handOver_implements (short pair.1 pair.2 rfl))) (.pure _ _)

theorem decryptWithAutoCommit_realises (shortens : NativeBuffers.AeadShortens P)
    (grant : Option Grant) {args : WireArgs} (didCommit : Bool) (covered : args.Covered v.held) :
    Realises (decryptWithAutoCommit P grant args didCommit) v
      (openedValue P grant args didCommit v) := by
  unfold decryptWithAutoCommit openedValue
  split_ifs with lacks
  · exact .pure _ _
  · simp only [WireArgs.lacking, Bool.or_eq_true, not_or, Bool.not_eq_true] at lacks
    obtain ⟨⟨⟨hdata, hstamp⟩, -⟩, -⟩ := lacks
    have hct : Realises (onHeap (fetch args.data args.len.toNat)) v (args.wire v.held, v) :=
      .onHeap (fetch_implements hdata covered.1)
    have hheader : Realises (onHeap (fetch args.stamp 32)) v
        ((args.stamp.value v.held).take 32, v) :=
      .onHeap (fetch_implements hstamp covered.2)
    refine hct.bind (hheader.bind (.bind (.onSession _ v) ?_))
    refine handOverOpened_realises (fun pt committed opens => ?_) _
    have hle : pt.length ≤ (args.wire v.held).length :=
      NativeBuffers.tryDecrypt_length shortens opens
    have hwire : (args.wire v.held).length ≤ args.len.toNat := List.length_take_le ..
    have hlen := args.len.toNat_lt
    omega

theorem NativeStep.realises (exact : NativeBuffers.AeadExact P)
    (shortens : NativeBuffers.AeadShortens P) (width : HkdfWidth P) (step : NativeStep)
    (respects : step.call.Respects v.held) :
    Realises (step.program P) v (step.value P v) := by
  obtain ⟨call, grant⟩ := step
  cases call with
  | session op => exact .bind (.onSession _ v) (.pure _ _)
  | allocateNativeBuffer size => exact .heapReply (allocateNativeBuffer_implements size) _
  | releaseNativeBuffer pointer len =>
    exact .heapReply (releaseNativeBuffer_implements respects) fun _ => .done
  | deriveMessageKey epoch msgSeq =>
    exact .bind (deriveMessageKey_realises width grant epoch msgSeq) (.pure _ _)
  | encryptMessage key args =>
    obtain ⟨hcovered, hkey, hshort⟩ := respects
    refine .heapReply (cipherMessage_implements hcovered hkey fun produced seals => ?_) _
    have hlength := NativeBuffers.encrypt_length exact seals
    have hwire : (args.wire v.held).length ≤ args.len.toNat := List.length_take_le ..
    omega
  | decryptMessage key args =>
    obtain ⟨hcovered, hkey⟩ := respects
    refine .heapReply (cipherMessage_implements hcovered hkey fun produced opens => ?_) _
    have hlength := NativeBuffers.decrypt_length shortens opens
    have hwire : (args.wire v.held).length ≤ args.len.toNat := List.length_take_le ..
    have hlen := args.len.toNat_lt
    omega
  | decryptWithAutoCommit args didCommit =>
    exact .bind (decryptWithAutoCommit_realises shortens grant didCommit respects) (.pure _ _)
  | zeroizeKey pointer len => exact .heapReply (zeroizeKey_implements respects) fun _ => .done
  | addTailPadding data len outLen draw noise =>
    obtain ⟨hcovers, hshort⟩ := respects
    refine .heapReply (padMessage_implements hcovers fun produced pads => ?_) _
    obtain rfl := Option.some.inj pads
    have hpad : TailPadding.padLength draw ≤ 512 := (TailPadding.padLength_bounds draw).2
    have htake : ((data.value v.held).take len.toNat).length ≤ len.toNat := List.length_take_le ..
    rw [TailPadding.addTailPadding_length]
    omega
  | stripTailPadding data len outLen =>
    refine .heapReply (padMessage_implements respects fun produced strips => ?_) _
    have hlength := NativeBuffers.strip_length strips
    have htake : ((data.value v.held).take len.toNat).length ≤ len.toNat := List.length_take_le ..
    have hlen := len.toNat_lt
    omega

def Pointer.buffer : Pointer → Option Nat
  | .native address _ => some address
  | _ => none

def NativeCall.target : NativeCall → Option Nat
  | .releaseNativeBuffer pointer _ => pointer.buffer
  | .zeroizeKey pointer _ => pointer.buffer
  | _ => none

section Frame

variable {held : Blocks} {address : Nat} {block : Bytes}

theorem given_keeps (found : held address = some block) (grant : Option Grant)
    (produced : Bytes) : (given held grant produced).2 address = some block := by
  rw [given]
  split_ifs
  · exact found
  · exact place_keeps found grant produced

theorem returned_keeps (found : held address = some block) (grant : Option Grant)
    (produced : Option Bytes) : (returned held grant produced).2 address = some block := by
  cases produced with
  | none => exact found
  | some bytes => exact given_keeps found grant bytes

theorem cipherValue_keeps (found : held address = some block)
    (cipher : Bytes → Key → Header → Option Bytes) (grant : Option Grant) (key : Pointer)
    (args : WireArgs) : (cipherValue held cipher grant key args).2 address = some block := by
  rw [cipherValue]
  split_ifs
  · exact found
  · exact returned_keeps found grant _

theorem padValue_keeps (found : held address = some block) (padding : Bytes → Option Bytes)
    (grant : Option Grant) (data : Pointer) (len : UInt32) (outLen : Bool) :
    (padValue held padding grant data len outLen).2 address = some block := by
  rw [padValue]
  split_ifs
  · exact found
  · exact returned_keeps found grant _

theorem cleared_keeps (found : held address = some block) {pointer : Pointer}
    (other : pointer.buffer ≠ some address) (len : UInt32) :
    cleared held pointer len address = some block := by
  unfold cleared
  split
  · split_ifs
    · exact found
    · exact (Function.update_of_ne (fun same => other (congrArg some same.symm)) ..).trans found
  · exact found

theorem dropped_keeps (found : held address = some block) {pointer : Pointer}
    (other : pointer.buffer ≠ some address) : dropped held pointer address = some block := by
  unfold dropped
  split
  · exact (Function.update_of_ne (fun same => other (congrArg some same.symm)) ..).trans found
  · exact found

theorem NativeStep.value_keeps (step : NativeStep) (found : v.held address = some block)
    (spared : step.call.target ≠ some address) :
    (step.value P v).2.held address = some block := by
  obtain ⟨call, grant⟩ := step
  cases call with
  | session op => exact found
  | allocateNativeBuffer size => exact given_keeps found grant _
  | releaseNativeBuffer pointer len =>
    exact dropped_keeps found spared
  | deriveMessageKey epoch msgSeq => exact given_keeps found grant _
  | encryptMessage key args => exact cipherValue_keeps found _ grant key args
  | decryptMessage key args => exact cipherValue_keeps found _ grant key args
  | decryptWithAutoCommit args didCommit =>
    change (openedValue P grant args didCommit v).2.held address = some block
    rw [openedValue]
    split_ifs
    · exact found
    · exact returned_keeps found grant _
  | zeroizeKey pointer len =>
    exact cleared_keeps found spared len
  | addTailPadding data len outLen draw noise => exact padValue_keeps found _ grant data len outLen
  | stripTailPadding data len outLen => exact padValue_keeps found _ grant data len outLen

end Frame

end Calls

end SecureCore.NativeHeap
