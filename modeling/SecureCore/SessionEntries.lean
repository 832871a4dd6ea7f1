import SecureCore.KemExport
import SecureCore.NativeHeap
import SecureCore.SymbolicPrimitives

/-! The session entry points of `lib.rs`, with their argument checks and their accesses to
the memory of the host. A host that passes pointers to as many bytes as it says causes
no fault, and a run of entry points is then a run of the operations behind them: those
of the calls that pass their checks, on the bytes the pointers led to. -/

namespace SecureCore.SessionEntries

open AtomicProgram BlockHeap ByteImage NativeHeap

def mlKemPkLen : UInt32 := 1568

def mlKemSkLen : UInt32 := 3168

/-- `copy_nonoverlapping` to a pointer of the host. What it leaves in the host's own
memory is not recorded. -/
def deposit (out : Pointer) (data : Bytes) : HeapM Unit :=
  match out with
  | .null => throw .unallocated
  | .own memory => if data.length ≤ memory.length then pure () else throw .outOfBounds
  | .native address offset => store address offset data

/-- `buf[..data.len()].copy_from_slice(data)` on a vector of `size` zeros. The slice
panics when the data is longer. -/
def fill (size : Nat) (data : Bytes) : HeapM Bytes :=
  if data.length ≤ size then pure (splice (List.replicate size 0) 0 data)
  else throw .outOfBounds

section Source

variable (P : Primitives)

def initRootState (a : Pointer) (aLen : UInt32) (b : Pointer) (bLen : UInt32) (pk : Pointer)
    (pkLen : UInt32) : ProcessM UInt32 :=
  if a.isNull || b.isNull || aLen == 0 || bLen == 0 then pure 1
  else do
    let alice ← onHeap (fetch a aLen.toNat)
    let bob ← onHeap (fetch b bLen.toNat)
    let bobPk ← onHeap (if pk.isNull || pkLen == 0 then pure [] else fetch pk pkLen.toNat)
    onSession (InitModule.initialiseRootState P alice bob bobPk)

def evolutionGenerateBobKeypair (coins : Bytes) (outPk : Pointer) (pkCap : UInt32)
    (outSk : Pointer) (skCap : UInt32) : ProcessM UInt32 :=
  if outPk.isNull || outSk.isNull || pkCap < mlKemPkLen || skCap < mlKemSkLen then pure 1
  else do
    let pk ← onHeap (fill mlKemPkLen.toNat (P.keypair coins).1)
    let sk ← onHeap (fill mlKemSkLen.toNat (P.keypair coins).2)
    let r ← onSession (Evolution.generateBobKeypair P coins)
    onHeap (if r = 0 then do deposit outPk pk; deposit outSk sk else pure ())
    pure r

def evolutionSetPeerPublicKey (pk : Pointer) (pkLen : UInt32) : ProcessM UInt32 :=
  if pk.isNull || pkLen == 0 then pure 1
  else do
    let key ← onHeap (fetch pk pkLen.toNat)
    onSession (Evolution.setPeerPublicKey P key)
    pure 0

def startEvolution (coins : Bytes) : ProcessM UInt32 :=
  onSession (Evolution.startEvolution P coins)

def kemCipherLen : ProcessM UInt32 := do
  let length ← onSession Evolution.kemCipherLen
  pure (UInt32.ofNat length)

/-- Both a refusal and a ciphertext of one byte are reported as 1. -/
def getKemCipher (out : Pointer) (cap : UInt32) : ProcessM UInt32 :=
  if out.isNull || cap == 0 then pure 1
  else do
    let buf ← onSession (Evolution.getKemCipher cap.toNat)
    if buf.length = 0 then pure 1
    else do
      onHeap (deposit out buf)
      pure (UInt32.ofNat buf.length)

def applyPeerKem (ct : Pointer) (ctLen : UInt32) : ProcessM UInt32 :=
  if ct.isNull || ctLen == 0 then pure 1
  else do
    let kemCt ← onHeap (fetch ct ctLen.toNat)
    onSession (Evolution.applyPeerKem P kemCt)

def commitEvolution : ProcessM UInt32 := onSession RootState.commitEvolution

def recoverAfterLoss (targetEpoch : UInt32) : ProcessM UInt32 :=
  onSession (AntiDos.recoverAfterLoss P targetEpoch)

def getEpochId : ProcessM UInt32 := onSession RootState.readEpochId

end Source

inductive Entry where
  | initRootState (a : Pointer) (aLen : UInt32) (b : Pointer) (bLen : UInt32) (pk : Pointer)
      (pkLen : UInt32)
  | evolutionGenerateBobKeypair (coins : Bytes) (outPk : Pointer) (pkCap : UInt32)
      (outSk : Pointer) (skCap : UInt32)
  | evolutionSetPeerPublicKey (pk : Pointer) (pkLen : UInt32)
  | startEvolution (coins : Bytes)
  | kemCipherLen
  | getKemCipher (out : Pointer) (cap : UInt32)
  | applyPeerKem (ct : Pointer) (ctLen : UInt32)
  | commitEvolution
  | recoverAfterLoss (targetEpoch : UInt32)
  | getEpochId

def Entry.program (P : Primitives) : Entry → ProcessM UInt32
  | .initRootState a aLen b bLen pk pkLen => SessionEntries.initRootState P a aLen b bLen pk pkLen
  | .evolutionGenerateBobKeypair coins outPk pkCap outSk skCap =>
    SessionEntries.evolutionGenerateBobKeypair P coins outPk pkCap outSk skCap
  | .evolutionSetPeerPublicKey pk pkLen => SessionEntries.evolutionSetPeerPublicKey P pk pkLen
  | .startEvolution coins => SessionEntries.startEvolution P coins
  | .kemCipherLen => SessionEntries.kemCipherLen
  | .getKemCipher out cap => SessionEntries.getKemCipher out cap
  | .applyPeerKem ct ctLen => SessionEntries.applyPeerKem P ct ctLen
  | .commitEvolution => SessionEntries.commitEvolution
  | .recoverAfterLoss targetEpoch => SessionEntries.recoverAfterLoss P targetEpoch
  | .getEpochId => SessionEntries.getEpochId

def entryRun (P : Primitives) : List Entry → ProcessM (List UInt32)
  | [] => pure []
  | entry :: entries => do
    let status ← entry.program P
    let statuses ← entryRun P entries
    pure (status :: statuses)

/-! The same calls as operations of the session on the bytes behind the pointers. -/

section Values

variable (held : Blocks)

def passed (pointer : Pointer) (len : UInt32) : Bytes := (pointer.value held).take len.toNat

/-- The operation a call performs, unless its argument checks refuse it. -/
def Entry.operation : Entry → Option SessionOp
  | .initRootState a aLen b bLen pk pkLen =>
    if a.isNull || b.isNull || aLen == 0 || bLen == 0 then none
    else some (.initialiseRootState (passed held a aLen) (passed held b bLen)
      (passed held pk pkLen))
  | .evolutionGenerateBobKeypair coins outPk pkCap outSk skCap =>
    if outPk.isNull || outSk.isNull || pkCap < mlKemPkLen || skCap < mlKemSkLen then none
    else some (.generateBobKeypair coins)
  | .evolutionSetPeerPublicKey pk pkLen =>
    if pk.isNull || pkLen == 0 then none else some (.setPeerPublicKey (passed held pk pkLen))
  | .startEvolution coins => some (.startEvolution coins)
  | .kemCipherLen => some .kemCipherLen
  | .getKemCipher out cap =>
    if out.isNull || cap == 0 then none else some (.getKemCipher cap.toNat)
  | .applyPeerKem ct ctLen =>
    if ct.isNull || ctLen == 0 then none else some (.applyPeerKem (passed held ct ctLen))
  | .commitEvolution => some .commitEvolution
  | .recoverAfterLoss targetEpoch => some (.recoverAfterLoss targetEpoch)
  | .getEpochId => some .getEpochId

def status : Reply → UInt32
  | .code value => value
  | .length value => UInt32.ofNat value
  | .bytes value => if value.length = 0 then 1 else UInt32.ofNat value.length
  | _ => 0

def written (out : Pointer) (data : Bytes) : Blocks :=
  match out with
  | .native address offset =>
    Function.update held address (some (splice ((held address).getD []) offset data))
  | _ => held

def vector (size : UInt32) (key : Bytes) : Bytes := splice (List.replicate size.toNat 0) 0 key

def Entry.output (P : Primitives) (reply : Reply) : Entry → Blocks
  | .evolutionGenerateBobKeypair coins outPk _ outSk _ =>
    written (written held outPk (vector mlKemPkLen (P.keypair coins).1)) outSk
      (vector mlKemSkLen (P.keypair coins).2)
  | .getKemCipher out _ =>
    match reply with
    | .bytes data => if data.length = 0 then held else written held out data
    | _ => held
  | _ => held

end Values

def Entry.value (P : Primitives) (entry : Entry) (v : View) : UInt32 × View :=
  match entry.operation v.held with
  | none => (1, v)
  | some op => (status (op.exec P v.session).1,
      ⟨(op.exec P v.session).2, entry.output v.held P (op.exec P v.session).1⟩)

def entryValues (P : Primitives) : List Entry → View → List UInt32 × View
  | [], v => ([], v)
  | entry :: entries, v =>
    ((entry.value P v).1 :: (entryValues P entries (entry.value P v).2).1,
      (entryValues P entries (entry.value P v).2).2)

def performed (P : Primitives) : List Entry → View → List SessionOp
  | [], _ => []
  | entry :: entries, v =>
    (entry.operation v.held).toList ++ performed P entries (entry.value P v).2

/-- Every pointer leads to as many bytes as are passed with it. -/
def Entry.Respects (held : Blocks) : Entry → Prop
  | .initRootState a aLen b bLen pk pkLen =>
    a.Covers held aLen.toNat ∧ b.Covers held bLen.toNat ∧ pk.Covers held pkLen.toNat
  | .evolutionGenerateBobKeypair _ outPk pkCap outSk skCap =>
    outPk.Covers held pkCap.toNat ∧ outSk.Covers held skCap.toNat
  | .evolutionSetPeerPublicKey pk pkLen => pk.Covers held pkLen.toNat
  | .getKemCipher out cap => out.Covers held cap.toNat
  | .applyPeerKem ct ctLen => ct.Covers held ctLen.toNat
  | _ => True

def Respectful (P : Primitives) : List Entry → View → Prop
  | [], _ => True
  | entry :: entries, v => entry.Respects v.held ∧ Respectful P entries (entry.value P v).2

def KeypairFits (P : Primitives) : Prop := ∀ coins : Bytes,
  (P.keypair coins).1.length ≤ mlKemPkLen.toNat ∧ (P.keypair coins).2.length ≤ mlKemSkLen.toNat

section Accesses

variable {held : Blocks} {out pointer : Pointer} {data key : Bytes}

theorem vector_length {size : UInt32} (fits : key.length ≤ size.toNat) :
    (vector size key).length = size.toNat := by
  rw [vector, splice_length (by rwa [Nat.zero_add, List.length_replicate]),
    List.length_replicate]

theorem fill_implements {size : UInt32} (fits : key.length ≤ size.toNat) :
    Implements (fill size.toNat key) held (vector size key, held) := by
  rw [fill, if_pos fits]
  exact .pure _ _

theorem deposit_implements (present : out.isNull = false) (covers : out.Covers held data.length) :
    Implements (deposit out data) held ((), written held out data) := by
  cases out with
  | null => cases present
  | own memory =>
    have hfits : data.length ≤ memory.length := covers
    rw [deposit, if_pos hfits]
    exact .pure _ _
  | native address offset =>
    obtain ⟨block, hblock, hfits⟩ := covers
    rw [deposit, written, hblock]
    exact .of_run fun released => store_ok hblock hfits

theorem written_self {address : Nat} {block : Bytes} (found : held address = some block)
    (offset : Nat) (data : Bytes) :
    written held (.native address offset) data address = some (splice block offset data) := by
  rw [written, found]
  exact Function.update_self ..

theorem covers_mono {count less : Nat} (covers : pointer.Covers held count) (le : less ≤ count) :
    pointer.Covers held less := by
  cases pointer with
  | null => trivial
  | own memory => exact le.trans covers
  | native address offset =>
    obtain ⟨block, hblock, hfits⟩ := covers
    exact ⟨block, hblock, (Nat.add_le_add_left le offset).trans hfits⟩

theorem covers_written {count : Nat} (covers : pointer.Covers held count)
    (room : out.Covers held data.length) : pointer.Covers (written held out data) count := by
  cases pointer with
  | null => trivial
  | own memory => exact covers
  | native address offset =>
    cases out with
    | null => exact covers
    | own memory => exact covers
    | native target start =>
      obtain ⟨block, hblock, hfits⟩ := covers
      obtain ⟨old, hold, hroom⟩ := room
      by_cases same : address = target
      · subst same
        rw [hblock] at hold
        cases hold
        refine ⟨splice block start data, written_self hblock start data, ?_⟩
        rwa [splice_length hroom]
      · exact ⟨block, (Function.update_of_ne same ..).trans hblock, hfits⟩

theorem optional_implements {len : UInt32} (covers : pointer.Covers held len.toNat) :
    Implements (if pointer.isNull || len == 0 then pure [] else fetch pointer len.toNat) held
      (passed held pointer len, held) := by
  by_cases missing : (pointer.isNull || len == 0) = true
  · have hempty : passed held pointer len = [] := by
      rw [Bool.or_eq_true, beq_iff_eq] at missing
      rcases missing with hnull | rfl
      · cases pointer with
        | null => exact List.take_nil
        | own | native => cases hnull
      · exact List.take_zero
    rw [if_pos missing, hempty]
    exact .pure _ _
  · rw [if_neg missing]
    rw [Bool.not_eq_true, Bool.or_eq_false_iff] at missing
    exact fetch_implements missing.1 covers

end Accesses

section Calls

variable {P : Primitives} {v : View}

theorem Entry.value_of_operation {entry : Entry} {op : SessionOp}
    (performs : entry.operation v.held = some op) :
    entry.value P v = (status (op.exec P v.session).1,
      ⟨(op.exec P v.session).2, entry.output v.held P (op.exec P v.session).1⟩) := by
  rw [Entry.value, performs]

theorem checked {refuses : Bool} {m : ProcessM UInt32} {entry : Entry} {op : SessionOp}
    (operation : entry.operation v.held = if refuses then none else some op)
    (performs : refuses = false → Realises m v (status (op.exec P v.session).1,
      ⟨(op.exec P v.session).2, entry.output v.held P (op.exec P v.session).1⟩)) :
    Realises (if refuses then pure 1 else m) v (entry.value P v) := by
  cases refuses with
  | true =>
    rw [Entry.value, operation]
    exact .pure _ _
  | false =>
    rw [Entry.value_of_operation operation]
    exact performs rfl

theorem reads {α : Type} {m : HeapM α} {a : α} (h : Implements m v.held (a, v.held)) :
    Realises (onHeap m) v (a, v) := .onHeap h

theorem performs_code {m : SessionM UInt32} {op : SessionOp}
    (h : op.program P = do pure (.code (← m))) (v : View) :
    Realises (onSession m) v
      (status (op.exec P v.session).1, { v with session := (op.exec P v.session).2 }) := by
  have hexec : op.exec P v.session = (.code (m.run v.session).1, (m.run v.session).2) := by
    rw [SessionOp.exec, h]
    simp
  rw [hexec]
  exact .onSession m v

theorem initRootState_realises {a b pk : Pointer} {aLen bLen pkLen : UInt32}
    (respects : Entry.Respects v.held (.initRootState a aLen b bLen pk pkLen)) :
    Realises (initRootState P a aLen b bLen pk pkLen) v
      (Entry.value P (.initRootState a aLen b bLen pk pkLen) v) := by
  obtain ⟨ha, hb, hpk⟩ := respects
  refine checked rfl fun passes => ?_
  simp only [Bool.or_eq_false_iff] at passes
  obtain ⟨⟨⟨hnullA, hnullB⟩, -⟩, -⟩ := passes
  exact (reads (fetch_implements hnullA ha)).bind ((reads (fetch_implements hnullB hb)).bind
    ((reads (optional_implements hpk)).bind (performs_code rfl v)))

theorem evolutionGenerateBobKeypair_realises (sized : KeypairFits P) {coins : Bytes}
    {outPk outSk : Pointer} {pkCap skCap : UInt32}
    (respects : Entry.Respects v.held
      (.evolutionGenerateBobKeypair coins outPk pkCap outSk skCap)) :
    Realises (evolutionGenerateBobKeypair P coins outPk pkCap outSk skCap) v
      (Entry.value P (.evolutionGenerateBobKeypair coins outPk pkCap outSk skCap) v) := by
  obtain ⟨hpk, hsk⟩ := respects
  obtain ⟨hpkFits, hskFits⟩ := sized coins
  refine checked rfl fun passes => ?_
  simp only [Bool.or_eq_false_iff, decide_eq_false_iff_not, UInt32.not_lt] at passes
  obtain ⟨⟨⟨hnullPk, hnullSk⟩, hpkCap⟩, hskCap⟩ := passes
  have hroomPk : outPk.Covers v.held (vector mlKemPkLen (P.keypair coins).1).length :=
    covers_mono hpk ((vector_length hpkFits).trans_le hpkCap)
  have hroomSk : outSk.Covers v.held (vector mlKemSkLen (P.keypair coins).2).length :=
    covers_mono hsk ((vector_length hskFits).trans_le hskCap)
  have hsecond := deposit_implements hnullSk (covers_written hroomSk hroomPk)
  have hcopies : Implements (do
      deposit outPk (vector mlKemPkLen (P.keypair coins).1)
      deposit outSk (vector mlKemSkLen (P.keypair coins).2)) v.held
        ((), written (written v.held outPk (vector mlKemPkLen (P.keypair coins).1)) outSk
          (vector mlKemSkLen (P.keypair coins).2)) :=
    .bind (deposit_implements hnullPk hroomPk) hsecond
  have hkeyed : Realises (onSession (Evolution.generateBobKeypair P coins)) v
      (0, { v with session := ((SessionOp.generateBobKeypair coins).exec P v.session).2 }) :=
    .onSession _ v
  exact (reads (fill_implements hpkFits)).bind ((reads (fill_implements hskFits)).bind
    (hkeyed.bind (.bind (.onHeap hcopies) (.pure _ _))))

theorem evolutionSetPeerPublicKey_realises {pk : Pointer} {pkLen : UInt32}
    (covers : pk.Covers v.held pkLen.toNat) :
    Realises (evolutionSetPeerPublicKey P pk pkLen) v
      (Entry.value P (.evolutionSetPeerPublicKey pk pkLen) v) := by
  refine checked rfl fun passes => ?_
  rw [Bool.or_eq_false_iff] at passes
  exact (reads (fetch_implements passes.1 covers)).bind (.bind (.onSession _ v) (.pure _ _))

theorem getKemCipher_length (capacity : Nat) (s : Session) :
    ((Evolution.getKemCipher capacity).run s).1.length ≤ capacity := by
  cases hcipher : s.kemCipher with
  | none => simp [Evolution.getKemCipher, hcipher]
  | some buf => simp [Evolution.getKemCipher, hcipher]

theorem getKemCipher_realises {out : Pointer} {cap : UInt32}
    (covers : out.Covers v.held cap.toNat) :
    Realises (getKemCipher out cap) v (Entry.value P (.getKemCipher out cap) v) := by
  refine checked rfl fun passes => ?_
  rw [Bool.or_eq_false_iff] at passes
  have hexec : (SessionOp.getKemCipher cap.toNat).exec P v.session =
      (.bytes ((Evolution.getKemCipher cap.toNat).run v.session).1, v.session) := rfl
  have hroom : ((Evolution.getKemCipher cap.toNat).run v.session).1.length ≤ cap.toNat :=
    getKemCipher_length cap.toNat v.session
  have hread : Realises (onSession (Evolution.getKemCipher cap.toNat)) v
      (((Evolution.getKemCipher cap.toNat).run v.session).1, v) := .onSession _ v
  rw [hexec]
  generalize ((Evolution.getKemCipher cap.toNat).run v.session).1 = buf at hroom hread ⊢
  refine hread.bind ?_
  by_cases empty : buf.length = 0
  · simp only [status, Entry.output, if_pos empty]
    exact .pure _ _
  · simp only [status, Entry.output, if_neg empty]
    exact .bind (.onHeap (deposit_implements passes.1 (covers_mono covers hroom))) (.pure _ _)

theorem applyPeerKem_realises {ct : Pointer} {ctLen : UInt32}
    (covers : ct.Covers v.held ctLen.toNat) :
    Realises (applyPeerKem P ct ctLen) v (Entry.value P (.applyPeerKem ct ctLen) v) := by
  refine checked rfl fun passes => ?_
  rw [Bool.or_eq_false_iff] at passes
  exact (reads (fetch_implements passes.1 covers)).bind (performs_code rfl v)

theorem Entry.realises (sized : KeypairFits P) (entry : Entry) (respects : entry.Respects v.held) :
    Realises (entry.program P) v (entry.value P v) := by
  cases entry with
  | initRootState a aLen b bLen pk pkLen => exact initRootState_realises respects
  | evolutionGenerateBobKeypair coins outPk pkCap outSk skCap =>
    exact evolutionGenerateBobKeypair_realises sized respects
  | evolutionSetPeerPublicKey pk pkLen => exact evolutionSetPeerPublicKey_realises respects
  | startEvolution coins => exact performs_code rfl v
  | kemCipherLen => exact .bind (.onSession _ v) (.pure _ _)
  | getKemCipher out cap => exact getKemCipher_realises respects
  | applyPeerKem ct ctLen => exact applyPeerKem_realises respects
  | commitEvolution => exact performs_code rfl v
  | recoverAfterLoss targetEpoch => exact performs_code rfl v
  | getEpochId => exact performs_code rfl v

theorem entryRun_realises (sized : KeypairFits P) (entries : List Entry)
    (respectful : Respectful P entries v) :
    Realises (entryRun P entries) v (entryValues P entries v) := by
  induction entries generalizing v with
  | nil => exact .pure _ _
  | cons entry entries ih =>
    obtain ⟨hentry, hentries⟩ := respectful
    exact .bind (entry.realises sized hentry) (.bind (ih hentries) (.pure _ _))

theorem Entry.value_session (entry : Entry) (v : View) :
    (entry.value P v).2.session = v.session.after P (entry.operation v.held).toList := by
  unfold Entry.value
  cases entry.operation v.held with
  | none => rfl
  | some op => rfl

theorem entryValues_session (entries : List Entry) (v : View) :
    (entryValues P entries v).2.session = v.session.after P (performed P entries v) := by
  induction entries generalizing v with
  | nil => rfl
  | cons entry entries ih =>
    have hrest := ih (entry.value P v).2
    rw [entry.value_session] at hrest
    rw [performed, Session.after, List.foldl_append]
    exact hrest

def Entry.targets : Entry → List Nat
  | .evolutionGenerateBobKeypair _ outPk _ outSk _ => [outPk, outSk].filterMap Pointer.buffer
  | .getKemCipher out _ => [out].filterMap Pointer.buffer
  | _ => []

theorem written_keeps {held : Blocks} {out : Pointer} {address : Nat}
    (other : out.buffer ≠ some address) (data : Bytes) :
    written held out data address = held address := by
  cases out with
  | null => rfl
  | own memory => rfl
  | native target start =>
    exact Function.update_of_ne (fun same => other (congrArg some same.symm)) ..

theorem Entry.output_keeps (entry : Entry) {held : Blocks} {address : Nat}
    (spared : address ∉ entry.targets) (reply : Reply) :
    entry.output held P reply address = held address := by
  cases entry with
  | evolutionGenerateBobKeypair coins outPk pkCap outSk skCap =>
    simp only [Entry.targets, List.mem_filterMap, not_exists, not_and] at spared
    have hpk := spared outPk List.mem_cons_self
    have hsk := spared outSk (List.mem_cons_of_mem _ List.mem_cons_self)
    exact (written_keeps hsk _).trans (written_keeps hpk _)
  | getKemCipher out cap =>
    simp only [Entry.targets, List.mem_filterMap, not_exists, not_and] at spared
    cases reply with
    | bytes data =>
      rw [Entry.output]
      split_ifs
      · rfl
      · exact written_keeps (spared out List.mem_cons_self) data
    | code | length | seq | sent | opened => rfl
  | initRootState | evolutionSetPeerPublicKey | startEvolution | kemCipherLen | applyPeerKem
  | commitEvolution | recoverAfterLoss | getEpochId => rfl

theorem Entry.value_keeps (entry : Entry) {address : Nat}
    (spared : address ∉ entry.targets) :
    (entry.value P v).2.held address = v.held address := by
  unfold Entry.value
  cases entry.operation v.held with
  | none => rfl
  | some op => exact entry.output_keeps spared _

theorem entryValues_keeps (entries : List Entry) {address : Nat}
    (spared : ∀ entry ∈ entries, address ∉ entry.targets) :
    (entryValues P entries v).2.held address = v.held address := by
  induction entries generalizing v with
  | nil => rfl
  | cons entry entries ih =>
    rw [List.forall_mem_cons] at spared
    exact (ih spared.2).trans (entry.value_keeps spared.1)

end Calls

/-- For a host whose pointers lead to the bytes it says, no entry point faults. The
statuses are those of the operations behind the calls that pass their checks, and 1 for
the others; the session is that of a run of these operations; and memory changes only
where a call was told to write. -/
theorem entries_perform_operations {P : Primitives} (sized : KeypairFits P) {p : Process}
    (wiped : Wiped p.heap.released) {entries : List Entry}
    (respectful : Respectful P entries p.view) :
    ∃ p', entryRun P entries p = .ok (entryValues P entries p.view).1 p' ∧
      p'.view = (entryValues P entries p.view).2 ∧
      p'.session = p.session.after P (performed P entries p.view) ∧
      ∀ address, (∀ entry ∈ entries, address ∉ entry.targets) →
        p'.heap.blocks address = p.heap.blocks address := by
  obtain ⟨released, -, hrun⟩ := entryRun_realises sized entries respectful p.heap.released wiped
  exact ⟨_, hrun, rfl, entryValues_session entries p.view,
    fun address spared => entryValues_keeps entries spared⟩

def shortKeys : Primitives :=
  { SymbolicPrimitives.symbolic with
    keypair := fun coins => (1 :: coins.take 31, 2 :: coins.take 31) }

theorem shortKeys_fit : KeypairFits shortKeys := by
  intro coins
  have htake : (coins.take 31).length ≤ 31 := List.length_take_le ..
  have hpk : mlKemPkLen.toNat = 1568 := rfl
  have hsk : mlKemSkLen.toNat = 3168 := rfl
  rw [hpk, hsk]
  constructor <;> exact (Nat.succ_le_succ htake).trans (by decide)

def oneBuffer : Blocks := fun address => if address = 64 then some (List.replicate 40 0) else none

theorem entries_perform_operations_fetched :
    let entries : List Entry := [.evolutionSetPeerPublicKey (.own [1, 4]) 2, .startEvolution [4],
      .kemCipherLen, .getKemCipher (.native 64 0) 40, .applyPeerKem .null 33]
    ∃ p', entryRun shortKeys entries ⟨Session.fresh, ⟨oneBuffer, []⟩⟩ = .ok [0, 0, 33, 33, 1] p' ∧
      p'.session = Session.fresh.after shortKeys
        [.setPeerPublicKey [1, 4], .startEvolution [4], .kemCipherLen, .getKemCipher 40] := by
  intro entries
  have hrespectful : Respectful shortKeys entries ⟨Session.fresh, oneBuffer⟩ :=
    ⟨Nat.le_refl 2, trivial, trivial, ⟨_, rfl, Nat.le_refl 40⟩, trivial, trivial⟩
  obtain ⟨p', hrun, -, hsession, -⟩ := entries_perform_operations shortKeys_fit
    (p := ⟨Session.fresh, ⟨oneBuffer, []⟩⟩) (List.forall_mem_nil _) hrespectful
  exact ⟨p', hrun.trans (congrArg (EStateM.Result.ok · p') (by decide +kernel)), hsession⟩

section Exchange

/-- Ciphertexts are longer than the one byte a refusal looks like, and their lengths are
a `u32`. -/
def CiphertextsFit (P : Primitives) : Prop := ∀ ⦃pk coins kemCt ss : Bytes⦄,
  P.encapsulate pk coins = some (kemCt, ss) → 1 < kemCt.length ∧ kemCt.length < 2 ^ 32

def offering (coins : Bytes) (out : Pointer) (cap : UInt32) : List Entry :=
  [.startEvolution coins, .kemCipherLen, .getKemCipher out cap]

variable {P : Primitives} {v : View} {coins : Bytes} {address offset : Nat} {cap n : UInt32}

theorem toNat_ofNat_length {data : Bytes} (short : data.length < 2 ^ 32) :
    (UInt32.ofNat data.length).toNat = data.length := by
  rw [UInt32.toNat_ofNat', Nat.mod_eq_of_lt short]

theorem value_getKemCipher {s : Session} {held : Blocks} {kemCt : Bytes} {out : Pointer}
    (present : out.isNull = false) (exported : s.kemCipher = some kemCt) (nonempty : kemCt ≠ [])
    (room : cap ≠ 0) :
    let buf := kemCt.take (min kemCt.length cap.toNat)
    Entry.value P (.getKemCipher out cap) ⟨s, held⟩ =
      (UInt32.ofNat buf.length, ⟨s, written held out buf⟩) := by
  intro buf
  have hexec : (SessionOp.getKemCipher cap.toNat).exec P s = (.bytes buf, s) := by
    change (Reply.bytes ((Evolution.getKemCipher cap.toNat).run s).1, s) = _
    rw [Evolution.run_getKemCipher, exported]
  have hcap : 0 < cap.toNat := Nat.pos_of_ne_zero fun h => room (UInt32.toNat.inj h)
  have hfull : buf.length ≠ 0 := by
    have hlength := List.length_pos_of_ne_nil nonempty
    rw [List.length_take]
    omega
  have hop : Entry.operation held (.getKemCipher out cap) = some (.getKemCipher cap.toNat) :=
    if_neg (by simp [present, room])
  rw [Entry.value_of_operation hop, hexec]
  simp only [status, Entry.output, if_neg hfull]

theorem offering_delivers (ciphertexts : CiphertextsFit P)
    (statuses : (entryValues P (offering coins (.native address offset) cap) v).1 = [0, n, n]) :
    ∃ kemCt ss, P.encapsulate v.session.bobPublicKey coins = some (kemCt, ss) ∧
      ss.length = 32 ∧ n.toNat = kemCt.length ∧
      (entryValues P (offering coins (.native address offset) cap) v).2.session.kemCipher =
        some kemCt ∧
      (entryValues P (offering coins (.native address offset) cap) v).2.session.pend =
        some (Evolution.derivePendingKey P ss v.session.curr) ∧
      (entryValues P (offering coins (.native address offset) cap) v).2.held =
        written v.held (.native address offset) kemCt := by
  have hstart : status ((SessionOp.startEvolution coins).exec P v.session).1 = 0 :=
    (List.cons.inj statuses).1
  rcases Evolution.startEvolution_cases (P := P) coins v.session with
    ⟨kemCt, ss, -, henc, hwidth, hrun⟩ | ⟨code, hcode, hrun⟩
  · obtain ⟨hlong, hshort⟩ := ciphertexts henc
    have hsome : kemCt ≠ [] := List.ne_nil_of_length_pos (by omega)
    let s : Session := { v.session with
      pend := some (Evolution.derivePendingKey P ss v.session.curr), kemCipher := some kemCt }
    have hfetch : entryValues P (offering coins (.native address offset) cap) v =
        ([0, UInt32.ofNat kemCt.length,
            (Entry.value P (.getKemCipher (.native address offset) cap) ⟨s, v.held⟩).1],
          (Entry.value P (.getKemCipher (.native address offset) cap) ⟨s, v.held⟩).2) := by
      have hexec : (SessionOp.startEvolution coins).exec P v.session = (.code 0, s) := by
        rw [SessionOp.exec_startEvolution, hrun]
      have hvalue : Entry.value P (.startEvolution coins) v = (0, ⟨s, v.held⟩) := by
        simp only [Entry.value, Entry.operation, hexec, status, Entry.output]
      simp only [offering, entryValues, hvalue]
      rfl
    rw [hfetch] at statuses ⊢
    obtain ⟨-, hrest⟩ := List.cons.inj statuses
    obtain ⟨hlength, hlast⟩ := List.cons.inj hrest
    obtain ⟨hcopied, -⟩ := List.cons.inj hlast
    have hn : n.toNat = kemCt.length := by rw [← hlength, toNat_ofNat_length hshort]
    have hroom : cap ≠ 0 := by
      rintro rfl
      have hone : (1 : UInt32) = n := hcopied
      rw [← hone] at hn
      exact absurd hn (Nat.ne_of_lt hlong)
    rw [value_getKemCipher rfl rfl hsome hroom] at hcopied ⊢
    have hwhole : kemCt.take (min kemCt.length cap.toNat) = kemCt := by
      have hle : (kemCt.take (min kemCt.length cap.toNat)).length ≤ kemCt.length :=
        List.length_take_le' ..
      have hsame := congrArg UInt32.toNat hcopied
      rw [toNat_ofNat_length (by omega), hn] at hsame
      exact (List.take_sublist _ _).eq_of_length hsame
    rw [hwhole]
    exact ⟨kemCt, ss, henc, hwidth, hn, rfl, rfl, rfl⟩
  · rw [SessionOp.exec_startEvolution, hrun] at hstart
    exact absurd hstart hcode

theorem value_commitEvolution {key : Key} (pending : v.session.pend = some key) :
    Entry.value P .commitEvolution v = (0, ⟨RootState.promoted v.session key, v.held⟩) := by
  have hexec : SessionOp.commitEvolution.exec P v.session =
      (.code 0, RootState.promoted v.session key) := by
    rw [SessionOp.exec_commitEvolution, RootState.run_commitEvolution_some pending]
  rw [Entry.value_of_operation rfl, hexec]
  rfl

theorem value_applyPeerKem {pk kemCt ss : Bytes} (present : v.session.bobKeys.2 ≠ [])
    (matching : P.KemMatches pk v.session.bobKeys.2)
    (encapsulated : P.encapsulate pk coins = some (kemCt, ss)) (width : ss.length = 32)
    {ct : Pointer} (arrived : passed v.held ct n = kemCt) (nonempty : kemCt ≠ []) :
    Entry.value P (.applyPeerKem ct n) v =
      (0, { v with session := { v.session with
        pend := some (Evolution.derivePendingKey P ss v.session.curr) } }) := by
  have hchecks : ¬ (ct.isNull || n == 0) = true := by
    rw [Bool.or_eq_true, beq_iff_eq]
    rintro (hnull | rfl)
    · cases ct with
      | null => exact nonempty (arrived.symm.trans List.take_nil)
      | own | native => cases hnull
    · exact nonempty (arrived.symm.trans List.take_zero)
  have hop : Entry.operation v.held (.applyPeerKem ct n) = some (.applyPeerKem kemCt) := by
    rw [Entry.operation, if_neg hchecks, arrived]
  rw [Entry.value_of_operation hop, SessionOp.exec_applyPeerKem,
    KemExport.applyPeerKem_of_matches matching present encapsulated width]
  rfl

/-- A key evolution through the entry points: one process starts it and has its ciphertext
copied to a buffer. If both lengths it is told agree, the buffer holds the whole
ciphertext. These bytes, passed from wherever to a process with the same root and the
matching secret key, are accepted there, and both processes commit to the same new
root. -/
theorem evolution_crosses_entries {P : Primitives} (sized : KeypairFits P)
    (ciphertexts : CiphertextsFit P) {alice alice' bob : Process}
    (wiped : Wiped alice.heap.released) (wiped' : Wiped bob.heap.released)
    (agree : bob.session.curr = alice.session.curr) (present : bob.session.bobKeys.2 ≠ [])
    (matching : P.KemMatches alice.session.bobPublicKey bob.session.bobKeys.2)
    {coins : Bytes} {address offset : Nat} {cap n : UInt32}
    (covers : (Pointer.native address offset).Covers alice.heap.blocks cap.toNat)
    (offers : entryRun P (offering coins (.native address offset) cap) alice = .ok [0, n, n] alice')
    {ct : Pointer} (arrives : ct.Covers bob.heap.blocks n.toNat)
    (carried : passed bob.heap.blocks ct n = passed alice'.heap.blocks (.native address offset) n) :
    alice'.session.kemCipher = some (passed alice'.heap.blocks (.native address offset) n) ∧
    ∃ committed bob', entryRun P [.commitEvolution] alice' = .ok [0] committed ∧
      entryRun P [.applyPeerKem ct n, .commitEvolution] bob = .ok [0, 0] bob' ∧
      bob'.session.curr = committed.session.curr ∧
      some committed.session.curr = alice'.session.pend := by
  have hrespectful : Respectful P (offering coins (.native address offset) cap) alice.view :=
    ⟨trivial, trivial, covers, trivial⟩
  obtain ⟨released, hreleased, hrun⟩ :=
    entryRun_realises sized _ hrespectful alice.heap.released wiped
  obtain ⟨hstatuses, hstate⟩ := EStateM.Result.ok.inj (offers.symm.trans hrun)
  obtain ⟨kemCt, ss, henc, hwidth, hn, hcipher, hpend, hheld⟩ :=
    offering_delivers ciphertexts hstatuses.symm
  have hlong := (ciphertexts henc).1
  have hsome : kemCt ≠ [] := List.ne_nil_of_length_pos (by omega)
  have hbuffer : passed alice'.heap.blocks (.native address offset) n = kemCt := by
    obtain ⟨block, hblock, -⟩ := covers
    have hblock' : alice'.heap.blocks address = some (splice block offset kemCt) := by
      rw [hstate]
      exact (congrFun hheld address).trans (written_self hblock offset kemCt)
    rw [passed, Pointer.value, hblock', hn]
    exact slice_splice_self
  have hexported : alice'.session.kemCipher = some kemCt := by
    rw [hstate]
    exact hcipher
  have hpassed : passed bob.heap.blocks ct n = kemCt := carried.trans hbuffer
  have hpending : alice'.session.pend =
      some (Evolution.derivePendingKey P ss alice.session.curr) := by
    rw [hstate]
    exact hpend
  have hwiped : Wiped alice'.heap.released := by
    rw [hstate]
    exact hreleased
  have hcommit := value_commitEvolution (P := P) (v := alice'.view) hpending
  have hreceived := value_applyPeerKem (v := bob.view) present matching henc hwidth hpassed hsome
  obtain ⟨committed, -, hcommitted⟩ := entryRun_realises (v := alice'.view) sized
    [.commitEvolution] ⟨trivial, trivial⟩ alice'.heap.released hwiped
  obtain ⟨followed, -, hfollowed⟩ := entryRun_realises (v := bob.view) sized
    [.applyPeerKem ct n, .commitEvolution] ⟨arrives, trivial, trivial⟩ bob.heap.released wiped'
  simp only [entryValues, hcommit] at hcommitted
  simp only [entryValues, hreceived] at hfollowed
  refine ⟨by rw [hexported, hbuffer], _, _, hcommitted, hfollowed, ?_, hpending.symm⟩
  exact congrArg (Evolution.derivePendingKey P ss) agree

theorem shortKeys_ciphertexts : CiphertextsFit shortKeys := by
  intro pk coins kemCt ss encapsulated
  change (if pk.isEmpty then none else some (3 :: SymbolicPrimitives.fit32 coins,
    SymbolicPrimitives.fit32 coins)) = some (kemCt, ss) at encapsulated
  split_ifs at encapsulated
  cases encapsulated
  rw [List.length_cons, SymbolicPrimitives.fit32_length]
  decide

def offeringProcess : Process :=
  ⟨{ Session.fresh with bobPublicKey := [1, 4], peerPkHash := shortKeys.sha256 [1, 4] },
    ⟨oneBuffer, []⟩⟩

def receivingProcess : Process :=
  ⟨{ Session.fresh with bobKeys := ([1, 4], [2, 4]) }, ⟨fun _ => none, []⟩⟩

theorem evolution_crosses_entries_sent :
    ∃ alice' committed bob',
      entryRun shortKeys (offering [4] (.native 64 0) 40) offeringProcess =
        .ok [0, 33, 33] alice' ∧
      entryRun shortKeys [.commitEvolution] alice' = .ok [0] committed ∧
      entryRun shortKeys [.applyPeerKem (.own (3 :: SymbolicPrimitives.fit32 [4])) 33,
        .commitEvolution] receivingProcess = .ok [0, 0] bob' ∧
      bob'.session.curr = committed.session.curr := by
  -- The ciphertext travels from the buffer to memory of the other host.
  have hcovers : (Pointer.native 64 0).Covers oneBuffer (40 : UInt32).toNat :=
    ⟨_, rfl, Nat.le_refl 40⟩
  obtain ⟨released, -, hrun⟩ := entryRun_realises (v := offeringProcess.view) shortKeys_fit
    (offering [4] (.native 64 0) 40) ⟨trivial, trivial, hcovers, trivial⟩ [] (List.forall_mem_nil _)
  have hstatuses : (entryValues shortKeys (offering [4] (.native 64 0) 40)
      offeringProcess.view).1 = [0, 33, 33] := by decide +kernel
  rw [hstatuses] at hrun
  have hcarried : passed receivingProcess.heap.blocks
      (.own (3 :: SymbolicPrimitives.fit32 [4])) 33 =
        passed (entryValues shortKeys (offering [4] (.native 64 0) 40) offeringProcess.view).2.held
          (.native 64 0) 33 := by decide +kernel
  have hwiped : Wiped offeringProcess.heap.released := List.forall_mem_nil _
  have hwiped' : Wiped receivingProcess.heap.released := List.forall_mem_nil _
  have hagree : receivingProcess.session.curr = offeringProcess.session.curr := rfl
  have hpresent : receivingProcess.session.bobKeys.2 ≠ [] := by decide
  have hmatching : shortKeys.KemMatches offeringProcess.session.bobPublicKey
      receivingProcess.session.bobKeys.2 :=
    fun _ _ _ encapsulated => SymbolicPrimitives.symbolic_kemMatches hpresent [1, 4] encapsulated
  have harrives : (Pointer.own (3 :: SymbolicPrimitives.fit32 [4])).Covers
      receivingProcess.heap.blocks (33 : UInt32).toNat := Nat.le_refl 33
  obtain ⟨-, committed, bob', hcommit, hfollow, hsame, -⟩ :=
    evolution_crosses_entries shortKeys_fit shortKeys_ciphertexts hwiped hwiped' hagree hpresent
      hmatching hcovers hrun harrives hcarried
  exact ⟨_, committed, bob', hrun, hcommit, hfollow, hsame⟩

end Exchange

end SecureCore.SessionEntries
