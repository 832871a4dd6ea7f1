import SecureCore.BlockStore
import SecureCore.CheckedArithmetic
import SecureCore.Recovery
import SecureCore.VaultEntries

/-! `read_vault_blocks` and `write_vault_blocks` with their buffers: a run of blocks
is copied out of the vault or into it, up to the first block that fails. The sum
`start + i`, the count and the slices of the buffers are checked here, as in a
build with overflow checks; the loops of the vault's entries leave these checks
out, and both agree. A `usize` has 64 bits, so the products `i * ps` fit. A buffer
is what the pointer and `n` describe; null pointers and the process without a vault
are left to the caller. -/

namespace SecureCore.BatchTransfer

open VirtualVolume FaultyFile FallibleState VaultEntries CheckedArithmetic ByteImage
open FallibleState (bind_ok bind_error)

def panicked (panic : Panic) : Failure := .panic panic.message

section Source

variable (V : VaultPrimitives)

/-- `out[i * ps..(i + 1) * ps].copy_from_slice(&buf)`. -/
def copyOut (out : Bytes) (i : Nat) (buf : Exactly payloadSize) : Checked Bytes := do
  let _ ← range out (i * payloadSize) ((i + 1) * payloadSize)
  pure (splice out (i * payloadSize) buf)

def copyIn (data : Bytes) (i : Nat) : VolumeM (Exactly payloadSize) := do
  let bytes ← orFail panicked (range data (i * payloadSize) ((i + 1) * payloadSize))
  if h : bytes.length = payloadSize then pure ⟨bytes, h⟩
  else throw (.panic "source slice length does not match destination slice length")

/-- The loop of `read_vault_blocks` from `i` on, with `c` blocks copied so far. -/
def readLoop (start : Nat) : (remaining i c : Nat) → (out : Bytes) → VolumeM (Nat × Bytes)
  | 0, _, c, out => pure (c, out)
  | remaining + 1, i, c, out => do
    let blockIdx ← orFail panicked (add 64 start i)
    match ← attempt (readBlock V blockIdx) with
    | none => pure (c, out)
    | some buf => do
      let out ← orFail panicked (copyOut out i buf)
      let c ← orFail panicked (add 32 c 1)
      readLoop start remaining (i + 1) c out

def readVaultBlocks (start : UInt64) (n : UInt32) (out : Bytes) : VolumeM (Nat × Bytes) :=
  if n = 0 then pure (0, out) else readLoop V start.toNat n.toNat 0 0 out

def writeLoop (start : Nat) (data : Bytes) (nonces : Nat → Exactly nonceSize) :
    (remaining i c : Nat) → VolumeM Nat
  | 0, _, c => pure c
  | remaining + 1, i, c => do
    let buf ← copyIn data i
    let blockIdx ← orFail panicked (add 64 start i)
    match ← attempt (writeBlock V blockIdx buf (nonces i)) with
    | none => pure c
    | some () => do
      let c ← orFail panicked (add 32 c 1)
      writeLoop start data nonces remaining (i + 1) c

def writeVaultBlocks (start : UInt64) (n : UInt32) (data : Bytes)
    (nonces : Nat → Exactly nonceSize) : VolumeM Nat :=
  if n = 0 then pure 0 else writeLoop V start.toNat data nonces n.toNat 0 0

end Source

def joined (payloads : List (Exactly payloadSize)) : Bytes :=
  (payloads.map Subtype.val).flatten

def ChachaSized (V : VaultPrimitives) : Prop :=
  ∀ ⦃key nonce ct pt : Bytes⦄, V.chachaDecrypt key nonce ct = some pt → pt.length = ct.length - 16

def ChachaSeals (V : VaultPrimitives) : Prop :=
  ∀ (key nonce : Bytes) (payload : Exactly payloadSize),
    (V.chachaEncrypt key nonce payload).isSome

/-- The blocks from `start` on, at most `n`, that can be read one after the other. -/
structure Longest (V : VaultPrimitives) (v : Volume) (start n : Nat)
    (payloads : List (Exactly payloadSize)) : Prop where
  le : payloads.length ≤ n
  reads : ∀ (j : Nat) (payload : Exactly payloadSize),
    payloads[j]? = some payload → readable V v (start + j) = some payload
  stops : payloads.length < n → readable V v (start + payloads.length) = none

def drafted (nonces : Nat → Exactly nonceSize) :
    (i : Nat) → List (Exactly payloadSize) → List Draft
  | _, [] => []
  | i, payload :: payloads => ⟨payload, nonces i⟩ :: drafted nonces (i + 1) payloads

def writable (v : Volume) (start n : Nat) : Nat :=
  if v.inRange start then min n (v.totalBlocks - start) else 0

/-- The drafts are sealed in the blocks from `start` on. Every other byte of the file is
as before, and a container that holds all its blocks keeps its length. -/
structure Stored (V : VaultPrimitives) (start : Nat) (drafts : List Draft) (v w : Volume) :
    Prop where
  ready : Ready w.file
  key : w.masterKey = v.masterKey
  blocks : w.totalBlocks = v.totalBlocks
  memory : w.blockBitmap = v.blockBitmap ∧ w.freeBlocks = v.freeBlocks
  sealed : ∀ (j : Nat) (draft : Draft), drafts[j]? = some draft → ∃ ciphertext,
    V.chachaEncrypt (deriveBlockKey V v.masterKey (start + j)) draft.nonce draft.payload =
      some ciphertext ∧
    w.blockAt (start + j) = draft.nonce ++ ciphertext ∧
    (start + j) * blockSize + blockSize ≤ w.file.bytes.length
  others : ∀ position < v.file.bytes.length,
    position < start * blockSize ∨ (start + drafts.length) * blockSize ≤ position →
    w.file.bytes[position]? = v.file.bytes[position]?
  grows : v.file.bytes.length ≤ w.file.bytes.length
  whole : v.totalBlocks * blockSize ≤ v.file.bytes.length →
    w.file.bytes.length = v.file.bytes.length

section Buffers

variable {payloads before behind : List (Exactly payloadSize)} {payload : Exactly payloadSize}

theorem joined_length (payloads : List (Exactly payloadSize)) :
    (joined payloads).length = payloads.length * payloadSize := by
  induction payloads with
  | nil => rfl
  | cons payload payloads ih =>
    rw [joined, List.map_cons, List.flatten_cons, List.length_append, payload.property]
    change payloadSize + (joined payloads).length = _
    rw [ih, List.length_cons, Nat.add_mul, Nat.one_mul, Nat.add_comm]

theorem joined_cons (payload : Exactly payloadSize) (payloads : List (Exactly payloadSize)) :
    joined (payload :: payloads) = payload.val ++ joined payloads := rfl

theorem joined_append (before behind : List (Exactly payloadSize)) :
    joined (before ++ behind) = joined before ++ joined behind := by
  rw [joined, List.map_append, List.flatten_append]
  rfl

theorem copyIn_ok (v : Volume) :
    copyIn (joined (before ++ payload :: behind)) before.length v = .ok payload v := by
  have hlength : (joined (before ++ payload :: behind)).length =
      before.length * payloadSize + (behind.length + 1) * payloadSize := by
    rw [joined_length, List.length_append, Nat.add_mul, List.length_cons]
  have hrange : range (joined (before ++ payload :: behind)) (before.length * payloadSize)
      ((before.length + 1) * payloadSize) = .ok payload.val := by
    rw [range_ok (by rw [Nat.add_mul]; omega) (by rw [hlength, Nat.add_mul, Nat.add_mul]; omega),
      joined_append, joined_cons, ← joined_length, List.drop_left, joined_length, Nat.add_mul,
      Nat.one_mul, Nat.add_sub_cancel_left, List.take_left' payload.property]
  rw [copyIn, bind_ok (orFail_ok hrange panicked v), dif_pos payload.property]
  rfl

theorem copyOut_ok {out : Bytes} {i : Nat} (fits : (i + 1) * payloadSize ≤ out.length)
    (buf : Exactly payloadSize) : copyOut out i buf = .ok (splice out (i * payloadSize) buf) := by
  rw [copyOut, CheckedArithmetic.bind_ok (range_ok (by rw [Nat.add_mul]; omega) fits)]
  rfl

end Buffers

section Failures

variable {V : VaultPrimitives} {α : Type}

theorem onFile_plainly {m : FileM α} (h : FailsPlainly m) : FailsPlainly (onFile m) := by
  intro v _
  have hfile := h v.file trivial
  cases hrun : m v.file with
  | ok a f =>
    rw [onFile_ok hrun]
    trivial
  | error e f =>
    rw [hrun] at hfile
    rw [onFile_error hrun]
    exact hfile

theorem checkDataBlock_plainly (blockIdx : Nat) : FailsPlainly (checkDataBlock blockIdx) := by
  refine .bind .get fun v => ?_
  split_ifs
  · exact .raised (by decide)
  · exact fun _ _ => trivial

theorem fetch_plainly (count : Nat) :
    Spec (fun _ => True) (onFile (readExact count)) (fun raw _ => raw.length = count)
      (fun e _ => e.Plain) := by
  intro v _
  have hplain := FailsPlainly.readExact count v.file trivial
  cases hrun : readExact count v.file with
  | ok raw f =>
    obtain ⟨rfl, hfits, -⟩ := ok_of_readExact hrun
    rw [onFile_ok hrun]
    exact slice_length hfits
  | error e f =>
    rw [hrun] at hplain
    rw [onFile_error hrun]
    exact hplain

theorem copyPlaintext_plainly {decrypted : Option Bytes}
    (length : ∀ plaintext ∈ decrypted, plaintext.length = payloadSize) :
    FailsPlainly (copyPlaintext decrypted) := by
  cases decrypted with
  | none => exact .raised (by decide)
  | some plaintext =>
    rw [copyPlaintext, dif_pos (length plaintext rfl)]
    exact fun _ _ => trivial

theorem readBlock_plainly (sized : ChachaSized V) (blockIdx : Nat) :
    FailsPlainly (readBlock V blockIdx) := by
  refine .bind (checkDataBlock_plainly _) fun _ => .bind (onFile_plainly (.seek _)) fun _ => ?_
  refine Spec.bind (fetch_plainly blockSize) fun raw => Spec.get_bind fun v => ?_
  rintro w ⟨-, hraw⟩
  refine copyPlaintext_plainly (fun plaintext hopen => ?_) w trivial
  rw [sized hopen, List.length_drop, hraw]
  rfl

theorem writeBlock_plainly (blockIdx : Nat) (payload : Exactly payloadSize)
    (nonce : Exactly nonceSize) : FailsPlainly (writeBlock V blockIdx payload nonce) := by
  refine .bind (checkDataBlock_plainly _) fun _ => .bind .get fun v => ?_
  dsimp only
  split
  · exact .raised (by decide)
  · exact .bind (onFile_plainly (.seek _)) fun _ => .bind (onFile_plainly (.writeAll _)) fun _ =>
      .bind (onFile_plainly (.writeAll _)) fun _ => onFile_plainly freezeTimestamps_plainly

theorem attempt_returns {m : VolumeM α} (h : FailsPlainly m) (v : Volume) :
    ∃ result w, attempt m v = .ok result w := by
  have hspec := h v trivial
  cases hrun : m v with
  | ok a w => exact ⟨some a, w, attempt_ok hrun⟩
  | error e w =>
    rw [hrun] at hspec
    cases e with
    | os code => exact ⟨none, w, attempt_os hrun⟩
    | raised kind message => exact ⟨none, w, attempt_raised hrun⟩
    | panic message => exact hspec.elim

end Failures

section Refinement

variable {V : VaultPrimitives} {v w : Volume} {start : Nat}

theorem framed_blocks (total : Nat) :
    Framed (fun _ => True) (fun v => v.totalBlocks = total) :=
  ⟨fun _ _ _ h => h, fun _ _ h _ => h, fun _ _ _ _ h => h⟩

theorem blocks_of_attempt {α : Type} {m : VolumeM α} {result : Option α}
    (keeps : Preserves (fun w => True ∧ w.totalBlocks = v.totalBlocks) m)
    (run : attempt m v = .ok result w) : w.totalBlocks = v.totalBlocks := by
  have hfinal := keeps v ⟨trivial, rfl⟩
  rw [← finalState_attempt, run] at hfinal
  exact hfinal.2

theorem inRange_of_read {blockIdx : Nat} {payload : Exactly payloadSize}
    (run : attempt (readBlock V blockIdx) v = .ok (some payload) w) : v.inRange blockIdx := by
  rcases of_attempt run with ⟨_, -, hrun⟩ | ⟨_, hnone, -⟩
  · exact (ok_of_readBlock hrun).1
  · cases hnone

theorem inRange_of_write {blockIdx : Nat} {payload : Exactly payloadSize}
    {nonce : Exactly nonceSize}
    (run : attempt (writeBlock V blockIdx payload nonce) v = .ok (some ()) w) :
    v.inRange blockIdx := by
  by_contra outside
  rw [attempt_raised (writeBlock_outside outside payload nonce)] at run
  cases run

theorem readLoop_eq (bounded : v.totalBlocks < 2 ^ 64) (start remaining i : Nat) (out : Bytes)
    (sum : start + i < 2 ^ 64) (small : i + remaining < 2 ^ 32)
    (full : out.length = (i + remaining) * payloadSize) :
    readLoop V start remaining i i out v =
      (VaultEntries.readVaultBlocks V (start + i) remaining >>= fun payloads =>
        pure (i + payloads.length, splice out (i * payloadSize) (joined payloads))) v := by
  -- A block that was read has its index in the volume, so the next sum fits, whatever calls fail.
  induction remaining generalizing i out v with
  | zero =>
    change _ = EStateM.Result.ok (i, splice out (i * payloadSize) []) v
    rw [splice_nil]
    rfl
  | succ remaining ih =>
    have hfits : (i + 1) * payloadSize ≤ out.length := by
      rw [full]
      exact Nat.mul_le_mul_right _ (by omega)
    rw [readLoop, bind_ok (orFail_ok (add_ok sum) panicked v), VaultEntries.readVaultBlocks,
      bind_assoc]
    cases hread : attempt (readBlock V (start + i)) v with
    | error e w => rw [bind_error hread, bind_error hread]
    | ok result w =>
      rw [bind_ok hread, bind_ok hread]
      cases result with
      | none =>
        change _ = EStateM.Result.ok (i, splice out (i * payloadSize) []) w
        rw [splice_nil]
        rfl
      | some payload =>
        -- the block that was read bounds the next sum
        have hrange := inRange_of_read hread
        have hblocks := blocks_of_attempt ((framed_blocks _).tolerates.readBlock _) hread
        have hnext : i * payloadSize + payload.val.length = (i + 1) * payloadSize := by
          rw [payload.property, Nat.add_mul, Nat.one_mul]
        dsimp only
        rw [bind_ok (orFail_ok (copyOut_ok hfits payload) panicked w),
          bind_ok (orFail_ok (add_ok (by omega)) panicked w),
          ih (by omega) (i + 1) _ (by have := hrange.2; omega) (by omega)
            (by rw [splice_length (by omega), full]; congr 1; omega),
          bind_assoc, ← hnext]
        refine congrFun (congrArg (VaultEntries.readVaultBlocks V (start + (i + 1)) remaining >>= ·)
          (funext fun rest => ?_)) w
        rw [pure_bind, splice_splice_adjacent, joined_cons, List.length_cons, Nat.add_assoc i 1,
          Nat.add_comm 1]

theorem writeLoop_eq (bounded : v.totalBlocks < 2 ^ 64) (start : Nat)
    (nonces : Nat → Exactly nonceSize) (before behind : List (Exactly payloadSize))
    (sum : start + before.length < 2 ^ 64) (small : before.length + behind.length < 2 ^ 32) :
    writeLoop V start (joined (before ++ behind)) nonces behind.length before.length before.length
        v =
      (VaultEntries.writeVaultBlocks V (start + before.length)
        (drafted nonces before.length behind) >>= fun k => pure (before.length + k)) v := by
  induction behind generalizing before v with
  | nil => rfl
  | cons payload behind ih =>
    rw [List.length_cons] at small
    rw [List.length_cons, writeLoop, bind_ok (copyIn_ok v),
      bind_ok (orFail_ok (add_ok sum) panicked v), drafted, VaultEntries.writeVaultBlocks,
      bind_assoc]
    dsimp only
    cases hwrite : attempt (writeBlock V (start + before.length) payload (nonces before.length)) v
      with
    | error e w => rw [bind_error hwrite, bind_error hwrite]
    | ok result w =>
      rw [bind_ok hwrite, bind_ok hwrite]
      cases result with
      | none => rfl
      | some done =>
        have hrange := inRange_of_write hwrite
        have hblocks := blocks_of_attempt ((framed_blocks _).writeBlock _ _ _) hwrite
        have hnext := ih (v := w) (by omega) (before ++ [payload])
          (by rw [List.length_append, List.length_singleton]; have := hrange.2; omega)
          (by rw [List.length_append, List.length_singleton]; omega)
        rw [List.append_assoc, List.singleton_append, List.length_append, List.length_singleton]
          at hnext
        dsimp only
        rw [bind_ok (orFail_ok (add_ok (by omega)) panicked w), hnext, bind_assoc]
        refine congrFun (congrArg (VaultEntries.writeVaultBlocks V (start + (before.length + 1))
          (drafted nonces (before.length + 1) behind) >>= ·) (funext fun k => ?_)) w
        rw [pure_bind, Nat.add_assoc, Nat.add_comm 1]

end Refinement

section Reading

variable {V : VaultPrimitives} {v : Volume}

theorem attempt_readBlock (sized : ChachaSized V) (ready : Ready v.file) (blockIdx : Nat) :
    ∃ position, attempt (readBlock V blockIdx) v =
      .ok (readable V v blockIdx) (v.moved position) := by
  obtain ⟨result, w, hrun⟩ := attempt_returns (readBlock_plainly sized blockIdx) v
  obtain ⟨position, hmoved⟩ := readBlock_moves (V := V) ready blockIdx
  refine ⟨position, ?_⟩
  rw [readable, Volume.facing_self ready.healthy]
  rcases of_attempt hrun with ⟨payload, rfl, hread⟩ | ⟨failure, rfl, hread⟩
  · rw [hrun, hread, ← hmoved, hread]
    rfl
  · rw [hrun, hread, ← hmoved, hread]
    rfl

theorem readable_moved (ready : Ready v.file) (position blockIdx : Nat) :
    readable V (v.moved position) blockIdx = readable V v blockIdx :=
  readable_congr ready.present ready.present rfl rfl rfl

theorem Longest.of_moved (ready : Ready v.file) {position start n : Nat}
    {payloads : List (Exactly payloadSize)} (h : Longest V (v.moved position) start n payloads) :
    Longest V v start n payloads where
  le := h.le
  reads j payload hj := (readable_moved ready position _).symm.trans (h.reads j payload hj)
  stops hlt := (readable_moved ready position _).symm.trans (h.stops hlt)

theorem Longest.nil {start n : Nat} (stop : n ≠ 0 → readable V v start = none) :
    Longest V v start n [] where
  le := Nat.zero_le n
  reads j payload hj := by cases hj
  stops hlt := stop (Nat.ne_of_gt hlt)

theorem Longest.cons {start n : Nat} {payload : Exactly payloadSize}
    {payloads : List (Exactly payloadSize)} (read : readable V v start = some payload)
    (h : Longest V v (start + 1) n payloads) :
    Longest V v start (n + 1) (payload :: payloads) where
  le := Nat.succ_le_succ h.le
  reads j other hj := by
    cases j with
    | zero =>
      cases hj
      exact read
    | succ j =>
      rw [← Nat.add_assoc, Nat.add_right_comm]
      exact h.reads j other hj
  stops hlt := by
    rw [List.length_cons, ← Nat.add_assoc, Nat.add_right_comm]
    exact h.stops (Nat.lt_of_succ_lt_succ hlt)

theorem Longest.eq_of_reads {start : Nat} {payloads held : List (Exactly payloadSize)}
    (h : Longest V v start held.length payloads)
    (reads : ∀ (j : Nat) (payload : Exactly payloadSize),
      held[j]? = some payload → readable V v (start + j) = some payload) :
    payloads = held := by
  have hlength : payloads.length = held.length := by
    by_contra hne
    have hlt := Nat.lt_of_le_of_ne h.le hne
    have hread := reads payloads.length _ (List.getElem?_eq_getElem hlt)
    rw [h.stops hlt] at hread
    cases hread
  refine List.ext_getElem hlength fun j hj hj' => ?_
  have hread := h.reads j _ (List.getElem?_eq_getElem hj)
  rw [reads j _ (List.getElem?_eq_getElem hj')] at hread
  exact (Option.some.inj hread).symm

theorem readVaultBlocks_longest (sized : ChachaSized V) (ready : Ready v.file) (start n : Nat) :
    ∃ payloads position, VaultEntries.readVaultBlocks V start n v =
      .ok payloads (v.moved position) ∧ Longest V v start n payloads := by
  induction n generalizing start v with
  | zero => exact ⟨[], v.file.cursor, rfl, .nil fun h => absurd rfl h⟩
  | succ n ih =>
    obtain ⟨position, hread⟩ := attempt_readBlock sized ready start
    rw [VaultEntries.readVaultBlocks, bind_ok hread]
    cases hfirst : readable V v start with
    | none => exact ⟨[], position, rfl, .nil fun _ => hfirst⟩
    | some payload =>
      obtain ⟨payloads, position', hrest, hlongest⟩ :=
        ih (v := v.moved position) (ready_moved ready position) (start + 1)
      dsimp only
      rw [bind_ok hrest]
      exact ⟨payload :: payloads, position', rfl, .cons hfirst (hlongest.of_moved ready)⟩

end Reading

section Writing

variable {V : VaultPrimitives} {v w : Volume} {start : Nat}

theorem writable_zero (v : Volume) (start : Nat) : writable v start 0 = 0 := by
  rw [writable, Nat.zero_min, ite_self]

theorem writable_succ (range : v.inRange start) (blocks : w.totalBlocks = v.totalBlocks)
    (n : Nat) : writable v start (n + 1) = writable w (start + 1) n + 1 := by
  obtain ⟨hlow, hhigh⟩ := range
  rw [writable, writable, if_pos ⟨hlow, hhigh⟩]
  split_ifs with hnext
  · omega
  · have hend : ¬ start + 1 < w.totalBlocks := fun h => hnext ⟨by omega, h⟩
    omega

theorem writable_le (v : Volume) (start n : Nat) : writable v start n ≤ n := by
  rw [writable]
  split_ifs
  · exact Nat.min_le_left _ _
  · exact Nat.zero_le n

theorem Stored.nil (ready : Ready v.file) : Stored V start [] v v where
  ready := ready
  key := rfl
  blocks := rfl
  memory := ⟨rfl, rfl⟩
  sealed j draft hj := by cases hj
  others _ _ _ := rfl
  grows := Nat.le_refl _
  whole _ := rfl

theorem Stored.single (tagged : V.ChachaTagged) (ready : Ready v.file) (range : v.inRange start)
    {draft : Draft} {ciphertext : Bytes}
    (seals : V.chachaEncrypt (deriveBlockKey V v.masterKey start) draft.nonce draft.payload =
      some ciphertext) :
    Stored V start [draft] v (v.written (start * blockSize) (draft.nonce ++ ciphertext)) := by
  have hwidth := sealed_length tagged seals
  exact {
    ready := ready_written ready _ _
    key := rfl
    blocks := rfl
    memory := ⟨rfl, rfl⟩
    sealed := fun j other hj => by
      cases j with
      | zero =>
        cases hj
        refine ⟨ciphertext, seals, blockAt_written v start hwidth, ?_⟩
        have hsome : draft.nonce.val ++ ciphertext ≠ [] :=
          List.ne_nil_of_length_pos (by rw [hwidth]; decide)
        have hcovered : _ ≤ (splice v.file.bytes (start * blockSize) _).length :=
          le_length_splice hsome
        rwa [hwidth] at hcovered
      | succ j => cases hj
    others := fun position inside outside => by
      refine getElem?_splice_outside inside ?_
      rw [hwidth]
      rwa [List.length_singleton, Nat.add_mul, Nat.one_mul] at outside
    grows := length_le_splice _ _ _
    whole := fun whole => by
      refine splice_length ?_
      rw [hwidth]
      exact range.bounds.2.trans whole }

theorem Stored.blockAt_before {drafts : List Draft} (h : Stored V start drafts v w)
    {blockIdx : Nat} (before : blockIdx < start)
    (fits : blockIdx * blockSize + blockSize ≤ v.file.bytes.length) :
    w.blockAt blockIdx = v.blockAt blockIdx := by
  have hend : blockIdx * blockSize + blockSize ≤ start * blockSize := by
    rw [← Nat.succ_mul]
    exact Nat.mul_le_mul_right _ before
  exact slice_eq_slice_iff.mpr fun k _ hk => h.others k (by omega) (Or.inl (by omega))

theorem Stored.cons {u : Volume} {draft : Draft} {drafts : List Draft}
    (first : Stored V start [draft] v u) (rest : Stored V (start + 1) drafts u w) :
    Stored V start (draft :: drafts) v w where
  ready := rest.ready
  key := rest.key.trans first.key
  blocks := rest.blocks.trans first.blocks
  memory := ⟨rest.memory.1.trans first.memory.1, rest.memory.2.trans first.memory.2⟩
  sealed j other hj := by
    cases j with
    | zero =>
      -- the later blocks lie behind the first one
      obtain ⟨ciphertext, hseal, hblock, hfits⟩ := first.sealed 0 other hj
      exact ⟨ciphertext, hseal,
        (rest.blockAt_before (Nat.lt_succ_self start) hfits).trans hblock,
        hfits.trans rest.grows⟩
    | succ j =>
      have hsealed := rest.sealed j other hj
      rwa [first.key, Nat.add_assoc, Nat.add_comm 1] at hsealed
  others position inside outside := by
    rw [List.length_cons] at outside
    have hshift : start + 1 + drafts.length = start + (drafts.length + 1) := by omega
    have hbehind : start * blockSize ≤ (start + 1) * blockSize :=
      Nat.mul_le_mul_right _ (Nat.le_succ start)
    have hwithin : (start + 1) * blockSize ≤ (start + (drafts.length + 1)) * blockSize :=
      Nat.mul_le_mul_right _ (by omega)
    rw [rest.others position (inside.trans_le first.grows) (by rw [hshift]; omega),
      first.others position inside (by rw [List.length_singleton]; omega)]
  grows := first.grows.trans rest.grows
  whole whole := by
    have hfirst := first.whole whole
    rw [rest.whole (by rw [first.blocks, hfirst]; exact whole), hfirst]

theorem writeVaultBlocks_stored (tagged : V.ChachaTagged) (seals : ChachaSeals V)
    (ready : Ready v.file) (start : Nat) (drafts : List Draft) :
    ∃ w, VaultEntries.writeVaultBlocks V start drafts v =
        .ok (writable v start drafts.length) w ∧
      Stored V start (drafts.take (writable v start drafts.length)) v w := by
  induction drafts generalizing start v with
  | nil =>
    rw [List.length_nil, writable_zero]
    exact ⟨v, rfl, .nil ready⟩
  | cons draft drafts ih =>
    by_cases range : v.inRange start
    · obtain ⟨ciphertext, hseal⟩ := Option.isSome_iff_exists.mp
        (seals (deriveBlockKey V v.masterKey start) draft.nonce draft.payload)
      have hfirst := Stored.single tagged ready range hseal
      obtain ⟨w, hrest, hstored⟩ := ih hfirst.ready (start + 1)
      rw [List.length_cons, writable_succ range hfirst.blocks, List.take_succ_cons,
        VaultEntries.writeVaultBlocks, bind_ok (attempt_ok (writeBlock_ready ready range hseal))]
      dsimp only
      rw [bind_ok hrest]
      exact ⟨w, rfl, hfirst.cons hstored⟩
    · rw [writable, if_neg range, VaultEntries.writeVaultBlocks,
        bind_ok (attempt_raised (writeBlock_outside range draft.payload draft.nonce))]
      exact ⟨v, rfl, .nil ready⟩

theorem Stored.reads (inverts : V.ChachaInverts) {drafts : List Draft}
    (h : Stored V start drafts v w) (range : ∀ j < drafts.length, v.inRange (start + j))
    {j : Nat} {draft : Draft} (hj : drafts[j]? = some draft) :
    readable V w (start + j) = some draft.payload := by
  obtain ⟨ciphertext, hseal, hblock, hfits⟩ := h.sealed j draft hj
  obtain ⟨hlt, -⟩ := List.getElem?_eq_some_iff.mp hj
  rw [readable_iff h.ready.present, hblock, h.key, Volume.inRange, h.blocks]
  refine ⟨range j hlt, hfits, ?_⟩
  rw [List.take_left' draft.nonce.property, List.drop_left' draft.nonce.property]
  exact inverts hseal

theorem inRange_of_writable {j n : Nat} (h : j < writable v start n) :
    v.inRange (start + j) := by
  rw [writable] at h
  split_ifs at h with range
  · obtain ⟨hlow, hhigh⟩ := range
    exact ⟨by omega, by omega⟩
  · omega

end Writing

section Entry

variable {V : VaultPrimitives} {v w : Volume}

theorem drafted_length (nonces : Nat → Exactly nonceSize) (i : Nat)
    (payloads : List (Exactly payloadSize)) :
    (drafted nonces i payloads).length = payloads.length := by
  induction payloads generalizing i with
  | nil => rfl
  | cons payload payloads ih => rw [drafted, List.length_cons, ih, List.length_cons]

theorem getElem?_drafted (nonces : Nat → Exactly nonceSize) (i j : Nat)
    (payloads : List (Exactly payloadSize)) :
    (drafted nonces i payloads)[j]? =
      payloads[j]?.map fun payload => ⟨payload, nonces (i + j)⟩ := by
  induction payloads generalizing i j with
  | nil => rfl
  | cons payload payloads ih =>
    cases j with
    | zero => rfl
    | succ j =>
      rw [drafted, List.getElem?_cons_succ, List.getElem?_cons_succ, ih, Nat.add_assoc,
        Nat.add_comm 1]

theorem writeVaultBlocks_eq (bounded : v.totalBlocks < 2 ^ 64) (start : UInt64) (n : UInt32)
    (nonces : Nat → Exactly nonceSize) {payloads : List (Exactly payloadSize)}
    (count : payloads.length = n.toNat) :
    writeVaultBlocks V start n (joined payloads) nonces v =
      VaultEntries.writeVaultBlocks V start.toNat (drafted nonces 0 payloads) v := by
  rw [writeVaultBlocks]
  split_ifs with hzero
  · obtain rfl : payloads = [] := by
      rw [hzero] at count
      exact List.length_eq_zero_iff.mp count
    rfl
  · have hloop := writeLoop_eq (V := V) bounded start.toNat nonces [] payloads start.toNat_lt
      (by rw [List.length_nil, Nat.zero_add, count]; exact n.toNat_lt)
    rw [List.nil_append, List.length_nil, Nat.add_zero, count] at hloop
    rw [hloop]
    simp only [Nat.zero_add, bind_pure]

theorem readVaultBlocks_eq (bounded : v.totalBlocks < 2 ^ 64) (start : UInt64) (n : UInt32)
    {out : Bytes} (room : out.length = n.toNat * payloadSize) :
    readVaultBlocks V start n out v =
      (VaultEntries.readVaultBlocks V start.toNat n.toNat >>= fun payloads =>
        pure (payloads.length,
          joined payloads ++ out.drop (payloads.length * payloadSize))) v := by
  rw [readVaultBlocks]
  split_ifs with hzero
  · subst hzero
    obtain rfl : out = [] := List.length_eq_zero_iff.mp (room.trans (Nat.zero_mul _))
    rfl
  · have hloop := readLoop_eq (V := V) bounded start.toNat n.toNat 0 out start.toNat_lt
      (by rw [Nat.zero_add]; exact n.toNat_lt) (by rw [Nat.zero_add, room])
    rw [Nat.add_zero] at hloop
    rw [hloop]
    simp only [Nat.zero_add, Nat.zero_mul, splice_zero, joined_length]

theorem readVaultBlocks_returns (sized : ChachaSized V) (start n : Nat) (v : Volume) :
    ∃ payloads w, VaultEntries.readVaultBlocks V start n v = .ok payloads w := by
  induction n generalizing start v with
  | zero => exact ⟨[], v, rfl⟩
  | succ n ih =>
    obtain ⟨result, w, hread⟩ := attempt_returns (readBlock_plainly sized start) v
    rw [VaultEntries.readVaultBlocks, bind_ok hread]
    cases result with
    | none => exact ⟨[], w, rfl⟩
    | some payload =>
      obtain ⟨payloads, w', hrest⟩ := ih (start + 1) w
      dsimp only
      rw [bind_ok hrest]
      exact ⟨payload :: payloads, w', rfl⟩

theorem writeVaultBlocks_returns (start : Nat) (drafts : List Draft) (v : Volume) :
    ∃ c w, VaultEntries.writeVaultBlocks V start drafts v = .ok c w := by
  induction drafts generalizing start v with
  | nil => exact ⟨0, v, rfl⟩
  | cons draft drafts ih =>
    obtain ⟨result, w, hwrite⟩ :=
      attempt_returns (writeBlock_plainly (V := V) start draft.payload draft.nonce) v
    rw [VaultEntries.writeVaultBlocks, bind_ok hwrite]
    cases result with
    | none => exact ⟨0, w, rfl⟩
    | some done =>
      obtain ⟨c, w', hrest⟩ := ih (start + 1) w
      dsimp only
      rw [bind_ok hrest]
      exact ⟨c + 1, w', rfl⟩

theorem bounded_of_reachable (h : Reachable V v) : v.totalBlocks < 2 ^ 64 := by
  obtain ⟨B, hsound⟩ := h.sound
  refine hsound.upper.trans_lt ?_
  decide

theorem read_stored (inverts : V.ChachaInverts) (sized : ChachaSized V) {start : UInt64} {c : Nat}
    (nonces : Nat → Exactly nonceSize) {payloads : List (Exactly payloadSize)}
    (stored : Stored V start.toNat ((drafted nonces 0 payloads).take c) v w)
    (range : ∀ j < c, v.inRange (start.toNat + j)) (bounded : w.totalBlocks < 2 ^ 64)
    (enough : c ≤ payloads.length) {m : UInt32} (le : m.toNat ≤ c) {out : Bytes}
    (room : out.length = m.toNat * payloadSize) :
    ∃ w', readVaultBlocks V start m out w = .ok (m.toNat, joined (payloads.take m.toNat)) w' := by
  have hheld : (payloads.take m.toNat).length = m.toNat :=
    List.length_take_of_le (le.trans enough)
  obtain ⟨held, position, hread, hlongest⟩ :=
    readVaultBlocks_longest sized stored.ready start.toNat m.toNat
  have hsame : held = payloads.take m.toNat := by
    rw [← hheld] at hlongest
    refine hlongest.eq_of_reads fun j payload hj => ?_
    rw [List.getElem?_take] at hj
    split_ifs at hj with hlt
    have hdraft : ((drafted nonces 0 payloads).take c)[j]? = some ⟨payload, nonces j⟩ := by
      rw [List.getElem?_take, if_pos (hlt.trans_le le), getElem?_drafted, hj, Nat.zero_add]
      rfl
    exact stored.reads inverts
      (fun i hi => range i (hi.trans_le (List.length_take_le _ _))) hdraft
  rw [readVaultBlocks_eq bounded start m room, bind_ok hread, hsame, hheld, ← room,
    List.drop_length, List.append_nil]
  exact ⟨_, rfl⟩

/-- With working calls a batch is written as far as the volume reaches, nothing else is
touched, and any front of it is read back. A batch is read up to the first block that
cannot be read, and the rest of the buffer stays. Whatever calls fail, no sum overflows
and no slice panics. -/
theorem batch_transfer_exact (tagged : V.ChachaTagged) (inverts : V.ChachaInverts)
    (sized : ChachaSized V) (seals : ChachaSeals V) (reachable : Reachable V v) (start : UInt64)
    (n : UInt32) (nonces : Nat → Exactly nonceSize) {payloads : List (Exactly payloadSize)}
    (count : payloads.length = n.toNat) {out : Bytes}
    (room : out.length = n.toNat * payloadSize) :
    (∃ w, writeVaultBlocks V start n (joined payloads) nonces (v.facing []) =
        .ok (writable v start.toNat n.toNat) w ∧
      Stored V start.toNat ((drafted nonces 0 payloads).take (writable v start.toNat n.toNat))
        v w ∧
      ∀ (m : UInt32) (buffer : Bytes), m.toNat ≤ writable v start.toNat n.toNat →
        buffer.length = m.toNat * payloadSize →
        ∃ w', readVaultBlocks V start m buffer w =
          .ok (m.toNat, joined (payloads.take m.toNat)) w') ∧
    (∃ held w, Longest V v start.toNat n.toNat held ∧
      readVaultBlocks V start n out (v.facing []) =
        .ok (held.length, joined held ++ out.drop (held.length * payloadSize)) w ∧
      w.file.bytes = v.file.bytes) ∧
    ∀ script,
      (∃ c w, writeVaultBlocks V start n (joined payloads) nonces (v.facing script) = .ok c w) ∧
      ∃ filled w, readVaultBlocks V start n out (v.facing script) = .ok filled w := by
  obtain ⟨head, hkept, -⟩ := reachable.kept
  have hbounded : ∀ script, (v.facing script).totalBlocks < 2 ^ 64 :=
    fun _ => show v.totalBlocks < 2 ^ 64 from bounded_of_reachable reachable
  have hready : Ready (v.facing []).file := ⟨rfl, hkept.present⟩
  refine ⟨?_, ?_, fun script => ⟨?_, ?_⟩⟩
  · obtain ⟨w, hwrite, hfacing⟩ :=
      writeVaultBlocks_stored tagged seals hready start.toNat (drafted nonces 0 payloads)
    rw [drafted_length, count] at hwrite hfacing
    have hstored : Stored V start.toNat
        ((drafted nonces 0 payloads).take (writable v start.toNat n.toNat)) v w :=
      ⟨hfacing.ready, hfacing.key, hfacing.blocks, hfacing.memory, hfacing.sealed,
        hfacing.others, hfacing.grows, hfacing.whole⟩
    refine ⟨w, (writeVaultBlocks_eq (hbounded []) start n nonces count).trans hwrite, hstored,
      fun m buffer le room => ?_⟩
    exact read_stored inverts sized nonces hstored (fun j hj => inRange_of_writable hj)
      (hstored.blocks.trans_lt (hbounded [])) (count ▸ writable_le v start.toNat n.toNat) le room
  · obtain ⟨held, position, hread, hlongest⟩ :=
      readVaultBlocks_longest sized hready start.toNat n.toNat
    refine ⟨held, (v.facing []).moved position, ⟨hlongest.le, hlongest.reads, hlongest.stops⟩,
      ?_, rfl⟩
    rw [readVaultBlocks_eq (hbounded []) start n room, bind_ok hread]
    rfl
  · rw [writeVaultBlocks_eq (hbounded script) start n nonces count]
    exact writeVaultBlocks_returns _ _ _
  · obtain ⟨held, w, hread⟩ := readVaultBlocks_returns sized start.toNat n.toNat (v.facing script)
    rw [readVaultBlocks_eq (hbounded script) start n room, bind_ok hread]
    exact ⟨_, w, rfl⟩

theorem symbolicVault_chachaSized : ChachaSized symbolicVault := by
  intro key nonce ct pt h
  cases h
  rw [List.length_take]
  omega

def filled (byte : UInt8) : Exactly payloadSize :=
  ⟨List.replicate payloadSize byte, List.length_replicate⟩

theorem batch_transfer_exact_straddling :
    ∃ w, writeVaultBlocks symbolicVault 10 3 (joined [filled 1, filled 2, filled 3])
        (fun _ => BlockStore.sampleNonce) (sampleVolume.facing []) = .ok 2 w ∧
      ∃ w', readVaultBlocks symbolicVault 10 2 (List.replicate (2 * payloadSize) 0) w =
        .ok (2, joined [filled 1, filled 2]) w' := by
  -- Three payloads for the last two blocks of a new volume: two are written and read back.
  have hreachable : Reachable symbolicVault sampleVolume :=
    .opened (.created sampleKey 3 (by decide) absentFile _ createNew_sample)
  have hcount : [filled 1, filled 2, filled 3].length = (3 : UInt32).toNat := rfl
  have hroom : (List.replicate (3 * payloadSize) (0 : UInt8)).length =
    (3 : UInt32).toNat * payloadSize := List.length_replicate
  obtain ⟨⟨w, hwrite, -, hread⟩, -⟩ := batch_transfer_exact symbolicVault_chachaTagged
    symbolicVault_chachaInverts symbolicVault_chachaSized (fun _ _ _ => rfl) hreachable 10 3
    (fun _ => BlockStore.sampleNonce) hcount hroom
  exact ⟨w, hwrite, hread 2 _ (by decide) List.length_replicate⟩

end Entry

end SecureCore.BatchTransfer
