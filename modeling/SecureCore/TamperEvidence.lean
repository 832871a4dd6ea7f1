import SecureCore.BlockStore
import SecureCore.Recovery

/-! Whatever is done to the containers between the calls, `read_block` returns only
what `write_block` was given for the same index. The world is a family of vaults
under one master key; an event is a call on one of them, whose system calls may
fail, or the replacement of a container by anything at all. The AEAD enters
through the encryptions and decryptions the calls make: no decryption succeeds
but on an output of an earlier encryption under its key. -/

namespace SecureCore.TamperEvidence

open VirtualVolume FaultyFile FallibleState ByteImage

def Keyed (masterKey : Bytes) (v : Volume) : Prop :=
  v.masterKey = masterKey ∧ v.totalBlocks ≤ dataStartBlock + maxDataBlocks

section Keyed

variable {V : VaultPrimitives} {masterKey : Bytes} {α : Type}

theorem framed_keyed : Framed (fun _ => True) (Keyed masterKey) :=
  ⟨fun _ _ _ _ => trivial, fun _ _ _ _ => trivial, fun _ _ _ _ h => h⟩

theorem preserves_keyed {m : VolumeM α} (h : Preserves (fun v => True ∧ Keyed masterKey v) m) :
    Preserves (Keyed masterKey) m :=
  fun v hv => (h v ⟨trivial, hv⟩).2

theorem createNew_keyed {n : Nat} (capacity : n ≤ maxDataBlocks) :
    Spec (fun _ => True) (createNew V masterKey n) (fun v _ => Keyed masterKey v)
      (fun _ _ => True) := by
  refine (createNew_spec masterKey n).consequence (fun _ h => h) (fun v _ h => ?_)
    fun _ _ h => h
  obtain ⟨hkey, htotal, -⟩ := h
  refine ⟨hkey, ?_⟩
  rw [htotal]
  exact Nat.add_le_add_left capacity _

theorem openExisting_keyed :
    Spec (fun _ => True) (openExisting V masterKey) (fun v _ => Keyed masterKey v)
      (fun _ _ => True) :=
  (openExisting_spec masterKey).consequence (fun _ h => h) (fun _ _ h => ⟨h.1, h.2.upper⟩)
    fun _ _ h => h

theorem openOrCreate_keyed {n : Nat} (capacity : n ≤ maxDataBlocks) :
    Spec (fun _ => True) (openOrCreate V masterKey n) (fun v _ => Keyed masterKey v)
      (fun _ _ => True) := by
  rw [openOrCreate, if_neg (by omega)]
  refine .skip fun empty => .skip fun present => ?_
  split_ifs
  · exact openExisting_keyed
  · refine .skip fun present => ?_
    cases present with
    | false => exact createNew_keyed capacity
    | true => exact .skip fun _ => createNew_keyed capacity

theorem reopen_keyed {n : Nat} (capacity : n ≤ maxDataBlocks) :
    Preserves (Keyed masterKey) (reopen V n) := by
  intro v h
  rw [reopen, h.1]
  have hspec : Spec (fun _ => True) (openOrCreate V masterKey n) (fun v _ => Keyed masterKey v)
      (fun _ _ => True) := openOrCreate_keyed capacity
  have hopened := hspec (drop v) True.intro
  cases hrun : openOrCreate V masterKey n (drop v) with
  | ok w f =>
    rw [hrun] at hopened
    exact hopened
  | error failure f => exact ⟨rfl, h.2⟩

theorem program_keyed (op : VaultOp) : Preserves (Keyed masterKey) (op.program V) := by
  cases op with
  | volume op => exact preserves_keyed (framed_keyed.program op)
  | secureEraseBlock blockIdx payload nonce =>
    exact preserves_keyed (.bind (.bind (framed_keyed.writeBlock _ _ _) fun _ =>
      framed_keyed.tolerates.freeBlock _) fun _ => .pure _)
  | reopen n capacity => exact .bind (reopen_keyed capacity) fun _ => .pure _

end Keyed

inductive Event (ι : Type) where
  | call (vault : ι) (op : VaultOp)
  | tamper (vault : ι) (file : File)

structure VaultCall where
  op : VaultOp
  before : Volume

structure Sealed where
  key : Bytes
  nonce : Bytes
  payload : Bytes
  ciphertext : Bytes

section World

variable {ι : Type} [DecidableEq ι] (V : VaultPrimitives)

def next (world : ι → Volume) : Event ι → ι → Volume
  | .call k op => Function.update world k (finalState (op.program V (world k)))
  | .tamper k file => Function.update world k { world k with file := file }

def calls : (ι → Volume) → List (Event ι) → List VaultCall
  | _, [] => []
  | world, .call k op :: events =>
    ⟨op, world k⟩ :: calls (next V world (.call k op)) events
  | world, .tamper k file :: events => calls (next V world (.tamper k file)) events

/-- `write_block` of this payload under this nonce, alone or within an erasure. -/
def VaultCall.Writes (call : VaultCall) (blockIdx : Nat) (payload : Exactly payloadSize)
    (nonce : Exactly nonceSize) : Prop :=
  call.op = .volume (.writeBlock blockIdx payload nonce) ∨
    call.op = .secureEraseBlock blockIdx payload nonce

/-- The encryption of a `write_block`, whatever becomes of the write. -/
def sealing (v : Volume) (blockIdx : Nat) (payload : Exactly payloadSize)
    (nonce : Exactly nonceSize) : Option Sealed :=
  let key := deriveBlockKey V v.masterKey blockIdx
  if v.inRange blockIdx then
    (V.chachaEncrypt key nonce payload).map fun ciphertext => ⟨key, nonce, payload, ciphertext⟩
  else none

def sealedBy (call : VaultCall) : Option Sealed :=
  match call.op with
  | .volume (.writeBlock blockIdx payload nonce) => sealing V call.before blockIdx payload nonce
  | .secureEraseBlock blockIdx payload nonce => sealing V call.before blockIdx payload nonce
  | _ => none

/-- The decryption of the block on disk by a `read_block` that returned a payload. -/
def openedBy (call : VaultCall) : Option Sealed :=
  match call.op with
  | .volume (.readBlock blockIdx) =>
    let key := deriveBlockKey V call.before.masterKey blockIdx
    let nonce := (call.before.blockAt blockIdx).take nonceSize
    let ciphertext := (call.before.blockAt blockIdx).drop nonceSize
    match readBlock V blockIdx call.before with
    | .ok _ _ => (V.chachaDecrypt key nonce ciphertext).map fun payload =>
        ⟨key, nonce, payload, ciphertext⟩
    | .error _ _ => none
  | _ => none

/-- Under each key only what was encrypted under it is decrypted. -/
def Unforged (calls : List VaultCall) : Prop :=
  ∀ earlier call later entry, calls = earlier ++ call :: later → openedBy V call = some entry →
    ∃ past ∈ earlier, sealedBy V past = some entry

def SeparatesBlocks (masterKey : Bytes) : Prop :=
  ∀ i < 2 ^ 64, ∀ j < 2 ^ 64, deriveBlockKey V masterKey i = deriveBlockKey V masterKey j → i = j

variable {V} {masterKey : Bytes} {world : ι → Volume}

theorem next_keyed (h : ∀ k, Keyed masterKey (world k)) (event : Event ι) (k : ι) :
    Keyed masterKey (next V world event k) := by
  cases event with
  | call k' op =>
    rw [next, Function.update_apply]
    split_ifs
    · exact program_keyed op _ (h k')
    · exact h k
  | tamper k' file =>
    rw [next, Function.update_apply]
    split_ifs
    · exact h k'
    · exact h k

theorem calls_keyed (h : ∀ k, Keyed masterKey (world k)) (events : List (Event ι)) :
    ∀ call ∈ calls V world events, Keyed masterKey call.before := by
  induction events generalizing world with
  | nil => simp [calls]
  | cons event events ih =>
    have hrest := ih (next_keyed (V := V) h event)
    cases event with
    | call k op =>
      intro call hcall
      rcases List.mem_cons.mp hcall with rfl | hcall
      · exact h k
      · exact hrest call hcall
    | tamper k file => exact hrest

end World

variable {V : VaultPrimitives} {masterKey : Bytes} {v w : Volume} {call : VaultCall}

theorem Keyed.index_lt (h : Keyed masterKey v) {blockIdx : Nat} (range : v.inRange blockIdx) :
    blockIdx < 2 ^ 64 := by
  have hupper := h.2
  have hmax : dataStartBlock + maxDataBlocks < 2 ^ 64 := by decide
  have hlt := range.2
  omega

theorem openedBy_readBlock {blockIdx : Nat} {payload : Exactly payloadSize}
    (reads : call.op = .volume (.readBlock blockIdx))
    (returned : readBlock V blockIdx call.before = .ok payload w) :
    openedBy V call = some
      ⟨deriveBlockKey V call.before.masterKey blockIdx,
        (call.before.blockAt blockIdx).take nonceSize, payload,
        (call.before.blockAt blockIdx).drop nonceSize⟩ := by
  rw [openedBy, reads]
  simp only [returned, (ok_of_readBlock returned).2.2, Option.map_some]

theorem writes_of_sealing {blockIdx : Nat} {payload : Exactly payloadSize}
    {nonce : Exactly nonceSize} {entry : Sealed}
    (h : sealing V v blockIdx payload nonce = some entry) :
    v.inRange blockIdx ∧ ∃ ciphertext,
      V.chachaEncrypt (deriveBlockKey V v.masterKey blockIdx) nonce payload = some ciphertext ∧
      entry = ⟨deriveBlockKey V v.masterKey blockIdx, nonce, payload, ciphertext⟩ := by
  rw [sealing] at h
  split_ifs at h with range
  obtain ⟨ciphertext, hseal, rfl⟩ := Option.map_eq_some_iff.mp h
  exact ⟨range, ciphertext, hseal, rfl⟩

theorem writes_of_sealedBy {entry : Sealed} (h : sealedBy V call = some entry) :
    ∃ blockIdx payload nonce, call.Writes blockIdx payload nonce ∧
      sealing V call.before blockIdx payload nonce = some entry := by
  obtain ⟨op, before⟩ := call
  cases op with
  | volume op =>
    cases op with
    | writeBlock blockIdx payload nonce => exact ⟨blockIdx, payload, nonce, Or.inl rfl, h⟩
    | _ => cases h
  | secureEraseBlock blockIdx payload nonce => exact ⟨blockIdx, payload, nonce, Or.inr rfl, h⟩
  | reopen n capacity => cases h

/-- Every payload `read_block` returns was given to an earlier `write_block` of the
same index under the same master key, and the block read is the sealed form of
that very write, nonce included. -/
theorem read_payloads_were_written {ι : Type} [DecidableEq ι] {V : VaultPrimitives}
    {masterKey : Bytes} (separates : SeparatesBlocks V masterKey) (world : ι → Volume)
    (opened : ∀ k, Opened V (world k) ∧ (world k).masterKey = masterKey)
    (events : List (Event ι)) (unforged : Unforged V (calls V world events))
    (earlier later : List VaultCall) (call : VaultCall) (blockIdx : Nat)
    (payload : Exactly payloadSize) (w : Volume)
    (split : calls V world events = earlier ++ call :: later)
    (reads : call.op = .volume (.readBlock blockIdx))
    (returned : readBlock V blockIdx call.before = .ok payload w) :
    ∃ past ∈ earlier, ∃ (nonce : Exactly nonceSize) (ciphertext : Bytes),
      past.Writes blockIdx payload nonce ∧
      V.chachaEncrypt (deriveBlockKey V masterKey blockIdx) nonce payload = some ciphertext ∧
      call.before.blockAt blockIdx = nonce ++ ciphertext := by
  have hkeyed : ∀ call ∈ calls V world events, Keyed masterKey call.before := by
    refine calls_keyed (fun k => ⟨(opened k).2, ?_⟩) events
    exact (sound_of_opened (opened k).1).upper
  have hcall := hkeyed call (split ▸ List.mem_append_right _ List.mem_cons_self)
  obtain ⟨range, -⟩ := ok_of_readBlock returned
  obtain ⟨past, hpast, hsealed⟩ :=
    unforged earlier call later _ split (openedBy_readBlock reads returned)
  have hpastKeyed := hkeyed past (split ▸ List.mem_append_left _ hpast)
  obtain ⟨other, payload', nonce, hwrites, hsealing⟩ := writes_of_sealedBy hsealed
  obtain ⟨hother, ciphertext, hseal, hentry⟩ := writes_of_sealing hsealing
  obtain ⟨hkey, hnonce, hpayload, hciphertext⟩ := Sealed.mk.inj hentry
  rw [hcall.1, hpastKeyed.1] at hkey
  obtain rfl : blockIdx = other :=
    separates _ (hcall.index_lt range) _ (hpastKeyed.index_lt hother) (Subtype.ext hkey)
  obtain rfl : payload = payload' := Subtype.ext hpayload
  rw [hpastKeyed.1] at hseal
  refine ⟨past, hpast, nonce, ciphertext, hwrites, hseal, ?_⟩
  rw [← hnonce, ← hciphertext, List.take_append_drop]

def bindingVault : VaultPrimitives where
  sha256 := symbolicVault.sha256
  hmacSha256 := symbolicVault.hmacSha256
  chachaEncrypt key _ pt := some (pt ++ (SymbolicPrimitives.fit32 key).take 16)
  chachaDecrypt key _ ct :=
    if ct.drop (ct.length - 16) = (SymbolicPrimitives.fit32 key).take 16 then
      some (ct.take (ct.length - 16))
    else none

theorem bindingVault_tag_length (key : Bytes) :
    ((SymbolicPrimitives.fit32 key).take 16).length = 16 := by
  rw [List.length_take, SymbolicPrimitives.fit32_length]
  rfl

theorem bindingVault_chachaTagged : bindingVault.ChachaTagged := by
  intro key nonce pt ct h
  cases h
  rw [List.length_append, bindingVault_tag_length]

theorem bindingVault_chachaInverts : bindingVault.ChachaInverts := by
  intro key nonce pt ct h
  cases h
  have hlength : (pt ++ (SymbolicPrimitives.fit32 key).take 16).length - 16 = pt.length := by
    rw [List.length_append, bindingVault_tag_length]
    omega
  simp only [bindingVault]
  rw [hlength, List.drop_left, List.take_left, if_pos rfl]

theorem bindingVault_separatesBlocks (masterKey : Bytes) :
    SeparatesBlocks bindingVault masterKey := by
  intro i hi j hj h
  have hhead : ∀ n, (deriveBlockKey bindingVault masterKey n).val.take 8 =
      LittleEndian.encode 8 n := by
    intro n
    simp [deriveBlockKey, bindingVault, symbolicVault, SymbolicPrimitives.fit32,
      List.take_take, List.take_append]
  have hencoded : LittleEndian.encode 8 i = LittleEndian.encode 8 j := by
    rw [← hhead i, ← hhead j, h]
  exact LittleEndian.encode_injective hi hj hencoded

def boundVolume : Volume := freshVolume bindingVault sampleKey 3 absentFile

def boundBlock : Bytes :=
  BlockStore.sampleNonce.val ++ (BlockStore.samplePayload.val ++
    (SymbolicPrimitives.fit32 (deriveBlockKey bindingVault sampleKey 9)).take 16)

def writtenVolume : Volume := boundVolume.written (9 * blockSize) boundBlock

def copiedVolume : Volume := writtenVolume.written (10 * blockSize) boundBlock

theorem boundBlock_length : boundBlock.length = blockSize := by
  rw [boundBlock, List.length_append, List.length_append, BlockStore.sampleNonce.property,
    BlockStore.samplePayload.property, bindingVault_tag_length]
  rfl

theorem live_boundVolume : Live bindingVault sampleKey 3 boundVolume :=
  live_created (by decide) (f := absentFile) rfl (createNew_healthy rfl rfl)

theorem writeBlock_boundVolume :
    writeBlock bindingVault 9 BlockStore.samplePayload BlockStore.sampleNonce boundVolume =
      .ok () writtenVolume :=
  writeBlock_ready live_boundVolume.intact.ready (by decide) rfl

theorem live_writtenVolume : Live bindingVault sampleKey 3 writtenVolume := by
  have live := writeBlock_live bindingVault_chachaTagged live_boundVolume 9
    BlockStore.samplePayload BlockStore.sampleNonce
  rwa [writeBlock_boundVolume] at live

theorem copied_effect : Effect (· = 10) writtenVolume copiedVolume :=
  .stored 10 boundBlock rfl (by decide) boundBlock_length

theorem live_copiedVolume : Live bindingVault sampleKey 3 copiedVolume :=
  live_writtenVolume.step copied_effect (live_writtenVolume.sound.file _)

theorem blockAt_copiedVolume : copiedVolume.blockAt 9 = boundBlock := by
  rw [copied_effect.blockAt live_writtenVolume.intact (by decide) (by decide)
    live_copiedVolume.sound.width]
  exact blockAt_written _ _ boundBlock_length

theorem readBlock_copiedVolume :
    ∃ w, readBlock bindingVault 9 copiedVolume = .ok BlockStore.samplePayload w := by
  refine ⟨_, readBlock_ready live_copiedVolume.intact (by decide) ?_⟩
  rw [blockAt_copiedVolume, boundBlock, List.take_left' BlockStore.sampleNonce.property,
    List.drop_left' BlockStore.sampleNonce.property]
  have hseal : bindingVault.chachaEncrypt (deriveBlockKey bindingVault sampleKey 9)
      BlockStore.sampleNonce BlockStore.samplePayload = some _ := rfl
  exact bindingVault_chachaInverts hseal

def copyingEvents : List (Event Unit) :=
  [.call () (.volume (.writeBlock 9 BlockStore.samplePayload BlockStore.sampleNonce)),
    .tamper () copiedVolume.file, .call () (.volume (.readBlock 9))]

def writingCall : VaultCall :=
  ⟨.volume (.writeBlock 9 BlockStore.samplePayload BlockStore.sampleNonce), boundVolume⟩

def readingCall : VaultCall := ⟨.volume (.readBlock 9), copiedVolume⟩

theorem calls_copyingEvents :
    calls bindingVault (fun _ => boundVolume) copyingEvents = [writingCall, readingCall] := by
  simp only [copyingEvents, calls, next, Function.update_self, VaultOp.program, VolumeOp.program,
    finalState_bind_pure]
  rw [writeBlock_boundVolume]
  rfl

theorem unforged_copyingEvents : Unforged bindingVault [writingCall, readingCall] := by
  obtain ⟨w, hread⟩ := readBlock_copiedVolume
  intro earlier call later entry split opened
  rcases earlier with _ | ⟨first, rest⟩
  · obtain ⟨rfl, -⟩ := List.cons.inj split
    cases opened
  · obtain ⟨rfl, htail⟩ := List.cons.inj split
    rcases rest with _ | ⟨second, rest⟩
    · obtain ⟨rfl, -⟩ := List.cons.inj htail
      have hblock : readingCall.before.blockAt 9 = boundBlock := blockAt_copiedVolume
      have hentry : openedBy bindingVault readingCall = some _ := openedBy_readBlock rfl hread
      refine ⟨writingCall, List.mem_singleton_self _, ?_⟩
      rw [← opened, hentry, hblock, boundBlock, List.take_left' BlockStore.sampleNonce.property,
        List.drop_left' BlockStore.sampleNonce.property]
      rfl
    · simp at htail

theorem read_payloads_were_written_copiedBlock :
    (∃ w, readBlock bindingVault 9 readingCall.before = .ok BlockStore.samplePayload w) ∧
    ∃ past ∈ [writingCall], ∃ (nonce : Exactly nonceSize) (ciphertext : Bytes),
      past.Writes 9 BlockStore.samplePayload nonce ∧
      bindingVault.chachaEncrypt (deriveBlockKey bindingVault sampleKey 9) nonce
        BlockStore.samplePayload = some ciphertext ∧
      readingCall.before.blockAt 9 = nonce ++ ciphertext := by
  -- A write to block 9, its block copied over block 10, and block 9 read.
  obtain ⟨w, hread⟩ := readBlock_copiedVolume
  have hopened : Opened bindingVault boundVolume :=
    .created sampleKey 3 (by decide) absentFile _ (createNew_healthy rfl rfl)
  refine ⟨⟨w, hread⟩, ?_⟩
  exact read_payloads_were_written (bindingVault_separatesBlocks sampleKey) _
    (fun _ => ⟨hopened, rfl⟩) copyingEvents (calls_copyingEvents ▸ unforged_copyingEvents)
    [writingCall] [] readingCall 9 _ w calls_copyingEvents rfl hread

end SecureCore.TamperEvidence
