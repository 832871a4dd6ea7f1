import SecureCore.Reopen

/-! A vault as a map from block indices to payloads. A successful `write_block`
sets the entry of its block; nothing else the vault does changes what
`read_block` returns there, except a raw write to the same block, after which
the map promises nothing about it. -/

namespace SecureCore.BlockStore

open VirtualVolume FaultyFile FallibleState ByteImage

abbrev Contents := Nat → Option (Exactly payloadSize)

def succeeded {α : Type} : EStateM.Result Failure Volume α → Bool
  | .ok _ _ => true
  | .error _ _ => false

section Record

variable (V : VaultPrimitives)

def recordWrite (v : Volume) (contents : Contents) (blockIdx : Nat)
    (payload : Exactly payloadSize) (nonce : Exactly nonceSize) : Contents :=
  if succeeded (writeBlock V blockIdx payload nonce v) then
    Function.update contents blockIdx (some payload)
  else contents

def record (v : Volume) (contents : Contents) : VaultOp → Contents
  | .volume (.writeBlock blockIdx payload nonce) =>
    recordWrite V v contents blockIdx payload nonce
  | .volume (.writeBlockRaw blockIdx _) => Function.update contents blockIdx none
  | .secureEraseBlock blockIdx payload nonce =>
    recordWrite V v contents blockIdx payload nonce
  | _ => contents

/-- The payload of the latest successful write to each block of a run. -/
def latest : Volume → Contents → List VaultOp → Contents
  | _, contents, [] => contents
  | v, contents, op :: ops =>
    latest (finalState (op.program V v)) (record V v contents op) ops

variable {V} in
theorem recordWrite_other {v : Volume} {contents : Contents} {blockIdx other : Nat}
    {payload : Exactly payloadSize} {nonce : Exactly nonceSize} (hne : other ≠ blockIdx) :
    recordWrite V v contents blockIdx payload nonce other = contents other := by
  rw [recordWrite]
  split_ifs
  · exact Function.update_of_ne hne _ _
  · rfl

end Record

/-- The container holds a sealed copy of every payload of the map. -/
def Holds (V : VaultPrimitives) (v : Volume) (contents : Contents) : Prop :=
  ∀ blockIdx payload, contents blockIdx = some payload → v.inRange blockIdx ∧
    ∃ (nonce : Exactly nonceSize) (ciphertext : Bytes),
      V.chachaEncrypt (deriveBlockKey V v.masterKey blockIdx) nonce payload = some ciphertext ∧
      v.blockAt blockIdx = nonce ++ ciphertext

section Step

variable {V : VaultPrimitives} {masterKey : Bytes} {n : Nat} {v w : Volume} {contents : Contents}

theorem Holds.read (inverts : V.ChachaInverts) (live : Live V masterKey n v)
    (holds : Holds V v contents) {blockIdx : Nat} {payload : Exactly payloadSize}
    (entry : contents blockIdx = some payload) :
    readBlock V blockIdx v = .ok payload (v.moved (blockIdx * blockSize + blockSize)) := by
  obtain ⟨range, nonce, ciphertext, hseal, hblock⟩ := holds blockIdx payload entry
  refine readBlock_ready live.intact range ?_
  rw [hblock, List.take_left' nonce.property, List.drop_left' nonce.property]
  exact inverts hseal

theorem Holds.frame {touched : Nat → Prop} (holds : Holds V v contents)
    (live : Live V masterKey n v) (effect : Effect touched v w)
    (sound : Sound (dataStartBlock + n) freshBitmap w) {contents' : Contents}
    (kept : ∀ blockIdx payload, contents' blockIdx = some payload →
      contents blockIdx = some payload ∧ ¬ touched blockIdx) : Holds V w contents' := by
  intro blockIdx payload entry
  obtain ⟨hentry, apart⟩ := kept blockIdx payload entry
  obtain ⟨range, nonce, ciphertext, hseal, hblock⟩ := holds blockIdx payload hentry
  refine ⟨?_, nonce, ciphertext, ?_, ?_⟩
  · exact ⟨range.1, effect.totalBlocks ▸ range.2⟩
  · rwa [effect.masterKey]
  · rw [effect.blockAt live.intact range apart sound.width, hblock]

theorem writeBlock_holds (tagged : V.ChachaTagged) (live : Live V masterKey n v)
    (holds : Holds V v contents) (blockIdx : Nat) (payload : Exactly payloadSize)
    (nonce : Exactly nonceSize) :
    Holds V (finalState (writeBlock V blockIdx payload nonce v))
      (recordWrite V v contents blockIdx payload nonce) := by
  by_cases range : v.inRange blockIdx
  · cases hseal : V.chachaEncrypt (deriveBlockKey V v.masterKey blockIdx) nonce payload with
    | none =>
      rw [recordWrite, writeBlock_unsealed range hseal]
      exact holds
    | some ciphertext =>
      have hwidth := sealed_length tagged hseal
      have effect : Effect (· = blockIdx) v
          (v.written (blockIdx * blockSize) (nonce ++ ciphertext)) :=
        .stored blockIdx _ rfl range hwidth
      have hrun := writeBlock_ready live.intact.ready range hseal
      intro other payload' entry
      rw [hrun, finalState_ok]
      by_cases hother : other = blockIdx
      · subst hother
        obtain rfl : payload = payload' := by simpa [recordWrite, hrun, succeeded] using entry
        exact ⟨range, nonce, ciphertext, hseal, blockAt_written v _ hwidth⟩
      · rw [recordWrite_other hother] at entry
        obtain ⟨hrange, nonce', ciphertext', hseal', hblock⟩ := holds other payload' entry
        refine ⟨hrange, nonce', ciphertext', hseal', ?_⟩
        rw [effect.blockAt live.intact hrange hother live.sound.width, hblock]
  · rw [recordWrite, writeBlock_outside range]
    exact holds

theorem Holds.untouched (holds : Holds V v contents) (live : Live V masterKey n v)
    (effect : Effect (fun _ => False) v w)
    (sound : Sound (dataStartBlock + n) freshBitmap w) : Holds V w contents :=
  holds.frame live effect sound fun _ _ entry => ⟨entry, not_false⟩

theorem freeBlock_holds (live : Live V masterKey n v) (holds : Holds V v contents)
    (blockIdx : Nat) : Holds V (finalState (freeBlock blockIdx v)) contents :=
  holds.untouched live (freeBlock_effect live.sound live.intact.ready blockIdx)
    ((freeBlock_keeps blockIdx).sound live.sound)

theorem volume_holds (tagged : V.ChachaTagged) (live : Live V masterKey n v)
    (holds : Holds V v contents) (op : VolumeOp) :
    Holds V (finalState (op.program V v)) (record V v contents (.volume op)) := by
  have effect := program_effect tagged live.sound live.intact op
  have sound := (program_keeps V op).sound live.sound
  cases op with
  | writeBlock blockIdx payload nonce =>
    rw [VolumeOp.program, finalState_bind_pure]
    exact writeBlock_holds tagged live holds blockIdx payload nonce
  | writeBlockRaw blockIdx data =>
    refine holds.frame live effect sound fun other payload entry => ?_
    by_cases hother : other = blockIdx
    · simp [record, hother] at entry
    · exact ⟨by simpa [record, hother] using entry, hother⟩
  | readBlock blockIdx => exact holds.untouched live effect sound
  | readBlockRaw blockIdx => exact holds.untouched live effect sound
  | allocateBlock => exact holds.untouched live effect sound
  | reserveBlock blockIdx => exact holds.untouched live effect sound
  | freeBlock blockIdx => exact holds.untouched live effect sound

theorem program_holds (tagged : V.ChachaTagged) (live : Live V masterKey n v)
    (holds : Holds V v contents) (op : VaultOp) :
    Holds V (finalState (op.program V v)) (record V v contents op) := by
  cases op with
  | volume op => exact volume_holds tagged live holds op
  | secureEraseBlock blockIdx payload nonce =>
    have hwrite := writeBlock_holds tagged live holds blockIdx payload nonce
    have hlive := writeBlock_live tagged live blockIdx payload nonce
    rw [VaultOp.program, finalState_bind_pure]
    refine (finalState_bind (fun w => Live V masterKey n w ∧
      Holds V w (recordWrite V v contents blockIdx payload nonce)) ⟨hlive, hwrite⟩ ?_).2
    exact fun _ w h => ⟨freeBlock_live h.1 blockIdx, freeBlock_holds h.1 h.2 blockIdx⟩
  | reopen m capacity =>
    rw [VaultOp.program, finalState_bind_pure, reopen_live live capacity]
    exact holds

end Step

section Run

variable {V : VaultPrimitives} {masterKey : Bytes} {n : Nat} {v : Volume} {contents : Contents}

theorem steps_holds (tagged : V.ChachaTagged) (live : Live V masterKey n v)
    (holds : Holds V v contents) (ops : List VaultOp) :
    Holds V (v.steps V ops) (latest V v contents ops) := by
  induction ops generalizing v contents with
  | nil => exact holds
  | cons op ops ih => exact ih (program_live tagged live op) (program_holds tagged live holds op)

theorem writeBlock_metadata (live : Live V masterKey n v) (blockIdx : Nat)
    (payload : Exactly payloadSize) (nonce : Exactly nonceSize) :
    slice (finalState (writeBlock V blockIdx payload nonce v)).file.bytes 0
        (dataStartBlock * blockSize) =
      slice v.file.bytes 0 (dataStartBlock * blockSize) := by
  by_cases range : v.inRange blockIdx
  · cases hseal : V.chachaEncrypt (deriveBlockKey V v.masterKey blockIdx) nonce payload with
    | none =>
      rw [writeBlock_unsealed range hseal]
      rfl
    | some ciphertext =>
      have hlength := live.intact.length
      obtain ⟨hlower, hupper⟩ := range.bounds
      rw [writeBlock_ready live.intact.ready range hseal, finalState_ok, Volume.written_bytes,
        slice_splice_of_disjoint (by omega) (by omega)]
  · rw [writeBlock_outside range]
    rfl

end Run

/-- After any run without failing system calls on a created vault, every block
reads as the payload last written to it. Reads and writes outside the data blocks
fail and change nothing, a write inside them succeeds if the cipher does, no
write changes a byte of the superblock or the bitmap, and reopening succeeds. -/
theorem vault_refines_block_map {V : VaultPrimitives} (inverts : V.ChachaInverts)
    (tagged : V.ChachaTagged) {masterKey : Bytes} {n : Nat} (capacity : n ≤ maxDataBlocks)
    {f f' : File} {v₀ v : Volume} (healthy : Healthy f)
    (created : createNew V masterKey n f = .ok v₀ f') (ops : List VaultOp)
    (reached : v = v₀.steps V ops) :
    (∀ i payload, latest V v₀ (fun _ => none) ops i = some payload →
      ∃ w, readBlock V i v = .ok payload w) ∧
    (∀ i, i < 9 ∨ v.totalBlocks ≤ i →
      (∃ failure, readBlock V i v = .error failure v) ∧
      ∀ payload nonce, ∃ failure, writeBlock V i payload nonce v = .error failure v) ∧
    (∀ i (payload : Exactly payloadSize) (nonce : Exactly nonceSize), v.inRange i →
      (V.chachaEncrypt (deriveBlockKey V masterKey i) nonce payload).isSome →
      succeeded (writeBlock V i payload nonce v)) ∧
    (∀ i payload nonce,
      slice (finalState (writeBlock V i payload nonce v)).file.bytes 0 (9 * 4096) =
        slice v.file.bytes 0 (9 * 4096)) ∧
    ∀ m ≤ maxDataBlocks, succeeded (reopen V m v) := by
  have live₀ := live_created capacity healthy created
  have live : Live V masterKey n v := by
    rw [reached]
    exact steps_live tagged live₀ ops
  have holds : Holds V v (latest V v₀ (fun _ => none) ops) := by
    rw [reached]
    exact steps_holds tagged live₀ (fun _ _ entry => by cases entry) ops
  refine ⟨fun i payload entry => ⟨_, holds.read inverts live entry⟩, fun i outside => ?_,
    fun i payload nonce range seals => ?_, fun i payload nonce => ?_, fun m hm => ?_⟩
  · have hout : ¬ v.inRange i := by
      rintro ⟨hlower, hupper⟩
      have hstart : dataStartBlock = 9 := rfl
      omega
    exact ⟨⟨_, readBlock_outside hout⟩, fun payload nonce => ⟨_, writeBlock_outside hout _ _⟩⟩
  · obtain ⟨ciphertext, hseal⟩ := Option.isSome_iff_exists.mp seals
    rw [← live.key] at hseal
    rw [writeBlock_ready live.intact.ready range hseal]
    rfl
  · exact writeBlock_metadata live i payload nonce
  · rw [reopen_live live hm]
    rfl

def samplePayload : Exactly payloadSize := ⟨List.replicate payloadSize 5, List.length_replicate⟩

def sampleNonce : Exactly nonceSize := ⟨List.replicate nonceSize 6, List.length_replicate⟩

theorem vault_refines_block_map_sample :
    ∃ w, readBlock symbolicVault 9 (sampleVolume.steps symbolicVault
      [.volume (.writeBlock 9 samplePayload sampleNonce), .volume .allocateBlock,
        .secureEraseBlock 10 samplePayload sampleNonce, .reopen 3 (by decide),
        .volume (.freeBlock 9)]) = .ok samplePayload w := by
  -- A payload survives another block being erased, a reopening and even its own block being
  -- freed.
  have live := live_created (n := 3) (by decide) (f := absentFile) rfl createNew_sample
  have range : sampleVolume.inRange 9 := by decide
  have hwrite : succeeded (writeBlock symbolicVault 9 samplePayload sampleNonce sampleVolume) := by
    rw [writeBlock_ready live.intact.ready range rfl]
    rfl
  refine (vault_refines_block_map symbolicVault_chachaInverts symbolicVault_chachaTagged
    (n := 3) (by decide) (f := absentFile) rfl createNew_sample _ rfl).1 9 samplePayload ?_
  simp only [latest, record]
  rw [recordWrite_other (by decide), recordWrite, if_pos hwrite, Function.update_self]

end SecureCore.BlockStore
