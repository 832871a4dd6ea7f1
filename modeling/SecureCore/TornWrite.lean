import SecureCore.BlockStore
import SecureCore.Recovery

/-! What a `write_block` that stops midway leaves of the block. Nonce and ciphertext
are two writes over a block that holds another pair. A stop between the two leaves
the new nonce in front of the old ciphertext, which opens under neither. -/

namespace SecureCore.TornWrite

open VirtualVolume FaultyFile FallibleState ByteImage

/-- The first `k` system calls succeed and the next one fails without effect; what
is on disk then is also what a crash between the two leaves there. -/
def stopsAfter (k code : Nat) : List (Option Fault) := List.replicate k none ++ [some ⟨code, 0⟩]

theorem stopsAfter_zero (code : Nat) : stopsAfter 0 code = [some ⟨code, 0⟩] := rfl

theorem stopsAfter_succ (k code : Nat) : stopsAfter (k + 1) code = none :: stopsAfter k code := rfl

def landed (k : Nat) (nonce ciphertext : Bytes) : Bytes :=
  if k ≤ 1 then [] else if k = 2 then nonce else nonce ++ ciphertext

theorem landed_early {k : Nat} (h : k ≤ 1) (nonce ciphertext : Bytes) :
    landed k nonce ciphertext = [] := if_pos h

theorem landed_torn (nonce ciphertext : Bytes) : landed 2 nonce ciphertext = nonce := rfl

theorem landed_late {k : Nat} (h : 3 ≤ k) (nonce ciphertext : Bytes) :
    landed k nonce ciphertext = nonce ++ ciphertext := by
  rw [landed, if_neg (by omega), if_neg (by omega)]

section Stopped

variable {V : VaultPrimitives} {v : Volume} {script : List (Option Fault)} {data : Bytes}

theorem onFile_seek_next (position : Nat) :
    onFile (seek position) (v.facing (none :: script)) =
      .ok () ((v.moved position).facing script) := rfl

theorem onFile_seek_stopped (position code : Nat) :
    onFile (seek position) (v.facing (some ⟨code, 0⟩ :: script)) =
      .error (.os code) (v.facing script) := rfl

theorem onFile_writeAll_next (data : Bytes) :
    onFile (writeAll data) (v.facing (none :: script)) =
      .ok () ((v.appended data).facing script) := rfl

theorem onFile_writeAll_stopped (data : Bytes) (code : Nat) :
    onFile (writeAll data) (v.facing (some ⟨code, 0⟩ :: script)) =
      .error (.os code) ((v.appended []).facing script) := rfl

theorem finalState_freezeTimestamps (w : Volume) :
    (finalState (onFile freezeTimestamps w)).file.bytes = w.file.bytes := by
  obtain ⟨cursor, script, hfinal⟩ := freezeTimestamps_quiet w.file
  rw [finalState_onFile, hfinal]

variable {blockIdx : Nat} {payload : Exactly payloadSize} {nonce : Exactly nonceSize}
  {ciphertext : Bytes}

theorem stopped_bytes (range : v.inRange blockIdx)
    (seals : V.chachaEncrypt (deriveBlockKey V v.masterKey blockIdx) nonce payload =
      some ciphertext) (k code : Nat) :
    (finalState (writeBlock V blockIdx payload nonce (v.facing (stopsAfter k code)))).file.bytes =
      splice v.file.bytes (blockIdx * blockSize) (landed k nonce ciphertext) := by
  have hrange : (v.facing (stopsAfter k code)).inRange blockIdx := range
  have hseal : V.chachaEncrypt
      (deriveBlockKey V (v.facing (stopsAfter k code)).masterKey blockIdx) nonce payload =
        some ciphertext := seals
  rw [writeBlock_eq hrange hseal, storeSealed]
  -- the calls in order: seek, the nonce, the ciphertext, then four that write nothing
  rcases k with _ | _ | _ | k
  · rw [stopsAfter_zero, bind_error (onFile_seek_stopped _ code)]
    exact (splice_nil _ _).symm
  · rw [stopsAfter_succ, bind_ok (onFile_seek_next _), stopsAfter_zero,
      bind_error (onFile_writeAll_stopped _ code)]
    rfl
  · rw [stopsAfter_succ, bind_ok (onFile_seek_next _), stopsAfter_succ,
      bind_ok (onFile_writeAll_next _), stopsAfter_zero,
      bind_error (onFile_writeAll_stopped _ code)]
    exact splice_nil _ (blockIdx * blockSize + nonce.val.length)
  · rw [stopsAfter_succ, bind_ok (onFile_seek_next _), stopsAfter_succ,
      bind_ok (onFile_writeAll_next _), stopsAfter_succ, bind_ok (onFile_writeAll_next _),
      finalState_freezeTimestamps]
    exact splice_splice_adjacent

theorem stopped_blockAt (range : v.inRange blockIdx)
    (fits : blockIdx * blockSize + blockSize ≤ v.file.bytes.length) (tagged : V.ChachaTagged)
    (seals : V.chachaEncrypt (deriveBlockKey V v.masterKey blockIdx) nonce payload =
      some ciphertext) (k code : Nat) :
    (finalState (writeBlock V blockIdx payload nonce (v.facing (stopsAfter k code)))).blockAt
        blockIdx =
      landed k nonce ciphertext ++
        (v.blockAt blockIdx).drop (landed k nonce ciphertext).length := by
  have hshort : (landed k nonce ciphertext).length ≤ blockSize := by
    have hsealed := sealed_length tagged seals
    rw [List.length_append] at hsealed
    rw [landed]
    split_ifs
    · exact Nat.zero_le _
    · omega
    · rw [List.length_append]
      omega
  rw [Volume.blockAt, stopped_bytes range seals]
  exact slice_splice_front fits hshort

theorem stopped_length (range : v.inRange blockIdx)
    (fits : blockIdx * blockSize + blockSize ≤ v.file.bytes.length)
    (seals : V.chachaEncrypt (deriveBlockKey V v.masterKey blockIdx) nonce payload =
      some ciphertext) (k code : Nat) :
    blockIdx * blockSize + blockSize ≤
      (finalState (writeBlock V blockIdx payload nonce
        (v.facing (stopsAfter k code)))).file.bytes.length := by
  rw [stopped_bytes range seals]
  exact fits.trans (length_le_splice _ _ _)

theorem stopped_reachable (h : Reachable V v) (k code : Nat) :
    Reachable V
      (finalState (writeBlock V blockIdx payload nonce (v.facing (stopsAfter k code)))) := by
  have hstep := h.step (stopsAfter k code) (.writeBlock blockIdx payload nonce)
  rwa [VolumeOp.program, finalState_bind_pure] at hstep

theorem readable_stopped (h : Reachable V v) (tagged : V.ChachaTagged)
    (range : v.inRange blockIdx)
    (fits : blockIdx * blockSize + blockSize ≤ v.file.bytes.length)
    (seals : V.chachaEncrypt (deriveBlockKey V v.masterKey blockIdx) nonce payload =
      some ciphertext) (k code : Nat) {block : Bytes}
    (left : landed k nonce ciphertext ++
      (v.blockAt blockIdx).drop (landed k nonce ciphertext).length = block)
    (found : Exactly payloadSize) :
    readable V (finalState (writeBlock V blockIdx payload nonce (v.facing (stopsAfter k code))))
        blockIdx = some found ↔
      V.chachaDecrypt (deriveBlockKey V v.masterKey blockIdx) (block.take nonceSize)
        (block.drop nonceSize) = some found.val := by
  obtain ⟨head, hkept, -⟩ := h.kept
  have hfacing : Kept head v.masterKey v.totalBlocks (v.facing (stopsAfter k code)) :=
    ⟨hkept.present, hkept.length, hkept.superblock, rfl, rfl⟩
  have hafter := program_kept (V := V) (.writeBlock blockIdx payload nonce) hfacing
  rw [VolumeOp.program, finalState_bind_pure] at hafter
  have hrange : (finalState (writeBlock V blockIdx payload nonce
      (v.facing (stopsAfter k code)))).inRange blockIdx := ⟨range.1, hafter.blocks ▸ range.2⟩
  rw [readable_iff hafter.present, hafter.key, stopped_blockAt range fits tagged seals, left]
  exact ⟨fun found => found.2.2,
    fun opens => ⟨hrange, stopped_length range fits seals k code, opens⟩⟩

end Stopped

def NonceBound (V : VaultPrimitives) : Prop :=
  ∀ ⦃key nonce nonce' ct pt pt' : Bytes⦄, V.chachaDecrypt key nonce ct = some pt →
    V.chachaDecrypt key nonce' ct = some pt' → nonce = nonce'

theorem nonce_of_torn {V : VaultPrimitives} (tagged : V.ChachaTagged) (bound : NonceBound V)
    {v : Volume} (reachable : Reachable V v) {blockIdx code : Nat}
    {old new found : Exactly payloadSize} {nonce : Exactly nonceSize} {ciphertext : Bytes}
    (reads : readable V v blockIdx = some old)
    (seals : V.chachaEncrypt (deriveBlockKey V v.masterKey blockIdx) nonce new = some ciphertext)
    (torn : readable V (finalState (writeBlock V blockIdx new nonce
      (v.facing (stopsAfter 2 code)))) blockIdx = some found) :
    nonce = (v.blockAt blockIdx).take nonceSize := by
  obtain ⟨head, hkept, -⟩ := reachable.kept
  obtain ⟨range, fits, opens⟩ := (readable_iff hkept.present).mp reads
  have hopens := (readable_stopped reachable tagged range fits seals 2 code rfl found).mp torn
  rw [landed_torn, nonce.property, List.take_left' nonce.property,
    List.drop_left' nonce.property] at hopens
  exact bound hopens opens

/-- The block reads as before the write or as after it. -/
def OldOrNew (old new : Exactly payloadSize) (found : Option (Exactly payloadSize)) : Prop :=
  found = some old ∨ found = some new

def nonceVault : VaultPrimitives where
  sha256 := symbolicVault.sha256
  hmacSha256 := symbolicVault.hmacSha256
  chachaEncrypt _ nonce pt :=
    if nonce.length = nonceSize then some (pt ++ (nonce ++ [0, 0, 0, 0])) else none
  chachaDecrypt _ nonce ct :=
    if nonce.length = nonceSize ∧ ct.drop (ct.length - 16) = nonce ++ [0, 0, 0, 0] then
      some (ct.take (ct.length - 16))
    else none

theorem nonceVault_chachaTagged : nonceVault.ChachaTagged := by
  intro key nonce pt ct h
  simp only [nonceVault] at h
  split_ifs at h with hnonce
  cases h
  simp only [List.length_append, hnonce]
  rfl

theorem nonceVault_chachaInverts : nonceVault.ChachaInverts := by
  intro key nonce pt ct h
  simp only [nonceVault] at h ⊢
  split_ifs at h with hnonce
  cases h
  have hlength : (pt ++ (nonce ++ [0, 0, 0, 0])).length - 16 = pt.length := by
    have htag : nonceSize + 4 = 16 := rfl
    simp only [List.length_append, hnonce, List.length_cons, List.length_nil]
    omega
  rw [hlength, List.drop_left, List.take_left, if_pos ⟨hnonce, rfl⟩]

theorem nonceVault_nonceBound : NonceBound nonceVault := by
  intro key nonce nonce' ct pt pt' h h'
  simp only [nonceVault] at h h'
  split_ifs at h h' with hopens hopens'
  exact List.append_cancel_right (hopens.2.symm.trans hopens'.2)

def freshTornVolume : Volume := freshVolume nonceVault sampleKey 3 absentFile

def filledVolume : Volume :=
  finalState (writeBlock nonceVault 9 BlockStore.samplePayload BlockStore.sampleNonce
    freshTornVolume)

def otherPayload : Exactly payloadSize := ⟨List.replicate payloadSize 8, List.length_replicate⟩

def otherNonce : Exactly nonceSize := ⟨List.replicate nonceSize 9, List.length_replicate⟩

def rewritten (k : Nat) : Volume :=
  finalState (writeBlock nonceVault 9 otherPayload otherNonce
    (filledVolume.facing (stopsAfter k 5)))

theorem nonceVault_seals (key pt : Bytes) (nonce : Exactly nonceSize) :
    nonceVault.chachaEncrypt key nonce pt = some (pt ++ (nonce.val ++ [0, 0, 0, 0])) :=
  if_pos nonce.property

theorem live_freshTornVolume : Live nonceVault sampleKey 3 freshTornVolume :=
  live_created (by decide) (f := absentFile) rfl (createNew_healthy rfl rfl)

theorem filledVolume_blockAt : filledVolume.blockAt 9 = BlockStore.sampleNonce.val ++
    (BlockStore.samplePayload.val ++ (BlockStore.sampleNonce.val ++ [0, 0, 0, 0])) := by
  have hrange : freshTornVolume.inRange 9 := by decide
  have hseal := nonceVault_seals (deriveBlockKey nonceVault freshTornVolume.masterKey 9)
    BlockStore.samplePayload BlockStore.sampleNonce
  rw [filledVolume, writeBlock_ready live_freshTornVolume.intact.ready hrange hseal, finalState_ok]
  exact blockAt_written _ _
    (sealed_length nonceVault_chachaTagged hseal)

theorem live_filledVolume : Live nonceVault sampleKey 3 filledVolume :=
  writeBlock_live nonceVault_chachaTagged live_freshTornVolume 9 _ _

theorem filledVolume_reachable : Reachable nonceVault filledVolume := by
  have hcreated : Opened nonceVault freshTornVolume :=
    .created sampleKey 3 (by decide) absentFile _ (createNew_healthy rfl rfl)
  have hstep := (Reachable.opened hcreated).step []
    (.writeBlock 9 BlockStore.samplePayload BlockStore.sampleNonce)
  have hscript : freshTornVolume.file.script = [] := rfl
  rwa [VolumeOp.program, finalState_bind_pure, Volume.facing_self hscript] at hstep

theorem filledVolume_inRange : filledVolume.inRange 9 := by
  rw [Volume.inRange, live_filledVolume.total]
  decide

theorem filledVolume_reads :
    readable nonceVault filledVolume 9 = some BlockStore.samplePayload := by
  refine (readable_iff live_filledVolume.intact.ready.2).mpr
    ⟨filledVolume_inRange, live_filledVolume.intact.fits filledVolume_inRange, ?_⟩
  rw [filledVolume_blockAt, List.take_left' BlockStore.sampleNonce.property,
    List.drop_left' BlockStore.sampleNonce.property]
  exact nonceVault_chachaInverts (nonceVault_seals _ _ _)

/-- A `write_block` on a readable block that stops after any number of its system
calls leaves the block reading as the old or the new payload, at once and after
reopening, exactly when the stop is not the one between nonce and ciphertext, or
the new nonce is the one already stored, or nothing was to be written. -/
theorem stopped_write_old_or_new_iff {V : VaultPrimitives} (inverts : V.ChachaInverts)
    (tagged : V.ChachaTagged) (bound : NonceBound V) {v w : Volume} (reachable : Reachable V v)
    {blockIdx : Nat} {old : Exactly payloadSize} (reads : readable V v blockIdx = some old)
    (new : Exactly payloadSize) (nonce : Exactly nonceSize) (k code : Nat)
    (stopped : w = finalState (writeBlock V blockIdx new nonce (v.facing (stopsAfter k code))))
    {m : Nat} (capacity : m ≤ maxDataBlocks) :
    OldOrNew old new (readable V w blockIdx) ∧ OldOrNew old new (reopened V m w blockIdx) ↔
      k ≠ 2 ∨ nonce = (v.blockAt blockIdx).take nonceSize ∨
        V.chachaEncrypt (deriveBlockKey V v.masterKey blockIdx) nonce new = none := by
  obtain ⟨head, hkept, -⟩ := reachable.kept
  obtain ⟨range, fits, opens⟩ := (readable_iff hkept.present).mp reads
  have hlength : (v.blockAt blockIdx).length = blockSize := slice_length fits
  subst stopped
  rw [(stopped_reachable reachable k code).reopened_eq capacity, and_self]
  cases hseal : V.chachaEncrypt (deriveBlockKey V v.masterKey blockIdx) nonce new with
  | none =>
    have hrange : (v.facing (stopsAfter k code)).inRange blockIdx := range
    rw [writeBlock_unsealed hrange hseal]
    exact ⟨fun _ => Or.inr (Or.inr rfl), fun _ => Or.inl reads⟩
  | some ciphertext =>
    rcases Nat.lt_trichotomy k 2 with hearly | rfl | hlate
    · refine ⟨fun _ => Or.inl (by omega), fun _ => Or.inl ?_⟩
      refine (readable_stopped reachable tagged range fits hseal k code ?_ old).mpr opens
      rw [landed_early (by omega)]
      rfl
    · constructor
      · rintro (hfound | hfound)
        · exact Or.inr (Or.inl (nonce_of_torn tagged bound reachable reads hseal hfound))
        · exact Or.inr (Or.inl (nonce_of_torn tagged bound reachable reads hseal hfound))
      · rintro (hne | hnonce | hnone)
        · exact absurd rfl hne
        · refine Or.inl
            ((readable_stopped reachable tagged range fits hseal 2 code ?_ old).mpr opens)
          rw [landed_torn, nonce.property, hnonce, List.take_append_drop]
        · cases hnone
    · refine ⟨fun _ => Or.inl (by omega), fun _ => Or.inr ?_⟩
      have hsealed := sealed_length tagged hseal
      have hleft : landed k nonce ciphertext ++
          (v.blockAt blockIdx).drop (landed k nonce ciphertext).length = nonce ++ ciphertext := by
        rw [landed_late (by omega), hsealed, List.drop_of_length_le (by omega), List.append_nil]
      refine (readable_stopped reachable tagged range fits hseal k code hleft new).mpr ?_
      rw [List.take_left' nonce.property, List.drop_left' nonce.property]
      exact inverts hseal

theorem stopped_write_old_or_new_iff_filled :
    OldOrNew BlockStore.samplePayload otherPayload (reopened nonceVault 3 (rewritten 1) 9) ∧
      OldOrNew BlockStore.samplePayload otherPayload (reopened nonceVault 3 (rewritten 3) 9) := by
  have hstops := fun k => stopped_write_old_or_new_iff nonceVault_chachaInverts
    nonceVault_chachaTagged nonceVault_nonceBound filledVolume_reachable filledVolume_reads
    otherPayload otherNonce k 5 (w := rewritten k) rfl (show 3 ≤ maxDataBlocks by decide)
  exact ⟨((hstops 1).mpr (Or.inl (by decide))).2, ((hstops 3).mpr (Or.inl (by decide))).2⟩

theorem torn_block_is_lost :
    readable nonceVault filledVolume 9 = some BlockStore.samplePayload ∧
      readable nonceVault (rewritten 2) 9 = none ∧
      reopened nonceVault 3 (rewritten 2) 9 = none := by
  -- Stopped between its two writes it leaves a block that reads as neither payload, for good.
  have hlost : readable nonceVault (rewritten 2) 9 = none := by
    refine Option.eq_none_iff_forall_ne_some.mpr fun found hfound => ?_
    have hnonce := nonce_of_torn nonceVault_chachaTagged nonceVault_nonceBound
      filledVolume_reachable filledVolume_reads (nonceVault_seals _ _ _) hfound
    rw [filledVolume_blockAt, List.take_left' BlockStore.sampleNonce.property] at hnonce
    exact absurd hnonce (by decide)
  refine ⟨filledVolume_reads, hlost, ?_⟩
  rw [rewritten, (stopped_reachable filledVolume_reachable 2 5).reopened_eq (by decide)]
  exact hlost

end SecureCore.TornWrite
