import SecureCore.CanaryVerdict
import SecureCore.Durability

/-! A host that writes to a block, erases it or gives it back only while it holds it:
since `allocate_block` returned it, and until it first asked to have it freed. Under
such a host the blocks reserved by `init_canary_slots` are safe, provided that the
reservations are on disk: the same failures and openings that cost other data
nothing cost the canaries nothing. -/

namespace SecureCore.DisciplinedHost

open VirtualVolume FaultyFile FallibleState PackedBits ByteImage ShieldedWrites Durability
open VaultEntries (Shows Accepting CanaryDraw CanaryStands Marked checkCanaries initCanarySlots
  reservedBlocks)

def ledger (owned : Finset Nat) (v : Volume) (step : Step) : Finset Nat :=
  match step.op with
  | .volume .allocateBlock =>
    match allocateBlock (v.facing step.script) with
    | .ok blockIdx _ => insert blockIdx owned
    | .error _ _ => owned
  | .volume (.freeBlock blockIdx) => owned.erase blockIdx
  | .secureEraseBlock blockIdx _ _ => owned.erase blockIdx
  | _ => owned

def held (V : VaultPrimitives) : Finset Nat → Volume → List Step → Finset Nat
  | owned, _, [] => owned
  | owned, v, step :: steps => held V (ledger owned v step) (step.run V v) steps

/-- Every step keeps to the blocks held by then. -/
inductive Disciplined (V : VaultPrimitives) : Finset Nat → Volume → List Step → Prop where
  | nil (owned : Finset Nat) (v : Volume) : Disciplined V owned v []
  | cons {owned : Finset Nat} {v : Volume} {step : Step} {steps : List Step}
      (touches : ∀ blockIdx, written step.op = some blockIdx ∨ freed step.op = some blockIdx →
        blockIdx ∈ owned)
      (rest : Disciplined V (ledger owned v step) (step.run V v) steps) :
      Disciplined V owned v (step :: steps)

section Reserved

variable {V : VaultPrimitives} {key : Bytes} {total : Nat} {v : Volume} {owned : Finset Nat}
  {blocks : List Nat} {content : Nat → Bytes}

def Kept (blocks : List Nat) (content : Nat → Bytes) (f : File) : Prop :=
  ∀ b ∈ blocks, Holds (b * blockSize) (content b) f ∧ StoredBit (b - dataStartBlock) f

def Harmless (blocks : List Nat) (content : Nat → Bytes) (position : Nat) (data : Bytes) : Prop :=
  ∀ b ∈ blocks, Clears (b * blockSize) (content b).length position data ∧
    KeepsBit (b - dataStartBlock) position data

def Proper (total : Nat) (blocks : List Nat) (content : Nat → Bytes) : Prop :=
  ∀ b ∈ blocks, dataStartBlock ≤ b ∧ b < total ∧ (content b).length = blockSize

theorem shield_kept (blocks : List Nat) (content : Nat → Bytes) :
    Shield (Kept blocks content) (Harmless blocks content) :=
  .all fun b _ => (shield_holds (b * blockSize) (content b)).and (shield_cell _ _)

theorem stored_of_proper (steady : Steady V key total v) {b : Nat}
    (range : dataStartBlock ≤ b ∧ b < total) :
    (b - dataStartBlock) >>> 3 < bitmapBlocks * blockSize := by
  obtain ⟨B, hsound⟩ := steady.sound
  rw [← hsound.width]
  exact hsound.stored (by omega)

theorem admits_kept (steady : Steady V key total v) (proper : Proper total blocks content)
    {op : VaultOp} (spares : ∀ b ∈ blocks, written op ≠ some b ∧ freed op ≠ some b) :
    Admits (Kept blocks content) (Harmless blocks content) op := by
  refine .all fun b hb => ?_
  obtain ⟨hlow, hhigh, hwidth⟩ := proper b hb
  exact (admits_other hlow (spares b hb).1 hwidth).and
    (admits_held hlow (stored_of_proper steady ⟨hlow, hhigh⟩) (spares b hb).2)

theorem ledger_apart (steady : Steady V key total v) (proper : Proper total blocks content)
    (safe : Protected (Kept blocks content) (Harmless blocks content) v)
    (apart : ∀ b ∈ blocks, b ∉ owned) (step : Step) : ∀ b ∈ blocks, b ∉ ledger owned v step := by
  intro b hb hmem
  obtain ⟨hlow, hhigh, -⟩ := proper b hb
  have herase : ∀ i, b ∉ owned.erase i := fun i h => apart b hb (Finset.mem_of_mem_erase h)
  obtain ⟨script, op⟩ := step
  rw [ledger] at hmem
  dsimp only at hmem
  split at hmem
  · cases hrun : allocateBlock (v.facing script) with
    | error e w =>
      rw [hrun] at hmem
      exact apart b hb hmem
    | ok i w =>
      rw [hrun] at hmem
      obtain ⟨B, hsound⟩ := steady.sound
      obtain ⟨bitIdx, hbit, rfl, hclear, -⟩ := ok_of_allocateBlock (hsound.file _) hrun
      rcases Finset.mem_insert.mp hmem with rfl | hmem
      · have hset := keepsBit_iff.mp (safe.memory _ hb).2
        rw [Nat.add_sub_cancel_left] at hset
        exact absurd ((hset (hsound.stored hbit)).symm.trans hclear) (by decide)
      · exact apart b hb hmem
  · exact herase _ hmem
  · exact herase _ hmem
  · exact apart b hb hmem

theorem disciplined_keeps (tagged : V.ChachaTagged) (proper : Proper total blocks content)
    {steps : List Step} (host : Disciplined V owned v steps)
    (steady : Steady V key total v)
    (safe : Protected (Kept blocks content) (Harmless blocks content) v)
    (apart : ∀ b ∈ blocks, b ∉ owned) (undiscarded : ∀ step ∈ steps, ¬ step.Discards) :
    Steady V key total (through V v steps) ∧
      Protected (Kept blocks content) (Harmless blocks content) (through V v steps) ∧
      ∀ b ∈ blocks, b ∉ held V owned v steps := by
  induction host with
  | nil owned v => exact ⟨steady, safe, apart⟩
  | @cons owned v step steps touches rest ih =>
    have hspares : ∀ b ∈ blocks, written step.op ≠ some b ∧ freed step.op ≠ some b :=
      fun b hb => ⟨fun h => apart b hb (touches b (Or.inl h)),
        fun h => apart b hb (touches b (Or.inr h))⟩
    obtain ⟨hsteady, hsafe⟩ := step_protected (shield_kept blocks content) tagged steady safe step
      (admits_kept steady proper hspares) (undiscarded step (List.mem_cons_self ..))
    exact ih hsteady hsafe (ledger_apart steady proper safe apart step)
      fun step hstep => undiscarded step (List.mem_cons_of_mem _ hstep)

end Reserved

section Planted

variable {V : VaultPrimitives} {masterKey : Bytes} {n : Nat} {contents : BlockStore.Contents}
  {free : Finset Nat} {v w : Volume}

theorem steady_of_live (live : Live V masterKey n v) :
    Steady V masterKey (dataStartBlock + n) v := by
  have hlength : dataStartBlock * blockSize ≤ v.file.bytes.length := by
    rw [live.intact.length, live.total]
    exact Nat.mul_le_mul_right _ (Nat.le_add_right _ _)
  exact ⟨⟨_, ⟨live.intact.ready.present, hlength, live.intact.superblock, live.key, live.total⟩,
    _, readSuperblock_fresh live.capacity, rfl, rfl⟩, _, live.sound⟩

theorem shows_protected (shows : Shows V masterKey n contents free v) {blocks : List Nat}
    (range : ∀ b ∈ blocks, dataStartBlock ≤ b ∧ b < dataStartBlock + n)
    (taken : ∀ b ∈ blocks, b ∉ free) :
    Proper (dataStartBlock + n) blocks v.blockAt ∧
      Protected (Kept blocks v.blockAt) (Harmless blocks v.blockAt) v := by
  have live := shows.live
  have hsteady := steady_of_live live
  have hinRange : ∀ b ∈ blocks, v.inRange b := by
    intro b hb
    rw [Volume.inRange, live.total]
    exact range b hb
  have hwidth : ∀ b ∈ blocks, (v.blockAt b).length = blockSize := fun b hb =>
    slice_length (live.intact.fits (hinRange b hb))
  have hset : ∀ b ∈ blocks, test v.blockBitmap (b - dataStartBlock) = true := by
    intro b hb
    have hnot := taken b hb
    rw [← shows.frees, AllocatorRefinement.freeIndices, Finset.mem_filter, Finset.mem_Ico,
      live.total] at hnot
    by_contra hclear
    exact hnot ⟨range b hb, by simpa using hclear⟩
  refine ⟨fun b hb => ⟨(range b hb).1, (range b hb).2, hwidth b hb⟩, fun b hb => ⟨?_, ?_⟩,
    fun b hb => ⟨clears_bitmap hsteady (range b hb).1 _, ?_⟩⟩
  · refine ⟨live.intact.ready.present, ?_, ?_⟩
    · rw [hwidth b hb]
      exact live.intact.fits (hinRange b hb)
    · rw [hwidth b hb]
      rfl
  · have hstored := stored_of_proper hsteady (range b hb)
    rw [← live.sound.width] at hstored
    refine storedBit_of_slice hstored (hset b hb) ?_
    rw [live.sound.width]
    exact live.intact.bitmap
  · rw [keepsBit_iff]
    exact fun _ => hset b hb

theorem stands_through {steps : List Step} {b : Nat}
    (steady : Steady V masterKey (dataStartBlock + n) (through V w steps))
    (live : Live V masterKey n w) (stands : CanaryStands V w b)
    (kept : ShieldedWrites.Holds (b * blockSize) (w.blockAt b) (through V w steps).file)
    (width : (w.blockAt b).length = blockSize) :
    CanaryStands V ((through V w steps).facing []) b := by
  obtain ⟨payload, ⟨range, -, opens⟩, mark⟩ := stands
  obtain ⟨head, hhead, -⟩ := steady.kept
  obtain ⟨-, hfits, hslice⟩ := kept
  rw [width] at hfits hslice
  have hblock : ((through V w steps).facing []).blockAt b = w.blockAt b := hslice
  have hkey : ((through V w steps).facing []).masterKey = w.masterKey :=
    hhead.key.trans live.key.symm
  refine ⟨payload, ⟨⟨range.1, ?_⟩, hfits, ?_⟩, mark⟩
  · change b < (through V w steps).totalBlocks
    rw [hhead.blocks, ← live.total]
    exact range.2
  · rw [hblock, hkey]
    exact opens

end Planted

/-- In a vault that reaches to block 999 and has met no failing call, `init_canary_slots`
succeeds. A disciplined host that holds no reserved block then never does: whichever
calls fail and however often the container is opened again without being discarded,
a validation whose calls work finds all canaries. -/
theorem canaries_outlive_disciplined_host {V : VaultPrimitives} (inverts : V.ChachaInverts)
    (tagged : V.ChachaTagged) (accepting : Accepting V) {masterKey : Bytes} {n : Nat}
    (capacity : n ≤ maxDataBlocks) (room : 991 ≤ n) {f f' : File} {v : Volume}
    (healthy : Healthy f) (created : createNew V masterKey n f = .ok v f') (ops : List VaultOp)
    (draws : Fin 5 → CanaryDraw) :
    ∃ w, initCanarySlots V draws (v.steps V ops) = .ok 0 w ∧
      ∀ owned steps, (∀ b ∈ reservedBlocks, b ∉ owned) → Disciplined V owned w steps →
        (∀ step ∈ steps, ¬ step.Discards) →
        (∃ u, checkCanaries V [995, 996, 997, 998, 999] ((through V w steps).facing []) =
          .ok 0 u) ∧ ∀ b ∈ reservedBlocks, b ∉ held V owned w steps := by
  have hshows := VaultEntries.shows_of_live
    (steps_live tagged (live_created capacity healthy created) ops)
  obtain ⟨v₁, hreserve, hshows₁⟩ := hshows.reserveBlocks tagged reservedBlocks
  obtain ⟨w, contents, hplant, hshows', -, hmarked⟩ := hshows₁.plantCanaries_ok tagged accepting 0
    (List.ofFn draws) (by rw [List.length_ofFn]; omega)
  rw [List.length_ofFn] at hmarked
  have hrange : ∀ b ∈ reservedBlocks, dataStartBlock ≤ b ∧ b < dataStartBlock + n := by
    have hstart : dataStartBlock = 9 := rfl
    intro b hb
    simp only [reservedBlocks, List.mem_cons, List.not_mem_nil, or_false] at hb
    omega
  obtain ⟨hproper, hprotected⟩ := shows_protected hshows' hrange fun b hb hfree =>
    (Finset.mem_sdiff.mp hfree).2 (List.mem_toFinset.mpr hb)
  refine ⟨w, ?_, fun owned steps apart host safe => ?_⟩
  · rw [initCanarySlots, bind_ok hreserve]
    exact hplant
  obtain ⟨hsteady, hkept, hheld⟩ := disciplined_keeps tagged hproper host
    (steady_of_live hshows'.live) hprotected apart safe
  have hhealthy : Healthy ((through V w steps).facing []).file := rfl
  refine ⟨VaultEntries.checkCanaries_passes (hhealthy.unfailing _) fun b hb => ?_, hheld⟩
  have hbounds : 995 ≤ b ∧ b < 1000 := by
    simp only [List.mem_cons, List.not_mem_nil, or_false] at hb
    omega
  have hmem : b ∈ reservedBlocks := List.mem_cons_of_mem _ hb
  exact stands_through hsteady hshows'.live
    (hshows'.stands inverts (hmarked b hbounds.1 hbounds.2)) (hkept.file b hmem).1
    (hproper b hmem).2.2

theorem canaries_outlive_disciplined_host_torn :
    ∃ w, initCanarySlots symbolicVault ReservedRegion.sampleDraws
        (freshVolume symbolicVault sampleKey 991 absentFile) = .ok 0 w ∧
      ∃ u, checkCanaries symbolicVault [995, 996, 997, 998, 999]
        ((through symbolicVault w [⟨TornWrite.stopsAfter 2 5,
            .volume (.writeBlock 9 BlockStore.samplePayload BlockStore.sampleNonce)⟩,
          ⟨[], .reopen 991 (by decide)⟩]).facing []) = .ok 0 u := by
  obtain ⟨w, hplant, hhost⟩ := canaries_outlive_disciplined_host symbolicVault_chachaInverts
    symbolicVault_chachaTagged VaultEntries.symbolicVault_accepting (n := 991) (by decide)
    (by decide) (f := absentFile) rfl (createNew_healthy rfl rfl) [] ReservedRegion.sampleDraws
  refine ⟨w, hplant, (hhost {9} _ (by decide) (.cons ?_ (.cons ?_ (.nil _ _))) ?_).1⟩
  · simp [written, freed]
  · simp [written, freed]
  · simp [Step.Discards, VirtualVolume.Discards, outcomeAt]

end SecureCore.DisciplinedHost
