import SecureCore.Durability

/-! What a container offers for as long as it is not discarded, whatever calls fail on
the way. It opens for its key and for no other, with its size and with every block as
it was. What `read_block_raw` has returned can be written back with `write_block_raw`
at any later time, and the block then reads as it did when the copy was made. -/

namespace SecureCore.Durability

open VirtualVolume FaultyFile FallibleState ByteImage ShieldedWrites

section Runs

variable {V : VaultPrimitives} {v w : Volume} {blockIdx total : Nat} {key : Bytes}

theorem through_steady (tagged : V.ChachaTagged) (steps : List Step)
    (steady : Steady V key total v) (safe : ∀ step ∈ steps, ¬ step.Discards) :
    Steady V key total (through V v steps) := by
  have hshield : Shield (fun _ => True) (fun _ _ => True) :=
    ⟨fun _ _ _ => trivial, fun _ _ => trivial, fun _ => trivial, fun _ => trivial⟩
  have hadmits : ∀ op, Admits (fun _ => True) (fun _ _ => True) op := fun _ =>
    ⟨fun _ _ _ => trivial, fun _ _ _ _ _ => trivial, fun _ _ _ _ _ => trivial,
      fun _ _ => trivial⟩
  exact (through_protected hshield tagged steps steady ⟨trivial, trivial⟩ fun step hstep =>
    ⟨hadmits step.op, safe step hstep⟩).1

theorem openExisting_denied {head : Bytes} (kept : Kept head key total v)
    (bootable : Bootable V head key total) (ready : Ready v.file) {other : Bytes}
    (differs : hashMasterKey V other ≠ hashMasterKey V key) :
    openExisting V other v.file = .error (.raised .permissionDenied
      "master key does not match the key that created this vault")
        (v.moved (0 + blockSize)).file := by
  have hlength := kept.length
  have hmeta : dataStartBlock * blockSize = 9 * blockSize := rfl
  have hopen : FaultyFile.openExisting v.file = .ok () (v.moved 0).file :=
    openExisting_healthy ready.healthy kept.present
  obtain ⟨sb, hsb, hhash, -⟩ := bootable
  have hdiffers : (hashMasterKey V other).val ≠ sb.masterKeyHash := by
    rw [hhash]
    exact fun same => differs (Subtype.ext same)
  rw [VirtualVolume.openExisting, bind_ok hopen, bind_ok (seek_moved ready 0 0),
    bind_ok (readExact_moved ready (by omega)), kept.superblock]
  simp only [hsb]
  rw [openAuthenticated, if_pos hdiffers]
  rfl

theorem ok_of_readBlockRaw {copy : Bytes} (reads : readBlockRaw blockIdx v = .ok copy w) :
    v.inRange blockIdx ∧ blockIdx * blockSize + blockSize ≤ v.file.bytes.length ∧
      copy = v.blockAt blockIdx := by
  by_cases range : v.inRange blockIdx
  · rw [readBlockRaw, bind_ok (checkDataBlock_ok range)] at reads
    obtain ⟨⟨⟩, v₁, hseek, hread⟩ := ok_of_bind reads
    obtain ⟨f₁, hmoved, rfl⟩ := ok_of_onFile hseek
    obtain ⟨f₂, hfetched, rfl⟩ := ok_of_onFile hread
    obtain ⟨hraw, hfits, -⟩ := ok_of_readExact hfetched
    rw [ok_of_seek hmoved] at hraw hfits
    exact ⟨range, hfits, hraw⟩
  · rw [readBlockRaw, bind_error (checkDataBlock_error range)] at reads
    cases reads

theorem readBlockRaw_ready (ready : Ready v.file) (range : v.inRange blockIdx)
    (fits : blockIdx * blockSize + blockSize ≤ v.file.bytes.length) :
    ∃ (copy : Exactly blockSize) (w : Volume), readBlockRaw blockIdx v = .ok copy.val w := by
  refine ⟨⟨v.blockAt blockIdx, slice_length fits⟩,
    v.moved (blockIdx * blockSize + blockSize), ?_⟩
  rw [readBlockRaw, bind_ok (checkDataBlock_ok range), bind_ok (onFile_seek ready _),
    fetch_block ready fits]

theorem ok_of_writeBlockRaw {data : Exactly blockSize}
    (writes : writeBlockRaw blockIdx data v = .ok () w) :
    w.file.bytes = splice v.file.bytes (blockIdx * blockSize) data := by
  by_cases range : v.inRange blockIdx
  · rw [writeBlockRaw, bind_ok (checkDataBlock_ok range)] at writes
    obtain ⟨⟨⟩, v₁, hseek, hwrite⟩ := ok_of_bind writes
    obtain ⟨f₁, hmoved, rfl⟩ := ok_of_onFile hseek
    obtain ⟨f₂, hstored, rfl⟩ := ok_of_onFile hwrite
    change f₂.bytes = _
    rw [ok_of_writeAll hstored, ok_of_seek hmoved]
    rfl
  · rw [writeBlockRaw, bind_error (checkDataBlock_error range)] at writes
    cases writes

theorem readable_of_sameBlock (steady : Steady V key total v) (steady' : Steady V key total w)
    (fits : blockIdx * blockSize + blockSize ≤ v.file.bytes.length)
    (fits' : blockIdx * blockSize + blockSize ≤ w.file.bytes.length)
    (same : w.blockAt blockIdx = v.blockAt blockIdx) :
    readable V w blockIdx = readable V v blockIdx := by
  obtain ⟨head, hkept, -⟩ := steady.kept
  obtain ⟨head', hkept', -⟩ := steady'.kept
  apply Option.ext
  intro payload
  rw [readable_iff steady.present, readable_iff steady'.present, same, Volume.inRange,
    Volume.inRange, hkept.key, hkept'.key, hkept.blocks, hkept'.blocks]
  simp only [fits, fits']

end Runs

/-- After any run that does not discard it, a container opens for the key it was made
with (or one of the same hash) and for no other, whatever permitted size is asked for.
Opened, it has its own size, the bitmap that is stored and, under its key, every block
as before; refused, it is as it was. -/
theorem container_opens_for_its_key {V : VaultPrimitives} (tagged : V.ChachaTagged) {v : Volume}
    (reachable : Reachable V v) {steps : List Step} (safe : ∀ step ∈ steps, ¬ step.Discards)
    (key : Bytes) {n : Nat} (capacity : n ≤ maxDataBlocks) :
    (hashMasterKey V key = hashMasterKey V v.masterKey →
      ∃ w, openOrCreate V key n ((through V v steps).facing []).file = .ok w w.file ∧
        w.masterKey = key ∧ w.totalBlocks = v.totalBlocks ∧
        w.file.bytes = (through V v steps).file.bytes ∧
        w.blockBitmap =
          slice (through V v steps).file.bytes bitmapStart (bitmapBlocks * blockSize) ∧
        (key = v.masterKey →
          ∀ blockIdx, readable V w blockIdx = readable V (through V v steps) blockIdx)) ∧
    (hashMasterKey V key ≠ hashMasterKey V v.masterKey →
      ∃ f, openOrCreate V key n ((through V v steps).facing []).file =
        .error (.raised .permissionDenied
          "master key does not match the key that created this vault") f ∧
        f.bytes = (through V v steps).file.bytes) := by
  have hsteady := through_steady tagged steps (steady_of_reachable reachable) safe
  generalize through V v steps = u at hsteady ⊢
  obtain ⟨head, hkept, hbootable⟩ := hsteady.kept
  obtain ⟨B, hsound⟩ := hsteady.sound
  have hready : Ready (u.facing []).file := ⟨rfl, hkept.present⟩
  have hpos : 0 < dataStartBlock * blockSize := by decide
  rw [openOrCreate_present hready (hpos.trans_le hkept.length) capacity]
  constructor
  · intro same
    obtain ⟨sb, hsb, hhash, htotal⟩ := hbootable
    -- The key is looked at only through its hash, so the volume may as well hold this one.
    have hfacing : Kept head key v.totalBlocks { u.facing [] with masterKey := key } :=
      ⟨hkept.present, hkept.length, hkept.superblock, rfl, hkept.blocks⟩
    obtain ⟨w, hopen, hpresent, hkey, hblocks, hbytes, hbitmap⟩ := openExisting_bootable hfacing
      ⟨sb, hsb, by rw [hhash, same], htotal⟩ hsound.lower hsound.upper hready
    refine ⟨w, hopen, hkey, hblocks, hbytes, hbitmap, fun own blockIdx => ?_⟩
    exact readable_congr hkept.present hpresent (by rw [hkey, own, hkept.key])
      (by rw [hblocks, hkept.blocks]) hbytes
  · intro differs
    have hfacing : Kept head v.masterKey v.totalBlocks (u.facing []) :=
      ⟨hkept.present, hkept.length, hkept.superblock, hkept.key, hkept.blocks⟩
    exact ⟨_, openExisting_denied hfacing hbootable hready differs, rfl⟩

def tornStep : Step :=
  ⟨TornWrite.stopsAfter 2 5,
    .volume (.writeBlock 9 TornWrite.otherPayload TornWrite.otherNonce)⟩

theorem tornStep_safe : ∀ step ∈ [tornStep], ¬ step.Discards := by
  rw [List.forall_mem_singleton]
  exact id

theorem container_opens_for_its_key_torn :
    (∃ w, openOrCreate TornWrite.nonceVault sampleKey 5
        ((through TornWrite.nonceVault TornWrite.filledVolume [tornStep]).facing []).file =
          .ok w w.file ∧ w.totalBlocks = 12) ∧
    ∃ f, openOrCreate TornWrite.nonceVault VaultSelection.otherKey 5
        ((through TornWrite.nonceVault TornWrite.filledVolume [tornStep]).facing []).file =
      .error (.raised .permissionDenied
        "master key does not match the key that created this vault") f := by
  have hopens := fun key => container_opens_for_its_key TornWrite.nonceVault_chachaTagged
    TornWrite.filledVolume_reachable tornStep_safe key (n := 5) (by decide)
  have hkey : TornWrite.filledVolume.masterKey = sampleKey := TornWrite.live_filledVolume.key
  have htotal : TornWrite.filledVolume.totalBlocks = 12 := TornWrite.live_filledVolume.total
  have hdiffers : hashMasterKey TornWrite.nonceVault VaultSelection.otherKey ≠
      hashMasterKey TornWrite.nonceVault TornWrite.filledVolume.masterKey := by
    rw [hkey]
    decide
  obtain ⟨w, hopen, -, hblocks, -⟩ := (hopens sampleKey).1 (by rw [hkey])
  obtain ⟨f, hdenied, -⟩ := (hopens VaultSelection.otherKey).2 hdiffers
  exact ⟨⟨w, hopen, hblocks.trans htotal⟩, f, hdenied⟩

/-- A raw copy restores its block: whatever happened to the vault since `read_block_raw`
returned it, once `write_block_raw` has accepted it the block reads as it did then,
and goes on to do so until it is written again. -/
theorem raw_copy_restores {V : VaultPrimitives} (tagged : V.ChachaTagged) {v v₁ w : Volume}
    (reachable : Reachable V v) {script script' : List (Option Fault)} {blockIdx : Nat}
    {copy : Exactly blockSize}
    (reads : readBlockRaw blockIdx (v.facing script) = .ok copy.val v₁) {steps : List Step}
    (safe : ∀ step ∈ steps, ¬ step.Discards)
    (writes : writeBlockRaw blockIdx copy ((through V v₁ steps).facing script') = .ok () w)
    {later : List Step}
    (spares : ∀ step ∈ later, written step.op ≠ some blockIdx ∧ ¬ step.Discards) :
    readable V (through V w later) blockIdx = readable V v blockIdx := by
  obtain ⟨range, hfits, hcopy⟩ := ok_of_readBlockRaw reads
  have hsteady := steady_of_reachable reachable
  have hcopied : Steady V v.masterKey v.totalBlocks v₁ :=
    hsteady.returned (.readBlockRaw blockIdx) rfl script reads
  have hrestored : Steady V v.masterKey v.totalBlocks w :=
    (through_steady tagged steps hcopied safe).returned (.writeBlockRaw blockIdx copy) rfl
      script' writes
  have hbytes := ok_of_writeBlockRaw writes
  have hholds : Holds (blockIdx * blockSize) copy.val w.file := by
    refine ⟨hrestored.present, ?_, ?_⟩
    · rw [hbytes]
      exact le_length_splice (List.ne_nil_of_length_pos (by rw [copy.property]; decide))
    · rw [hbytes, slice_splice_self]
  obtain ⟨hfinal, hkept⟩ := through_protected (shield_holds (blockIdx * blockSize) _) tagged later
    hrestored ⟨hholds, clears_bitmap hrestored range.1 _⟩ fun step hstep =>
      ⟨admits_other range.1 (spares step hstep).1 copy.property, (spares step hstep).2⟩
  obtain ⟨-, hfits', hslice⟩ := hkept.file
  rw [copy.property] at hfits' hslice
  exact readable_of_sameBlock hsteady hfinal hfits hfits' (hslice.trans hcopy)

theorem raw_copy_restores_torn :
    ∃ copy v₁ w, readBlockRaw 9 (TornWrite.filledVolume.facing []) = .ok copy.val v₁ ∧
      writeBlockRaw 9 copy ((through TornWrite.nonceVault v₁ [tornStep]).facing []) = .ok () w ∧
      readable TornWrite.nonceVault w 9 = some BlockStore.samplePayload := by
  have hintact := TornWrite.live_filledVolume.intact
  have hrange := TornWrite.filledVolume_inRange
  have hfacing : TornWrite.filledVolume.facing [] = TornWrite.filledVolume :=
    Volume.facing_self hintact.ready.healthy
  obtain ⟨copy, v₁, hread⟩ := readBlockRaw_ready hintact.ready hrange (hintact.fits hrange)
  rw [← hfacing] at hread
  have hsteady := through_steady TornWrite.nonceVault_chachaTagged [tornStep]
    ((steady_of_reachable TornWrite.filledVolume_reachable).returned (.readBlockRaw 9) rfl []
      hread) tornStep_safe
  obtain ⟨head, hkept, -⟩ := hsteady.kept
  have hready : Ready ((through TornWrite.nonceVault v₁ [tornStep]).facing []).file :=
    ⟨rfl, hsteady.present⟩
  have hinside : ((through TornWrite.nonceVault v₁ [tornStep]).facing []).inRange 9 := by
    refine ⟨hrange.1, ?_⟩
    change 9 < (through TornWrite.nonceVault v₁ [tornStep]).totalBlocks
    rw [hkept.blocks]
    exact hrange.2
  have hwrite := writeBlockRaw_ready hready hinside copy
  have hrestores := raw_copy_restores TornWrite.nonceVault_chachaTagged
    TornWrite.filledVolume_reachable hread tornStep_safe hwrite (List.forall_mem_nil _)
  exact ⟨copy, v₁, _, hread, hwrite, hrestores.trans TornWrite.filledVolume_reads⟩

end SecureCore.Durability
