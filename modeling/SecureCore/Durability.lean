import SecureCore.FaultyOpening
import SecureCore.ShieldedWrites
import SecureCore.TornWrite

/-! What outlives a run of vault operations in which any system call may fail at any
time and the container may be opened again at any time. A crash is such a run: its
calls fail from some point on, and an opening follows. What is on disk and the
bitmap in memory protect each other: every storage of the bitmap writes what memory
says, and every opening reads it back. -/

namespace SecureCore.Durability

open VirtualVolume FaultyFile FallibleState PackedBits ByteImage ShieldedWrites

abbrev bitmapStart : Nat := bitmapStartBlock * blockSize

structure Step where
  script : List (Option Fault)
  op : VaultOp

def written : VaultOp → Option Nat
  | .volume (.writeBlock blockIdx _ _) => some blockIdx
  | .volume (.writeBlockRaw blockIdx _) => some blockIdx
  | .secureEraseBlock blockIdx _ _ => some blockIdx
  | _ => none

def freed : VaultOp → Option Nat
  | .volume (.freeBlock blockIdx) => some blockIdx
  | .secureEraseBlock blockIdx _ _ => some blockIdx
  | _ => none

/-- An opening whose calls fail so that it discards the container. The first entry
is for the sync of the volume that is dropped. -/
def Step.Discards (step : Step) : Prop :=
  match step.op with
  | .reopen _ _ => VirtualVolume.Discards step.script.tail
  | _ => False

def Step.run (V : VaultPrimitives) (v : Volume) (step : Step) : Volume :=
  finalState (step.op.program V (v.facing step.script))

def through (V : VaultPrimitives) (v : Volume) (steps : List Step) : Volume :=
  steps.foldl (Step.run V) v

section Steady

variable {V : VaultPrimitives} {key : Bytes} {total n : Nat} {v : Volume}

/-- The container opens as this volume, and the bitmap in memory counts. -/
structure Steady (V : VaultPrimitives) (key : Bytes) (total : Nat) (v : Volume) : Prop where
  kept : ∃ head, Kept head key total v ∧ Bootable V head key total
  sound : ∃ B, Sound total B v

theorem steady_of_reachable (h : Reachable V v) : Steady V v.masterKey v.totalBlocks v :=
  ⟨h.kept, h.sound⟩

theorem Steady.present (h : Steady V key total v) : v.file.exists? = true := by
  obtain ⟨head, hkept, -⟩ := h.kept
  exact hkept.present

theorem Steady.nonempty (h : Steady V key total v) : v.file.bytes ≠ [] := by
  obtain ⟨head, hkept, -⟩ := h.kept
  have hlength := hkept.length
  intro hnil
  rw [hnil] at hlength
  exact absurd hlength (by decide)

theorem Steady.moved (h : Steady V key total v) (cursor : Nat) (script : List (Option Fault)) :
    Steady V key total { v with file := { v.file with cursor := cursor, script := script } } := by
  obtain ⟨head, hkept, hbootable⟩ := h.kept
  obtain ⟨B, hsound⟩ := h.sound
  exact ⟨⟨head, ⟨hkept.present, hkept.length, hkept.superblock, hkept.key, hkept.blocks⟩,
    hbootable⟩, B, hsound.file _⟩

theorem Steady.program (h : Steady V key total v) (op : VolumeOp) :
    Steady V key total (finalState (op.program V v)) := by
  obtain ⟨head, hkept, hbootable⟩ := h.kept
  obtain ⟨B, hsound⟩ := h.sound
  exact ⟨⟨head, program_kept op hkept, hbootable⟩, B, (program_keeps V op).sound hsound⟩

theorem Steady.returned {α : Type} {m : VolumeM α} {a : α} {w : Volume} (op : VolumeOp)
    {reply : α → VolumeReply} (program : op.program V = m >>= fun a => pure (reply a))
    (h : Steady V key total v) (script : List (Option Fault))
    (run : m (v.facing script) = .ok a w) : Steady V key total w := by
  have hnext := (h.moved v.file.cursor script).program op
  rw [program, finalState_bind_pure] at hnext
  change Steady V key total (finalState (m (v.facing script))) at hnext
  rwa [run, finalState_ok] at hnext

theorem bootable_total {head : Bytes} {total' : Nat} (h : Bootable V head key total)
    (h' : Bootable V head key total') : total = total' := by
  obtain ⟨sb, hread, -, rfl⟩ := h
  obtain ⟨sb', hread', -, rfl⟩ := h'
  rw [hread] at hread'
  cases hread'
  rfl

end Steady

section Opening

variable {V : VaultPrimitives} {key : Bytes} {total n : Nat} {v w : Volume}

theorem quiet_bytes {α : Type} {m : FileM α} (quiet : Quiet m) (f : File) :
    (finalState (m f)).bytes = f.bytes := by
  obtain ⟨cursor, script, hfinal⟩ := quiet f
  rw [hfinal]

theorem openExisting_bitmap {f f' : File} (opens : openExisting V key f = .ok w f') :
    w.file = f' ∧ w.blockBitmap = slice f.bytes bitmapStart (bitmapBlocks * blockSize) := by
  obtain ⟨⟨⟩, f₁, hopen, opens⟩ := ok_of_bind opens
  obtain ⟨⟨⟩, f₂, hseek, opens⟩ := ok_of_bind opens
  obtain ⟨raw, f₃, hread, opens⟩ := ok_of_bind opens
  have hbytes : f₃.bytes = f.bytes := by
    rw [(ok_of_readExact hread).2.2, ok_of_seek hseek, (ok_of_openExisting hopen).2]
  cases hsb : readSuperblock raw with
  | none =>
    rw [hsb] at opens
    cases opens
  | some sb =>
    rw [hsb] at opens
    dsimp only [openAuthenticated] at opens
    split_ifs at opens with hkey hrange
    · cases opens
    · obtain ⟨⟨⟩, f₄, hstart, opens⟩ := ok_of_bind opens
      obtain ⟨bitmap, f₅, hbitmap, opens⟩ := ok_of_bind opens
      cases opens
    · obtain ⟨⟨⟩, f₄, hstart, opens⟩ := ok_of_bind opens
      obtain ⟨bitmap, f₅, hbitmap, opens⟩ := ok_of_bind opens
      obtain ⟨actualFree, f₆, hcount, opens⟩ := ok_of_bind opens
      have hslice := (ok_of_readExact hbitmap).1
      rw [ok_of_seek hstart, hbytes] at hslice
      cases opens
      exact ⟨rfl, hslice⟩

theorem drop_eq (v : Volume) : drop v = { v.file with script := v.file.script.tail } := by
  rw [drop, syncAll]
  cases hnext : v.file.script.headD none with
  | none => rw [call_works hnext]; rfl
  | some fault => rw [call_fails hnext]; rfl

theorem reopen_cases (steady : Steady V key total v) (capacity : n ≤ maxDataBlocks)
    (safe : ¬ VirtualVolume.Discards v.file.script.tail) :
    (∃ cursor script, finalState (reopen V n v) =
      { v with file := { v.file with cursor := cursor, script := script } }) ∨
    (Steady V key total (finalState (reopen V n v)) ∧
      (∃ cursor script, (finalState (reopen V n v)).file =
        { v.file with cursor := cursor, script := script }) ∧
      (finalState (reopen V n v)).blockBitmap =
        slice v.file.bytes bitmapStart (bitmapBlocks * blockSize)) := by
  obtain ⟨head, hkept, hbootable⟩ := steady.kept
  have hpresent : (drop v).exists? = true := by
    rw [drop_eq]
    exact steady.present
  have hnonempty : (drop v).bytes ≠ [] := by
    rw [drop_eq]
    exact steady.nonempty
  have hsafe : ¬ VirtualVolume.Discards (drop v).script := by
    rw [drop_eq]
    exact safe
  obtain ⟨cursor, script, hquiet⟩ :
      ∃ cursor script, finalState (openOrCreate V v.masterKey n (drop v)) =
        { drop v with cursor := cursor, script := script } :=
    openOrCreate_quiet hpresent hnonempty fun discards => hsafe discards.2
  cases hrun : openOrCreate V v.masterKey n (drop v) with
  | error e f =>
    left
    rw [hrun, finalState_error, drop_eq] at hquiet
    refine ⟨cursor, script, ?_⟩
    rw [reopen, hrun]
    dsimp only
    rw [finalState_error, hquiet]
  | ok w f =>
    right
    rw [hrun, finalState_ok, drop_eq] at hquiet
    have hopens := openExisting_of_openOrCreate hpresent hnonempty capacity hsafe hrun
    obtain ⟨hfile, hbitmap⟩ := openExisting_bitmap hopens
    obtain ⟨hbytes, head', hkept', hbootable'⟩ := opened_kept hopens
    have hsound := sound_of_opened (.opened _ _ _ hopens)
    rw [drop_eq] at hbytes hbitmap
    have hheads : head' = head := by
      rw [← hkept'.superblock, ← hkept.superblock, hbytes]
    rw [hheads, hkept.key] at hbootable'
    have htotal : w.totalBlocks = total := bootable_total hbootable' hbootable
    rw [hheads, hkept.key, htotal] at hkept'
    rw [htotal] at hsound
    have hfinal : finalState (reopen V n v) = w := by
      rw [reopen, hrun]
      rfl
    rw [hfinal]
    exact ⟨⟨⟨head, hkept', hbootable⟩, _, hsound⟩, ⟨cursor, script, hfile.trans hquiet⟩, hbitmap⟩

end Opening

section Protection

variable {α : Type} {V : VaultPrimitives} {kept : File → Prop} {harmless : Nat → Bytes → Prop}
  {key : Bytes} {total : Nat} {v : Volume}

/-- The property holds of the file, and storing the bitmap would keep it. -/
structure Protected (kept : File → Prop) (harmless : Nat → Bytes → Prop) (v : Volume) : Prop where
  file : kept v.file
  memory : harmless bitmapStart v.blockBitmap

/-- What the operation may do is harmless: bits it takes or gives back, the block it
writes, and the bitmap an opening reads. -/
structure Admits (kept : File → Prop) (harmless : Nat → Bytes → Prop) (op : VaultOp) : Prop where
  takes : ∀ bitmap bitIdx, harmless bitmapStart bitmap →
    harmless bitmapStart (PackedBits.set bitmap bitIdx)
  frees : ∀ blockIdx bitmap, freed op = some blockIdx → dataStartBlock ≤ blockIdx →
    harmless bitmapStart bitmap →
      harmless bitmapStart (PackedBits.clear bitmap (blockIdx - dataStartBlock))
  writes : ∀ blockIdx, written op = some blockIdx → dataStartBlock ≤ blockIdx →
    ∀ data : Bytes, data.length = blockSize → harmless (blockIdx * blockSize) data
  loads : ∀ f, kept f → harmless bitmapStart (slice f.bytes bitmapStart (bitmapBlocks * blockSize))

theorem Admits.and {kept' : File → Prop} {harmless' : Nat → Bytes → Prop} {op : VaultOp}
    (h : Admits kept harmless op) (h' : Admits kept' harmless' op) :
    Admits (fun f => kept f ∧ kept' f)
      (fun position data => harmless position data ∧ harmless' position data) op where
  takes bitmap bitIdx fine := ⟨h.takes bitmap bitIdx fine.1, h'.takes bitmap bitIdx fine.2⟩
  frees blockIdx bitmap frees low fine :=
    ⟨h.frees blockIdx bitmap frees low fine.1, h'.frees blockIdx bitmap frees low fine.2⟩
  writes blockIdx writes low data width :=
    ⟨h.writes blockIdx writes low data width, h'.writes blockIdx writes low data width⟩
  loads f hf := ⟨h.loads f hf.1, h'.loads f hf.2⟩

theorem Admits.all {ι : Type} {items : List ι} {kept : ι → File → Prop}
    {harmless : ι → Nat → Bytes → Prop} {op : VaultOp}
    (h : ∀ i ∈ items, Admits (kept i) (harmless i) op) :
    Admits (fun f => ∀ i ∈ items, kept i f)
      (fun position data => ∀ i ∈ items, harmless i position data) op where
  takes bitmap bitIdx fine i hi := (h i hi).takes bitmap bitIdx (fine i hi)
  frees blockIdx bitmap frees low fine i hi := (h i hi).frees blockIdx bitmap frees low (fine i hi)
  writes blockIdx writes low data width i hi := (h i hi).writes blockIdx writes low data width
  loads f hf i hi := (h i hi).loads f (hf i hi)

theorem onFile_spec {pre : File → Prop} {ok : α → File → Prop} {err : Failure → File → Prop}
    {m : FileM α} (h : Spec pre m ok err) (R : Bytes → Prop) :
    Spec (fun v => pre v.file ∧ R v.blockBitmap) (onFile m)
      (fun a v => ok a v.file ∧ R v.blockBitmap) (fun e v => err e v.file ∧ R v.blockBitmap) :=
  h.zoom (fun _ _ => rfl) fun _ _ hrest => hrest

section Stores

variable (shield : Shield kept harmless)
include shield

theorem Protected.moved (h : Protected kept harmless v) (cursor : Nat)
    (script : List (Option Fault)) : Protected kept harmless
      { v with file := { v.file with cursor := cursor, script := script } } :=
  ⟨shield.quiet cursor script h.file, h.memory⟩

theorem onFile_kept {m : FileM α} (quiet : Quiet m) (R : Bytes → Prop) :
    Preserves (fun v => kept v.file ∧ R v.blockBitmap) (onFile m) :=
  Spec.preserves (onFile_spec (Spec.of_preserves
    (quiet.preserves fun _ cursor script => shield.quiet cursor script)) R)

theorem store_kept (data : Bytes) (R : Bytes → Prop) {rest : VolumeM Unit}
    (hrest : Preserves (fun v => kept v.file ∧ R v.blockBitmap) rest) :
    Spec (fun v => (kept v.file ∧ harmless v.file.cursor data) ∧ R v.blockBitmap)
      (onFile (writeAll data) >>= fun _ => rest) (fun _ v => kept v.file ∧ R v.blockBitmap)
      (fun _ v => kept v.file ∧ R v.blockBitmap) := by
  have hwrite := onFile_spec (shield.writeAll data []) R
  rw [List.append_nil] at hwrite
  exact Spec.bind hwrite fun _ => (Spec.of_preserves hrest).consequence
    (fun _ h => ⟨h.1.1, h.2⟩) (fun _ _ h => h) (fun _ _ h => h)

theorem writeBitmap_protected : Preserves (Protected kept harmless) writeBitmap := by
  intro v hv
  have hstore : Preserves (fun w => kept w.file ∧ w.blockBitmap = v.blockBitmap) writeBitmap := by
    have hcalls : Preserves (fun w : Volume => kept w.file ∧ w.blockBitmap = v.blockBitmap)
        (onFile syncAll >>= fun _ => onFile freezeTimestamps) :=
      .bind (onFile_kept shield touch_quiet (· = v.blockBitmap)) fun _ =>
        onFile_kept shield freezeTimestamps_quiet (· = v.blockBitmap)
    refine Spec.preserves (Spec.bind
      (onFile_spec (shield.seek hv.memory) (· = v.blockBitmap)) fun _ => Spec.get_bind fun w => ?_)
    rintro u ⟨rfl, hfine, hsame⟩
    rw [hsame]
    exact store_kept shield v.blockBitmap (· = v.blockBitmap) hcalls u ⟨hfine, hsame⟩
  obtain ⟨hfile, hsame⟩ := hstore v ⟨hv.file, rfl⟩
  refine ⟨hfile, ?_⟩
  rw [hsame]
  exact hv.memory

theorem storeSealed_protected {blockIdx : Nat} {nonce ciphertext : Bytes}
    (fine : harmless (blockIdx * blockSize) (nonce ++ ciphertext)) :
    Preserves (Protected kept harmless) (storeSealed blockIdx nonce ciphertext) := by
  have hstore : Preserves (fun w => kept w.file ∧ harmless bitmapStart w.blockBitmap)
      (storeSealed blockIdx nonce ciphertext) := by
    refine Spec.preserves (Spec.bind (onFile_spec (shield.seek fine) (harmless bitmapStart))
      fun _ => Spec.bind (onFile_spec (shield.writeAll nonce ciphertext) (harmless bitmapStart))
        fun _ => store_kept shield ciphertext (harmless bitmapStart) ?_)
    exact onFile_kept shield freezeTimestamps_quiet (harmless bitmapStart)
  intro v hv
  obtain ⟨hfile, hmemory⟩ := hstore v ⟨hv.file, hv.memory⟩
  exact ⟨hfile, hmemory⟩

theorem onFile_protected {m : FileM α} (quiet : Quiet m) :
    Preserves (Protected kept harmless) (onFile m) := by
  intro v hv
  obtain ⟨hfile, hmemory⟩ :=
    onFile_kept shield quiet (harmless bitmapStart) v ⟨hv.file, hv.memory⟩
  exact ⟨hfile, hmemory⟩

theorem readBlockRaw_protected (blockIdx : Nat) :
    Preserves (Protected kept harmless) (readBlockRaw blockIdx) :=
  .bind (Tolerates.checkDataBlock _) fun _ => .bind (onFile_protected shield (seek_quiet _))
    fun _ => onFile_protected shield (readExact_quiet _)

theorem readBlock_protected (blockIdx : Nat) :
    Preserves (Protected kept harmless) (readBlock V blockIdx) := by
  refine .bind (Tolerates.checkDataBlock _) fun _ =>
    .bind (onFile_protected shield (seek_quiet _)) fun _ =>
    .bind (onFile_protected shield (readExact_quiet _)) fun raw => .bind .get fun v => ?_
  intro w hw
  rwa [finalState_copyPlaintext]

end Stores

section Bits

variable {B : Bytes} {blockIdx : Nat}

theorem allocateBlock_final (sound : Sound total B v) :
    finalState (allocateBlock v) = v ∨
      ∃ bitIdx, finalState (allocateBlock v) = finalState (writeBitmap (taken v bitIdx)) := by
  by_cases free : v.freeBlocks = 0
  · left
    rw [allocateBlock, bind_ok (get_apply v), if_pos free]
    rfl
  · right
    obtain ⟨i, hi, hclear, hset⟩ := sound.first_clear free
    refine ⟨i, ?_⟩
    rw [allocateBlock_eq sound hi hclear hset, finalState_bind_pure,
      takeBit_eq (sound.free_pos hi hclear)]

theorem bit_lt (sound : Sound total B v) (range : v.inRange blockIdx) :
    blockIdx - dataStartBlock < total - dataStartBlock := by
  have hlt := range.2
  have hle := range.1
  rw [sound.blocks] at hlt
  omega

theorem reserveBlock_final (sound : Sound total B v) :
    finalState (reserveBlock blockIdx v) = v ∨
      ∃ bitIdx, finalState (reserveBlock blockIdx v) =
        finalState (writeBitmap (taken v bitIdx)) := by
  by_cases range : v.inRange blockIdx
  · have hbit := bit_lt sound range
    cases hset : test v.blockBitmap (blockIdx - dataStartBlock) with
    | true =>
      left
      rw [reserveBlock_taken range (sound.stored hbit) hset, finalState_ok]
    | false =>
      right
      refine ⟨blockIdx - dataStartBlock, ?_⟩
      rw [reserveBlock_eq range (sound.stored hbit) hset, takeBit_eq (sound.free_pos hbit hset)]
  · left
    rw [reserveBlock_outside range, finalState_error]

theorem freeBlock_final (sound : Sound total B v) :
    finalState (freeBlock blockIdx v) = v ∨
      v.inRange blockIdx ∧ finalState (freeBlock blockIdx v) =
        finalState (writeBitmap (released v (blockIdx - dataStartBlock))) := by
  by_cases range : v.inRange blockIdx
  · have hbit := bit_lt sound range
    cases hset : test v.blockBitmap (blockIdx - dataStartBlock) with
    | true =>
      right
      refine ⟨range, ?_⟩
      rw [freeBlock_eq range (sound.stored hbit) hset]
    | false =>
      left
      rw [freeBlock_already_free range (sound.stored hbit) hset, finalState_error]
  · left
    rw [freeBlock_outside range, finalState_error]

end Bits

section Operations

variable {B : Bytes} {op : VaultOp} (shield : Shield kept harmless)
  (admits : Admits kept harmless op)
include shield admits

theorem taken_protected (h : Protected kept harmless v) {w : Volume}
    (final : w = v ∨ ∃ bitIdx, w = finalState (writeBitmap (taken v bitIdx))) :
    Protected kept harmless w := by
  rcases final with rfl | ⟨bitIdx, rfl⟩
  · exact h
  · exact writeBitmap_protected shield (taken v bitIdx) ⟨h.file, admits.takes _ _ h.memory⟩

theorem freeBlock_protected (sound : Sound total B v) (h : Protected kept harmless v)
    {blockIdx : Nat} (frees : freed op = some blockIdx) :
    Protected kept harmless (finalState (freeBlock blockIdx v)) := by
  rcases freeBlock_final sound with hsame | ⟨range, hfinal⟩
  · rw [hsame]
    exact h
  · rw [hfinal]
    exact writeBitmap_protected shield (released v (blockIdx - dataStartBlock))
      ⟨h.file, admits.frees blockIdx _ frees range.1 h.memory⟩

theorem writeBlock_protected (tagged : V.ChachaTagged) (h : Protected kept harmless v)
    {blockIdx : Nat} (writes : written op = some blockIdx) (payload : Exactly payloadSize)
    (nonce : Exactly nonceSize) :
    Protected kept harmless (finalState (writeBlock V blockIdx payload nonce v)) := by
  by_cases range : v.inRange blockIdx
  · cases hseal : V.chachaEncrypt (deriveBlockKey V v.masterKey blockIdx) nonce payload with
    | none =>
      rw [writeBlock_unsealed range hseal]
      exact h
    | some ciphertext =>
      rw [writeBlock_eq range hseal]
      exact storeSealed_protected shield
        (admits.writes blockIdx writes range.1 _ (sealed_length tagged hseal)) v h
  · rw [writeBlock_outside range]
    exact h

theorem writeBlockRaw_protected (h : Protected kept harmless v) {blockIdx : Nat}
    (writes : written op = some blockIdx) (data : Exactly blockSize) :
    Protected kept harmless (finalState (writeBlockRaw blockIdx data v)) := by
  by_cases range : v.inRange blockIdx
  · have hfine := admits.writes blockIdx writes range.1 data.val data.property
    have hstore : Preserves (fun w => kept w.file ∧ harmless bitmapStart w.blockBitmap) (do
        onFile (seek (blockIdx * blockSize))
        onFile (writeAll data)) := by
      have hwrite := onFile_spec (shield.writeAll data.val []) (harmless bitmapStart)
      rw [List.append_nil] at hwrite
      refine Spec.preserves (Spec.bind (onFile_spec (shield.seek hfine) (harmless bitmapStart))
        fun _ => hwrite.consequence (fun _ h => h) (fun _ _ h => ⟨h.1.1, h.2⟩) (fun _ _ h => h))
    obtain ⟨hfile, hmemory⟩ := hstore v ⟨h.file, h.memory⟩
    rw [writeBlockRaw, bind_ok (checkDataBlock_ok range)]
    exact ⟨hfile, hmemory⟩
  · rw [writeBlockRaw, bind_error (checkDataBlock_error range)]
    exact h

end Operations

theorem volume_protected (shield : Shield kept harmless) (tagged : V.ChachaTagged)
    (sound : ∃ B, Sound total B v) (h : Protected kept harmless v) (op : VolumeOp)
    (admits : Admits kept harmless (.volume op)) :
    Protected kept harmless (finalState (op.program V v)) := by
  obtain ⟨B, sound⟩ := sound
  cases op with
  | readBlock blockIdx =>
    rw [VolumeOp.program, finalState_bind_pure]
    exact readBlock_protected shield blockIdx v h
  | writeBlock blockIdx payload nonce =>
    rw [VolumeOp.program, finalState_bind_pure]
    exact writeBlock_protected shield admits tagged h rfl payload nonce
  | readBlockRaw blockIdx =>
    rw [VolumeOp.program, finalState_bind_pure]
    exact readBlockRaw_protected shield blockIdx v h
  | writeBlockRaw blockIdx data =>
    rw [VolumeOp.program, finalState_bind_pure]
    exact writeBlockRaw_protected shield admits h rfl data
  | allocateBlock =>
    rw [VolumeOp.program, finalState_bind_pure]
    exact taken_protected shield admits h (allocateBlock_final sound)
  | reserveBlock blockIdx =>
    rw [VolumeOp.program, finalState_bind_pure]
    exact taken_protected shield admits h (reserveBlock_final sound)
  | freeBlock blockIdx =>
    rw [VolumeOp.program, finalState_bind_pure]
    exact freeBlock_protected shield admits sound h rfl

theorem step_protected (shield : Shield kept harmless) (tagged : V.ChachaTagged)
    (steady : Steady V key total v) (h : Protected kept harmless v) (step : Step)
    (admits : Admits kept harmless step.op) (safe : ¬ step.Discards) :
    Steady V key total (step.run V v) ∧ Protected kept harmless (step.run V v) := by
  obtain ⟨script, op⟩ := step
  have hsteady : Steady V key total (v.facing script) := steady.moved v.file.cursor script
  have hprotected : Protected kept harmless (v.facing script) :=
    h.moved shield v.file.cursor script
  cases op with
  | volume op =>
    exact ⟨hsteady.program op, volume_protected shield tagged hsteady.sound hprotected op admits⟩
  | secureEraseBlock blockIdx payload nonce =>
    rw [Step.run, VaultOp.program, finalState_bind_pure]
    have hwritten : Steady V key total
        (finalState (writeBlock V blockIdx payload nonce (v.facing script))) := by
      have hwritten := hsteady.program (.writeBlock blockIdx payload nonce)
      rwa [VolumeOp.program, finalState_bind_pure] at hwritten
    refine finalState_bind (fun w => Steady V key total w ∧ Protected kept harmless w)
      ⟨hwritten, writeBlock_protected shield admits tagged hprotected rfl payload nonce⟩ ?_
    rintro - w ⟨hsteady', hprotected'⟩
    obtain ⟨B, hsound⟩ := hsteady'.sound
    have hfreed := hsteady'.program (.freeBlock blockIdx)
    rw [VolumeOp.program, finalState_bind_pure] at hfreed
    exact ⟨hfreed, freeBlock_protected shield admits hsound hprotected' rfl⟩
  | reopen n capacity =>
    rw [Step.run, VaultOp.program, finalState_bind_pure]
    rcases reopen_cases hsteady capacity safe with
      ⟨cursor, script', hfinal⟩ | ⟨hopened, ⟨cursor, script', hfile⟩, hbitmap⟩
    · rw [hfinal]
      exact ⟨hsteady.moved cursor script', hprotected.moved shield cursor script'⟩
    · refine ⟨hopened, ?_, ?_⟩
      · rw [hfile]
        exact shield.quiet cursor script' hprotected.file
      · rw [hbitmap]
        exact admits.loads _ hprotected.file

theorem through_protected (shield : Shield kept harmless) (tagged : V.ChachaTagged)
    (steps : List Step) (steady : Steady V key total v) (h : Protected kept harmless v)
    (admits : ∀ step ∈ steps, Admits kept harmless step.op ∧ ¬ step.Discards) :
    Steady V key total (through V v steps) ∧ Protected kept harmless (through V v steps) := by
  induction steps generalizing v with
  | nil => exact ⟨steady, h⟩
  | cons step steps ih =>
    obtain ⟨hadmits, hsafe⟩ := admits step (List.mem_cons_self ..)
    obtain ⟨hsteady, hprotected⟩ := step_protected shield tagged steady h step hadmits hsafe
    exact ih hsteady hprotected fun step hstep => admits step (List.mem_cons_of_mem _ hstep)

end Protection

section Payloads

variable {V : VaultPrimitives} {v w : Volume} {blockIdx : Nat} {payload : Exactly payloadSize}
  {nonce : Exactly nonceSize} {key : Bytes} {total : Nat}

theorem ok_of_writeBlock (stores : writeBlock V blockIdx payload nonce v = .ok () w) :
    v.inRange blockIdx ∧ ∃ ciphertext,
      V.chachaEncrypt (deriveBlockKey V v.masterKey blockIdx) nonce payload = some ciphertext ∧
      w.file.bytes = splice v.file.bytes (blockIdx * blockSize) (nonce ++ ciphertext) := by
  by_cases range : v.inRange blockIdx
  · refine ⟨range, ?_⟩
    cases hseal : V.chachaEncrypt (deriveBlockKey V v.masterKey blockIdx) nonce payload with
    | none =>
      rw [writeBlock_unsealed range hseal] at stores
      cases stores
    | some ciphertext =>
      rw [writeBlock_eq range hseal] at stores
      obtain ⟨⟨⟩, v₁, hseek, stores⟩ := ok_of_bind stores
      obtain ⟨⟨⟩, v₂, hnonce, stores⟩ := ok_of_bind stores
      obtain ⟨⟨⟩, v₃, hcipher, stores⟩ := ok_of_bind stores
      obtain ⟨f₁, hf₁, rfl⟩ := ok_of_onFile hseek
      obtain ⟨f₂, hf₂, rfl⟩ := ok_of_onFile hnonce
      obtain ⟨f₃, hf₃, rfl⟩ := ok_of_onFile hcipher
      obtain ⟨f₄, hf₄, rfl⟩ := ok_of_onFile stores
      have hquiet := quiet_bytes freezeTimestamps_quiet f₃
      rw [hf₄, finalState_ok] at hquiet
      refine ⟨ciphertext, rfl, ?_⟩
      change f₄.bytes = _
      rw [hquiet, ok_of_writeAll hf₃, ok_of_writeAll hf₂, ok_of_seek hf₁]
      exact splice_splice_adjacent
  · rw [writeBlock_outside range] at stores
    cases stores

theorem admits_other {op : VaultOp} (low : dataStartBlock ≤ blockIdx)
    (other : written op ≠ some blockIdx) {block : Bytes} (width : block.length = blockSize) :
    Admits (Holds (blockIdx * blockSize) block)
      (Clears (blockIdx * blockSize) block.length) op where
  takes bitmap bitIdx h := by rwa [Clears, set_length]
  frees _ bitmap _ _ h := by rwa [Clears, clear_length]
  writes index writes _ data hdata := by
    have hne : index ≠ blockIdx := by
      rintro rfl
      exact other writes
    rw [Clears, hdata, width, ← Nat.succ_mul, ← Nat.succ_mul]
    rcases Nat.lt_or_gt_of_ne hne with hlt | hgt
    · exact Or.inl (Nat.mul_le_mul_right _ hlt)
    · exact Or.inr (Nat.mul_le_mul_right _ hgt)
  loads f _ := by
    have hlength : (slice f.bytes bitmapStart (bitmapBlocks * blockSize)).length ≤
        bitmapBlocks * blockSize := List.length_take_le _ _
    have hmeta : bitmapStart + bitmapBlocks * blockSize = dataStartBlock * blockSize := rfl
    have hlow : dataStartBlock * blockSize ≤ blockIdx * blockSize := Nat.mul_le_mul_right _ low
    exact Or.inl (by omega)

theorem clears_bitmap (steady : Steady V key total v) (low : dataStartBlock ≤ blockIdx)
    (count : Nat) : Clears (blockIdx * blockSize) count bitmapStart v.blockBitmap := by
  obtain ⟨B, hsound⟩ := steady.sound
  have hmeta : bitmapStart + bitmapBlocks * blockSize = dataStartBlock * blockSize := rfl
  have hlow : dataStartBlock * blockSize ≤ blockIdx * blockSize := Nat.mul_le_mul_right _ low
  rw [Clears, hsound.width]
  exact Or.inl (by omega)

end Payloads

/-- A payload that `write_block` has accepted outlives every run that does not write
to its block: whatever else is read, written, taken, given back or opened again and
whichever calls fail in it, the block can be read, and no read returns anything
else. The exception is an opening that discards the container. -/
theorem written_payload_survives {V : VaultPrimitives} (inverts : V.ChachaInverts)
    (tagged : V.ChachaTagged) {v w : Volume} (reachable : Reachable V v)
    {script : List (Option Fault)} {blockIdx : Nat} {payload : Exactly payloadSize}
    {nonce : Exactly nonceSize}
    (stores : writeBlock V blockIdx payload nonce (v.facing script) = .ok () w)
    (steps : List Step)
    (spares : ∀ step ∈ steps, written step.op ≠ some blockIdx ∧ ¬ step.Discards) :
    readable V (through V w steps) blockIdx = some payload ∧
      ∀ script found u, readBlock V blockIdx ((through V w steps).facing script) = .ok found u →
        found = payload := by
  obtain ⟨range, ciphertext, hseal, hbytes⟩ := ok_of_writeBlock stores
  have hlow : dataStartBlock ≤ blockIdx := range.1
  have hwidth : (nonce.val ++ ciphertext).length = blockSize := sealed_length tagged hseal
  have hsteady : Steady V v.masterKey v.totalBlocks w :=
    (steady_of_reachable reachable).returned (.writeBlock blockIdx payload nonce) rfl script stores
  have hholds : Holds (blockIdx * blockSize) (nonce.val ++ ciphertext) w.file := by
    refine ⟨hsteady.present, ?_, ?_⟩
    · rw [hbytes]
      exact le_length_splice (List.ne_nil_of_length_pos (by rw [hwidth]; decide))
    · rw [hbytes, slice_splice_self]
  obtain ⟨hfinal, hkept⟩ := through_protected (shield_holds (blockIdx * blockSize) _) tagged steps
    hsteady ⟨hholds, clears_bitmap hsteady hlow _⟩ fun step hstep =>
      ⟨admits_other hlow (spares step hstep).1 hwidth, (spares step hstep).2⟩
  obtain ⟨head, hhead, -⟩ := hfinal.kept
  obtain ⟨hpresent, hfits, hslice⟩ := hkept.file
  rw [hwidth] at hfits hslice
  have hopens : ∀ found : Exactly payloadSize,
      V.chachaDecrypt (deriveBlockKey V (through V w steps).masterKey blockIdx)
        (((through V w steps).blockAt blockIdx).take nonceSize)
        (((through V w steps).blockAt blockIdx).drop nonceSize) = some found.val ↔
      found = payload := by
    intro found
    rw [Volume.blockAt, hslice, List.take_left' nonce.property, List.drop_left' nonce.property,
      hhead.key]
    have hback : V.chachaDecrypt (deriveBlockKey V v.masterKey blockIdx) nonce ciphertext =
        some payload.val := inverts hseal
    rw [hback, Option.some_inj, Subtype.val_inj, eq_comm]
  refine ⟨(readable_iff hpresent).mpr ⟨⟨hlow, ?_⟩, hfits, (hopens payload).mpr rfl⟩, ?_⟩
  · rw [hhead.blocks]
    exact range.2
  · intro script' found u hread
    exact (hopens found).mp (ok_of_readBlock hread).2.2

theorem written_payload_survives_crash :
    readable TornWrite.nonceVault (through TornWrite.nonceVault TornWrite.filledVolume
      [⟨[some ⟨5, 0⟩], .volume .allocateBlock⟩,
        ⟨TornWrite.stopsAfter 2 5,
          .volume (.writeBlock 10 TornWrite.otherPayload TornWrite.otherNonce)⟩,
        ⟨[], .reopen 3 (by decide)⟩]) 9 = some BlockStore.samplePayload := by
  -- A payload in block 9, then an allocation whose first call fails, a write to block 10 that
  -- stops between nonce and ciphertext, and an opening.
  have hfresh : Reachable TornWrite.nonceVault TornWrite.freshTornVolume :=
    .opened (.created sampleKey 3 (by decide) absentFile _ (createNew_healthy rfl rfl))
  have hstores : writeBlock TornWrite.nonceVault 9 BlockStore.samplePayload BlockStore.sampleNonce
      (TornWrite.freshTornVolume.facing []) = .ok () TornWrite.filledVolume := by
    have hrun := writeBlock_ready TornWrite.live_freshTornVolume.intact.ready
      (show TornWrite.freshTornVolume.inRange 9 by decide)
      (TornWrite.nonceVault_seals (deriveBlockKey TornWrite.nonceVault sampleKey 9)
        BlockStore.samplePayload BlockStore.sampleNonce)
    have hfacing : TornWrite.freshTornVolume.facing [] = TornWrite.freshTornVolume :=
      Volume.facing_self rfl
    rw [hfacing, TornWrite.filledVolume, hrun, finalState_ok]
  refine (written_payload_survives TornWrite.nonceVault_chachaInverts
    TornWrite.nonceVault_chachaTagged hfresh hstores _ ?_).1
  simp [written, Step.Discards, VirtualVolume.Discards, outcomeAt]

section Allocations

variable {V : VaultPrimitives} {v w : Volume} {bitIdx : Nat} {B : Bytes} {total : Nat}

theorem ok_of_writeBitmap (stores : writeBitmap v = .ok () w) :
    w.file.bytes = splice v.file.bytes bitmapStart v.blockBitmap ∧
      w.blockBitmap = v.blockBitmap := by
  obtain ⟨⟨⟩, v₁, hseek, stores⟩ := ok_of_bind stores
  obtain ⟨f₁, hf₁, rfl⟩ := ok_of_onFile hseek
  rw [bind_ok (get_apply _)] at stores
  obtain ⟨⟨⟩, v₂, hwrite, stores⟩ := ok_of_bind stores
  obtain ⟨f₂, hf₂, rfl⟩ := ok_of_onFile hwrite
  have hquiet : Quiet (do syncAll; freezeTimestamps) := touch_quiet.bind fun _ =>
    freezeTimestamps_quiet
  obtain ⟨⟨⟩, v₃, hsync, stores⟩ := ok_of_bind stores
  obtain ⟨f₃, hf₃, rfl⟩ := ok_of_onFile hsync
  obtain ⟨f₄, hf₄, rfl⟩ := ok_of_onFile stores
  have hbytes := quiet_bytes hquiet f₂
  rw [bind_ok hf₃, hf₄, finalState_ok] at hbytes
  refine ⟨?_, rfl⟩
  change f₄.bytes = _
  rw [hbytes, ok_of_writeAll hf₂, ok_of_seek hf₁]
  rfl

theorem ok_of_allocateBlock (sound : Sound total B v) {blockIdx : Nat}
    (issues : allocateBlock v = .ok blockIdx w) :
    ∃ bitIdx < total - dataStartBlock, blockIdx = dataStartBlock + bitIdx ∧
      test v.blockBitmap bitIdx = false ∧ writeBitmap (taken v bitIdx) = .ok () w := by
  by_cases free : v.freeBlocks = 0
  · rw [allocateBlock, bind_ok (get_apply v), if_pos free] at issues
    cases issues
  · obtain ⟨i, hi, hclear, hset⟩ := sound.first_clear free
    rw [allocateBlock_eq sound hi hclear hset] at issues
    obtain ⟨⟨⟩, w', htake, issues⟩ := ok_of_bind issues
    rw [takeBit_eq (sound.free_pos hi hclear)] at htake
    cases issues
    exact ⟨i, hi, rfl, hclear, htake⟩

def HasBit (bitIdx : Nat) (byte : UInt8) : Prop := (byte &&& mask bitIdx != 0) = true

abbrev StoredBit (bitIdx : Nat) : File → Prop := CellIs (bitmapStart + bitIdx >>> 3) (HasBit bitIdx)

abbrev KeepsBit (bitIdx : Nat) : Nat → Bytes → Prop :=
  CellKept (bitmapStart + bitIdx >>> 3) (HasBit bitIdx)

theorem keepsBit_iff {bitmap : Bytes} :
    KeepsBit bitIdx bitmapStart bitmap ↔
      (bitIdx >>> 3 < bitmap.length → test bitmap bitIdx = true) := by
  rw [KeepsBit, CellKept, Nat.add_sub_cancel_left, test, List.getD_eq_getElem?_getD]
  constructor
  · intro keeps stored
    have hbyte := List.getElem?_eq_getElem stored
    rw [hbyte]
    exact keeps (Nat.le_add_right _ _) _ hbyte
  · intro holds _ byte hbyte
    have htest := holds (List.getElem?_eq_some_iff.mp hbyte).1
    rw [hbyte] at htest
    exact htest

theorem admits_held {op : VaultOp} {blockIdx : Nat} (low : dataStartBlock ≤ blockIdx)
    (stored : (blockIdx - dataStartBlock) >>> 3 < bitmapBlocks * blockSize)
    (held : freed op ≠ some blockIdx) :
    Admits (StoredBit (blockIdx - dataStartBlock)) (KeepsBit (blockIdx - dataStartBlock)) op where
  takes bitmap i h := by
    rw [keepsBit_iff] at h ⊢
    rw [set_length]
    intro inside
    by_cases hi : i >>> 3 < bitmap.length
    · rw [test_set hi, h inside, Bool.or_true]
    · rw [PackedBits.set, List.set_eq_of_length_le (by omega)]
      exact h inside
  frees index bitmap frees hlow h := by
    have hne : blockIdx - dataStartBlock ≠ index - dataStartBlock := by
      intro hsame
      have hindex : index = blockIdx := by omega
      rw [hindex] at frees
      exact held frees
    rw [keepsBit_iff] at h ⊢
    rw [clear_length]
    intro inside
    by_cases hi : (index - dataStartBlock) >>> 3 < bitmap.length
    · rw [test_clear hi, h inside, decide_eq_false hne]
      rfl
    · rw [PackedBits.clear, List.set_eq_of_length_le (by omega)]
      exact h inside
  writes index _ hlow data _ := by
    intro hbefore
    have hmeta : bitmapStart + bitmapBlocks * blockSize = dataStartBlock * blockSize := rfl
    have hstart : dataStartBlock * blockSize ≤ index * blockSize := Nat.mul_le_mul_right _ hlow
    omega
  loads f h := by
    obtain ⟨byte, hbyte, hbit⟩ := h
    intro _ byte' hbyte'
    rw [Nat.add_sub_cancel_left, getElem?_slice, if_pos stored, hbyte] at hbyte'
    cases hbyte'
    exact hbit

theorem storedBit_of_slice {bitmap : Bytes} (inside : bitIdx >>> 3 < bitmap.length)
    (set : test bitmap bitIdx = true) {f : File}
    (stored : slice f.bytes bitmapStart bitmap.length = bitmap) : StoredBit bitIdx f := by
  have hindex := getElem?_slice f.bytes bitmapStart bitmap.length (bitIdx >>> 3)
  rw [stored, if_pos inside, List.getElem?_eq_getElem inside] at hindex
  refine ⟨_, hindex.symm, ?_⟩
  rwa [test, List.getD_eq_getElem?_getD, List.getElem?_eq_getElem inside] at set

end Allocations

/-- A block that `allocate_block` has handed out is not handed out again before
`free_block` or `secure_erase_block` is called on it, whatever other calls are made,
whichever system calls fail and however often the container is opened again without
being discarded. -/
theorem allocated_block_not_reissued {V : VaultPrimitives} (tagged : V.ChachaTagged)
    {v w : Volume} (reachable : Reachable V v) {script : List (Option Fault)} {blockIdx : Nat}
    (issues : allocateBlock (v.facing script) = .ok blockIdx w) (steps : List Step)
    (held : ∀ step ∈ steps, freed step.op ≠ some blockIdx ∧ ¬ step.Discards)
    (later : List (Option Fault)) {other : Nat} {u : Volume}
    (again : allocateBlock ((through V w steps).facing later) = .ok other u) :
    other ≠ blockIdx := by
  have hstart : Steady V v.masterKey v.totalBlocks (v.facing script) :=
    (steady_of_reachable reachable).moved v.file.cursor script
  have hsteady : Steady V v.masterKey v.totalBlocks w :=
    (steady_of_reachable reachable).returned .allocateBlock rfl script issues
  obtain ⟨B, hsound⟩ := hstart.sound
  obtain ⟨bitIdx, hbit, rfl, -, hstores⟩ := ok_of_allocateBlock hsound issues
  have hinside := hsound.stored hbit
  obtain ⟨hbytes, hbitmap⟩ := ok_of_writeBitmap hstores
  have hset : test (taken (v.facing script) bitIdx).blockBitmap bitIdx = true := by
    have hset := test_set hinside bitIdx
    rwa [decide_eq_true rfl, Bool.true_or] at hset
  have hwidth : (taken (v.facing script) bitIdx).blockBitmap.length = bitmapBlocks * blockSize :=
    (set_length _ _).trans hsound.width
  have hdisk : StoredBit bitIdx w.file := by
    refine storedBit_of_slice (by rwa [hwidth, ← hsound.width]) hset ?_
    rw [hbytes, slice_splice_self]
  have hmemory : KeepsBit bitIdx bitmapStart w.blockBitmap := by
    rw [keepsBit_iff, hbitmap]
    exact fun _ => hset
  have hback : dataStartBlock + bitIdx - dataStartBlock = bitIdx := Nat.add_sub_cancel_left _ _
  have hadmits : ∀ step ∈ steps, Admits (StoredBit bitIdx) (KeepsBit bitIdx) step.op ∧
      ¬ step.Discards := by
    intro step hstep
    refine ⟨?_, (held step hstep).2⟩
    have hheld := admits_held (Nat.le_add_right _ _) (by rwa [hback, ← hsound.width])
      (held step hstep).1
    rwa [hback] at hheld
  obtain ⟨hfinal, hkept⟩ :=
    through_protected (shield_cell _ _) tagged steps hsteady ⟨hdisk, hmemory⟩ hadmits
  obtain ⟨B', hsound'⟩ := hfinal.sound
  obtain ⟨bitIdx', hbit', rfl, hclear, -⟩ := ok_of_allocateBlock (hsound'.file _) again
  intro hsame
  have hsame : bitIdx' = bitIdx := Nat.add_left_cancel hsame
  have htest := keepsBit_iff.mp hkept.memory (hsound'.stored hbit)
  rw [hsame] at hclear
  exact absurd (htest.symm.trans hclear) (by decide)

theorem allocated_block_not_reissued_opened : ∃ w,
    allocateBlock sampleVolume = .ok 9 w ∧
      ∀ later other u, allocateBlock ((through symbolicVault w
        [⟨TornWrite.stopsAfter 2 5, .volume (.reserveBlock 10)⟩, ⟨[], .reopen 3 (by decide)⟩,
          ⟨[], .volume (.writeBlock 9 BlockStore.samplePayload BlockStore.sampleNonce)⟩]).facing
            later) = .ok other u → other ≠ 9 := by
  -- Block 9 is allocated; then a reservation fails after its bitmap is written, the container
  -- is opened again, and block 9 is written to.
  have hopened : Opened symbolicVault sampleVolume :=
    .created sampleKey 3 (by decide) absentFile _ createNew_sample
  have hready : Ready sampleVolume.file := ⟨rfl, rfl⟩
  have hissues := allocateBlock_ready (sound_of_opened hopened) hready
    (show 0 < sampleVolume.totalBlocks - dataStartBlock by decide) (test_replicate_zero _ 0)
    (fun j hj => absurd hj (Nat.not_lt_zero j))
  refine ⟨_, hissues, fun later other u again => ?_⟩
  have hfacing : sampleVolume.facing [] = sampleVolume := Volume.facing_self rfl
  exact allocated_block_not_reissued symbolicVault_chachaTagged (.opened hopened)
    (hfacing ▸ hissues) _ (by simp [freed, Step.Discards, VirtualVolume.Discards, outcomeAt]) later
    again

end SecureCore.Durability
