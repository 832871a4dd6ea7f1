import SecureCore.Reopen

/-! Volumes that failing system calls have left behind. An operation writes only
behind the superblock and leaves key and size alone, so whatever calls failed, the
container can be opened again as the volume it was. What a volume holds is what
`read_block` returns once the system calls work again. -/

namespace SecureCore.VirtualVolume

open FaultyFile FallibleState PackedBits ByteImage

section Quiet

variable {α β : Type}

def Quiet (m : FileM α) : Prop :=
  ∀ f, ∃ cursor script, finalState (m f) = { f with cursor := cursor, script := script }

theorem Quiet.bind {m : FileM α} {g : α → FileM β} (hm : Quiet m) (hg : ∀ a, Quiet (g a)) :
    Quiet (m >>= g) := by
  intro f
  obtain ⟨cursor, script, hfirst⟩ := hm f
  cases hrun : m f with
  | ok a f' =>
    rw [hrun, finalState_ok] at hfirst
    rw [bind_ok hrun, hfirst]
    exact hg a _
  | error e f' =>
    rw [bind_error hrun]
    rw [hrun] at hfirst
    exact ⟨cursor, script, hfirst⟩

theorem Quiet.preserves {m : FileM α} (h : Quiet m) {inv : File → Prop}
    (stable : ∀ f cursor script, inv f → inv { f with cursor := cursor, script := script }) :
    Preserves inv m := by
  intro f hf
  obtain ⟨cursor, script, hfinal⟩ := h f
  rw [hfinal]
  exact stable f cursor script hf

theorem call_quiet {effect : FileM α} (h : Quiet effect) : Quiet (call effect) := by
  intro f
  rw [call, bind_ok (outcome_eq f)]
  cases f.script.headD none with
  | none => exact h _
  | some fault => exact ⟨f.cursor, f.script.tail, rfl⟩

theorem seek_quiet (position : Nat) : Quiet (seek position) :=
  call_quiet fun f => ⟨position, f.script, rfl⟩

theorem readExact_quiet (count : Nat) : Quiet (readExact count) := by
  refine call_quiet fun f => ?_
  rw [bind_ok (get_apply f)]
  split_ifs
  · exact ⟨_, f.script, rfl⟩
  · exact ⟨_, f.script, rfl⟩

theorem metadata_quiet : Quiet metadata := by
  refine call_quiet fun f => ?_
  rw [bind_ok (get_apply f)]
  split_ifs
  · exact ⟨f.cursor, f.script, rfl⟩
  · exact ⟨f.cursor, f.script, rfl⟩

theorem touch_quiet : Quiet (call (pure () : FileM Unit)) :=
  call_quiet fun f => ⟨f.cursor, f.script, rfl⟩

theorem freezeTimestamps_quiet : Quiet freezeTimestamps :=
  metadata_quiet.bind fun _ => touch_quiet.bind fun _ => touch_quiet.bind fun _ => touch_quiet

end Quiet

/-- A property of volumes that reading, a change of the bitmap in memory and its
storage keep. -/
structure Tolerates (inv : Volume → Prop) : Prop where
  quiet : ∀ {α : Type} {m : FileM α}, Quiet m → Preserves inv (onFile m)
  memory : ∀ v bitmap free, inv v → bitmap.length = v.blockBitmap.length →
    inv { v with blockBitmap := bitmap, freeBlocks := free }
  bitmap : Preserves inv writeBitmap

namespace Tolerates

variable {inv : Volume → Prop} {V : VaultPrimitives}

theorem checkDataBlock (blockIdx : Nat) : Preserves inv (checkDataBlock blockIdx) := by
  refine .bind .get fun v => ?_
  split_ifs
  · exact .throw _
  · exact .pure _

theorem subtract (a b : Nat) : Preserves inv (subtract a b) := by
  rw [VirtualVolume.subtract]
  split_ifs
  · exact .throw _
  · exact .pure _

theorem bitIsClear (bitIdx : Nat) : Preserves inv (bitIsClear bitIdx) := by
  refine .bind .get fun v => .bind ?_ fun _ => .pure _
  rw [indexed]
  split
  · exact .pure _
  · exact .throw _

variable (h : Tolerates inv)
include h

theorem takeBit (bitIdx : Nat) : Preserves inv (takeBit bitIdx) :=
  .bind (.modify fun v hv => h.memory v _ _ hv (set_length _ _)) fun _ => .bind .get fun _ =>
    .bind (subtract _ _) fun _ =>
      .bind (.modify fun v hv => h.memory v _ _ hv rfl) fun _ => h.bitmap

theorem allocateScan (remaining bitIdx : Nat) :
    Preserves inv (allocateScan remaining bitIdx) := by
  induction remaining generalizing bitIdx with
  | zero => exact .throw _
  | succ remaining ih =>
    refine .bind (bitIsClear _) fun clear => ?_
    split
    · exact .bind (h.takeBit _) fun _ => .pure _
    · exact ih _

theorem allocateBlock : Preserves inv allocateBlock := by
  refine .bind .get fun v => ?_
  split_ifs
  · exact .throw _
  · exact .bind (subtract _ _) fun _ => h.allocateScan _ _

theorem reserveBlock (blockIdx : Nat) : Preserves inv (reserveBlock blockIdx) := by
  refine .bind (checkDataBlock _) fun _ => .bind (bitIsClear _) fun clear => ?_
  split
  · exact h.takeBit _
  · exact .pure _

theorem freeBlock (blockIdx : Nat) : Preserves inv (freeBlock blockIdx) := by
  refine .bind (checkDataBlock _) fun _ => .bind (bitIsClear _) fun clear => ?_
  split
  · exact .throw _
  · exact .bind (.modify fun v hv => h.memory v _ _ hv (clear_length _ _)) fun _ => h.bitmap

theorem readBlock (blockIdx : Nat) : Preserves inv (readBlock V blockIdx) := by
  refine .bind (checkDataBlock _) fun _ => .bind (h.quiet (seek_quiet _)) fun _ =>
    .bind (h.quiet (readExact_quiet _)) fun raw => .bind .get fun v => ?_
  intro w hw
  rwa [finalState_copyPlaintext]

theorem readBlockRaw (blockIdx : Nat) : Preserves inv (readBlockRaw blockIdx) :=
  .bind (checkDataBlock _) fun _ => .bind (h.quiet (seek_quiet _)) fun _ =>
    h.quiet (readExact_quiet _)

theorem program
    (writes : ∀ blockIdx plaintext nonce, Preserves inv (writeBlock V blockIdx plaintext nonce))
    (writesRaw : ∀ blockIdx data, Preserves inv (writeBlockRaw blockIdx data)) (op : VolumeOp) :
    Preserves inv (op.program V) := by
  cases op with
  | readBlock blockIdx => exact .bind (h.readBlock _) fun _ => .pure _
  | writeBlock blockIdx plaintext nonce => exact .bind (writes _ _ _) fun _ => .pure _
  | readBlockRaw blockIdx => exact .bind (h.readBlockRaw _) fun _ => .pure _
  | writeBlockRaw blockIdx data => exact .bind (writesRaw _ _) fun _ => .pure _
  | allocateBlock => exact .bind h.allocateBlock fun _ => .pure _
  | reserveBlock blockIdx => exact .bind (h.reserveBlock _) fun _ => .pure _
  | freeBlock blockIdx => exact .bind (h.freeBlock _) fun _ => .pure _

end Tolerates

/-- A property of the file that no write behind the superblock disturbs, and a
property of the volume's key and size. -/
structure Framed (F : File → Prop) (R : Volume → Prop) : Prop where
  quiet : ∀ f cursor script, F f → F { f with cursor := cursor, script := script }
  stored : ∀ f data, F f → blockSize ≤ f.cursor → F (put data f)
  memory : ∀ v file bitmap free, R v →
    R { v with file := file, blockBitmap := bitmap, freeBlocks := free }

namespace Framed

variable {F : File → Prop} {R : Volume → Prop} {V : VaultPrimitives} {α : Type}

def Placed (F : File → Prop) (R : Volume → Prop) (v : Volume) : Prop :=
  (F v.file ∧ R v) ∧ blockSize ≤ v.file.cursor

section

variable (framed : Framed F R)
include framed

theorem file {v : Volume} (h : R v) (f : File) : R { v with file := f } :=
  framed.memory v f v.blockBitmap v.freeBlocks h

theorem onFile_quiet {m : FileM α} (h : Quiet m) :
    Preserves (fun v => F v.file ∧ R v) (onFile m) := by
  rintro v ⟨hfile, hrest⟩
  obtain ⟨cursor, script, hfinal⟩ := h v.file
  rw [finalState_onFile, hfinal]
  exact ⟨framed.quiet v.file cursor script hfile, framed.file hrest _⟩

theorem onFile_seek {position : Nat} (behind : blockSize ≤ position) :
    Spec (fun v => F v.file ∧ R v) (onFile (seek position)) (fun _ => Placed F R)
      (fun _ v => F v.file ∧ R v) := by
  rintro v ⟨hfile, hrest⟩
  cases hrun : seek position v.file with
  | ok a f =>
    have hmoved := ok_of_seek hrun
    rw [onFile_ok hrun, hmoved]
    exact ⟨⟨framed.quiet _ _ _ hfile, framed.file hrest _⟩, behind⟩
  | error e f =>
    have hkept := framed.onFile_quiet (seek_quiet position) v ⟨hfile, hrest⟩
    rwa [onFile_error hrun] at hkept ⊢

theorem onFile_writeAll (data : Bytes) :
    Spec (Placed F R) (onFile (writeAll data)) (fun _ => Placed F R)
      (fun _ v => F v.file ∧ R v) := by
  rintro v ⟨⟨hfile, hrest⟩, hcursor⟩
  have hscript := framed.quiet v.file v.file.cursor v.file.script.tail hfile
  rcases writeAll_cases data v.file with hrun | ⟨code, progress, hrun⟩
  · rw [onFile_ok hrun]
    refine ⟨⟨framed.stored _ _ hscript hcursor, framed.file hrest _⟩, ?_⟩
    exact hcursor.trans (Nat.le_add_right _ _)
  · rw [onFile_error hrun]
    exact ⟨framed.stored _ _ hscript hcursor, framed.file hrest _⟩

theorem freezeTimestamps :
    Spec (Placed F R) (onFile freezeTimestamps) (fun _ v => F v.file ∧ R v)
      (fun _ v => F v.file ∧ R v) :=
  (Spec.of_preserves (framed.onFile_quiet freezeTimestamps_quiet)).consequence
    (fun _ h => h.1) (fun _ _ h => h) (fun _ _ h => h)

theorem writeBitmap : Preserves (fun v => F v.file ∧ R v) writeBitmap := by
  refine Spec.preserves (Spec.bind (framed.onFile_seek (by decide)) fun _ =>
    Spec.get_bind fun w => ?_)
  refine Spec.consequence ?_ (fun _ h => h.2) (fun _ _ h => h) (fun _ _ h => h)
  refine Spec.bind (framed.onFile_writeAll _) fun _ => ?_
  refine Spec.consequence ?_ (fun _ h => h.1) (fun _ _ h => h) (fun _ _ h => h)
  exact Spec.bind (Spec.of_preserves (framed.onFile_quiet touch_quiet)) fun _ =>
    Spec.of_preserves (framed.onFile_quiet freezeTimestamps_quiet)

theorem tolerates : Tolerates (fun v => F v.file ∧ R v) where
  quiet := framed.onFile_quiet
  memory v bitmap free h _ := ⟨h.1, framed.memory v v.file bitmap free h.2⟩
  bitmap := framed.writeBitmap

end

theorem checkDataBlock (blockIdx : Nat) :
    Spec (fun v => F v.file ∧ R v) (checkDataBlock blockIdx)
      (fun _ v => (F v.file ∧ R v) ∧ blockSize ≤ blockIdx * blockSize)
      (fun _ v => F v.file ∧ R v) := by
  intro v h
  by_cases range : v.inRange blockIdx
  · rw [checkDataBlock_ok range]
    have hstart : blockSize ≤ dataStartBlock * blockSize := by decide
    exact ⟨h, hstart.trans range.bounds.1⟩
  · rw [checkDataBlock_error range]
    exact h

section

variable (framed : Framed F R)
include framed

theorem writeBlock (blockIdx : Nat) (plaintext : Exactly payloadSize) (nonce : Exactly nonceSize) :
    Preserves (fun v => F v.file ∧ R v) (writeBlock V blockIdx plaintext nonce) := by
  refine Spec.preserves (Spec.bind (checkDataBlock blockIdx) fun _ => Spec.get_bind fun v => ?_)
  dsimp only
  split
  · exact Spec.of_throw fun _ h => h.2.1
  · rintro w ⟨-, h, hoffset⟩
    refine Spec.bind (framed.onFile_seek hoffset) (fun _ => ?_) _ h
    exact Spec.bind (framed.onFile_writeAll _) fun _ =>
      Spec.bind (framed.onFile_writeAll _) fun _ => framed.freezeTimestamps

theorem writeBlockRaw (blockIdx : Nat) (data : Exactly blockSize) :
    Preserves (fun v => F v.file ∧ R v) (writeBlockRaw blockIdx data) := by
  refine Spec.preserves (Spec.bind (checkDataBlock blockIdx) fun _ => ?_)
  rintro v ⟨h, hoffset⟩
  refine Spec.bind (framed.onFile_seek hoffset) (fun _ => ?_) _ h
  exact (framed.onFile_writeAll _).consequence (fun _ h => h) (fun _ _ h => h.1) (fun _ _ h => h)

theorem program (op : VolumeOp) : Preserves (fun v => F v.file ∧ R v) (op.program V) :=
  framed.tolerates.program framed.writeBlock framed.writeBlockRaw op

end

end Framed

def Volume.facing (v : Volume) (script : List (Option Fault)) : Volume :=
  { v with file := { v.file with script := script } }

theorem Volume.facing_self {v : Volume} {script : List (Option Fault)}
    (h : v.file.script = script) : v.facing script = v := by
  subst h
  rfl

/-- A volume that was created or opened, after any operations on it, with any
system calls failing at any time. -/
inductive Reachable (V : VaultPrimitives) : Volume → Prop where
  | opened {v : Volume} (h : Opened V v) : Reachable V v
  | step {v : Volume} (h : Reachable V v) (script : List (Option Fault)) (op : VolumeOp) :
      Reachable V (finalState (op.program V (v.facing script)))

structure Kept (head masterKey : Bytes) (total : Nat) (v : Volume) : Prop where
  present : v.file.exists? = true
  length : dataStartBlock * blockSize ≤ v.file.bytes.length
  superblock : slice v.file.bytes 0 blockSize = head
  key : v.masterKey = masterKey
  blocks : v.totalBlocks = total

section Kept

variable {V : VaultPrimitives} {head masterKey : Bytes} {total : Nat} {v : Volume}

def Headed (head : Bytes) (f : File) : Prop :=
  f.exists? = true ∧ dataStartBlock * blockSize ≤ f.bytes.length ∧ slice f.bytes 0 blockSize = head

theorem headed_put {f : File} {data : Bytes} (h : Headed head f) (behind : blockSize ≤ f.cursor) :
    Headed head (put data f) := by
  obtain ⟨hpresent, hlength, hhead⟩ := h
  have hblock : blockSize ≤ dataStartBlock * blockSize := by decide
  refine ⟨hpresent, hlength.trans (length_le_splice _ _ _), ?_⟩
  exact (slice_splice_inside ((Nat.zero_add _).trans_le (hblock.trans hlength))
    (Or.inl ((Nat.zero_add _).trans_le behind))).trans hhead

theorem framed_kept : Framed (Headed head)
    (fun v => v.masterKey = masterKey ∧ v.totalBlocks = total) :=
  ⟨fun _ _ _ h => h, fun _ _ h behind => headed_put h behind, fun _ _ _ _ h => h⟩

theorem kept_iff : Kept head masterKey total v ↔
    Headed head v.file ∧ v.masterKey = masterKey ∧ v.totalBlocks = total :=
  ⟨fun h => ⟨⟨h.present, h.length, h.superblock⟩, h.key, h.blocks⟩,
    fun ⟨⟨hpresent, hlength, hhead⟩, hkey, hblocks⟩ =>
      ⟨hpresent, hlength, hhead, hkey, hblocks⟩⟩

theorem program_kept (op : VolumeOp) (h : Kept head masterKey total v) :
    Kept head masterKey total (finalState (op.program V v)) :=
  kept_iff.mpr (framed_kept.program op v (kept_iff.mp h))

/-- The head of a container that opens under this key with this size. -/
def Bootable (V : VaultPrimitives) (head masterKey : Bytes) (total : Nat) : Prop :=
  ∃ sb, readSuperblock head = some sb ∧ sb.masterKeyHash = hashMasterKey V masterKey ∧
    sb.totalBlocks = total

theorem created_kept {n : Nat} {f f' : File} (capacity : n ≤ maxDataBlocks)
    (h : createNew V masterKey n f = .ok v f') :
    v.file.bytes = freshImage V masterKey n ∧
      ∃ head, Kept head masterKey (dataStartBlock + n) v ∧
        Bootable V head masterKey (dataStartBlock + n) := by
  obtain ⟨⟨⟩, f₁, hopen, h⟩ := ok_of_bind h
  obtain ⟨⟨⟩, f₂, hresize, h⟩ := ok_of_bind h
  obtain ⟨⟨⟩, f₃, hseek, h⟩ := ok_of_bind h
  obtain ⟨⟨⟩, f₄, hsuper, h⟩ := ok_of_bind h
  obtain ⟨⟨⟩, f₅, hstart, h⟩ := ok_of_bind h
  obtain ⟨⟨⟩, f₆, hbitmap, h⟩ := ok_of_bind h
  obtain ⟨⟨⟩, f₇, hsync, h⟩ := ok_of_bind h
  rw [bind_ok (get_apply f₇)] at h
  have hfile : f₇.exists? = true ∧ f₇.bytes = freshImage V masterKey n := by
    rw [ok_of_syncAll hsync, ok_of_writeAll hbitmap, ok_of_seek hstart, ok_of_writeAll hsuper,
      ok_of_seek hseek, ok_of_setLen hresize, ok_of_openNew hopen]
    exact ⟨rfl, rfl⟩
  have hfresh : Intact (freshSuperblock V masterKey n) (freshVolume V masterKey n absentFile) :=
    intact_fresh rfl
  have hlength : dataStartBlock * blockSize ≤ (freshImage V masterKey n).length := by
    have hfits : (freshImage V masterKey n).length = (dataStartBlock + n) * blockSize :=
      hfresh.length
    rw [hfits]
    exact Nat.mul_le_mul_right _ (Nat.le_add_right _ _)
  cases h
  refine ⟨hfile.2, _, ⟨hfile.1, ?_, ?_, rfl, rfl⟩, _, readSuperblock_fresh capacity, rfl, rfl⟩
  · rw [hfile.2]
    exact hlength
  · rw [hfile.2]
    exact hfresh.superblock

theorem opened_kept {f f' : File} (h : openExisting V masterKey f = .ok v f') :
    v.file.bytes = f.bytes ∧
      ∃ head, Kept head masterKey v.totalBlocks v ∧ Bootable V head masterKey v.totalBlocks := by
  obtain ⟨⟨⟩, f₁, hopen, h⟩ := ok_of_bind h
  obtain ⟨⟨⟩, f₂, hseek, h⟩ := ok_of_bind h
  obtain ⟨raw, f₃, hread, h⟩ := ok_of_bind h
  obtain ⟨hpresent, hf₁⟩ := ok_of_openExisting hopen
  have hf₂ := ok_of_seek hseek
  obtain ⟨hraw, -, hf₃⟩ := ok_of_readExact hread
  cases hsb : readSuperblock raw with
  | none =>
    rw [hsb] at h
    cases h
  | some sb =>
    rw [hsb] at h
    dsimp only [openAuthenticated] at h
    split_ifs at h with hkey hrange
    · cases h
    · obtain ⟨⟨⟩, f₄, hstart, h⟩ := ok_of_bind h
      obtain ⟨bitmap, f₅, hbitmap, h⟩ := ok_of_bind h
      cases h
    · obtain ⟨⟨⟩, f₄, hstart, h⟩ := ok_of_bind h
      obtain ⟨bitmap, f₅, hbitmap, h⟩ := ok_of_bind h
      have hf₄ := ok_of_seek hstart
      obtain ⟨hslice, hfits, hf₅⟩ := ok_of_readExact hbitmap
      have hwidth : bitmap.length = bitmapBlocks * blockSize := by
        rw [hslice]
        exact slice_length hfits
      rw [bind_ok (countFree_zero hwidth (by omega) f₅), bind_ok (get_apply f₅)] at h
      subst hf₁ hf₂ hf₃ hf₄ hf₅
      have hmeta : dataStartBlock * blockSize =
        bitmapStartBlock * blockSize + bitmapBlocks * blockSize := rfl
      have hlength : dataStartBlock * blockSize ≤ f.bytes.length := by
        rw [hmeta]
        exact hfits
      cases h
      refine ⟨rfl, raw, ⟨hpresent, hlength, hraw.symm, rfl, rfl⟩, sb, hsb, ?_, rfl⟩
      exact (not_not.mp hkey).symm

theorem Opened.kept (h : Opened V v) :
    ∃ head, Kept head v.masterKey v.totalBlocks v ∧ Bootable V head v.masterKey v.totalBlocks := by
  cases h with
  | created masterKey n capacity f f' h =>
    obtain ⟨-, head, hkept, hbootable⟩ := created_kept capacity h
    rw [hkept.key, hkept.blocks]
    exact ⟨head, hkept, hbootable⟩
  | opened masterKey f f' h =>
    obtain ⟨-, head, hkept, hbootable⟩ := opened_kept h
    rw [hkept.key]
    exact ⟨head, hkept, hbootable⟩

theorem Reachable.kept (h : Reachable V v) :
    ∃ head, Kept head v.masterKey v.totalBlocks v ∧ Bootable V head v.masterKey v.totalBlocks := by
  induction h with
  | opened h => exact h.kept
  | @step v h script op ih =>
    obtain ⟨head, hkept, hbootable⟩ := ih
    have hfacing : Kept head v.masterKey v.totalBlocks (v.facing script) :=
      ⟨hkept.present, hkept.length, hkept.superblock, rfl, rfl⟩
    have hnext := program_kept (V := V) op hfacing
    rw [hnext.key, hnext.blocks]
    exact ⟨head, hnext, hbootable⟩

theorem Reachable.sound (h : Reachable V v) : ∃ B, Sound v.totalBlocks B v := by
  induction h with
  | opened h => exact ⟨_, sound_of_opened h⟩
  | @step v h script op ih =>
    obtain ⟨B, hsound⟩ := ih
    have hnext := (program_keeps V op).sound (hsound.file { v.file with script := script })
    rw [show (finalState (op.program V (v.facing script))).totalBlocks = v.totalBlocks from
      hnext.blocks]
    exact ⟨B, hnext⟩

end Kept

section Readable

variable (V : VaultPrimitives)

/-- What `read_block` returns once the system calls work. -/
def readable (v : Volume) (blockIdx : Nat) : Option (Exactly payloadSize) :=
  match readBlock V blockIdx (v.facing []) with
  | .ok payload _ => some payload
  | .error _ _ => none

def reopened (totalDataBlocks : Nat) (v : Volume) (blockIdx : Nat) :
    Option (Exactly payloadSize) :=
  match reopen V totalDataBlocks (v.facing []) with
  | .ok _ w => readable V w blockIdx
  | .error _ _ => none

variable {V} {v w : Volume} {blockIdx : Nat} {payload : Exactly payloadSize}

theorem readable_iff (present : v.file.exists? = true) :
    readable V v blockIdx = some payload ↔
      v.inRange blockIdx ∧ blockIdx * blockSize + blockSize ≤ v.file.bytes.length ∧
      V.chachaDecrypt (deriveBlockKey V v.masterKey blockIdx)
        ((v.blockAt blockIdx).take nonceSize) ((v.blockAt blockIdx).drop nonceSize) =
          some payload.val := by
  constructor
  · intro h
    rw [readable] at h
    cases hrun : readBlock V blockIdx (v.facing []) with
    | ok payload' w =>
      rw [hrun] at h
      cases h
      have hread := ok_of_readBlock hrun
      exact hread
    | error e w =>
      rw [hrun] at h
      cases h
  · rintro ⟨range, fits, opens⟩
    have hready : Ready (v.facing []).file := ⟨rfl, present⟩
    have hrun : readBlock V blockIdx (v.facing []) = .ok payload _ :=
      readBlock_fits hready range fits opens
    rw [readable, hrun]

theorem readable_congr (present : v.file.exists? = true) (present' : w.file.exists? = true)
    (key : w.masterKey = v.masterKey) (blocks : w.totalBlocks = v.totalBlocks)
    (bytes : w.file.bytes = v.file.bytes) : readable V w blockIdx = readable V v blockIdx := by
  apply Option.ext
  intro payload
  rw [readable_iff present, readable_iff present', Volume.inRange, Volume.inRange,
    Volume.blockAt, Volume.blockAt, key, blocks, bytes]

theorem openExisting_bootable {head masterKey : Bytes} {total : Nat}
    (kept : Kept head masterKey total v) (bootable : Bootable V head masterKey total)
    (lower : dataStartBlock ≤ total) (upper : total ≤ dataStartBlock + maxDataBlocks)
    (ready : Ready v.file) :
    ∃ w, openExisting V masterKey v.file = .ok w w.file ∧ w.file.exists? = true ∧
      w.masterKey = masterKey ∧ w.totalBlocks = total ∧ w.file.bytes = v.file.bytes ∧
      w.blockBitmap =
        slice v.file.bytes (bitmapStartBlock * blockSize) (bitmapBlocks * blockSize) := by
  have hlength := kept.length
  have hmeta : dataStartBlock * blockSize =
    bitmapStartBlock * blockSize + bitmapBlocks * blockSize := rfl
  have hstart : bitmapStartBlock * blockSize = blockSize := rfl
  have hopen : FaultyFile.openExisting v.file = .ok () (v.moved 0).file :=
    openExisting_healthy ready.healthy kept.present
  obtain ⟨bitmap, hbitmap⟩ : ∃ bitmap, slice v.file.bytes (bitmapStartBlock * blockSize)
      (bitmapBlocks * blockSize) = bitmap := ⟨_, rfl⟩
  have hwidth : bitmap.length = bitmapBlocks * blockSize := by
    rw [← hbitmap]
    exact slice_length (by omega)
  obtain ⟨sb, hsb, hhash, rfl⟩ := bootable
  have hcount := countFree_zero hwidth (n := sb.totalBlocks - dataStartBlock) (by omega)
    (v.moved (bitmapStartBlock * blockSize + bitmapBlocks * blockSize)).file
  refine ⟨⟨(v.moved (bitmapStartBlock * blockSize + bitmapBlocks * blockSize)).file, masterKey,
    sb.totalBlocks, (clearBits bitmap (sb.totalBlocks - dataStartBlock)).card, bitmap⟩, ?_,
    kept.present, rfl, rfl, rfl, hbitmap.symm⟩
  rw [openExisting, bind_ok hopen, bind_ok (seek_moved ready 0 0),
    bind_ok (readExact_moved ready (by omega)), kept.superblock]
  simp only [hsb]
  rw [openAuthenticated, if_neg (by simp [hhash]), bind_ok (seek_moved ready _ _),
    bind_ok (readExact_moved ready (by omega)), if_neg (by omega), hbitmap, bind_ok hcount,
    bind_ok (get_apply _)]
  rfl

theorem Reachable.reopened_eq (h : Reachable V v) {m : Nat} (capacity : m ≤ maxDataBlocks) :
    reopened V m v blockIdx = readable V v blockIdx := by
  obtain ⟨head, hkept, hbootable⟩ := h.kept
  obtain ⟨B, hsound⟩ := h.sound
  have hready : Ready (v.facing []).file := ⟨rfl, hkept.present⟩
  have hfacing : Kept head v.masterKey v.totalBlocks (v.facing []) :=
    ⟨hkept.present, hkept.length, hkept.superblock, rfl, rfl⟩
  have hpos : 0 < dataStartBlock * blockSize := by decide
  obtain ⟨w, hopen, hpresent, hkey, hblocks, hbytes, -⟩ :=
    openExisting_bootable hfacing hbootable hsound.lower hsound.upper hready
  have hreopen : reopen V m (v.facing []) = .ok () w := by
    rw [reopen, drop_ready hready, openOrCreate_present hready (hpos.trans_le hfacing.length)
      capacity]
    rw [show (v.facing []).masterKey = v.masterKey from rfl, hopen]
  rw [reopened, hreopen]
  exact readable_congr hkept.present hpresent hkey hblocks hbytes

end Readable

end SecureCore.VirtualVolume
