import SecureCore.Primitives
import SecureCore.Reopen
import SecureCore.WriteRuns

/-! `disk_wipe.rs`: the container is overwritten twice, with random bytes and with
zeros, and cut to nothing. The stream of the generator is an argument. Every write
is recorded beside the file, at the position it is made at. `usize` has 64 bits,
so `remaining as usize` loses nothing. -/

namespace SecureCore.DiskWipe

open FaultyFile FallibleState ByteImage WriteRuns
open VirtualVolume (VaultPrimitives maxDataBlocks openOrCreate freshVolume openOrCreate_blank)

structure Wiping where
  file : File
  writes : List Write
  deriving DecidableEq, Repr

abbrev WipeM := EStateM Failure Wiping

def onFile {α : Type} (m : FileM α) : WipeM α :=
  zoom Wiping.file (fun f w => { w with file := f }) m

def writeAll (data : Bytes) : WipeM Unit := do
  modify fun w => { w with writes := w.writes ++ [⟨w.file.cursor, data⟩] }
  onFile (FaultyFile.writeAll data)

def wipeChunk : Nat := 4096

def take (remaining : UInt64) : Nat := min remaining.toNat wipeChunk

section Take

variable {remaining : UInt64}

theorem take_le_remaining (remaining : UInt64) : take remaining ≤ remaining.toNat :=
  Nat.min_le_left _ _

theorem take_le_chunk : take remaining ≤ wipeChunk := Nat.min_le_right _ _

theorem take_pos (h : 0 < remaining) : 0 < take remaining :=
  Nat.lt_min.mpr ⟨UInt64.lt_iff_toNat_lt.mp h, by decide⟩

theorem toNat_sub_take : (remaining - UInt64.ofNat (take remaining)).toNat =
    remaining.toNat - take remaining := by
  have hbound := remaining.toNat_lt
  have htake := take_le_remaining remaining
  have hcast : (UInt64.ofNat (take remaining)).toNat = take remaining := by
    rw [UInt64.toNat_ofNat', Nat.mod_eq_of_lt (by omega)]
  rw [UInt64.toNat_sub_of_le _ _ (UInt64.le_iff_toNat_le.mpr (by omega)), hcast]

end Take

/-- The `while` loop of a pass. The chunks are filled from the stream: that of the
generator in the first pass, zeros in the second. -/
def overwrite (stream : Nat → UInt8) (remaining : UInt64) : WipeM Unit :=
  if 0 < remaining then do
    writeAll (fillBytes (take remaining) stream)
    overwrite (fun k => stream (take remaining + k)) (remaining - UInt64.ofNat (take remaining))
  else pure ()
termination_by remaining.toNat
decreasing_by
  rename_i h
  rw [toNat_sub_take]
  have hpos := take_pos h
  have hle := take_le_remaining remaining
  omega

def pass (stream : Nat → UInt8) (fileSize : UInt64) : WipeM Unit := do
  onFile (seek 0)
  overwrite stream fileSize
  onFile syncAll

def purgeEntireVault (noise : Nat → UInt8) : WipeM Unit := do
  let fileSize := UInt64.ofNat (← onFile metadata)
  if fileSize = 0 then pure ()
  else do
    onFile openExisting
    pass noise fileSize
    pass (fun _ => 0) fileSize
    onFile (setLen 0)
    onFile syncAll

section Writes

/-- Chunks of at most 4096 bytes, side by side from 0 to `size`, so that every byte
of the file is written once and none behind it. -/
structure Covering (size : Nat) (writes : List Write) : Prop where
  tiled : Tiles 0 writes size
  chunks : ∀ w ∈ writes, 0 < w.data.length ∧ w.data.length ≤ wipeChunk
  once : ∀ i, writes.countP (fun w => w.covers i) = if i < size then 1 else 0

theorem fillBytes_add (m n : Nat) (stream : Nat → UInt8) :
    fillBytes (m + n) stream = fillBytes m stream ++ fillBytes n (fun k => stream (m + k)) := by
  rw [fillBytes, List.range_add, List.map_append, List.map_map]
  rfl

variable {w : Wiping}

theorem onFile_ok {α : Type} {m : FileM α} {a : α} {f : File} (h : m w.file = .ok a f) :
    onFile m w = .ok a { w with file := f } := zoom_ok h

theorem writeAll_ok (healthy : Healthy w.file) (data : Bytes) : writeAll data w =
    .ok () ⟨put data w.file, w.writes ++ [⟨w.file.cursor, data⟩]⟩ := by
  rw [writeAll, bind_ok (modify_apply _ w)]
  exact onFile_ok (writeAll_healthy healthy data)

theorem overwrite_ok (stream : Nat → UInt8) (remaining : UInt64) (w : Wiping)
    (healthy : Healthy w.file) (fits : w.file.cursor + remaining.toNat ≤ w.file.bytes.length) :
    ∃ writes, overwrite stream remaining w =
        .ok () ⟨put (fillBytes remaining.toNat stream) w.file, w.writes ++ writes⟩ ∧
      Tiles w.file.cursor writes (w.file.cursor + remaining.toNat) ∧
      ∀ x ∈ writes, 0 < x.data.length ∧ x.data.length ≤ wipeChunk := by
  induction stream, remaining using overwrite.induct generalizing w with
  | case1 stream remaining h ih =>
    -- a chunk, and then the rest of the stream over the rest of the file
    have hle := take_le_remaining remaining
    have hlength := fillBytes_length (take remaining) stream
    obtain ⟨writes, hrun, htiles, hchunks⟩ := ih
      ⟨put (fillBytes (take remaining) stream) w.file,
        w.writes ++ [⟨w.file.cursor, fillBytes (take remaining) stream⟩]⟩ healthy
      (by
        change w.file.cursor + (fillBytes (take remaining) stream).length + _ ≤
          (splice _ _ _).length
        rw [splice_length (by omega), toNat_sub_take]
        omega)
    have hsum : remaining.toNat = take remaining + (remaining.toNat - take remaining) := by omega
    have hput : put (fillBytes (remaining.toNat - take remaining)
          fun k => stream (take remaining + k)) (put (fillBytes (take remaining) stream) w.file) =
        put (fillBytes remaining.toNat stream) w.file := by
      rw [put_put, ← fillBytes_add, ← hsum]
    refine ⟨⟨w.file.cursor, fillBytes (take remaining) stream⟩ :: writes, ?_, ?_, ?_⟩
    · rw [overwrite, if_pos h, bind_ok (writeAll_ok healthy _), hrun, toNat_sub_take, hput,
        List.append_assoc]
      rfl
    · refine .cons _ ?_
      have hstop : w.file.cursor + remaining.toNat =
          w.file.cursor + (fillBytes (take remaining) stream).length +
            (remaining - UInt64.ofNat (take remaining)).toNat := by
        rw [toNat_sub_take]
        omega
      rw [hstop]
      exact htiles
    · intro x hx
      rcases List.mem_cons.mp hx with rfl | hx
      · rw [hlength]
        exact ⟨take_pos h, take_le_chunk⟩
      · exact hchunks x hx
  | case2 stream remaining h =>
    have hzero : remaining.toNat = 0 :=
      Nat.eq_zero_of_not_pos fun hpos => h (UInt64.lt_iff_toNat_lt.mpr hpos)
    have hput : put (fillBytes remaining.toNat stream) w.file = w.file := by
      rw [hzero]
      change { w.file with bytes := splice w.file.bytes w.file.cursor [] } = w.file
      rw [splice_nil]
    refine ⟨[], ?_, ?_, by simp⟩
    · rw [overwrite, if_neg h, hput, List.append_nil]
      rfl
    · rw [hzero]
      exact .nil _

def wiped (f : File) (image : Bytes) : File := { f with bytes := image, cursor := image.length }

theorem pass_ok (stream : Nat → UInt8) (size : UInt64) {f : File} (healthy : Healthy f)
    (full : f.bytes.length = size.toNat) (earlier : List Write) :
    ∃ writes, pass stream size ⟨f, earlier⟩ =
        .ok () ⟨wiped f (fillBytes size.toNat stream), earlier ++ writes⟩ ∧
      Covering size.toNat writes := by
  obtain ⟨writes, hrun, htiles, hchunks⟩ :=
    overwrite_ok stream size ⟨{ f with cursor := 0 }, earlier⟩ healthy (by simp [full])
  dsimp only at htiles
  rw [Nat.zero_add] at htiles
  have hput : put (fillBytes size.toNat stream) { f with cursor := 0 } =
      wiped f (fillBytes size.toNat stream) := by
    have hwhole : splice f.bytes 0 (fillBytes size.toNat stream) = fillBytes size.toNat stream :=
      splice_whole (by simp [full])
    simp [put, hwhole, wiped]
  refine ⟨writes, ?_, htiles, hchunks, fun i => ?_⟩
  · rw [pass, bind_ok (onFile_ok (seek_healthy healthy 0)), bind_ok hrun, hput]
    exact onFile_ok (syncAll_healthy healthy)
  · rw [htiles.countP_covers]
    exact if_congr (by omega) rfl rfl

end Writes

/-- A purge of a file that is not empty ends. Each pass writes every byte of the
file once, in chunks side by side, the second leaves only zeros, and then the file
is empty; so a vault opened there next is the one created where there was no file. -/
theorem purge_covers_and_resets (V : VaultPrimitives) (noise : Nat → UInt8) {f : File}
    (ready : Ready f) (nonempty : 0 < f.bytes.length) (bound : f.bytes.length < 2 ^ 64) :
    ∃ (first second : List Write) (random zeroed : File),
      pass noise (UInt64.ofNat f.bytes.length) ⟨{ f with cursor := 0 }, []⟩ =
        .ok () ⟨random, first⟩ ∧ Covering f.bytes.length first ∧
      pass (fun _ => 0) (UInt64.ofNat f.bytes.length) ⟨random, first⟩ =
        .ok () ⟨zeroed, first ++ second⟩ ∧ Covering f.bytes.length second ∧
      zeroed.bytes = List.replicate f.bytes.length 0 ∧
      purgeEntireVault noise ⟨f, []⟩ = .ok () ⟨{ zeroed with bytes := [] }, first ++ second⟩ ∧
      ∀ (key : Bytes) (n : Nat), n ≤ maxDataBlocks → ∀ absent : File, Healthy absent →
        absent.exists? = false → ∃ v file,
          openOrCreate V key n { zeroed with bytes := [] } = .ok v file ∧
          openOrCreate V key n absent = .ok v file := by
  have hsize : (UInt64.ofNat f.bytes.length).toNat = f.bytes.length := by
    rw [UInt64.toNat_ofNat', Nat.mod_eq_of_lt bound]
  obtain ⟨first, hfirst, hcover⟩ := pass_ok noise (UInt64.ofNat f.bytes.length)
    (f := { f with cursor := 0 }) ready.healthy hsize.symm []
  obtain ⟨second, hsecond, hcover'⟩ := pass_ok (fun _ => 0) (UInt64.ofNat f.bytes.length)
    (f := wiped { f with cursor := 0 } (fillBytes f.bytes.length noise)) ready.healthy
    ((fillBytes_length _ _).trans hsize.symm) first
  rw [hsize] at hfirst hcover hsecond hcover'
  refine ⟨first, second, _, _, hfirst, hcover, hsecond, hcover', ?_, ?_, ?_⟩
  · simp [wiped, fillBytes]
  · have hne : UInt64.ofNat f.bytes.length ≠ 0 := fun h => by
      rw [h] at hsize
      exact nonempty.ne hsize
    rw [purgeEntireVault, bind_ok (onFile_ok (metadata_healthy ready.healthy ready.present)),
      if_neg hne, bind_ok (onFile_ok (openExisting_healthy ready.healthy ready.present)),
      bind_ok hfirst, List.nil_append, bind_ok hsecond, bind_ok (onFile_ok (setLen_healthy ?_ 0)),
      resize_zero]
    · refine onFile_ok (syncAll_healthy ?_)
      exact ready.healthy
    · exact ready.healthy
  · intro key n capacity absent healthy gone
    have hscript : absent.script = f.script := healthy.trans ready.healthy.symm
    have hcreated := openOrCreate_blank (V := V) healthy
      (fun here => by rw [gone] at here; cases here) capacity key
    refine ⟨_, _, ?_, hcreated⟩
    rw [openOrCreate_blank ?_ (fun _ => rfl) capacity key]
    · simp only [freshVolume, wiped, hscript]
    · exact ready.healthy

def remnant : File := ⟨true, List.replicate 5000 7, 12, []⟩

theorem purge_covers_and_resets_remnant :
    ∃ (first second : List Write) (zeroed : File), Covering 5000 first ∧ Covering 5000 second ∧
      zeroed.bytes = List.replicate 5000 0 ∧
      purgeEntireVault (fun _ => 3) ⟨remnant, []⟩ =
        .ok () ⟨{ zeroed with bytes := [] }, first ++ second⟩ := by
  have hlength : remnant.bytes.length = 5000 := List.length_replicate
  obtain ⟨first, second, random, zeroed, -, hfirst, -, hsecond, hzeros, hpurge, -⟩ :=
    purge_covers_and_resets VirtualVolume.symbolicVault (fun _ => 3) (f := remnant) ⟨rfl, rfl⟩
      (by omega) (by omega)
  rw [hlength] at hfirst hsecond hzeros
  exact ⟨first, second, zeroed, hfirst, hsecond, hzeros, hpurge⟩

end SecureCore.DiskWipe
