import SecureCore.DiskWipe
import SecureCore.InterruptedCreation
import SecureCore.TornWrite
import SecureCore.VaultSelection

/-! A purge that system calls interrupt, and the attempts that follow it. Every
attempt starts again at the first byte, so what is left of the container is its
tail, and no later attempt makes it longer. Success is reported only for a file cut
to nothing; it ends the process. In between, the container cannot be opened by
anyone, and what lies in its tail can still be read by the process that has it open. -/

namespace SecureCore.DiskWipe

open FaultyFile FallibleState ByteImage WriteRuns
open VirtualVolume
open VaultSelection (PathArgument)

inductive Ending where
  | status (code : Nat)
  | exit
  deriving DecidableEq, Repr

/-- `purge_vault` on the one path there is: its own checks, then the purge, and the end
of the process when that succeeds. -/
def purgeVault (noise : Nat → UInt8) (path : PathArgument Unit) (f : File) : Ending × File :=
  match path with
  | .missing => (.status 1, f)
  | .notUtf8 => (.status 2, f)
  | .names _ =>
    match purgeEntireVault noise ⟨f, []⟩ with
    | .ok _ w => (.exit, w.file)
    | .error _ w => (.status 3, w.file)

structure Attempt where
  path : PathArgument Unit
  noise : Nat → UInt8
  script : List (Option Fault)

def Attempt.run (f : File) (attempt : Attempt) : Ending × File :=
  purgeVault attempt.noise attempt.path { f with script := attempt.script }

def purged (f : File) (attempts : List Attempt) : File :=
  attempts.foldl (fun f attempt => (attempt.run f).2) f

def streams (attempts : List Attempt) : List (Nat → UInt8) :=
  (fun _ => 0) :: attempts.map Attempt.noise

section Progress

variable {sources : List (Nat → UInt8)} {original : Bytes} {least : Nat} {α : Type}

def Progress (sources : List (Nat → UInt8)) (original : Bytes) (least : Nat) (f : File) : Prop :=
  f.exists? = true ∧ ∃ done, least ≤ done ∧ Scrubbed sources original done f.bytes

def Emptied (f : File) : Prop := f.exists? = true ∧ f.bytes = []

theorem quiet_progress {m : FileM α} (quiet : Quiet m) :
    Preserves (Progress sources original least) m := quiet.preserves fun _ _ _ h => h

theorem quiet_emptied {m : FileM α} (quiet : Quiet m) : Preserves Emptied m :=
  quiet.preserves fun _ _ _ h => h

theorem Progress.mono {fewer : Nat} {f : File} (h : Progress sources original least f)
    (le : fewer ≤ least) : Progress sources original fewer f := by
  obtain ⟨hpresent, done, hleast, hscrubbed⟩ := h
  exact ⟨hpresent, done, le.trans hleast, hscrubbed⟩

theorem Progress.length {f : File} (h : Progress sources original least f) :
    f.bytes.length = original.length := by
  obtain ⟨-, done, -, hscrubbed⟩ := h
  exact hscrubbed.length

/-- In a pass: the bytes that remain are those of the stream that belong there. -/
structure Writing (sources : List (Nat → UInt8)) (original : Bytes) (least : Nat)
    (stream : Nat → UInt8) (remaining : Nat) (f : File) : Prop where
  present : f.exists? = true
  rest : f.cursor + remaining = original.length
  front : ∃ done, least ≤ done ∧ f.cursor ≤ done ∧ Scrubbed sources original done f.bytes
  source : ∃ base ∈ sources, ∀ k, stream k = base (f.cursor + k)

variable {stream : Nat → UInt8} {remaining : Nat} {f : File}

theorem Writing.put (h : Writing sources original least stream remaining f) {count : Nat}
    (fits : count ≤ remaining) (script : List (Option Fault)) :
    Writing sources original least (fun k => stream (count + k)) (remaining - count)
      (put (fillBytes count stream) { f with script := script }) := by
  obtain ⟨done, hleast, hcursor, hscrubbed⟩ := h.front
  obtain ⟨base, hbase, hstream⟩ := h.source
  have hrest := h.rest
  have hlength : (fillBytes count stream).length = count := fillBytes_length count stream
  have hagrees : ∀ k < (fillBytes count stream).length,
      (fillBytes count stream)[k]? = some (base (f.cursor + k)) := by
    intro k hk
    rw [hlength] at hk
    rw [fillBytes, List.getElem?_map, List.getElem?_range hk, Option.map_some, hstream]
  have hnext := hscrubbed.splice hcursor (by omega) hbase hagrees
  rw [hlength] at hnext
  refine ⟨h.present, ?_, ⟨_, hleast.trans (le_max_left _ _), ?_, hnext⟩, base, hbase, ?_⟩
  · change f.cursor + (fillBytes count stream).length + (remaining - count) = _
    omega
  · change f.cursor + (fillBytes count stream).length ≤ _
    rw [hlength]
    exact le_max_right _ _
  · intro k
    change stream (count + k) = base (f.cursor + (fillBytes count stream).length + k)
    rw [hstream, hlength, Nat.add_assoc]

theorem Writing.progress (h : Writing sources original least stream remaining f) :
    Progress sources original least f := by
  obtain ⟨done, hleast, -, hscrubbed⟩ := h.front
  exact ⟨h.present, done, hleast, hscrubbed⟩

theorem Writing.complete (h : Writing sources original least stream 0 f) :
    Progress sources original original.length f := by
  obtain ⟨done, -, hcursor, hscrubbed⟩ := h.front
  have hrest := h.rest
  exact ⟨h.present, done, by omega, hscrubbed⟩

end Progress

section Passes

variable {sources : List (Nat → UInt8)} {original : Bytes} {least : Nat} {α : Type}

theorem onFile_spec {pre : File → Prop} {ok : α → File → Prop} {err : Failure → File → Prop}
    {m : FileM α} (h : Spec pre m ok err) :
    Spec (fun w => pre w.file) (onFile m) (fun a w => ok a w.file) (fun e w => err e w.file) := by
  have hzoom : Spec (fun w => pre w.file ∧ True) (onFile m) (fun a w => ok a w.file ∧ True)
      (fun e w => err e w.file ∧ True) := h.zoom (fun _ _ => rfl) fun _ _ h => h
  exact hzoom.consequence (fun _ hpre => ⟨hpre, trivial⟩) (fun _ _ h => h.1) (fun _ _ h => h.1)

theorem take_fillBytes (progress count : Nat) (stream : Nat → UInt8) :
    (fillBytes count stream).take progress = fillBytes (min progress count) stream := by
  rw [fillBytes, fillBytes, ← List.map_take, List.take_range]

theorem writeAll_spec {stream : Nat → UInt8} {remaining count : Nat} (fits : count ≤ remaining) :
    Spec (fun w => Writing sources original least stream remaining w.file)
      (writeAll (fillBytes count stream))
      (fun _ w => Writing sources original least (fun k => stream (count + k))
        (remaining - count) w.file)
      (fun _ w => Progress sources original least w.file) := by
  have hwrite : Spec (Writing sources original least stream remaining)
      (FaultyFile.writeAll (fillBytes count stream))
      (fun _ => Writing sources original least (fun k => stream (count + k)) (remaining - count))
      (fun _ => Progress sources original least) := by
    intro f hf
    rcases writeAll_cases (fillBytes count stream) f with hrun | ⟨code, progress, hrun⟩
    · rw [hrun]
      exact hf.put fits f.script.tail
    · rw [hrun, take_fillBytes]
      exact (hf.put ((min_le_right _ _).trans fits) f.script.tail).progress
  intro w hw
  rw [writeAll, bind_ok (modify_apply _ w)]
  exact onFile_spec hwrite _ hw

theorem overwrite_spec (stream : Nat → UInt8) (remaining : UInt64) :
    Spec (fun w => Writing sources original least stream remaining.toNat w.file)
      (overwrite stream remaining)
      (fun _ w => Progress sources original original.length w.file)
      (fun _ w => Progress sources original least w.file) := by
  induction stream, remaining using overwrite.induct with
  | case1 stream remaining h ih =>
    rw [overwrite, if_pos h]
    rw [toNat_sub_take] at ih
    exact Spec.bind (writeAll_spec (take_le_remaining remaining)) fun _ => ih
  | case2 stream remaining h =>
    have hzero : remaining.toNat = 0 :=
      Nat.eq_zero_of_not_pos fun hpos => h (UInt64.lt_iff_toNat_lt.mpr hpos)
    rw [overwrite, if_neg h, hzero]
    exact Spec.of_pure fun w hw => hw.complete

theorem seek_spec {base : Nat → UInt8} (mem : base ∈ sources) :
    Spec (Progress sources original least) (seek 0)
      (fun _ => Writing sources original least base original.length)
      (fun _ => Progress sources original least) := by
  intro f hf
  have hkept := quiet_progress (seek_quiet 0) f hf
  cases hrun : seek 0 f with
  | error e g =>
    rw [hrun] at hkept
    exact hkept
  | ok a g =>
    obtain ⟨hpresent, done, hleast, hscrubbed⟩ := hf
    rw [ok_of_seek hrun]
    refine ⟨hpresent, Nat.zero_add _, ⟨done, hleast, Nat.zero_le _, hscrubbed⟩, base, mem, ?_⟩
    intro k
    change base k = base (0 + k)
    rw [Nat.zero_add]

theorem pass_spec {base : Nat → UInt8} (mem : base ∈ sources) {size : UInt64}
    (full : size.toNat = original.length) (bound : least ≤ original.length) :
    Spec (fun w => Progress sources original least w.file) (pass base size)
      (fun _ w => Progress sources original original.length w.file)
      (fun _ w => Progress sources original least w.file) := by
  have hloop : Spec (fun w => Writing sources original least base size.toNat w.file)
      (overwrite base size) (fun _ w => Progress sources original original.length w.file)
      (fun _ w => Progress sources original least w.file) := overwrite_spec base size
  rw [full] at hloop
  have hsync : Spec (fun w => Progress sources original original.length w.file) (onFile syncAll)
      (fun _ w => Progress sources original original.length w.file)
      (fun _ w => Progress sources original original.length w.file) :=
    onFile_spec (Spec.of_preserves (quiet_progress touch_quiet))
  exact Spec.bind (onFile_spec (seek_spec mem)) fun _ => Spec.bind hloop fun _ =>
    hsync.consequence (fun _ h => h) (fun _ _ h => h) fun _ _ h => h.mono bound

theorem metadata_spec {inv : File → Prop} {length : Nat} (kept : Preserves inv metadata)
    (known : ∀ f, inv f → f.exists? = true ∧ f.bytes.length = length) :
    Spec inv metadata (fun found f => found = length ∧ inv f) (fun _ => inv) := by
  intro f hf
  have hkept := kept f hf
  cases hrun : metadata f with
  | error e g =>
    rw [hrun] at hkept
    exact hkept
  | ok found g =>
    rw [hrun] at hkept
    refine ⟨?_, hkept⟩
    have heffect := ok_of_call hrun
    rw [bind_ok (get_apply _), if_pos (known f hf).1] at heffect
    cases heffect
    exact (known f hf).2

theorem openExisting_quiet : Quiet FaultyFile.openExisting := by
  refine call_quiet fun f => ?_
  rw [bind_ok (get_apply f)]
  split_ifs
  · exact ⟨0, f.script, rfl⟩
  · exact ⟨f.cursor, f.script, rfl⟩

theorem setLen_spec : Spec (Progress sources original least) (setLen 0) (fun _ => Emptied)
    (fun _ => Progress sources original least) := by
  intro f hf
  cases hnext : f.script.headD none with
  | none =>
    rw [setLen_works hnext, resize_zero]
    exact ⟨hf.1, rfl⟩
  | some fault =>
    rw [setLen, call_fails hnext]
    exact hf

theorem purge_spec {noise : Nat → UInt8} (random : noise ∈ sources)
    (zeros : (fun _ => 0) ∈ sources) (nonempty : 0 < original.length)
    (bound : original.length < 2 ^ 64) (le : least ≤ original.length) :
    Spec (fun w => Progress sources original least w.file) (purgeEntireVault noise)
      (fun _ w => Emptied w.file)
      (fun _ w => Progress sources original least w.file ∨ Emptied w.file) := by
  have hsize : (UInt64.ofNat original.length).toNat = original.length := by
    rw [UInt64.toNat_ofNat', Nat.mod_eq_of_lt bound]
  have hne : UInt64.ofNat original.length ≠ 0 := by
    intro hzero
    rw [hzero] at hsize
    exact nonempty.ne hsize
  have left : ∀ {β : Type} {m : WipeM β} {pre : Wiping → Prop} {ok : β → Wiping → Prop},
      Spec pre m ok (fun _ w => Progress sources original least w.file) →
      Spec pre m ok (fun _ w => Progress sources original least w.file ∨ Emptied w.file) :=
    fun h => h.consequence (fun _ h => h) (fun _ _ h => h) (fun _ _ h => Or.inl h)
  have hmetadata : Spec (Progress sources original least) metadata
      (fun length f => length = original.length ∧ Progress sources original least f)
      (fun _ => Progress sources original least) :=
    metadata_spec (quiet_progress metadata_quiet) fun f hf => ⟨hf.1, hf.length⟩
  refine Spec.bind (left (onFile_spec hmetadata)) fun length => ?_
  rintro w ⟨rfl, hw⟩
  dsimp only
  rw [if_neg hne]
  refine Spec.bind (left (onFile_spec (Spec.of_preserves (quiet_progress openExisting_quiet))))
    (fun _ => Spec.bind (left (pass_spec random hsize le)) fun _ =>
      Spec.bind (left ?_) fun _ => Spec.bind (left (onFile_spec setLen_spec)) fun _ => ?_) w hw
  · exact (pass_spec zeros hsize le).consequence (fun _ h => h.mono le) (fun _ _ h => h.mono le)
      (fun _ _ h => h)
  · exact (onFile_spec (Spec.of_preserves (quiet_emptied touch_quiet))).consequence
      (fun _ h => h) (fun _ _ h => h) (fun _ _ h => Or.inr h)

theorem purge_emptied (noise : Nat → UInt8) :
    Preserves (fun w => Emptied w.file) (purgeEntireVault noise) := by
  have hmetadata : Spec Emptied metadata (fun length f => length = 0 ∧ Emptied f)
      (fun _ => Emptied) :=
    metadata_spec (quiet_emptied metadata_quiet) fun f hf => ⟨hf.1, by rw [hf.2]; rfl⟩
  refine Spec.preserves (Spec.bind (onFile_spec hmetadata) fun length => ?_)
  rintro w ⟨rfl, hw⟩
  exact hw

end Passes

section Attempts

variable {original : Bytes} {sources more : List (Nat → UInt8)} {least : Nat} {f : File}
  {attempts : List Attempt}

def Remains (sources : List (Nat → UInt8)) (original : Bytes) (least : Nat) (f : File) : Prop :=
  Progress sources original least f ∨ Emptied f

theorem Remains.mono (h : Remains sources original least f) (subset : sources ⊆ more) :
    Remains more original least f := by
  rcases h with ⟨hpresent, done, hleast, hscrubbed⟩ | hemptied
  · exact Or.inl ⟨hpresent, done, hleast, hscrubbed.mono subset⟩
  · exact Or.inr hemptied

theorem attempt_spec (nonempty : 0 < original.length) (bound : original.length < 2 ^ 64)
    (le : least ≤ original.length) (h : Remains sources original least f) (attempt : Attempt)
    (random : attempt.noise ∈ sources) (zeros : (fun _ => 0) ∈ sources) :
    Remains sources original least (attempt.run f).2 ∧
      ((attempt.run f).1 = .exit → Emptied (attempt.run f).2) ∧
      (Emptied f → Emptied (attempt.run f).2) := by
  obtain ⟨path, noise, script⟩ := attempt
  cases path with
  | missing => exact ⟨h, fun exits => (by cases exits), fun h => h⟩
  | notUtf8 => exact ⟨h, fun exits => (by cases exits), fun h => h⟩
  | names entry =>
    have hempty := purge_emptied noise ⟨{ f with script := script }, []⟩
    have hrest := purge_spec random zeros nonempty bound le ⟨{ f with script := script }, []⟩
    rw [Attempt.run, purgeVault]
    cases hrun : purgeEntireVault noise ⟨{ f with script := script }, []⟩ with
    | ok a w =>
      rw [hrun] at hempty hrest
      have hemptied : Emptied w.file := h.elim hrest hempty
      exact ⟨Or.inr hemptied, fun _ => hemptied, fun _ => hemptied⟩
    | error e w =>
      rw [hrun] at hempty hrest
      exact ⟨h.elim hrest fun h => Or.inr (hempty h), fun exits => (by cases exits), hempty⟩

theorem purged_spec (nonempty : 0 < original.length) (bound : original.length < 2 ^ 64)
    (le : least ≤ original.length) (h : Remains sources original least f)
    (known : streams attempts ⊆ sources) :
    Remains sources original least (purged f attempts) ∧
      (Emptied f → Emptied (purged f attempts)) := by
  induction attempts generalizing f with
  | nil => exact ⟨h, fun h => h⟩
  | cons attempt attempts ih =>
    have hnoise : attempt.noise ∈ sources := known (by simp [streams])
    have hzeros : (fun _ => 0) ∈ sources := known (by simp [streams])
    obtain ⟨hremains, -, hemptied⟩ := attempt_spec nonempty bound le h attempt hnoise hzeros
    obtain ⟨hfinal, hstays⟩ := ih hremains fun stream hstream => known (by
      rw [streams, List.mem_cons] at hstream ⊢
      exact hstream.imp id (List.mem_cons_of_mem _))
    exact ⟨hfinal, fun h => hstays (hemptied h)⟩

end Attempts

/-- Purging with any system calls failing, as often as it is tried. After any
attempts nothing is left of the container, or it has its length and starts with
what was written over it, followed by what it held. More attempts leave no longer
tail, and never bring back an emptied file. The process ends only when the file is
empty. -/
theorem purge_attempts_scrub {f : File} (present : f.exists? = true)
    (nonempty : 0 < f.bytes.length) (bound : f.bytes.length < 2 ^ 64)
    (earlier later : List Attempt) :
    ((purged f earlier).bytes = [] ∨
      ∃ done, Scrubbed (streams earlier) f.bytes done (purged f earlier).bytes) ∧
    (∀ done, Scrubbed (streams earlier) f.bytes done (purged f earlier).bytes →
      (purged f (earlier ++ later)).bytes = [] ∨ ∃ done' ≥ done,
        Scrubbed (streams (earlier ++ later)) f.bytes done' (purged f (earlier ++ later)).bytes) ∧
    ((purged f earlier).bytes = [] → (purged f (earlier ++ later)).bytes = []) ∧
    ∀ attempt : Attempt, (attempt.run (purged f earlier)).1 = .exit →
      (attempt.run (purged f earlier)).2.bytes = [] := by
  have hadd : purged f (earlier ++ later) = purged (purged f earlier) later := List.foldl_append
  have hsubset : streams earlier ⊆ streams (earlier ++ later) := by
    rw [streams, streams, List.map_append]
    exact List.cons_subset_cons _ (List.subset_append_left _ _)
  have hlater : streams later ⊆ streams (earlier ++ later) := by
    rw [streams, streams, List.map_append]
    exact List.cons_subset_cons _ (List.subset_append_right _ _)
  have hstart : Remains (streams earlier) f.bytes 0 f :=
    Or.inl ⟨present, 0, le_refl 0, .refl _ _⟩
  have hearlier := (purged_spec nonempty bound (Nat.zero_le _) hstart (List.Subset.refl _)).1
  have hthere : (purged f earlier).exists? = true := hearlier.elim (fun h => h.1) fun h => h.1
  refine ⟨?_, fun done hscrubbed => ?_, fun hempty => ?_, fun attempt hexit => ?_⟩
  · rcases hearlier with ⟨-, done, -, hscrubbed⟩ | ⟨-, hempty⟩
    · exact Or.inr ⟨done, hscrubbed⟩
    · exact Or.inl hempty
  · have hmiddle : Remains (streams earlier) f.bytes done (purged f earlier) :=
      Or.inl ⟨hthere, done, le_refl done, hscrubbed⟩
    rw [hadd]
    rcases (purged_spec nonempty bound hscrubbed.bound (hmiddle.mono hsubset) hlater).1 with
      ⟨-, done', hdone, hscrubbed'⟩ | ⟨-, hempty⟩
    · exact Or.inr ⟨done', hdone, hscrubbed'⟩
    · exact Or.inl hempty
  · rw [hadd]
    exact ((purged_spec nonempty bound (Nat.zero_le _) (hearlier.mono hsubset) hlater).2
      ⟨hthere, hempty⟩).2
  · have hknown := hearlier.mono (List.subset_cons_self attempt.noise (streams earlier))
    exact ((attempt_spec nonempty bound (Nat.zero_le _) hknown attempt (List.mem_cons_self ..)
      (List.mem_cons_of_mem _ (List.mem_cons_self ..))).2.1 hexit).2

theorem purge_attempts_scrub_remnant :
    let earlier : List Attempt :=
      [⟨.names (), fun _ => 3, [none, none, none, none, some ⟨5, 10⟩]⟩]
    let later : List Attempt := [⟨.names (), fun _ => 4, [some ⟨5, 0⟩]⟩]
    (purged remnant (earlier ++ later)).bytes = [] ∨ ∃ done, Scrubbed (streams (earlier ++ later))
      remnant.bytes done (purged remnant (earlier ++ later)).bytes := by
  intro earlier later
  have hlength : remnant.bytes.length = 5000 := List.length_replicate
  exact (purge_attempts_scrub (f := remnant) rfl (by omega) (by omega) (earlier ++ later) []).1

theorem slice_tail {sources : List (Nat → UInt8)} {original image : Bytes} {done : Nat}
    (h : Scrubbed sources original done image) {start : Nat} (behind : done ≤ start)
    (count : Nat) : slice image start count = slice original start count :=
  slice_eq_slice_iff.mpr fun k hk _ => h.tail k (behind.trans hk)

/-- A purge of the container of an open volume that has not emptied it yet. Every block
in what is left still reads as before through the open volume. If the magic is gone,
`open_or_create` fails for every key and permitted size, with no call failing in it, and
touches nothing, so a new vault is not created there either. -/
theorem interrupted_purge_shuts_out {V : VaultPrimitives} {v : Volume}
    (reachable : Reachable V v) (bound : v.file.bytes.length < 2 ^ 64)
    (attempts : List Attempt) {done : Nat}
    (scrubbed : Scrubbed (streams attempts) v.file.bytes done (purged v.file attempts).bytes) :
    (∀ blockIdx, done ≤ blockIdx * blockSize →
      readable V { v with file := purged v.file attempts } blockIdx = readable V v blockIdx) ∧
    (readSuperblock (slice (purged v.file attempts).bytes 0 blockSize) = none →
      ∀ key n, n ≤ maxDataBlocks → ∃ f,
        openOrCreate V key n { purged v.file attempts with script := [] } =
          .error (.raised .invalidData
            "vault.sec superblock magic mismatch — file is not a valid vault container") f ∧
        f.bytes = (purged v.file attempts).bytes) := by
  obtain ⟨head, hkept, -⟩ := reachable.kept
  have hlong : blockSize ≤ v.file.bytes.length :=
    (show blockSize ≤ dataStartBlock * blockSize by decide).trans hkept.length
  have hnonempty : 0 < v.file.bytes.length := (show 0 < blockSize by decide).trans_le hlong
  have hthere : (purged v.file attempts).exists? = true := by
    have hstart : Remains (streams attempts) v.file.bytes 0 v.file :=
      Or.inl ⟨hkept.present, 0, le_refl 0, .refl _ _⟩
    exact (purged_spec hnonempty bound (Nat.zero_le _) hstart (List.Subset.refl _)).1.elim
      (fun h => h.1) fun h => h.1
  constructor
  · intro blockIdx hbehind
    apply Option.ext
    intro payload
    have hblock : ({ v with file := purged v.file attempts } : Volume).blockAt blockIdx =
        v.blockAt blockIdx := slice_tail scrubbed hbehind blockSize
    rw [readable_iff hthere, readable_iff hkept.present, hblock, scrubbed.length]
    rfl
  · intro hgone key n capacity
    have hready : Ready { purged v.file attempts with script := [] } := ⟨rfl, hthere⟩
    rw [openOrCreate_present hready (by rw [scrubbed.length]; exact hnonempty) capacity]
    have hlength : blockSize ≤ (purged v.file attempts).bytes.length := by
      rw [scrubbed.length]
      exact hlong
    exact ⟨_, openExisting_mismatch hready hlength hgone key, rfl⟩

section Stopped

variable {f : File} {noise : Nat → UInt8} {code progress : Nat}

theorem purged_first_chunk (present : f.exists? = true) (long : wipeChunk ≤ f.bytes.length)
    (bound : f.bytes.length < 2 ^ 64) (within : progress ≤ wipeChunk) :
    (purged f [⟨.names (), noise, [none, none, none, some ⟨code, progress⟩]⟩]).bytes =
      splice f.bytes 0 (fillBytes progress noise) := by
  have hsize : (UInt64.ofNat f.bytes.length).toNat = f.bytes.length := by
    rw [UInt64.toNat_ofNat', Nat.mod_eq_of_lt bound]
  have hpos : 0 < UInt64.ofNat f.bytes.length := by
    rw [UInt64.lt_iff_toNat_lt, hsize]
    exact (show 0 < wipeChunk by decide).trans_le long
  have hne : UInt64.ofNat f.bytes.length ≠ 0 := by
    intro hzero
    rw [hzero] at hpos
    exact absurd hpos (by decide)
  have htake : take (UInt64.ofNat f.bytes.length) = wipeChunk := by
    rw [take, hsize, Nat.min_eq_right long]
  have hrun : ∃ w, purgeEntireVault noise
      ⟨{ f with script := [none, none, none, some ⟨code, progress⟩] }, []⟩ =
        .error (.os code) w ∧ w.file = put (fillBytes progress noise) ⟨true, f.bytes, 0, []⟩ := by
    obtain ⟨present?, bytes, cursor, script⟩ := f
    subst present
    have hmetadata : metadata ⟨true, bytes, cursor, [none, none, none, some ⟨code, progress⟩]⟩ =
        .ok bytes.length ⟨true, bytes, cursor, [none, none, some ⟨code, progress⟩]⟩ := rfl
    have hopen : FaultyFile.openExisting
        ⟨true, bytes, cursor, [none, none, some ⟨code, progress⟩]⟩ =
          .ok () ⟨true, bytes, 0, [none, some ⟨code, progress⟩]⟩ := rfl
    have hseek : seek 0 ⟨true, bytes, 0, [none, some ⟨code, progress⟩]⟩ =
        .ok () ⟨true, bytes, 0, [some ⟨code, progress⟩]⟩ := rfl
    have hwrite : writeAll (fillBytes wipeChunk noise)
        ⟨⟨true, bytes, 0, [some ⟨code, progress⟩]⟩, []⟩ = .error (.os code)
          ⟨put ((fillBytes wipeChunk noise).take progress) ⟨true, bytes, 0, []⟩,
            [⟨0, fillBytes wipeChunk noise⟩]⟩ := rfl
    rw [take_fillBytes, Nat.min_eq_left within] at hwrite
    refine ⟨⟨put (fillBytes progress noise) ⟨true, bytes, 0, []⟩,
      [⟨0, fillBytes wipeChunk noise⟩]⟩, ?_, rfl⟩
    rw [purgeEntireVault, bind_ok (onFile_ok hmetadata), if_neg hne,
      bind_ok (onFile_ok hopen)]
    refine bind_error ?_
    rw [pass, bind_ok (onFile_ok hseek)]
    refine bind_error ?_
    rw [overwrite, if_pos hpos, htake]
    exact bind_error hwrite
  obtain ⟨w, hrun, hfile⟩ := hrun
  rw [purged, List.foldl_cons, List.foldl_nil, Attempt.run, purgeVault]
  dsimp only
  rw [hrun]
  dsimp only
  rw [hfile]
  rfl

end Stopped

def stoppedAttempt : Attempt := ⟨.names (), fun _ => 3, [none, none, none, some ⟨5, 100⟩]⟩

theorem interrupted_purge_shuts_out_firstChunk :
    readable TornWrite.nonceVault { TornWrite.filledVolume with
        file := purged TornWrite.filledVolume.file [stoppedAttempt] } 9 =
      some BlockStore.samplePayload ∧
    ∃ f, openOrCreate TornWrite.nonceVault sampleKey 3
        { purged TornWrite.filledVolume.file [stoppedAttempt] with script := [] } =
      .error (.raised .invalidData
        "vault.sec superblock magic mismatch — file is not a valid vault container") f := by
  have hpresent := TornWrite.live_filledVolume.intact.ready.present
  have hlength : TornWrite.filledVolume.file.bytes.length = 49152 := by
    rw [TornWrite.live_filledVolume.intact.length, TornWrite.live_filledVolume.total]
    rfl
  have hfill : (fillBytes 100 fun _ => 3).length = 100 := fillBytes_length _ _
  have hfile : (purged TornWrite.filledVolume.file [stoppedAttempt]).bytes =
      splice TornWrite.filledVolume.file.bytes 0 (fillBytes 100 fun _ => 3) := by
    rw [stoppedAttempt]
    exact purged_first_chunk hpresent (by rw [hlength]; decide) (by omega) (by decide)
  have hscrubbed : Scrubbed (streams [stoppedAttempt]) TornWrite.filledVolume.file.bytes 100
      (purged TornWrite.filledVolume.file [stoppedAttempt]).bytes := by
    have hnoise : (fun _ => 3) ∈ streams [stoppedAttempt] := by simp [streams, stoppedAttempt]
    have hagrees : ∀ k < (fillBytes 100 fun _ => 3).length,
        (fillBytes 100 fun _ => 3)[k]? = some ((fun _ => 3) (0 + k)) := by decide
    have hsplice := (Scrubbed.refl (streams [stoppedAttempt])
      TornWrite.filledVolume.file.bytes).splice (le_refl 0) (by omega) hnoise hagrees
    rw [hfill] at hsplice
    rw [hfile]
    exact hsplice
  have hgone : readSuperblock (slice (purged TornWrite.filledVolume.file
      [stoppedAttempt]).bytes 0 blockSize) = none := by
    have hsplit : fillBytes 100 (fun _ => 3) = [] ++ fillBytes 4 (fun _ => 3) ++
        fillBytes 96 fun _ => 3 := fillBytes_add 4 96 _
    have hfirst : ∀ rest, slice ([] ++ fillBytes 4 (fun _ => 3) ++ rest) 0 4 =
        fillBytes 4 fun _ => 3 := fun rest => slice_field rfl (fillBytes_length 4 _)
    rw [hfile, slice_splice_front (by rw [hlength]; decide) (by rw [hfill]; decide), hsplit,
      List.append_assoc, readSuperblock, hfirst, if_pos (by decide)]
  obtain ⟨hreads, hrefuses⟩ := interrupted_purge_shuts_out TornWrite.filledVolume_reachable
    (by omega) [stoppedAttempt] hscrubbed
  obtain ⟨f, hrefused, -⟩ := hrefuses hgone sampleKey 3 (by decide)
  exact ⟨(hreads 9 (by decide)).trans TornWrite.filledVolume_reads, f, hrefused⟩

end SecureCore.DiskWipe
