import SecureCore.Recovery

/-! Creating a vault that is stopped on the way, and opening it afterwards.
`create_new` gives the file its full length before it writes the superblock, and
`open_or_create` takes any file that is not empty for a container. A crash between
two calls leaves what an error of the next call leaves that wrote nothing, so the
scripts of failing calls describe both. -/

namespace SecureCore.VirtualVolume

open FaultyFile FallibleState PackedBits ByteImage

/-- Where `open_existing` looks: the magic, `total_blocks` and the hash of the key. -/
def Essential (j : Nat) : Prop := j < 4 ∨ (8 ≤ j ∧ j < 16) ∨ (24 ≤ j ∧ j < 56)

def outcomeOf (script : List (Option Fault)) (i : Nat) : Option Fault := (script.drop i).headD none

/-- How much of the superblock gets written. The third call is the `seek` before
it, the fourth writes it. -/
def headProgress (script : List (Option Fault)) : Nat :=
  match outcomeOf script 2, outcomeOf script 3 with
  | some _, _ => 0
  | none, some fault => fault.progress
  | none, none => blockSize

section Creation

variable (V : VaultPrimitives) (masterKey : Bytes) (n : Nat)

def freshHead : Bytes := writeSuperblock (freshSuperblock V masterKey n)

def begun (count : Nat) : Bytes :=
  splice (resize [] ((dataStartBlock + n) * blockSize)) 0 ((freshHead V masterKey n).take count)

/-- The file has its length, and a byte that opening depends on is missing. -/
def Stranded (script : List (Option Fault)) : Prop :=
  outcomeOf script 0 = none ∧ outcomeOf script 1 = none ∧
    ∃ j, headProgress script ≤ j ∧ Essential j ∧ (freshHead V masterKey n)[j]? ≠ some 0

/-- Opened with working calls, the file gives a volume of `n` data blocks, all free. -/
def Recovers (g : File) : Prop :=
  ∃ v g', openOrCreate V masterKey n { g with script := [] } = .ok v g' ∧
    v.totalBlocks = dataStartBlock + n ∧ v.freeBlocks = n ∧
    ∀ i < n, test v.blockBitmap i = false

end Creation

section Images

variable (V : VaultPrimitives) (masterKey : Bytes) (n count : Nat)

theorem freshHead_length : (freshHead V masterKey n).length = blockSize :=
  writeSuperblock_length (hashMasterKey V masterKey).property

theorem resize_nil (length : Nat) : resize [] length = List.replicate length 0 := by
  simp [resize]

theorem metadata_fits :
    blockSize + bitmapBlocks * blockSize ≤ (dataStartBlock + n) * blockSize := by
  rw [Nat.add_mul]
  exact Nat.le_add_right _ _

theorem taken_fits : 0 + ((freshHead V masterKey n).take count).length ≤
    (resize [] ((dataStartBlock + n) * blockSize)).length := by
  have hfits := metadata_fits n
  have hhead := freshHead_length V masterKey n
  rw [resize_length, List.length_take]
  omega

theorem begun_length : (begun V masterKey n count).length = (dataStartBlock + n) * blockSize := by
  rw [begun, splice_length (taken_fits V masterKey n count), resize_length]

theorem begun_bitmap : slice (begun V masterKey n count) (bitmapStartBlock * blockSize)
    (bitmapBlocks * blockSize) = freshBitmap := by
  have hfits := metadata_fits n
  have hstart : bitmapStartBlock * blockSize = blockSize := rfl
  have hhead := freshHead_length V masterKey n
  have hbehind : 0 + ((freshHead V masterKey n).take count).length ≤ blockSize := by
    rw [List.length_take]
    omega
  rw [begun, slice_splice_of_disjoint (Nat.zero_le _) (Or.inr (hstart ▸ hbehind)), resize_nil,
    slice, List.drop_replicate, List.take_replicate, Nat.min_eq_left (by omega)]
  rfl

variable {V masterKey n count}

theorem getElem?_begun {j : Nat} (hj : j < blockSize) :
    (begun V masterKey n count)[j]? =
      if j < count then (freshHead V masterKey n)[j]? else some 0 := by
  have hfits := metadata_fits n
  have hhead := freshHead_length V masterKey n
  have hzero : (resize [] ((dataStartBlock + n) * blockSize))[j]? = some 0 := by
    rw [resize_nil, List.getElem?_replicate, if_pos (by omega)]
  rw [begun, getElem?_splice (Nat.zero_le _), if_neg (Nat.not_lt_zero j), Nat.zero_add,
    List.length_take, Nat.sub_zero, List.getElem?_take, hzero]
  split_ifs
  · rfl
  · omega
  · omega
  · rfl

theorem begun_field {offset width : Nat} {field : Bytes}
    (whole : slice (freshHead V masterKey n) offset width = field)
    (inside : offset + width ≤ blockSize) :
    slice (slice (begun V masterKey n count) 0 blockSize) offset width = field ↔
      ∀ j, offset ≤ j → j < offset + width → count ≤ j →
        (freshHead V masterKey n)[j]? = some 0 := by
  rw [← whole, slice_eq_slice_iff]
  refine forall₃_congr fun j low high => ?_
  rw [getElem?_slice, if_pos (by omega), Nat.zero_add, getElem?_begun (by omega)]
  split_ifs with written
  · exact iff_of_true rfl fun missing => absurd written (Nat.not_lt.mpr missing)
  · exact ⟨fun same _ => same.symm, fun zero => (zero (Nat.not_lt.mp written)).symm⟩

theorem begun_head_length (V : VaultPrimitives) (masterKey : Bytes) (n count : Nat) :
    (slice (begun V masterKey n count) 0 blockSize).length = blockSize := by
  have hfits := metadata_fits n
  exact slice_length (by rw [begun_length]; omega)

theorem bootable_iff_fields {head : Bytes} {total : Nat} (length : head.length = blockSize)
    (small : total < 256 ^ 8) :
    Bootable V head masterKey total ↔
      slice head 0 4 = LittleEndian.encode 4 superblockMagic ∧
      slice head 8 8 = LittleEndian.encode 8 total ∧
      slice head 24 32 = hashMasterKey V masterKey := by
  have hblock : 56 ≤ blockSize := by decide
  constructor
  · rintro ⟨sb, hsb, hkey, hblocks⟩
    rw [readSuperblock] at hsb
    split_ifs at hsb with magic
    cases hsb
    exact ⟨LittleEndian.eq_encode (slice_length (by omega)) (not_not.mp magic),
      LittleEndian.eq_encode (slice_length (by omega)) hblocks, hkey⟩
  · rintro ⟨hmagic, htotal, hhash⟩
    have hdecoded : LittleEndian.decode (LittleEndian.encode 4 superblockMagic) = superblockMagic :=
      LittleEndian.decode_encode (by decide)
    have hread : readSuperblock head = some ⟨LittleEndian.decode (slice head 4 4),
        LittleEndian.decode (slice head 8 8), LittleEndian.decode (slice head 16 8),
        slice head 24 32⟩ := by
      rw [readSuperblock, hmagic, if_neg (not_not.mpr hdecoded)]
    refine ⟨_, hread, hhash, ?_⟩
    rw [htotal, LittleEndian.decode_encode small]

theorem bootable_begun_iff (capacity : n ≤ maxDataBlocks) :
    Bootable V (slice (begun V masterKey n count) 0 blockSize) masterKey (dataStartBlock + n) ↔
      ∀ j, count ≤ j → Essential j → (freshHead V masterKey n)[j]? = some 0 := by
  obtain ⟨hmagic, -, htotal, -, hhash⟩ :=
    @slice_writeSuperblock (freshSuperblock V masterKey n) (hashMasterKey V masterKey).property
  have hblock : 56 ≤ blockSize := by decide
  have hmax : dataStartBlock + maxDataBlocks < 256 ^ 8 := by decide
  change slice (freshHead V masterKey n) 8 8 = LittleEndian.encode 8 (dataStartBlock + n) at htotal
  change slice (freshHead V masterKey n) 24 32 = hashMasterKey V masterKey at hhash
  rw [bootable_iff_fields (begun_head_length V masterKey n count) (by omega),
    begun_field hmagic (by omega), begun_field htotal (by omega), begun_field hhash (by omega)]
  constructor
  · rintro ⟨magic, total, hash⟩ j missing essential
    rcases essential with early | ⟨low, high⟩ | ⟨low, high⟩
    · exact magic j (Nat.zero_le j) (by omega) missing
    · exact total j low high missing
    · exact hash j low high missing
  · intro zeros
    exact ⟨fun j _ high missing => zeros j missing (Or.inl (by omega)),
      fun j low high missing => zeros j missing (Or.inr (Or.inl ⟨low, high⟩)),
      fun j low high missing => zeros j missing (Or.inr (Or.inr ⟨low, high⟩))⟩

end Images

section Stops

variable {V : VaultPrimitives} {masterKey : Bytes} {n : Nat} {f : File} {fault : Fault}

theorem outcomeOf_one (script : List (Option Fault)) :
    outcomeOf script 1 = script.tail.headD none := by
  rw [outcomeOf, List.drop_one]

theorem outcomeOf_two (script : List (Option Fault)) :
    outcomeOf script 2 = script.tail.tail.headD none := by
  rw [outcomeOf, ← List.tail_drop, List.drop_one]

theorem outcomeOf_three (script : List (Option Fault)) :
    outcomeOf script 3 = script.tail.tail.tail.headD none := by
  rw [outcomeOf, ← List.tail_drop, ← List.tail_drop, List.drop_one]

theorem createNew_unopened (h : outcomeOf f.script 0 = some fault) :
    finalState (createNew V masterKey n f) = { f with script := f.script.tail } := by
  rw [createNew, bind_error (show openNew f = _ from call_fails h)]
  rfl

theorem createNew_unsized (absent : f.exists? = false) (opened : outcomeOf f.script 0 = none)
    (h : outcomeOf f.script 1 = some fault) :
    finalState (createNew V masterKey n f) = ⟨true, [], 0, f.script.tail.tail⟩ := by
  rw [outcomeOf_one] at h
  rw [createNew, bind_ok (openNew_works opened absent),
    bind_error (show setLen _ ⟨true, [], 0, f.script.tail⟩ = _ from call_fails h)]
  rfl

theorem writeFreshBitmap_idle {g : File}
    (zeros : slice g.bytes (bitmapStartBlock * blockSize) (bitmapBlocks * blockSize) = freshBitmap)
    (fits : bitmapStartBlock * blockSize + bitmapBlocks * blockSize ≤ g.bytes.length)
    (build : File → Volume) :
    ∃ cursor script, finalState ((do
        seek (bitmapStartBlock * blockSize)
        writeAll freshBitmap
        syncAll
        let file ← get
        pure (build file) : FileM Volume) g) = { g with cursor := cursor, script := script } := by
  have hrest : Quiet (do syncAll; let file ← get; pure (build file) : FileM Volume) :=
    touch_quiet.bind fun _ f => ⟨f.cursor, f.script, rfl⟩
  have hidle : ∀ count, splice g.bytes (bitmapStartBlock * blockSize) (freshBitmap.take count) =
      g.bytes := by
    intro count
    rw [← zeros, slice, List.take_take]
    exact splice_slice (by omega)
  cases hseek : g.script.headD none with
  | some fault =>
    rw [bind_error (seek_fails hseek _)]
    exact ⟨_, _, rfl⟩
  | none =>
    rw [bind_ok (seek_works hseek _)]
    rcases writeAll_cases freshBitmap _ with hrun | ⟨code, progress, hrun⟩
    · obtain ⟨cursor, script, hfinal⟩ := hrest _
      have hwhole := hidle freshBitmap.length
      rw [List.take_length] at hwhole
      rw [bind_ok hrun, hfinal, put]
      simp only [hwhole]
      exact ⟨_, _, rfl⟩
    · rw [bind_error hrun, finalState_error, put]
      simp only [hidle]
      exact ⟨_, _, rfl⟩

theorem createNew_sized (absent : f.exists? = false) (opened : outcomeOf f.script 0 = none)
    (sized : outcomeOf f.script 1 = none) :
    (finalState (createNew V masterKey n f)).exists? = true ∧
      (finalState (createNew V masterKey n f)).bytes =
        begun V masterKey n (headProgress f.script) := by
  rw [outcomeOf_one] at sized
  rw [createNew, bind_ok (openNew_works opened absent), bind_ok (setLen_works sized _),
    headProgress, outcomeOf_two, outcomeOf_three]
  cases hseek : f.script.tail.tail.headD none with
  | some fault =>
    rw [bind_error (seek_fails hseek _)]
    refine ⟨rfl, ?_⟩
    rw [begun, List.take_zero, splice_nil]
    rfl
  | none =>
    rw [bind_ok (seek_works hseek _)]
    cases hwrite : f.script.tail.tail.tail.headD none with
    | some fault =>
      rw [bind_error (writeAll_fails hwrite _)]
      exact ⟨rfl, rfl⟩
    | none =>
      -- from here on only zeros are written over zeros, wherever it stops
      have hfits := metadata_fits n
      have hlength := begun_length V masterKey n blockSize
      have hwhole : begun V masterKey n blockSize =
          splice (resize [] ((dataStartBlock + n) * blockSize)) 0 (freshHead V masterKey n) := by
        rw [begun, List.take_of_length_le (freshHead_length V masterKey n).le]
      have hzeros := begun_bitmap V masterKey n blockSize
      rw [bind_ok (writeAll_works hwrite _)]
      rw [← hlength] at hfits
      rw [hwhole] at hfits hzeros ⊢
      obtain ⟨cursor, script, hfinal⟩ := writeFreshBitmap_idle (g := put (freshHead V masterKey n)
          ⟨true, resize [] ((dataStartBlock + n) * blockSize), 0, f.script.tail.tail.tail.tail⟩)
        hzeros hfits fun file => ⟨file, masterKey, dataStartBlock + n, n, freshBitmap⟩
      exact ⟨congrArg File.exists? hfinal, congrArg File.bytes hfinal⟩

end Stops

section Recovering

variable {V : VaultPrimitives} {masterKey : Bytes} {n : Nat} {g : File}

theorem recovers_blank (capacity : n ≤ maxDataBlocks) (blank : g.exists? = true → g.bytes = []) :
    Recovers V masterKey n g :=
  ⟨_, _, openOrCreate_blank (f := { g with script := [] }) rfl blank capacity masterKey, rfl, rfl,
    fun i _ => test_replicate_zero _ i⟩

theorem recovers_begun_iff (capacity : n ≤ maxDataBlocks) {count : Nat} (present : g.exists? = true)
    (image : g.bytes = begun V masterKey n count) :
    Recovers V masterKey n g ↔
      Bootable V (slice (begun V masterKey n count) 0 blockSize) masterKey
        (dataStartBlock + n) := by
  have hready : Ready { g with script := [] } := ⟨rfl, present⟩
  have hlength : g.bytes.length = (dataStartBlock + n) * blockSize :=
    image ▸ begun_length V masterKey n count
  have hmeta : dataStartBlock * blockSize ≤ g.bytes.length := by
    rw [hlength]
    exact Nat.mul_le_mul_right _ (Nat.le_add_right _ _)
  have hpos : 0 < dataStartBlock * blockSize := by decide
  have hopen : openOrCreate V masterKey n { g with script := [] } =
      openExisting V masterKey { g with script := [] } :=
    openOrCreate_present hready (hpos.trans_le hmeta) capacity masterKey
  rw [← image]
  constructor
  · rintro ⟨v, g', hrun, htotal, -⟩
    rw [hopen] at hrun
    obtain ⟨hbytes, head, hkept, hbootable⟩ := opened_kept hrun
    rw [← hkept.superblock, hbytes, htotal] at hbootable
    exact hbootable
  · intro hbootable
    have hkept : Kept (slice g.bytes 0 blockSize) masterKey (dataStartBlock + n)
        ⟨{ g with script := [] }, masterKey, dataStartBlock + n, n, freshBitmap⟩ :=
      ⟨present, hmeta, rfl, rfl, rfl⟩
    obtain ⟨v, hrun, -, -, htotal, -, hbitmap⟩ :=
      openExisting_bootable hkept hbootable (Nat.le_add_right _ _) (by omega) hready
    have hzeros : v.blockBitmap = freshBitmap := by
      rw [hbitmap]
      exact image ▸ begun_bitmap V masterKey n count
    have hcount := (sound_of_opened (.opened _ _ _ hrun)).counted
    rw [hzeros, htotal, Nat.add_sub_cancel_left, freshBitmap,
      card_clearBits_replicate_zero] at hcount
    refine ⟨v, v.file, hopen.trans hrun, htotal, hcount, fun i _ => ?_⟩
    rw [hzeros]
    exact test_replicate_zero _ i

end Recovering

/-- Creation at a path without a file, stopped by any failing call or none: opening
it again gives the vault exactly unless the file was given its length and the
superblock lacks a byte that opening depends on. -/
theorem interrupted_creation_recovers_iff (V : VaultPrimitives) (masterKey : Bytes) {n : Nat}
    (capacity : n ≤ maxDataBlocks) {f : File} (absent : f.exists? = false) :
    Recovers V masterKey n (finalState (createNew V masterKey n f)) ↔
      ¬ Stranded V masterKey n f.script := by
  cases hopened : outcomeOf f.script 0 with
  | some fault =>
    refine iff_of_true (recovers_blank capacity fun present => ?_) fun stranded => ?_
    · rw [createNew_unopened hopened] at present
      exact absurd present (by simp [absent])
    · rw [stranded.1] at hopened
      cases hopened
  | none =>
    cases hsized : outcomeOf f.script 1 with
    | some fault =>
      refine iff_of_true (recovers_blank capacity fun _ => ?_) fun stranded => ?_
      · rw [createNew_unsized absent hopened hsized]
      · rw [stranded.2.1] at hsized
        cases hsized
    | none =>
      obtain ⟨present, image⟩ : (finalState (createNew V masterKey n f)).exists? = true ∧
          (finalState (createNew V masterKey n f)).bytes =
            begun V masterKey n (headProgress f.script) := createNew_sized absent hopened hsized
      rw [recovers_begun_iff capacity present image, bootable_begun_iff capacity]
      simp only [Stranded, hopened, hsized, true_and, not_exists, not_and, not_not]

theorem interrupted_creation_recovers_sample :
    Recovers symbolicVault sampleKey 3 (finalState (createNew symbolicVault sampleKey 3
      { absentFile with script := [none, none, none, none, none, some ⟨28, 4096⟩] })) := by
  refine (interrupted_creation_recovers_iff symbolicVault sampleKey (by decide) rfl).mpr ?_
  rintro ⟨-, -, j, missing, essential, -⟩
  have hall : blockSize ≤ j := missing
  have hblock : 56 ≤ blockSize := by decide
  unfold Essential at essential
  omega

theorem openExisting_mismatch {V : VaultPrimitives} {f : File} (ready : Ready f)
    (long : blockSize ≤ f.bytes.length)
    (headless : readSuperblock (slice f.bytes 0 blockSize) = none) (masterKey : Bytes) :
    openExisting V masterKey f = .error (.raised .invalidData
      "vault.sec superblock magic mismatch — file is not a valid vault container")
        { f with cursor := 0 + blockSize } := by
  have hseek : seek 0 { f with cursor := 0 } = .ok () { f with cursor := 0 } :=
    seek_healthy (ready.cursor 0).healthy 0
  have hread : readExact blockSize { f with cursor := 0 } =
      .ok (slice f.bytes 0 blockSize) { f with cursor := 0 + blockSize } :=
    readExact_healthy (ready.cursor 0).healthy (by dsimp only; omega)
  rw [openExisting, bind_ok (openExisting_healthy ready.healthy ready.present), bind_ok hseek,
    bind_ok hread]
  simp only [headless]
  rfl

theorem creation_stopped_behind_set_len :
    ∃ stopped g : File, createNew symbolicVault sampleKey 3
        { absentFile with script := [none, none, some ⟨28, 0⟩] } = .error (.os 28) stopped ∧
      openOrCreate symbolicVault sampleKey 3 stopped = .error (.raised .invalidData
        "vault.sec superblock magic mismatch — file is not a valid vault container") g ∧
      g.exists? = true ∧ g.bytes = stopped.bytes ∧
      ¬ Recovers symbolicVault sampleKey 3 stopped := by
  -- Stopped just behind `set_len`, the vault cannot be opened, now or later.
  have hcreate : createNew symbolicVault sampleKey 3
      { absentFile with script := [none, none, some ⟨28, 0⟩] } =
        .error (.os 28) ⟨true, resize [] ((dataStartBlock + 3) * blockSize), 0, []⟩ := by
    rw [createNew, bind_ok (openNew_works rfl rfl), bind_ok (setLen_works rfl _),
      bind_error (seek_fails rfl _)]
    rfl
  have hlength := resize_length [] ((dataStartBlock + 3) * blockSize)
  have hblocks : (dataStartBlock + 3) * blockSize = 49152 := by decide
  have hblock : blockSize = 4096 := rfl
  have hheadless : readSuperblock
      (slice (resize [] ((dataStartBlock + 3) * blockSize)) 0 blockSize) = none := by
    have hmagic : slice (slice (resize [] ((dataStartBlock + 3) * blockSize)) 0 blockSize) 0 4 =
        List.replicate 4 0 := by
      rw [resize_nil, slice, slice, List.drop_zero, List.drop_zero, List.take_take,
        List.take_replicate, hblocks, hblock]
      rfl
    rw [readSuperblock, hmagic, if_pos (by decide)]
  have hopen : openOrCreate symbolicVault sampleKey 3
      ⟨true, resize [] ((dataStartBlock + 3) * blockSize), 0, []⟩ = .error (.raised .invalidData
        "vault.sec superblock magic mismatch — file is not a valid vault container")
          ⟨true, resize [] ((dataStartBlock + 3) * blockSize), 0 + blockSize, []⟩ := by
    have hready : Ready ⟨true, resize [] ((dataStartBlock + 3) * blockSize), 0, []⟩ := ⟨rfl, rfl⟩
    rw [openOrCreate_present hready (by dsimp only; omega) (by decide)]
    exact openExisting_mismatch hready (by dsimp only; omega) hheadless sampleKey
  refine ⟨_, _, hcreate, hopen, rfl, rfl, ?_⟩
  rintro ⟨v, g, hrun, -⟩
  cases hrun.symm.trans hopen

end SecureCore.VirtualVolume
