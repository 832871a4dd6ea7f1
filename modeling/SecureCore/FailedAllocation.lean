import SecureCore.TornWrite
import SecureCore.VaultEntries

/-! What a failed allocation, reservation, release, erasure or planting of canaries
leaves behind. The three allocator operations change bitmap and counter first and then
make the seven system calls of `write_bitmap`; when one of these fails the change
stays, although failure is reported. The two entry points chain several such steps
and return in the middle of them. -/

namespace SecureCore.FailedAllocation

open VirtualVolume FaultyFile FallibleState PackedBits ByteImage VaultEntries TornWrite

structure Unchanged (V : VaultPrimitives) (v w : Volume) : Prop where
  bitmap : w.blockBitmap = v.blockBitmap
  free : w.freeBlocks = v.freeBlocks
  payloads : ∀ blockIdx, readable V w blockIdx = readable V v blockIdx

theorem unchanged_facing {V : VaultPrimitives} (v : Volume) (script : List (Option Fault)) :
    Unchanged V v (v.facing script) := ⟨rfl, rfl, fun _ => rfl⟩

theorem unchanged_facing_iff {V : VaultPrimitives} {v w : Volume} {script : List (Option Fault)} :
    Unchanged V (v.facing script) w ↔ Unchanged V v w :=
  ⟨fun h => ⟨h.bitmap, h.free, h.payloads⟩, fun h => ⟨h.bitmap, h.free, h.payloads⟩⟩

def FailsClean {α : Type} (V : VaultPrimitives) (v : Volume)
    (result : EStateM.Result Failure Volume α) : Prop :=
  ∀ failure w, result = .error failure w → Unchanged V v w

theorem failsClean_ok {α : Type} {V : VaultPrimitives} {v w : Volume} (a : α) :
    FailsClean V v (.ok a w) := by
  rintro _ _ ⟨⟩

theorem failsClean_error {α : Type} {V : VaultPrimitives} {v w : Volume} {failure : Failure} :
    FailsClean V v (.error failure w : EStateM.Result Failure Volume α) ↔ Unchanged V v w := by
  refine ⟨fun h => h failure w rfl, ?_⟩
  rintro h _ _ ⟨⟩
  exact h

theorem failsClean_refused {α : Type} {V : VaultPrimitives} {v : Volume} (failure : Failure) :
    FailsClean V v (.error failure v : EStateM.Result Failure Volume α) :=
  failsClean_error.mpr (unchanged_facing v v.file.script)

section Calls

variable {α : Type} {v : Volume}

theorem onFile_counted {k : Nat} {m : FileM α} (h : Counted id k m) :
    Counted Volume.file k (onFile m) := by
  intro v
  have hspec := h v.file
  cases hrun : m v.file with
  | ok a f =>
    rw [hrun] at hspec
    rw [onFile_ok hrun]
    exact hspec
  | error e f =>
    rw [hrun] at hspec
    rw [onFile_error hrun]
    exact hspec

theorem freezeTimestamps_counted : Counted id 4 freezeTimestamps :=
  metadata_counted.bind fun _ => touch_counted.bind fun _ =>
    touch_counted.bind fun _ => touch_counted

theorem writeBitmap_counted : Counted Volume.file 7 writeBitmap := by
  have hget : Counted Volume.file 0 (get : VolumeM Volume) := fun v n => Iff.rfl
  exact (onFile_counted (seek_counted _)).bind fun _ => hget.bind fun _ =>
    (onFile_counted (writeAll_counted _)).bind fun _ =>
    (onFile_counted touch_counted).bind fun _ => onFile_counted freezeTimestamps_counted

def OnFile (v w : Volume) : Prop := ∃ f, w = { v with file := f }

theorem OnFile.refl (v : Volume) : OnFile v v := ⟨v.file, rfl⟩

theorem onFile_memory (m : FileM α) : Preserves (OnFile v) (onFile m) := by
  rintro _ ⟨f, rfl⟩
  rw [finalState_onFile]
  exact ⟨finalState (m f), rfl⟩

theorem writeBitmap_memory : Preserves (OnFile v) writeBitmap :=
  .bind (onFile_memory _) fun _ => .bind .get fun _ => .bind (onFile_memory _) fun _ =>
    .bind (onFile_memory _) fun _ => onFile_memory _

theorem framed_present : Framed (fun f => f.exists? = true) (fun _ => True) :=
  ⟨fun _ _ _ h => h, fun _ _ h _ => h, fun _ _ _ _ h => h⟩

variable {V : VaultPrimitives} {u : Volume}

theorem writeBitmap_clean_iff (present : u.file.exists? = true)
    (differs : u.blockBitmap ≠ v.blockBitmap) :
    FailsClean V v (writeBitmap u) ↔ Works 7 u.file := by
  constructor
  · intro hclean
    cases hrun : writeBitmap u with
    | ok a w =>
      have hpresent := framed_present.writeBitmap u ⟨present, trivial⟩
      rw [hrun] at hpresent
      exact (writeBitmap_counted.works_of_ok hrun 0).mp ⟨hpresent.1, by simp⟩
    | error failure w =>
      have hmemory := writeBitmap_memory u (.refl u)
      rw [hrun] at hmemory
      obtain ⟨f, rfl⟩ := hmemory
      rw [hrun, failsClean_error] at hclean
      exact absurd hclean.bitmap differs
  · intro works
    obtain ⟨a, t, hok⟩ := writeBitmap_counted.ok_of_works works
    rw [hok]
    exact failsClean_ok a

theorem clean_bind_pure {β : Type} {m : VolumeM α} {g : α → β} :
    FailsClean V v ((m >>= fun a => pure (g a)) u) ↔ FailsClean V v (m u) := by
  cases hrun : m u with
  | ok a w =>
    rw [bind_ok hrun]
    exact iff_of_true (failsClean_ok (g a)) (failsClean_ok a)
  | error failure w => rw [bind_error hrun, failsClean_error, failsClean_error]

end Calls

section Allocator

variable {V : VaultPrimitives} {T : Nat} {B : Bytes} {v u : Volume} {blockIdx bitIdx : Nat}

theorem taken_differs (stored : bitIdx >>> 3 < v.blockBitmap.length)
    (hclear : test v.blockBitmap bitIdx = false) :
    (taken v bitIdx).blockBitmap ≠ v.blockBitmap := by
  intro hsame
  have htest : test (taken v bitIdx).blockBitmap bitIdx = true := by
    simp [taken, test_set stored]
  rw [hsame, hclear] at htest
  cases htest

theorem released_differs (stored : bitIdx >>> 3 < v.blockBitmap.length)
    (hset : test v.blockBitmap bitIdx = true) :
    (released v bitIdx).blockBitmap ≠ v.blockBitmap := by
  intro hsame
  have htest : test (released v bitIdx).blockBitmap bitIdx = false := by
    simp [released, test_clear stored]
  rw [hsame, hset] at htest
  cases htest

variable (sound : Sound T B v) (present : v.file.exists? = true)
include sound present

theorem takeBit_clean_iff (hbit : bitIdx < T - dataStartBlock)
    (hclear : test v.blockBitmap bitIdx = false) :
    FailsClean V v (takeBit bitIdx v) ↔ Works 7 v.file := by
  rw [takeBit_eq (sound.free_pos hbit hclear)]
  exact writeBitmap_clean_iff (u := taken v bitIdx) present
    (taken_differs (sound.stored hbit) hclear)

theorem allocateBlock_clean_iff :
    FailsClean V v (allocateBlock v) ↔ v.freeBlocks = 0 ∨ Works 7 v.file := by
  by_cases full : v.freeBlocks = 0
  · rw [allocateBlock_full full]
    exact iff_of_true (failsClean_refused _) (Or.inl full)
  · obtain ⟨i, hi, hclear, hset⟩ := sound.first_clear full
    rw [allocateBlock_eq sound hi hclear hset, clean_bind_pure,
      takeBit_clean_iff sound present hi hclear, or_iff_right full]

theorem reserveBlock_clean_iff :
    FailsClean V v (reserveBlock blockIdx v) ↔
      ¬ v.inRange blockIdx ∨ test v.blockBitmap (blockIdx - dataStartBlock) = true ∨
        Works 7 v.file := by
  by_cases range : v.inRange blockIdx
  · have hbit := sound.bit_of_inRange range
    rw [or_iff_right (not_not.mpr range)]
    cases htest : test v.blockBitmap (blockIdx - dataStartBlock) with
    | true =>
      rw [reserveBlock_taken range (sound.stored hbit) htest]
      exact iff_of_true (failsClean_ok ()) (Or.inl rfl)
    | false =>
      rw [reserveBlock_eq range (sound.stored hbit) htest,
        takeBit_clean_iff sound present hbit htest]
      simp
  · rw [reserveBlock_outside range]
    exact iff_of_true (failsClean_refused _) (Or.inl range)

theorem freeBlock_clean_iff :
    FailsClean V v (freeBlock blockIdx v) ↔
      ¬ v.inRange blockIdx ∨ test v.blockBitmap (blockIdx - dataStartBlock) = false ∨
        Works 7 v.file := by
  by_cases range : v.inRange blockIdx
  · have hbit := sound.bit_of_inRange range
    rw [or_iff_right (not_not.mpr range)]
    cases htest : test v.blockBitmap (blockIdx - dataStartBlock) with
    | false =>
      rw [freeBlock_already_free range (sound.stored hbit) htest]
      exact iff_of_true (failsClean_refused _) (Or.inl rfl)
    | true =>
      rw [freeBlock_eq range (sound.stored hbit) htest,
        writeBitmap_clean_iff (u := released v (blockIdx - dataStartBlock)) present
          (released_differs (sound.stored hbit) htest)]
      simp [released]
  · rw [freeBlock_outside range]
    exact iff_of_true (failsClean_refused _) (Or.inl range)

end Allocator

section Store

variable {V : VaultPrimitives} {v : Volume} {blockIdx : Nat} {payload : Exactly payloadSize}
  {nonce : Exactly nonceSize}

theorem storeSealed_counted (blockIdx : Nat) (nonce ciphertext : Bytes) :
    Counted Volume.file 7 (storeSealed blockIdx nonce ciphertext) :=
  (onFile_counted (seek_counted _)).bind fun _ =>
    (onFile_counted (writeAll_counted _)).bind fun _ =>
    (onFile_counted (writeAll_counted _)).bind fun _ => onFile_counted freezeTimestamps_counted

theorem storeSealed_memory (blockIdx : Nat) (nonce ciphertext : Bytes) :
    Preserves (OnFile v) (storeSealed blockIdx nonce ciphertext) :=
  .bind (onFile_memory _) fun _ => .bind (onFile_memory _) fun _ =>
    .bind (onFile_memory _) fun _ => onFile_memory _

/-- The seek fails, or it succeeds and the first write fails before its first byte. -/
def StopsUnwritten (f : File) : Prop :=
  ¬ Works 1 f ∨ ∃ fault, f.script.tail.headD none = some fault ∧ fault.progress = 0

/-- What keeps `write_block` from writing anything. -/
def Refused (V : VaultPrimitives) (v : Volume) (blockIdx : Nat) (payload : Exactly payloadSize)
    (nonce : Exactly nonceSize) : Prop :=
  ¬ v.inRange blockIdx ∨
    V.chachaEncrypt (deriveBlockKey V v.masterKey blockIdx) nonce payload = none ∨
    StopsUnwritten v.file

def Untouched (v w : Volume) : Prop := ∃ position script, w = (v.moved position).facing script

theorem Untouched.refl (v : Volume) : Untouched v v := ⟨v.file.cursor, v.file.script, rfl⟩

theorem Untouched.unchanged {w : Volume} (h : Untouched v w) (present : v.file.exists? = true) :
    Unchanged V v w := by
  obtain ⟨position, script, rfl⟩ := h
  exact ⟨rfl, rfl, fun _ => readable_congr present present rfl rfl rfl⟩

theorem onFile_writeAll_unwritten {fault : Fault} (fails : v.file.script.headD none = some fault)
    (unwritten : fault.progress = 0) (data : Bytes) :
    onFile (writeAll data) v = .error (.os fault.code) (v.facing v.file.script.tail) := by
  rw [onFile_error (writeAll_fails fails data), unwritten, List.take_zero, put, splice_nil]
  rfl

theorem storeSealed_unwritten (present : v.file.exists? = true) (stops : StopsUnwritten v.file)
    (nonce ciphertext : Bytes) :
    ∃ code w, storeSealed blockIdx nonce ciphertext v = .error (.os code) w ∧ Untouched v w := by
  cases hseek : v.file.script.headD none with
  | some fault =>
    have hfails := onFile_error (v := v) (seek_fails hseek (blockIdx * blockSize))
    refine ⟨fault.code, v.facing v.file.script.tail, ?_, v.file.cursor, _, rfl⟩
    rw [storeSealed, bind_error hfails]
    rfl
  | none =>
    obtain ⟨fault, hfault, hunwritten⟩ : ∃ fault, v.file.script.tail.headD none = some fault ∧
        fault.progress = 0 := by
      refine stops.resolve_left fun hfails => ?_
      obtain ⟨fault, hfault⟩ := fault_of_not_works present hfails
      rw [hseek] at hfault
      cases hfault
    have hmoved : onFile (seek (blockIdx * blockSize)) v =
        .ok () ((v.moved (blockIdx * blockSize)).facing v.file.script.tail) :=
      onFile_ok (seek_works hseek _)
    have hfails := onFile_writeAll_unwritten
      (v := (v.moved (blockIdx * blockSize)).facing v.file.script.tail) hfault hunwritten nonce
    refine ⟨fault.code, _, ?_, blockIdx * blockSize, v.file.script.tail.tail, rfl⟩
    rw [storeSealed, bind_ok hmoved, bind_error hfails]
    rfl

theorem writeBlock_refused (present : v.file.exists? = true)
    (refused : Refused V v blockIdx payload nonce) :
    ∃ w, attempt (writeBlock V blockIdx payload nonce) v = .ok none w ∧ Untouched v w := by
  by_cases range : v.inRange blockIdx
  · cases hseal : V.chachaEncrypt (deriveBlockKey V v.masterKey blockIdx) nonce payload with
    | none => exact ⟨v, attempt_raised (writeBlock_unsealed range hseal), .refl v⟩
    | some ciphertext =>
      have hstops : StopsUnwritten v.file := by
        rcases refused with houtside | hnone | hstops
        · exact absurd range houtside
        · rw [hseal] at hnone
          cases hnone
        · exact hstops
      obtain ⟨code, w, hstore, huntouched⟩ :=
        storeSealed_unwritten present hstops nonce ciphertext
      rw [← writeBlock_eq range hseal] at hstore
      exact ⟨w, attempt_os hstore, huntouched⟩
  · exact ⟨v, attempt_raised (writeBlock_outside range payload nonce), .refl v⟩

theorem writeBlock_memory (blockIdx : Nat) (payload : Exactly payloadSize)
    (nonce : Exactly nonceSize) : Preserves (OnFile v) (writeBlock V blockIdx payload nonce) := by
  rintro _ ⟨f, rfl⟩
  by_cases range : ({ v with file := f } : Volume).inRange blockIdx
  · cases hseal : V.chachaEncrypt (deriveBlockKey V v.masterKey blockIdx) nonce payload with
    | none =>
      rw [writeBlock_unsealed range hseal]
      exact ⟨f, rfl⟩
    | some ciphertext =>
      rw [writeBlock_eq range hseal]
      exact storeSealed_memory blockIdx nonce ciphertext _ ⟨f, rfl⟩
  · rw [writeBlock_outside range]
    exact ⟨f, rfl⟩

/-- The block is overwritten in full. -/
def Overwritten (V : VaultPrimitives) (v : Volume) (blockIdx : Nat) (payload : Exactly payloadSize)
    (nonce : Exactly nonceSize) : Prop :=
  v.inRange blockIdx ∧
    V.chachaEncrypt (deriveBlockKey V v.masterKey blockIdx) nonce payload ≠ none ∧ Works 7 v.file

theorem writeBlock_ok_iff (present : v.file.exists? = true) :
    (∃ w, writeBlock V blockIdx payload nonce v = .ok () w) ↔
      Overwritten V v blockIdx payload nonce := by
  by_cases range : v.inRange blockIdx
  · cases hseal : V.chachaEncrypt (deriveBlockKey V v.masterKey blockIdx) nonce payload with
    | none =>
      rw [writeBlock_unsealed range hseal]
      simp [Overwritten, hseal]
    | some ciphertext =>
      have hcounted := storeSealed_counted blockIdx nonce ciphertext
      have hpresent :=
        framed_present.writeBlock (V := V) blockIdx payload nonce v ⟨present, trivial⟩
      rw [writeBlock_eq range hseal] at hpresent ⊢
      constructor
      · rintro ⟨w, hrun⟩
        rw [hrun] at hpresent
        refine ⟨range, by simp [hseal], (hcounted.works_of_ok hrun 0).mp ⟨hpresent.1, by simp⟩⟩
      · rintro ⟨-, -, works⟩
        obtain ⟨⟨⟩, w, hrun⟩ := hcounted.ok_of_works works
        exact ⟨w, hrun⟩
  · rw [writeBlock_outside range]
    simp [Overwritten, range]

end Store

section Entries

variable {V : VaultPrimitives} {T : Nat} {B : Bytes} {v w : Volume} {blockIdx code : Nat}

def SameAllocation (v w : Volume) : Prop :=
  w.blockBitmap = v.blockBitmap ∧ w.freeBlocks = v.freeBlocks

theorem OnFile.sameAllocation (h : OnFile v w) : SameAllocation v w := by
  obtain ⟨f, rfl⟩ := h
  exact ⟨rfl, rfl⟩

theorem attempt_memory {α : Type} {m : VolumeM α} (h : Preserves (OnFile v) m) :
    Preserves (OnFile v) (attempt m) := by
  intro w hw
  rw [finalState_attempt]
  exact h w hw

theorem secureEraseBlock_refused (present : v.file.exists? = true) {draft : Draft}
    (refused : Refused V v blockIdx draft.payload draft.nonce)
    (run : VaultEntries.secureEraseBlock V blockIdx draft v = .ok code w) : Unchanged V v w := by
  obtain ⟨u, hwrite, huntouched⟩ := writeBlock_refused present refused
  rw [VaultEntries.secureEraseBlock, bind_ok hwrite] at run
  cases run
  exact huntouched.unchanged present

theorem freeBlock_allocation_iff (sound : Sound T B v) (range : v.inRange blockIdx)
    {failure : Failure} (run : freeBlock blockIdx v = .error failure w) :
    SameAllocation v w ↔ test v.blockBitmap (blockIdx - dataStartBlock) = false := by
  have hstored := sound.stored (sound.bit_of_inRange range)
  cases htest : test v.blockBitmap (blockIdx - dataStartBlock) with
  | false =>
    rw [freeBlock_already_free range hstored htest] at run
    cases run
    exact iff_of_true ⟨rfl, rfl⟩ rfl
  | true =>
    have hmemory := writeBitmap_memory _ (.refl (released v (blockIdx - dataStartBlock)))
    rw [← freeBlock_eq range hstored htest, run] at hmemory
    obtain ⟨f, rfl⟩ := hmemory
    exact iff_of_false (fun hsame => released_differs hstored htest hsame.1) (by simp)

theorem secureEraseBlock_allocation_iff (sound : Sound T B v) (present : v.file.exists? = true)
    {draft : Draft} (run : VaultEntries.secureEraseBlock V blockIdx draft v = .ok code w)
    (failed : code ≠ 0) :
    SameAllocation v w ↔ ¬ (Overwritten V v blockIdx draft.payload draft.nonce ∧
      test v.blockBitmap (blockIdx - dataStartBlock) = true) := by
  have hmemory := writeBlock_memory (V := V) blockIdx draft.payload draft.nonce v (.refl v)
  obtain ⟨result, u, hattempt, hrest⟩ := ok_of_bind run
  rcases of_attempt hattempt with ⟨⟨⟩, rfl, hwrite⟩ | ⟨failure, rfl, hwrite⟩
  · have hover := (writeBlock_ok_iff present).mp ⟨u, hwrite⟩
    rw [hwrite] at hmemory
    obtain ⟨f, rfl⟩ := hmemory
    obtain ⟨result, u, hattempt, hrest⟩ := ok_of_bind hrest
    cases hrest
    rcases of_attempt hattempt with ⟨⟨⟩, rfl, hok⟩ | ⟨failure, rfl, herror⟩
    · exact absurd rfl failed
    · have hfree : SameAllocation v w ↔ _ :=
        freeBlock_allocation_iff (v := { v with file := f }) (sound.file f) hover.1 herror
      rw [hfree, not_and, Bool.not_eq_true]
      exact ⟨fun hclear _ => hclear, fun h => h hover⟩
  · cases hrest
    rw [hwrite] at hmemory
    refine ⟨fun _ hboth => ?_, fun _ => hmemory.sameAllocation⟩
    obtain ⟨t, hok⟩ := (writeBlock_ok_iff present).mpr hboth.1
    rw [hwrite] at hok
    cases hok

def Reserved (v : Volume) (blocks : List Nat) : Prop :=
  ∀ b ∈ blocks, v.inRange b → test v.blockBitmap (b - dataStartBlock) = true

theorem reserveBlocks_reserved (sound : Sound T B v) {blocks : List Nat}
    (reserved : Reserved v blocks) : reserveBlocks blocks v = .ok () v := by
  induction blocks with
  | nil => rfl
  | cons blockIdx rest ih =>
    have hrest := ih fun b hb => reserved b (List.mem_cons_of_mem _ hb)
    by_cases range : v.inRange blockIdx
    · have hset := reserved blockIdx List.mem_cons_self range
      have hreserve := reserveBlock_taken range (sound.stored (sound.bit_of_inRange range)) hset
      rw [reserveBlocks, bind_ok (attempt_ok hreserve), hrest]
    · rw [reserveBlocks, bind_ok (attempt_raised (reserveBlock_outside range)), hrest]

theorem reserveBlock_sets (sound : Sound T B v) (i : Nat) :
    test (finalState (reserveBlock blockIdx v)).blockBitmap i = true ↔
      test v.blockBitmap i = true ∨ v.inRange blockIdx ∧ i = blockIdx - dataStartBlock := by
  by_cases range : v.inRange blockIdx
  · have hbit := sound.bit_of_inRange range
    cases htest : test v.blockBitmap (blockIdx - dataStartBlock) with
    | true =>
      rw [reserveBlock_taken range (sound.stored hbit) htest, finalState_ok]
      refine ⟨Or.inl, ?_⟩
      rintro (hset | ⟨-, rfl⟩)
      · exact hset
      · exact htest
    | false =>
      have hmemory := writeBitmap_memory _ (.refl (taken v (blockIdx - dataStartBlock)))
      rw [reserveBlock_eq range (sound.stored hbit) htest,
        takeBit_eq (sound.free_pos hbit htest), hmemory.sameAllocation.1, taken]
      simp [test_set (sound.stored hbit), range, or_comm]
  · rw [reserveBlock_outside range, finalState_error]
    simp [range]

theorem reserveBlocks_sets (blocks : List Nat) (sound : Sound T B v)
    (run : reserveBlocks blocks v = .ok () w) :
    (∀ i, test v.blockBitmap i = true → test w.blockBitmap i = true) ∧
      ∀ b ∈ blocks, v.inRange b → test w.blockBitmap (b - dataStartBlock) = true := by
  induction blocks generalizing v with
  | nil =>
    cases run
    exact ⟨fun _ hset => hset, by simp⟩
  | cons blockIdx rest ih =>
    obtain ⟨result, u, hattempt, hrest⟩ := ok_of_bind run
    have hfinal : finalState (reserveBlock blockIdx v) = u := by
      rw [← finalState_attempt, hattempt, finalState_ok]
    have hsound : Sound T B u := hfinal ▸ (reserveBlock_keeps blockIdx).sound sound
    have hsets : ∀ i, test u.blockBitmap i = true ↔
        test v.blockBitmap i = true ∨ v.inRange blockIdx ∧ i = blockIdx - dataStartBlock :=
      fun i => hfinal ▸ reserveBlock_sets sound i
    obtain ⟨hmono, hset⟩ := ih hsound hrest
    refine ⟨fun i hi => hmono i ((hsets i).mpr (Or.inl hi)), ?_⟩
    rintro b hb range
    rcases List.mem_cons.mp hb with rfl | hb
    · exact hmono _ ((hsets _).mpr (Or.inr ⟨range, rfl⟩))
    · refine hset b hb ⟨range.1, ?_⟩
      rw [hsound.blocks, ← sound.blocks]
      exact range.2

theorem plantCanaries_memory (slot : Nat) (draws : List CanaryDraw) :
    Preserves (OnFile v) (plantCanaries V slot draws) := by
  induction draws generalizing slot with
  | nil => exact .pure 0
  | cons draw draws ih =>
    refine .bind (attempt_memory (writeBlock_memory _ _ _)) fun result => ?_
    cases result with
    | none => exact .pure 2
    | some _ => exact ih (slot + 1)

theorem initCanarySlots_allocation_iff (sound : Sound T B v) {draws : Fin 5 → CanaryDraw}
    (run : initCanarySlots V draws v = .ok code w) :
    SameAllocation v w ↔ Reserved v reservedBlocks := by
  obtain ⟨⟨⟩, u, hreserve, hplant⟩ := ok_of_bind run
  have hmemory := plantCanaries_memory (V := V) 0 (List.ofFn draws) u (.refl u)
  rw [hplant, finalState_ok] at hmemory
  have hsame := hmemory.sameAllocation
  constructor
  · intro hunchanged b hb range
    rw [← hunchanged.1, hsame.1]
    exact (reserveBlocks_sets reservedBlocks sound hreserve).2 b hb range
  · intro reserved
    rw [reserveBlocks_reserved sound reserved] at hreserve
    cases hreserve
    exact hsame

theorem initCanarySlots_refused (sound : Sound T B v) (present : v.file.exists? = true)
    {draws : Fin 5 → CanaryDraw} (reserved : Reserved v reservedBlocks)
    (refused : Refused V v 995 (canaryBlock 0 (draws 0).fill) (draws 0).nonce)
    (run : initCanarySlots V draws v = .ok code w) : Unchanged V v w := by
  obtain ⟨u, hwrite, huntouched⟩ := writeBlock_refused present refused
  have hstops : initCanarySlots V draws v = .ok 2 u := by
    rw [initCanarySlots, bind_ok (reserveBlocks_reserved sound reserved), List.ofFn_succ,
      plantCanaries]
    exact (bind_ok hwrite).trans rfl
  rw [hstops] at run
  cases run
  exact huntouched.unchanged present

theorem erase_of_free {masterKey : Bytes} {n : Nat} (live : Live V masterKey n v)
    (tagged : V.ChachaTagged) (inverts : V.ChachaInverts) (range : v.inRange blockIdx)
    (hclear : test v.blockBitmap (blockIdx - dataStartBlock) = false) (draft : Draft)
    {ciphertext : Bytes}
    (seals : V.chachaEncrypt (deriveBlockKey V v.masterKey blockIdx) draft.nonce draft.payload =
      some ciphertext) :
    ∃ w, VaultEntries.secureEraseBlock V blockIdx draft v = .ok 3 w ∧
      readable V w blockIdx = some draft.payload := by
  -- The erasure of a free block reports failure after the block was overwritten, although
  -- every system call succeeds.
  have hwrite := writeBlock_ready live.intact.ready range seals
  have hblock := blockAt_written v blockIdx (sealed_length tagged seals)
  refine ⟨v.written (blockIdx * blockSize) (draft.nonce ++ ciphertext), ?_, ?_⟩
  · have hfree : freeBlock blockIdx (v.written (blockIdx * blockSize) (draft.nonce ++ ciphertext)) =
        .error _ _ := freeBlock_already_free range
      (live.sound.stored (live.sound.bit_of_inRange range)) hclear
    rw [VaultEntries.secureEraseBlock, bind_ok (attempt_ok hwrite)]
    dsimp only
    rw [bind_ok (attempt_raised hfree)]
    rfl
  · have hpresent : (v.written (blockIdx * blockSize) (draft.nonce ++ ciphertext)).file.exists? =
        true := live.intact.ready.2
    refine (readable_iff hpresent).mpr
      ⟨range, (live.intact.fits range).trans (length_le_splice _ _ _), ?_⟩
    rw [hblock, List.take_left' draft.nonce.property, List.drop_left' draft.nonce.property]
    exact inverts seals

end Entries

/-- In every reachable state and whatever system calls fail: a failed allocation,
reservation or release leaves everything as it was exactly when it is not one of
the system calls of `write_bitmap` that failed. An erasure or a planting of canaries
that reports failure leaves the allocation as it was exactly when it has released or
reserved nothing, and the payloads, too, when it has written nothing. -/
theorem failed_allocations_change_nothing {V : VaultPrimitives} {v : Volume}
    (reachable : Reachable V v) (script : List (Option Fault)) (blockIdx : Nat) (draft : Draft)
    (draws : Fin 5 → CanaryDraw) :
    (FailsClean V v (allocateBlock (v.facing script)) ↔
      v.freeBlocks = 0 ∨ Works 7 (v.facing script).file) ∧
    (FailsClean V v (reserveBlock blockIdx (v.facing script)) ↔
      ¬ v.inRange blockIdx ∨ test v.blockBitmap (blockIdx - dataStartBlock) = true ∨
        Works 7 (v.facing script).file) ∧
    (FailsClean V v (freeBlock blockIdx (v.facing script)) ↔
      ¬ v.inRange blockIdx ∨ test v.blockBitmap (blockIdx - dataStartBlock) = false ∨
        Works 7 (v.facing script).file) ∧
    (∀ code w, VaultEntries.secureEraseBlock V blockIdx draft (v.facing script) = .ok code w →
      code ≠ 0 →
        (SameAllocation v w ↔
          ¬ (Overwritten V (v.facing script) blockIdx draft.payload draft.nonce ∧
            test v.blockBitmap (blockIdx - dataStartBlock) = true)) ∧
        (Refused V (v.facing script) blockIdx draft.payload draft.nonce → Unchanged V v w)) ∧
    ∀ code w, initCanarySlots V draws (v.facing script) = .ok code w → code ≠ 0 →
      (SameAllocation v w ↔ Reserved v reservedBlocks) ∧
      (Reserved v reservedBlocks →
        Refused V (v.facing script) 995 (canaryBlock 0 (draws 0).fill) (draws 0).nonce →
          Unchanged V v w) := by
  obtain ⟨head, hkept, -⟩ := reachable.kept
  obtain ⟨B, hsound⟩ := reachable.sound
  have sound : Sound v.totalBlocks B (v.facing script) := hsound.file _
  have present : (v.facing script).file.exists? = true := hkept.present
  have hclean : ∀ {α : Type} (result : EStateM.Result Failure Volume α),
      FailsClean V (v.facing script) result ↔ FailsClean V v result := fun _ =>
    forall₃_congr fun _ _ _ => unchanged_facing_iff
  refine ⟨(hclean _).symm.trans (allocateBlock_clean_iff sound present),
    (hclean _).symm.trans (reserveBlock_clean_iff sound present),
    (hclean _).symm.trans (freeBlock_clean_iff sound present), ?_, ?_⟩
  · intro code w run failed
    refine ⟨secureEraseBlock_allocation_iff sound present run failed, fun refused => ?_⟩
    exact unchanged_facing_iff.mp (secureEraseBlock_refused present refused run)
  · intro code w run _
    have hallocation := initCanarySlots_allocation_iff sound run
    refine ⟨hallocation, fun reserved refused => ?_⟩
    exact unchanged_facing_iff.mp (initCanarySlots_refused sound present reserved refused run)

theorem failed_allocations_change_nothing_seek : ∃ w,
    VaultEntries.secureEraseBlock symbolicVault 9
        ⟨BlockStore.samplePayload, BlockStore.sampleNonce⟩ (sampleVolume.facing [some ⟨5, 0⟩]) =
      .ok 3 w ∧ Unchanged symbolicVault sampleVolume w := by
  have reachable : Reachable symbolicVault sampleVolume :=
    .opened (.created sampleKey 3 (by decide) absentFile _ createNew_sample)
  have hfails : ¬ Works 1 (sampleVolume.facing [some ⟨5, 0⟩]).file :=
    fun works => absurd (works.2 _ List.mem_cons_self) (by decide)
  have hcalls := failed_allocations_change_nothing reachable [some ⟨5, 0⟩] 9
    ⟨BlockStore.samplePayload, BlockStore.sampleNonce⟩
    fun _ => ⟨⟨List.replicate _ 0, List.length_replicate⟩, BlockStore.sampleNonce⟩
  have refused : Refused symbolicVault (sampleVolume.facing [some ⟨5, 0⟩]) 9
      BlockStore.samplePayload BlockStore.sampleNonce := Or.inr (Or.inr (Or.inl hfails))
  obtain ⟨w, hwrite, -⟩ := writeBlock_refused rfl refused
  have run : VaultEntries.secureEraseBlock symbolicVault 9
      ⟨BlockStore.samplePayload, BlockStore.sampleNonce⟩ (sampleVolume.facing [some ⟨5, 0⟩]) =
        .ok 3 _ := (bind_ok hwrite).trans rfl
  exact ⟨_, run, (hcalls.2.2.2.1 3 _ run (by decide)).2 refused⟩

theorem filledVolume_free : test filledVolume.blockBitmap 0 = false := by
  have hrange : freshTornVolume.inRange 9 := by decide
  have hseal := nonceVault_seals (deriveBlockKey nonceVault freshTornVolume.masterKey 9)
    BlockStore.samplePayload BlockStore.sampleNonce
  rw [filledVolume, writeBlock_ready live_freshTornVolume.intact.ready hrange hseal, finalState_ok]
  exact test_replicate_zero _ 0

theorem failed_allocations_leave_changes :
    (∃ w, allocateBlock (sampleVolume.facing [some ⟨5, 0⟩]) = .error (.os 5) w ∧
      sampleVolume.freeBlocks = 3 ∧ w.freeBlocks = 2) ∧
    ∃ w, VaultEntries.secureEraseBlock nonceVault 9 ⟨otherPayload, otherNonce⟩ filledVolume =
        .ok 3 w ∧
      readable nonceVault filledVolume 9 = some BlockStore.samplePayload ∧
      readable nonceVault w 9 = some otherPayload := by
  -- A failed allocation keeps its block, and the erasure of a free block reports failure
  -- after it has overwritten the payload.
  refine ⟨?_, ?_⟩
  · have sound : Sound 12 sampleVolume.blockBitmap (sampleVolume.facing [some ⟨5, 0⟩]) :=
      (sound_of_opened (.created sampleKey 3 (by decide) absentFile _ createNew_sample)).file _
    have hclear : test (sampleVolume.facing [some ⟨5, 0⟩]).blockBitmap 0 = false :=
      test_replicate_zero _ 0
    refine ⟨(taken sampleVolume 0).facing [], ?_, rfl, rfl⟩
    rw [allocateBlock_eq sound (by decide) hclear (by omega)]
    refine bind_error ?_
    rw [takeBit_eq (sound.free_pos (by decide) hclear)]
    exact bind_error (onFile_seek_stopped (v := taken sampleVolume 0) _ 5)
  · obtain ⟨w, herase, hreads⟩ := erase_of_free live_filledVolume nonceVault_chachaTagged
      nonceVault_chachaInverts filledVolume_inRange filledVolume_free
      ⟨otherPayload, otherNonce⟩ (nonceVault_seals _ _ _)
    exact ⟨w, herase, filledVolume_reads, hreads⟩

end SecureCore.FailedAllocation
