import SecureCore.IndexPool
import SecureCore.VolumeImage

/-! The block allocator implements a pool of free indices. With working system
calls, `allocate_block`, `reserve_block` and `free_block` answer as the pool
does from any state a volume can get into, including states that failing calls
left behind. -/

namespace SecureCore.AllocatorRefinement

open VirtualVolume FaultyFile FallibleState PackedBits
open IndexPool (Request Answer HandsOut granted)

def freeIndices (v : Volume) : Finset Nat :=
  (Finset.Ico dataStartBlock v.totalBlocks).filter
    (fun b => test v.blockBitmap (b - dataStartBlock) = false)

def dataBlocks (v : Volume) : Finset Nat := Finset.Ico dataStartBlock v.totalBlocks

def toOp : Request Nat → VolumeOp
  | .take => .allocateBlock
  | .claim blockIdx => .reserveBlock blockIdx
  | .give blockIdx => .freeBlock blockIdx

def toAnswer : Except Failure VolumeReply → Answer Nat
  | .ok (.block blockIdx) => .index blockIdx
  | .ok _ => .done
  | .error _ => .refused

def trace (V : VaultPrimitives) : Volume → List (Request Nat) → List (Request Nat × Answer Nat)
  | _, [] => []
  | v, r :: rs =>
    (r, toAnswer ((toOp r).exec V v).1) :: trace V ((toOp r).exec V v).2 rs

@[simp] theorem mem_freeIndices {v : Volume} {b : Nat} :
    b ∈ freeIndices v ↔ (dataStartBlock ≤ b ∧ b < v.totalBlocks) ∧
      test v.blockBitmap (b - dataStartBlock) = false := by
  simp [freeIndices]

@[simp] theorem mem_dataBlocks {v : Volume} {b : Nat} :
    b ∈ dataBlocks v ↔ v.inRange b := by
  simp [dataBlocks, Volume.inRange]

theorem freeIndices_fresh {V : VaultPrimitives} {masterKey : Bytes} {n : Nat} {f : File} :
    freeIndices (freshVolume V masterKey n f) =
      Finset.Ico dataStartBlock (dataStartBlock + n) := by
  ext b
  have hclear : test (freshVolume V masterKey n f).blockBitmap (b - dataStartBlock) = false :=
    test_replicate_zero _ _
  rw [mem_freeIndices, Finset.mem_Ico, hclear]
  simp [freshVolume]

section Step

variable {V : VaultPrimitives} {T : Nat} {B : Bytes} {v : Volume} {i : Nat}

theorem freeIndices_set (h : Sound T B v) (hi : i < T - dataStartBlock) (free : Nat) :
    freeIndices (v.mapped (PackedBits.set v.blockBitmap i) free) =
      (freeIndices v).erase (dataStartBlock + i) := by
  ext b
  rw [mem_freeIndices, Finset.mem_erase, mem_freeIndices]
  simp only [Volume.mapped_totalBlocks, Volume.mapped_blockBitmap, test_set (h.stored hi)]
  by_cases hb : b = dataStartBlock + i
  · simp [hb]
  · by_cases hle : dataStartBlock ≤ b
    · have hne : b - dataStartBlock ≠ i := by omega
      simp [hb, hne]
    · simp [hle]

theorem freeIndices_clear (h : Sound T B v) (hi : i < T - dataStartBlock) (free : Nat) :
    freeIndices (v.mapped (PackedBits.clear v.blockBitmap i) free) =
      insert (dataStartBlock + i) (freeIndices v) := by
  ext b
  have hblocks := h.blocks
  rw [mem_freeIndices, Finset.mem_insert, mem_freeIndices]
  simp only [Volume.mapped_totalBlocks, Volume.mapped_blockBitmap, test_clear (h.stored hi)]
  by_cases hb : b = dataStartBlock + i
  · simp [hb]
    omega
  · by_cases hle : dataStartBlock ≤ b
    · have hne : b - dataStartBlock ≠ i := by omega
      simp [hb, hne]
    · simp [hle, hb]

theorem freeIndices_nonempty (h : Sound T B v) : (freeIndices v).Nonempty ↔ v.freeBlocks ≠ 0 := by
  have hblocks := h.blocks
  constructor
  · rintro ⟨b, hb⟩
    obtain ⟨⟨hlower, hupper⟩, hclear⟩ := mem_freeIndices.mp hb
    have hpos := h.free_pos (by omega) hclear
    omega
  · intro hfree
    obtain ⟨i, hi, hclear, -⟩ := h.first_clear hfree
    refine ⟨dataStartBlock + i, mem_freeIndices.mpr ⟨⟨by omega, by omega⟩, ?_⟩⟩
    rwa [Nat.add_sub_cancel_left]

theorem min_freeIndices (h : Sound T B v) (hne : (freeIndices v).Nonempty) :
    ∃ i < T - dataStartBlock, (freeIndices v).min' hne = dataStartBlock + i ∧
      test v.blockBitmap i = false ∧ ∀ j < i, test v.blockBitmap j = true := by
  have hblocks := h.blocks
  obtain ⟨i, hi, hclear, hset⟩ := h.first_clear ((freeIndices_nonempty h).mp hne)
  have hmem : dataStartBlock + i ∈ freeIndices v := by
    rw [mem_freeIndices, Nat.add_sub_cancel_left]
    exact ⟨⟨by omega, by omega⟩, hclear⟩
  refine ⟨i, hi, le_antisymm (Finset.min'_le _ _ hmem) ?_, hclear, hset⟩
  refine Finset.le_min' _ _ _ fun b hb => ?_
  obtain ⟨⟨hlower, -⟩, hbit⟩ := mem_freeIndices.mp hb
  by_contra hlt
  rw [hset (b - dataStartBlock) (by omega)] at hbit
  cases hbit

/-- What one request does: the pool's answer, the pool's next state, and no
obstacle to the next request. -/
structure Refines (v : Volume) (r : Request Nat) (result : Except Failure VolumeReply × Volume) :
    Prop where
  answer : toAnswer result.1 = (IndexPool.step (dataBlocks v) (freeIndices v) r).1
  next : freeIndices result.2 = (IndexPool.step (dataBlocks v) (freeIndices v) r).2
  ready : Ready result.2.file

theorem refines_refused {r : Request Nat} {failure : Failure} (ready : Ready v.file)
    (refused : IndexPool.step (dataBlocks v) (freeIndices v) r = (.refused, freeIndices v)) :
    Refines v r (.error failure, v) := by
  constructor <;> simp only [refused, toAnswer, ready]

theorem take_refines (h : Sound T B v) (ready : Ready v.file) :
    Refines v .take ((toOp .take).exec V v) := by
  by_cases hne : (freeIndices v).Nonempty
  · obtain ⟨i, hi, hmin, hclear, hset⟩ := min_freeIndices h hne
    rw [VolumeOp.exec_of_ok rfl (allocateBlock_ready h ready hi hclear hset)]
    refine ⟨?_, ?_, ready_mapped ready _ _⟩
    · simp [toAnswer, IndexPool.step, hne, hmin]
    · simp [freeIndices_set h hi, IndexPool.step, hne, hmin]
  · have hfull : v.freeBlocks = 0 := by
      by_contra hfree
      exact hne ((freeIndices_nonempty h).mpr hfree)
    rw [VolumeOp.exec_of_error rfl (allocateBlock_full hfull)]
    exact refines_refused ready (by simp [IndexPool.step, hne])

theorem claim_refines (h : Sound T B v) (ready : Ready v.file) (b : Nat) :
    Refines v (.claim b) ((toOp (.claim b)).exec V v) := by
  by_cases range : v.inRange b
  · have hi := h.bit_of_inRange range
    have hb : dataStartBlock + (b - dataStartBlock) = b := Nat.add_sub_cancel' range.1
    rw [VolumeOp.exec_of_ok rfl (reserveBlock_ready ready range (h.stored hi) (h.free_pos hi))]
    cases hbit : test v.blockBitmap (b - dataStartBlock) with
    | true =>
      have hout : b ∉ freeIndices v := by simp [hbit]
      refine ⟨by simp [toAnswer, IndexPool.step, range], ?_, ready⟩
      simp [IndexPool.step, range, Finset.erase_eq_of_notMem hout]
    | false =>
      refine ⟨by simp [toAnswer, IndexPool.step, range], ?_, ready_mapped ready _ _⟩
      simp [freeIndices_set h hi, IndexPool.step, range, hb]
  · rw [VolumeOp.exec_of_error rfl (reserveBlock_outside range)]
    exact refines_refused ready (by simp [IndexPool.step, range])

theorem give_refines (h : Sound T B v) (ready : Ready v.file) (b : Nat) :
    Refines v (.give b) ((toOp (.give b)).exec V v) := by
  by_cases range : v.inRange b
  · have hi := h.bit_of_inRange range
    have hb : dataStartBlock + (b - dataStartBlock) = b := Nat.add_sub_cancel' range.1
    cases hbit : test v.blockBitmap (b - dataStartBlock) with
    | false =>
      have hin : b ∈ freeIndices v := mem_freeIndices.mpr ⟨range, hbit⟩
      rw [VolumeOp.exec_of_error rfl (freeBlock_already_free range (h.stored hi) hbit)]
      exact refines_refused ready
        (by simp only [IndexPool.step, hin, not_true, and_false, if_false])
    | true =>
      have hout : b ∉ freeIndices v := by simp [hbit]
      have hvalid : b ∈ dataBlocks v := mem_dataBlocks.mpr range
      rw [VolumeOp.exec_of_ok rfl (freeBlock_ready ready range (h.stored hi) hbit)]
      refine ⟨?_, ?_, ready_mapped ready _ _⟩
      · simp only [toAnswer, IndexPool.step, hvalid, hout, not_false_iff, and_self, if_true]
      · simp only [freeIndices_clear h hi, IndexPool.step, hvalid, hout, not_false_iff,
          and_self, if_true, hb]
  · rw [VolumeOp.exec_of_error rfl (freeBlock_outside range)]
    exact refines_refused ready (by simp [IndexPool.step, range])

theorem exec_refines (h : Sound T B v) (ready : Ready v.file) (r : Request Nat) :
    Refines v r ((toOp r).exec V v) := by
  cases r with
  | take => exact take_refines h ready
  | claim b => exact claim_refines h ready b
  | give b => exact give_refines h ready b

end Step

section Run

variable {V : VaultPrimitives} {T : Nat} {B : Bytes} {v : Volume}

theorem dataBlocks_exec (h : Sound T B v) (op : VolumeOp) :
    dataBlocks (op.exec V v).2 = dataBlocks v := by
  rw [dataBlocks, dataBlocks, (exec_sound V op h).1.blocks, h.blocks]

theorem run_refines (h : Sound T B v) (ready : Ready v.file) (rs : List (Request Nat)) :
    trace V v rs = IndexPool.trace (dataBlocks v) (freeIndices v) rs ∧
    freeIndices (v.after V (rs.map toOp)) = IndexPool.after (dataBlocks v) (freeIndices v) rs ∧
    dataBlocks (v.after V (rs.map toOp)) = dataBlocks v ∧
    Ready (v.after V (rs.map toOp)).file := by
  induction rs generalizing v with
  | nil => exact ⟨rfl, rfl, rfl, ready⟩
  | cons r rs ih =>
    have hstep := exec_refines (V := V) h ready r
    have hblocks := dataBlocks_exec (V := V) h (toOp r)
    obtain ⟨htrace, hafter, hvalid, hready⟩ := ih (exec_sound V (toOp r) h).1 hstep.ready
    rw [hblocks, hstep.next] at htrace hafter
    refine ⟨?_, hafter, hvalid.trans hblocks, hready⟩
    rw [trace, IndexPool.trace, htrace, hstep.answer]

end Run

/-- In every state a volume can reach, with working system calls from there on,
allocating, reserving and freeing is what the pool of free indices does. So no
index is allocated again before it was freed, and on a full volume as many
allocations succeed as blocks were freed. -/
theorem allocator_refines_pool {V : VaultPrimitives} {v₀ v : Volume} (opened : Opened V v₀)
    (ops : List VolumeOp) (reached : v = v₀.after V ops) (ready : Ready v.file) :
    (∀ rs, trace V v rs = IndexPool.trace (dataBlocks v) (freeIndices v) rs ∧
      freeIndices (v.after V (rs.map toOp)) =
        IndexPool.after (dataBlocks v) (freeIndices v) rs) ∧
    (∀ rs i entry xs ys zs, trace V v rs = xs ++ entry :: (ys ++ (.take, .index i) :: zs) →
      HandsOut i entry → (.give i, .done) ∈ ys) ∧
    (freeIndices v = ∅ → ∀ (freed : List Nat) (attempts : Nat),
      granted (trace V (v.after V (freed.map (fun i => toOp (.give i))))
          (List.replicate attempts .take)) =
        min attempts (granted (trace V v (freed.map .give)))) := by
  have hsound : Sound v₀.totalBlocks v₀.blockBitmap v := by
    rw [reached]
    exact (sound_after (sound_of_opened opened) ops).1
  refine ⟨fun rs => ⟨(run_refines hsound ready rs).1, (run_refines hsound ready rs).2.1⟩,
    fun rs i entry xs ys zs split hands => ?_, fun full freed attempts => ?_⟩
  · rw [(run_refines hsound ready rs).1] at split
    exact IndexPool.given_between rs split hands
  · obtain ⟨htrace, hafter, hvalid, hready⟩ :=
      run_refines (V := V) hsound ready (freed.map .give)
    rw [List.map_map] at hafter hvalid hready
    have hsound' := (sound_after (V := V) hsound (freed.map (toOp ∘ .give))).1
    rw [← Function.comp_def toOp, (run_refines hsound' hready _).1, IndexPool.granted_takes,
      hafter, IndexPool.card_after_gives, full, htrace, full, Finset.card_empty, Nat.zero_add]

theorem allocator_refines_pool_sample :
    (Opened symbolicVault sampleVolume ∧ Ready sampleVolume.file) ∧
      trace symbolicVault sampleVolume [.take, .claim 10, .take, .take, .give 10, .take] =
        [(.take, .index 9), (.claim 10, .done), (.take, .index 11), (.take, .refused),
          (.give 10, .done), (.take, .index 10)] := by
  have h : Opened symbolicVault sampleVolume :=
    .created sampleKey 3 (by decide) absentFile _ createNew_sample
  have ready : Ready sampleVolume.file := ⟨rfl, rfl⟩
  have hfree : freeIndices sampleVolume = {9, 10, 11} := freeIndices_fresh
  have hreached : sampleVolume = sampleVolume.after symbolicVault [] := rfl
  refine ⟨⟨h, ready⟩, ((allocator_refines_pool h [] hreached ready).1 _).1.trans ?_⟩
  rw [hfree]
  decide

end SecureCore.AllocatorRefinement
