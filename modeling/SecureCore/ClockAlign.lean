import Mathlib.Data.List.Sort
import SecureCore.CheckedArithmetic
import SecureCore.FallibleState
import SecureCore.RingWindow

/-! `clock_align.rs`: the last sixteen differences of a remote and a local counter,
and their median as the estimated skew. Differences, sums and indices are checked,
as in a build with overflow checks; a panic while the history is locked poisons it.
What `monotonic_nanos` returns is an argument. -/

namespace SecureCore.ClockAlign

open CheckedArithmetic FallibleState RingWindow
open FallibleState (bind_ok bind_error)

def deltaHistorySize : Nat := 16

structure SkewRingBuffer where
  buf : List Int64
  writeIdx : Nat
  /-- The number of valid entries. -/
  count : Nat
  width : buf.length = deltaHistorySize
  writeIdx_lt : writeIdx < deltaHistorySize
  count_le : count ≤ deltaHistorySize

namespace SkewRingBuffer

def new : SkewRingBuffer where
  buf := List.replicate deltaHistorySize 0
  writeIdx := 0
  count := 0
  width := List.length_replicate
  writeIdx_lt := by decide
  count_le := Nat.zero_le _

def push (b : SkewRingBuffer) (delta : Int64) : SkewRingBuffer where
  buf := b.buf.set b.writeIdx delta
  writeIdx := (b.writeIdx + 1) % deltaHistorySize
  count := if b.count < deltaHistorySize then b.count + 1 else b.count
  width := by rw [List.length_set, b.width]
  writeIdx_lt := Nat.mod_lt _ (by decide)
  count_le := by
    have hle := b.count_le
    split_ifs <;> omega

def sortedEntries (b : SkewRingBuffer) : List Int64 :=
  (b.buf.take b.count).insertionSort (· ≤ ·)

def median (b : SkewRingBuffer) : Checked Int64 := do
  if b.count = 0 then pure 0
  else if b.count % 2 = 1 then index b.sortedEntries (b.count / 2)
  else do
    let low ← index b.sortedEntries (b.count / 2 - 1)
    let high ← index b.sortedEntries (b.count / 2)
    let sum ← addSigned low high
    pure (sum / 2)

def pushed (xs : List Int64) : SkewRingBuffer := xs.foldl push new

end SkewRingBuffer

open SkewRingBuffer (pushed)

structure SharedHistory where
  buffer : SkewRingBuffer
  poisoned : Bool

structure Clock where
  estimatedSkew : Int64
  deltaHistory : Option SharedHistory
  lastSampleNs : Option UInt64

abbrev ClockM := EStateM Panic Clock

def started : Clock := ⟨0, none, none⟩

/-- `OnceLock::set` leaves a cell that is set. -/
def initClockAlign : ClockM Unit :=
  modify fun c => { c with
    deltaHistory := c.deltaHistory <|> some ⟨.new, false⟩
    lastSampleNs := c.lastSampleNs <|> some 0 }

/-- `remote_counter as i64 - local_counter as i64`. -/
def counterDelta (remoteCounter localCounter : UInt64) : Checked Int64 :=
  subSigned remoteCounter.toInt64 localCounter.toInt64

/-- The median of the pushed samples is stored; its panic leaves the lock poisoned. -/
def storeMedian (buf : SkewRingBuffer) : ClockM Unit :=
  match buf.median with
  | .ok median => modify fun c =>
      { c with deltaHistory := some ⟨buf, false⟩, estimatedSkew := median }
  | .error panic => do
    modify fun c => { c with deltaHistory := some ⟨buf, true⟩ }
    throw panic

/-- A history that is not there, or poisoned, is passed over. -/
def updateHistory (delta : Int64) : ClockM Unit := do
  match (← get).deltaHistory with
  | some ⟨buf, false⟩ => storeMedian (buf.push delta)
  | _ => pure ()

structure Observation where
  remoteCounter : UInt64
  localCounter : UInt64
  /-- What `monotonic_nanos` returns. -/
  now : UInt64

def recordCounterObservation (o : Observation) : ClockM Unit := do
  let delta ← orFail id (counterDelta o.remoteCounter o.localCounter)
  updateHistory delta
  modify fun c => { c with lastSampleNs := c.lastSampleNs.map fun _ => o.now }

def recordAll : List Observation → ClockM Unit
  | [] => pure ()
  | o :: obs => do
    recordCounterObservation o
    recordAll obs

def estimatedSkew : ClockM Int64 := do pure (← get).estimatedSkew

def estimateAfter (obs : List Observation) : ClockM Int64 := do
  initClockAlign
  recordAll obs
  estimatedSkew

def Observation.difference (o : Observation) : Int :=
  (o.remoteCounter.toNat : Int) - o.localCounter.toNat

/-- No call overflows, every recorded delta is the difference of the counters, and the
estimate lies between two of the last sixteen differences. -/
structure Accurate (obs : List Observation) : Prop where
  deltas : ∀ o ∈ obs, ∃ delta, counterDelta o.remoteCounter o.localCounter = .ok delta ∧
    delta.toInt = o.difference
  estimate : ∃ skew c, estimateAfter obs started = .ok skew c ∧
    (obs ≠ [] → ∃ low ∈ obs.rtake deltaHistorySize, ∃ high ∈ obs.rtake deltaHistorySize,
      low.difference ≤ skew.toInt ∧ skew.toInt ≤ high.difference)

def Observation.SameHalf (o : Observation) : Prop :=
  o.remoteCounter.toNat < 2 ^ 63 ↔ o.localCounter.toNat < 2 ^ 63

instance (o : Observation) : Decidable o.SameHalf := inferInstanceAs (Decidable (_ ↔ _))

def MiddleFits (window : List Int) : Prop :=
  window.length % 2 = 0 → ∀ low high,
    (window.insertionSort (· ≤ ·))[window.length / 2 - 1]? = some low →
    (window.insertionSort (· ≤ ·))[window.length / 2]? = some high → FitsInt64 (low + high)

namespace SkewRingBuffer

variable {xs : List Int64} {b : SkewRingBuffer} {m : Int64}

theorem pushed_concat (xs : List Int64) (delta : Int64) :
    pushed (xs ++ [delta]) = (pushed xs).push delta := by
  rw [pushed, List.foldl_append]
  rfl

theorem push_count (b : SkewRingBuffer) (delta : Int64) :
    (b.push delta).count = if b.count < deltaHistorySize then b.count + 1 else b.count := rfl

theorem trails_pushed (xs : List Int64) :
    Trails deltaHistorySize 0 xs (pushed xs).buf (pushed xs).writeIdx := by
  induction xs using List.reverseRecOn with
  | nil => exact Trails.start deltaHistorySize 0
  | append_singleton xs delta ih =>
    rw [pushed_concat]
    exact ih.push (by decide) delta

theorem count_pushed (xs : List Int64) :
    (pushed xs).count = min xs.length deltaHistorySize := by
  induction xs using List.reverseRecOn with
  | nil => rfl
  | append_singleton xs delta ih =>
    rw [pushed_concat, push_count, ih, List.length_append, List.length_singleton]
    split_ifs <;> omega

theorem sortedEntries_sorted (b : SkewRingBuffer) : b.sortedEntries.Pairwise (· ≤ ·) :=
  List.pairwise_insertionSort _ _

theorem sortedEntries_length (b : SkewRingBuffer) : b.sortedEntries.length = b.count := by
  rw [sortedEntries, List.length_insertionSort, List.length_take, b.width]
  exact Nat.min_eq_left b.count_le

theorem sortedEntries_perm (xs : List Int64) :
    (pushed xs).sortedEntries.Perm (xs.rtake deltaHistorySize) := by
  have hfront := (trails_pushed xs).front_perm
  rw [← count_pushed] at hfront
  exact (List.perm_insertionSort _ _).trans hfront

theorem sortedEntries_congr {ys : List Int64}
    (same : (ys.rtake deltaHistorySize).Perm (xs.rtake deltaHistorySize)) :
    (pushed ys).sortedEntries = (pushed xs).sortedEntries :=
  List.Perm.eq_of_pairwise' (sortedEntries_sorted _) (sortedEntries_sorted _)
    (((sortedEntries_perm ys).trans same).trans (sortedEntries_perm xs).symm)

theorem median_empty (empty : b.count = 0) : b.median = .ok 0 := if_pos empty

theorem median_odd (odd : b.count % 2 = 1) :
    ∃ middle, b.sortedEntries[b.count / 2]? = some middle ∧ b.median = .ok middle := by
  have hmid : b.count / 2 < b.sortedEntries.length := by
    rw [sortedEntries_length]
    omega
  refine ⟨b.sortedEntries.get ⟨b.count / 2, hmid⟩, List.getElem?_eq_getElem hmid, ?_⟩
  rw [median, if_neg (by omega), if_pos odd, index_ok hmid]

theorem median_even (pos : b.count ≠ 0) (even : b.count % 2 = 0) :
    ∃ low high, b.sortedEntries[b.count / 2 - 1]? = some low ∧
      b.sortedEntries[b.count / 2]? = some high ∧ low ≤ high ∧
      b.median = addSigned low high >>= fun sum => pure (sum / 2) := by
  have hlow : b.count / 2 - 1 < b.sortedEntries.length := by
    rw [sortedEntries_length]
    omega
  have hhigh : b.count / 2 < b.sortedEntries.length := by
    rw [sortedEntries_length]
    omega
  refine ⟨_, _, List.getElem?_eq_getElem hlow, List.getElem?_eq_getElem hhigh, ?_, ?_⟩
  · exact List.pairwise_iff_getElem.mp b.sortedEntries_sorted _ _ hlow hhigh (by omega)
  · rw [median, if_neg pos, if_neg (by omega), CheckedArithmetic.bind_ok (index_ok hlow),
      CheckedArithmetic.bind_ok (index_ok hhigh)]
    rfl

theorem toInt_half (sum : Int64) : (sum / 2).toInt = sum.toInt.tdiv 2 :=
  Int64.toInt_div_of_ne_right sum 2 (by decide)

theorem halved_eq_ok_iff {low high : Int64} :
    (addSigned low high >>= fun sum => pure (sum / 2)) = .ok m ↔
      FitsInt64 (low.toInt + high.toInt) ∧ m.toInt = (low.toInt + high.toInt).tdiv 2 := by
  cases hsum : addSigned low high with
  | ok sum =>
    have hexact := signed_eq_ok_iff.mp hsum
    change Except.ok (sum / 2) = Except.ok m ↔ _
    rw [← hexact, ← toInt_half, Except.ok.injEq, Int64.toInt_inj,
      and_iff_right (fitsInt64_toInt sum)]
    exact eq_comm
  | error panic =>
    refine iff_of_false (by rintro ⟨⟩) ?_
    rintro ⟨fits, -⟩
    rw [addSigned, signed, if_pos fits] at hsum
    cases hsum

theorem exists_halved {low high : Int64} (fits : FitsInt64 (low.toInt + high.toInt)) :
    ∃ m, (addSigned low high >>= fun sum => pure (sum / 2)) = .ok m ∧
      m.toInt = (low.toInt + high.toInt).tdiv 2 := by
  have hhalf : (Int64.ofInt (low.toInt + high.toInt) / 2).toInt =
      (low.toInt + high.toInt).tdiv 2 := by
    rw [toInt_half, Int64.toInt_ofInt_of_le fits.1 fits.2]
  exact ⟨_, halved_eq_ok_iff.mpr ⟨fits, hhalf⟩, hhalf⟩

/-- The window, the sorted entries and the median of any sequence of pushes. -/
theorem ring_window_median (xs : List Int64) :
    (pushed xs).writeIdx = xs.length % 16 ∧ (pushed xs).count = min xs.length 16 ∧
    (pushed xs).sortedEntries.Perm (xs.rtake 16) ∧
    (pushed xs).sortedEntries.Pairwise (· ≤ ·) ∧
    (xs = [] → (pushed xs).median = .ok 0) ∧
    (min xs.length 16 % 2 = 1 →
      ∃ middle, (pushed xs).sortedEntries[min xs.length 16 / 2]? = some middle ∧
        (pushed xs).median = .ok middle) ∧
    (xs ≠ [] → min xs.length 16 % 2 = 0 →
      ∃ low high, (pushed xs).sortedEntries[min xs.length 16 / 2 - 1]? = some low ∧
        (pushed xs).sortedEntries[min xs.length 16 / 2]? = some high ∧
        (FitsInt64 (low.toInt + high.toInt) → ∃ m, (pushed xs).median = .ok m ∧
          m.toInt = (low.toInt + high.toInt).tdiv 2)) ∧
    ∀ ys, (ys.rtake 16).Perm (xs.rtake 16) → (pushed ys).median = (pushed xs).median := by
  have hcount : (pushed xs).count = min xs.length 16 := count_pushed xs
  refine ⟨(trails_pushed xs).next_eq, hcount, sortedEntries_perm xs, sortedEntries_sorted _,
    ?_, ?_, ?_, ?_⟩
  · rintro rfl
    rfl
  · rw [← hcount]
    exact median_odd
  · intro nonempty even
    have hpos := List.length_pos_iff.mpr nonempty
    rw [← hcount] at even ⊢
    obtain ⟨low, high, hlow, hhigh, -, hmedian⟩ := median_even (by omega) even
    refine ⟨low, high, hlow, hhigh, fun fits => ?_⟩
    rw [hmedian]
    exact exists_halved fits
  · intro ys same
    have hsorted := sortedEntries_congr same
    have hsize : (pushed ys).count = (pushed xs).count := by
      rw [← sortedEntries_length, hsorted, sortedEntries_length]
    rw [median, median, hsorted, hsize]

theorem map_sortedEntries (xs : List Int64) :
    (pushed xs).sortedEntries.map Int64.toInt =
      ((xs.map Int64.toInt).rtake deltaHistorySize).insertionSort (· ≤ ·) := by
  have hsorted : ((pushed xs).sortedEntries.map Int64.toInt).Pairwise (· ≤ ·) :=
    (sortedEntries_sorted _).map _ fun _ _ h => Int64.le_iff_toInt_le.mp h
  refine List.Perm.eq_of_pairwise' hsorted (List.pairwise_insertionSort _ _) ?_
  rw [map_rtake]
  exact ((sortedEntries_perm xs).map _).trans (List.perm_insertionSort _ _).symm

theorem median_ok_iff (xs : List Int64) :
    (∃ m, (pushed xs).median = .ok m) ↔
      MiddleFits ((xs.map Int64.toInt).rtake deltaHistorySize) := by
  have hsorted := map_sortedEntries xs
  have hlength : ((xs.map Int64.toInt).rtake deltaHistorySize).length = (pushed xs).count := by
    rw [← List.length_insertionSort (· ≤ ·), ← hsorted, List.length_map, sortedEntries_length]
  rw [MiddleFits, hlength, ← hsorted]
  -- Only an even window that is not empty adds; an empty one has no middle elements.
  by_cases empty : (pushed xs).count = 0
  · refine iff_of_true ⟨0, median_empty empty⟩ fun _ low high _ hhigh => ?_
    rw [List.getElem?_eq_none (by rw [List.length_map, sortedEntries_length]; omega)] at hhigh
    cases hhigh
  · by_cases odd : (pushed xs).count % 2 = 1
    · obtain ⟨middle, -, hmedian⟩ := median_odd odd
      exact iff_of_true ⟨middle, hmedian⟩ fun even => by omega
    · have even : (pushed xs).count % 2 = 0 := by omega
      obtain ⟨low, high, hlow, hhigh, -, hmedian⟩ := median_even empty even
      rw [hmedian, List.getElem?_map, List.getElem?_map, hlow, hhigh]
      constructor
      · rintro ⟨m, hm⟩ - _ _ ⟨⟩ ⟨⟩
        exact (halved_eq_ok_iff.mp hm).1
      · intro fits
        obtain ⟨m, hm, -⟩ := exists_halved (fits even _ _ rfl rfl)
        exact ⟨m, hm⟩

theorem tdiv_two_between {low high : Int} (le : low ≤ high) :
    low ≤ (low + high).tdiv 2 ∧ (low + high).tdiv 2 ≤ high := by
  -- Rounding goes toward zero, so down on one side and up on the other.
  rcases Int.le_total 0 (low + high) with nonneg | nonpos
  · rw [Int.tdiv_eq_ediv_of_nonneg nonneg]
    omega
  · have hneg : (low + high).tdiv 2 = -((-(low + high)) / 2) := by
      rw [← Int.tdiv_eq_ediv_of_nonneg (by omega), Int.neg_tdiv, Int.neg_neg]
    omega

theorem median_between (nonempty : xs ≠ []) (median : (pushed xs).median = .ok m) :
    ∃ low ∈ xs.rtake deltaHistorySize, ∃ high ∈ xs.rtake deltaHistorySize,
      low.toInt ≤ m.toInt ∧ m.toInt ≤ high.toInt := by
  have hpos := List.length_pos_iff.mpr nonempty
  have hcount : (pushed xs).count ≠ 0 := by
    rw [count_pushed, deltaHistorySize]
    omega
  have hmem : ∀ {i x}, (pushed xs).sortedEntries[i]? = some x → x ∈ xs.rtake deltaHistorySize :=
    fun h => (sortedEntries_perm xs).mem_iff.mp (List.mem_of_getElem? h)
  by_cases odd : (pushed xs).count % 2 = 1
  · obtain ⟨middle, hmiddle, hmedian⟩ := median_odd odd
    obtain rfl : middle = m := Except.ok.inj (hmedian.symm.trans median)
    exact ⟨middle, hmem hmiddle, middle, hmem hmiddle, le_rfl, le_rfl⟩
  · obtain ⟨low, high, hlow, hhigh, hle, hmedian⟩ := median_even hcount (by omega)
    rw [hmedian, halved_eq_ok_iff] at median
    refine ⟨low, hmem hlow, high, hmem hhigh, ?_⟩
    rw [median.2]
    exact tdiv_two_between (Int64.le_iff_toInt_le.mp hle)

end SkewRingBuffer

section Delta

variable {o : Observation} {obs : List Observation}

theorem toInt_toInt64 (u : UInt64) :
    u.toInt64.toInt = if u.toNat < 2 ^ 63 then (u.toNat : Int) else u.toNat - 2 ^ 64 := by
  rw [← Int64.toInt_toBitVec, UInt64.toBitVec_toInt64, BitVec.toInt_eq_toNat_cond,
    UInt64.toNat_toBitVec]
  split_ifs <;> omega

def Observation.delta (o : Observation) : Int64 := Int64.ofInt o.difference

theorem cast_difference_iff :
    o.remoteCounter.toInt64.toInt - o.localCounter.toInt64.toInt = o.difference ↔
      o.SameHalf := by
  -- Both casts keep their value or both shift it.
  have hremote := o.remoteCounter.toNat_lt
  have hlocal := o.localCounter.toNat_lt
  rw [toInt_toInt64, toInt_toInt64, Observation.difference, Observation.SameHalf]
  split_ifs <;> omega

theorem toInt_delta (half : o.SameHalf) : o.delta.toInt = o.difference := by
  have hremote := o.remoteCounter.toNat_lt
  have hlocal := o.localCounter.toNat_lt
  rw [Observation.SameHalf] at half
  refine Int64.toInt_ofInt_of_le ?_ ?_ <;> rw [Observation.difference] <;> omega

theorem counterDelta_exact (half : o.SameHalf) :
    counterDelta o.remoteCounter o.localCounter = .ok o.delta := by
  rw [counterDelta, subSigned, signed_eq_ok_iff, toInt_delta half, cast_difference_iff.mpr half]

theorem sameHalf_of_exact {delta : Int64}
    (run : counterDelta o.remoteCounter o.localCounter = .ok delta)
    (exact : delta.toInt = o.difference) : o.SameHalf := by
  rw [counterDelta, subSigned, signed_eq_ok_iff, exact] at run
  exact cast_difference_iff.mp run.symm

theorem map_delta (half : ∀ o ∈ obs, o.SameHalf) :
    (obs.map Observation.delta).map Int64.toInt = obs.map Observation.difference := by
  rw [List.map_map]
  exact List.map_congr_left fun o mem => toInt_delta (half o mem)

end Delta

section Run

variable {deltas : List Int64} {c c' : Clock} {o : Observation} {obs : List Observation}

structure Recorded (deltas : List Int64) (c : Clock) : Prop where
  history : c.deltaHistory = some ⟨pushed deltas, false⟩
  median : (pushed deltas).median = .ok c.estimatedSkew

theorem recorded_init : ∃ c, initClockAlign started = .ok () c ∧ Recorded [] c :=
  ⟨_, rfl, rfl, rfl⟩

theorem record_eq_of_delta (recorded : Recorded deltas c) {delta : Int64}
    (run : counterDelta o.remoteCounter o.localCounter = .ok delta) :
    recordCounterObservation o c =
      (storeMedian (pushed (deltas ++ [delta])) >>= fun _ =>
        modify fun c => { c with lastSampleNs := c.lastSampleNs.map fun _ => o.now }) c := by
  obtain ⟨skew, history, last⟩ := c
  obtain ⟨rfl, -⟩ := recorded
  rw [recordCounterObservation, bind_ok (orFail_ok run id _), SkewRingBuffer.pushed_concat]
  rfl

theorem record_eq (recorded : Recorded deltas c) (half : o.SameHalf) :
    recordCounterObservation o c =
      (storeMedian (pushed (deltas ++ [o.delta])) >>= fun _ =>
        modify fun c => { c with lastSampleNs := c.lastSampleNs.map fun _ => o.now }) c :=
  record_eq_of_delta recorded (counterDelta_exact half)

theorem record_ok (recorded : Recorded deltas c) (half : o.SameHalf) {m : Int64}
    (median : (pushed (deltas ++ [o.delta])).median = .ok m) :
    ∃ c', recordCounterObservation o c = .ok () c' ∧ Recorded (deltas ++ [o.delta]) c' := by
  rw [record_eq recorded half, storeMedian, median]
  exact ⟨_, rfl, rfl, median⟩

theorem recorded_of_record (recorded : Recorded deltas c) (half : o.SameHalf)
    (run : recordCounterObservation o c = .ok () c') : Recorded (deltas ++ [o.delta]) c' := by
  rw [record_eq recorded half, storeMedian] at run
  cases hmedian : (pushed (deltas ++ [o.delta])).median with
  | ok m =>
    rw [hmedian] at run
    cases run
    exact ⟨rfl, hmedian⟩
  | error panic =>
    rw [hmedian] at run
    cases run

theorem recordAll_ok (recorded : Recorded deltas c) (half : ∀ o ∈ obs, o.SameHalf)
    (medians : ∀ seen, seen <+: obs →
      ∃ m, (pushed (deltas ++ seen.map Observation.delta)).median = .ok m) :
    ∃ c', recordAll obs c = .ok () c' ∧ Recorded (deltas ++ obs.map Observation.delta) c' := by
  -- Each call moves one observation from `obs` to the end of `deltas`.
  induction obs generalizing deltas c with
  | nil => exact ⟨c, rfl, by rwa [List.map_nil, List.append_nil]⟩
  | cons o obs ih =>
    obtain ⟨m, hmedian⟩ := medians [o] (List.prefix_append [o] obs)
    obtain ⟨c₁, hrun, hrecorded⟩ := record_ok recorded (half o List.mem_cons_self) hmedian
    rw [recordAll, bind_ok hrun, List.map_cons, List.append_cons]
    refine ih hrecorded (fun o' mem => half o' (List.mem_cons_of_mem o mem)) fun seen sub => ?_
    rw [← List.append_cons]
    exact medians (o :: seen) ((List.prefix_cons_inj o).mpr sub)

theorem medians_of_recordAll (recorded : Recorded deltas c) (half : ∀ o ∈ obs, o.SameHalf)
    (run : recordAll obs c = .ok () c') {seen : List Observation} (sub : seen <+: obs) :
    ∃ m, (pushed (deltas ++ seen.map Observation.delta)).median = .ok m := by
  induction obs generalizing deltas c seen with
  | nil =>
    rw [List.prefix_nil.mp sub, List.map_nil, List.append_nil]
    exact ⟨_, recorded.median⟩
  | cons o obs ih =>
    obtain ⟨_, c₁, hrun, hrest⟩ := ok_of_bind run
    rcases List.prefix_cons_iff.mp sub with rfl | ⟨rest, rfl, hsub⟩
    · rw [List.map_nil, List.append_nil]
      exact ⟨_, recorded.median⟩
    · rw [List.map_cons, List.append_cons]
      exact ih (recorded_of_record recorded (half o List.mem_cons_self) hrun)
        (fun o' mem => half o' (List.mem_cons_of_mem o mem)) hrest hsub

theorem medians_iff (half : ∀ o ∈ obs, o.SameHalf) :
    (∀ seen, seen <+: obs →
        ∃ m, (pushed ([] ++ seen.map Observation.delta)).median = .ok m) ↔
      ∀ seen, seen <+: obs →
        MiddleFits ((seen.map Observation.difference).rtake deltaHistorySize) := by
  refine forall₂_congr fun seen sub => ?_
  rw [List.nil_append, SkewRingBuffer.median_ok_iff,
    map_delta fun o mem => half o (sub.subset mem)]

theorem accurate_of_fits (half : ∀ o ∈ obs, o.SameHalf)
    (fits : ∀ seen, seen <+: obs →
      MiddleFits ((seen.map Observation.difference).rtake deltaHistorySize)) :
    Accurate obs := by
  obtain ⟨c, hinit, hstart⟩ := recorded_init
  obtain ⟨c', hrun, hrecorded⟩ := recordAll_ok hstart half ((medians_iff half).mpr fits)
  refine ⟨fun o mem => ⟨o.delta, counterDelta_exact (half o mem), toInt_delta (half o mem)⟩,
    c'.estimatedSkew, c', ?_, fun nonempty => ?_⟩
  · rw [estimateAfter, bind_ok hinit, bind_ok hrun]
    rfl
  · obtain ⟨low, hlow, high, hhigh, hbetween⟩ :=
      SkewRingBuffer.median_between (by simpa using nonempty) hrecorded.median
    rw [List.nil_append, map_rtake] at hlow hhigh
    obtain ⟨first, hfirst, rfl⟩ := List.mem_map.mp hlow
    obtain ⟨second, hsecond, rfl⟩ := List.mem_map.mp hhigh
    rw [toInt_delta (half _ (List.mem_of_mem_drop hfirst)),
      toInt_delta (half _ (List.mem_of_mem_drop hsecond))] at hbetween
    exact ⟨first, hfirst, second, hsecond, hbetween⟩

/-- The estimate is accurate just if no observation has its counters in different
halves of `u64`, and no two middle differences on the way have a sum outside `i64`. -/
theorem skew_accurate_iff (obs : List Observation) :
    Accurate obs ↔ (∀ o ∈ obs, o.SameHalf) ∧ ∀ seen, seen <+: obs →
      MiddleFits ((seen.map Observation.difference).rtake deltaHistorySize) := by
  constructor
  · intro accurate
    have half : ∀ o ∈ obs, o.SameHalf := fun o mem => by
      obtain ⟨delta, hrun, hexact⟩ := accurate.deltas o mem
      exact sameHalf_of_exact hrun hexact
    refine ⟨half, (medians_iff half).mp fun seen sub => ?_⟩
    obtain ⟨c, hinit, hstart⟩ := recorded_init
    obtain ⟨skew, c', hestimate, -⟩ := accurate.estimate
    rw [estimateAfter, bind_ok hinit] at hestimate
    obtain ⟨_, c₁, hrun, -⟩ := ok_of_bind hestimate
    exact medians_of_recordAll hstart half hrun sub
  · rintro ⟨half, fits⟩
    exact accurate_of_fits half fits

theorem skew_estimate_leaves_range :
    (∃ c, estimateAfter [⟨0xFFFFFFFFFFFFFFFF, 0, 0⟩] started = .ok (-1) c) ∧
    (∃ c, estimateAfter [⟨0x8000000000000000, 1, 0⟩] started = .error .subOverflow c) ∧
    (∃ c, estimateAfter [⟨0x7FFFFFFFFFFFFFFF, 0, 0⟩, ⟨0x7FFFFFFFFFFFFFFF, 0, 1⟩] started =
      .error .addOverflow c) ∧
    ¬ Accurate [⟨0xFFFFFFFFFFFFFFFF, 0, 0⟩] ∧ ¬ Accurate [⟨0x8000000000000000, 1, 0⟩] ∧
    ¬ Accurate [⟨0x7FFFFFFFFFFFFFFF, 0, 0⟩, ⟨0x7FFFFFFFFFFFFFFF, 0, 1⟩] := by
  -- A remote counter at the top, read as `-1`; a difference that overflows although it is an
  -- `i64`; and two large differences whose sum overflows.
  have hhalves : ∀ o : Observation, ¬ o.SameHalf → ¬ Accurate [o] := fun o apart accurate => by
    obtain ⟨delta, hrun, hexact⟩ := accurate.deltas o List.mem_cons_self
    exact apart (sameHalf_of_exact hrun hexact)
  have hsum : ∃ c, estimateAfter [⟨0x7FFFFFFFFFFFFFFF, 0, 0⟩, ⟨0x7FFFFFFFFFFFFFFF, 0, 1⟩]
    started = .error .addOverflow c := ⟨_, rfl⟩
  refine ⟨⟨_, rfl⟩, ⟨_, rfl⟩, hsum, hhalves _ (by decide), hhalves _ (by decide), ?_⟩
  intro accurate
  obtain ⟨c, hpanics⟩ := hsum
  obtain ⟨skew, c', hreturns, -⟩ := accurate.estimate
  rw [hpanics] at hreturns
  cases hreturns

theorem accurate_of_small (small : ∀ o ∈ obs,
    o.remoteCounter.toNat < 2 ^ 62 ∧ o.localCounter.toNat < 2 ^ 62) : Accurate obs := by
  refine accurate_of_fits (fun o mem => ?_) fun seen sub => ?_
  · obtain ⟨hremote, hlocal⟩ := small o mem
    rw [Observation.SameHalf]
    omega
  · have hbound : ∀ z ∈ (seen.map Observation.difference).rtake deltaHistorySize,
        -2 ^ 62 < z ∧ z < 2 ^ 62 := by
      intro z mem
      obtain ⟨o, hseen, rfl⟩ := List.mem_map.mp (List.mem_of_mem_drop mem)
      obtain ⟨hremote, hlocal⟩ := small o (sub.subset hseen)
      rw [Observation.difference]
      omega
    intro _ low high hlow hhigh
    obtain ⟨hlow₁, hlow₂⟩ :=
      hbound low ((List.mem_insertionSort _).mp (List.mem_of_getElem? hlow))
    obtain ⟨hhigh₁, hhigh₂⟩ :=
      hbound high ((List.mem_insertionSort _).mp (List.mem_of_getElem? hhigh))
    rw [FitsInt64]
    omega

end Run

section Frozen

variable {deltas : List Int64} {skew : Int64} {c c' : Clock} {o : Observation} {panic : Panic}

def Frozen (skew : Int64) (c : Clock) : Prop :=
  (∃ buf, c.deltaHistory = some ⟨buf, true⟩) ∧ c.estimatedSkew = skew

theorem record_frozen (o : Observation) :
    Preserves (Frozen skew) (recordCounterObservation o) := by
  rintro ⟨estimate, history, last⟩ ⟨⟨buf, rfl⟩, rfl⟩
  rw [recordCounterObservation]
  cases hdelta : counterDelta o.remoteCounter o.localCounter with
  | ok delta => exact ⟨⟨buf, rfl⟩, rfl⟩
  | error panic => exact ⟨⟨buf, rfl⟩, rfl⟩

theorem recordAll_frozen (obs : List Observation) :
    Preserves (Frozen skew) (recordAll obs) := by
  induction obs with
  | nil => exact .pure _
  | cons o obs ih => exact .bind (record_frozen o) fun _ => ih

theorem estimate_frozen (recorded : Recorded deltas c) (half : o.SameHalf)
    (run : recordCounterObservation o c = .error panic c') (obs : List Observation) :
    (finalState (recordAll obs c')).estimatedSkew = c.estimatedSkew := by
  have hfrozen : Frozen c.estimatedSkew c' := by
    rw [record_eq recorded half, storeMedian] at run
    cases hmedian : (pushed (deltas ++ [o.delta])).median with
    | ok m =>
      rw [hmedian] at run
      cases run
    | error panic =>
      rw [hmedian] at run
      cases run
      exact ⟨⟨_, rfl⟩, rfl⟩
  exact (recordAll_frozen obs c' hfrozen).2

end Frozen

end SecureCore.ClockAlign
