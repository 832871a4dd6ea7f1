import SecureCore.ClockAlign
import SecureCore.OrderStatistics

/-! The estimated skew when calls may panic. A call whose counters overflow panics
before it takes the lock and changes nothing. A median that overflows panics under
the lock; from then on no call reaches the history. Observations that outnumber the
others in every window decide the estimate, whatever the others are. -/

namespace SecureCore.ClockAlign

open CheckedArithmetic FallibleState OrderStatistics
open SkewRingBuffer (pushed)

def Observation.recorded (o : Observation) : Option Int64 :=
  (counterDelta o.remoteCounter o.localCounter).toOption

def recordedDeltas (obs : List Observation) : List Int64 := obs.filterMap Observation.recorded

/-- The statics after `init_clock_align` and these calls, each panic ending one call. -/
def observed (obs : List Observation) : Clock :=
  obs.foldl (fun c o => finalState (recordCounterObservation o c))
    (finalState (initClockAlign started))

def deltaWindow (deltas : List Int64) : List Int :=
  (deltas.map Int64.toInt).rtake deltaHistorySize

def AllFit (deltas : List Int64) : Prop :=
  ∀ seen, seen <+: deltas → MiddleFits (deltaWindow seen)

section Calls

variable {deltas good rest : List Int64} {next delta skew : Int64} {c : Clock} {o : Observation}

theorem observed_concat (obs : List Observation) (o : Observation) :
    observed (obs ++ [o]) = finalState (recordCounterObservation o (observed obs)) := by
  rw [observed, List.foldl_append]
  rfl

theorem recordedDeltas_concat (obs : List Observation) (o : Observation) :
    recordedDeltas (obs ++ [o]) = recordedDeltas obs ++ o.recorded.toList := by
  rw [recordedDeltas, List.filterMap_append, recordedDeltas, List.filterMap_cons]
  cases o.recorded <;> rfl

theorem allFit_concat (fit : AllFit deltas) (last : MiddleFits (deltaWindow (deltas ++ [delta]))) :
    AllFit (deltas ++ [delta]) := by
  intro seen sub
  rcases List.prefix_concat_iff.mp sub with rfl | hsub
  · exact last
  · exact fit seen hsub

/-- What the statics hold after calls that recorded these deltas: the median of all of
them, or, once a median has overflowed, the one before it. -/
inductive Follows : List Int64 → Clock → Prop
  | sound {deltas : List Int64} {c : Clock} (fit : AllFit deltas) (recorded : Recorded deltas c) :
      Follows deltas c
  | stuck {good rest : List Int64} {next skew : Int64} {c : Clock} (fit : AllFit good)
      (overflows : ¬ MiddleFits (deltaWindow (good ++ [next])))
      (median : (pushed good).median = .ok skew) (frozen : Frozen skew c) :
      Follows (good ++ next :: rest) c

theorem record_unrecorded (none : o.recorded = none) (c : Clock) :
    finalState (recordCounterObservation o c) = c := by
  rw [Observation.recorded] at none
  cases hdelta : counterDelta o.remoteCounter o.localCounter with
  | ok delta =>
    rw [hdelta] at none
    cases none
  | error panic =>
    rw [recordCounterObservation, hdelta]
    rfl

theorem Follows.record (follows : Follows deltas c) (o : Observation) :
    Follows (deltas ++ o.recorded.toList) (finalState (recordCounterObservation o c)) := by
  cases hrecorded : o.recorded with
  | none =>
    rw [record_unrecorded hrecorded, Option.toList_none, List.append_nil]
    exact follows
  | some delta =>
    rw [Option.toList_some]
    cases follows with
    | stuck fit overflows median frozen =>
      rw [List.append_assoc]
      exact .stuck fit overflows median (record_frozen o _ frozen)
    | sound fit recorded =>
      have hdelta : counterDelta o.remoteCounter o.localCounter = .ok delta := by
        rw [Observation.recorded] at hrecorded
        cases hrun : counterDelta o.remoteCounter o.localCounter with
        | ok d =>
          rw [hrun] at hrecorded
          cases hrecorded
          rfl
        | error panic =>
          rw [hrun] at hrecorded
          cases hrecorded
      have hfits := SkewRingBuffer.median_ok_iff (deltas ++ [delta])
      rw [record_eq_of_delta recorded hdelta, storeMedian]
      cases hmedian : (pushed (deltas ++ [delta])).median with
      | ok m => exact .sound (allFit_concat fit (hfits.mp ⟨m, hmedian⟩)) ⟨rfl, hmedian⟩
      | error panic =>
        refine .stuck fit (fun hfit => ?_) recorded.median ⟨⟨_, rfl⟩, rfl⟩
        obtain ⟨m, hm⟩ := hfits.mpr hfit
        rw [hmedian] at hm
        cases hm

theorem follows_observed (obs : List Observation) :
    Follows (recordedDeltas obs) (observed obs) := by
  induction obs using List.reverseRecOn with
  | nil =>
    refine .sound (fun seen sub => ?_) ⟨rfl, rfl⟩
    obtain rfl := List.prefix_nil.mp sub
    exact (SkewRingBuffer.median_ok_iff []).mp ⟨0, rfl⟩
  | append_singleton obs o ih =>
    rw [observed_concat, recordedDeltas_concat]
    exact ih.record o

end Calls

section Majorities

variable {lo hi : Int} {deltas : List Int64}

theorem middle_within (majority : Majority (fun z => lo ≤ z ∧ z ≤ hi) (deltaWindow deltas))
    {i : Nat} {x : Int64} (rank : (pushed deltas).sortedEntries[i]? = some x)
    (central : 2 * i ≤ (pushed deltas).count ∧ (pushed deltas).count ≤ 2 * i + 2) :
    lo ≤ x.toInt ∧ x.toInt ≤ hi := by
  have hsorted := SkewRingBuffer.map_sortedEntries deltas
  have hperm := List.perm_insertionSort (· ≤ ·) (deltaWindow deltas)
  refine (majority.perm hperm.symm).middle (List.pairwise_insertionSort _ _) (i := i) ?_ ?_
  · rw [deltaWindow, ← hsorted, List.getElem?_map, rank]
    rfl
  · rw [deltaWindow, ← hsorted, List.length_map, SkewRingBuffer.sortedEntries_length]
    exact central

theorem median_within (low : -2 ^ 62 ≤ lo) (high : hi < 2 ^ 62) (nonempty : deltas ≠ [])
    (majority : Majority (fun z => lo ≤ z ∧ z ≤ hi) (deltaWindow deltas)) :
    ∃ m, (pushed deltas).median = .ok m ∧ lo ≤ m.toInt ∧ m.toInt ≤ hi := by
  have hcount : (pushed deltas).count ≠ 0 := by
    have hpos := List.length_pos_iff.mpr nonempty
    rw [SkewRingBuffer.count_pushed, deltaHistorySize]
    omega
  by_cases odd : (pushed deltas).count % 2 = 1
  · obtain ⟨middle, hrank, hmedian⟩ := SkewRingBuffer.median_odd odd
    exact ⟨middle, hmedian, middle_within majority hrank (by omega)⟩
  · obtain ⟨x, y, hx, hy, hle, hmedian⟩ := SkewRingBuffer.median_even hcount (by omega)
    obtain ⟨hlow, -⟩ := middle_within majority hx (by omega)
    obtain ⟨-, hhigh⟩ := middle_within majority hy (by omega)
    have hle : x.toInt ≤ y.toInt := Int64.le_iff_toInt_le.mp hle
    have hfits : FitsInt64 (x.toInt + y.toInt) := by
      rw [FitsInt64]
      omega
    obtain ⟨m, hm, hhalf⟩ := SkewRingBuffer.exists_halved hfits
    obtain ⟨hbelow, habove⟩ := SkewRingBuffer.tdiv_two_between hle
    rw [← hhalf] at hbelow habove
    exact ⟨m, hmedian.trans hm, hlow.trans hbelow, habove.trans hhigh⟩

end Majorities

/-- If more than half of every window lies between `lo` and `hi`, far enough from the ends
of `i64` for two such deltas to be added, the estimate does, and the history stays in
use, whatever counters the other observations carry. -/
theorem skew_within_majority {lo hi : Int} (low : -2 ^ 62 ≤ lo) (high : hi < 2 ^ 62)
    {obs : List Observation} (nonempty : recordedDeltas obs ≠ [])
    (majority : ∀ seen, seen <+: recordedDeltas obs → seen ≠ [] →
      Majority (fun z => lo ≤ z ∧ z ≤ hi) (deltaWindow seen)) :
    (lo ≤ (observed obs).estimatedSkew.toInt ∧ (observed obs).estimatedSkew.toInt ≤ hi) ∧
      ∃ buf, (observed obs).deltaHistory = some ⟨buf, false⟩ := by
  have hmedians : AllFit (recordedDeltas obs) := fun seen sub => by
    rw [deltaWindow, ← SkewRingBuffer.median_ok_iff]
    by_cases empty : seen = []
    · exact ⟨0, by rw [empty]; rfl⟩
    · obtain ⟨m, hm, -⟩ := median_within low high empty (majority seen sub empty)
      exact ⟨m, hm⟩
  obtain ⟨m, hm, hwithin⟩ :=
    median_within low high nonempty (majority _ List.prefix_rfl nonempty)
  have hfollows := follows_observed obs
  generalize observed obs = c at hfollows ⊢
  generalize recordedDeltas obs = deltas at *
  cases hfollows with
  | sound fit recorded =>
    obtain rfl : c.estimatedSkew = m := Except.ok.inj (recorded.median.symm.trans hm)
    exact ⟨hwithin, _, recorded.history⟩
  | @stuck first rest next skew _ fit overflows median frozen =>
    exact absurd (hmedians _ ⟨rest, by simp⟩) overflows

theorem skew_within_majority_outliers :
    3 ≤ (observed [⟨105, 100, 0⟩, ⟨206, 200, 1⟩, ⟨0x7FFFFFFFFFFFFFFF, 0, 2⟩,
      ⟨0x8000000000000000, 1, 3⟩, ⟨304, 300, 4⟩]).estimatedSkew.toInt ∧
    (observed [⟨105, 100, 0⟩, ⟨206, 200, 1⟩, ⟨0x7FFFFFFFFFFFFFFF, 0, 2⟩,
      ⟨0x8000000000000000, 1, 3⟩, ⟨304, 300, 4⟩]).estimatedSkew.toInt ≤ 7 := by
  -- Three observations around 5, one far off, and one whose delta overflows.
  have hdeltas : recordedDeltas [⟨105, 100, 0⟩, ⟨206, 200, 1⟩, ⟨0x7FFFFFFFFFFFFFFF, 0, 2⟩,
      ⟨0x8000000000000000, 1, 3⟩, ⟨304, 300, 4⟩] = [5, 6, 0x7FFFFFFFFFFFFFFF, 4] := by
    decide
  refine (@skew_within_majority 3 7 (by decide) (by decide) _ ?_ ?_).1
  · rw [hdeltas]
    simp
  · rw [hdeltas]
    intro seen sub
    rw [← List.mem_inits] at sub
    revert seen
    decide

end SecureCore.ClockAlign
