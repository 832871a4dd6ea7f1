import Mathlib.Data.Finset.Max
import Mathlib.Data.Finset.Card
import Mathlib.Tactic

/-! An abstract pool of free indices that hands out the least one first. Indices
outside `valid` can be neither claimed nor given back. Runs are lists of requests
with their answers; two facts about them are what an implementation inherits: an
index is handed out again only after it was given back, and a pool yields exactly
as many indices as it holds. -/

namespace SecureCore.IndexPool

variable {ι : Type} [LinearOrder ι]

inductive Request (ι : Type) where
  | take
  | claim (i : ι)
  | give (i : ι)
  deriving DecidableEq

inductive Answer (ι : Type) where
  | index (i : ι)
  | done
  | refused
  deriving DecidableEq

def step (valid free : Finset ι) : Request ι → Answer ι × Finset ι
  | .take =>
    if h : free.Nonempty then (.index (free.min' h), free.erase (free.min' h))
    else (.refused, free)
  | .claim i => if i ∈ valid then (.done, free.erase i) else (.refused, free)
  | .give i => if i ∈ valid ∧ i ∉ free then (.done, insert i free) else (.refused, free)

def trace (valid : Finset ι) : Finset ι → List (Request ι) → List (Request ι × Answer ι)
  | _, [] => []
  | free, r :: rs => (r, (step valid free r).1) :: trace valid (step valid free r).2 rs

def after (valid free : Finset ι) (rs : List (Request ι)) : Finset ι :=
  rs.foldl (fun free r => (step valid free r).2) free

def HandsOut (i : ι) (entry : Request ι × Answer ι) : Prop :=
  entry = (.take, .index i) ∨ entry = (.claim i, .done)

variable {valid free : Finset ι} {i : ι}

theorem not_mem_of_handsOut {r : Request ι} (h : HandsOut i (r, (step valid free r).1)) :
    i ∉ (step valid free r).2 := by
  rcases h with h | h
  · obtain ⟨rfl, h⟩ := Prod.mk.inj h
    simp only [step] at h ⊢
    split_ifs at h ⊢ with hne
    rw [Answer.index.inj h]
    simp
  · obtain ⟨rfl, h⟩ := Prod.mk.inj h
    simp only [step] at h ⊢
    split_ifs at h ⊢
    simp

theorem not_mem_step {r : Request ι} (hi : i ∉ free)
    (kept : (r, (step valid free r).1) ≠ (.give i, .done)) : i ∉ (step valid free r).2 := by
  cases r with
  | take =>
    simp only [step]
    split_ifs
    · exact fun h => hi (Finset.mem_of_mem_erase h)
    · exact hi
  | claim j =>
    simp only [step]
    split_ifs
    · exact fun h => hi (Finset.mem_of_mem_erase h)
    · exact hi
  | give j =>
    simp only [step] at kept ⊢
    split_ifs at kept ⊢ with h
    · have hne : j ≠ i := by
        rintro rfl
        exact kept rfl
      simp [hne.symm, hi]
    · exact hi

theorem not_taken_of_not_given (rs : List (Request ι)) (hi : i ∉ free)
    {xs zs : List (Request ι × Answer ι)}
    (split : trace valid free rs = xs ++ (.take, .index i) :: zs) : (.give i, .done) ∈ xs := by
  induction rs generalizing free xs with
  | nil => simp [trace] at split
  | cons r rs ih =>
    rw [trace] at split
    by_cases hgive : (r, (step valid free r).1) = (.give i, .done)
    · cases xs with
      | nil =>
        obtain ⟨hhead, -⟩ := List.cons.inj split
        rw [hhead] at hgive
        cases hgive
      | cons x xs =>
        obtain ⟨rfl, -⟩ := List.cons.inj split
        rw [hgive]
        exact List.mem_cons_self
    · cases xs with
      | nil =>
        obtain ⟨hhead, -⟩ := List.cons.inj split
        obtain ⟨rfl, hindex⟩ := Prod.mk.inj hhead
        simp only [step] at hindex
        split_ifs at hindex with hne
        rw [← Answer.index.inj hindex] at hi
        exact absurd (Finset.min'_mem free hne) hi
      | cons x xs =>
        obtain ⟨-, htail⟩ := List.cons.inj split
        exact List.mem_cons_of_mem _ (ih (not_mem_step hi hgive) htail)

theorem given_between (rs : List (Request ι)) {entry : Request ι × Answer ι}
    {xs ys zs : List (Request ι × Answer ι)}
    (split : trace valid free rs = xs ++ entry :: (ys ++ (.take, .index i) :: zs))
    (hands : HandsOut i entry) : (.give i, .done) ∈ ys := by
  induction rs generalizing free xs with
  | nil => simp [trace] at split
  | cons r rs ih =>
    rw [trace] at split
    cases xs with
    | nil =>
      obtain ⟨rfl, htail⟩ := List.cons.inj split
      exact not_taken_of_not_given rs (not_mem_of_handsOut hands) htail
    | cons x xs =>
      obtain ⟨-, htail⟩ := List.cons.inj split
      exact ih htail

def granted (entries : List (Request ι × Answer ι)) : Nat :=
  entries.countP (fun entry => entry.2 ≠ .refused)

theorem card_after_gives (is : List ι) :
    (after valid free (is.map .give)).card =
      free.card + granted (trace valid free (is.map .give)) := by
  induction is generalizing free with
  | nil => simp [after, trace, granted]
  | cons j is ih =>
    have hrest := @ih (step valid free (.give j)).2
    simp only [after, List.map_cons, List.foldl_cons, trace, granted, List.countP_cons]
      at hrest ⊢
    rw [hrest]
    by_cases h : j ∈ valid ∧ j ∉ free
    · simp [step, h]
      omega
    · simp [step, h]

theorem granted_takes (n : Nat) :
    granted (trace valid free (List.replicate n .take)) = min n free.card := by
  induction n generalizing free with
  | zero => simp [trace, granted]
  | succ n ih =>
    have hrest := @ih (step valid free .take).2
    simp only [List.replicate_succ, trace, granted, List.countP_cons] at hrest ⊢
    rw [hrest]
    by_cases h : free.Nonempty
    · have hpos := Finset.card_pos.mpr h
      simp [step, h, Finset.card_erase_of_mem (Finset.min'_mem free h)]
      omega
    · rw [Finset.not_nonempty_iff_eq_empty] at h
      simp [step, h]

end SecureCore.IndexPool
