import SecureCore.ByteImage

/-! Writes laid side by side. A run of writes without gap or overlap covers every
position of its range once and no other position. -/

namespace SecureCore.WriteRuns

open LittleEndian (Bytes)

structure Write where
  offset : Nat
  data : Bytes
  deriving DecidableEq, Repr

def Write.covers (w : Write) (i : Nat) : Bool :=
  decide (w.offset ≤ i ∧ i < w.offset + w.data.length)

theorem Write.covers_iff {w : Write} {i : Nat} :
    w.covers i = true ↔ w.offset ≤ i ∧ i < w.offset + w.data.length :=
  decide_eq_true_iff

inductive Tiles : Nat → List Write → Nat → Prop where
  | nil (start : Nat) : Tiles start [] start
  | cons {start stop : Nat} {writes : List Write} (data : Bytes)
      (rest : Tiles (start + data.length) writes stop) : Tiles start (⟨start, data⟩ :: writes) stop

namespace Tiles

variable {start stop : Nat} {writes : List Write}

theorem le (h : Tiles start writes stop) : start ≤ stop := by
  induction h with
  | nil start => exact Nat.le_refl start
  | cons data rest ih => exact (Nat.le_add_right _ _).trans ih

theorem countP_covers (h : Tiles start writes stop) (i : Nat) :
    writes.countP (fun w => w.covers i) = if start ≤ i ∧ i < stop then 1 else 0 := by
  induction h with
  | nil start =>
    rw [List.countP_nil, if_neg (by omega)]
  | @cons start stop writes data rest ih =>
    have hle := rest.le
    rw [List.countP_cons, ih]
    by_cases hit : start ≤ i ∧ i < start + data.length
    · rw [if_neg (by omega), if_pos (Write.covers_iff.mpr hit), if_pos (by omega)]
    · rw [if_neg (mt Write.covers_iff.mp hit), Nat.add_zero]
      exact if_congr (by omega) rfl rfl

end Tiles

/-- An image overwritten from its start up to `done`, each position from one of the
streams, and as it was behind that. -/
structure Scrubbed (streams : List (Nat → UInt8)) (original : Bytes) (done : Nat)
    (image : Bytes) : Prop where
  length : image.length = original.length
  bound : done ≤ original.length
  front : ∀ i < done, ∃ stream ∈ streams, image[i]? = some (stream i)
  tail : ∀ i, done ≤ i → image[i]? = original[i]?

namespace Scrubbed

variable {streams more : List (Nat → UInt8)} {original image data : Bytes} {done offset : Nat}

theorem refl (streams : List (Nat → UInt8)) (original : Bytes) :
    Scrubbed streams original 0 original :=
  ⟨rfl, Nat.zero_le _, fun i hi => absurd hi (Nat.not_lt_zero i), fun _ _ => rfl⟩

theorem mono (h : Scrubbed streams original done image) (subset : streams ⊆ more) :
    Scrubbed more original done image := by
  refine ⟨h.length, h.bound, fun i hi => ?_, h.tail⟩
  obtain ⟨stream, hstream, hbyte⟩ := h.front i hi
  exact ⟨stream, subset hstream, hbyte⟩

theorem splice (h : Scrubbed streams original done image) (start : offset ≤ done)
    (fits : offset + data.length ≤ original.length) {stream : Nat → UInt8}
    (mem : stream ∈ streams)
    (agrees : ∀ k < data.length, data[k]? = some (stream (offset + k))) :
    Scrubbed streams original (max done (offset + data.length))
      (ByteImage.splice image offset data) where
  length := by rw [ByteImage.splice_length (by rw [h.length]; exact fits), h.length]
  bound := max_le h.bound fits
  front i hi := by
    have hinside : i < image.length := by
      rw [h.length]
      exact hi.trans_le (max_le h.bound fits)
    by_cases hit : offset ≤ i ∧ i < offset + data.length
    · refine ⟨stream, mem, ?_⟩
      rw [ByteImage.getElem?_splice (by omega), if_neg (by omega), if_pos hit.2,
        agrees _ (by omega), Nat.add_sub_cancel' hit.1]
    · have hbefore : i < done := by omega
      rw [ByteImage.getElem?_splice_outside hinside (by omega)]
      exact h.front i hbefore
  tail i hi := by
    by_cases hinside : i < image.length
    · rw [ByteImage.getElem?_splice_outside hinside (by omega)]
      exact h.tail i (le_of_max_le_left hi)
    · rw [List.getElem?_eq_none, List.getElem?_eq_none]
      · rw [← h.length]
        omega
      · rw [ByteImage.splice_length (by rw [h.length]; exact fits)]
        omega

end Scrubbed

end SecureCore.WriteRuns
