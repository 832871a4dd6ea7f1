import Mathlib.Tactic
import SecureCore.LittleEndian

/-! Flat byte images with positioned reads and writes. A write past the end
fills the gap with zeros, as a sparse file reads, unless it has nothing to write.
Regions are given by offset and length; what the lemmas need of two regions is that
they do not overlap. -/

namespace SecureCore.ByteImage

open LittleEndian (Bytes)

def slice (image : Bytes) (offset count : Nat) : Bytes := (image.drop offset).take count

def splice (image : Bytes) (offset : Nat) (data : Bytes) : Bytes :=
  if data = [] then image
  else
    image.take offset ++ List.replicate (offset - image.length) 0 ++ data ++
      image.drop (offset + data.length)

/-- Cut to `length` bytes, or extended to it with zeros. -/
def resize (image : Bytes) (length : Nat) : Bytes :=
  image.take length ++ List.replicate (length - image.length) 0

variable {image data : Bytes} {offset : Nat}

@[simp] theorem resize_length (image : Bytes) (length : Nat) :
    (resize image length).length = length := by
  simp [resize]
  omega

theorem resize_zero (image : Bytes) : resize image 0 = [] := by simp [resize]

theorem getElem?_slice (image : Bytes) (offset count k : Nat) :
    (slice image offset count)[k]? = if k < count then image[offset + k]? else none := by
  rw [slice, List.getElem?_take]
  split_ifs
  · rw [List.getElem?_drop]
  · rfl

theorem slice_field {before field behind : Bytes} {count : Nat}
    (hoffset : before.length = offset) (hcount : field.length = count) :
    slice (before ++ field ++ behind) offset count = field := by
  rw [slice, List.append_assoc, List.drop_left' hoffset, List.take_left' hcount]

theorem slice_length {count : Nat} (fits : offset + count ≤ image.length) :
    (slice image offset count).length = count := by
  simp [slice]
  omega

theorem padded_length (image : Bytes) (offset : Nat) :
    (image.take offset ++ List.replicate (offset - image.length) 0).length = offset := by
  simp
  omega

@[simp] theorem splice_nil (image : Bytes) (offset : Nat) : splice image offset [] = image :=
  if_pos rfl

theorem splice_of_ne_nil (some : data ≠ []) : splice image offset data =
    image.take offset ++ List.replicate (offset - image.length) 0 ++ data ++
      image.drop (offset + data.length) :=
  if_neg some

theorem splice_of_le (fits : offset ≤ image.length) : splice image offset data =
    image.take offset ++ data ++ image.drop (offset + data.length) := by
  have hgap : offset - image.length = 0 := by omega
  by_cases hdata : data = []
  · simp [hdata]
  · rw [splice_of_ne_nil hdata, hgap, List.replicate_zero, List.append_nil]

theorem splice_length (fits : offset + data.length ≤ image.length) :
    (splice image offset data).length = image.length := by
  rw [splice_of_le (by omega)]
  simp
  omega

theorem getElem?_splice (fits : offset ≤ image.length) (k : Nat) :
    (splice image offset data)[k]? =
      if k < offset then image[k]?
      else if k < offset + data.length then data[k - offset]? else image[k]? := by
  have htake : (image.take offset).length = offset := by simp [fits]
  rw [splice_of_le fits]
  split_ifs with hbefore hinside
  · rw [List.append_assoc, List.getElem?_append_left (by omega), List.getElem?_take, if_pos hbefore]
  · rw [List.append_assoc, List.getElem?_append_right (by omega), htake,
      List.getElem?_append_left (by omega)]
  · rw [List.append_assoc, List.getElem?_append_right (by omega), htake,
      List.getElem?_append_right (by omega), List.getElem?_drop]
    congr 1
    omega

theorem getElem?_splice_outside {k : Nat} (inside : k < image.length)
    (outside : k < offset ∨ offset + data.length ≤ k) :
    (splice image offset data)[k]? = image[k]? := by
  by_cases fits : offset ≤ image.length
  · rw [getElem?_splice fits]
    split_ifs with hbefore hcovered
    · rfl
    · omega
    · rfl
  · by_cases hdata : data = []
    · rw [hdata, splice_nil]
    · rw [splice_of_ne_nil hdata, List.take_of_length_le (by omega), List.append_assoc,
        List.append_assoc, List.getElem?_append_left inside]

theorem slice_eq_slice_iff {image' : Bytes} {start count : Nat} :
    slice image' start count = slice image start count ↔
      ∀ k, start ≤ k → k < start + count → image'[k]? = image[k]? := by
  constructor
  · intro same k low high
    have hbyte := congrArg (fun bytes => bytes[k - start]?) same
    simp only [getElem?_slice] at hbyte
    rwa [if_pos (by omega), if_pos (by omega), Nat.add_sub_cancel' low] at hbyte
  · intro same
    apply List.ext_getElem?
    intro k
    rw [getElem?_slice, getElem?_slice]
    split_ifs with hk
    · exact same (start + k) (Nat.le_add_right _ _) (Nat.add_lt_add_left hk _)
    · rfl

theorem splice_zero (image data : Bytes) :
    splice image 0 data = data ++ image.drop data.length := by
  rw [splice_of_le (Nat.zero_le _), List.take_zero, List.nil_append, Nat.zero_add]

theorem splice_whole (fits : data.length = image.length) : splice image 0 data = data := by
  rw [splice_zero, fits, List.drop_length, List.append_nil]

theorem length_le_splice (image : Bytes) (offset : Nat) (data : Bytes) :
    image.length ≤ (splice image offset data).length := by
  by_cases hdata : data = []
  · rw [hdata, splice_nil]
  · rw [splice_of_ne_nil hdata]
    simp
    omega

theorem le_length_splice (some : data ≠ []) :
    offset + data.length ≤ (splice image offset data).length := by
  rw [splice_of_ne_nil some]
  simp
  omega

theorem slice_splice_self : slice (splice image offset data) offset data.length = data := by
  by_cases hdata : data = []
  · rw [hdata, slice, List.length_nil, List.take_zero]
  · rw [splice_of_ne_nil hdata]
    exact slice_field (padded_length image offset) rfl

theorem slice_splice_front {count : Nat} (fits : offset + count ≤ image.length)
    (short : data.length ≤ count) :
    slice (splice image offset data) offset count =
      data ++ (slice image offset count).drop data.length := by
  apply List.ext_getElem?
  intro k
  rw [getElem?_slice, getElem?_splice (by omega)]
  by_cases hdata : k < data.length
  · rw [if_pos (by omega), if_neg (by omega), if_pos (by omega), Nat.add_sub_cancel_left,
      List.getElem?_append_left hdata]
  · rw [List.getElem?_append_right (by omega), List.getElem?_drop, getElem?_slice]
    have hindex : data.length + (k - data.length) = k := by omega
    rw [hindex]
    split_ifs with hk h1 h2
    · omega
    · omega
    · rfl
    · rfl

theorem slice_splice_of_disjoint {start count : Nat} (fits : offset ≤ image.length)
    (disjoint : start + count ≤ offset ∨ offset + data.length ≤ start) :
    slice (splice image offset data) start count = slice image start count := by
  refine slice_eq_slice_iff.mpr fun k _ _ => ?_
  rw [getElem?_splice fits]
  split_ifs with hbefore hcovered
  · rfl
  · omega
  · rfl

theorem slice_splice_inside {start count : Nat} (inside : start + count ≤ image.length)
    (disjoint : start + count ≤ offset ∨ offset + data.length ≤ start) :
    slice (splice image offset data) start count = slice image start count :=
  slice_eq_slice_iff.mpr fun k _ _ => getElem?_splice_outside (by omega) (by omega)

theorem splice_slice {count : Nat} (fits : offset + count ≤ image.length) :
    splice image offset (slice image offset count) = image := by
  apply List.ext_getElem?
  intro k
  rw [getElem?_splice (by omega), slice_length fits, getElem?_slice]
  split_ifs with hbefore hinside hk
  · rfl
  · rw [Nat.add_sub_cancel' (by omega)]
  · omega
  · rfl

theorem splice_splice_adjacent {more : Bytes} :
    splice (splice image offset data) (offset + data.length) more =
      splice image offset (data ++ more) := by
  by_cases hdata : data = []
  · rw [hdata, splice_nil, List.length_nil, Nat.add_zero, List.nil_append]
  · obtain ⟨front, hfront⟩ : ∃ front,
        image.take offset ++ List.replicate (offset - image.length) 0 = front := ⟨_, rfl⟩
    have hoffset : front.length = offset := by rw [← hfront, padded_length]
    have hlength : (front ++ data).length = offset + data.length := by
      rw [List.length_append, hoffset]
    have hinner : splice image offset data =
        front ++ data ++ image.drop (offset + data.length) := by
      rw [splice_of_ne_nil hdata, hfront]
    rw [splice_of_le (le_length_splice hdata), hinner, List.take_left' hlength, ← hlength,
      List.drop_length_add_append, List.drop_drop, splice_of_ne_nil (by simp [hdata]), hfront,
      List.length_append]
    simp [Nat.add_assoc, hoffset]

end SecureCore.ByteImage
