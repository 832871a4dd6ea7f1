import SecureCore.CheckedArithmetic
import SecureCore.Primitives

/-! `tail_padding.rs`: between 16 and 512 bytes of noise behind a payload, and
their number in the last two bytes. The one `next_u32` draw and the stream of
`fill_bytes` are arguments. Stripping is given twice: with every index and
subtraction of the source checked, and as the function this amounts to. -/

namespace SecureCore.TailPadding

open LittleEndian
open CheckedArithmetic (Checked)

def minPad : Nat := 16

def maxPad : Nat := 512

/-- The padding length `L` of one `next_u32` draw. -/
def padLength (draw : UInt32) : Nat := draw.toNat % (maxPad - minPad + 1) + minPad

def addTailPadding (payload : Bytes) (draw : UInt32) (noise : Nat → UInt8) : Bytes :=
  payload ++ fillBytes (padLength draw) noise ++ encode 2 (padLength draw)

def stripTailPadding (padded : Bytes) : Option Bytes :=
  if padded.length < 4 then none
  else
    let l := decode (padded.drop (padded.length - 2))
    if l < minPad ∨ l > maxPad then none
    else if padded.length < 2 + l then none
    else some (padded.take (padded.length - 2 - l))

def stripTailPaddingChecked (padded : Bytes) : Checked (Option Bytes) := do
  if padded.length < 4 then pure none
  else do
    let low ← CheckedArithmetic.index padded (← CheckedArithmetic.sub padded.length 2)
    let high ← CheckedArithmetic.index padded (← CheckedArithmetic.sub padded.length 1)
    let l := decode [low, high]
    if l < minPad ∨ l > maxPad then pure none
    else do
      let least ← CheckedArithmetic.add 64 2 l
      if padded.length < least then pure none
      else do
        let payloadEnd ← CheckedArithmetic.sub (← CheckedArithmetic.sub padded.length 2) l
        pure (some (← CheckedArithmetic.range padded 0 payloadEnd))

theorem padLength_bounds (draw : UInt32) :
    minPad ≤ padLength draw ∧ padLength draw ≤ maxPad := by
  simp only [padLength, minPad, maxPad]
  omega

@[simp] theorem addTailPadding_length (payload : Bytes) (draw : UInt32) (noise : Nat → UInt8) :
    (addTailPadding payload draw noise).length = payload.length + padLength draw + 2 := by
  simp [addTailPadding, Nat.add_assoc]

theorem stripTailPadding_eq_some_iff {padded payload : Bytes} :
    stripTailPadding padded = some payload ↔
      ∃ tail : Bytes, minPad ≤ tail.length ∧ tail.length ≤ maxPad ∧
        padded = payload ++ (tail ++ encode 2 tail.length) := by
  constructor
  · intro h
    simp only [stripTailPadding, Option.ite_none_left_eq_some, Option.some.injEq, not_or, not_lt]
      at h
    obtain ⟨long, ⟨low, high⟩, room, rfl⟩ := h
    -- the trailer is read as `l`, and `k` bytes stand before the padding
    generalize hl : decode (padded.drop (padded.length - 2)) = l at low high room ⊢
    obtain ⟨k, hk⟩ : ∃ k, padded.length - 2 = k + l := ⟨padded.length - 2 - l, by omega⟩
    have trailer : padded.drop (k + l) = encode 2 l := by
      have whole := encode_decode (padded.drop (padded.length - 2))
      have width : (padded.drop (padded.length - 2)).length = 2 := by
        rw [List.length_drop]
        omega
      rw [hl, width, hk] at whole
      exact whole.symm
    have width : ((padded.drop k).take l).length = l := by
      rw [List.length_take, List.length_drop]
      omega
    refine ⟨(padded.drop k).take l, ?_, ?_, ?_⟩
    · rwa [width]
    · rwa [width]
    · rw [width, ← trailer, hk, Nat.add_sub_cancel, ← List.drop_drop, List.take_append_drop,
        List.take_append_drop]
  · rintro ⟨tail, low, high, rfl⟩
    have total : (payload ++ (tail ++ encode 2 tail.length)).length =
        payload.length + tail.length + 2 := by
      simp [Nat.add_assoc]
    have trailer : (payload ++ (tail ++ encode 2 tail.length)).drop
        (payload.length + tail.length + 2 - 2) = encode 2 tail.length := by
      rw [← List.append_assoc, Nat.add_sub_cancel]
      exact List.drop_left' (by simp)
    have fits : tail.length < 256 ^ 2 := by
      simp only [maxPad] at high
      omega
    simp only [stripTailPadding, total, trailer, decode_encode fits]
    have front : payload.length + tail.length + 2 - 2 - tail.length = payload.length := by omega
    rw [if_neg (by simp only [minPad] at low; omega), if_neg (by omega), if_neg (by omega), front,
      List.take_left' rfl]

theorem strip_addTailPadding (payload : Bytes) (draw : UInt32) (noise : Nat → UInt8) :
    stripTailPadding (addTailPadding payload draw noise) = some payload := by
  obtain ⟨low, high⟩ := padLength_bounds draw
  apply stripTailPadding_eq_some_iff.mpr
  exact ⟨fillBytes (padLength draw) noise, by simpa using low, by simpa using high,
    by simp [addTailPadding]⟩

theorem drop_two {padded : Bytes} (long : 2 ≤ padded.length) :
    padded.drop (padded.length - 2) =
      [padded.get ⟨padded.length - 2, by omega⟩, padded.get ⟨padded.length - 1, by omega⟩] := by
  have hnext : padded.length - 2 + 1 = padded.length - 1 := by omega
  have hend : padded.length - 1 + 1 = padded.length := by omega
  rw [List.drop_eq_getElem_cons (by omega), hnext, List.drop_eq_getElem_cons (by omega), hend,
    List.drop_length]
  rfl

theorem stripTailPaddingChecked_eq (padded : Bytes) :
    stripTailPaddingChecked padded = .ok (stripTailPadding padded) := by
  by_cases short : padded.length < 4
  · rw [stripTailPaddingChecked, stripTailPadding, if_pos short, if_pos short]
    rfl
  rw [stripTailPaddingChecked, stripTailPadding, if_neg short, if_neg short,
    drop_two (by omega), CheckedArithmetic.bind_ok (CheckedArithmetic.sub_ok (by omega)),
    CheckedArithmetic.bind_ok (CheckedArithmetic.index_ok (by omega)),
    CheckedArithmetic.bind_ok (CheckedArithmetic.sub_ok (by omega)),
    CheckedArithmetic.bind_ok (CheckedArithmetic.index_ok (by omega))]
  generalize decode [_, _] = l
  dsimp only
  by_cases outside : l < minPad ∨ l > maxPad
  · rw [if_pos outside, if_pos outside]
    rfl
  have hmax : l ≤ 512 := by
    simp only [maxPad] at outside
    omega
  rw [if_neg outside, if_neg outside,
    CheckedArithmetic.bind_ok (CheckedArithmetic.add_ok (by omega))]
  by_cases room : padded.length < 2 + l
  · rw [if_pos room, if_pos room]
    rfl
  rw [if_neg room, if_neg room, CheckedArithmetic.bind_ok (CheckedArithmetic.sub_ok (by omega)),
    CheckedArithmetic.bind_ok (CheckedArithmetic.sub_ok (by omega)),
    CheckedArithmetic.bind_ok (CheckedArithmetic.range_ok (by omega) (by omega))]
  rfl

/-- Stripping panics on no input and accepts exactly a payload, between 16 and 512
bytes of noise and their number; so it undoes every padding. -/
theorem strip_accepts_padding_format (x : Bytes) :
    stripTailPaddingChecked x = .ok (stripTailPadding x) ∧
    (∀ p : Bytes, stripTailPadding x = some p ↔
      ∃ noise : Bytes, 16 ≤ noise.length ∧ noise.length ≤ 512 ∧
        x = p ++ noise ++ encode 2 noise.length) ∧
    ∀ (payload : Bytes) (draw : UInt32) (noise : Nat → UInt8),
      stripTailPadding (addTailPadding payload draw noise) = some payload ∧
      16 ≤ padLength draw ∧ padLength draw ≤ 512 ∧
      (addTailPadding payload draw noise).length = payload.length + padLength draw + 2 := by
  refine ⟨stripTailPaddingChecked_eq x, fun p => ?_, fun payload draw noise => ?_⟩
  · rw [stripTailPadding_eq_some_iff]
    simp only [List.append_assoc]
    exact Iff.rfl
  · obtain ⟨low, high⟩ := padLength_bounds draw
    exact ⟨strip_addTailPadding payload draw noise, low, high,
      addTailPadding_length payload draw noise⟩

end SecureCore.TailPadding
