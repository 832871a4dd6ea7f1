import Mathlib.Data.Finset.Card
import Mathlib.Tactic
import SecureCore.LittleEndian

/-! Bit sets packed into bytes: bit `i` is bit `i & 7` of byte `i >> 3`. Reading,
setting and clearing go through the mask `1 << (i & 7)`, as block bitmaps do.
Positions past the last byte read as clear. -/

namespace SecureCore.PackedBits

open LittleEndian (Bytes)

def mask (i : Nat) : UInt8 := 1 <<< UInt8.ofNat (i &&& 7)

def test (bytes : Bytes) (i : Nat) : Bool := bytes.getD (i >>> 3) 0 &&& mask i != 0

def set (bytes : Bytes) (i : Nat) : Bytes :=
  bytes.set (i >>> 3) (bytes.getD (i >>> 3) 0 ||| mask i)

def clear (bytes : Bytes) (i : Nat) : Bytes :=
  bytes.set (i >>> 3) (bytes.getD (i >>> 3) 0 &&& ~~~mask i)

theorem mask_toBitVec (i : Nat) : (mask i).toBitVec = BitVec.twoPow 8 (i % 8) := by
  have hmod : i &&& 7 = i % 8 := Nat.and_two_pow_sub_one_eq_mod i 3
  have hlt : i % 8 < 8 := Nat.mod_lt _ (by decide)
  rw [mask, hmod, UInt8.toBitVec_shiftLeft, BitVec.twoPow_eq]
  simp

theorem and_mask_ne_zero {x : UInt8} {i : Nat} :
    (x &&& mask i != 0) = x.toBitVec.getLsbD (i % 8) := by
  have hlt : i % 8 < 8 := Nat.mod_lt _ (by decide)
  have hzero : x &&& mask i = 0 ↔ x.toBitVec.getLsbD (i % 8) = false := by
    rw [← UInt8.toBitVec_inj, UInt8.toBitVec_and, mask_toBitVec, BitVec.and_twoPow]
    cases hbit : x.toBitVec.getLsbD (i % 8) with
    | false => simp
    | true =>
      have hpow : BitVec.twoPow 8 (i % 8) ≠ 0#8 := by
        intro h
        have hbit := congrArg (fun v => v.getLsbD (i % 8)) h
        simp [hlt] at hbit
      simpa using hpow
  cases hbit : x.toBitVec.getLsbD (i % 8) with
  | false => simpa using hzero.mpr hbit
  | true => simpa [hbit] using hzero

theorem test_eq (bytes : Bytes) (i : Nat) :
    test bytes i = (bytes.getD (i >>> 3) 0).toBitVec.getLsbD (i % 8) :=
  and_mask_ne_zero

@[simp] theorem set_length (bytes : Bytes) (i : Nat) : (set bytes i).length = bytes.length := by
  simp [set]

@[simp] theorem clear_length (bytes : Bytes) (i : Nat) :
    (clear bytes i).length = bytes.length := by
  simp [clear]

theorem same_bit {i j : Nat} (hbyte : j >>> 3 = i >>> 3) : i % 8 = j % 8 ↔ j = i := by
  simp only [Nat.shiftRight_eq_div_pow] at hbyte
  omega

theorem test_write {bytes : Bytes} {i : Nat} (stored : i >>> 3 < bytes.length) (byte : UInt8)
    (j : Nat) : test (bytes.set (i >>> 3) byte) j =
      if j >>> 3 = i >>> 3 then byte.toBitVec.getLsbD (j % 8) else test bytes j := by
  rw [test_eq, test_eq, List.getD_eq_getElem?_getD]
  split_ifs with hbyte
  · rw [hbyte, List.getElem?_set_self stored, Option.getD_some]
  · rw [List.getElem?_set_ne (Ne.symm hbyte), ← List.getD_eq_getElem?_getD]

theorem mask_bit {i j : Nat} (hbyte : j >>> 3 = i >>> 3) :
    (mask i).toBitVec.getLsbD (j % 8) = decide (j = i) := by
  have hlt : ∀ k : Nat, k % 8 < 8 := fun k => Nat.mod_lt k (by decide)
  rw [mask_toBitVec, BitVec.getLsbD_twoPow]
  simp [hlt, same_bit hbyte]

theorem test_set {bytes : Bytes} {i : Nat} (stored : i >>> 3 < bytes.length) (j : Nat) :
    test (set bytes i) j = (decide (j = i) || test bytes j) := by
  rw [set, test_write stored]
  split_ifs with hbyte
  · rw [UInt8.toBitVec_or, BitVec.getLsbD_or, mask_bit hbyte, Bool.or_comm, test_eq, hbyte]
  · have hne : j ≠ i := fun h => hbyte (h ▸ rfl)
    simp [hne]

theorem test_clear {bytes : Bytes} {i : Nat} (stored : i >>> 3 < bytes.length) (j : Nat) :
    test (clear bytes i) j = (!decide (j = i) && test bytes j) := by
  rw [clear, test_write stored]
  split_ifs with hbyte
  · have hlt : j % 8 < 8 := Nat.mod_lt j (by decide)
    rw [UInt8.toBitVec_and, UInt8.toBitVec_not, BitVec.getLsbD_and, BitVec.getLsbD_not,
      mask_bit hbyte, Bool.and_comm, test_eq, hbyte]
    simp [hlt]
  · have hne : j ≠ i := fun h => hbyte (h ▸ rfl)
    simp [hne]

def clearBits (bytes : Bytes) (n : Nat) : Finset Nat :=
  (Finset.range n).filter (fun i => test bytes i = false)

@[simp] theorem mem_clearBits {bytes : Bytes} {n i : Nat} :
    i ∈ clearBits bytes n ↔ i < n ∧ test bytes i = false := by
  simp [clearBits]

theorem clearBits_set {bytes : Bytes} {i : Nat} (stored : i >>> 3 < bytes.length) (n : Nat) :
    clearBits (set bytes i) n = (clearBits bytes n).erase i := by
  ext j
  by_cases hji : j = i
  · simp [test_set stored, hji]
  · simp [test_set stored, hji]

theorem clearBits_clear {bytes : Bytes} {i n : Nat} (stored : i >>> 3 < bytes.length)
    (hi : i < n) : clearBits (clear bytes i) n = insert i (clearBits bytes n) := by
  ext j
  by_cases hji : j = i
  · simp [test_clear stored, hji, hi]
  · simp [test_clear stored, hji]

theorem clearBits_succ (bytes : Bytes) (n : Nat) :
    (clearBits bytes (n + 1)).card =
      (clearBits bytes n).card + if test bytes n = false then 1 else 0 := by
  rw [clearBits, Finset.range_add_one, Finset.filter_insert]
  split_ifs with h
  · rw [Finset.card_insert_of_notMem (by simp)]
    rfl
  · rfl

theorem test_replicate_zero (width i : Nat) : test (List.replicate width 0) i = false := by
  rw [test_eq, List.getD_eq_getElem?_getD, List.getElem?_replicate]
  split <;> simp

theorem card_clearBits_replicate_zero (width n : Nat) :
    (clearBits (List.replicate width 0) n).card = n := by
  have hall : clearBits (List.replicate width 0) n = Finset.range n := by
    ext i
    simp [test_replicate_zero]
  rw [hall, Finset.card_range]

end SecureCore.PackedBits
