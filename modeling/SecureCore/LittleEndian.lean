import Mathlib.Tactic

/-! Little-endian byte strings of a fixed width, as `to_le_bytes` and
`from_le_bytes` lay out unsigned integers. Bits above the width are dropped by
`encode`, so a round trip needs the number to fit. -/

namespace SecureCore.LittleEndian

abbrev Bytes := List UInt8

def encode : (width : Nat) → Nat → Bytes
  | 0, _ => []
  | width + 1, n => UInt8.ofNat n :: encode width (n / 256)

def decode (bytes : Bytes) : Nat :=
  bytes.foldr (fun b high => b.toNat + 256 * high) 0

@[simp] theorem encode_length (width n : Nat) : (encode width n).length = width := by
  induction width generalizing n with
  | zero => rfl
  | succ width ih => rw [encode, List.length_cons, ih]

theorem decode_encode {width n : Nat} (fits : n < 256 ^ width) :
    decode (encode width n) = n := by
  induction width generalizing n with
  | zero =>
    have hn : n = 0 := by simpa using fits
    rw [hn]
    rfl
  | succ width ih =>
    have high : n / 256 < 256 ^ width := by
      rw [Nat.div_lt_iff_lt_mul (by norm_num), ← pow_succ]
      exact fits
    have tail : decode (encode width (n / 256)) = n / 256 := ih high
    change (UInt8.ofNat n).toNat + 256 * decode (encode width (n / 256)) = n
    rw [tail, UInt8.toNat_ofNat']
    omega

theorem encode_decode (bytes : Bytes) : encode bytes.length (decode bytes) = bytes := by
  induction bytes with
  | nil => rfl
  | cons b bytes ih =>
    have low : UInt8.ofNat (decode (b :: bytes)) = b := by
      apply UInt8.toNat.inj
      have hb := b.toNat_lt
      change (UInt8.ofNat (b.toNat + 256 * decode bytes)).toNat = b.toNat
      rw [UInt8.toNat_ofNat']
      omega
    have high : decode (b :: bytes) / 256 = decode bytes := by
      have hb := b.toNat_lt
      change (b.toNat + 256 * decode bytes) / 256 = decode bytes
      omega
    rw [List.length_cons, encode, low, high, ih]

theorem eq_encode {width n : Nat} {bytes : Bytes} (length : bytes.length = width)
    (h : decode bytes = n) : bytes = encode width n := by
  rw [← length, ← h, encode_decode]

theorem encode_injective {width m n : Nat} (hm : m < 256 ^ width) (hn : n < 256 ^ width)
    (h : encode width m = encode width n) : m = n := by
  rw [← decode_encode hm, h, decode_encode hn]

theorem encode_append_inj {width m n : Nat} {xs ys : Bytes}
    (hm : m < 256 ^ width) (hn : n < 256 ^ width)
    (h : encode width m ++ xs = encode width n ++ ys) : m = n ∧ xs = ys := by
  obtain ⟨head, tail⟩ := List.append_inj h (by simp)
  exact ⟨encode_injective hm hn head, tail⟩

end SecureCore.LittleEndian
