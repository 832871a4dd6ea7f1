import SecureCore.MessageCipher
import SecureCore.SymbolicPrimitives
import SecureCore.TailPadding

/-! The entry points of `lib.rs` that return a buffer. Each makes a byte vector,
stores its length in `*out_len`, allocates a buffer of that length and copies the
vector into it. Length and size are the vector's length narrowed to 32 bits, the
copy is not. Pointers are taken to be valid; `granted` says whether the allocator
returned memory. -/

namespace SecureCore.NativeBuffers

open AtomicProgram Program

/-- The size of the buffer, or `none` for a null pointer. -/
def allocateNativeBuffer (granted : Bool) (size : UInt32) : Option UInt32 :=
  if size = 0 then none else if granted then some size else none

structure Handover where
  outLen : UInt32
  /-- The size the returned buffer was allocated with. -/
  buffer : Option UInt32
  /-- How many bytes were copied to it. -/
  copied : Nat
  deriving DecidableEq, Repr

def refused : Handover := ⟨0, none, 0⟩

def handOver (granted : Bool) (produced : Bytes) : Handover :=
  match allocateNativeBuffer granted (UInt32.ofNat produced.length) with
  | none => ⟨UInt32.ofNat produced.length, none, 0⟩
  | some size => ⟨UInt32.ofNat produced.length, some size, produced.length⟩

def deliver (granted : Bool) (input : Bytes) (produced : Option Bytes) : Handover :=
  if input.length = 0 then refused
  else match produced with
    | none => refused
    | some bytes => handOver granted bytes

section Entries

variable (P : Primitives) (granted : Bool)

def encryptMessage (pt : Bytes) (key : Key) (h : MessageCipher.Header) : Handover :=
  deliver granted pt (MessageCipher.encrypt P pt key h)

def decryptMessage (ct : Bytes) (key : Key) (h : MessageCipher.Header) : Handover :=
  deliver granted ct (MessageCipher.decrypt P ct key h)

def decryptWithAutoCommit (ct : Bytes) (h : MessageCipher.Header) :
    SessionM (Handover × UInt32) := do
  if ct.length = 0 then pure (refused, 0)
  else do
    match ← MessageCipher.tryDecryptWithEvolution P ct h with
    | some (pt, committed) => pure (handOver granted pt, if committed then 1 else 0)
    | none => pure (refused, 0)

def addTailPadding (data : Bytes) (draw : UInt32) (noise : Nat → UInt8) : Handover :=
  deliver granted data (some (TailPadding.addTailPadding data draw noise))

def stripTailPadding (data : Bytes) : Handover :=
  deliver granted data (TailPadding.stripTailPadding data)

end Entries

/-- The caller is told the true length, and what was copied lies in the buffer. -/
structure Fits (length : Nat) (returned : Handover) : Prop where
  stored : returned.outLen.toNat = length
  room : ∀ size ∈ returned.buffer, returned.copied ≤ size.toNat

section Handover

variable {granted : Bool} {produced input : Bytes}

theorem handOver_cases (granted : Bool) (produced : Bytes) :
    handOver granted produced = ⟨UInt32.ofNat produced.length, none, 0⟩ ∨
      handOver granted produced = ⟨UInt32.ofNat produced.length,
        some (UInt32.ofNat produced.length), produced.length⟩ := by
  unfold handOver allocateNativeBuffer
  split_ifs
  · exact Or.inl rfl
  · exact Or.inr rfl
  · exact Or.inl rfl

theorem handOver_outLen (granted : Bool) (produced : Bytes) :
    (handOver granted produced).outLen = UInt32.ofNat produced.length := by
  rcases handOver_cases granted produced with hrun | hrun
  · rw [hrun]
  · rw [hrun]

theorem handOver_fits_iff :
    Fits produced.length (handOver granted produced) ↔ produced.length < 2 ^ 32 := by
  have hnarrow : (UInt32.ofNat produced.length).toNat = produced.length % 2 ^ 32 :=
    UInt32.toNat_ofNat'
  constructor
  · intro fits
    have hlength := fits.stored
    rw [handOver_outLen] at hlength
    omega
  · intro short
    have hlength : (UInt32.ofNat produced.length).toNat = produced.length := by
      rw [hnarrow, Nat.mod_eq_of_lt short]
    rcases handOver_cases granted produced with hrun | hrun
    · rw [hrun]
      exact ⟨hlength, by rintro size ⟨⟩⟩
    · rw [hrun]
      refine ⟨hlength, ?_⟩
      rintro size ⟨⟩
      exact hlength.ge

theorem deliver_some {bytes : Bytes} (nonempty : 0 < input.length) :
    deliver granted input (some bytes) = handOver granted bytes := by
  rw [deliver, if_neg (by omega)]

theorem deliver_fits {bytes : Bytes} (nonempty : 0 < input.length)
    (narrow : input.length < 2 ^ 32) (shorter : bytes.length ≤ input.length) :
    Fits bytes.length (deliver granted input (some bytes)) := by
  rw [deliver_some nonempty]
  exact handOver_fits_iff.mpr (by omega)

theorem handOver_overruns (size : UInt32) (nonzero : size ≠ 0)
    (long : produced.length = 2 ^ 32 + size.toNat) :
    handOver true produced = ⟨size, some size, 2 ^ 32 + size.toNat⟩ := by
  have hnarrow : UInt32.ofNat produced.length = size := by
    apply UInt32.toNat.inj
    have hsize := size.toNat_lt
    rw [UInt32.toNat_ofNat', long]
    omega
  rw [handOver, hnarrow, allocateNativeBuffer, if_neg nonzero, if_pos rfl, long]

end Handover

def AeadExact (P : Primitives) : Prop :=
  ∀ ⦃key : Key⦄ ⦃nonce aad pt ct : Bytes⦄, P.aeadEncrypt key nonce aad pt = some ct →
    ct.length = pt.length + 16

def AeadShortens (P : Primitives) : Prop :=
  ∀ ⦃key : Key⦄ ⦃nonce aad pt ct : Bytes⦄, P.aeadDecrypt key nonce aad ct = some pt →
    ct.length = pt.length + 16

section Sizes

variable {P : Primitives} {granted : Bool}

theorem encrypt_length (exact : AeadExact P) {pt ct : Bytes} {key : Key}
    {h : MessageCipher.Header} (seals : MessageCipher.encrypt P pt key h = some ct) :
    ct.length = pt.length + 28 := by
  obtain ⟨body, hbody, rfl⟩ := Option.map_eq_some_iff.mp seals
  rw [List.length_append, MessageCipher.buildNonce_length, exact hbody]
  omega

theorem decrypt_length (shortens : AeadShortens P) {pt ct : Bytes} {key : Key}
    {h : MessageCipher.Header} (opens : MessageCipher.decrypt P ct key h = some pt) :
    pt.length ≤ ct.length := by
  unfold MessageCipher.decrypt at opens
  split_ifs at opens
  have hbody := shortens opens
  rw [List.length_drop] at hbody
  omega

theorem strip_length {padded payload : Bytes}
    (strips : TailPadding.stripTailPadding padded = some payload) :
    payload.length ≤ padded.length := by
  obtain ⟨tail, -, -, rfl⟩ := TailPadding.stripTailPadding_eq_some_iff.mp strips
  simp

theorem tryDecrypt_length (shortens : AeadShortens P) {pt ct : Bytes} {committed : Bool}
    {h : MessageCipher.Header} {s : Session}
    (opens : ((MessageCipher.tryDecryptWithEvolution P ct h).run s).1 = some (pt, committed)) :
    pt.length ≤ ct.length := by
  rcases MessageCipher.tryDecryptWithEvolution_cases (P := P) ct h s with
    ⟨pt', hfast, hrun⟩ | ⟨pend, pt', -, -, -, hslow, hrun⟩ | hrun
  · rw [hrun] at opens
    cases opens
    exact decrypt_length shortens hfast
  · rw [hrun] at opens
    cases opens
    exact decrypt_length shortens hslow
  · rw [hrun] at opens
    cases opens

theorem received_fits (shortens : AeadShortens P) {input produced : Bytes}
    {h : MessageCipher.Header} (nonempty : 0 < input.length) (narrow : input.length < 2 ^ 32) :
    (∀ key, MessageCipher.decrypt P input key h = some produced →
      Fits produced.length (decryptMessage P granted input key h)) ∧
    (∀ s committed, ((MessageCipher.tryDecryptWithEvolution P input h).run s).1 =
        some (produced, committed) →
      Fits produced.length ((decryptWithAutoCommit P granted input h).run s).1.1) ∧
    (TailPadding.stripTailPadding input = some produced →
      Fits produced.length (stripTailPadding granted input)) := by
  refine ⟨fun key opens => ?_, fun s committed opens => ?_, fun strips => ?_⟩
  · rw [decryptMessage, opens]
    exact deliver_fits nonempty narrow (decrypt_length shortens opens)
  · have hshorter := tryDecrypt_length shortens opens
    rw [decryptWithAutoCommit, if_neg (by omega), run_bind, opens]
    exact handOver_fits_iff.mpr (by omega)
  · rw [stripTailPadding, strips]
    exact deliver_fits nonempty narrow (strip_length strips)

/-- What the sending entry points return fits just when the longer vector they make
still has a `u32` length. -/
theorem returned_buffers_fit_iff (exact : AeadExact P) (granted : Bool) :
    (∀ (pt ct : Bytes) (key : Key) (h : MessageCipher.Header), 0 < pt.length →
      MessageCipher.encrypt P pt key h = some ct →
      ct.length = pt.length + 28 ∧
        (Fits ct.length (encryptMessage P granted pt key h) ↔ pt.length + 28 < 2 ^ 32)) ∧
    ∀ (data : Bytes) (draw : UInt32) (noise : Nat → UInt8), 0 < data.length →
      ∃ L, 16 ≤ L ∧ L ≤ 512 ∧
        (TailPadding.addTailPadding data draw noise).length = data.length + L + 2 ∧
        (Fits (TailPadding.addTailPadding data draw noise).length
          (addTailPadding granted data draw noise) ↔ data.length + L + 2 < 2 ^ 32) := by
  constructor
  · intro pt ct key h nonempty seals
    have hlength := encrypt_length exact seals
    refine ⟨hlength, ?_⟩
    rw [encryptMessage, seals, deliver_some nonempty, handOver_fits_iff, hlength]
  · intro data draw noise nonempty
    obtain ⟨low, high⟩ := TailPadding.padLength_bounds draw
    have hlength := TailPadding.addTailPadding_length data draw noise
    refine ⟨TailPadding.padLength draw, low, high, hlength, ?_⟩
    rw [addTailPadding, deliver_some nonempty, handOver_fits_iff, hlength]

end Sizes

def taggedPrimitives : Primitives :=
  { SymbolicPrimitives.symbolic with
    aeadEncrypt := fun _ _ _ pt => some (pt ++ List.replicate 16 0)
    aeadDecrypt := fun _ _ _ ct =>
      if ct.length < 16 then none else some (ct.take (ct.length - 16)) }

theorem taggedPrimitives_exact : AeadExact taggedPrimitives := by
  intro key nonce aad pt ct h
  cases h
  simp

def plainHeader : MessageCipher.Header := ⟨zeros32, true, 0, 1, 0⟩

theorem taggedPrimitives_encrypts (pt : Bytes) :
    ∃ ct, MessageCipher.encrypt taggedPrimitives pt zeros32 plainHeader = some ct := ⟨_, rfl⟩

theorem returned_buffers_fit_greeting :
    ∃ ct, MessageCipher.encrypt taggedPrimitives (ascii "hello") zeros32 plainHeader = some ct ∧
      Fits ct.length
        (encryptMessage taggedPrimitives true (ascii "hello") zeros32 plainHeader) := by
  obtain ⟨ct, seals⟩ := taggedPrimitives_encrypts (ascii "hello")
  have fits := ((returned_buffers_fit_iff taggedPrimitives_exact true).1 (ascii "hello") ct zeros32
    plainHeader (by decide) seals).2
  exact ⟨ct, seals, fits.mpr (by decide)⟩

def longestInput : Bytes := List.replicate (2 ^ 32 - 1) 0

theorem returned_buffers_overrun :
    longestInput.length < 2 ^ 32 ∧
      encryptMessage taggedPrimitives true longestInput zeros32 plainHeader =
        ⟨27, some 27, 4294967323⟩ ∧
      addTailPadding true longestInput 0 (fun _ => 0) = ⟨17, some 17, 4294967313⟩ := by
  -- More than four gigabytes are copied to buffers of 27 and 17 bytes.
  have hlength : longestInput.length = 2 ^ 32 - 1 := List.length_replicate
  have nonempty : 0 < longestInput.length := by omega
  obtain ⟨ct, seals⟩ := taggedPrimitives_encrypts longestInput
  have hct := encrypt_length taggedPrimitives_exact seals
  refine ⟨by omega, ?_, ?_⟩
  · rw [encryptMessage, seals, deliver_some nonempty]
    exact handOver_overruns 27 (by decide) (by rw [hct, hlength]; rfl)
  · rw [addTailPadding, deliver_some nonempty]
    refine handOver_overruns 17 (by decide) ?_
    rw [TailPadding.addTailPadding_length, hlength]
    rfl

end SecureCore.NativeBuffers
