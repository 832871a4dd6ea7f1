import SecureCore.ConstantFlow
import SecureCore.MessageCipher
import SecureCore.SymbolicPrimitives
import SecureCore.TailPadding

/-! The send side of the documented lifecycle: `encrypt`, then `add_tail_padding`,
then the constant-flow packet. The receiver has a decoder for the first two
stages only, and `strip_tail_padding` takes its length from the last two bytes
of the packet, which the third stage overlays with noise. -/

namespace SecureCore.SendPipeline

open LittleEndian MessageCipher TailPadding ConstantFlow SymbolicPrimitives

/-- The packet of one wire: the tail padding's draws, then the packet's. -/
def sendPacket (wire : Bytes) (draw : UInt32) (noise fill : Nat → UInt8) : Bytes :=
  buildPacket (some (addTailPadding wire draw noise)) fill

/-- The packet noise ends in the number of all bytes between the wire and these
last two, and that number is a permitted padding length. Without noise it does:
the trailer itself is last. -/
def ReadsAsPadding (padding : Nat) (fill : Bytes) : Prop :=
  padding + fill.length ≤ maxPad ∧
    (encode 2 padding ++ fill).drop fill.length = encode 2 (padding + fill.length)

theorem readsAsPadding_nil {padding : Nat} (small : padding ≤ maxPad) :
    ReadsAsPadding padding [] :=
  ⟨small, by simp⟩

theorem strip_append_iff {padding : Nat} {wire noise fill : Bytes} (low : minPad ≤ padding)
    (width : noise.length = padding) :
    stripTailPadding (wire ++ (noise ++ (encode 2 padding ++ fill))) = some wire ↔
      ReadsAsPadding padding fill := by
  have split : noise ++ (encode 2 padding ++ fill) =
      (noise ++ (encode 2 padding ++ fill).take fill.length) ++
        (encode 2 padding ++ fill).drop fill.length := by
    rw [List.append_assoc, List.take_append_drop]
  have front : (noise ++ (encode 2 padding ++ fill).take fill.length).length =
      padding + fill.length := by
    rw [List.length_append, List.length_take, List.length_append, encode_length, width]
    omega
  rw [stripTailPadding_eq_some_iff]
  constructor
  · rintro ⟨tail, -, high, eq⟩
    have rest := List.append_cancel_left eq
    have total := congrArg List.length rest
    simp only [List.length_append, encode_length, width] at total
    have same : tail.length = padding + fill.length := by omega
    rw [split] at rest
    obtain ⟨-, trailer⟩ := List.append_inj rest (by rw [front, same])
    rw [same] at high trailer
    exact ⟨high, trailer⟩
  · rintro ⟨high, trailer⟩
    refine ⟨noise ++ (encode 2 padding ++ fill).take fill.length, ?_, ?_, ?_⟩
    · rw [front]
      omega
    · rwa [front]
    · rw [front, ← trailer, ← split]

theorem sendPacket_eq {wire : Bytes} {draw : UInt32} {noise : Nat → UInt8}
    (fits : (addTailPadding wire draw noise).length ≤ packetSize) (fill : Nat → UInt8) :
    sendPacket wire draw noise fill =
      wire ++ (fillBytes (padLength draw) noise ++ (encode 2 (padLength draw) ++
        fillBytes (packetSize - (wire.length + padLength draw + 2)) fill)) := by
  rw [sendPacket, buildPacket_fitting fits, addTailPadding_length]
  simp [addTailPadding]

theorem strip_sendPacket_iff {wire : Bytes} {draw : UInt32} {noise : Nat → UInt8}
    (fits : (addTailPadding wire draw noise).length ≤ packetSize) (fill : Nat → UInt8) :
    stripTailPadding (sendPacket wire draw noise fill) = some wire ↔
      ReadsAsPadding (padLength draw)
        (fillBytes (packetSize - (wire.length + padLength draw + 2)) fill) := by
  rw [sendPacket_eq fits]
  exact strip_append_iff (padLength_bounds draw).1 (by simp)

theorem strip_sendPacket_short {wire : Bytes} {draw : UInt32}
    (short : wire.length + 2 + maxPad < packetSize) (noise fill : Nat → UInt8) :
    stripTailPadding (sendPacket wire draw noise fill) ≠ some wire := by
  have high := (padLength_bounds draw).2
  have fits : (addTailPadding wire draw noise).length ≤ packetSize := by
    rw [addTailPadding_length]
    omega
  rw [Ne, strip_sendPacket_iff fits]
  rintro ⟨room, -⟩
  rw [fillBytes_length] at room
  omega

/-- The receiver undoes the packet exactly when the packet's noise reads as
padding. -/
theorem receive_sendPacket_iff {P : Primitives} (aead : P.AeadCorrect) {plaintext wire : Bytes}
    {key : Key} {h : Header} {draw : UInt32} {noise : Nat → UInt8}
    (sealed : encrypt P plaintext key h = some wire)
    (fits : (addTailPadding wire draw noise).length ≤ packetSize) (fill : Nat → UInt8) :
    (stripTailPadding (sendPacket wire draw noise fill) = some wire ∧
      (stripTailPadding (sendPacket wire draw noise fill)).bind
        (fun received => decrypt P received key h) = some plaintext) ↔
      ReadsAsPadding (padLength draw)
        (fillBytes (packetSize - (wire.length + padLength draw + 2)) fill) := by
  rw [← strip_sendPacket_iff fits]
  constructor
  · rintro ⟨stripped, -⟩
    exact stripped
  · intro stripped
    refine ⟨stripped, ?_⟩
    rw [stripped]
    exact decrypt_encrypt aead sealed

def sampleHeader : Header := ⟨[], true, 0, 0, 0⟩

theorem sample_wire_length {plaintext wire : Bytes}
    (sealed : encrypt symbolic plaintext [] sampleHeader = some wire) :
    wire.length = 101 + plaintext.length := by
  have frame : (envelope [] (buildNonce 0 0 0) (buildAad sampleHeader)).length = 89 := by decide
  have spelled : wire = buildNonce 0 0 0 ++
      (envelope [] (buildNonce 0 0 0) (buildAad sampleHeader) ++ plaintext) :=
    (Option.some.inj sealed).symm
  rw [spelled, List.length_append, buildNonce_length, List.length_append, frame]
  omega

theorem receive_full_packet :
    ∃ wire, encrypt symbolic (List.replicate 3977 0) [] sampleHeader = some wire ∧
      stripTailPadding (sendPacket wire 0 (fun _ => 0) (fun _ => 0)) = some wire ∧
      (stripTailPadding (sendPacket wire 0 (fun _ => 0) (fun _ => 0))).bind
        (fun received => decrypt symbolic received [] sampleHeader) =
          some (List.replicate 3977 0) := by
  obtain ⟨wire, sealed⟩ :
      ∃ wire, encrypt symbolic (List.replicate 3977 0) [] sampleHeader = some wire := ⟨_, rfl⟩
  have length : wire.length = 4078 := by
    rw [sample_wire_length sealed, List.length_replicate]
  have fits : (addTailPadding wire 0 (fun _ => 0)).length ≤ packetSize := by
    rw [addTailPadding_length, length]
    decide
  refine ⟨wire, sealed, (receive_sendPacket_iff symbolic_aeadCorrect sealed fits _).mpr ?_⟩
  rw [length]
  exact readsAsPadding_nil (by decide)

theorem greeting_not_received :
    ∃ wire, encrypt symbolic (ascii "hello") [] sampleHeader = some wire ∧
      (addTailPadding wire 0 (fun _ => 0)).length ≤ packetSize ∧
      ∀ noise fill, stripTailPadding (sendPacket wire 0 noise fill) ≠ some wire := by
  obtain ⟨wire, sealed⟩ :
      ∃ wire, encrypt symbolic (ascii "hello") [] sampleHeader = some wire := ⟨_, rfl⟩
  have length : wire.length = 106 := sample_wire_length sealed
  refine ⟨wire, sealed, ?_, fun noise fill => strip_sendPacket_short ?_ noise fill⟩
  · rw [addTailPadding_length, length]
    decide
  · rw [length]
    decide

end SecureCore.SendPipeline
