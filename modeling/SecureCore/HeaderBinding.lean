import SecureCore.MessageCipher
import SecureCore.SymbolicPrimitives

/-! What a wire is bound to. Key and associated data of an envelope are made from
the root and the header, both by encodings of fixed-width fields, so a wire opens
under the root and the header it was made with and under no others. The nonce is
read from the wire: a changed timestamp is noticed in the associated data. -/

namespace SecureCore.MessageCipher

/-- A ciphertext is rejected under another key or other associated data. -/
def AeadRejects (P : Primitives) : Prop :=
  ∀ ⦃key key' : Key⦄ ⦃nonce aad aad' pt ct : Bytes⦄, P.aeadEncrypt key nonce aad pt = some ct →
    key' ≠ key ∨ aad' ≠ aad → P.aeadDecrypt key' nonce aad' ct = none

theorem aeadRejects_of_authentic {P : Primitives} (aead : P.AeadAuthentic) : AeadRejects P := by
  intro key key' nonce aad aad' pt ct seals differs
  cases hd : P.aeadDecrypt key' nonce aad' ct with
  | none => rfl
  | some pt' =>
    obtain ⟨hkey, haad⟩ := aead.committing (aead.produced hd) seals
    exact absurd differs (by simp [hkey, haad])

theorem buildAad_injective {h h' : Header} (aad : buildAad h = buildAad h') : h = h' := by
  -- The 23 bytes behind the stamp have fixed widths, so the stamp and each field can be read
  -- off the associated data.
  have assoc : ∀ g : Header, buildAad g = g.idStamp ++ ([if g.outgoing then 0 else 1] ++
      (le32 g.epoch ++ (le64 g.msgSeq ++ (le64 g.timestamp ++
        LittleEndian.encode 2 protoVersion)))) := by
    intro g
    simp [buildAad]
  rw [assoc h, assoc h'] at aad
  obtain ⟨hstamp, hrest⟩ := List.append_inj' aad (by simp [le32, le64])
  obtain ⟨hdirection, hrest⟩ := List.append_inj hrest rfl
  obtain ⟨hepoch, hrest⟩ := le32_append_inj hrest
  obtain ⟨hseq, hrest⟩ := le64_append_inj hrest
  have htime := (le64_append_inj hrest).1
  have houtgoing : h.outgoing = h'.outgoing := by
    cases ho : h.outgoing <;> cases ho' : h'.outgoing <;> simp [ho, ho'] at hdirection ⊢
  cases h
  cases h'
  simp_all

section Binding

variable {P : Primitives}

theorem decrypt_differs (rejects : AeadRejects P) {pt wire : Bytes} {key key' : Key}
    {h h' : Header} (he : encrypt P pt key h = some wire) (differs : key' ≠ key ∨ h' ≠ h) :
    decrypt P wire key' h' = none := by
  have hsplit := encrypt_split he
  have hreject : P.aeadDecrypt key' (wire.take 12) (buildAad h') (wire.drop 12) = none :=
    rejects hsplit (differs.imp_right fun hne haad => hne (buildAad_injective haad))
  rw [decrypt]
  split_ifs
  · rfl
  · exact hreject

/-- A message opens under exactly the root, stamp, direction, epoch, sequence number
and timestamp it was encrypted with. -/
theorem decrypt_binds_header (aead : P.AeadCorrect) (rejects : AeadRejects P)
    (root root' : Key) (keys : MessageKeysDistinct P {root, root'}) (h h' : Header)
    {pt wire : Bytes}
    (he : encrypt P pt (deriveMessageKeyFromRoot P root h.epoch h.msgSeq) h = some wire) :
    decrypt P wire (deriveMessageKeyFromRoot P root' h'.epoch h'.msgSeq) h' =
      if root' = root ∧ h' = h then some pt else none := by
  split_ifs with same
  · obtain ⟨rfl, rfl⟩ := same
    exact decrypt_encrypt aead he
  · apply decrypt_differs rejects he
    by_cases hheader : h' = h
    · left
      intro hkey
      exact same ⟨(keys (by simp) (by simp) hkey).1, hheader⟩
    · right
      exact hheader

def boundHeader : Header := ⟨zeros32, true, 3, 7, 1000⟩

def boundKey (root : Key) : Key :=
  deriveMessageKeyFromRoot SymbolicPrimitives.symbolic root boundHeader.epoch boundHeader.msgSeq

theorem decrypt_binds_header_sample :
    ∃ wire, encrypt SymbolicPrimitives.symbolic [104, 105] (boundKey zeros32) boundHeader =
        some wire ∧
      decrypt SymbolicPrimitives.symbolic wire (boundKey zeros32) boundHeader =
        some [104, 105] ∧
      decrypt SymbolicPrimitives.symbolic wire (boundKey zeros32)
        { boundHeader with timestamp := 1001 } = none ∧
      decrypt SymbolicPrimitives.symbolic wire (boundKey [1]) boundHeader = none := by
  obtain ⟨wire, he⟩ : ∃ wire, encrypt SymbolicPrimitives.symbolic [104, 105] (boundKey zeros32)
      boundHeader = some wire := ⟨_, rfl⟩
  have binds := fun root' h' => decrypt_binds_header SymbolicPrimitives.symbolic_aeadCorrect
    (aeadRejects_of_authentic SymbolicPrimitives.symbolic_aeadAuthentic)
    zeros32 root' (messageKeysDistinct_of_injective SymbolicPrimitives.symbolic_hkdfInjective _)
    boundHeader h' he
  exact ⟨wire, he, binds zeros32 boundHeader, binds zeros32 { boundHeader with timestamp := 1001 },
    binds [1] boundHeader⟩

end Binding

end SecureCore.MessageCipher
