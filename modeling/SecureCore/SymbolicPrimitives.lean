import SecureCore.Primitives

/-! A concrete instance of the cryptographic parameters in which every assumption
made of them holds: ciphertexts and derived keys spell out the arguments they
were made from, so distinct arguments give distinct results. It shows that the
assumptions are consistent, and lets runs of the model be evaluated. The KEM of
`symbolic` opens its ciphertexts to every secret key; that of `keyed` writes the public
key into them, and opens them to the secret key of that one only. -/

namespace SecureCore.SymbolicPrimitives

/-- A self-delimiting copy of a byte string: its length in unary, then its bytes. -/
def framed (bytes : Bytes) : Bytes := List.replicate bytes.length 1 ++ 0 :: bytes

theorem framed_append_inj {x y xs ys : Bytes} (h : framed x ++ xs = framed y ++ ys) :
    x = y ∧ xs = ys := by
  have width : x.length = y.length := by
    have ones := congrArg (fun bytes => (bytes.takeWhile (· == (1 : UInt8))).length) h
    simpa [framed, List.takeWhile_append] using ones
  have framedWidth : (framed x).length = (framed y).length := by simp [framed, width]
  obtain ⟨hframed, hrest⟩ := List.append_inj h framedWidth
  refine ⟨?_, hrest⟩
  have body := List.append_inj_right hframed (by simp [width])
  exact (List.cons.inj body).2

def envelope (key nonce aad : Bytes) : Bytes :=
  framed key ++ framed nonce ++ framed aad ++ List.replicate 16 0

theorem envelope_append_inj {key nonce aad key' nonce' aad' xs ys : Bytes}
    (h : envelope key nonce aad ++ xs = envelope key' nonce' aad' ++ ys) :
    key = key' ∧ nonce = nonce' ∧ aad = aad' ∧ xs = ys := by
  simp only [envelope, List.append_assoc] at h
  obtain ⟨hkey, h⟩ := framed_append_inj h
  obtain ⟨hnonce, h⟩ := framed_append_inj h
  obtain ⟨haad, h⟩ := framed_append_inj h
  exact ⟨hkey, hnonce, haad, List.append_cancel_left h⟩

def fit32 (bytes : Bytes) : Bytes := (bytes ++ List.replicate 32 0).take 32

def symbolic : Primitives where
  sha256 := fit32
  hkdf salt ikm info := framed salt ++ framed ikm ++ info
  aeadEncrypt key nonce aad pt := some (envelope key nonce aad ++ pt)
  aeadDecrypt key nonce aad ct :=
    if (envelope key nonce aad).isPrefixOf ct then some (ct.drop (envelope key nonce aad).length)
    else none
  keypair coins := (1 :: coins, 2 :: coins)
  encapsulate pk coins :=
    if pk.isEmpty then none else some (3 :: fit32 coins, fit32 coins)
  decapsulate kemCt sk :=
    if sk.isEmpty ∨ kemCt.length ≠ 33 then none else some (kemCt.drop 1)

theorem symbolic_hkdfInjective : symbolic.HkdfInjective := by
  intro salt ikm info salt' ikm' info' h
  simp only [symbolic, List.append_assoc] at h
  obtain ⟨hsalt, h⟩ := framed_append_inj h
  obtain ⟨hikm, hinfo⟩ := framed_append_inj h
  exact ⟨hsalt, hikm, hinfo⟩

theorem symbolic_hkdfMoves : symbolic.HkdfMoves := by
  intro salt ikm info h
  have hlength := congrArg List.length h
  simp only [symbolic, framed, List.length_append, List.length_replicate, List.length_cons]
    at hlength
  omega

theorem fit32_length (bytes : Bytes) : (fit32 bytes).length = 32 := by
  simp [fit32]

theorem symbolic_kemMatches {sk : Bytes} (hsk : sk ≠ []) (pk : Bytes) :
    symbolic.KemMatches pk sk := by
  intro coins kemCt ss h
  simp only [symbolic] at h ⊢
  split at h
  · cases h
  · cases h
    simp [fit32_length, hsk]

theorem symbolic_kemCorrect : symbolic.KemCorrect := by
  intro coins
  exact symbolic_kemMatches (by simp [symbolic]) _

theorem symbolic_aeadCorrect : symbolic.AeadCorrect where
  inverts := by
    intro key nonce aad pt ct h
    cases h
    simp [symbolic]
  tagged := by
    intro key nonce aad pt ct h
    cases h
    simp [envelope]
    omega

theorem symbolic_aeadAuthentic : symbolic.AeadAuthentic where
  produced := by
    intro key nonce aad pt ct h
    simp only [symbolic] at h ⊢
    split at h
    case isTrue hp =>
      obtain ⟨rest, rfl⟩ := List.isPrefixOf_iff_prefix.mp hp
      cases h
      simp
    case isFalse => cases h
  committing := by
    intro key key' nonce nonce' aad aad' pt pt' ct h h'
    simp only [symbolic, Option.some.injEq] at h h'
    obtain ⟨hkey, -, haad, -⟩ := envelope_append_inj (h.trans h'.symm)
    exact ⟨hkey, haad⟩

/-- Everything a KEM ciphertext for the owner of this secret key starts with. -/
def address (sk : Bytes) : Bytes := framed (1 :: sk.drop 1)

def keyed : Primitives :=
  { symbolic with
    encapsulate := fun pk coins =>
      if pk.isEmpty then none else some (framed pk ++ fit32 coins, fit32 coins)
    decapsulate := fun kemCt sk =>
      if sk.isEmpty then none
      else if (address sk).isPrefixOf kemCt then some (kemCt.drop (address sk).length)
      else none }

theorem keyed_kemMatches {sk : Bytes} (hsk : sk ≠ []) : keyed.KemMatches (1 :: sk.drop 1) sk := by
  intro coins kemCt ss h
  simp only [keyed, List.isEmpty_cons, Bool.false_eq_true, if_false, Option.some.injEq,
    Prod.mk.injEq] at h
  obtain ⟨rfl, rfl⟩ := h
  simp [keyed, address, hsk]

end SecureCore.SymbolicPrimitives
