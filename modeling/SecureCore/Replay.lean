import SecureCore.SessionOps
import SecureCore.SymbolicPrimitives

/-! Received wires against one session: which of them can move it, and that no
wire moves it twice. Runs consist of `try_decrypt_with_evolution` on arbitrary
wires and headers, interleaved with `start_evolution` and `apply_peer_kem` on
arbitrary ciphertexts; `commit_evolution` by the host is not among the steps. -/

namespace SecureCore.Replay

open AtomicProgram Program RootState MessageCipher

variable {P : Primitives}

/-- The operations an attacker on the channel can cause, directly or by timing. -/
def Provoked : SessionOp → Prop
  | .tryDecryptWithEvolution _ _ => True
  | .startEvolution _ => True
  | .applyPeerKem _ => True
  | _ => False

def Advances (call : Call) : Prop := call.after.epoch ≠ call.before.epoch

/-- The wire carries an AEAD output under a message key of `root` for exactly
these header fields. -/
def SealedUnder (P : Primitives) (root : Key) (wire : Bytes) (h : Header) : Prop :=
  ∃ pt, P.aeadEncrypt (deriveMessageKeyFromRoot P root h.epoch h.msgSeq) (wire.take 12)
    (buildAad h) pt = some (wire.drop 12)

theorem promoted_epoch_ne (s : Session) (newKey : Key) : (promoted s newKey).epoch ≠ s.epoch := by
  intro h
  have hone : s.epoch + 1 = s.epoch := h
  simp at hone

theorem exchange_epoch {op : SessionOp} (h : Provoked op) (s : Session)
    (hop : ∀ wire header, op ≠ .tryDecryptWithEvolution wire header) :
    (op.exec P s).2.epoch = s.epoch := by
  cases op with
  | startEvolution coins =>
    rcases Evolution.startEvolution_cases (P := P) coins s with ⟨_, _, _, _, _, hr⟩ | ⟨_, _, hr⟩ <;>
      simp [hr]
  | applyPeerKem kemCt =>
    rcases Evolution.applyPeerKem_cases (P := P) kemCt s with ⟨_, _, _, _, hr⟩ | ⟨_, _, hr⟩ <;>
      simp [hr]
  | tryDecryptWithEvolution wire header => exact absurd rfl (hop wire header)
  | _ => exact absurd h id

theorem decryption_effect (aead : P.AeadAuthentic) (wire : Bytes) (h : Header) (s : Session) :
    (∃ pend, s.pend = some pend ∧ h.epoch = s.epoch + 1 ∧ SealedUnder P pend wire h ∧
      ((SessionOp.tryDecryptWithEvolution wire h).exec P s).2 = promoted s pend) ∨
    ((SessionOp.tryDecryptWithEvolution wire h).exec P s).2 = s := by
  rcases tryDecryptWithEvolution_cases (P := P) wire h s with
    ⟨pt, _, hr⟩ | ⟨pend, pt, _, ahead, hp, slow, hr⟩ | hr
  · right
    simp [hr]
  · left
    exact ⟨pend, hp, ahead, ⟨pt, decrypt_produced aead slow⟩, by simp [hr]⟩
  · right
    simp [hr]

theorem succ_toNat {epoch : UInt32} (room : epoch.toNat < 2 ^ 32 - 1) :
    (epoch + 1).toNat = epoch.toNat + 1 := by
  rw [UInt32.toNat_add]
  exact Nat.mod_eq_of_lt (by simp; omega)

theorem exec_epoch_le {op : SessionOp} (hop : Provoked op) (s : Session)
    (room : s.epoch.toNat < 2 ^ 32 - 1) :
    s.epoch.toNat ≤ (op.exec P s).2.epoch.toNat := by
  by_cases hd : ∃ wire header, op = .tryDecryptWithEvolution wire header
  · obtain ⟨wire, header, rfl⟩ := hd
    rcases tryDecryptWithEvolution_cases (P := P) wire header s with
      ⟨pt, _, hr⟩ | ⟨pend, pt, _, ahead, hp, slow, hr⟩ | hr
    · simp [hr]
    · have hsum := succ_toNat room
      simp [hr, promoted]
      omega
    · simp [hr]
  · push Not at hd
    rw [exchange_epoch hop s hd]

theorem trace_epoch_le {s : Session} {ops : List SessionOp} (hops : ∀ op ∈ ops, Provoked op)
    (room : ∀ call ∈ trace P s ops, call.before.epoch.toNat < 2 ^ 32 - 1) :
    ∀ call ∈ trace P s ops, s.epoch.toNat ≤ call.before.epoch.toNat := by
  induction ops generalizing s with
  | nil => simp [trace]
  | cons op ops ih =>
    intro call hmem
    rcases List.mem_cons.mp hmem with rfl | hmem
    · exact le_rfl
    · have first := exec_epoch_le (P := P) (hops op List.mem_cons_self) s
        (room _ List.mem_cons_self)
      have rest := ih (fun o ho => hops o (List.mem_cons_of_mem _ ho))
        (fun c hc => room c (List.mem_cons_of_mem _ hc)) call hmem
      exact first.trans rest

theorem advance_cases (aead : P.AeadAuthentic) {call : Call} (hop : Provoked call.op)
    (hafter : call.after = (call.op.exec P call.before).2) (adv : Advances call) :
    ∃ wire h pend, call.op = .tryDecryptWithEvolution wire h ∧ call.before.pend = some pend ∧
      h.epoch = call.before.epoch + 1 ∧ SealedUnder P pend wire h ∧
      call.after = promoted call.before pend := by
  by_cases hd : ∃ wire header, call.op = .tryDecryptWithEvolution wire header
  · obtain ⟨wire, h, hwire⟩ := hd
    rw [hwire] at hafter
    rcases decryption_effect aead wire h call.before with ⟨pend, hp, ahead, hsealed, hr⟩ | hr
    · exact ⟨wire, h, pend, hwire, hp, ahead, hsealed, hafter.trans hr⟩
    · exact absurd (congrArg Session.epoch (hafter.trans hr)) adv
  · push Not at hd
    exact absurd (by rw [hafter, exchange_epoch hop _ hd]) adv

theorem no_second_advance (aead : P.AeadAuthentic) {earlier later : Call} {wire : Bytes}
    {h h' : Header} (hop : Provoked earlier.op) (hop' : Provoked later.op)
    (hafter : earlier.after = (earlier.op.exec P earlier.before).2)
    (hafter' : later.after = (later.op.exec P later.before).2)
    (hwire : earlier.op = .tryDecryptWithEvolution wire h)
    (hwire' : later.op = .tryDecryptWithEvolution wire h')
    (room : earlier.before.epoch.toNat < 2 ^ 32 - 1)
    (order : earlier.after.epoch.toNat ≤ later.before.epoch.toNat)
    (adv : Advances earlier) : ¬ Advances later := by
  -- A second advance by the same wire would need the same AAD, hence the same header epoch,
  -- in a session whose epoch has moved past it.
  intro adv'
  obtain ⟨w, g, pend, hw, -, ahead, ⟨pt, hs⟩, hpromoted⟩ := advance_cases aead hop hafter adv
  obtain ⟨w', g', pend', hw', -, ahead', ⟨pt', hs'⟩, -⟩ := advance_cases aead hop' hafter' adv'
  obtain ⟨rfl, rfl⟩ : wire = w ∧ h = g := by simpa [hwire] using hw
  obtain ⟨rfl, rfl⟩ : wire = w' ∧ h' = g' := by simpa [hwire'] using hw'
  have sameEpoch : h.epoch = h'.epoch := buildAad_epoch_inj (aead.committing hs hs').2
  have sameBefore : earlier.before.epoch = later.before.epoch := by
    rw [ahead, ahead'] at sameEpoch
    exact UInt32.add_left_inj 1 |>.mp sameEpoch
  have grown : earlier.after.epoch.toNat = earlier.before.epoch.toNat + 1 := by
    rw [hpromoted]
    exact succ_toNat room
  rw [sameBefore] at grown
  omega

theorem trace_no_second_advance (aead : P.AeadAuthentic) {s : Session} {ops : List SessionOp}
    (hops : ∀ op ∈ ops, Provoked op)
    (room : ∀ call ∈ trace P s ops, call.before.epoch.toNat < 2 ^ 32 - 1) :
    (trace P s ops).Pairwise fun earlier later => ∀ wire h h',
      earlier.op = .tryDecryptWithEvolution wire h →
      later.op = .tryDecryptWithEvolution wire h' → Advances earlier → ¬ Advances later := by
  induction ops generalizing s with
  | nil => exact List.Pairwise.nil
  | cons op ops ih =>
    have hops' : ∀ o ∈ ops, Provoked o := fun o ho => hops o (List.mem_cons_of_mem _ ho)
    have room' : ∀ call ∈ trace P (op.exec P s).2 ops, call.before.epoch.toNat < 2 ^ 32 - 1 :=
      fun c hc => room c (List.mem_cons_of_mem _ hc)
    refine List.pairwise_cons.mpr
      ⟨fun later hlater wire h h' hwire hwire' adv => ?_, ih hops' room'⟩
    obtain ⟨hmem, -, hafter'⟩ := mem_trace hlater
    exact no_second_advance aead (hops op List.mem_cons_self) (hops' _ hmem) rfl hafter'
      hwire hwire' (room _ List.mem_cons_self) (trace_epoch_le hops' room' later hlater) adv

/-- Nothing but a genuine message of the next epoch moves a session, and none
moves it twice: over every run of received wires and KEM exchanges, with every
call made below the last epoch. -/
theorem wire_advances_at_most_once (aead : P.AeadAuthentic) (s : Session)
    (ops : List SessionOp) (provoked : ∀ op ∈ ops, Provoked op)
    (room : ∀ call ∈ trace P s ops, call.before.epoch.toNat < 2 ^ 32 - 1) :
    (∀ call ∈ trace P s ops,
      (Advances call → ∃ wire h pend, call.op = .tryDecryptWithEvolution wire h ∧
        call.before.pend = some pend ∧ SealedUnder P pend wire h ∧
        h.epoch.toNat = call.before.epoch.toNat + 1 ∧
        call.after.epoch.toNat = call.before.epoch.toNat + 1 ∧
        call.after.curr = pend ∧ call.after.pend = none) ∧
      (∀ wire h, call.op = .tryDecryptWithEvolution wire h → ¬ Advances call →
        call.after = call.before)) ∧
    (trace P s ops).Pairwise fun earlier later => ∀ wire h h',
      earlier.op = .tryDecryptWithEvolution wire h →
      later.op = .tryDecryptWithEvolution wire h' → Advances earlier → ¬ Advances later := by
  refine ⟨fun call hcall => ⟨fun adv => ?_, fun wire h hwire still => ?_⟩,
    trace_no_second_advance aead provoked room⟩
  · obtain ⟨hmem, -, hafter⟩ := mem_trace hcall
    obtain ⟨wire, h, pend, hwire, hp, ahead, hsealed, hpromoted⟩ :=
      advance_cases aead (provoked _ hmem) hafter adv
    have hsucc := succ_toNat (room call hcall)
    refine ⟨wire, h, pend, hwire, hp, hsealed, by rw [ahead, hsucc], ?_, ?_, ?_⟩
    · rw [hpromoted]
      exact hsucc
    · rw [hpromoted]
      rfl
    · rw [hpromoted]
      rfl
  · obtain ⟨-, -, hafter⟩ := mem_trace hcall
    rw [hwire] at hafter
    rcases decryption_effect aead wire h call.before with ⟨pend, -, -, -, hr⟩ | hr
    · refine absurd ?_ still
      rw [Advances, hafter, hr]
      exact promoted_epoch_ne call.before pend
    · exact hafter.trans hr

def committedHeader : Header := ⟨[9], true, 1, 1, 1000⟩

def committedWire : Bytes :=
  (encrypt SymbolicPrimitives.symbolic [104, 105]
    (deriveMessageKeyFromRoot SymbolicPrimitives.symbolic [7] 1 1) committedHeader).getD []

def awaiting : Session := { Session.fresh with pend := some [7] }

def replayedRun : List SessionOp :=
  [.tryDecryptWithEvolution committedWire committedHeader, .applyPeerKem [3],
    .tryDecryptWithEvolution committedWire { committedHeader with epoch := 2 }]

theorem wire_advances_at_most_once_replayedRun :
    (trace SymbolicPrimitives.symbolic awaiting replayedRun).map (fun call => call.after.epoch) =
      [1, 1, 1] ∧
    (trace SymbolicPrimitives.symbolic awaiting replayedRun).Pairwise fun earlier later =>
      ∀ wire h h', earlier.op = .tryDecryptWithEvolution wire h →
        later.op = .tryDecryptWithEvolution wire h' → Advances earlier → ¬ Advances later := by
  refine ⟨by decide +kernel, (wire_advances_at_most_once
    SymbolicPrimitives.symbolic_aeadAuthentic awaiting replayedRun ?_ ?_).2⟩
  · simp [replayedRun, Provoked]
  · decide +kernel

end SecureCore.Replay
