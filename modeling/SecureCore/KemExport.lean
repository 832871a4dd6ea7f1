import SecureCore.SessionSteps
import SecureCore.TwoParty

/-! Which pending root the exported KEM ciphertext belongs to. `start_evolution`
stores the ciphertext and the pending root together, in two modules; after that
five calls rewrite the pending root or the root it was derived from and leave
the ciphertext, which only another `start_evolution` replaces. -/

namespace SecureCore.KemExport

open RootState MessageCipher Evolution SymbolicPrimitives

section

variable (P : Primitives)

def exportOf (call : Call) : Option (Bytes × Bytes × Bytes) :=
  if call.reply = .code 0 then
    match call.op with
    | .startEvolution coins =>
      (P.encapsulate call.before.bobPublicKey coins).map fun out =>
        (call.before.bobPublicKey, out.1, out.2)
    | _ => none
  else none

def Disturbs (s : Session) : SessionOp → Prop
  | .initialiseRootState alice bob bobPk => InitModule.Accepts alice bob bobPk
  | .applyPeerKem kemCt => s.bobKeys.2 ≠ [] ∧
      ∃ ss, P.decapsulate kemCt s.bobKeys.2 = some ss ∧ ss.length = 32
  | .commitEvolution => s.pend ≠ none
  | .tryDecryptWithEvolution wire header =>
    decrypt P wire (deriveMessageKeyFromRoot P s.curr header.epoch header.msgSeq) header = none ∧
      header.epoch = s.epoch + 1 ∧ ∃ pend pt, s.pend = some pend ∧
        decrypt P wire (deriveMessageKeyFromRoot P pend header.epoch header.msgSeq) header = some pt
  | .recoverAfterLoss target => s.epoch < target ∧ target - s.epoch ≤ 100000
  | _ => False

/-- Every such call made while a ciphertext is exported is followed by a
`start_evolution` that succeeds. -/
def Undisturbed (calls : List Call) : Prop :=
  ∀ earlier call later, calls = earlier ++ call :: later → Disturbs P call.before call.op →
    call.before.kemCipher = none ∨ ∃ renewal ∈ later, (exportOf P renewal).isSome

/-- A ciphertext is exported only with its own pending root: the buffer of the
announced length receives the ciphertext of the latest `start_evolution`, the
pending root is derived from its secret and the root in force, and a peer with
that root which applies it gets the same pending root. -/
def ExportMatches (calls : List Call) (s : Session) : Prop :=
  ∀ n, 0 < n → (kemCipherLen.run s).1 = n →
    ∃ pk ss, latestOf (exportOf P) calls = some (pk, ((getKemCipher n).run s).1, ss) ∧
      s.pend = some (derivePendingKey P ss s.curr) ∧
      ∀ peer : Session, peer.curr = s.curr → peer.bobKeys.2 ≠ [] →
        P.KemMatches pk peer.bobKeys.2 →
          (applyPeerKem P ((getKemCipher n).run s).1).run peer = (0, { peer with pend := s.pend })

def Paired (calls : List Call) (s : Session) : Prop :=
  ∀ kemCt, s.kemCipher = some kemCt →
    ∃ pk coins ss, latestOf (exportOf P) calls = some (pk, kemCt, ss) ∧
      P.encapsulate pk coins = some (kemCt, ss) ∧ ss.length = 32 ∧
      s.pend = some (derivePendingKey P ss s.curr)

end

variable {P : Primitives} {s : Session}

theorem applyPeerKem_of_matches {pk coins kemCt ss : Bytes} {peer : Session}
    (matching : P.KemMatches pk peer.bobKeys.2) (present : peer.bobKeys.2 ≠ [])
    (encapsulated : P.encapsulate pk coins = some (kemCt, ss)) (width : ss.length = 32) :
    (applyPeerKem P kemCt).run peer =
      (0, { peer with pend := some (derivePendingKey P ss peer.curr) }) := by
  have decapsulated := matching encapsulated
  simp [applyPeerKem, present, decapsulated, tryInto32, width]

theorem Paired.exportMatches {calls : List Call} (h : Paired P calls s) :
    ExportMatches P calls s := by
  intro n positive hn
  cases hct : s.kemCipher with
  | none =>
    have zero : (kemCipherLen.run s).1 = 0 := by simp [kemCipherLen, hct]
    omega
  | some kemCt =>
    have whole : ((getKemCipher n).run s).1 = kemCt := by
      have length : kemCt.length = n := by simpa [kemCipherLen, hct] using hn
      simp [hct, length]
    obtain ⟨pk, coins, ss, latest, encapsulated, width, pending⟩ := h kemCt hct
    rw [whole]
    refine ⟨pk, ss, latest, pending, ?_⟩
    intro peer same present matching
    rw [applyPeerKem_of_matches matching present encapsulated width, same, pending]

theorem exportOf_of_idle {op : SessionOp} {reply : Reply} (reports : op.Idle reply) :
    exportOf P ⟨op, s, reply, s⟩ = none := by
  by_cases hreply : reply = .code 0
  · subst hreply
    cases op <;> first | rfl | simp [SessionOp.Idle] at reports
  · exact if_neg hreply

theorem applyPeerKem_quiet {kemCt : Bytes} (quiet : ¬ Disturbs P s (.applyPeerKem kemCt)) :
    ((SessionOp.applyPeerKem kemCt).exec P s).2 = s := by
  rw [SessionOp.exec_applyPeerKem]
  rcases applyPeerKem_cases (P := P) kemCt s with
    ⟨ss, present, decapsulated, width, -⟩ | ⟨code, -, hrun⟩
  · exact absurd ⟨present, ss, decapsulated, width⟩ quiet
  · rw [hrun]

theorem tryDecryptWithEvolution_quiet {wire : Bytes} {header : Header}
    (quiet : ¬ Disturbs P s (.tryDecryptWithEvolution wire header)) :
    ((SessionOp.tryDecryptWithEvolution wire header).exec P s).2 = s := by
  rw [SessionOp.exec_tryDecryptWithEvolution]
  rcases tryDecryptWithEvolution_cases (P := P) wire header s with
    ⟨pt, -, hrun⟩ | ⟨pend, pt, fast, ahead, pending, slow, -⟩ | hrun
  · rw [hrun]
  · exact absurd ⟨fast, ahead, pend, pt, pending, slow⟩ quiet
  · rw [hrun]

theorem exec_quiet {op : SessionOp} (quiet : ¬ Disturbs P s op)
    (kept : exportOf P (op.call P s) = none) :
    (op.exec P s).2.curr = s.curr ∧ (op.exec P s).2.pend = s.pend ∧
      (op.exec P s).2.kemCipher = s.kemCipher := by
  have hstep := exec_step (P := P) op s
  rw [SessionOp.call] at kept
  generalize hresult : op.exec P s = result at hstep kept
  obtain ⟨reply, after⟩ := result
  dsimp only at hstep kept ⊢
  cases hstep with
  | initialised alice bob bobPk accepted => exact absurd accepted quiet
  | recovered target ahead near => exact absurd ⟨ahead, near⟩ quiet
  | started coins kemCt ss nonempty encapsulated width =>
    simp [exportOf, encapsulated] at kept
  | applied kemCt ss decapsulated width =>
    have same := applyPeerKem_quiet quiet
    rw [hresult] at same
    exact ⟨congrArg Session.curr same, congrArg Session.pend same, congrArg Session.kemCipher same⟩
  | committed newKey pending =>
    have some : s.pend ≠ none := by simp [pending]
    exact absurd some quiet
  | autoCommitted wire header newKey pt pending =>
    have same := tryDecryptWithEvolution_quiet quiet
    rw [hresult] at same
    exact ⟨congrArg Session.curr same, congrArg Session.pend same, congrArg Session.kemCipher same⟩
  | keyed | supplied | numbered | sent | idle => exact ⟨rfl, rfl, rfl⟩

theorem exec_kemCipher {op : SessionOp} (kept : exportOf P (op.call P s) = none) :
    (op.exec P s).2.kemCipher = s.kemCipher := by
  have hstep := exec_step (P := P) op s
  rw [SessionOp.call] at kept
  generalize op.exec P s = result at hstep kept
  obtain ⟨reply, after⟩ := result
  dsimp only at hstep kept ⊢
  cases hstep with
  | started coins kemCt ss nonempty encapsulated width =>
    simp [exportOf, encapsulated] at kept
  | recovered target ahead near => exact (AntiDos.rolledBy_frame _ s).2.2.2
  | initialised | keyed | supplied | applied | committed | autoCommitted | numbered | sent
  | idle => rfl

theorem exec_renewal {calls : List Call} {op : SessionOp}
    (renews : (exportOf P (op.call P s)).isSome) :
    Paired P (calls ++ [op.call P s]) (op.exec P s).2 := by
  intro kemCt hct
  rw [latestOf_snoc]
  have hstep := exec_step (P := P) op s
  rw [SessionOp.call] at renews ⊢
  generalize op.exec P s = result at hstep renews hct ⊢
  obtain ⟨reply, after⟩ := result
  dsimp only at hstep renews hct ⊢
  cases hstep with
  | started coins kemCt ss nonempty encapsulated width =>
    cases hct
    exact ⟨s.bobPublicKey, coins, ss, by simp [exportOf, encapsulated], encapsulated, width, rfl⟩
  | idle op reply reports =>
    rw [exportOf_of_idle reports] at renews
    cases renews
  | _ => simp [exportOf] at renews

theorem Undisturbed.of_snoc {calls : List Call} {call : Call} (h : Undisturbed P (calls ++ [call]))
    (kept : exportOf P call = none) : Undisturbed P calls := by
  intro earlier disturbing later hsplit disturbs
  have longer : calls ++ [call] = earlier ++ disturbing :: (later ++ [call]) := by
    rw [hsplit, List.append_assoc, List.cons_append]
  rcases h earlier disturbing _ longer disturbs with hnone | ⟨renewal, hmem, hrenews⟩
  · exact Or.inl hnone
  · rcases List.mem_append.mp hmem with hlater | hlast
    · exact Or.inr ⟨renewal, hlater, hrenews⟩
    · rw [List.mem_singleton.mp hlast, kept] at hrenews
      cases hrenews

theorem undisturbed_nil : Undisturbed P [] := by
  intro earlier call later hsplit
  simp at hsplit

theorem undisturbed_cons {call : Call} {calls : List Call}
    (head : Disturbs P call.before call.op →
      call.before.kemCipher = none ∨ ∃ renewal ∈ calls, (exportOf P renewal).isSome)
    (tail : Undisturbed P calls) : Undisturbed P (call :: calls) := by
  intro earlier disturbing later hsplit disturbs
  cases earlier with
  | nil =>
    obtain ⟨rfl, rfl⟩ := List.cons.inj hsplit
    exact head disturbs
  | cons first earlier =>
    obtain ⟨-, hrest⟩ := List.cons.inj hsplit
    exact tail earlier disturbing later hrest disturbs

theorem paired_step {calls : List Call} {op : SessionOp}
    (h : Undisturbed P calls → Paired P calls s)
    (undisturbed : Undisturbed P (calls ++ [op.call P s])) :
    Paired P (calls ++ [op.call P s]) (op.exec P s).2 := by
  cases hexport : exportOf P (op.call P s) with
  | some out => exact exec_renewal (by rw [hexport]; rfl)
  | none =>
    intro kemCt hct
    rw [exec_kemCipher hexport] at hct
    have quiet : ¬ Disturbs P s op := by
      intro disturbs
      rcases undisturbed calls (op.call P s) [] rfl disturbs with hnone | ⟨renewal, hmem, -⟩
      · exact absurd (hct.symm.trans hnone) (by simp)
      · cases hmem
    obtain ⟨hcurr, hpend, -⟩ := exec_quiet quiet hexport
    rw [latestOf_snoc, hexport, hcurr, hpend]
    exact h (undisturbed.of_snoc hexport) kemCt hct

/-- In every run in which each call that takes effect on the roots while a
ciphertext is exported is followed by a new `start_evolution`, the exported
ciphertext is that of the pending root. -/
theorem exported_ciphertext_matches (P : Primitives) (ops : List SessionOp)
    (undisturbed : Undisturbed P (trace P .fresh ops)) :
    ExportMatches P (trace P .fresh ops) (Session.fresh.after P ops) := by
  apply Paired.exportMatches
  revert undisturbed
  refine run_induction (motive := fun calls s => Undisturbed P calls → Paired P calls s) ?_ ?_ ops
  · rintro - kemCt ⟨⟩
  · intro calls s op ih undisturbed
    exact paired_step ih undisturbed

theorem exported_ciphertext_matches_renewed :
    let ops : List SessionOp := [.setPeerPublicKey [1, 4], .startEvolution [4], .commitEvolution,
      .startEvolution [5]]
    (trace symbolic .fresh ops).map Call.reply = [.code 0, .code 0, .code 0, .code 0] ∧
      (kemCipherLen.run (Session.fresh.after symbolic ops)).1 = 33 ∧
      ExportMatches symbolic (trace symbolic .fresh ops) (Session.fresh.after symbolic ops) := by
  refine ⟨by decide +kernel, by decide +kernel, exported_ciphertext_matches _ _ ?_⟩
  refine undisturbed_cons False.elim (undisturbed_cons False.elim ?_)
  refine undisturbed_cons (fun _ => Or.inr ⟨_, List.mem_singleton_self _, by decide +kernel⟩) ?_
  exact undisturbed_cons False.elim undisturbed_nil

theorem not_exportMatches {calls : List Call} {pk kemCt ss : Bytes}
    (latest : latestOf (exportOf P) calls = some (pk, kemCt, ss))
    (exported : 0 < (kemCipherLen.run s).1)
    (other : s.pend ≠ some (derivePendingKey P ss s.curr)) : ¬ ExportMatches P calls s := by
  intro h
  obtain ⟨pk', ss', hlatest, hpend, -⟩ := h _ exported rfl
  rw [latest] at hlatest
  cases hlatest
  exact other hpend

def evolutionThen (op : SessionOp) : List SessionOp :=
  [.generateBobKeypair [9], .setPeerPublicKey [1, 4], .startEvolution [4], op]

/-- This call, made after an evolution was started, leaves its ciphertext exported
without the pending root. -/
def Strands (op : SessionOp) : Prop :=
  ¬ ExportMatches symbolic (trace symbolic .fresh (evolutionThen op))
    (Session.fresh.after symbolic (evolutionThen op))

theorem strands_of {op : SessionOp}
    (latest : latestOf (exportOf symbolic) (trace symbolic .fresh (evolutionThen op)) =
      some ([1, 4], 3 :: fit32 [4], fit32 [4]))
    (exported : 0 < (kemCipherLen.run (Session.fresh.after symbolic (evolutionThen op))).1)
    (other : (Session.fresh.after symbolic (evolutionThen op)).pend ≠
      some (derivePendingKey symbolic (fit32 [4])
        (Session.fresh.after symbolic (evolutionThen op)).curr)) : Strands op :=
  not_exportMatches latest exported other

def pendingWire : Bytes :=
  (encrypt symbolic [] (deriveMessageKeyFromRoot symbolic
    (derivePendingKey symbolic (fit32 [4]) zeros32) 1 5) ⟨[], false, 1, 5, 7⟩).getD []

theorem ciphertext_outlives_pending_root :
    Strands .commitEvolution ∧ Strands (.recoverAfterLoss 1) ∧
      Strands (.initialiseRootState sampleEntropy sampleEntropy [1, 4]) ∧
      Strands (.applyPeerKem (List.replicate 33 7)) ∧
      Strands (.tryDecryptWithEvolution pendingWire ⟨[], false, 1, 5, 7⟩) := by
  refine ⟨?_, ?_, ?_, ?_, ?_⟩
  · exact strands_of (by decide +kernel) (by decide +kernel) (by decide +kernel)
  · exact strands_of (by decide +kernel) (by decide +kernel) (by decide +kernel)
  · exact strands_of (by decide +kernel) (by decide +kernel) (by decide +kernel)
  · exact strands_of (by decide +kernel) (by decide +kernel) (by decide +kernel)
  · exact strands_of (by decide +kernel) (by decide +kernel) (by decide +kernel)

end SecureCore.KemExport
