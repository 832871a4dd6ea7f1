import SecureCore.SymbolicPrimitives
import SecureCore.TwoParty

/-! Rounds of the evolution protocol that end with an auto-commit. Alice
encapsulates, Bob applies the ciphertext, one of the two commits and sends, and
the other commits by decrypting. Around these steps both may send and decrypt
other traffic. Every round leaves both devices at one root, one epoch further. -/

namespace SecureCore.Convergence

open AtomicProgram Program RootState MessageCipher Evolution

def ProducedUnder (P : Primitives) (root : Key) (wire : Bytes) : Prop :=
  ∃ epoch msgSeq aad pt,
    P.aeadEncrypt (deriveMessageKeyFromRoot P root epoch msgSeq) (wire.take 12) aad pt =
      some (wire.drop 12)

/-- Traffic beside the round: sends, reads, and decryption of wires not produced
under the device's pending root. -/
def Chatter (P : Primitives) (s : Session) : SessionOp → Prop
  | .send _ _ _ _ => True
  | .msgCounterNext => True
  | .getEpochId => True
  | .deriveMessageKey _ _ => True
  | .getKemCipher _ => True
  | .kemCipherLen => True
  | .tryDecryptWithEvolution wire _ => ∀ pend ∈ s.pend, ¬ ProducedUnder P pend wire
  | _ => False

inductive ChatStep (P : Primitives) : World → World → Prop where
  | act {w : World} (p : Peer) (op : SessionOp) (chatter : Chatter P (w.session p) op) :
      ChatStep P w (w.act P p op)

def Chats (P : Primitives) : World → World → Prop := Relation.ReflTransGen (ChatStep P)

/-- One round from `w` up to the delivery of its message, with everything its
participants chose. -/
structure Round (P : Primitives) (w : World) where
  coins : Bytes
  capacity : Nat
  committer : Peer
  plaintext : Bytes
  idStamp : Bytes
  outgoing : Bool
  msgSeq : UInt64
  timestamp : UInt64
  wire : Bytes
  (w₁ w₂ w₃ w₄ w₅ : World)
  chatsBefore : Chats P w w₁
  started : ((SessionOp.startEvolution coins).exec P (w₁.session .alice)).1 = .code 0
  chatsStarted : Chats P (w₁.act P .alice (.startEvolution coins)) w₂
  fits : (kemCipherLen.run (w₂.session .alice)).1 ≤ capacity
  applied : ((SessionOp.applyPeerKem ((getKemCipher capacity).run (w₂.session .alice)).1).exec P
    (w₂.session .bob)).1 = .code 0
  chatsApplied : Chats P
    (w₂.act P .bob (.applyPeerKem ((getKemCipher capacity).run (w₂.session .alice)).1)) w₃
  chatsCommitted : Chats P (w₃.act P committer .commitEvolution) w₄
  sent : encrypt P plaintext
    ((deriveMessageKey P ((w.session .alice).epoch + 1) msgSeq).run (w₄.session committer)).1
    ⟨idStamp, outgoing, (w.session .alice).epoch + 1, msgSeq, timestamp⟩ = some wire
  chatsSent : Chats P w₄ w₅

variable {P : Primitives} {w w' : World}

def Round.receipt (r : Round P w) : SessionOp :=
  .tryDecryptWithEvolution r.wire
    ⟨r.idStamp, r.outgoing, (w.session .alice).epoch + 1, r.msgSeq, r.timestamp⟩

def Round.reply (r : Round P w) : Reply :=
  (r.receipt.exec P (r.w₅.session r.committer.other)).1

def Round.final (r : Round P w) : World := r.w₅.act P r.committer.other r.receipt

inductive Rounds (P : Primitives) : Nat → World → World → Prop where
  | zero (w : World) : Rounds P 0 w w
  | succ {n : Nat} {w w' : World} (rounds : Rounds P n w w') (round : Round P w') :
      Rounds P (n + 1) w round.final

/-- The devices agree on root and epoch, and Alice holds the public key of the
pair Bob generated. -/
structure Agreed (P : Primitives) (w : World) : Prop where
  curr : (w.session .alice).curr = (w.session .bob).curr
  epoch : (w.session .alice).epoch = (w.session .bob).epoch
  keys : ∃ coins, (w.session .bob).bobKeys = P.keypair coins ∧
    (w.session .alice).bobPublicKey = (P.keypair coins).1

def Quiet (s t : Session) : Prop := ∃ c, t = { s with msgCounter := c }

theorem Quiet.refl (s : Session) : Quiet s s := ⟨s.msgCounter, rfl⟩

theorem Quiet.trans {s t u : Session} (hst : Quiet s t) (htu : Quiet t u) : Quiet s u := by
  obtain ⟨c, rfl⟩ := hst
  obtain ⟨d, rfl⟩ := htu
  exact ⟨d, rfl⟩

theorem quiet_of_chatter (aead : P.AeadAuthentic) {s : Session} {op : SessionOp}
    (h : Chatter P s op) : Quiet s (op.exec P s).2 := by
  cases op with
  | send plaintext idStamp outgoing timestamp => exact ⟨s.msgCounter + 1, by simp⟩
  | msgCounterNext => exact ⟨s.msgCounter + 1, rfl⟩
  | tryDecryptWithEvolution wire header =>
    rcases tryDecryptWithEvolution_cases (P := P) wire header s with
      ⟨pt, -, hrun⟩ | ⟨pend, pt, -, -, hp, slow, -⟩ | hrun
    · simpa [hrun] using Quiet.refl s
    · exact absurd ⟨_, _, _, _, decrypt_produced aead slow⟩ (h pend hp)
    · simpa [hrun] using Quiet.refl s
  | getEpochId => exact Quiet.refl s
  | deriveMessageKey epoch msgSeq => exact Quiet.refl s
  | getKemCipher capacity => exact Quiet.refl s
  | kemCipherLen => exact Quiet.refl s
  | _ => exact h.elim

theorem quiet_of_chats (aead : P.AeadAuthentic) (h : Chats P w w') (p : Peer) :
    Quiet (w.session p) (w'.session p) := by
  induction h with
  | refl => exact Quiet.refl _
  | tail _ step ih =>
    obtain ⟨q, op, chatter⟩ := step
    refine ih.trans ?_
    by_cases hq : p = q
    · subst hq
      rw [World.act_session_self]
      exact quiet_of_chatter aead chatter
    · rw [World.act_session_of_ne _ _ hq]
      exact Quiet.refl _

/-- A device that still is where `s₀` was, with `root` pending. -/
structure Armed (s₀ : Session) (root : Key) (s : Session) : Prop where
  curr : s.curr = s₀.curr
  epoch : s.epoch = s₀.epoch
  pend : s.pend = some root
  bobKeys : s.bobKeys = s₀.bobKeys
  bobPublicKey : s.bobPublicKey = s₀.bobPublicKey

theorem Armed.quiet {s₀ s t : Session} {root : Key} (h : Armed s₀ root s) (hst : Quiet s t) :
    Armed s₀ root t := by
  obtain ⟨c, rfl⟩ := hst
  exact ⟨h.curr, h.epoch, h.pend, h.bobKeys, h.bobPublicKey⟩

theorem alice_armed {s t : Session} {coins : Bytes} (hst : Quiet s t)
    (started : ((SessionOp.startEvolution coins).exec P t).1 = .code 0) :
    ∃ kemCt ss, P.encapsulate s.bobPublicKey coins = some (kemCt, ss) ∧
      Armed s (derivePendingKey P ss s.curr) ((SessionOp.startEvolution coins).exec P t).2 ∧
      ((SessionOp.startEvolution coins).exec P t).2.kemCipher = some kemCt := by
  obtain ⟨c, rfl⟩ := hst
  rcases startEvolution_cases (P := P) coins { s with msgCounter := c } with
    ⟨kemCt, ss, -, henc, -, hrun⟩ | ⟨code, hcode, hrun⟩
  · refine ⟨kemCt, ss, henc, ?_, ?_⟩
    · simp only [SessionOp.exec_startEvolution, hrun]
      exact ⟨rfl, rfl, rfl, rfl, rfl⟩
    · simp [hrun]
  · simp [hrun, hcode] at started

theorem bob_armed {s t : Session} {kemCt ss : Bytes} (hst : Quiet s t)
    (hsecret : P.decapsulate kemCt s.bobKeys.2 = some ss)
    (applied : ((SessionOp.applyPeerKem kemCt).exec P t).1 = .code 0) :
    Armed s (derivePendingKey P ss s.curr) ((SessionOp.applyPeerKem kemCt).exec P t).2 := by
  obtain ⟨c, rfl⟩ := hst
  rcases applyPeerKem_cases (P := P) kemCt { s with msgCounter := c } with
    ⟨ss', -, hdec, -, hrun⟩ | ⟨code, hcode, hrun⟩
  · obtain rfl : ss = ss' := Option.some.inj (hsecret.symm.trans hdec)
    simp only [SessionOp.exec_applyPeerKem, hrun]
    exact ⟨rfl, rfl, rfl, rfl, rfl⟩
  · simp [hrun, hcode] at applied

theorem exchange_arms (aead : P.AeadAuthentic) (kem : P.KemCorrect) (agreed : Agreed P w)
    (r : Round P w) :
    ∃ ss, ∀ p, Armed (w.session p) (derivePendingKey P ss (w.session .alice).curr)
      (r.w₃.session p) := by
  obtain ⟨kemCt, ss, henc, armed, hcipher⟩ :=
    alice_armed (quiet_of_chats aead r.chatsBefore .alice) r.started
  have started := quiet_of_chats aead r.chatsStarted
  have applied := quiet_of_chats aead r.chatsApplied
  have offered : ((getKemCipher r.capacity).run (r.w₂.session .alice)).1 = kemCt := by
    have fits := r.fits
    obtain ⟨c, hc⟩ := started .alice
    rw [World.act_session_self] at hc
    rw [hc] at fits ⊢
    simp only [kemCipherLen, run_atomic, hcipher, Option.elim_some] at fits
    simp only [run_getKemCipher, hcipher, Nat.min_eq_left fits, List.take_length]
  refine ⟨ss, fun p => ?_⟩
  cases p with
  | alice =>
    refine Armed.quiet ?_ (applied .alice)
    rw [World.act_session_of_ne _ _ (by decide)]
    refine Armed.quiet ?_ (started .alice)
    rw [World.act_session_self]
    exact armed
  | bob =>
    obtain ⟨keyCoins, hkeys, hpublic⟩ := agreed.keys
    rw [hpublic] at henc
    have hsecret : P.decapsulate kemCt (w.session .bob).bobKeys.2 = some ss := by
      rw [hkeys]
      exact kem keyCoins henc
    have hquiet : Quiet (w.session .bob) (r.w₂.session .bob) := by
      refine (quiet_of_chats aead r.chatsBefore .bob).trans ?_
      have hbob := started .bob
      rwa [World.act_session_of_ne _ _ (by decide)] at hbob
    refine Armed.quiet ?_ (applied .bob)
    rw [World.act_session_self, agreed.curr]
    refine bob_armed hquiet ?_ r.applied
    rw [offered]
    exact hsecret

/-- The message keys after an evolution are not those before it. -/
def RenewsKeys (P : Primitives) : Prop :=
  ∀ (ss root : Key) (epoch : UInt32) (msgSeq : UInt64),
    deriveMessageKeyFromRoot P (derivePendingKey P ss root) epoch msgSeq ≠
      deriveMessageKeyFromRoot P root epoch msgSeq

theorem renewsKeys_of_injective (hkdf : P.HkdfInjective) (moves : P.HkdfMoves) : RenewsKeys P := by
  intro ss root epoch msgSeq hsame
  exact moves ss root _ (messageKeysDistinct_of_injective hkdf Set.univ trivial trivial hsame).1

theorem armed_receives (correct : P.AeadCorrect) (aead : P.AeadAuthentic) {s₀ s : Session}
    {root : Key} (armed : Armed s₀ root s) {pt wire : Bytes} {h : Header}
    (renewed : deriveMessageKeyFromRoot P root h.epoch h.msgSeq ≠
      deriveMessageKeyFromRoot P s₀.curr h.epoch h.msgSeq) (hepoch : h.epoch = s₀.epoch + 1)
    (sent : encrypt P pt (deriveMessageKeyFromRoot P root h.epoch h.msgSeq) h = some wire) :
    (tryDecryptWithEvolution P wire h).run s = (some (pt, true), promoted s root) := by
  have hkey : deriveMessageKeyFromRoot P s.curr h.epoch h.msgSeq ≠
      deriveMessageKeyFromRoot P root h.epoch h.msgSeq := by
    rw [armed.curr]
    exact renewed.symm
  have fast := decrypt_other_key aead sent hkey h
  have slow := decrypt_encrypt correct sent
  have ahead : h.epoch = s.epoch + 1 := by rw [hepoch, armed.epoch]
  rw [ahead] at fast slow
  simp [tryDecryptWithEvolution, fast, ahead, armed.pend, slow,
    run_commitEvolution_some armed.pend]

structure Advanced (s₀ : Session) (root : Key) (s : Session) : Prop where
  curr : s.curr = root
  epoch : s.epoch = s₀.epoch + 1
  pend : s.pend = none
  bobKeys : s.bobKeys = s₀.bobKeys
  bobPublicKey : s.bobPublicKey = s₀.bobPublicKey

theorem Advanced.quiet {s₀ s t : Session} {root : Key} (h : Advanced s₀ root s)
    (hst : Quiet s t) : Advanced s₀ root t := by
  obtain ⟨c, rfl⟩ := hst
  exact ⟨h.curr, h.epoch, h.pend, h.bobKeys, h.bobPublicKey⟩

theorem Armed.advance {s₀ s : Session} {root : Key} (h : Armed s₀ root s) :
    Advanced s₀ root (promoted s root) :=
  ⟨rfl, by simp [promoted, h.epoch], rfl, h.bobKeys, h.bobPublicKey⟩

theorem Agreed.curr_eq (agreed : Agreed P w) (p : Peer) :
    (w.session p).curr = (w.session .alice).curr := by
  cases p with
  | alice => rfl
  | bob => exact agreed.curr.symm

theorem Agreed.epoch_eq (agreed : Agreed P w) (p : Peer) :
    (w.session p).epoch = (w.session .alice).epoch := by
  cases p with
  | alice => rfl
  | bob => exact agreed.epoch.symm

theorem committer_advanced (aead : P.AeadAuthentic) (r : Round P w) {root : Key}
    (armed : Armed (w.session r.committer) root (r.w₃.session r.committer)) :
    Advanced (w.session r.committer) root (r.w₄.session r.committer) := by
  refine Advanced.quiet ?_ (quiet_of_chats aead r.chatsCommitted r.committer)
  rw [World.act_session_self, SessionOp.exec_commitEvolution, run_commitEvolution_some armed.pend]
  exact armed.advance

theorem receiver_armed (aead : P.AeadAuthentic) (r : Round P w) {root : Key}
    (armed : Armed (w.session r.committer.other) root (r.w₃.session r.committer.other)) :
    Armed (w.session r.committer.other) root (r.w₅.session r.committer.other) := by
  refine Armed.quiet (Armed.quiet ?_ (quiet_of_chats aead r.chatsCommitted _))
    (quiet_of_chats aead r.chatsSent _)
  rw [World.act_session_of_ne _ _ (Peer.other_ne _)]
  exact armed

theorem round_converges (correct : P.AeadCorrect) (aead : P.AeadAuthentic) (kem : P.KemCorrect)
    (renews : RenewsKeys P) (agreed : Agreed P w) (r : Round P w) :
    r.reply = .opened (some (r.plaintext, true)) ∧
      (∃ root, ∀ p, Advanced (w.session p) root (r.final.session p)) ∧
      (r.final.session r.committer.other).msgCounter = 1 := by
  obtain ⟨ss, armed⟩ := exchange_arms aead kem agreed r
  have sender := committer_advanced aead r (armed _)
  have receiver := receiver_armed aead r (armed _)
  have sent := r.sent
  rw [run_deriveMessageKey, sender.curr] at sent
  have hrun := armed_receives correct aead receiver
    (by rw [agreed.curr_eq r.committer.other]; exact renews _ _ _ _)
    (congrArg (· + 1) (agreed.epoch_eq _).symm) sent
  have hreceived : r.final.session r.committer.other = promoted (r.w₅.session r.committer.other)
      (derivePendingKey P ss (w.session .alice).curr) := by
    rw [Round.final, World.act_session_self, Round.receipt,
      SessionOp.exec_tryDecryptWithEvolution, hrun]
  refine ⟨?_, ⟨derivePendingKey P ss (w.session .alice).curr, fun p => ?_⟩, ?_⟩
  · rw [Round.reply, Round.receipt, SessionOp.exec_tryDecryptWithEvolution, hrun]
  · rcases Peer.eq_or_eq_other r.committer p with rfl | rfl
    · rw [Round.final, World.act_session_of_ne _ _ (Ne.symm (Peer.other_ne _))]
      exact sender.quiet (quiet_of_chats aead r.chatsSent _)
    · rw [hreceived]
      exact receiver.advance
  · rw [hreceived]
    rfl

theorem agreed_of_advanced {root : Key} (agreed : Agreed P w)
    (advanced : ∀ p, Advanced (w.session p) root (w'.session p)) : Agreed P w' := by
  obtain ⟨coins, hkeys, hpublic⟩ := agreed.keys
  refine ⟨?_, ?_, coins, ?_, ?_⟩
  · rw [(advanced .alice).curr, (advanced .bob).curr]
  · rw [(advanced .alice).epoch, (advanced .bob).epoch, agreed.epoch]
  · rw [(advanced .bob).bobKeys, hkeys]
  · rw [(advanced .alice).bobPublicKey, hpublic]

theorem toNat_succ {e : UInt32} (h : e.toNat + 1 < 2 ^ 32) : (e + 1).toNat = e.toNat + 1 := by
  rw [UInt32.toNat_add]
  exact Nat.mod_eq_of_lt h

section Rounds

variable {n : Nat} (correct : P.AeadCorrect) (aead : P.AeadAuthentic) (kem : P.KemCorrect)
  (renews : RenewsKeys P)

include correct aead kem renews

theorem agreed_of_rounds (agreed : Agreed P w) (rounds : Rounds P n w w')
    (bound : (w.session .alice).epoch.toNat + n < 2 ^ 32) :
    Agreed P w' ∧ (w'.session .alice).epoch.toNat = (w.session .alice).epoch.toNat + n := by
  induction rounds with
  | zero w => exact ⟨agreed, rfl⟩
  | succ rounds round ih =>
    obtain ⟨hagreed, hepoch⟩ := ih agreed (by omega)
    obtain ⟨-, ⟨root, advanced⟩, -⟩ :=
      round_converges correct aead kem renews hagreed round
    refine ⟨agreed_of_advanced hagreed advanced, ?_⟩
    rw [(advanced .alice).epoch, toNat_succ (by omega), hepoch]
    omega

/-- After any number of rounds from an agreement, the next round's receiver gets
the plaintext and commits, and both devices are at one root, one epoch further,
with nothing pending. -/
theorem rounds_converge (agreed : Agreed P w) (rounds : Rounds P n w w') (round : Round P w')
    (bound : (w.session .alice).epoch.toNat + (n + 1) < 2 ^ 32) :
    round.reply = .opened (some (round.plaintext, true)) ∧
      (round.final.session .alice).curr = (round.final.session .bob).curr ∧
      (∀ p, (round.final.session p).epoch.toNat = (w.session .alice).epoch.toNat + (n + 1) ∧
        (round.final.session p).pend = none) ∧
      (round.final.session round.committer.other).msgCounter = 1 := by
  obtain ⟨hagreed, hepoch⟩ :=
    agreed_of_rounds correct aead kem renews agreed rounds (by omega)
  obtain ⟨hreply, ⟨root, advanced⟩, hcounter⟩ :=
    round_converges correct aead kem renews hagreed round
  refine ⟨hreply, (agreed_of_advanced hagreed advanced).curr, fun p => ⟨?_, (advanced p).pend⟩,
    hcounter⟩
  have hp : (w'.session p).epoch.toNat = (w.session .alice).epoch.toNat + n := by
    rw [hagreed.epoch_eq, hepoch]
  rw [(advanced p).epoch, toNat_succ (by omega), hp]
  omega

end Rounds

/-! Two rounds: Alice commits in the first, Bob in the second. -/

def paired : World :=
  World.start fun
    | .alice => { Session.fresh with bobPublicKey := [1, 4] }
    | .bob => { Session.fresh with bobKeys := SymbolicPrimitives.symbolic.keypair [4] }

theorem paired_agreed : Agreed SymbolicPrimitives.symbolic paired :=
  ⟨rfl, rfl, [4], rfl, rfl⟩

def afterStart (w : World) (coins : Bytes) : World :=
  w.act SymbolicPrimitives.symbolic .alice (.startEvolution coins)

def afterApply (w : World) (coins : Bytes) : World :=
  (afterStart w coins).act SymbolicPrimitives.symbolic .bob
    (.applyPeerKem ((getKemCipher 33).run ((afterStart w coins).session .alice)).1)

def afterCommit (w : World) (coins : Bytes) (committer : Peer) : World :=
  (afterApply w coins).act SymbolicPrimitives.symbolic committer .commitEvolution

def message (w : World) (coins : Bytes) (committer : Peer) : Option Bytes :=
  encrypt SymbolicPrimitives.symbolic [111]
    ((deriveMessageKey SymbolicPrimitives.symbolic ((w.session .alice).epoch + 1) 1).run
      ((afterCommit w coins committer).session committer)).1
    ⟨[], true, (w.session .alice).epoch + 1, 1, 1000⟩

def directRound (w : World) (coins : Bytes) (committer : Peer)
    (started : ((SessionOp.startEvolution coins).exec SymbolicPrimitives.symbolic
      (w.session .alice)).1 = .code 0)
    (fits : (kemCipherLen.run ((afterStart w coins).session .alice)).1 ≤ 33)
    (applied : ((SessionOp.applyPeerKem
      ((getKemCipher 33).run ((afterStart w coins).session .alice)).1).exec
        SymbolicPrimitives.symbolic ((afterStart w coins).session .bob)).1 = .code 0) :
    Round SymbolicPrimitives.symbolic w where
  coins := coins
  capacity := 33
  committer := committer
  plaintext := [111]
  idStamp := []
  outgoing := true
  msgSeq := 1
  timestamp := 1000
  wire := (message w coins committer).getD []
  w₁ := w
  w₂ := afterStart w coins
  w₃ := afterApply w coins
  w₄ := afterCommit w coins committer
  w₅ := afterCommit w coins committer
  chatsBefore := .refl
  started := started
  chatsStarted := .refl
  fits := fits
  applied := applied
  chatsApplied := .refl
  chatsCommitted := .refl
  sent := rfl
  chatsSent := .refl

def firstRound : Round SymbolicPrimitives.symbolic paired :=
  directRound paired [5] .alice (by decide +kernel) (by decide +kernel) (by decide +kernel)

def secondRound : Round SymbolicPrimitives.symbolic firstRound.final :=
  directRound firstRound.final [6] .bob (by decide +kernel) (by decide +kernel)
    (by decide +kernel)

theorem rounds_converge_secondRound :
    secondRound.reply = .opened (some ([111], true)) ∧
      (secondRound.final.session .alice).curr = (secondRound.final.session .bob).curr ∧
      (secondRound.final.session .alice).epoch.toNat = 2 := by
  obtain ⟨hreply, hcurr, hepoch, -⟩ := rounds_converge SymbolicPrimitives.symbolic_aeadCorrect
    SymbolicPrimitives.symbolic_aeadAuthentic SymbolicPrimitives.symbolic_kemCorrect
    (renewsKeys_of_injective SymbolicPrimitives.symbolic_hkdfInjective
      SymbolicPrimitives.symbolic_hkdfMoves)
    paired_agreed (.succ (.zero paired) firstRound) secondRound (by decide)
  exact ⟨hreply, hcurr, (hepoch .alice).1⟩

end SecureCore.Convergence
