import SecureCore.SymbolicPrimitives
import SecureCore.TwoParty

/-! When two paired devices at the same epoch hold the same root. An epoch is
entered by promoting a pending root or by rolling the current one, and nothing
in the code makes the two devices enter an epoch the same way. A journal of each
device's moves determines its root; devices whose moves agree hold equal roots. -/

namespace SecureCore.RootAgreement

open AtomicProgram Program RootState MessageCipher Evolution AntiDos

def emitted (p : Peer) (history : List (Peer × Call)) : List Bytes :=
  history.filterMap fun (q, call) =>
    match call.op, call.reply with
    | .startEvolution _, .code 0 => if q = p then call.after.kemCipher else none
    | _, _ => none

def wires (p : Peer) (history : List (Peer × Call)) : List Bytes :=
  history.filterMap fun (q, call) =>
    match call.reply with
    | .sent _ _ wire => if q = p then wire else none
    | _ => none

/-- What a device may do next. Ciphertexts and wires of the other device arrive
any number of times in any order, wires under any header, and recovery is asked
for the other device's epoch. -/
def Admissible (w : World) (p : Peer) : SessionOp → Prop
  | .startEvolution _ => True
  | .applyPeerKem kemCt => kemCt ∈ emitted p.other w.history
  | .commitEvolution => True
  | .tryDecryptWithEvolution wire _ => wire ∈ wires p.other w.history
  | .recoverAfterLoss target => target = (w.session p.other).epoch
  | .send _ _ _ _ => True
  | _ => False

inductive Step (P : Primitives) : World → World → Prop where
  | act {w : World} (p : Peer) (op : SessionOp) (admissible : Admissible w p op) :
      Step P w (w.act P p op)

instance (w : World) (p : Peer) : (op : SessionOp) → Decidable (Admissible w p op)
  | .startEvolution _ => isTrue trivial
  | .applyPeerKem kemCt => inferInstanceAs (Decidable (kemCt ∈ emitted p.other w.history))
  | .commitEvolution => isTrue trivial
  | .tryDecryptWithEvolution wire _ =>
    inferInstanceAs (Decidable (wire ∈ wires p.other w.history))
  | .recoverAfterLoss target =>
    inferInstanceAs (Decidable (target = (w.session p.other).epoch))
  | .send _ _ _ _ => isTrue trivial
  | .initialiseRootState _ _ _ => isFalse id
  | .generateBobKeypair _ => isFalse id
  | .setPeerPublicKey _ => isFalse id
  | .getKemCipher _ => isFalse id
  | .kemCipherLen => isFalse id
  | .getEpochId => isFalse id
  | .msgCounterNext => isFalse id
  | .deriveMessageKey _ _ => isFalse id

def admissibleRun (P : Primitives) : World → List (Peer × SessionOp) → Bool
  | _, [] => true
  | w, action :: rest =>
    Admissible w action.1 action.2 && admissibleRun P (w.act P action.1 action.2) rest

theorem steps_of_admissibleRun {P : Primitives} {w : World} {actions : List (Peer × SessionOp)}
    (h : admissibleRun P w actions = true) :
    Relation.ReflTransGen (Step P) w (w.run P actions) := by
  induction actions generalizing w with
  | nil => exact .refl
  | cons action rest ih =>
    simp only [admissibleRun, Bool.and_eq_true, decide_eq_true_eq] at h
    exact .head (.act action.1 action.2 h.1) (ih h.2)

def Reachable (P : Primitives) (alice bob bobPk : Bytes) (session : Peer → Session) :
    World → Prop :=
  Relation.ReflTransGen (Step P) (World.start (initialised P alice bob bobPk session))

/-- The public key a device holds, if any, belongs to the pair the other generated. -/
def Paired (P : Primitives) (session : Peer → Session) : Prop :=
  ∀ p, (session p).bobPublicKey = [] ∨ ∃ coins, (session p.other).bobKeys = P.keypair coins ∧
    (session p).bobPublicKey = (P.keypair coins).1

/-- Where a pending root comes from: who encapsulated, the ciphertext, and how
many moves the device had made when it derived the root. -/
structure Origin where
  initiator : Peer
  kemCt : Bytes
  derivedIn : Nat
  deriving DecidableEq, Repr

inductive Move where
  | roll
  | promote (origin : Origin)
  deriving DecidableEq, Repr

structure Journal where
  moves : List Move
  pending : Option Origin
  deriving DecidableEq, Repr

def Journal.observe (p : Peer) (j : Journal) (call : Call) : Journal :=
  match call.op with
  | .startEvolution _ =>
    if call.reply = .code 0 then
      { j with pending := some ⟨p, call.after.kemCipher.getD [], j.moves.length⟩ }
    else j
  | .applyPeerKem kemCt =>
    if call.reply = .code 0 then
      { j with pending := some ⟨p.other, kemCt, j.moves.length⟩ }
    else j
  | .recoverAfterLoss _ =>
    { j with
      moves := j.moves ++ List.replicate (call.after.epoch - call.before.epoch).toNat .roll }
  | _ =>
    if call.after.epoch = call.before.epoch then j
    else ⟨j.moves ++ (j.pending.map .promote).toList, none⟩

def journal (p : Peer) (history : List (Peer × Call)) : Journal :=
  history.foldl (fun j entry => if entry.1 = p then j.observe p entry.2 else j) ⟨[], none⟩

/-- Where both devices have made their `k`-th move, it was the same move. -/
def MovesMatched (history : List (Peer × Call)) : Prop :=
  ∀ k : Nat, ∀ m ∈ (journal .alice history).moves[k]?,
    ∀ m' ∈ (journal .bob history).moves[k]?, m = m'

section Roots

variable (P : Primitives) (secretKey : Peer → Bytes) (root : Key)

def secret (o : Origin) : Key :=
  (P.decapsulate o.kemCt (secretKey o.initiator.other)).getD []

def pendingRoot (roots : List Key) (o : Origin) : Key :=
  derivePendingKey P (secret P secretKey o) (roots.getD o.derivedIn [])

def nextRoot (roots : List Key) : Move → Key
  | .roll => rollKey P (roots.getLast?.getD [])
  | .promote o => pendingRoot P secretKey roots o

def roots (moves : List Move) : List Key :=
  moves.foldl (fun roots m => roots ++ [nextRoot P secretKey roots m]) [root]

variable {P secretKey root}

theorem roots_concat (moves : List Move) (m : Move) :
    roots P secretKey root (moves ++ [m]) =
      roots P secretKey root moves ++ [nextRoot P secretKey (roots P secretKey root moves) m] := by
  simp [roots]

@[simp] theorem roots_length (moves : List Move) :
    (roots P secretKey root moves).length = moves.length + 1 := by
  induction moves using List.reverseRecOn with
  | nil => rfl
  | append_singleton moves m ih => simp [roots_concat, ih]

theorem pendingRoot_concat {moves : List Move} {o : Origin} (h : o.derivedIn ≤ moves.length)
    (m : Move) :
    pendingRoot P secretKey (roots P secretKey root (moves ++ [m])) o =
      pendingRoot P secretKey (roots P secretKey root moves) o := by
  have hlt : o.derivedIn < (roots P secretKey root moves).length := by
    rw [roots_length]
    omega
  simp only [pendingRoot, roots_concat, List.getD_eq_getElem?_getD,
    List.getElem?_append_left hlt]

end Roots

section Follows

variable {P : Primitives} {session : Peer → Session} {root : Key} {p : Peer} {s : Session}
  {j : Journal}

def secretKeyOf (session : Peer → Session) (p : Peer) : Bytes := (session p).bobKeys.2

/-- A device's slots are the ones its journal determines; its keys are those it
was set up with. -/
structure Follows (P : Primitives) (session : Peer → Session) (root : Key) (p : Peer)
    (s : Session) (j : Journal) : Prop where
  epoch : s.epoch = UInt32.ofNat j.moves.length
  curr : (roots P (secretKeyOf session) root j.moves).getLast? = some s.curr
  pend : s.pend = j.pending.map
    (pendingRoot P (secretKeyOf session) (roots P (secretKeyOf session) root j.moves))
  derived : ∀ o ∈ j.pending, o.derivedIn ≤ j.moves.length
  bobKeys : s.bobKeys = (session p).bobKeys
  bobPublicKey : s.bobPublicKey = (session p).bobPublicKey

theorem Follows.getD_curr (h : Follows P session root p s j) :
    (roots P (secretKeyOf session) root j.moves).getD j.moves.length [] = s.curr := by
  have hlast := h.curr
  rw [List.getLast?_eq_getElem?, roots_length, Nat.add_sub_cancel] at hlast
  rw [List.getD_eq_getElem?_getD, hlast, Option.getD_some]

theorem Follows.counter (h : Follows P session root p s j) (c : UInt64) :
    Follows P session root p { s with msgCounter := c } j :=
  ⟨h.epoch, h.curr, h.pend, h.derived, h.bobKeys, h.bobPublicKey⟩

theorem Follows.roll (h : Follows P session root p s j) :
    Follows P session root p (rolled s (rollKey P s.curr))
      { j with moves := j.moves ++ [.roll] } := by
  refine ⟨?_, ?_, ?_, fun o ho => ?_, h.bobKeys, h.bobPublicKey⟩
  · simp [rolled, h.epoch, UInt32.ofNat_add]
  · simp [roots_concat, nextRoot, h.curr, rolled]
  · change s.pend = _
    rw [h.pend]
    refine Option.map_congr fun o ho => ?_
    exact (pendingRoot_concat (h.derived o ho) _).symm
  · have := h.derived o ho
    simp only [List.length_append, List.length_singleton]
    omega

theorem Follows.rolledBy (h : Follows P session root p s j) (n : Nat) :
    Follows P session root p (AntiDos.rolledBy P n s)
      { j with moves := j.moves ++ List.replicate n .roll } := by
  induction n generalizing s j with
  | zero => simpa [AntiDos.rolledBy] using h
  | succ n ih => simpa [AntiDos.rolledBy, List.replicate_succ] using ih h.roll

theorem Follows.promote (h : Follows P session root p s j) {key : Key}
    (hpend : s.pend = some key) :
    Follows P session root p (promoted s key)
      ⟨j.moves ++ (j.pending.map .promote).toList, none⟩ := by
  obtain ⟨o, ho, rfl⟩ := Option.map_eq_some_iff.mp (h.pend.symm.trans hpend)
  refine ⟨?_, ?_, rfl, by simp, h.bobKeys, h.bobPublicKey⟩
  · simp [promoted, h.epoch, ho, UInt32.ofNat_add]
  · simp [roots_concat, nextRoot, ho, promoted]

theorem Follows.install (h : Follows P session root p s j) {initiator : Peer}
    {kemCt ss : Bytes} (cipher : Option Bytes)
    (hsecret : P.decapsulate kemCt (secretKeyOf session initiator.other) = some ss) :
    Follows P session root p
      { s with pend := some (derivePendingKey P ss s.curr), kemCipher := cipher }
      { j with pending := some ⟨initiator, kemCt, j.moves.length⟩ } := by
  refine ⟨h.epoch, h.curr, ?_, by simp, h.bobKeys, h.bobPublicKey⟩
  rw [Option.map_some, pendingRoot, secret, hsecret, h.getD_curr, Option.getD_some]

theorem Paired.decapsulate (kem : P.KemCorrect) (paired : Paired P session)
    {coins kemCt ss : Bytes} (hpk : (session p).bobPublicKey ≠ [])
    (henc : P.encapsulate (session p).bobPublicKey coins = some (kemCt, ss)) :
    P.decapsulate kemCt (secretKeyOf session p.other) = some ss := by
  obtain ⟨keyCoins, hkeys, hpublic⟩ := (paired p).resolve_left hpk
  rw [hpublic] at henc
  rw [secretKeyOf, hkeys]
  exact kem keyCoins henc

theorem recover_follows (h : Follows P session root p s j) (target : UInt32) :
    Follows P session root p ((SessionOp.recoverAfterLoss target).exec P s).2
      (j.observe p ((SessionOp.recoverAfterLoss target).call P s)) := by
  have stays : ∀ t : Session, t = s → Follows P session root p t
      { j with moves := j.moves ++ List.replicate (t.epoch - s.epoch).toNat .roll } := by
    rintro t rfl
    simpa using h
  simp only [Journal.observe, SessionOp.call, SessionOp.exec_recoverAfterLoss,
    run_recoverAfterLoss]
  split_ifs with behind far
  · exact stays s rfl
  · exact stays s rfl
  · have hgap : ((AntiDos.rolledBy P (target - s.epoch).toNat s).epoch - s.epoch).toNat =
        (target - s.epoch).toNat := by
      rw [rolledBy_epoch, UInt32.ofNat_toNat, UInt32.add_comm s.epoch,
        UInt32.add_sub_cancel]
    rw [hgap]
    exact h.rolledBy _

theorem Follows.observe (kem : P.KemCorrect) (paired : Paired P session)
    (h : Follows P session root p s j) {w : World} {op : SessionOp}
    (admissible : Admissible w p op) :
    Follows P session root p (op.exec P s).2 (j.observe p (op.call P s)) := by
  cases op with
  | startEvolution coins =>
    rcases startEvolution_cases (P := P) coins s with
      ⟨kemCt, ss, hpk, henc, -, hrun⟩ | ⟨code, hcode, hrun⟩
    · rw [h.bobPublicKey] at hpk henc
      simpa [Journal.observe, SessionOp.call, hrun] using
        h.install (some kemCt) (Paired.decapsulate kem paired hpk henc)
    · simpa [Journal.observe, SessionOp.call, hrun, hcode] using h
  | applyPeerKem kemCt =>
    rcases applyPeerKem_cases (P := P) kemCt s with
      ⟨ss, -, hdec, -, hrun⟩ | ⟨code, hcode, hrun⟩
    · have hsecret : P.decapsulate kemCt (secretKeyOf session p.other.other) = some ss := by
        rw [Peer.other_other, secretKeyOf, ← h.bobKeys]
        exact hdec
      simpa [Journal.observe, SessionOp.call, hrun] using
        h.install s.kemCipher hsecret
    · simpa [Journal.observe, SessionOp.call, hrun, hcode] using h
  | commitEvolution =>
    cases hp : s.pend with
    | none => simpa [Journal.observe, SessionOp.call, run_commitEvolution_none hp] using h
    | some key =>
      have hchanged : ¬ (promoted s key).epoch = s.epoch := by simp [promoted]
      simpa [Journal.observe, SessionOp.call, run_commitEvolution_some hp, hchanged] using
        h.promote hp
  | tryDecryptWithEvolution wire header =>
    rcases tryDecryptWithEvolution_cases (P := P) wire header s with
      ⟨pt, -, hrun⟩ | ⟨key, pt, -, -, hp, -, hrun⟩ | hrun
    · simpa [Journal.observe, SessionOp.call, hrun] using h
    · have hchanged : ¬ (promoted s key).epoch = s.epoch := by simp [promoted]
      simpa [Journal.observe, SessionOp.call, hrun, hchanged] using h.promote hp
    · simpa [Journal.observe, SessionOp.call, hrun] using h
  | recoverAfterLoss target => exact recover_follows h target
  | send plaintext idStamp outgoing timestamp =>
    simpa [Journal.observe, SessionOp.call] using h.counter _
  | _ => exact admissible.elim

end Follows

section Runs

variable {P : Primitives} {alice bob bobPk : Bytes} {session : Peer → Session} {w : World}

theorem journal_act (w : World) (p q : Peer) (op : SessionOp) :
    journal q (w.act P p op).history =
      if p = q then (journal q w.history).observe q (op.call P (w.session p))
      else journal q w.history := by
  simp [journal, World.act]

theorem follows_of_reachable (kem : P.KemCorrect)
    (ok : ∀ p, ((InitModule.initialiseRootState P alice bob bobPk).run (session p)).1 = 0)
    (noPend : ∀ p, (session p).pend = none) (paired : Paired P session)
    (reach : Reachable P alice bob bobPk session w) (p : Peer) :
    Follows P session (InitModule.initialRoot P alice bob) p (w.session p)
      (journal p w.history) := by
  induction reach with
  | refl =>
    have hinit := InitModule.initialiseRootState_ok (ok p)
    constructor <;> simp [World.start, initialised, hinit, journal, roots, noPend p]
  | tail _ step ih =>
    obtain ⟨q, op, admissible⟩ := step
    rw [journal_act]
    by_cases hq : q = p
    · subst hq
      rw [if_pos rfl, World.act_session_self]
      exact ih.observe kem paired admissible
    · rw [if_neg hq, World.act_session_of_ne _ _ (Ne.symm hq)]
      exact ih

/-- Two devices initialised alike that enter every epoch they share by the same
move, a roll or the promotion of a root derived from the same KEM exchange in
the same epoch, hold the same root whenever they are at the same epoch. -/
theorem roots_agree_of_moves_matched (kem : P.KemCorrect)
    (ok : ∀ p, ((InitModule.initialiseRootState P alice bob bobPk).run (session p)).1 = 0)
    (noPend : ∀ p, (session p).pend = none) (paired : Paired P session)
    (reach : Reachable P alice bob bobPk session w)
    (matched : MovesMatched w.history)
    (unwrapped : ∀ p, (journal p w.history).moves.length < 2 ^ 32)
    (sameEpoch : (w.session .alice).epoch = (w.session .bob).epoch) :
    (w.session .alice).curr = (w.session .bob).curr := by
  have hA := follows_of_reachable kem ok noPend paired reach .alice
  have hB := follows_of_reachable kem ok noPend paired reach .bob
  have hlength : (journal .alice w.history).moves.length =
      (journal .bob w.history).moves.length := by
    rw [hA.epoch, hB.epoch] at sameEpoch
    have htoNat := congrArg UInt32.toNat sameEpoch
    rwa [UInt32.toNat_ofNat_of_lt' (unwrapped _), UInt32.toNat_ofNat_of_lt' (unwrapped _)]
      at htoNat
  have hmoves : (journal .alice w.history).moves = (journal .bob w.history).moves := by
    refine List.ext_getElem hlength fun k hk hk' => ?_
    exact matched k _ (List.getElem?_eq_getElem hk) _ (List.getElem?_eq_getElem hk')
  have hlast := hA.curr
  rw [hmoves, hB.curr] at hlast
  exact (Option.some.inj hlast).symm

end Runs

/-! Alice holds the public key of the pair Bob generated. -/

def provisioned : Peer → Session
  | .alice => { Session.fresh with bobPublicKey := [1, 4] }
  | .bob => { Session.fresh with bobKeys := SymbolicPrimitives.symbolic.keypair [4] }

theorem provisioned_paired : Paired SymbolicPrimitives.symbolic provisioned := by
  intro p
  cases p with
  | alice => exact Or.inr ⟨[4], rfl, rfl⟩
  | bob => exact Or.inl rfl

theorem provisioned_initialises (p : Peer) :
    ((InitModule.initialiseRootState SymbolicPrimitives.symbolic sampleEntropy sampleEntropy
      [1, 4]).run (provisioned p)).1 = 0 := by
  cases p <;> decide +kernel

def provisionedAfter (actions : List (Peer × SessionOp)) : World :=
  (World.start (initialised SymbolicPrimitives.symbolic sampleEntropy sampleEntropy [1, 4]
    provisioned)).run SymbolicPrimitives.symbolic actions

theorem provisionedAfter_reachable {actions : List (Peer × SessionOp)}
    (h : admissibleRun SymbolicPrimitives.symbolic (World.start (initialised
      SymbolicPrimitives.symbolic sampleEntropy sampleEntropy [1, 4] provisioned)) actions = true) :
    Reachable SymbolicPrimitives.symbolic sampleEntropy sampleEntropy [1, 4] provisioned
      (provisionedAfter actions) :=
  steps_of_admissibleRun h

def bothCommit : List (Peer × SessionOp) :=
  [(.alice, .startEvolution [5]), (.bob, .applyPeerKem (3 :: SymbolicPrimitives.fit32 [5])),
    (.alice, .commitEvolution), (.bob, .commitEvolution)]

theorem roots_agree_of_moves_matched_bothCommit :
    ((provisionedAfter bothCommit).session .alice).epoch = 1 ∧
      ((provisionedAfter bothCommit).session .alice).curr =
        ((provisionedAfter bothCommit).session .bob).curr := by
  refine ⟨by decide +kernel, ?_⟩
  have sameMoves : (journal .alice (provisionedAfter bothCommit).history).moves =
      (journal .bob (provisionedAfter bothCommit).history).moves := by decide +kernel
  refine roots_agree_of_moves_matched SymbolicPrimitives.symbolic_kemCorrect
    provisioned_initialises (fun p => by cases p <;> rfl) provisioned_paired
    (provisionedAfter_reachable (by decide +kernel)) (fun k m hm m' hm' => ?_)
    (fun p => by cases p <;> decide +kernel) (by decide +kernel)
  rw [sameMoves] at hm
  exact Option.some.inj (hm.symm.trans hm')

theorem recovery_past_lost_kem_splits_roots :
    (∀ p, ((InitModule.initialiseRootState SymbolicPrimitives.symbolic sampleEntropy
      sampleEntropy [1, 4]).run (provisioned p)).1 = 0) ∧
    Paired SymbolicPrimitives.symbolic provisioned ∧
    ∃ w, Reachable SymbolicPrimitives.symbolic sampleEntropy sampleEntropy [1, 4] provisioned w ∧
      (w.session .alice).epoch = (w.session .bob).epoch ∧
      (w.session .alice).curr ≠ (w.session .bob).curr := by
  -- Alice commits an exchange whose ciphertext is lost, and Bob recovers to her epoch by
  -- rolling: one epoch, two roots.
  refine ⟨provisioned_initialises, provisioned_paired,
    provisionedAfter [(.alice, .startEvolution [5]), (.alice, .commitEvolution),
      (.bob, .recoverAfterLoss 1)], provisionedAfter_reachable ?_, ?_, ?_⟩
  · decide +kernel
  · decide +kernel
  · decide +kernel

end SecureCore.RootAgreement
