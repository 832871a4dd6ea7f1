import Mathlib.Data.Nat.ModEq
import SecureCore.SymbolicPrimitives
import SecureCore.TwoParty

/-! Which pairs of AES-GCM key and nonce two paired devices use. Both counters
start at 1 and return to 1 with every promotion, and neither the key nor the
nonce depends on the direction or the device, so two sends share the pair when
they share root, epoch, message number and timestamp. -/

namespace SecureCore.NonceUniqueness

open AtomicProgram Program RootState MessageCipher

variable {P : Primitives}

def taken : SessionOp → Nat
  | .send _ _ _ _ => 1
  | .msgCounterNext => 1
  | _ => 0

/-- Every operation but initialisation and the recovery roll. -/
def Evolves : SessionOp → Prop
  | .initialiseRootState _ _ _ => False
  | .recoverAfterLoss _ => False
  | _ => True

theorem exec_cases {op : SessionOp} (hop : Evolves op) (s : Session) :
    ((op.exec P s).2.curr = s.curr ∧ (op.exec P s).2.epoch = s.epoch ∧
      (op.exec P s).2.msgCounter = s.msgCounter + UInt64.ofNat (taken op)) ∨
    ∃ pend, (op.exec P s).2 = promoted s pend := by
  cases op with
  | initialiseRootState alice bob bobPk => exact hop.elim
  | recoverAfterLoss target => exact hop.elim
  | startEvolution coins =>
    left
    rcases Evolution.startEvolution_cases (P := P) coins s with
      ⟨kemCt, ss, -, -, -, hrun⟩ | ⟨code, -, hrun⟩
    · simp [hrun, taken]
    · simp [hrun, taken]
  | applyPeerKem kemCt =>
    left
    rcases Evolution.applyPeerKem_cases (P := P) kemCt s with ⟨ss, -, -, -, hrun⟩ | ⟨code, -, hrun⟩
    · simp [hrun, taken]
    · simp [hrun, taken]
  | commitEvolution =>
    cases hp : s.pend with
    | none =>
      left
      simp [run_commitEvolution_none hp, taken]
    | some pend =>
      right
      exact ⟨pend, by simp [run_commitEvolution_some hp]⟩
  | tryDecryptWithEvolution wire header =>
    rcases tryDecryptWithEvolution_cases (P := P) wire header s with
      ⟨pt, -, hrun⟩ | ⟨pend, pt, -, -, -, -, hrun⟩ | hrun
    · left
      simp [hrun, taken]
    · right
      exact ⟨pend, by simp [hrun]⟩
    · left
      simp [hrun, taken]
  | send plaintext idStamp outgoing timestamp =>
    left
    simp [taken]
  | msgCounterNext =>
    left
    exact ⟨rfl, rfl, rfl⟩
  | generateBobKeypair coins =>
    left
    simp [SessionOp.exec, SessionOp.program, Evolution.generateBobKeypair, taken]
  | setPeerPublicKey pk =>
    left
    simp [SessionOp.exec, SessionOp.program, Evolution.setPeerPublicKey, taken]
  | getKemCipher capacity =>
    left
    simp [SessionOp.exec, SessionOp.program, taken]
  | kemCipherLen =>
    left
    simp [SessionOp.exec, SessionOp.program, Evolution.kemCipherLen, taken]
  | getEpochId =>
    left
    simp [SessionOp.exec, SessionOp.program, taken]
  | deriveMessageKey epoch msgSeq =>
    left
    simp [SessionOp.exec, SessionOp.program, taken]

/-- What a device has done so far: the roots it promoted, oldest first, and the
sequence numbers it took since the last promotion. -/
structure Ledger where
  promotions : List Key
  taken : Nat

/-- One call of `encrypt`: the root in force, the number of promotions before it,
the number of messages before it in its epoch, and what it encrypted with. -/
structure SendRecord where
  peer : Peer
  root : Key
  epochIndex : Nat
  messageIndex : Nat
  timestamp : UInt64
  key : Key
  nonce : Bytes
  deriving DecidableEq

structure Observation where
  ledger : Peer → Ledger
  sends : List SendRecord

def Ledger.observe (l : Ledger) (call : Call) : Ledger :=
  if call.after.epoch = call.before.epoch then
    { l with taken := l.taken + NonceUniqueness.taken call.op }
  else ⟨l.promotions ++ [call.after.curr], 0⟩

def encryptCalls (p : Peer) (call : Call) (l : Ledger) : List SendRecord :=
  match call.reply with
  | .sent key h _ =>
    [⟨p, call.before.curr, l.promotions.length, l.taken, h.timestamp, key,
      buildNonce h.epoch h.timestamp h.msgSeq⟩]
  | _ => []

def Observation.observe (o : Observation) (entry : Peer × Call) : Observation where
  ledger := Function.update o.ledger entry.1 ((o.ledger entry.1).observe entry.2)
  sends := o.sends ++ encryptCalls entry.1 entry.2 (o.ledger entry.1)

def observed (history : List (Peer × Call)) : Observation :=
  history.foldl Observation.observe ⟨fun _ => ⟨[], 0⟩, []⟩

theorem observed_act (w : World) (p : Peer) (op : SessionOp) :
    observed (w.act P p op).history =
      (observed w.history).observe (p, op.call P (w.session p)) := by
  simp [observed, World.act]

theorem encryptCalls_eq_nil {op : SessionOp} {p : Peer} {s : Session} {l : Ledger}
    (hop : ∀ pt stamp out ts, op ≠ .send pt stamp out ts) :
    encryptCalls p (op.call P s) l = [] := by
  cases op with
  | send pt stamp out ts => exact absurd rfl (hop pt stamp out ts)
  | _ => simp [encryptCalls, SessionOp.call, SessionOp.exec, SessionOp.program]

structure Tracked (root : Key) (s : Session) (l : Ledger) : Prop where
  epoch : s.epoch = UInt32.ofNat l.promotions.length
  counter : s.msgCounter = 1 + UInt64.ofNat l.taken
  curr : (root :: l.promotions)[l.promotions.length]? = some s.curr

structure Recorded (P : Primitives) (root : Key) (l : Ledger) (a : SendRecord) : Prop where
  key : a.key = deriveMessageKeyFromRoot P a.root (UInt32.ofNat a.epochIndex)
    (1 + UInt64.ofNat a.messageIndex)
  nonce : a.nonce = buildNonce (UInt32.ofNat a.epochIndex) a.timestamp
    (1 + UInt64.ofNat a.messageIndex)
  root : (root :: l.promotions)[a.epochIndex]? = some a.root
  earlier : a.epochIndex < l.promotions.length ∨
    a.epochIndex = l.promotions.length ∧ a.messageIndex < l.taken

theorem Tracked.observe {root : Key} {s : Session} {l : Ledger} (h : Tracked root s l)
    {op : SessionOp} (hop : Evolves op) :
    Tracked root (op.exec P s).2 (l.observe (op.call P s)) := by
  rcases exec_cases (P := P) hop s with ⟨hcurr, hepoch, hcounter⟩ | ⟨pend, hafter⟩
  · rw [Ledger.observe, if_pos (by exact hepoch)]
    refine ⟨hepoch.trans h.epoch, ?_, by rw [hcurr]; exact h.curr⟩
    rw [hcounter, h.counter, UInt64.add_assoc, ← UInt64.ofNat_add]
    rfl
  · have hchanged : (op.call P s).after.epoch ≠ (op.call P s).before.epoch := by
      simp [SessionOp.call, hafter, promoted]
    rw [Ledger.observe, if_neg hchanged, hafter]
    refine ⟨?_, by simp [promoted], by simp [SessionOp.call, hafter]⟩
    simp [promoted, h.epoch, UInt32.ofNat_add]

theorem Recorded.observe {root : Key} {l : Ledger} {a : SendRecord}
    (h : Recorded P root l a) (call : Call) : Recorded P root (l.observe call) a := by
  have hplace := h.earlier
  unfold Ledger.observe
  split_ifs
  · exact ⟨h.key, h.nonce, h.root, by dsimp only; omega⟩
  · refine ⟨h.key, h.nonce, ?_, by simp; omega⟩
    rw [← List.cons_append, List.getElem?_append_left (by simp; omega)]
    exact h.root

theorem encryptCalls_recorded {root : Key} {s : Session} {l : Ledger} (h : Tracked root s l)
    {op : SessionOp} {p : Peer} {a : SendRecord}
    (ha : a ∈ encryptCalls p (op.call P s) l) :
    a.peer = p ∧ a.epochIndex = l.promotions.length ∧ a.messageIndex = l.taken ∧
      Recorded P root (l.observe (op.call P s)) a := by
  by_cases hop : ∀ pt stamp out ts, op ≠ .send pt stamp out ts
  · rw [encryptCalls_eq_nil hop] at ha
    cases ha
  · push Not at hop
    obtain ⟨pt, stamp, out, ts, rfl⟩ := hop
    simp only [encryptCalls, SessionOp.call, SessionOp.exec_send, List.mem_singleton] at ha
    subst ha
    refine ⟨rfl, rfl, rfl, ?_, ?_, ?_, ?_⟩
    · dsimp only
      rw [h.epoch, h.counter]
    · dsimp only
      rw [h.epoch, h.counter]
    · simpa [Ledger.observe, SessionOp.call] using h.curr
    · simp [Ledger.observe, SessionOp.call, taken]

/-- What runs keep: both sessions follow their ledgers, every send has its place
in one, and no device uses a place twice. -/
structure Ledgered (P : Primitives) (root : Key) (w : World) : Prop where
  tracked : ∀ p, Tracked root (w.session p) ((observed w.history).ledger p)
  recorded : ∀ a ∈ (observed w.history).sends,
    Recorded P root ((observed w.history).ledger a.peer) a
  distinct : (observed w.history).sends.Pairwise fun a b =>
    a.peer = b.peer → a.epochIndex = b.epochIndex → a.messageIndex ≠ b.messageIndex

theorem Ledgered.act {root : Key} {w : World} (h : Ledgered P root w) {p : Peer}
    {op : SessionOp} (hop : Evolves op) : Ledgered P root (w.act P p op) := by
  have hsends := observed_act (P := P) w p op
  have hledger : ∀ a : SendRecord, Recorded P root ((observed w.history).ledger a.peer) a →
      Recorded P root ((observed (w.act P p op).history).ledger a.peer) a := by
    intro a ha
    rw [hsends]
    by_cases hpeer : a.peer = p
    · subst hpeer
      simpa [Observation.observe] using ha.observe _
    · simpa [Observation.observe, hpeer] using ha
  have hnew : ∀ a ∈ encryptCalls p (op.call P (w.session p)) ((observed w.history).ledger p),
      a.peer = p ∧ a.epochIndex = ((observed w.history).ledger p).promotions.length ∧
      a.messageIndex = ((observed w.history).ledger p).taken ∧
      Recorded P root ((observed (w.act P p op).history).ledger a.peer) a := by
    intro a ha
    obtain ⟨rfl, hepoch, hmessage, hrec⟩ := encryptCalls_recorded (h.tracked p) ha
    refine ⟨rfl, hepoch, hmessage, ?_⟩
    rw [hsends]
    simpa [Observation.observe] using hrec
  refine ⟨fun q => ?_, fun a ha => ?_, ?_⟩
  · rw [hsends]
    by_cases hq : q = p
    · subst hq
      simpa [Observation.observe] using (h.tracked q).observe hop
    · rw [World.act_session_of_ne _ _ hq]
      simpa [Observation.observe, hq] using h.tracked q
  · rw [hsends] at ha
    rcases List.mem_append.mp ha with ha | ha
    · exact hledger a (h.recorded a ha)
    · exact (hnew a ha).2.2.2
  · rw [hsends]
    refine List.pairwise_append.mpr ⟨h.distinct, ?_, fun a ha b hb hpeer hepoch hmessage => ?_⟩
    · unfold encryptCalls
      split <;> simp
    · obtain ⟨hp, hlast, htaken, -⟩ := hnew b hb
      have hplace := (h.recorded a ha).earlier
      rw [hpeer, hp] at hplace
      omega

def rootsUsed (sends : List SendRecord) : Set Key := { root | ∃ a ∈ sends, a.root = root }

def NoncesUnique (sends : List SendRecord) : Prop :=
  sends.Pairwise fun a b => (a.key, a.nonce) ≠ (b.key, b.nonce)

/-- The same root in force, and the same header epoch and sequence number: the
places in the ledgers agree up to the wrap of the two counters. -/
def SameSlot (a b : SendRecord) : Prop :=
  a.root = b.root ∧ a.epochIndex ≡ b.epochIndex [MOD 2 ^ 32] ∧
    a.messageIndex ≡ b.messageIndex [MOD 2 ^ 64]

/-- Where both devices have made their `k`-th promotion, it was of the same root. -/
def Matched (o : Observation) : Prop :=
  ∀ k : Nat, ∀ r ∈ (o.ledger .alice).promotions[k]?, ∀ r' ∈ (o.ledger .bob).promotions[k]?, r = r'

def Unwrapped (sends : List SendRecord) : Prop :=
  ∀ a ∈ sends, a.epochIndex < 2 ^ 32 ∧ a.messageIndex < 2 ^ 64

theorem uint32_ofNat_eq_iff {m n : Nat} :
    UInt32.ofNat m = UInt32.ofNat n ↔ m ≡ n [MOD 2 ^ 32] := by
  rw [← UInt32.toNat_inj, UInt32.toNat_ofNat', UInt32.toNat_ofNat']
  rfl

theorem uint64_ofNat_eq_iff {m n : Nat} :
    UInt64.ofNat m = UInt64.ofNat n ↔ m ≡ n [MOD 2 ^ 64] := by
  rw [← UInt64.toNat_inj, UInt64.toNat_ofNat', UInt64.toNat_ofNat']
  rfl

theorem collide_iff {root : Key} {l l' : Ledger} {a b : SendRecord} {roots : Set Key}
    (keys : MessageKeysDistinct P roots) (ha : Recorded P root l a) (hb : Recorded P root l' b)
    (ina : a.root ∈ roots) (inb : b.root ∈ roots) :
    (a.key, a.nonce) = (b.key, b.nonce) ↔ SameSlot a b ∧ a.timestamp = b.timestamp := by
  rw [ha.key, ha.nonce, hb.key, hb.nonce, Prod.mk.injEq, SameSlot, ← uint32_ofNat_eq_iff,
    ← uint64_ofNat_eq_iff]
  constructor
  · rintro ⟨hkey, hnonce⟩
    obtain ⟨hroot, hepoch, hseq⟩ := keys ina inb hkey
    rw [hepoch, hseq] at hnonce
    exact ⟨⟨hroot, hepoch, (UInt64.add_right_inj 1).mp hseq⟩, buildNonce_inj hnonce⟩
  · rintro ⟨⟨hroot, hepoch, hseq⟩, htime⟩
    rw [hroot, hepoch, hseq, htime]
    exact ⟨rfl, rfl⟩

theorem Matched.root_eq {root : Key} {o : Observation} (h : Matched o) {a b : SendRecord}
    (ha : Recorded P root (o.ledger a.peer) a) (hb : Recorded P root (o.ledger b.peer) b)
    (hpeer : a.peer ≠ b.peer) (hepoch : a.epochIndex = b.epochIndex) : a.root = b.root := by
  have hroots : ∀ {x y : SendRecord}, x.peer = .alice → y.peer = .bob →
      x.epochIndex = y.epochIndex → Recorded P root (o.ledger x.peer) x →
      Recorded P root (o.ledger y.peer) y → x.root = y.root := by
    intro x y hx hy hxy hrx hry
    have hroot := hrx.root
    have hroot' := hry.root
    rw [hx, hxy] at hroot
    rw [hy] at hroot'
    cases hk : y.epochIndex with
    | zero =>
      rw [hk] at hroot hroot'
      exact Option.some.inj (hroot.symm.trans hroot')
    | succ k =>
      rw [hk, List.getElem?_cons_succ] at hroot hroot'
      exact h k _ hroot _ hroot'
  cases hap : a.peer with
  | alice =>
    cases hbp : b.peer with
    | alice => exact absurd (hap.trans hbp.symm) hpeer
    | bob => exact hroots hap hbp hepoch ha hb
  | bob =>
    cases hbp : b.peer with
    | alice => exact (hroots hbp hap hepoch.symm hb ha).symm
    | bob => exact absurd (hap.trans hbp.symm) hpeer

def observedRun (P : Primitives) (alice bob bobPk : Bytes) (session : Peer → Session)
    (actions : List (Peer × SessionOp)) : Observation :=
  observed ((World.start (initialised P alice bob bobPk session)).run P actions).history

section Runs

variable {alice bob bobPk : Bytes} {session : Peer → Session}
  {actions : List (Peer × SessionOp)}

theorem ledgered_run
    (ok : ∀ p, ((InitModule.initialiseRootState P alice bob bobPk).run (session p)).1 = 0)
    (counter : ∀ p, (session p).msgCounter = 1)
    (evolves : ∀ action ∈ actions, Evolves action.2) :
    Ledgered P (InitModule.initialRoot P alice bob)
      ((World.start (initialised P alice bob bobPk session)).run P actions) := by
  refine World.run_invariant ⟨fun p => ?_, by simp [observed, World.start],
    by simp [observed, World.start]⟩ (fun w action ha h => h.act (evolves action ha))
  have hinit := InitModule.initialiseRootState_ok (ok p)
  refine ⟨?_, ?_, ?_⟩ <;> simp [World.start, initialised, hinit, observed, counter p]

/-- Over all runs, two `encrypt` calls share key and nonce exactly when they
share root, epoch, message number and timestamp. With matched promotions and no
wrap, uniqueness therefore comes down to the two devices: whenever both send an
`n`-th message in an epoch, the two must carry different timestamps. -/
theorem noncesUnique_iff
    (keys : MessageKeysDistinct P
      (rootsUsed (observedRun P alice bob bobPk session actions).sends))
    (ok : ∀ p, ((InitModule.initialiseRootState P alice bob bobPk).run (session p)).1 = 0)
    (counter : ∀ p, (session p).msgCounter = 1)
    (evolves : ∀ action ∈ actions, Evolves action.2) :
    let o := observedRun P alice bob bobPk session actions
    (NoncesUnique o.sends ↔
      o.sends.Pairwise fun a b => SameSlot a b → a.timestamp ≠ b.timestamp) ∧
    (Matched o → Unwrapped o.sends →
      (NoncesUnique o.sends ↔
        ∀ a ∈ o.sends, ∀ b ∈ o.sends, a.peer ≠ b.peer → a.epochIndex = b.epochIndex →
          a.messageIndex = b.messageIndex → a.timestamp ≠ b.timestamp)) := by
  intro o
  obtain ⟨-, recorded, distinct⟩ := ledgered_run ok counter evolves
  have collide : ∀ {a b}, a ∈ o.sends → b ∈ o.sends →
      ((a.key, a.nonce) = (b.key, b.nonce) ↔ SameSlot a b ∧ a.timestamp = b.timestamp) :=
    fun ha hb => collide_iff keys (recorded _ ha) (recorded _ hb) ⟨_, ha, rfl⟩ ⟨_, hb, rfl⟩
  refine ⟨?_, fun matched unwrapped => ⟨fun unique a ha b hb hpeer hepoch hmessage => ?_,
    fun separate => ?_⟩⟩
  · refine List.Pairwise.iff_of_mem fun ha hb => ?_
    rw [ne_eq, collide ha hb, not_and]
  · have hroot := matched.root_eq (recorded a ha) (recorded b hb) hpeer hepoch
    have hslot : SameSlot a b := by
      rw [SameSlot, hepoch, hmessage]
      exact ⟨hroot, rfl, rfl⟩
    have symmetric : Std.Symm fun a b : SendRecord => (a.key, a.nonce) ≠ (b.key, b.nonce) :=
      ⟨fun _ _ h => h.symm⟩
    have hpair : (a.key, a.nonce) ≠ (b.key, b.nonce) :=
      unique.forall ha hb (fun h => hpeer (h ▸ rfl))
    intro htime
    exact hpair ((collide ha hb).mpr ⟨hslot, htime⟩)
  · refine distinct.imp_of_mem fun {a b} ha hb hplace hsame => ?_
    obtain ⟨⟨-, hepoch, hmessage⟩, htime⟩ := (collide ha hb).mp hsame
    have hepoch := hepoch.eq_of_lt_of_lt (unwrapped a ha).1 (unwrapped b hb).1
    have hmessage := hmessage.eq_of_lt_of_lt (unwrapped a ha).2 (unwrapped b hb).2
    by_cases hpeer : a.peer = b.peer
    · exact hplace hpeer hepoch hmessage
    · exact separate a ha b hb hpeer hepoch hmessage htime

end Runs

theorem matched_of_eq {o : Observation}
    (h : (o.ledger .alice).promotions = (o.ledger .bob).promotions) : Matched o := by
  intro k r hr r' hr'
  rw [h] at hr
  exact Option.some.inj (hr.symm.trans hr')

/-! A pairing from fresh processes, and its first messages. -/

def stamp : Bytes := List.replicate 32 9

def firstMessages (timestamp : UInt64) : List (Peer × SessionOp) :=
  [(.alice, .send [104, 105] stamp true timestamp), (.bob, .send [104, 111] stamp false 1000)]

def matchedEvolution : List (Peer × SessionOp) :=
  [(.bob, .generateBobKeypair [4]), (.alice, .setPeerPublicKey [1, 4]),
    (.alice, .startEvolution [5]), (.bob, .applyPeerKem (3 :: SymbolicPrimitives.fit32 [5])),
    (.alice, .commitEvolution), (.bob, .commitEvolution),
    (.bob, .send [111] stamp true 1002), (.alice, .send [112] stamp true 1003)]

def pairing (actions : List (Peer × SessionOp)) : Observation :=
  observedRun SymbolicPrimitives.symbolic sampleEntropy sampleEntropy [1]
    (fun _ => Session.fresh) actions

theorem noncesUnique_iff_matchedEvolution :
    ((pairing (firstMessages 1001 ++ matchedEvolution)).ledger .alice).promotions.length = 1 ∧
      NoncesUnique (pairing (firstMessages 1001 ++ matchedEvolution)).sends := by
  refine ⟨by decide +kernel, ?_⟩
  have hkeys := messageKeysDistinct_of_injective SymbolicPrimitives.symbolic_hkdfInjective
  refine ((noncesUnique_iff (hkeys _) (fun _ => ?_) (fun _ => rfl) ?_).2
    (matched_of_eq ?_) ?_).mpr ?_
  · decide +kernel
  · simp [firstMessages, matchedEvolution, Evolves]
  · decide +kernel
  · unfold Unwrapped
    decide +kernel
  · decide +kernel

theorem first_messages_share_key_and_nonce :
    ((InitModule.initialiseRootState SymbolicPrimitives.symbolic sampleEntropy sampleEntropy
      [1]).run Session.fresh).1 = 0 ∧
    Matched (pairing (firstMessages 1000)) ∧
    ¬ NoncesUnique (pairing (firstMessages 1000)).sends := by
  -- The first message of each device, with the same timestamp.
  refine ⟨by decide +kernel, matched_of_eq (by decide +kernel), ?_⟩
  unfold NoncesUnique
  decide +kernel

end SecureCore.NonceUniqueness
