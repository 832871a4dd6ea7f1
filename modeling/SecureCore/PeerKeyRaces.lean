import SecureCore.ClientCalls
import SecureCore.SectionRefinement

/-! Which public key concurrent evolutions encapsulate to. `set_peer_public_key`
clears the stored key, copies the new one and then replaces the hash; it keeps the
guard of the key over all of it, and `start_evolution` keeps that guard from reading
the key to its end. Key and hash are therefore read as one pair: the swap check does
not fire in any schedule, and no half-written key is ever used. -/

namespace SecureCore.PeerKeyRaces

open AtomicProgram MutexThreads LockedProgram LockedProgram.Locked LockReduction ClientCalls
open RootState SessionLocks SectionRefinement Evolution
open SymbolicPrimitives (symbolic)

section Pinned

variable (P : Primitives)

def readPinnedKey : SessionM (Bytes × Bytes) :=
  Program.atomic .readPeerPkHash fun s => ((s.bobPublicKey, s.peerPkHash), s)

/-- `start_evolution` with the guard of the key taken into account. -/
def startEvolution (coins : Bytes) : SessionM UInt32 := do
  let curr ← RootState.readRootStateCurr
  let pinned ← readPinnedKey
  if pinned.1.isEmpty then pure 2
  else if pinned.2 ≠ zeros32 ∧ hashDifference (P.sha256 pinned.1) pinned.2 ≠ 0 then pure 5
  else match P.encapsulate pinned.1 coins with
    | none => pure 1
    | some (kemCt, sharedSecret) =>
      match tryInto32 sharedSecret with
      | none => pure 4
      | some ss => do
        RootState.setRootStatePend (some (derivePendingKey P ss curr))
        Evolution.setKemCipher kemCt
        pure 0

def pinnedProgram : LockingOp → SessionM Reply
  | .session (.startEvolution coins) => do pure (.code (← startEvolution P coins))
  | op => sectionProgram P op

variable {P}

theorem refines_startEvolution (coins : Bytes) :
    Refines regions ∅ (SessionLocks.startEvolution P coins) (startEvolution P coins) := by
  -- The hash is read with the key's guard held, so the key is what it was.
  refine refines_readRootStateCurr.bind fun curr => Refines.guarded (by decide) ?_
  intro s t hsame
  have hpk : s.bobPublicKey = t.bobPublicKey := hsame .bobPublicKey (by decide)
  by_cases hempty : s.bobPublicKey.isEmpty
  · apply Sim.effect
    intro s' t' hs ht hbare
    have hs' : s.bobPublicKey = s'.bobPublicKey := hs .bobPublicKey (by decide)
    have ht' : t.bobPublicKey = t'.bobPublicKey := ht .bobPublicKey (by decide)
    rw [if_pos (hs' ▸ hempty), if_pos (ht' ▸ hpk ▸ hempty)]
    exact ⟨.refl, .refl, hbare, rfl, hs.symm.trans (hsame.trans ht), rfl⟩
  · refine Sim.read (Returns.stable _) (fun s s' h => h .bobPublicKey (by decide)) ?_
    rw [if_neg hempty]
    refine Sim.effect_guarded (by decide) fun s' t' hs ht hhash hbare => ?_
    have hs' : s.bobPublicKey = s'.bobPublicKey := hs .bobPublicKey (by decide)
    have ht' : t.bobPublicKey = t'.bobPublicKey := ht .bobPublicKey (by decide)
    have hstored : s'.peerPkHash = t'.peerPkHash := hhash
    have hempty' : ¬ t'.bobPublicKey.isEmpty := by
      rw [← ht', ← hpk]
      exact hempty
    refine ⟨.refl, .refl, hhash, hbare, ?_⟩
    dsimp only
    rw [if_neg hempty', ← ht', ← hpk, ← hstored]
    exact refines_installation rfl curr _ _ coins s' t' (hs.symm.trans (hsame.trans ht))

theorem pinnedProgram_of_ne {op : LockingOp}
    (h : ¬ ∃ coins, op = .session (.startEvolution coins)) :
    pinnedProgram P op = sectionProgram P op := by
  rw [pinnedProgram]
  intro coins heq
  exact h ⟨coins, heq⟩

theorem refines_pinned (op : LockingOp) :
    Refines regions ∅ (SectionRefinement.program P op) (pinnedProgram P op) := by
  by_cases hstart : ∃ coins, op = .session (.startEvolution coins)
  · obtain ⟨coins, rfl⟩ := hstart
    exact (refines_startEvolution coins).bind fun code => Refines.pure _
  · rw [pinnedProgram_of_ne hstart]
    exact refines_program op

end Pinned

section Clients

variable {Op Reply : Type}

theorem safe_client {Label σ : Type} {inv : σ → Prop} {good : Op → Reply → Prop}
    {program : Op → Program Label σ Reply} {client : Client Op Reply}
    (h : ∀ op, MayCall op client → (program op).Safe inv (good op)) :
    (client.sections program).Safe inv fun calls => ∀ call ∈ calls, good call.1 call.2 := by
  induction client with
  | stop => exact Program.Safe.pure (by simp)
  | call op next ih =>
    refine (h op (Or.inl rfl)).bind fun reply hreply => ?_
    have hlater := ih reply fun op' hop' => h op' (Or.inr ⟨reply, hop'⟩)
    refine hlater.bind fun later hcalls => Program.Safe.pure ?_
    intro call hcall
    rcases List.mem_cons.mp hcall with rfl | hcall
    · exact hreply
    · exact hcalls call hcall

end Clients

section Invariant

variable (P : Primitives) (keys draws : Set Bytes)

/-- The key is unset or one that was supplied whole, the hash beside it is its hash,
and the ciphertext comes from an encapsulation to a supplied key. -/
structure Supplied (s : Session) : Prop where
  key : s.bobPublicKey = [] ∨ s.bobPublicKey ∈ keys
  hash : s.peerPkHash = zeros32 ∨ s.peerPkHash = P.sha256 s.bobPublicKey
  cipher : ∀ kemCt, s.kemCipher = some kemCt →
    ∃ pk ∈ keys, ∃ coins ∈ draws, ∃ ss, P.encapsulate pk coins = some (kemCt, ss)

def Unswapped (op : LockingOp) (reply : Reply) : Prop :=
  ∀ coins, op = .session (.startEvolution coins) → reply ≠ .code 5

def Apart (_ : Label) (s s' : Session) : Prop :=
  s'.bobPublicKey = s.bobPublicKey ∧ s'.peerPkHash = s.peerPkHash ∧ s'.kemCipher = s.kemCipher

variable {P keys draws}

theorem Supplied.of_apart (label : Label) (s s' : Session) (apart : Apart label s s')
    (h : Supplied P keys draws s) : Supplied P keys draws s' := by
  obtain ⟨hkey, hhash, hcipher⟩ := apart
  exact ⟨hkey ▸ h.key, by rw [hhash, hkey]; exact h.hash, by rw [hcipher]; exact h.cipher⟩

theorem apart_of_same {α : Type} {label : Label} {body : Session → α × Session}
    (h : ∀ s, (body s).2.bobPublicKey = s.bobPublicKey ∧ (body s).2.peerPkHash = s.peerPkHash ∧
      (body s).2.kemCipher = s.kemCipher) : (Program.atomic label body).AllSteps Apart :=
  Program.AllSteps.atomic h

theorem apart_readRootStateCurr : RootState.readRootStateCurr.AllSteps Apart :=
  apart_of_same fun _ => ⟨rfl, rfl, rfl⟩

theorem apart_readEpochId : RootState.readEpochId.AllSteps Apart :=
  apart_of_same fun _ => ⟨rfl, rfl, rfl⟩

theorem apart_commitEvolution : RootState.commitEvolution.AllSteps Apart := by
  refine apart_of_same fun s => ?_
  cases s.pend <;> exact ⟨rfl, rfl, rfl⟩

theorem apart_rollLoop (gap : Nat) (last : UInt32) :
    (AntiDos.rollLoop P gap last).AllSteps Apart := by
  induction gap generalizing last with
  | zero => exact Program.AllSteps.pure _ _
  | succ gap ih =>
    refine Program.AllSteps.bind (apart_of_same fun _ => ⟨rfl, rfl, rfl⟩) fun r => ?_
    split_ifs
    · exact Program.AllSteps.pure _ _
    · exact ih r

theorem apart_recoverAfterLoss (target : UInt32) :
    (AntiDos.recoverAfterLoss P target).AllSteps Apart := by
  refine apart_readEpochId.bind fun e => ?_
  split_ifs
  · exact Program.AllSteps.pure _ _
  · exact Program.AllSteps.pure _ _
  · exact apart_rollLoop _ e

theorem apart_initialiseRootState (alice bob bobPk : Bytes) :
    (InitModule.initialiseRootState P alice bob bobPk).AllSteps Apart := by
  rw [InitModule.initialiseRootState]
  split_ifs
  · exact Program.AllSteps.pure _ _
  · exact Program.AllSteps.pure _ _
  · exact Program.AllSteps.pure _ _
  · refine Program.AllSteps.bind (apart_of_same fun _ => ⟨rfl, rfl, rfl⟩) fun _ => ?_
    refine Program.AllSteps.bind (apart_of_same fun _ => ⟨rfl, rfl, rfl⟩) fun _ => ?_
    exact Program.AllSteps.map _ (apart_of_same fun _ => ⟨rfl, rfl, rfl⟩)

theorem apart_applyPeerKem (kemCt : Bytes) :
    (Evolution.applyPeerKem P kemCt).AllSteps Apart := by
  refine Program.AllSteps.bind (apart_of_same fun _ => ⟨rfl, rfl, rfl⟩) fun sk => ?_
  split_ifs
  · exact Program.AllSteps.pure _ _
  · split
    · exact Program.AllSteps.pure _ _
    · split
      · exact Program.AllSteps.pure _ _
      · refine apart_readRootStateCurr.bind fun curr => ?_
        exact Program.AllSteps.map _ (apart_of_same fun _ => ⟨rfl, rfl, rfl⟩)

theorem apart_tryDecryptWithEvolution (wire : Bytes) (h : MessageCipher.Header) :
    (MessageCipher.tryDecryptWithEvolution P wire h).AllSteps Apart := by
  refine apart_readRootStateCurr.bind fun curr => apart_readEpochId.bind fun localEpoch => ?_
  split
  · exact Program.AllSteps.pure _ _
  · split_ifs
    · refine Program.AllSteps.bind (apart_of_same fun _ => ⟨rfl, rfl, rfl⟩) fun pend => ?_
      split
      · split
        · exact Program.AllSteps.map _ apart_commitEvolution
        · exact Program.AllSteps.pure _ _
      · exact Program.AllSteps.pure _ _
    · exact Program.AllSteps.pure _ _

theorem safe_setPeerPublicKey {pk : Bytes} (given : pk ∈ keys) :
    (Evolution.setPeerPublicKey P pk).Safe (Supplied P keys draws) fun _ => True :=
  Program.Safe.atomic fun _ h => ⟨⟨Or.inr given, Or.inr rfl, h.cipher⟩, trivial⟩

theorem safe_startEvolution {coins : Bytes} (drawn : coins ∈ draws) :
    (startEvolution P coins).Safe (Supplied P keys draws) fun code => code ≠ 5 := by
  have hcurr : RootState.readRootStateCurr.Safe (Supplied P keys draws) fun _ => True :=
    apart_readRootStateCurr.safe Supplied.of_apart fun _ => trivial
  refine hcurr.bind fun curr _ => ?_
  have hread : readPinnedKey.Safe (Supplied P keys draws) fun pinned =>
      (pinned.1 = [] ∨ pinned.1 ∈ keys) ∧ (pinned.2 = zeros32 ∨ pinned.2 = P.sha256 pinned.1) :=
    Program.Safe.atomic fun s h => ⟨h, h.key, h.hash⟩
  refine hread.bind fun pinned hpinned => ?_
  obtain ⟨hkey, hhash⟩ := hpinned
  split_ifs with hempty hswapped
  · exact Program.Safe.pure (by decide)
  · rcases hhash with hzero | hself
    · exact absurd hzero hswapped.1
    · exact absurd (hself ▸ hashDifference_self _) hswapped.2
  · have hmem : pinned.1 ∈ keys := hkey.resolve_left (by simpa using hempty)
    cases henc : P.encapsulate pinned.1 coins with
    | none => exact Program.Safe.pure (by decide)
    | some out =>
      dsimp only
      cases tryInto32 out.2 with
      | none => exact Program.Safe.pure (by decide)
      | some ss =>
        have hpend : (RootState.setRootStatePend (some (derivePendingKey P ss curr))).Safe
            (Supplied P keys draws) fun _ => True :=
          (apart_of_same fun _ => ⟨rfl, rfl, rfl⟩).safe Supplied.of_apart fun _ => trivial
        refine hpend.bind fun _ _ => ?_
        have hkem : (Evolution.setKemCipher out.1).Safe (Supplied P keys draws) fun _ => True := by
          refine Program.Safe.atomic fun s h => ⟨⟨h.key, h.hash, fun kemCt hct => ?_⟩, trivial⟩
          obtain rfl : out.1 = kemCt := Option.some.inj hct
          exact ⟨pinned.1, hmem, coins, drawn, out.2, henc⟩
        exact hkem.bind fun _ _ => Program.Safe.pure (by decide)

theorem apart_sectionProgram {op : LockingOp} (unset : ∀ pk, op ≠ .session (.setPeerPublicKey pk))
    (idle : ∀ coins, op ≠ .session (.startEvolution coins)) :
    (sectionProgram P op).AllSteps Apart := by
  cases op with
  | generateIdStampFromCurr =>
    refine Program.AllSteps.map _ (apart_readRootStateCurr.bind fun curr => ?_)
    exact Program.AllSteps.map _ (apart_of_same fun _ => ⟨rfl, rfl, rfl⟩)
  | session op =>
    cases op with
    | setPeerPublicKey pk => exact absurd rfl (unset pk)
    | startEvolution coins => exact absurd rfl (idle coins)
    | initialiseRootState => exact Program.AllSteps.map _ (apart_initialiseRootState _ _ _)
    | applyPeerKem kemCt => exact Program.AllSteps.map _ (apart_applyPeerKem kemCt)
    | commitEvolution => exact Program.AllSteps.map _ apart_commitEvolution
    | recoverAfterLoss target => exact Program.AllSteps.map _ (apart_recoverAfterLoss target)
    | getEpochId => exact Program.AllSteps.map _ apart_readEpochId
    | tryDecryptWithEvolution wire header =>
      exact Program.AllSteps.map _ (apart_tryDecryptWithEvolution wire header)
    | deriveMessageKey epoch msgSeq =>
      exact Program.AllSteps.map _ (Program.AllSteps.map _ apart_readRootStateCurr)
    | send plaintext idStamp outgoing timestamp =>
      refine Program.AllSteps.bind (apart_of_same fun _ => ⟨rfl, rfl, rfl⟩) fun msgSeq => ?_
      refine apart_readEpochId.bind fun epoch => Program.AllSteps.map _ ?_
      exact Program.AllSteps.map _ apart_readRootStateCurr
    | generateBobKeypair | getKemCipher | kemCipherLen | msgCounterNext =>
      exact Program.AllSteps.map _ (apart_of_same fun _ => ⟨rfl, rfl, rfl⟩)

theorem safe_pinned {op : LockingOp}
    (given : ∀ pk, op = .session (.setPeerPublicKey pk) → pk ∈ keys)
    (drawn : ∀ coins, op = .session (.startEvolution coins) → coins ∈ draws) :
    (pinnedProgram P op).Safe (Supplied P keys draws) (Unswapped op) := by
  by_cases hstart : ∃ coins, op = .session (.startEvolution coins)
  · obtain ⟨coins, rfl⟩ := hstart
    refine (safe_startEvolution (drawn coins rfl)).bind fun code hcode => Program.Safe.pure ?_
    intro _ _ hreply
    exact hcode (Reply.code.inj hreply)
  · rw [pinnedProgram_of_ne hstart]
    have hnever : ∀ reply, Unswapped op reply := fun _ coins h => absurd ⟨coins, h⟩ hstart
    by_cases hset : ∃ pk, op = .session (.setPeerPublicKey pk)
    · obtain ⟨pk, rfl⟩ := hset
      exact (safe_setPeerPublicKey (given pk rfl)).bind fun _ _ => Program.Safe.pure (hnever _)
    · have hapart : (sectionProgram P op).AllSteps Apart :=
        apart_sectionProgram (fun pk h => hset ⟨pk, h⟩) fun coins h => hstart ⟨coins, h⟩
      exact hapart.safe Supplied.of_apart hnever

end Invariant

theorem supplied_of_mayCall {ι : Type} [DecidableEq ι] {P : Primitives}
    {clients : ι → Client LockingOp Reply}
    {c : System ι SessionLock Session (LockedM (List (LockingOp × Reply)))}
    (run : Run code (fun _ _ _ => True)
      (launch Session.fresh fun i => (clients i).locked (SectionRefinement.program P)) c) :
    (∀ i calls coins, c.threads i = .done calls →
      (.session (.startEvolution coins), .code 5) ∉ calls) ∧
    (c.owner .evoState = none → ∀ kemCt, c.shared.kemCipher = some kemCt →
      ∃ pk coins ss, (∃ i, MayCall (.session (.setPeerPublicKey pk)) (clients i)) ∧
        (∃ i, MayCall (.session (.startEvolution coins)) (clients i)) ∧
        P.encapsulate pk coins = some (kemCt, ss)) := by
  obtain ⟨d, held, hreach, hcoupled⟩ :=
    Refines.run (fun i => Client.refines refines_pinned (clients i)) run
  let keys : Set Bytes := { pk | ∃ i, MayCall (.session (.setPeerPublicKey pk)) (clients i) }
  let draws : Set Bytes := { coins | ∃ i, MayCall (.session (.startEvolution coins)) (clients i) }
  have hfresh : Supplied P keys draws Session.fresh :=
    ⟨Or.inl rfl, Or.inl rfl, fun kemCt hct => by cases hct⟩
  have hsafe : ∀ i, ((clients i).sections (pinnedProgram P)).Safe (Supplied P keys draws)
      fun calls => ∀ call ∈ calls, Unswapped call.1 call.2 := by
    intro i
    refine safe_client fun op hop => ?_
    refine safe_pinned (fun pk hpk => ?_) fun coins hcoins => ?_
    · exact ⟨i, hpk ▸ hop⟩
    · exact ⟨i, hcoins ▸ hop⟩
  obtain ⟨hinv, hthreads⟩ := hreach.safe hfresh hsafe
  constructor
  · intro i calls coins hdone hmem
    have hcalls := hthreads i
    rw [hcoupled.done hdone] at hcalls
    exact hcalls _ hmem coins rfl rfl
  · intro hfree kemCt hct
    have hsame : c.shared.kemCipher = d.shared.kemCipher := hcoupled.free .evoState hfree
    obtain ⟨pk, hpk, coins, hcoins, ss, henc⟩ := hinv.cipher kemCt (hsame ▸ hct)
    exact ⟨pk, coins, ss, hpk, hcoins, henc⟩

/-- However the accesses of any clients interleave, from the start of the process on:
no `start_evolution` reports a swapped key, and a stored ciphertext was made for a
public key that a `set_peer_public_key` call has supplied, with the draw of a
`start_evolution` call, both of them begun. -/
theorem evolutions_use_supplied_keys {ι : Type} [DecidableEq ι] (P : Primitives)
    (clients : ι → Client LockingOp Reply)
    {c : System ι SessionLock Session (LockedM (List (LockingOp × Reply)))}
    (run : Run code (fun _ _ _ => True)
      (launch Session.fresh fun i => (clients i).locked (SectionRefinement.program P)) c) :
    (∀ i calls coins, c.threads i = .done calls →
      (.session (.startEvolution coins), .code 5) ∉ calls) ∧
    (c.owner .evoState = none → ∀ kemCt, c.shared.kemCipher = some kemCt →
      ∃ pk coins ss,
        (∃ i, Begun (SectionRefinement.program P) (.session (.setPeerPublicKey pk)) (clients i)
          (c.threads i)) ∧
        (∃ i, Begun (SectionRefinement.program P) (.session (.startEvolution coins)) (clients i)
          (c.threads i)) ∧
        P.encapsulate pk coins = some (kemCt, ss)) := by
  refine ⟨(supplied_of_mayCall run).1, fun hfree kemCt hct => ?_⟩
  -- The same accesses are those of clients that stop behind what they have begun.
  obtain ⟨clients', left, run', hbegun⟩ := run_of_begun run
  obtain ⟨pk, coins, ss, ⟨i, hset⟩, ⟨j, hstart⟩, henc⟩ :=
    (supplied_of_mayCall run').2 hfree kemCt hct
  exact ⟨pk, coins, ss, ⟨i, hbegun i _ hset⟩, ⟨j, hbegun j _ hstart⟩, henc⟩

theorem evolutions_use_supplied_keys_whileReplaced :
    let clients : Bool → Client LockingOp Reply := fun i =>
      if i then .call (.session (.startEvolution [4])) fun _ => .stop
      else .call (.session (.setPeerPublicKey [1, 4])) fun _ =>
        .call (.session (.setPeerPublicKey [1, 5])) fun _ => .stop
    ∃ c, Run code (fun _ _ _ => True)
        (launch Session.fresh fun i => (clients i).locked (SectionRefinement.program symbolic)) c ∧
      finished? (c.threads true) = some [(.session (.startEvolution [4]), .code 0)] ∧
      ∃ pk coins ss,
        (∃ i, Begun (SectionRefinement.program symbolic) (.session (.setPeerPublicKey pk))
          (clients i) (c.threads i)) ∧
        (∃ i, Begun (SectionRefinement.program symbolic) (.session (.startEvolution coins))
          (clients i) (c.threads i)) ∧
        symbolic.encapsulate pk coins = some (c.shared.kemCipher.getD [], ss) := by
  -- An evolution that has read the root when another thread replaces the key.
  intro clients
  obtain ⟨c, run, hdone, hfree, hct⟩ : ∃ c, Run code (fun _ _ _ => True)
      (launch Session.fresh fun i => (clients i).locked (SectionRefinement.program symbolic)) c ∧
      finished? (c.threads true) = some [(.session (.startEvolution [4]), .code 0)] ∧
      c.owner .evoState = none ∧
      c.shared.kemCipher = some (3 :: SymbolicPrimitives.fit32 [4]) :=
    exists_run (List.replicate 7 (false, ()) ++ List.replicate 3 (true, ()) ++
      List.replicate 7 (false, ()) ++ List.replicate 12 (true, ())) (by decide +kernel)
  refine ⟨c, run, hdone, ?_⟩
  rw [hct]
  exact (evolutions_use_supplied_keys symbolic clients run).2 hfree _ hct

end SecureCore.PeerKeyRaces
