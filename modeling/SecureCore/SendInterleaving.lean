import SecureCore.SessionOps
import SecureCore.SymbolicPrimitives

/-! Sender threads of one device. A send takes its sequence number, reads the
epoch and derives its key in three sections, while commits and rolls move the
epoch and put the counter back to 1 in one. Two sends obtain the same sequence
number in the same epoch only if one of them took its number before an epoch
change and read the epoch after it. -/

namespace SecureCore.SendInterleaving

open AtomicProgram Program RootState MessageCipher Config

variable {ι : Type} {P : Primitives}

/-- What a section does to the epoch and the counter: the counter's increment
belongs to `next_msg_seq`, and an epoch change resets it. -/
def Tick (label : Label) (before after : Session) : Prop :=
  if label = .nextMsgSeq then
    after.epoch = before.epoch ∧ after.msgCounter = before.msgCounter + 1
  else
    (after.epoch = before.epoch ∧ after.msgCounter = before.msgCounter) ∨
      (after.epoch = before.epoch + 1 ∧ after.msgCounter = 1)

theorem tick_of_frame {β : Type} {label : Label} {body : Session → β × Session}
    (hlabel : label ≠ .nextMsgSeq)
    (frame : ∀ s, (body s).2.epoch = s.epoch ∧ (body s).2.msgCounter = s.msgCounter) :
    (atomic label body).AllSteps Tick := by
  refine AllSteps.atomic fun s => ?_
  rw [Tick, if_neg hlabel]
  exact Or.inl (frame s)

theorem nextMsgSeq_ticks : nextMsgSeq.AllSteps Tick :=
  AllSteps.atomic fun _ => ⟨rfl, rfl⟩

theorem commitEvolution_ticks : commitEvolution.AllSteps Tick := by
  refine AllSteps.atomic fun s => ?_
  cases hp : s.pend with
  | none => exact Or.inl ⟨by simp, by simp⟩
  | some newKey => exact Or.inr ⟨by simp, by simp⟩

theorem rollEpochForward_ticks (salt info : Bytes) :
    (rollEpochForward P salt info).AllSteps Tick :=
  AllSteps.atomic fun _ => Or.inr ⟨rfl, rfl⟩

theorem readRootStateCurr_ticks : readRootStateCurr.AllSteps Tick :=
  tick_of_frame (by decide) fun _ => ⟨rfl, rfl⟩

theorem readEpochId_ticks : readEpochId.AllSteps Tick :=
  tick_of_frame (by decide) fun _ => ⟨rfl, rfl⟩

theorem setRootStatePend_ticks (key : Option Key) : (setRootStatePend key).AllSteps Tick :=
  tick_of_frame (by decide) fun _ => ⟨rfl, rfl⟩

theorem deriveMessageKey_ticks (epoch : UInt32) (msgSeq : UInt64) :
    (deriveMessageKey P epoch msgSeq).AllSteps Tick :=
  readRootStateCurr_ticks.bind fun _ => AllSteps.pure _ _

theorem startEvolution_ticks (coins : Bytes) :
    (Evolution.startEvolution P coins).AllSteps Tick := by
  refine readRootStateCurr_ticks.bind fun curr => ?_
  refine (tick_of_frame (by decide) fun _ => ⟨rfl, rfl⟩).bind fun pk => ?_
  split_ifs
  · exact AllSteps.pure _ _
  refine (tick_of_frame (by decide) fun _ => ⟨rfl, rfl⟩).bind fun storedHash => ?_
  split_ifs
  · exact AllSteps.pure _ _
  split
  · exact AllSteps.pure _ _
  split
  · exact AllSteps.pure _ _
  · exact (setRootStatePend_ticks _).bind fun _ =>
      (tick_of_frame (by decide) fun _ => ⟨rfl, rfl⟩).bind fun _ => AllSteps.pure _ _

theorem applyPeerKem_ticks (kemCt : Bytes) :
    (Evolution.applyPeerKem P kemCt).AllSteps Tick := by
  refine (tick_of_frame (by decide) fun _ => ⟨rfl, rfl⟩).bind fun sk => ?_
  split_ifs
  · exact AllSteps.pure _ _
  split
  · exact AllSteps.pure _ _
  split
  · exact AllSteps.pure _ _
  · exact readRootStateCurr_ticks.bind fun _ =>
      (setRootStatePend_ticks _).bind fun _ => AllSteps.pure _ _

theorem rollLoop_ticks (gap : Nat) (last : UInt32) :
    (AntiDos.rollLoop P gap last).AllSteps Tick := by
  induction gap generalizing last with
  | zero => exact AllSteps.pure _ _
  | succ gap ih =>
    refine (rollEpochForward_ticks _ _).bind fun r => ?_
    split_ifs
    · exact AllSteps.pure _ _
    · exact ih r

theorem recoverAfterLoss_ticks (target : UInt32) :
    (AntiDos.recoverAfterLoss P target).AllSteps Tick := by
  refine readEpochId_ticks.bind fun e => ?_
  split_ifs
  · exact AllSteps.pure _ _
  · exact AllSteps.pure _ _
  · exact rollLoop_ticks _ _

theorem tryDecryptWithEvolution_ticks (wire : Bytes) (h : Header) :
    (tryDecryptWithEvolution P wire h).AllSteps Tick := by
  refine readRootStateCurr_ticks.bind fun curr => readEpochId_ticks.bind fun localEpoch => ?_
  split
  · exact AllSteps.pure _ _
  split_ifs
  · refine (tick_of_frame (by decide) fun _ => ⟨rfl, rfl⟩).bind fun pend => ?_
    split
    · split
      · exact commitEvolution_ticks.bind fun _ => AllSteps.pure _ _
      · exact AllSteps.pure _ _
    · exact AllSteps.pure _ _
  · exact AllSteps.pure _ _

theorem send_ticks (plaintext idStamp : Bytes) (outgoing : Bool) (timestamp : UInt64) :
    (SessionOp.sendProgram P plaintext idStamp outgoing timestamp).AllSteps Tick :=
  nextMsgSeq_ticks.bind fun _ => readEpochId_ticks.bind fun _ =>
    (deriveMessageKey_ticks _ _).bind fun _ => AllSteps.pure _ _

def Reinitialises : SessionOp → Prop
  | .initialiseRootState _ _ _ => True
  | _ => False

theorem program_ticks {op : SessionOp} (hop : ¬ Reinitialises op) :
    (op.program P).AllSteps Tick := by
  cases op with
  | initialiseRootState alice bob bobPk => exact absurd trivial hop
  | generateBobKeypair coins =>
    exact (tick_of_frame (by decide) fun _ => ⟨rfl, rfl⟩).map _
  | setPeerPublicKey pk => exact (tick_of_frame (by decide) fun _ => ⟨rfl, rfl⟩).map _
  | startEvolution coins => exact (startEvolution_ticks coins).map _
  | getKemCipher capacity => exact (tick_of_frame (by decide) fun _ => ⟨rfl, rfl⟩).map _
  | kemCipherLen => exact (tick_of_frame (by decide) fun _ => ⟨rfl, rfl⟩).map _
  | applyPeerKem kemCt => exact (applyPeerKem_ticks kemCt).map _
  | commitEvolution => exact commitEvolution_ticks.map _
  | recoverAfterLoss target => exact (recoverAfterLoss_ticks target).map _
  | getEpochId => exact readEpochId_ticks.map _
  | msgCounterNext => exact nextMsgSeq_ticks.map _
  | deriveMessageKey epoch msgSeq => exact (deriveMessageKey_ticks epoch msgSeq).map _
  | send plaintext idStamp outgoing timestamp => exact send_ticks _ _ _ _
  | tryDecryptWithEvolution wire header => exact (tryDecryptWithEvolution_ticks wire header).map _

def epochChanges (events : List (Event ι Label Session)) : Nat :=
  events.countP (fun event => event.after.epoch ≠ event.before.epoch)

def fetches (events : List (Event ι Label Session)) : Nat :=
  events.countP (fun event => event.label = .nextMsgSeq)

theorem stretch {s t : Session} {events : List (Event ι Label Session)}
    (chain : Chained s events t)
    (ticks : ∀ event ∈ events, Tick event.label event.before event.after) :
    t.epoch = s.epoch + UInt32.ofNat (epochChanges events) ∧
      (epochChanges events = 0 →
        t.msgCounter = s.msgCounter + UInt64.ofNat (fetches events)) := by
  induction events generalizing s with
  | nil =>
    obtain rfl : s = t := chain
    simp [epochChanges, fetches]
  | cons event rest ih =>
    obtain ⟨rfl, hrest⟩ := chain
    obtain ⟨hepoch, hcounter⟩ := ih hrest (fun e he => ticks e (List.mem_cons_of_mem _ he))
    have htick := ticks event List.mem_cons_self
    by_cases hfetch : event.label = .nextMsgSeq
    · rw [Tick, if_pos hfetch] at htick
      have hchanges : epochChanges (event :: rest) = epochChanges rest := by
        simp [epochChanges, htick.1]
      have hfetches : fetches (event :: rest) = fetches rest + 1 := by
        simp [fetches, hfetch]
      refine ⟨by rw [hepoch, htick.1, hchanges], fun hzero => ?_⟩
      rw [hcounter (hchanges ▸ hzero), htick.2, hfetches, UInt64.ofNat_add, UInt64.add_assoc,
        UInt64.add_comm 1]
      rfl
    · rw [Tick, if_neg hfetch] at htick
      have hfetches : fetches (event :: rest) = fetches rest := by
        simp [fetches, hfetch]
      rcases htick with ⟨hsame, hkept⟩ | ⟨hnext, -⟩
      · have hchanges : epochChanges (event :: rest) = epochChanges rest := by
          simp [epochChanges, hsame]
        refine ⟨by rw [hepoch, hsame, hchanges], fun hzero => ?_⟩
        rw [hcounter (hchanges ▸ hzero), hkept, hfetches]
      · have hchanges : epochChanges (event :: rest) = epochChanges rest + 1 := by
          simp [epochChanges, hnext]
        refine ⟨?_, fun hzero => by omega⟩
        rw [hepoch, hnext, hchanges, UInt32.ofNat_add, UInt32.add_assoc, UInt32.add_comm 1]
        rfl

theorem uint32_add_ofNat_ne {x : UInt32} {n : Nat} (pos : 0 < n) (small : n < 2 ^ 32) :
    x + UInt32.ofNat n ≠ x := by
  intro h
  have hzero : UInt32.ofNat n = 0 := by simpa using h
  have := congrArg UInt32.toNat hzero
  rw [UInt32.toNat_ofNat_of_lt' small] at this
  exact absurd this (by simpa using pos.ne')

theorem uint64_add_ofNat_ne {x : UInt64} {n : Nat} (pos : 0 < n) (small : n < 2 ^ 64) :
    x + UInt64.ofNat n ≠ x := by
  intro h
  have hzero : UInt64.ofNat n = 0 := by simpa using h
  have := congrArg UInt64.toNat hzero
  rw [UInt64.toNat_ofNat_of_lt' small] at this
  exact absurd this (by simpa using pos.ne')

theorem fetches_distinct {s t : Session} {xs ys zs : List (Event ι Label Session)}
    {first second : Event ι Label Session}
    (chain : Chained s (xs ++ first :: (ys ++ second :: zs)) t)
    (ticks : ∀ event ∈ xs ++ first :: (ys ++ second :: zs),
      Tick event.label event.before event.after)
    (hfirst : first.label = .nextMsgSeq) (hsecond : second.label = .nextMsgSeq)
    (epochs : epochChanges (xs ++ first :: (ys ++ second :: zs)) < 2 ^ 32)
    (sends : fetches (xs ++ first :: (ys ++ second :: zs)) < 2 ^ 64)
    (sameEpoch : first.before.epoch = second.before.epoch) :
    first.before.msgCounter ≠ second.before.msgCounter := by
  obtain ⟨_, -, -, chain⟩ := chained_append.mp chain
  obtain ⟨_, chain, rfl, -⟩ := chained_append.mp chain
  have htick := ticks first (by simp)
  rw [Tick, if_pos hfirst] at htick
  obtain ⟨hepoch, hcounter⟩ := stretch chain (fun e he => ticks e (by simp [he]))
  have hsplit : epochChanges ys ≤ epochChanges (xs ++ first :: (ys ++ second :: zs)) := by
    simp only [epochChanges, List.countP_append, List.countP_cons]
    omega
  have hcount : fetches ys + 2 ≤ fetches (xs ++ first :: (ys ++ second :: zs)) := by
    simp only [fetches, List.countP_append, List.countP_cons, hfirst, hsecond, decide_true,
      if_true]
    omega
  have hnone : epochChanges ys = 0 := by
    by_contra hpos
    refine uint32_add_ofNat_ne (x := first.before.epoch) (Nat.pos_of_ne_zero hpos) (by omega) ?_
    rw [← htick.1, ← hepoch, htick.1, sameEpoch]
  have hcounter := hcounter hnone
  intro hsame
  refine uint64_add_ofNat_ne (x := first.before.msgCounter) (Nat.succ_pos (fetches ys))
    (by omega) ?_
  rw [Nat.succ_eq_add_one, UInt64.ofNat_add, UInt64.add_comm (UInt64.ofNat (fetches ys)),
    ← UInt64.add_assoc]
  exact (hcounter.trans (by rw [htick.2]; rfl)).symm.trans hsame.symm

theorem send_path {plaintext idStamp : Bytes} {outgoing : Bool} {timestamp : UInt64}
    {events : List (Event ι Label Session)} {key : Key} {h : Header} {wire : Option Bytes}
    (path : Path ((SessionOp.send plaintext idStamp outgoing timestamp).program P) events
      (.done (.sent key h wire))) :
    ∃ i₁ i₂ i₃ s₁ s₂ s₃,
      events = [⟨i₁, .nextMsgSeq, s₁, { s₁ with msgCounter := s₁.msgCounter + 1 }⟩,
        ⟨i₂, .readEpochId, s₂, s₂⟩, ⟨i₃, .readRootStateCurr, s₃, s₃⟩] ∧
      h.epoch = s₂.epoch ∧ h.msgSeq = s₁.msgCounter ∧
      key = deriveMessageKeyFromRoot P s₃.curr h.epoch h.msgSeq := by
  obtain ⟨i₁, s₁, rest₁, rfl, path₁⟩ := Path.of_atomic_bind path
  obtain ⟨i₂, s₂, rest₂, rfl, path₂⟩ := Path.of_atomic_bind path₁
  simp only [deriveMessageKey, bind_assoc] at path₂
  obtain ⟨i₃, s₃, rest₃, rfl, path₃⟩ := Path.of_atomic_bind path₂
  obtain ⟨rfl, hreply⟩ := Path.of_pure path₃
  obtain ⟨rfl, rfl, -⟩ := Reply.sent.inj hreply
  exact ⟨i₁, i₂, i₃, s₁, s₂, s₃, rfl, rfl, rfl, rfl⟩

/-- Root, epoch and sequence number a send worked with, from its sections. -/
def obtained (calls : List (Event ι Label Session)) : Option (Key × UInt32 × UInt64) := do
  let fetch ← sectionAt .nextMsgSeq calls
  let epochRead ← sectionAt .readEpochId calls
  let rootRead ← sectionAt .readRootStateCurr calls
  pure (rootRead.before.curr, epochRead.before.epoch, fetch.before.msgCounter)

def rootsIn (history : List (Event ι Label Session)) : Set Key :=
  { root | ∃ event ∈ history, event.before.curr = root }

/-- The send reads the epoch it took its sequence number in. -/
def EpochKept (calls : List (Event ι Label Session)) : Prop :=
  ∀ fetch ∈ sectionAt .nextMsgSeq calls, ∀ epochRead ∈ sectionAt .readEpochId calls,
    epochRead.before.epoch = fetch.before.epoch

theorem split_two {α : Type} {a b : α} {l : List α} (ha : a ∈ l) (hb : b ∈ l) (hne : a ≠ b) :
    (∃ xs ys zs, l = xs ++ a :: (ys ++ b :: zs)) ∨
      ∃ xs ys zs, l = xs ++ b :: (ys ++ a :: zs) := by
  obtain ⟨xs, rest, rfl⟩ := List.append_of_mem ha
  rcases List.mem_append.mp hb with hb | hb
  · obtain ⟨us, vs, rfl⟩ := List.append_of_mem hb
    exact Or.inr ⟨us, vs, rest, by simp⟩
  · obtain ⟨us, vs, rfl⟩ := List.append_of_mem (List.mem_of_ne_of_mem (Ne.symm hne) hb)
    exact Or.inl ⟨xs, us, vs, rfl⟩

section Runs

variable [DecidableEq ι] {start₀ : Session} {ops : ι → SessionOp}
  {c : Config ι Label Session Reply} {i j : ι}

theorem fetched_distinct (reach : Reachable start₀ (fun k => (ops k).program P) c)
    (noInit : ∀ k, ¬ Reinitialises (ops k))
    (epochs : epochChanges c.history < 2 ^ 32) (sends : fetches c.history < 2 ^ 64)
    {first second : Event ι Label Session}
    (hfirst : first ∈ c.history) (hsecond : second ∈ c.history)
    (firstFetch : first.label = .nextMsgSeq) (secondFetch : second.label = .nextMsgSeq)
    (different : first.thread ≠ second.thread)
    (sameEpoch : first.before.epoch = second.before.epoch) :
    first.before.msgCounter ≠ second.before.msgCounter := by
  have chain := reach.chained
  have ticks := (reach.allSteps fun k => program_ticks (P := P) (noInit k)).2
  rcases split_two hfirst hsecond (fun h => different (h ▸ rfl)) with
    ⟨xs, ys, zs, hsplit⟩ | ⟨xs, ys, zs, hsplit⟩
  · rw [hsplit] at chain ticks epochs sends
    exact fetches_distinct chain ticks firstFetch secondFetch epochs sends sameEpoch
  · rw [hsplit] at chain ticks epochs sends
    exact (fetches_distinct chain ticks secondFetch firstFetch epochs sends sameEpoch.symm).symm

theorem epochKept_of_quiet_window {plaintext idStamp : Bytes} {outgoing : Bool}
    {timestamp : UInt64} {key : Key} {h : Header} {wire : Option Bytes}
    (reach : Reachable start₀ (fun k => (ops k).program P) c)
    (hop : ops i = .send plaintext idStamp outgoing timestamp)
    (returned : c.threads i = .done (.sent key h wire))
    (quiet : ∀ (xs : List (Event ι Label Session)) (fetch : Event ι Label Session)
      (ys : List (Event ι Label Session)) (epochRead : Event ι Label Session)
      (zs : List (Event ι Label Session)), c.history = xs ++ fetch :: (ys ++ epochRead :: zs) →
      fetch.thread = i → fetch.label = .nextMsgSeq →
      epochRead.thread = i → epochRead.label = .readEpochId →
      ∀ event ∈ ys, event.after.epoch = event.before.epoch) :
    EpochKept (own i c.history) := by
  have path := reach.path i
  rw [hop, returned] at path
  obtain ⟨i₁, i₂, i₃, s₁, s₂, s₃, events, -⟩ := send_path path
  obtain ⟨xs, ws, hxs, hi₁, hws⟩ := own_eq_cons events
  obtain ⟨ys, vs, hys, hi₂, -⟩ := own_eq_cons hws
  have frame := quiet xs _ ys _ vs (by rw [hxs, hys]) hi₁ rfl hi₂ rfl
  have chain := reach.chained
  rw [hxs, hys] at chain
  obtain ⟨_, -, -, chain⟩ := chained_append.mp chain
  obtain ⟨_, window, rfl, -⟩ := chained_append.mp chain
  have hepoch := window.component_eq (f := Session.epoch) frame
  simpa [EpochKept, sectionAt, events] using hepoch

variable {ptᵢ ptⱼ stampᵢ stampⱼ : Bytes} {outᵢ outⱼ : Bool} {tsᵢ tsⱼ : UInt64}
  {keyᵢ keyⱼ : Key} {hᵢ hⱼ : Header} {wireᵢ wireⱼ : Option Bytes}

/-- In every interleaving of any operations but initialisation, two completed
sends that each read the epoch they took their number in obtain different
sequence numbers in that epoch, hence different triples and different keys. -/
theorem sends_obtain_distinct (reach : Reachable start₀ (fun k => (ops k).program P) c)
    (noInit : ∀ k, ¬ Reinitialises (ops k))
    (epochs : epochChanges c.history < 2 ^ 32) (sends : fetches c.history < 2 ^ 64)
    (hij : i ≠ j)
    (opᵢ : ops i = .send ptᵢ stampᵢ outᵢ tsᵢ) (opⱼ : ops j = .send ptⱼ stampⱼ outⱼ tsⱼ)
    (sentᵢ : c.threads i = .done (.sent keyᵢ hᵢ wireᵢ))
    (sentⱼ : c.threads j = .done (.sent keyⱼ hⱼ wireⱼ))
    (keptᵢ : EpochKept (own i c.history)) (keptⱼ : EpochKept (own j c.history)) :
    obtained (own i c.history) ≠ obtained (own j c.history) ∧
      (hᵢ.epoch = hⱼ.epoch → hᵢ.msgSeq ≠ hⱼ.msgSeq) ∧
      (MessageKeysDistinct P (rootsIn c.history) → keyᵢ ≠ keyⱼ) := by
  have pathᵢ := reach.path i
  have pathⱼ := reach.path j
  rw [opᵢ, sentᵢ] at pathᵢ
  rw [opⱼ, sentⱼ] at pathⱼ
  obtain ⟨i₁, i₂, i₃, s₁, s₂, s₃, eventsᵢ, epochᵢ, seqᵢ, hkeyᵢ⟩ := send_path pathᵢ
  obtain ⟨j₁, j₂, j₃, t₁, t₂, t₃, eventsⱼ, epochⱼ, seqⱼ, hkeyⱼ⟩ := send_path pathⱼ
  obtain ⟨xs, ys, splitᵢ, rfl, -⟩ := own_eq_cons eventsᵢ
  obtain ⟨us, vs, splitⱼ, rfl, -⟩ := own_eq_cons eventsⱼ
  have hkeptᵢ : s₂.epoch = s₁.epoch := by
    simpa [EpochKept, sectionAt, eventsᵢ] using keptᵢ
  have hkeptⱼ : t₂.epoch = t₁.epoch := by
    simpa [EpochKept, sectionAt, eventsⱼ] using keptⱼ
  have unique : hᵢ.epoch = hⱼ.epoch → hᵢ.msgSeq ≠ hⱼ.msgSeq := by
    rw [epochᵢ, epochⱼ, seqᵢ, seqⱼ, hkeptᵢ, hkeptⱼ]
    exact fetched_distinct reach noInit epochs sends (by simp [splitᵢ]) (by simp [splitⱼ])
      rfl rfl hij
  have hobtainedᵢ : obtained (own i₁ c.history) = some (s₃.curr, hᵢ.epoch, hᵢ.msgSeq) := by
    simp [obtained, sectionAt, eventsᵢ, epochᵢ, seqᵢ]
  have hobtainedⱼ : obtained (own j₁ c.history) = some (t₃.curr, hⱼ.epoch, hⱼ.msgSeq) := by
    simp [obtained, sectionAt, eventsⱼ, epochⱼ, seqⱼ]
  refine ⟨fun hsame => ?_, unique, fun keys hsame => ?_⟩
  · rw [hobtainedᵢ, hobtainedⱼ] at hsame
    simp only [Option.some.injEq, Prod.mk.injEq] at hsame
    exact unique hsame.2.1 hsame.2.2
  · have hrootᵢ : s₃.curr ∈ rootsIn c.history :=
      ⟨_, List.mem_of_mem_filter (eventsᵢ ▸ List.mem_cons_of_mem _ (List.mem_of_getLast? rfl)), rfl⟩
    have hrootⱼ : t₃.curr ∈ rootsIn c.history :=
      ⟨_, List.mem_of_mem_filter (eventsⱼ ▸ List.mem_cons_of_mem _ (List.mem_of_getLast? rfl)), rfl⟩
    rw [hkeyᵢ, hkeyⱼ] at hsame
    obtain ⟨-, hepoch, hseq⟩ := keys hrootᵢ hrootⱼ hsame
    exact unique hepoch hseq

end Runs

/-! Two senders around a commit: the first takes its number before the commit
and reads the epoch after it, the second starts in the new epoch. -/

def committing : Session :=
  { Session.fresh with pend := some (List.replicate 32 7) }

def sendersAndCommit : Fin 3 → SessionOp
  | 0 => .send [104, 105] (List.replicate 32 9) true 1000
  | 1 => .commitEvolution
  | 2 => .send [104, 111] (List.replicate 32 9) true 1001

def sending (order : List (Fin 3)) : Config (Fin 3) Label Session Reply :=
  (start committing fun i => (sendersAndCommit i).program SymbolicPrimitives.symbolic).schedule
    order

theorem sending_reachable (order : List (Fin 3)) :
    Reachable committing
      (fun i => (sendersAndCommit i).program SymbolicPrimitives.symbolic) (sending order) :=
  reachable_schedule _ _ order

def sentWith (key : Key) (epoch : UInt32) (seq timestamp : UInt64) (pt : Bytes) : Reply :=
  .sent (deriveMessageKeyFromRoot SymbolicPrimitives.symbolic key epoch seq)
    ⟨List.replicate 32 9, true, epoch, seq, timestamp⟩
    (encrypt SymbolicPrimitives.symbolic pt
      (deriveMessageKeyFromRoot SymbolicPrimitives.symbolic key epoch seq)
      ⟨List.replicate 32 9, true, epoch, seq, timestamp⟩)

theorem sends_obtain_distinct_quiet :
    obtained (own 0 (sending [0, 2, 0, 2, 2, 1, 0]).history) ≠
      obtained (own 2 (sending [0, 2, 0, 2, 2, 1, 0]).history) := by
  have first : (sending [0, 2, 0, 2, 2, 1, 0]).threads 0 =
      .done (sentWith (List.replicate 32 7) 0 1 1000 [104, 105]) :=
    result?_eq_some.mp (by decide +kernel)
  have second : (sending [0, 2, 0, 2, 2, 1, 0]).threads 2 =
      .done (sentWith zeros32 0 2 1001 [104, 111]) :=
    result?_eq_some.mp (by decide +kernel)
  refine (sends_obtain_distinct (sending_reachable _) (fun k => ?_) ?_ ?_ (by decide) rfl rfl
    first second ?_ ?_).1
  · fin_cases k <;> exact id
  · decide +kernel
  · decide +kernel
  · unfold EpochKept
    decide +kernel
  · unfold EpochKept
    decide +kernel

theorem straddling_send_repeats_triple :
    ∃ c, Reachable committing
        (fun i => (sendersAndCommit i).program SymbolicPrimitives.symbolic) c ∧
      c.threads 0 = .done (sentWith (List.replicate 32 7) 1 1 1000 [104, 105]) ∧
      c.threads 2 = .done (sentWith (List.replicate 32 7) 1 1 1001 [104, 111]) ∧
      obtained (own 0 c.history) = some (List.replicate 32 7, 1, 1) ∧
      obtained (own 2 c.history) = some (List.replicate 32 7, 1, 1) := by
  -- Both sends complete and have obtained the same root, epoch and sequence number.
  refine ⟨sending [0, 1, 0, 0, 2, 2, 2], sending_reachable _,
    result?_eq_some.mp ?_, result?_eq_some.mp ?_, ?_, ?_⟩
  · decide +kernel
  · decide +kernel
  · decide +kernel
  · decide +kernel

end SecureCore.SendInterleaving
