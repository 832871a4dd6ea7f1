import SecureCore.TwoParty
import SecureCore.VaultSteps

/-! The ID stamp in the vault. It is documented as a hash over `RootState_init` and
`bob_pk`, but `generate_id_stamp` hashes the current root, which commits and
recoveries replace. As long as it is called under the initial root, block 994 keeps
the documented stamp through all evolutions, the same on both devices. -/

namespace SecureCore.IdStamp

open VirtualVolume FaultyFile FallibleState BlockStore VaultEntries MessageCipher

/-- No further initialisation and no other write to block 994. -/
def Leaves : DeviceOp → Prop
  | .session (.initialiseRootState alice bob bobPk) => ¬ InitModule.Accepts alice bob bobPk
  | .writeVaultBlocks start drafts =>
    idStampBlock < start ∨ start + drafts.length ≤ idStampBlock
  | .secureEraseBlock blockIdx _ => blockIdx ≠ idStampBlock
  | .restart _ => False
  | _ => True

def Generated (call : DeviceCall) : Prop :=
  (∃ nonce, call.op = .generateIdStamp nonce) ∧ call.reply = .code 0

/-- A device on which these calls were made after an initialisation, and the stamp
was generated by one of them. -/
inductive Paired (P : Primitives) (V : VaultPrimitives) (alice bob bobPk : Bytes)
    (calls : List DeviceCall) (d : Device) : Prop where
  | intro {masterKey : Bytes} {n : Nat} (capacity : n ≤ maxDataBlocks) {f f' : File} {v₀ : Volume}
      (healthy : Healthy f) (created : createNew V masterKey n f = .ok v₀ f') (ops : List VaultOp)
      {d₀ d₁ : Device} (vault : d₀.vfs = some (v₀.steps V ops))
      (initialised : (DeviceOp.session (.initialiseRootState alice bob bobPk)).program P V d₀ =
        .ok (.session (.code 0)) d₁)
      (run : Run P V d₁ calls d) (leaves : ∀ call ∈ calls, Leaves call.op)
      (generated : ∃ call ∈ calls, Generated call)

def UnderInitialRoot (P : Primitives) (alice bob : Bytes) (calls : List DeviceCall) : Prop :=
  ∀ call ∈ calls, ∀ nonce, call.op = .generateIdStamp nonce →
    call.before.session.curr = InitModule.initialRoot P alice bob

section Session

variable {P : Primitives} {s : Session}

theorem bobPkStore_kept {op : SessionOp} (leaves : Leaves (.session op)) :
    (op.exec P s).2.bobPkStore = s.bobPkStore := by
  have hstep := exec_step (P := P) op s
  generalize (op.exec P s).1 = reply, (op.exec P s).2 = s' at hstep
  cases hstep with
  | initialised alice bob bobPk accepted => exact absurd accepted leaves
  | recovered => exact (AntiDos.rolledBy_stores _ _).2
  | _ => rfl

theorem bobPkStore_initialised {alice bob bobPk : Bytes}
    (h : ((SessionOp.initialiseRootState alice bob bobPk).exec P s).1 = .code 0) :
    ((SessionOp.initialiseRootState alice bob bobPk).exec P s).2.bobPkStore = bobPk := by
  have hstep := exec_step (P := P) (.initialiseRootState alice bob bobPk) s
  rw [h] at hstep
  generalize ((SessionOp.initialiseRootState alice bob bobPk).exec P s).2 = s' at hstep
  cases hstep with
  | initialised => rfl
  | idle op reply reports =>
    obtain ⟨value, hvalue, hcode⟩ := reports
    exact absurd (Reply.code.inj hcode).symm hvalue

theorem sessionAfter_bobPkStore {op : DeviceOp} (leaves : Leaves op) :
    (op.sessionAfter P s).bobPkStore = s.bobPkStore := by
  cases op with
  | session op => exact bobPkStore_kept leaves
  | restart totalDataBlocks => exact leaves.elim
  | _ => rfl

end Session

def Stores (P : Primitives) (root bobPk : Bytes) (contents : Contents) : Prop :=
  ∃ stamp : Exactly 32, stamp.val = InitModule.computeIdStamp P root bobPk ∧
    contents idStampBlock = some (stampBlock stamp)

section Step

variable {P : Primitives} {V : VaultPrimitives} {masterKey : Bytes} {n : Nat} {s : Session}
  {root bobPk : Bytes} {contents contents' : Contents} {free free' : Finset Nat}
  {op : DeviceOp} {reply : DeviceReply}

theorem step_entry (leaves : Leaves op) (other : ∀ nonce, op ≠ .generateIdStamp nonce)
    (step : DeviceStep P s contents free op reply contents' free') :
    contents' idStampBlock = contents idStampBlock := by
  cases step with
  | erased blockIdx draft taken => exact Function.update_of_ne (Ne.symm leaves) _ _
  | filled blockIdx draft loose => exact Function.update_of_ne (Ne.symm leaves) _ _
  | wrote start drafts k bound =>
    refine overlay_apart ?_
    rw [List.length_take_of_le bound]
    exact leaves.imp_right fun h => (Nat.add_le_add_left bound _).trans h
  | planted draws code contents' apart => exact apart _ (Or.inl (by decide))
  | stamped nonce => exact absurd rfl (other nonce)
  | _ => rfl

theorem step_stores (leaves : Leaves op)
    (initial : ∀ nonce, op = .generateIdStamp nonce → s.curr = root)
    (pinned : s.bobPkStore = bobPk)
    (step : DeviceStep P s contents free op reply contents' free')
    (h : Stores P root bobPk contents ∨
      (∃ nonce, op = .generateIdStamp nonce) ∧ reply = .code 0) :
    Stores P root bobPk contents' := by
  by_cases hgenerate : ∃ nonce, op = .generateIdStamp nonce
  · obtain ⟨nonce, rfl⟩ := hgenerate
    cases step with
    | stamped nonce stamp computed =>
      rw [initial nonce rfl, pinned] at computed
      exact ⟨stamp, computed, Function.update_self _ _ _⟩
    | idle op reply reports =>
      obtain rfl : reply = .code 1 := reports
      exact h.resolve_right fun hreply => by cases hreply.2
  · have hother : ∀ nonce, op ≠ .generateIdStamp nonce := fun nonce hop => hgenerate ⟨nonce, hop⟩
    obtain ⟨stamp, hstamp, hentry⟩ := h.resolve_right fun hreply => hgenerate hreply.1
    exact ⟨stamp, hstamp, (step_entry leaves hother step).trans hentry⟩

theorem run_stores (tagged : V.ChachaTagged) {d₀ d : Device} {alice bob : Bytes}
    (shows₀ : d₀.Shows V masterKey n contents free) (pinned₀ : d₀.session.bobPkStore = bobPk)
    {calls : List DeviceCall} (run : Run P V d₀ calls d)
    (leaves : ∀ call ∈ calls, Leaves call.op) (initial : UnderInitialRoot P alice bob calls) :
    d.session.bobPkStore = bobPk ∧ ∃ contents' free', d.Shows V masterKey n contents' free' ∧
      ((∃ call ∈ calls, Generated call) →
        Stores P (InitModule.initialRoot P alice bob) bobPk contents') := by
  induction run with
  | start => exact ⟨pinned₀, contents, free, shows₀, fun ⟨call, hcall, _⟩ => by cases hcall⟩
  | @step calls d₁ d₂ run op reply returns ih =>
    obtain ⟨hpinned, contents₁, free₁, hshows, hstores⟩ :=
      ih (fun call hcall => leaves call (List.mem_append_left _ hcall))
        (fun call hcall => initial call (List.mem_append_left _ hcall))
    have hlast : (⟨op, d₁, reply, d₂⟩ : DeviceCall) ∈ calls ++ [⟨op, d₁, reply, d₂⟩] :=
      List.mem_append_right _ List.mem_cons_self
    obtain ⟨contents₂, free₂, hshows', hstep⟩ := program_step tagged hshows returns
    refine ⟨?_, contents₂, free₂, hshows', fun hgenerated => ?_⟩
    · rw [program_session returns, sessionAfter_bobPkStore (leaves _ hlast), hpinned]
    · refine step_stores (leaves _ hlast) (initial _ hlast) hpinned hstep ?_
      obtain ⟨call, hcall, hdone⟩ := hgenerated
      rcases List.mem_append.mp hcall with hearlier | hnow
      · exact Or.inl (hstores ⟨call, hearlier, hdone⟩)
      · obtain rfl := List.mem_singleton.mp hnow
        exact Or.inr hdone

theorem load_stored (inverts : V.ChachaInverts) {d : Device}
    (h : d.Shows V masterKey n contents free) (stores : Stores P root bobPk contents) :
    ∃ d', DeviceOp.loadIdStamp.program P V d =
      .ok (.stamp (some (InitModule.computeIdStamp P root bobPk))) d' := by
  obtain ⟨v, vault, hshows⟩ := h
  obtain ⟨stamp, hstamp, hentry⟩ := stores
  have hread := attempt_ok (hshows.holds.read inverts hshows.live hentry)
  have hload : readIdStamp V v = .ok (some (InitModule.computeIdStamp P root bobPk))
      (v.moved (idStampBlock * blockSize + blockSize)) := by
    rw [readIdStamp, vaultReadBlock, bind_ok hread, ← hstamp, pure_apply, Option.map_some,
      stampBlock, List.take_left' stamp.property]
  exact ⟨_, wrapped_ok vault hload⟩

theorem Paired.loads (inverts : V.ChachaInverts) (tagged : V.ChachaTagged)
    {alice bob : Bytes} {calls : List DeviceCall} {d : Device}
    (h : Paired P V alice bob bobPk calls d) (initial : UnderInitialRoot P alice bob calls) :
    ∃ d', DeviceOp.loadIdStamp.program P V d = .ok (.stamp (some
      (InitModule.computeIdStamp P (InitModule.initialRoot P alice bob) bobPk))) d' := by
  obtain ⟨capacity, healthy, created, ops, vault, initialised, run, leaves, generated⟩ := h
  have live := steps_live tagged (live_created capacity healthy created) ops
  obtain ⟨contents₁, free₁, hshows₁, -⟩ :=
    program_step tagged ⟨_, vault, shows_of_live live⟩ initialised
  obtain ⟨reply, hrun, hreply⟩ := ok_of_wrapped initialised
  cases hrun
  have hpinned := bobPkStore_initialised (DeviceReply.session.inj hreply).symm
  obtain ⟨-, contents, free, hshows, hstores⟩ :=
    run_stores tagged hshows₁ hpinned run leaves initial
  exact load_stored inverts hshows (hstores generated)

end Step

def pairedSession : Session :=
  ((SessionOp.initialiseRootState sampleEntropy sampleEntropy [1, 2]).exec
    SymbolicPrimitives.symbolic Session.fresh).2

def pairedDevice : Device := { sampleDevice with session := pairedSession }

theorem pairedDevice_shows : pairedDevice.Shows symbolicVault sampleKey 991 (fun _ => none)
    (Finset.Ico 9 1000) := by
  obtain ⟨v, hvault, hshows⟩ := sampleDevice_shows
  exact ⟨v, hvault, hshows⟩

theorem sample_generates {contents : Contents} {free : Finset Nat} {d : Device}
    (h : d.Shows symbolicVault sampleKey 991 contents free) :
    ∃ d' contents', (DeviceOp.generateIdStamp sampleNonce).program SymbolicPrimitives.symbolic
        symbolicVault d = .ok (.code 0) d' ∧ d'.session = d.session ∧
      d'.Shows symbolicVault sampleKey 991 contents' free ∧
      Stores SymbolicPrimitives.symbolic d.session.curr d.session.bobPkStore contents' := by
  obtain ⟨stamp, hstamp⟩ : ∃ stamp : Exactly 32, stamp.val = InitModule.computeIdStamp
      SymbolicPrimitives.symbolic d.session.curr d.session.bobPkStore :=
    ⟨⟨_, SymbolicPrimitives.fit32_length _⟩, rfl⟩
  obtain ⟨d', hreturns, hshows⟩ := h.stamps symbolicVault_chachaTagged symbolicVault_accepting
    (by decide) hstamp sampleNonce
  exact ⟨d', _, hreturns, program_session hreturns, hshows, stamp, hstamp,
    Function.update_self _ _ _⟩

theorem sample_paired {calls : List DeviceCall} {d : Device}
    (run : Run SymbolicPrimitives.symbolic symbolicVault pairedDevice calls d)
    (leaves : ∀ call ∈ calls, Leaves call.op) (generated : ∃ call ∈ calls, Generated call) :
    Paired SymbolicPrimitives.symbolic symbolicVault sampleEntropy sampleEntropy [1, 2] calls
      d := by
  have hcode : ((SessionOp.initialiseRootState sampleEntropy sampleEntropy [1, 2]).exec
      SymbolicPrimitives.symbolic Session.fresh).1 = .code 0 := by decide +kernel
  have hinit : (DeviceOp.session (.initialiseRootState sampleEntropy sampleEntropy [1, 2])).program
      SymbolicPrimitives.symbolic symbolicVault sampleDevice =
        .ok (.session (.code 0)) pairedDevice := by
    rw [← hcode]
    rfl
  exact .intro (n := 991) (by decide) (f := absentFile) rfl (createNew_healthy rfl rfl) [] rfl hinit
    run leaves generated

/-- Two devices initialised with the same inputs, on which the stamp was generated
under the initial root at any time and nothing else was written to its block, load
the documented stamp, and what is encrypted with the stamp of one opens with the
other's. -/
theorem peers_load_initial_stamp {P : Primitives} {V : VaultPrimitives} (aead : P.AeadCorrect)
    (inverts : V.ChachaInverts) (tagged : V.ChachaTagged) {alice bob bobPk : Bytes}
    {calls calls' : List DeviceCall} {d d' : Device}
    (paired : Paired P V alice bob bobPk calls d) (paired' : Paired P V alice bob bobPk calls' d')
    (initial : UnderInitialRoot P alice bob calls)
    (initial' : UnderInitialRoot P alice bob calls') :
    ∃ stamp stamp' e e',
      DeviceOp.loadIdStamp.program P V d = .ok (.stamp (some stamp)) e ∧
      DeviceOp.loadIdStamp.program P V d' = .ok (.stamp (some stamp')) e' ∧
      stamp = InitModule.computeIdStamp P (InitModule.initialRoot P alice bob) bobPk ∧
      stamp' = stamp ∧
      ∀ pt key wire outgoing epoch msgSeq timestamp,
        encrypt P pt key ⟨stamp, outgoing, epoch, msgSeq, timestamp⟩ = some wire →
        decrypt P wire key ⟨stamp', outgoing, epoch, msgSeq, timestamp⟩ = some pt := by
  obtain ⟨e, hload⟩ := paired.loads inverts tagged initial
  obtain ⟨e', hload'⟩ := paired'.loads inverts tagged initial'
  refine ⟨_, _, e, e', hload, hload', rfl, rfl, ?_⟩
  intro pt key wire outgoing epoch msgSeq timestamp hwire
  exact decrypt_encrypt aead hwire

theorem peers_load_initial_stamp_afterRecovery :
    ∃ d d' stamp e e', d.session.epoch = 0 ∧ d'.session.epoch = 1 ∧
      DeviceOp.loadIdStamp.program SymbolicPrimitives.symbolic symbolicVault d =
        .ok (.stamp (some stamp)) e ∧
      DeviceOp.loadIdStamp.program SymbolicPrimitives.symbolic symbolicVault d' =
        .ok (.stamp (some stamp)) e' := by
  -- One peer generates the stamp at once, the other as well but then recovers to epoch 1.
  obtain ⟨d₁, contents₁, hgenerate, hsession₁, hshows₁, -⟩ := sample_generates pairedDevice_shows
  have hrecover : (DeviceOp.session (.recoverAfterLoss 1)).program SymbolicPrimitives.symbolic
    symbolicVault d₁ = .ok _ _ := rfl
  have hrun := Run.single hgenerate
  have hpaired := sample_paired hrun (by simp [Leaves]) ⟨_, List.mem_cons_self, ⟨_, rfl⟩, rfl⟩
  have hpaired' := sample_paired (hrun.append (.single hrecover)) (by simp [Leaves])
    ⟨_, List.mem_cons_self, ⟨_, rfl⟩, rfl⟩
  have hinitial : pairedDevice.session.curr =
      InitModule.initialRoot SymbolicPrimitives.symbolic sampleEntropy sampleEntropy := by
    decide +kernel
  obtain ⟨stamp, stamp', e, e', hload, hload', -, rfl, -⟩ :=
    peers_load_initial_stamp SymbolicPrimitives.symbolic_aeadCorrect symbolicVault_chachaInverts
      symbolicVault_chachaTagged hpaired hpaired' (by simp [UnderInitialRoot, hinitial])
      (by simp [UnderInitialRoot, hinitial])
  refine ⟨_, _, _, e, e', ?_, ?_, hload, hload'⟩
  · rw [hsession₁]
    decide +kernel
  · change ((SessionOp.recoverAfterLoss 1).exec SymbolicPrimitives.symbolic d₁.session).2.epoch = 1
    rw [hsession₁]
    decide +kernel

theorem stamp_of_recovered_root :
    ∃ calls d stamp e,
      Paired SymbolicPrimitives.symbolic symbolicVault sampleEntropy sampleEntropy [1, 2] calls d ∧
      DeviceOp.loadIdStamp.program SymbolicPrimitives.symbolic symbolicVault d =
        .ok (.stamp (some stamp)) e ∧
      stamp ≠ InitModule.computeIdStamp SymbolicPrimitives.symbolic
        (InitModule.initialRoot SymbolicPrimitives.symbolic sampleEntropy sampleEntropy)
          [1, 2] := by
  -- A stamp generated after a recovery is another one, and the one that is loaded.
  obtain ⟨d₁, contents₁, hgenerate, hsession₁, ⟨v, hvault, hshows₁⟩, -⟩ :=
    sample_generates pairedDevice_shows
  have hrecover : (DeviceOp.session (.recoverAfterLoss 1)).program SymbolicPrimitives.symbolic
    symbolicVault d₁ = .ok _ _ := rfl
  obtain ⟨d₃, contents₃, hagain, -, hshows₃, hstores⟩ := sample_generates
    (d := { d₁ with session :=
      ((SessionOp.recoverAfterLoss 1).exec SymbolicPrimitives.symbolic d₁.session).2 })
    ⟨v, hvault, hshows₁⟩
  obtain ⟨e, hload⟩ := load_stored symbolicVault_chachaInverts hshows₃ hstores
  refine ⟨_, d₃, _, e, sample_paired ((Run.single hgenerate).append
    ((Run.single hrecover).append (.single hagain))) (by simp [Leaves])
    ⟨_, List.mem_cons_self, ⟨_, rfl⟩, rfl⟩, hload, ?_⟩
  dsimp only
  rw [hsession₁]
  decide +kernel

end SecureCore.IdStamp
