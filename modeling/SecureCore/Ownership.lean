import SecureCore.VaultSteps

/-! A client of the vault entry points that writes, frees and erases only the blocks
it owns. The canaries and the ID stamp live at fixed indices the allocator knows
nothing of until `init_canary_slots` has run, and both are written whoever owns the
block. What the client wrote stays as long as they are not written over it. -/

namespace SecureCore.Ownership

open VirtualVolume FaultyFile FallibleState AllocatorRefinement BlockStore VaultEntries

/-- What a client knows from its own calls: the blocks allocated to it and not freed
or erased since, and what it last wrote to each of them. -/
structure Ledger where
  owned : Finset Nat
  contents : Contents

namespace Ledger

def empty : Ledger := ⟨∅, fun _ => none⟩

def gain (ledger : Ledger) (blockIdx : Nat) : Ledger :=
  ⟨insert blockIdx ledger.owned, Function.update ledger.contents blockIdx none⟩

def lose (ledger : Ledger) (blockIdx : Nat) : Ledger :=
  ⟨ledger.owned.erase blockIdx, Function.update ledger.contents blockIdx none⟩

def next (ledger : Ledger) (call : DeviceCall) : Ledger :=
  match call.op, call.reply with
  | .allocateVaultBlock, .block blockIdx =>
    if blockIdx = u64Max then ledger else ledger.gain blockIdx
  | .freeVaultBlock blockIdx, .code 0 => ledger.lose blockIdx
  | .secureEraseBlock blockIdx _, .code 0 => ledger.lose blockIdx
  | .writeVaultBlocks start drafts, .count k =>
    { ledger with contents := overlay ledger.contents start (drafts.take k) }
  | _, _ => ledger

def after (ledger : Ledger) (calls : List DeviceCall) : Ledger := calls.foldl next ledger

def Permits (ledger : Ledger) : DeviceOp → Prop
  | .writeVaultBlocks start drafts => ∀ i < drafts.length, start + i ∈ ledger.owned
  | .freeVaultBlock blockIdx | .secureEraseBlock blockIdx _ => blockIdx ∈ ledger.owned
  | _ => True

/-- No canary and no stamp is written over a payload of the client's. -/
def Spares (ledger : Ledger) : DeviceOp → Prop
  | .initCanarySlots _ => ∀ b, 995 ≤ b → b ≤ 999 → ledger.contents b = none
  | .generateIdStamp _ => ledger.contents idStampBlock = none
  | _ => True

def Obeys (rule : Ledger → DeviceOp → Prop) : Ledger → List DeviceCall → Prop
  | _, [] => True
  | ledger, call :: calls => rule ledger call.op ∧ Obeys rule (ledger.next call) calls

theorem obeys_append {rule : Ledger → DeviceOp → Prop} {ledger : Ledger}
    {calls more : List DeviceCall} :
    Obeys rule ledger (calls ++ more) ↔
      Obeys rule ledger calls ∧ Obeys rule (ledger.after calls) more := by
  induction calls generalizing ledger with
  | nil => simp [Obeys, after]
  | cons call calls ih =>
    rw [List.cons_append, Obeys, Obeys, ih, and_assoc]
    rfl

theorem obeys_allocations {rule : Ledger → DeviceOp → Prop} {calls : List DeviceCall}
    (allowed : ∀ ledger, rule ledger .allocateVaultBlock)
    (h : ∀ call ∈ calls, call.op = .allocateVaultBlock) (ledger : Ledger) :
    Obeys rule ledger calls := by
  induction calls generalizing ledger with
  | nil => trivial
  | cons call calls ih =>
    refine ⟨?_, ih (fun other hother => h other (List.mem_cons_of_mem _ hother)) _⟩
    rw [h call List.mem_cons_self]
    exact allowed ledger

theorem after_append (ledger : Ledger) (calls more : List DeviceCall) :
    ledger.after (calls ++ more) = (ledger.after calls).after more :=
  List.foldl_append

theorem after_allocations {calls : List DeviceCall} {blockIdx : Nat}
    (h : ∀ call ∈ calls, call.op = .allocateVaultBlock) {ledger : Ledger}
    (none₀ : ledger.contents blockIdx = none) :
    (ledger.after calls).contents blockIdx = none := by
  induction calls generalizing ledger with
  | nil => exact none₀
  | cons call calls ih =>
    refine ih (fun other hother => h other (List.mem_cons_of_mem _ hother)) ?_
    obtain ⟨op, before, reply, after⟩ := call
    obtain rfl : op = .allocateVaultBlock := h _ List.mem_cons_self
    cases reply with
    | block other =>
      simp only [next]
      split_ifs
      · exact none₀
      · simp only [gain, Function.update_apply, none₀, ite_self]
    | _ => exact none₀

end Ledger

structure Agrees (ledger : Ledger) (contents : Contents) (free : Finset Nat) : Prop where
  holds : ∀ b payload, ledger.contents b = some payload → contents b = some payload
  taken : ∀ b ∈ ledger.owned, b ∉ free

section Step

variable {P : Primitives} {V : VaultPrimitives} {masterKey : Bytes} {n : Nat} {ledger : Ledger}
  {contents contents' : Contents} {free free' : Finset Nat} {d₀ d : Device}

theorem update_none_holds {entries : Contents} {blockIdx : Nat}
    (h : ∀ b payload, entries b = some payload → b ≠ blockIdx → contents b = some payload) :
    ∀ b payload, Function.update entries blockIdx none b = some payload →
      contents b = some payload := by
  intro b payload hentry
  by_cases hb : b = blockIdx
  · subst hb
    rw [Function.update_self] at hentry
    cases hentry
  · rw [Function.update_of_ne hb] at hentry
    exact h b payload hentry hb

theorem agrees_gain (h : Agrees ledger contents free) (blockIdx : Nat) :
    Agrees (ledger.gain blockIdx) contents (free.erase blockIdx) := by
  refine ⟨update_none_holds fun b payload hentry _ => h.holds b payload hentry, fun b hb => ?_⟩
  rcases Finset.mem_insert.mp hb with rfl | hb
  · exact Finset.notMem_erase _ _
  · exact fun hmem => h.taken b hb (Finset.mem_of_mem_erase hmem)

theorem agrees_lose (h : Agrees ledger contents free) {blockIdx : Nat}
    (apart : ∀ b, b ≠ blockIdx → contents' b = contents b) :
    Agrees (ledger.lose blockIdx) contents' (insert blockIdx free) := by
  refine ⟨update_none_holds fun b payload hentry hb => ?_, fun b hb hmem => ?_⟩
  · rw [apart b hb]
    exact h.holds b payload hentry
  · obtain ⟨hne, howned⟩ := Finset.mem_erase.mp hb
    exact h.taken b howned ((Finset.mem_insert.mp hmem).resolve_left hne)

theorem Agrees.frame (h : Agrees ledger contents free)
    (apart : ∀ b, contents' b = contents b ∨ ledger.contents b = none) (fewer : free' ⊆ free) :
    Agrees ledger contents' free' := by
  refine ⟨fun b payload hentry => ?_, fun b hb hmem => h.taken b hb (fewer hmem)⟩
  rcases apart b with hkept | hnone
  · rw [hkept]
    exact h.holds b payload hentry
  · rw [hnone] at hentry
    cases hentry

theorem step_agrees (h : Agrees ledger contents free) (call : DeviceCall)
    (permitted : ledger.Permits call.op) (spared : ledger.Spares call.op)
    (step : DeviceStep P call.before.session contents free call.op call.reply contents' free') :
    Agrees (ledger.next call) contents' free' := by
  obtain ⟨op, before, reply, after⟩ := call
  dsimp only at permitted spared step
  cases step with
  | allocated nonempty =>
    rw [Ledger.next]
    dsimp only
    split_ifs
    · exact h.frame (fun _ => Or.inl rfl) (Finset.erase_subset _ _)
    · exact agrees_gain h _
  | freed blockIdx taken => exact agrees_lose h fun _ _ => rfl
  | erased blockIdx draft taken => exact agrees_lose h fun b hb => Function.update_of_ne hb _ _
  | filled blockIdx draft loose => exact absurd loose (h.taken blockIdx permitted)
  | wrote start drafts k bound => exact ⟨overlay_mono h.holds, h.taken⟩
  | planted draws code contents' apart =>
    refine h.frame (fun b => ?_) Finset.sdiff_subset
    by_cases hcanary : 995 ≤ b ∧ b ≤ 999
    · exact Or.inr (spared b hcanary.1 hcanary.2)
    · exact Or.inl (apart b (by omega))
  | stamped nonce stamp computed =>
    refine h.frame (fun b => ?_) (Finset.Subset.refl free)
    by_cases hb : b = idStampBlock
    · subst hb
      exact Or.inr spared
    · exact Or.inl (Function.update_of_ne hb _ _)
  | idle op reply reports =>
    cases op with
    | allocateVaultBlock =>
      obtain rfl : reply = .block u64Max := reports
      exact h
    | freeVaultBlock blockIdx =>
      obtain rfl : reply = .code 3 := reports
      exact h
    | secureEraseBlock blockIdx draft =>
      obtain rfl : reply = .code 3 := reports
      exact h
    | writeVaultBlocks start drafts => exact reports.elim
    | _ => exact h

theorem run_agrees (tagged : V.ChachaTagged) (shows₀ : d₀.Shows V masterKey n contents free)
    {calls : List DeviceCall} (run : Run P V d₀ calls d)
    (permitted : Ledger.empty.Obeys Ledger.Permits calls)
    (spared : Ledger.empty.Obeys Ledger.Spares calls) :
    ∃ contents' free', d.Shows V masterKey n contents' free' ∧
      Agrees (Ledger.empty.after calls) contents' free' := by
  induction run with
  | start =>
    refine ⟨contents, free, shows₀, fun b payload hentry => ?_, fun b hb => ?_⟩
    · cases hentry
    · cases hb
  | @step calls d₁ d₂ run op reply returns ih =>
    rw [Ledger.obeys_append] at permitted spared
    obtain ⟨contents₁, free₁, hshows, hagrees⟩ := ih permitted.1 spared.1
    obtain ⟨contents₂, free₂, hshows', hstep⟩ := program_step tagged hshows returns
    refine ⟨contents₂, free₂, hshows', ?_⟩
    rw [Ledger.after_append]
    exact step_agrees hagrees ⟨op, d₁, reply, d₂⟩ permitted.2.1 spared.2.1 hstep

end Step

def sampleDraft : Draft := ⟨samplePayload, sampleNonce⟩

theorem stamped_run {blockIdx : Nat} (range : 9 ≤ blockIdx ∧ blockIdx < 1000) :
    ∃ calls d contents free stamp,
      Run SymbolicPrimitives.symbolic symbolicVault sampleDevice calls d ∧
      Ledger.empty.Obeys Ledger.Permits calls ∧
      (blockIdx ≠ idStampBlock → Ledger.empty.Obeys Ledger.Spares calls) ∧
      blockIdx ∈ (Ledger.empty.after calls).owned ∧
      (Ledger.empty.after calls).contents blockIdx = some samplePayload ∧
      d.Shows symbolicVault sampleKey 991 contents free ∧
      contents idStampBlock = some (stampBlock stamp) := by
  obtain ⟨calls, before, d₁, free, hallocated, hshows₁, hops⟩ :=
    sampleDevice_shows.allocates_up_to (P := SymbolicPrimitives.symbolic)
      symbolicVault_chachaTagged (Finset.mem_Ico.mpr range)
  obtain ⟨d₂, hwrite, hshows₂⟩ := hshows₁.writes (P := SymbolicPrimitives.symbolic)
    symbolicVault_chachaTagged symbolicVault_accepting range sampleDraft
  obtain ⟨stamp, hstamp⟩ : ∃ stamp : Exactly 32, stamp.val = InitModule.computeIdStamp
      SymbolicPrimitives.symbolic d₂.session.curr d₂.session.bobPkStore :=
    ⟨⟨_, SymbolicPrimitives.fit32_length _⟩, rfl⟩
  obtain ⟨d₃, hgenerate, hshows₃⟩ := hshows₂.stamps symbolicVault_chachaTagged
    symbolicVault_accepting (by decide) hstamp sampleNonce
  have hgain : Ledger.empty.after
      (calls ++ [⟨.allocateVaultBlock, before, .block blockIdx, d₁⟩]) =
        (Ledger.empty.after calls).gain blockIdx := by
    rw [Ledger.after_append]
    exact if_neg (by rw [u64Max]; omega)
  have hafter : Ledger.empty.after (calls ++ [⟨.allocateVaultBlock, before, .block blockIdx, d₁⟩] ++
      ([⟨.writeVaultBlocks blockIdx [sampleDraft], d₁, .count 1, d₂⟩] ++
        [⟨.generateIdStamp sampleNonce, d₂, .code 0, d₃⟩])) =
      ⟨((Ledger.empty.after calls).gain blockIdx).owned,
        Function.update ((Ledger.empty.after calls).gain blockIdx).contents blockIdx
          (some samplePayload)⟩ := by
    rw [Ledger.after_append, hgain]
    rfl
  refine ⟨_, d₃, _, free, stamp,
    hallocated.append ((Run.single hwrite).append (.single hgenerate)), ?_, fun hne => ?_, ?_, ?_,
    hshows₃, Function.update_self _ _ _⟩
  · rw [Ledger.obeys_append, Ledger.obeys_append, hgain]
    refine ⟨⟨Ledger.obeys_allocations (fun _ => trivial) hops _, trivial, trivial⟩, ?_, trivial,
      trivial⟩
    intro i hi
    obtain rfl : i = 0 := Nat.lt_one_iff.mp hi
    exact Finset.mem_insert_self _ _
  · rw [Ledger.obeys_append, Ledger.obeys_append, hgain]
    refine ⟨⟨Ledger.obeys_allocations (fun _ => trivial) hops _, trivial, trivial⟩, trivial, ?_,
      trivial⟩
    have hnone : (Ledger.empty.after calls).contents idStampBlock = none :=
      Ledger.after_allocations hops rfl
    change Function.update (Function.update (Ledger.empty.after calls).contents blockIdx none)
      blockIdx (some samplePayload) idStampBlock = none
    rw [Function.update_of_ne hne.symm, Function.update_of_ne hne.symm, hnone]
  · rw [hafter]
    exact Finset.mem_insert_self _ _
  · rw [hafter]
    exact Function.update_self _ _ _

/-- In every run without failing system calls on a created vault, by a client that
writes, frees and erases only blocks it owns, and in which the canaries and the stamp
are not written over its payloads, each block it owns reads as it last wrote it. -/
theorem owned_blocks_keep_payloads {P : Primitives} {V : VaultPrimitives}
    (inverts : V.ChachaInverts) (tagged : V.ChachaTagged) {masterKey : Bytes} {n : Nat}
    (capacity : n ≤ maxDataBlocks) {f f' : File} {v₀ : Volume} (healthy : Healthy f)
    (created : createNew V masterKey n f = .ok v₀ f') (ops : List VaultOp) {d₀ d : Device}
    (vault : d₀.vfs = some (v₀.steps V ops)) {calls : List DeviceCall} (run : Run P V d₀ calls d)
    (permitted : Ledger.empty.Obeys Ledger.Permits calls)
    (spared : Ledger.empty.Obeys Ledger.Spares calls) :
    ∀ b ∈ (Ledger.empty.after calls).owned, ∀ payload,
      (Ledger.empty.after calls).contents b = some payload →
      ∃ v w, d.vfs = some v ∧ readBlock V b v = .ok payload w := by
  have live := steps_live tagged (live_created capacity healthy created) ops
  obtain ⟨contents, free, ⟨v, hvault, hshows⟩, hagrees⟩ :=
    run_agrees tagged ⟨_, vault, shows_of_live live⟩ run permitted spared
  intro b _ payload hentry
  exact ⟨v, _, hvault, hshows.holds.read inverts hshows.live (hagrees.holds b payload hentry)⟩

theorem owned_blocks_keep_payloads_firstBlock :
    ∃ calls d v w, Run SymbolicPrimitives.symbolic symbolicVault sampleDevice calls d ∧
      9 ∈ (Ledger.empty.after calls).owned ∧ d.vfs = some v ∧
      readBlock symbolicVault 9 v = .ok samplePayload w := by
  obtain ⟨calls, d, contents, free, stamp, hrun, hpermitted, hspared, howned, hentry, -, -⟩ :=
    stamped_run (show 9 ≤ 9 ∧ 9 < 1000 by decide)
  obtain ⟨v, w, hvault, hread⟩ := owned_blocks_keep_payloads symbolicVault_chachaInverts
    symbolicVault_chachaTagged (n := 991) (by decide) (f := absentFile) rfl
    (createNew_healthy rfl rfl) [] rfl hrun hpermitted (hspared (by decide)) 9 howned
    samplePayload hentry
  exact ⟨calls, d, v, w, hrun, howned, hvault, hread⟩

theorem stamp_overwrites_owned_block :
    ∃ calls d v payload w, Run SymbolicPrimitives.symbolic symbolicVault sampleDevice calls d ∧
      Ledger.empty.Obeys Ledger.Permits calls ∧
      994 ∈ (Ledger.empty.after calls).owned ∧
      (Ledger.empty.after calls).contents 994 = some samplePayload ∧
      d.vfs = some v ∧ readBlock symbolicVault 994 v = .ok payload w ∧
      payload ≠ samplePayload := by
  -- The stamp is written over a block the client owns and has written.
  obtain ⟨calls, d, contents, free, stamp, hrun, hpermitted, -, howned, hentry,
    ⟨v, hvault, hshows⟩, hstamp⟩ := stamped_run (show 9 ≤ 994 ∧ 994 < 1000 by decide)
  refine ⟨calls, d, v, stampBlock stamp, _, hrun, hpermitted, howned, hentry, hvault,
    hshows.holds.read symbolicVault_chachaInverts hshows.live hstamp, fun hsame => ?_⟩
  -- the padding of a stamp is zeros
  have hrest := congrArg (fun payload : Exactly payloadSize => payload.val.drop 32) hsame
  simp only [stampBlock, samplePayload, List.drop_left' stamp.property, List.drop_replicate]
    at hrest
  exact absurd ((List.replicate_inj.mp hrest).2.resolve_left (by decide)) (by decide)

end SecureCore.Ownership
