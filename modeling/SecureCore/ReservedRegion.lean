import SecureCore.VaultSteps

/-! The blocks 994 to 999, which `init_canary_slots` reserves for the ID stamp and
the canaries. The reservation is a set bit like any other, and `free_vault_block`
and `secure_erase_block` clear it for whoever asks. As long as they are not asked to,
the allocator never hands such a block out. -/

namespace SecureCore.ReservedRegion

open VirtualVolume FaultyFile FallibleState AllocatorRefinement BlockStore VaultEntries

def reserved : Finset Nat := reservedBlocks.toFinset

/-- The reserved blocks asked to be freed or erased since they were last reserved. -/
def exposedBy (exposed : Finset Nat) (call : DeviceCall) : Finset Nat :=
  match call.op with
  | .freeVaultBlock blockIdx => exposed ∪ ({blockIdx} ∩ reserved)
  | .secureEraseBlock blockIdx _ => exposed ∪ ({blockIdx} ∩ reserved)
  | .initCanarySlots _ => ∅
  | _ => exposed

def exposed (calls : List DeviceCall) : Finset Nat := calls.foldl exposedBy ∅

theorem exposed_snoc (calls : List DeviceCall) (call : DeviceCall) :
    exposed (calls ++ [call]) = exposedBy (exposed calls) call := by
  rw [exposed, List.foldl_append]
  rfl

section Invariant

variable {P : Primitives} {V : VaultPrimitives} {masterKey : Bytes} {n : Nat}
  {contents contents' : Contents} {free free' : Finset Nat} {d₀ d : Device}

def Guarded (free exposed : Finset Nat) : Prop := free ∩ reserved ⊆ exposed

theorem guarded_insert {exposed : Finset Nat} (h : Guarded free exposed) (blockIdx : Nat) :
    Guarded (insert blockIdx free) (exposed ∪ ({blockIdx} ∩ reserved)) := by
  rw [Guarded, Finset.insert_eq, Finset.union_inter_distrib_right]
  exact Finset.union_subset Finset.subset_union_right (h.trans Finset.subset_union_left)

theorem step_guarded {exposed : Finset Nat} (h : Guarded free exposed) (call : DeviceCall)
    (step : DeviceStep P call.before.session contents free call.op call.reply contents' free') :
    Guarded free' (exposedBy exposed call) := by
  obtain ⟨op, before, reply, after⟩ := call
  dsimp only at step
  cases step with
  | allocated nonempty =>
    exact (Finset.inter_subset_inter_right (Finset.erase_subset _ _)).trans h
  | freed blockIdx taken => exact guarded_insert h blockIdx
  | erased blockIdx draft taken => exact guarded_insert h blockIdx
  | filled blockIdx draft loose => exact h.trans Finset.subset_union_left
  | wrote => exact h
  | planted =>
    rw [Guarded, reserved, Finset.sdiff_inter_self]
    exact Finset.empty_subset _
  | stamped => exact h
  | idle op reply reports =>
    cases op with
    | freeVaultBlock blockIdx => exact h.trans Finset.subset_union_left
    | secureEraseBlock blockIdx draft => exact h.trans Finset.subset_union_left
    | initCanarySlots draws => exact reports.elim
    | _ => exact h

theorem run_guarded (tagged : V.ChachaTagged) (shows₀ : d₀.Shows V masterKey n contents free)
    (guarded₀ : Guarded free ∅) {calls : List DeviceCall} (run : Run P V d₀ calls d) :
    ∃ contents' free', d.Shows V masterKey n contents' free' ∧ Guarded free' (exposed calls) := by
  induction run with
  | start => exact ⟨contents, free, shows₀, guarded₀⟩
  | @step calls d₁ d₂ run op reply returns ih =>
    obtain ⟨contents₁, free₁, hshows, hguarded⟩ := ih
    obtain ⟨contents₂, free₂, hshows', hstep⟩ := program_step tagged hshows returns
    refine ⟨contents₂, free₂, hshows', ?_⟩
    rw [exposed_snoc]
    exact step_guarded hguarded ⟨op, d₁, reply, d₂⟩ hstep

end Invariant

/-- After `init_canary_slots` has returned 0 on a created vault, in every run without
failing system calls in which each allocation finds the reserved blocks as that
call or a later one left them, none of 994 to 999 is allocated. -/
theorem reserved_blocks_not_allocated {P : Primitives} {V : VaultPrimitives}
    (tagged : V.ChachaTagged) {masterKey : Bytes} {n : Nat} (capacity : n ≤ maxDataBlocks)
    {f f' : File} {v₀ : Volume} (healthy : Healthy f)
    (created : createNew V masterKey n f = .ok v₀ f') (ops : List VaultOp) {d₀ d₁ d : Device}
    (vault : d₀.vfs = some (v₀.steps V ops)) {draws : Fin 5 → CanaryDraw}
    (planted : (DeviceOp.initCanarySlots draws).program P V d₀ = .ok (.code 0) d₁)
    {calls : List DeviceCall} (run : Run P V d₁ calls d)
    (unexposed : ∀ earlier call later, calls = earlier ++ call :: later →
      call.op = .allocateVaultBlock → exposed earlier = ∅) :
    ∀ call ∈ calls, call.op = .allocateVaultBlock → ∀ b, call.reply = .block b →
      ¬ (994 ≤ b ∧ b ≤ 999) := by
  have live := steps_live tagged (live_created capacity healthy created) ops
  have hshows₀ : d₀.Shows V masterKey n _ _ := ⟨_, vault, shows_of_live live⟩
  obtain ⟨contents₁, free₁, hshows₁, hplanted⟩ := program_step tagged hshows₀ planted
  have hguarded₀ : Guarded (freeIndices (v₀.steps V ops)) (freeIndices (v₀.steps V ops)) :=
    Finset.inter_subset_left
  have hguarded : Guarded free₁ ∅ :=
    step_guarded hguarded₀ ⟨.initCanarySlots draws, d₀, .code 0, d₁⟩ hplanted
  intro call hcall hop b hreply ⟨hlower, hupper⟩
  obtain ⟨earlier, later, hsplit⟩ := List.append_of_mem hcall
  obtain ⟨hbefore, hreturns⟩ := run.split hsplit
  obtain ⟨contents, free, hshows, hfree⟩ := run_guarded tagged hshows₁ hguarded hbefore
  obtain ⟨contents', free', -, hstep⟩ := program_step tagged hshows hreturns
  rw [unexposed earlier call later hsplit hop] at hfree
  rw [hop, hreply] at hstep
  cases hstep with
  | allocated nonempty =>
    have hreserved : free.min' nonempty ∈ reserved := by
      generalize free.min' nonempty = b at hlower hupper
      interval_cases b <;> decide
    have hexposed := hfree (Finset.mem_inter.mpr ⟨free.min'_mem nonempty, hreserved⟩)
    cases hexposed
  | idle op reply reports =>
    obtain rfl := DeviceReply.block.inj reports
    exact absurd hupper (by decide)

def sampleDraws : Fin 5 → CanaryDraw :=
  fun _ => ⟨⟨List.replicate (payloadSize - 8) 3, List.length_replicate⟩, sampleNonce⟩

theorem reserved_blocks_not_allocated_first :
    ∃ d₁ d₂ b,
      (DeviceOp.initCanarySlots sampleDraws).program SymbolicPrimitives.symbolic symbolicVault
        sampleDevice = .ok (.code 0) d₁ ∧
      DeviceOp.allocateVaultBlock.program SymbolicPrimitives.symbolic symbolicVault d₁ =
        .ok (.block b) d₂ ∧ ¬ (994 ≤ b ∧ b ≤ 999) := by
  obtain ⟨d₁, -, -, hplant, -⟩ := sampleDevice_shows.plants (P := SymbolicPrimitives.symbolic)
    symbolicVault_chachaTagged symbolicVault_accepting (by decide) sampleDraws
  obtain ⟨contents, free, hshows, hstep⟩ :=
    program_step symbolicVault_chachaTagged sampleDevice_shows hplant
  have hne : free.Nonempty := by
    cases hstep with
    | planted =>
      exact ⟨9, Finset.mem_sdiff.mpr ⟨Finset.mem_Ico.mpr (by decide), by decide⟩⟩
    | idle op reply reports => exact reports.elim
  obtain ⟨d₂, hallocate, -⟩ := hshows.allocates (P := SymbolicPrimitives.symbolic)
    symbolicVault_chachaTagged hne
  refine ⟨d₁, d₂, _, hplant, hallocate, ?_⟩
  refine reserved_blocks_not_allocated symbolicVault_chachaTagged (n := 991) (by decide)
    (f := absentFile) rfl (createNew_healthy rfl rfl) [] rfl hplant (.single hallocate) ?_ _
    List.mem_cons_self rfl _ rfl
  intro earlier call later hsplit _
  cases earlier with
  | nil => rfl
  | cons first earlier => simp at hsplit

theorem freed_reserved_block_is_allocated :
    ∃ d₁ calls d,
      (DeviceOp.initCanarySlots sampleDraws).program SymbolicPrimitives.symbolic symbolicVault
        sampleDevice = .ok (.code 0) d₁ ∧
      Run SymbolicPrimitives.symbolic symbolicVault d₁ calls d ∧
      ∃ call ∈ calls, call.op = .allocateVaultBlock ∧ call.reply = .block 994 := by
  -- A reserved block that was freed is handed out.
  obtain ⟨d₁, -, -, hplant, -⟩ := sampleDevice_shows.plants (P := SymbolicPrimitives.symbolic)
    symbolicVault_chachaTagged symbolicVault_accepting (by decide) sampleDraws
  obtain ⟨contents, free, hshows, hstep⟩ :=
    program_step symbolicVault_chachaTagged sampleDevice_shows hplant
  have htaken : 994 ∉ free := by
    cases hstep with
    | planted => exact fun hmem => (Finset.mem_sdiff.mp hmem).2 (by decide)
    | idle op reply reports => exact reports.elim
  obtain ⟨d₂, hfree, hshows₂⟩ := hshows.frees (P := SymbolicPrimitives.symbolic)
    symbolicVault_chachaTagged (by decide) htaken
  obtain ⟨calls, before, after, free', hrun, -, -⟩ :=
    hshows₂.allocates_up_to (P := SymbolicPrimitives.symbolic) symbolicVault_chachaTagged
      (Finset.mem_insert_self 994 free)
  exact ⟨d₁, _, after, hplant, (Run.single hfree).append hrun,
    ⟨.allocateVaultBlock, before, .block 994, after⟩, by simp, rfl, rfl⟩

end SecureCore.ReservedRegion
