import SecureCore.ReservedRegion

/-! What `canary_slots_intact` reports. `CANARY_INTACT` is set by a validation that
finds all five canaries and reset by none, so it tells whether some validation
of this process passed and not whether the latest one did. Between the calls the
container may be replaced by another one, and system calls may fail. -/

namespace SecureCore.VaultEntries

open VirtualVolume FaultyFile FallibleState

section Validation

def Opens (V : VaultPrimitives) (v : Volume) (blockIdx : Nat) (payload : Exactly payloadSize) :
    Prop :=
  v.inRange blockIdx ∧ blockIdx * blockSize + blockSize ≤ v.file.bytes.length ∧
    V.chachaDecrypt (deriveBlockKey V v.masterKey blockIdx)
      ((v.blockAt blockIdx).take nonceSize) ((v.blockAt blockIdx).drop nonceSize) =
        some payload.val

def CanaryStands (V : VaultPrimitives) (v : Volume) (blockIdx : Nat) : Prop :=
  ∃ payload, Opens V v blockIdx payload ∧ payload.val.take 6 = canaryMark

/-- A vault is open, its next ten system calls succeed and all canaries stand. -/
def Standing (V : VaultPrimitives) (d : Device) : Prop :=
  ∃ v, d.vfs = some v ∧ Unfailing 10 v.file ∧
    ∀ blockIdx ∈ [995, 996, 997, 998, 999], CanaryStands V v blockIdx

variable {V : VaultPrimitives} {v w : Volume} {blockIdx : Nat} {payload : Exactly payloadSize}

def fetched (v : Volume) (blockIdx : Nat) : Volume :=
  { v with file := { v.file with
      cursor := blockIdx * blockSize + blockSize, script := v.file.script.tail.tail } }

theorem readBlock_eq_ok_iff :
    readBlock V blockIdx v = .ok payload w ↔
      Unfailing 2 v.file ∧ Opens V v blockIdx payload ∧ w = fetched v blockIdx := by
  constructor
  · intro h
    have opens := ok_of_readBlock h
    rw [readBlock, bind_ok (checkDataBlock_ok opens.1)] at h
    obtain ⟨⟨⟩, v₁, hseek, h⟩ := ok_of_bind h
    obtain ⟨raw, v₂, hread, h⟩ := ok_of_bind h
    obtain ⟨f₁, hmoved, rfl⟩ := ok_of_onFile hseek
    obtain ⟨f₂, hfetched, rfl⟩ := ok_of_onFile hread
    have first := head_of_call hmoved
    have second := head_of_call hfetched
    obtain ⟨-, -, hafter⟩ := ok_of_readExact hfetched
    rw [ok_of_seek hmoved] at second hafter
    have hfinal : w = { v with file := f₂ } := by
      have hstate := congrArg finalState h
      rw [bind_ok (get_apply _), finalState_copyPlaintext] at hstate
      exact hstate.symm
    refine ⟨unfailing_two.mpr ⟨first, second⟩, opens, ?_⟩
    rw [hfinal, hafter]
    rfl
  · rintro ⟨works, ⟨range, fits, opens⟩, rfl⟩
    obtain ⟨first, second⟩ := unfailing_two.mp works
    have hread : onFile (readExact blockSize) { v with file := { v.file with
        cursor := blockIdx * blockSize, script := v.file.script.tail } } =
          .ok (v.blockAt blockIdx) (fetched v blockIdx) :=
      onFile_ok (readExact_works second fits)
    rw [readBlock, bind_ok (checkDataBlock_ok range), bind_ok (onFile_ok (seek_works first _)),
      bind_ok hread, bind_ok (get_apply _)]
    refine Eq.trans ?_ (copyPlaintext_some payload _)
    rw [← opens]
    rfl

theorem Opens.unique {payload' : Exactly payloadSize} (h : Opens V v blockIdx payload)
    (h' : Opens V v blockIdx payload') : payload = payload' :=
  Subtype.ext (Option.some.inj (h.2.2.symm.trans h'.2.2))

theorem checkCanaries_eq_zero_iff {blocks : List Nat} {code : Nat}
    (run : checkCanaries V blocks v = .ok code w) :
    code = 0 ↔ Unfailing (2 * blocks.length) v.file ∧ ∀ b ∈ blocks, CanaryStands V v b := by
  induction blocks generalizing v with
  | nil =>
    cases run
    simp [Unfailing]
  | cons b blocks ih =>
    have twice : 2 * (b :: blocks).length = 2 * blocks.length + 1 + 1 := by
      rw [List.length_cons]
      omega
    obtain ⟨result, v₁, hread, run⟩ := ok_of_bind run
    rw [twice, unfailing_succ, unfailing_succ, List.forall_mem_cons]
    rcases of_attempt hread with ⟨payload, rfl, hok⟩ | ⟨failure, rfl, herror⟩
    · obtain ⟨works, opens, rfl⟩ := readBlock_eq_ok_iff.mp hok
      obtain ⟨first, second⟩ := unfailing_two.mp works
      dsimp only at run
      split_ifs at run with marked
      · cases run
        refine iff_of_false (by decide) ?_
        rintro ⟨-, ⟨payload', opens', mark⟩, -⟩
        exact marked (opens.unique opens' ▸ mark)
      · have stands : CanaryStands V v b := ⟨payload, opens, not_not.mp marked⟩
        rw [ih run]
        constructor
        · rintro ⟨rest, others⟩
          exact ⟨⟨first, second, rest⟩, stands, others⟩
        · rintro ⟨⟨-, -, rest⟩, -, others⟩
          exact ⟨rest, others⟩
    · cases run
      refine iff_of_false (by decide) ?_
      rintro ⟨⟨first, second, -⟩, ⟨payload, opens, -⟩, -⟩
      have hok : readBlock V b v = .ok payload _ :=
        readBlock_eq_ok_iff.mpr ⟨unfailing_two.mpr ⟨first, second⟩, opens, rfl⟩
      cases herror.symm.trans hok

end Validation

section Verdict

variable {P : Primitives} {V : VaultPrimitives} {d d' : Device} {op : DeviceOp}
  {reply : DeviceReply}

theorem withVaultOr_canaryIntact {α : Type} {default a : α} {m : VolumeM α}
    (returns : withVaultOr default m d = .ok a d') : d'.canaryIntact = d.canaryIntact := by
  cases hvault : d.vfs with
  | none =>
    rw [withVaultOr, hvault] at returns
    cases returns
    rfl
  | some v =>
    obtain ⟨w, -, rfl⟩ := ok_of_withVaultOr hvault returns
    rfl

theorem validateCanarySlots_verdict
    (returns : DeviceOp.validateCanarySlots.program P V d = .ok reply d') :
    (reply = .code 0 ↔ Standing V d) ∧
      (d'.canaryIntact = true ↔ d.canaryIntact = true ∨ Standing V d) := by
  obtain ⟨code, hrun, rfl⟩ := ok_of_wrapped returns
  obtain ⟨found, d₁, hcheck, hrest⟩ := ok_of_bind hrun
  have hflag := withVaultOr_canaryIntact hcheck
  have hstands : found = 0 ↔ Standing V d := by
    cases hvault : d.vfs with
    | none =>
      rw [withVaultOr, hvault] at hcheck
      cases hcheck
      simp [Standing, hvault]
    | some v =>
      obtain ⟨w, hloop, rfl⟩ := ok_of_withVaultOr hvault hcheck
      rw [checkCanaries_eq_zero_iff hloop]
      simp [Standing, hvault]
  by_cases hzero : found = 0
  · subst hzero
    cases hrest
    exact ⟨by simpa using hstands, by simp [hstands.mp rfl]⟩
  · rw [if_neg hzero] at hrest
    cases hrest
    have hfallen : ¬ Standing V d := fun h => hzero (hstands.mpr h)
    refine ⟨iff_of_false (by simpa using hzero) hfallen, ?_⟩
    rw [hflag]
    simp [hfallen]

theorem program_canaryIntact (other : op ≠ .validateCanarySlots)
    (alive : ∀ totalDataBlocks, op ≠ .restart totalDataBlocks)
    (returns : op.program P V d = .ok reply d') : d'.canaryIntact = d.canaryIntact := by
  cases op with
  | validateCanarySlots => exact absurd rfl other
  | restart totalDataBlocks => exact absurd rfl (alive totalDataBlocks)
  | session op =>
    obtain ⟨a, hrun, -⟩ := ok_of_wrapped returns
    cases hrun
    rfl
  | canarySlotsIntact =>
    cases returns
    rfl
  | generateIdStamp nonce =>
    obtain ⟨code, hrun, -⟩ := ok_of_wrapped returns
    obtain ⟨stamp, d₁, hstamp, hpersist⟩ := ok_of_bind hrun
    have hrun := InitModule.run_generateIdStampFromCurr (P := P) d.session
    rw [onSession, hrun] at hstamp
    cases hstamp
    exact withVaultOr_canaryIntact hpersist
  | _ =>
    obtain ⟨a, hrun, -⟩ := ok_of_wrapped returns
    exact withVaultOr_canaryIntact hrun

theorem restart_canaryIntact {totalDataBlocks : Nat}
    (returns : (DeviceOp.restart totalDataBlocks).program P V d = .ok reply d') :
    d'.canaryIntact = false := by
  obtain ⟨⟨⟩, d₁, hrun, hpure⟩ := ok_of_bind returns
  obtain ⟨⟨⟩, d₂, -, hrest⟩ := ok_of_bind hrun
  cases hpure
  cases hrest
  rfl

theorem canarySlotsIntact_eq_one_iff : canarySlotsIntact d = .ok 1 d ↔ d.canaryIntact = true := by
  cases hflag : d.canaryIntact with
  | true => simp [canarySlotsIntact, hflag, bind_ok (get_apply d), pure_apply]
  | false => simp [canarySlotsIntact, hflag, bind_ok (get_apply d), pure_apply]

end Verdict

/-- A run of calls with the world outside: between two calls the container may be
replaced, and `init_virtual_volume` stores the volume it opened unless there is
one. -/
inductive Life (P : Primitives) (V : VaultPrimitives) (d₀ : Device) :
    List DeviceCall → Device → Prop where
  | start : Life P V d₀ [] d₀
  | called {calls : List DeviceCall} {d d' : Device} (life : Life P V d₀ calls d) (op : DeviceOp)
      (reply : DeviceReply) (returns : op.program P V d = .ok reply d') :
      Life P V d₀ (calls ++ [⟨op, d, reply, d'⟩]) d'
  | tampered {calls : List DeviceCall} {d : Device} (life : Life P V d₀ calls d) (file : File) :
      Life P V d₀ calls { d with vfs := d.vfs.map fun v => { v with file := file } }
  | opened {calls : List DeviceCall} {d : Device} (life : Life P V d₀ calls d) (v : Volume) :
      Life P V d₀ calls { d with vfs := d.vfs.or (some v) }

def validations (calls : List DeviceCall) : List DeviceCall :=
  calls.foldl (fun made call =>
    match call.op with
    | .validateCanarySlots => made ++ [call]
    | .restart _ => []
    | _ => made) []

/-- The claim of the name `canary_slots_intact` about the latest validation. -/
def VerdictCurrent (calls : List DeviceCall) (d : Device) : Prop :=
  canarySlotsIntact d = .ok 1 d ↔
    ∃ last, (validations calls).getLast? = some last ∧ last.reply = .code 0

structure Flagged (V : VaultPrimitives) (calls : List DeviceCall) (d : Device) : Prop where
  flag : d.canaryIntact = true ↔ ∃ call ∈ validations calls, Standing V call.before
  verdicts : ∀ call ∈ validations calls, (call.reply = .code 0 ↔ Standing V call.before)

section Life

variable {P : Primitives} {V : VaultPrimitives} {d₀ d d' : Device} {calls : List DeviceCall}

theorem validations_validate {call : DeviceCall} (h : call.op = .validateCanarySlots) :
    validations (calls ++ [call]) = validations calls ++ [call] := by
  simp [validations, h]

theorem validations_restart {call : DeviceCall} {totalDataBlocks : Nat}
    (h : call.op = .restart totalDataBlocks) : validations (calls ++ [call]) = [] := by
  simp [validations, h]

theorem validations_other {call : DeviceCall} (other : call.op ≠ .validateCanarySlots)
    (alive : ∀ totalDataBlocks, call.op ≠ .restart totalDataBlocks) :
    validations (calls ++ [call]) = validations calls := by
  rw [validations, List.foldl_append]
  obtain ⟨op, before, reply, after⟩ := call
  cases op with
  | validateCanarySlots => exact absurd rfl other
  | restart totalDataBlocks => exact absurd rfl (alive totalDataBlocks)
  | _ => rfl

theorem flagged_step {op : DeviceOp} {reply : DeviceReply} (h : Flagged V calls d)
    (returns : op.program P V d = .ok reply d') : Flagged V (calls ++ [⟨op, d, reply, d'⟩]) d' := by
  by_cases validates : op = .validateCanarySlots
  · subst validates
    obtain ⟨hreply, hflag⟩ := validateCanarySlots_verdict returns
    constructor
    · rw [validations_validate rfl, hflag, h.flag]
      simp [or_and_right, exists_or]
    · intro call hcall
      rw [validations_validate rfl, List.mem_append, List.mem_singleton] at hcall
      rcases hcall with hearlier | rfl
      · exact h.verdicts call hearlier
      · exact hreply
  · by_cases restarts : ∃ totalDataBlocks, op = .restart totalDataBlocks
    · obtain ⟨totalDataBlocks, rfl⟩ := restarts
      constructor
      · rw [validations_restart rfl, restart_canaryIntact returns]
        simp
      · rw [validations_restart rfl]
        simp
    · push Not at restarts
      have hflag := program_canaryIntact validates restarts returns
      constructor
      · rw [validations_other validates restarts, hflag]
        exact h.flag
      · rw [validations_other validates restarts]
        exact h.verdicts

theorem life_flagged (fresh : d₀.canaryIntact = false) (life : Life P V d₀ calls d) :
    Flagged V calls d := by
  induction life with
  | start => exact ⟨by simp [fresh, validations], by simp [validations]⟩
  | called life op reply returns ih => exact flagged_step ih returns
  | tampered life file ih => exact ⟨ih.flag, ih.verdicts⟩
  | opened life v ih => exact ⟨ih.flag, ih.verdicts⟩

end Life

section Samples

variable {P : Primitives} {V : VaultPrimitives} {masterKey : Bytes} {n : Nat}
  {contents : BlockStore.Contents} {free : Finset Nat} {v : Volume} {d : Device}

theorem Shows.stands (h : Shows V masterKey n contents free v) (inverts : V.ChachaInverts)
    {blockIdx : Nat} (marked : Marked contents blockIdx) : CanaryStands V v blockIdx := by
  obtain ⟨payload, entry, mark⟩ := marked
  have hread := h.holds.read inverts h.live entry
  exact ⟨payload, (readBlock_eq_ok_iff.mp hread).2.1, mark⟩

theorem checkCanaries_passes {blocks : List Nat} (works : Unfailing (2 * blocks.length) v.file)
    (stand : ∀ b ∈ blocks, CanaryStands V v b) : ∃ w, checkCanaries V blocks v = .ok 0 w := by
  induction blocks generalizing v with
  | nil => exact ⟨v, rfl⟩
  | cons b blocks ih =>
    have twice : 2 * (b :: blocks).length = 2 * blocks.length + 1 + 1 := by
      rw [List.length_cons]
      omega
    rw [twice, unfailing_succ, unfailing_succ] at works
    obtain ⟨first, second, rest⟩ := works
    obtain ⟨⟨payload, opens, mark⟩, others⟩ := List.forall_mem_cons.mp stand
    have hread : readBlock V b v = .ok payload (fetched v b) :=
      readBlock_eq_ok_iff.mpr ⟨unfailing_two.mpr ⟨first, second⟩, opens, rfl⟩
    obtain ⟨w, hrest⟩ := ih (v := fetched v b) rest others
    refine ⟨w, ?_⟩
    rw [checkCanaries, bind_ok (attempt_ok hread)]
    dsimp only
    rw [if_neg (not_not.mpr mark), hrest]

theorem Standing.validates (h : Standing V d) :
    ∃ d', DeviceOp.validateCanarySlots.program P V d = .ok (.code 0) d' ∧ d'.vfs.isSome := by
  obtain ⟨v, vault, works, stand⟩ := h
  obtain ⟨w, hloop⟩ : ∃ w, checkCanaries V [995, 996, 997, 998, 999] v = .ok 0 w :=
    checkCanaries_passes works stand
  refine ⟨{ d with vfs := some w, canaryIntact := true }, ?_, rfl⟩
  have hrun : validateCanarySlots V d = .ok 0 { d with vfs := some w, canaryIntact := true } := by
    rw [validateCanarySlots, bind_ok (withVaultOr_ok vault hloop)]
    rfl
  rw [DeviceOp.program, bind_ok hrun]
  rfl

def emptied : File := ⟨true, [], 0, []⟩

theorem readBlock_emptied (blockIdx : Nat) :
    ∃ w, attempt (readBlock V blockIdx) { v with file := emptied } = .ok none w := by
  by_cases range : ({ v with file := emptied } : Volume).inRange blockIdx
  · have short : emptied.bytes.length < blockIdx * blockSize + blockSize :=
      Nat.lt_add_left _ (by decide)
    have hread : readBlock V blockIdx { v with file := emptied } =
        .error (.raised .unexpectedEof "failed to fill whole buffer")
          { v with file := { emptied with cursor := max (blockIdx * blockSize) 0 } } := by
      rw [readBlock, bind_ok (checkDataBlock_ok range), bind_ok (onFile_ok (seek_works rfl _)),
        bind_error (onFile_error (readExact_short rfl short))]
      rfl
    exact ⟨_, attempt_raised hread⟩
  · exact ⟨_, attempt_raised (readBlock_outside range)⟩

theorem validates_emptied (vault : d.vfs = some { v with file := emptied }) :
    ∃ d', DeviceOp.validateCanarySlots.program P V d = .ok (.code 2) d' := by
  obtain ⟨w, hread⟩ := readBlock_emptied (V := V) (v := v) 995
  have hloop : checkCanaries V [995, 996, 997, 998, 999] { v with file := emptied } = .ok 2 w := by
    rw [checkCanaries, bind_ok hread]
    rfl
  have hrun : validateCanarySlots V d = .ok 2 { d with vfs := some w } := by
    rw [validateCanarySlots, bind_ok (withVaultOr_ok vault hloop)]
    rfl
  refine ⟨{ d with vfs := some w }, ?_⟩
  rw [DeviceOp.program, bind_ok hrun]
  rfl

theorem sample_validated :
    ∃ d₁ d₂ d₃, (DeviceOp.initCanarySlots ReservedRegion.sampleDraws).program
        SymbolicPrimitives.symbolic symbolicVault sampleDevice = .ok (.code 0) d₁ ∧
      DeviceOp.validateCanarySlots.program SymbolicPrimitives.symbolic symbolicVault d₁ =
        .ok (.code 0) d₂ ∧
      DeviceOp.validateCanarySlots.program SymbolicPrimitives.symbolic symbolicVault
        { d₂ with vfs := d₂.vfs.map fun v => { v with file := emptied } } = .ok (.code 2) d₃ := by
  obtain ⟨d₁, contents, free, hplant, ⟨v, vault, hshows⟩, hmarked⟩ :=
    sampleDevice_shows.plants (P := SymbolicPrimitives.symbolic)
      symbolicVault_chachaTagged symbolicVault_accepting (by decide) ReservedRegion.sampleDraws
  have hstanding : Standing symbolicVault d₁ := by
    refine ⟨v, vault, hshows.live.intact.ready.healthy.unfailing 10, fun b hb => ?_⟩
    refine hshows.stands symbolicVault_chachaInverts (hmarked b ?_ ?_)
    · revert b
      decide
    · revert b
      decide
  obtain ⟨d₂, hvalidate, hsome⟩ := hstanding.validates (P := SymbolicPrimitives.symbolic)
  obtain ⟨w, hw⟩ := Option.isSome_iff_exists.mp hsome
  obtain ⟨d₃, hemptied⟩ := validates_emptied (P := SymbolicPrimitives.symbolic) (V := symbolicVault)
    (v := w) (d := { d₂ with vfs := d₂.vfs.map fun v => { v with file := emptied } })
    (by simp [hw])
  exact ⟨d₁, d₂, d₃, hplant, hvalidate, hemptied⟩

end Samples

/-- At every point of every run the verdict is that of the latest validation
exactly when the latest validation found the canaries standing or none did. -/
theorem verdict_current_iff {P : Primitives} {V : VaultPrimitives} {d₀ d : Device}
    {calls : List DeviceCall} (fresh : d₀.canaryIntact = false) (life : Life P V d₀ calls d) :
    VerdictCurrent calls d ↔
      ((∃ call ∈ validations calls, Standing V call.before) →
        ∃ last, (validations calls).getLast? = some last ∧ Standing V last.before) := by
  have hflagged := life_flagged fresh life
  have hlast : (∃ last, (validations calls).getLast? = some last ∧ last.reply = .code 0) ↔
      ∃ last, (validations calls).getLast? = some last ∧ Standing V last.before := by
    refine exists_congr fun last => and_congr_right fun hmem => ?_
    exact hflagged.verdicts last (List.mem_of_getLast? hmem)
  rw [VerdictCurrent, canarySlotsIntact_eq_one_iff, hflagged.flag, hlast]
  constructor
  · exact fun h => h.mp
  · intro h
    refine ⟨h, ?_⟩
    rintro ⟨last, hmem, hstands⟩
    exact ⟨last, List.mem_of_getLast? hmem, hstands⟩

theorem verdict_current_afterPassing :
    ∃ calls d, Life SymbolicPrimitives.symbolic symbolicVault sampleDevice calls d ∧
      (validations calls).length = 1 ∧ VerdictCurrent calls d := by
  obtain ⟨d₁, d₂, -, hplant, hvalidate, -⟩ := sample_validated
  have life : Life SymbolicPrimitives.symbolic symbolicVault sampleDevice
      ([] ++ [⟨_, sampleDevice, _, d₁⟩] ++ [⟨_, d₁, _, d₂⟩]) d₂ :=
    (Life.start.called _ _ hplant).called _ _ hvalidate
  refine ⟨_, d₂, life, rfl, (verdict_current_iff rfl life).mpr fun _ => ?_⟩
  exact ⟨_, rfl, (validateCanarySlots_verdict hvalidate).1.mp rfl⟩

theorem failed_validation_reported_intact :
    ∃ calls d, Life SymbolicPrimitives.symbolic symbolicVault sampleDevice calls d ∧
      (∃ last, (validations calls).getLast? = some last ∧ last.reply = .code 2) ∧
      canarySlotsIntact d = .ok 1 d ∧ ¬ VerdictCurrent calls d := by
  -- After the container was emptied a validation fails, and the canaries are still reported
  -- intact.
  obtain ⟨d₁, d₂, d₃, hplant, hvalidate, hemptied⟩ := sample_validated
  have life : Life SymbolicPrimitives.symbolic symbolicVault sampleDevice
      ([] ++ [⟨_, sampleDevice, _, d₁⟩] ++ [⟨_, d₁, _, d₂⟩] ++ [⟨_, _, _, d₃⟩]) d₃ :=
    (((Life.start.called _ _ hplant).called _ _ hvalidate).tampered emptied).called _ _ hemptied
  obtain ⟨hpassed, hset⟩ := validateCanarySlots_verdict hvalidate
  have hflag : d₃.canaryIntact = true :=
    (validateCanarySlots_verdict hemptied).2.mpr (Or.inl (hset.mpr (Or.inr (hpassed.mp rfl))))
  have hintact := canarySlotsIntact_eq_one_iff.mpr hflag
  refine ⟨_, d₃, life, ⟨_, rfl, rfl⟩, hintact, fun hcurrent => ?_⟩
  obtain ⟨last, hlast, hreply⟩ := hcurrent.mp hintact
  cases hlast
  cases hreply

end SecureCore.VaultEntries
