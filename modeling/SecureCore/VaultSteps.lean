import SecureCore.AllocatorRefinement
import SecureCore.BlockStore
import SecureCore.SessionSteps
import SecureCore.VaultEntries

/-! What one call on a device can do to its vault, as long as no system call fails.
A vault is seen as a map from blocks to payloads and a set of free blocks, which
`Shows` ties to the container. Every call either has the one effect its name
announces, with the reply that reports it, or leaves both as they were. -/

namespace SecureCore.VaultEntries

open VirtualVolume FaultyFile FallibleState PackedBits AllocatorRefinement BlockStore

/-- The container of a created vault holds these payloads and these blocks are free. -/
structure Shows (V : VaultPrimitives) (masterKey : Bytes) (n : Nat) (contents : Contents)
    (free : Finset Nat) (v : Volume) : Prop where
  live : Live V masterKey n v
  holds : Holds V v contents
  frees : freeIndices v = free

def overlay (contents : Contents) : (start : Nat) → List Draft → Contents
  | _, [] => contents
  | start, draft :: drafts =>
    overlay (Function.update contents start (some draft.payload)) (start + 1) drafts

section Overlay

variable {contents contents' : Contents}

theorem overlay_apart {drafts : List Draft} {start blockIdx : Nat}
    (apart : blockIdx < start ∨ start + drafts.length ≤ blockIdx) :
    overlay contents start drafts blockIdx = contents blockIdx := by
  induction drafts generalizing contents start with
  | nil => rfl
  | cons draft drafts ih =>
    rw [List.length_cons] at apart
    rw [overlay, ih (by omega), Function.update_of_ne (by omega)]

theorem overlay_mono {drafts : List Draft} {start : Nat}
    (le : ∀ b payload, contents b = some payload → contents' b = some payload) :
    ∀ b payload, overlay contents start drafts b = some payload →
      overlay contents' start drafts b = some payload := by
  induction drafts generalizing contents contents' start with
  | nil => exact le
  | cons draft drafts ih =>
    refine ih fun b payload h => ?_
    by_cases hb : b = start
    · subst hb
      rwa [Function.update_self] at h ⊢
    · rw [Function.update_of_ne hb] at h ⊢
      exact le b payload h

end Overlay

section Primitive

variable {V : VaultPrimitives} {masterKey : Bytes} {n : Nat} {contents : Contents}
  {free : Finset Nat} {v w : Volume}

theorem Shows.volume (h : Shows V masterKey n contents free v) (tagged : V.ChachaTagged)
    (op : VolumeOp) {contents' : Contents} (recorded : record V v contents (.volume op) = contents')
    {free' : Finset Nat} (frees : freeIndices (finalState (op.program V v)) = free') :
    Shows V masterKey n contents' free' (finalState (op.program V v)) :=
  ⟨program_live tagged h.live (.volume op), recorded ▸ volume_holds tagged h.live h.holds op, frees⟩

theorem shows_of_live (live : Live V masterKey n v) :
    Shows V masterKey n (fun _ => none) (freeIndices v) v := by
  refine ⟨live, fun blockIdx payload entry => ?_, rfl⟩
  cases entry

theorem Shows.allocate (h : Shows V masterKey n contents free v) (tagged : V.ChachaTagged) :
    free = ∅ ∧ attempt allocateBlock v = .ok none v ∨
    ∃ (nonempty : free.Nonempty) (w : Volume),
      attempt allocateBlock v = .ok (some (free.min' nonempty)) w ∧
      Shows V masterKey n contents (free.erase (free.min' nonempty)) w := by
  have hsound := h.live.sound
  have hready := h.live.intact.ready
  obtain rfl := h.frees
  by_cases hne : (freeIndices v).Nonempty
  · obtain ⟨i, hi, hmin, hclear, hset⟩ := min_freeIndices hsound hne
    have hrun := allocateBlock_ready hsound hready hi hclear hset
    have hshows := h.volume tagged .allocateBlock rfl rfl
    rw [VolumeOp.program, finalState_bind_pure, hrun, finalState_ok, freeIndices_set hsound hi,
      ← hmin] at hshows
    rw [← hmin] at hrun
    exact Or.inr ⟨hne, _, attempt_ok hrun, hshows⟩
  · have hfull : v.freeBlocks = 0 := by
      by_contra hfree
      exact hne ((freeIndices_nonempty hsound).mpr hfree)
    exact Or.inl
      ⟨Finset.not_nonempty_iff_eq_empty.mp hne, attempt_raised (allocateBlock_full hfull)⟩

theorem Shows.reserve (h : Shows V masterKey n contents free v) (tagged : V.ChachaTagged)
    (blockIdx : Nat) :
    ∃ result w, attempt (reserveBlock blockIdx) v = .ok result w ∧
      Shows V masterKey n contents (free.erase blockIdx) w := by
  have hsound := h.live.sound
  have hready := h.live.intact.ready
  obtain rfl := h.frees
  by_cases range : v.inRange blockIdx
  · have hi := hsound.bit_of_inRange range
    have hb : dataStartBlock + (blockIdx - dataStartBlock) = blockIdx := Nat.add_sub_cancel' range.1
    have hrun := reserveBlock_ready hready range (hsound.stored hi) (hsound.free_pos hi)
    have hshows := h.volume tagged (.reserveBlock blockIdx) rfl rfl
    rw [VolumeOp.program, finalState_bind_pure, hrun, finalState_ok] at hshows
    refine ⟨_, _, attempt_ok hrun, ?_⟩
    cases hbit : test v.blockBitmap (blockIdx - dataStartBlock) with
    | true =>
      have hout : blockIdx ∉ freeIndices v := by simp [hbit]
      rwa [Finset.erase_eq_of_notMem hout]
    | false =>
      rw [hbit, if_neg (by decide), freeIndices_set hsound hi, hb] at hshows
      exact hshows
  · have hout : blockIdx ∉ freeIndices v := fun hmem => range (mem_freeIndices.mp hmem).1
    rw [Finset.erase_eq_of_notMem hout]
    exact ⟨none, v, attempt_raised (reserveBlock_outside range), h⟩

theorem Shows.give (h : Shows V masterKey n contents free v) (tagged : V.ChachaTagged)
    (blockIdx : Nat) :
    (¬ v.inRange blockIdx ∨ blockIdx ∈ free) ∧ attempt (freeBlock blockIdx) v = .ok none v ∨
    blockIdx ∉ free ∧ ∃ w, attempt (freeBlock blockIdx) v = .ok (some ()) w ∧
      Shows V masterKey n contents (insert blockIdx free) w := by
  have hsound := h.live.sound
  obtain rfl := h.frees
  by_cases range : v.inRange blockIdx
  · have hi := hsound.bit_of_inRange range
    have hb : dataStartBlock + (blockIdx - dataStartBlock) = blockIdx := Nat.add_sub_cancel' range.1
    cases hbit : test v.blockBitmap (blockIdx - dataStartBlock) with
    | false =>
      have hrun := freeBlock_already_free range (hsound.stored hi) hbit
      exact Or.inl ⟨Or.inr (mem_freeIndices.mpr ⟨range, hbit⟩), attempt_raised hrun⟩
    | true =>
      have hrun := freeBlock_ready h.live.intact.ready range (hsound.stored hi) hbit
      have hshows := h.volume tagged (.freeBlock blockIdx) rfl rfl
      rw [VolumeOp.program, finalState_bind_pure, hrun, finalState_ok,
        freeIndices_clear hsound hi, hb] at hshows
      exact Or.inr ⟨by simp [hbit], _, attempt_ok hrun, hshows⟩
  · exact Or.inl ⟨Or.inl range, attempt_raised (freeBlock_outside range)⟩

theorem Shows.write (h : Shows V masterKey n contents free v) (tagged : V.ChachaTagged)
    (blockIdx : Nat) (payload : Exactly payloadSize) (nonce : Exactly nonceSize) :
    (¬ v.inRange blockIdx ∨
        V.chachaEncrypt (deriveBlockKey V v.masterKey blockIdx) nonce payload = none) ∧
      attempt (writeBlock V blockIdx payload nonce) v = .ok none v ∨
    ∃ w, attempt (writeBlock V blockIdx payload nonce) v = .ok (some ()) w ∧
      Shows V masterKey n (Function.update contents blockIdx (some payload)) free w := by
  by_cases range : v.inRange blockIdx
  · cases hseal : V.chachaEncrypt (deriveBlockKey V v.masterKey blockIdx) nonce payload with
    | none =>
      exact Or.inl ⟨Or.inr rfl, attempt_raised (writeBlock_unsealed range hseal)⟩
    | some ciphertext =>
      have hrun := writeBlock_ready h.live.intact.ready range hseal
      have hrecord : recordWrite V v contents blockIdx payload nonce =
          Function.update contents blockIdx (some payload) := by
        rw [recordWrite, hrun]
        rfl
      have hshows := h.volume tagged (.writeBlock blockIdx payload nonce) hrecord rfl
      rw [VolumeOp.program, finalState_bind_pure, hrun, finalState_ok] at hshows
      exact Or.inr ⟨_, attempt_ok hrun, hshows.live, hshows.holds, h.frees⟩
  · exact Or.inl ⟨Or.inl range, attempt_raised (writeBlock_outside range payload nonce)⟩

theorem Shows.moved (h : Shows V masterKey n contents free v) (position : Nat) :
    Shows V masterKey n contents free (v.moved position) :=
  ⟨h.live.moved position, h.holds, h.frees⟩

theorem Shows.read (h : Shows V masterKey n contents free v) {blockIdx : Nat}
    {result : Option (Exactly payloadSize)}
    (run : attempt (readBlock V blockIdx) v = .ok result w) :
    Shows V masterKey n contents free w := by
  obtain ⟨position, hmoved⟩ := readBlock_moves (V := V) h.live.intact.ready blockIdx
  have hfinal : finalState (readBlock V blockIdx v) = w := by
    rw [← finalState_attempt, run, finalState_ok]
  rw [← hfinal, hmoved]
  exact h.moved position

theorem Shows.reopen (h : Shows V masterKey n contents free v) {m : Nat}
    (run : reopen V m v = .ok () w) : Shows V masterKey n contents free w := by
  by_cases capacity : m ≤ maxDataBlocks
  · rw [reopen_live h.live capacity] at run
    cases run
    exact h.moved _
  · rw [VirtualVolume.reopen, openOrCreate, if_pos (by omega)] at run
    cases run

end Primitive

section Entry

variable {V : VaultPrimitives} {masterKey : Bytes} {n : Nat} {contents : Contents}
  {free : Finset Nat} {v w : Volume}

theorem Shows.readVaultBlocks (h : Shows V masterKey n contents free v) {start count : Nat}
    {payloads : List (Exactly payloadSize)}
    (run : readVaultBlocks V start count v = .ok payloads w) :
    Shows V masterKey n contents free w := by
  induction count generalizing start payloads v w with
  | zero =>
    cases run
    exact h
  | succ count ih =>
    obtain ⟨result, v₁, hread, run⟩ := ok_of_bind run
    have hshows := h.read hread
    cases result with
    | none =>
      cases run
      exact hshows
    | some payload =>
      obtain ⟨rest, v₂, hrest, run⟩ := ok_of_bind run
      cases run
      exact ih hshows hrest

theorem Shows.checkCanaries (h : Shows V masterKey n contents free v) {blocks : List Nat}
    {code : Nat} (run : checkCanaries V blocks v = .ok code w) :
    Shows V masterKey n contents free w := by
  induction blocks generalizing v with
  | nil =>
    cases run
    exact h
  | cons blockIdx blocks ih =>
    obtain ⟨result, v₁, hread, run⟩ := ok_of_bind run
    have hshows := h.read hread
    cases result with
    | none =>
      cases run
      exact hshows
    | some payload =>
      dsimp only at run
      split_ifs at run
      · cases run
        exact hshows
      · exact ih hshows run

theorem Shows.writeVaultBlocks (h : Shows V masterKey n contents free v)
    (tagged : V.ChachaTagged) (start : Nat) (drafts : List Draft) :
    ∃ k ≤ drafts.length, ∃ w, writeVaultBlocks V start drafts v = .ok k w ∧
      Shows V masterKey n (overlay contents start (drafts.take k)) free w := by
  induction drafts generalizing start v contents with
  | nil => exact ⟨0, le_rfl, v, rfl, h⟩
  | cons draft drafts ih =>
    rcases h.write tagged start draft.payload draft.nonce with ⟨-, hfail⟩ | ⟨v₁, hwrite, hshows⟩
    · refine ⟨0, Nat.zero_le _, v, ?_, h⟩
      rw [VaultEntries.writeVaultBlocks, bind_ok hfail]
      rfl
    · obtain ⟨k, hk, w, hrest, hafter⟩ := ih hshows (start + 1)
      refine ⟨k + 1, Nat.succ_le_succ hk, w, ?_, hafter⟩
      rw [VaultEntries.writeVaultBlocks, bind_ok hwrite]
      dsimp only
      rw [bind_ok hrest]
      rfl

theorem Shows.reserveBlocks (h : Shows V masterKey n contents free v) (tagged : V.ChachaTagged)
    (blocks : List Nat) :
    ∃ w, reserveBlocks blocks v = .ok () w ∧
      Shows V masterKey n contents (free \ blocks.toFinset) w := by
  induction blocks generalizing v free with
  | nil => exact ⟨v, rfl, by simpa using h⟩
  | cons blockIdx blocks ih =>
    obtain ⟨result, v₁, hreserve, hshows⟩ := h.reserve tagged blockIdx
    obtain ⟨w, hrest, hafter⟩ := ih hshows
    refine ⟨w, ?_, ?_⟩
    · rw [VaultEntries.reserveBlocks, bind_ok hreserve, hrest]
    · rwa [List.toFinset_cons, Finset.sdiff_insert, ← Finset.erase_sdiff_comm]

theorem Shows.plantCanaries (h : Shows V masterKey n contents free v) (tagged : V.ChachaTagged)
    (slot : Nat) (draws : List CanaryDraw) :
    ∃ code w contents', plantCanaries V slot draws v = .ok code w ∧
      Shows V masterKey n contents' free w ∧
      ∀ b, b < 995 + slot ∨ 995 + slot + draws.length ≤ b → contents' b = contents b := by
  induction draws generalizing slot v contents with
  | nil => exact ⟨0, v, contents, rfl, h, fun _ _ => rfl⟩
  | cons draw draws ih =>
    rcases h.write tagged (995 + slot) (canaryBlock (UInt8.ofNat slot) draw.fill) draw.nonce with
      ⟨-, hfail⟩ | ⟨v₁, hwrite, hshows⟩
    · refine ⟨2, v, contents, ?_, h, fun _ _ => rfl⟩
      rw [VaultEntries.plantCanaries, bind_ok hfail]
      rfl
    · obtain ⟨code, w, contents', hrest, hafter, hapart⟩ := ih hshows (slot + 1)
      refine ⟨code, w, contents', ?_, hafter, fun b hb => ?_⟩
      · rw [VaultEntries.plantCanaries, bind_ok hwrite]
        exact hrest
      · rw [List.length_cons] at hb
        rw [hapart b (by omega), Function.update_of_ne (by omega)]

theorem Shows.initCanarySlots (h : Shows V masterKey n contents free v) (tagged : V.ChachaTagged)
    (draws : Fin 5 → CanaryDraw) :
    ∃ code w contents', initCanarySlots V draws v = .ok code w ∧
      Shows V masterKey n contents' (free \ reservedBlocks.toFinset) w ∧
      ∀ b, b < 995 ∨ 1000 ≤ b → contents' b = contents b := by
  obtain ⟨v₁, hreserve, hshows⟩ := h.reserveBlocks tagged reservedBlocks
  obtain ⟨code, w, contents', hplant, hafter, hapart⟩ :=
    hshows.plantCanaries tagged 0 (List.ofFn draws)
  refine ⟨code, w, contents', ?_, hafter, fun b hb => hapart b ?_⟩
  · rw [VaultEntries.initCanarySlots, bind_ok hreserve]
    exact hplant
  · rwa [List.length_ofFn]

theorem Shows.persistIdStamp (h : Shows V masterKey n contents free v) (tagged : V.ChachaTagged)
    {stamp : Bytes} {nonce : Exactly nonceSize} {code : Nat}
    (run : persistIdStamp V stamp nonce v = .ok code w) :
    code = 1 ∧ Shows V masterKey n contents free w ∨
    code = 0 ∧ ∃ width : stamp.length = 32, Shows V masterKey n
      (Function.update contents idStampBlock (some (stampBlock ⟨stamp, width⟩))) free w := by
  rw [VaultEntries.persistIdStamp] at run
  split_ifs at run with width
  · rcases h.write tagged idStampBlock (stampBlock ⟨stamp, width⟩) nonce with
      ⟨-, hfail⟩ | ⟨v₁, hwrite, hshows⟩
    · rw [vaultWriteBlock, bind_ok hfail] at run
      cases run
      exact Or.inl ⟨rfl, h⟩
    · rw [vaultWriteBlock, bind_ok hwrite] at run
      cases run
      exact Or.inr ⟨rfl, width, hshows⟩
  · cases run

end Entry

def DeviceOp.Idle : DeviceOp → DeviceReply → Prop
  | .allocateVaultBlock, reply => reply = .block u64Max
  | .freeVaultBlock _, reply | .secureEraseBlock .., reply => reply = .code 3
  | .generateIdStamp _, reply => reply = .code 1
  | .writeVaultBlocks .., _ | .initCanarySlots _, _ => False
  | _, _ => True

inductive DeviceStep (P : Primitives) (s : Session) (contents : Contents) (free : Finset Nat) :
    DeviceOp → DeviceReply → Contents → Finset Nat → Prop where
  | allocated (nonempty : free.Nonempty) :
      DeviceStep P s contents free .allocateVaultBlock (.block (free.min' nonempty)) contents
        (free.erase (free.min' nonempty))
  | freed (blockIdx : Nat) (taken : blockIdx ∉ free) :
      DeviceStep P s contents free (.freeVaultBlock blockIdx) (.code 0) contents
        (insert blockIdx free)
  | erased (blockIdx : Nat) (draft : Draft) (taken : blockIdx ∉ free) :
      DeviceStep P s contents free (.secureEraseBlock blockIdx draft) (.code 0)
        (Function.update contents blockIdx (some draft.payload)) (insert blockIdx free)
  /-- `secure_erase_block` of a free block fills it and then fails to free it. -/
  | filled (blockIdx : Nat) (draft : Draft) (loose : blockIdx ∈ free) :
      DeviceStep P s contents free (.secureEraseBlock blockIdx draft) (.code 3)
        (Function.update contents blockIdx (some draft.payload)) free
  | wrote (start : Nat) (drafts : List Draft) (k : Nat) (bound : k ≤ drafts.length) :
      DeviceStep P s contents free (.writeVaultBlocks start drafts) (.count k)
        (overlay contents start (drafts.take k)) free
  | planted (draws : Fin 5 → CanaryDraw) (code : Nat) (contents' : Contents)
      (apart : ∀ b, b < 995 ∨ 1000 ≤ b → contents' b = contents b) :
      DeviceStep P s contents free (.initCanarySlots draws) (.code code) contents'
        (free \ reservedBlocks.toFinset)
  | stamped (nonce : Exactly nonceSize) (stamp : Exactly 32)
      (computed : stamp.val = InitModule.computeIdStamp P s.curr s.bobPkStore) :
      DeviceStep P s contents free (.generateIdStamp nonce) (.code 0)
        (Function.update contents idStampBlock (some (stampBlock stamp))) free
  | idle (op : DeviceOp) (reply : DeviceReply) (reports : op.Idle reply) :
      DeviceStep P s contents free op reply contents free

def Takes {α : Type} (P : Primitives) (V : VaultPrimitives) (s : Session) (op : DeviceOp)
    (m : VolumeM α) (wrap : α → DeviceReply) : Prop :=
  ∀ ⦃masterKey : Bytes⦄ ⦃n : Nat⦄ ⦃contents : Contents⦄ ⦃free : Finset Nat⦄ ⦃v : Volume⦄ ⦃a : α⦄
    ⦃w : Volume⦄, Shows V masterKey n contents free v → m v = .ok a w →
    ∃ contents' free', Shows V masterKey n contents' free' w ∧
      DeviceStep P s contents free op (wrap a) contents' free'

section Takes

variable {P : Primitives} {V : VaultPrimitives} {s : Session}

theorem allocateVaultBlock_takes (tagged : V.ChachaTagged) :
    Takes P V s .allocateVaultBlock allocateVaultBlock .block := by
  intro masterKey n contents free v a w h run
  rcases h.allocate tagged with ⟨-, hrun⟩ | ⟨hne, w, hrun, hshows⟩
  · rw [allocateVaultBlock, bind_ok hrun] at run
    cases run
    exact ⟨contents, free, h, .idle _ _ rfl⟩
  · rw [allocateVaultBlock, bind_ok hrun] at run
    cases run
    exact ⟨_, _, hshows, .allocated hne⟩

theorem freeVaultBlock_takes (tagged : V.ChachaTagged) (blockIdx : Nat) :
    Takes P V s (.freeVaultBlock blockIdx) (freeVaultBlock blockIdx) .code := by
  intro masterKey n contents free v a w h run
  rcases h.give tagged blockIdx with ⟨-, hrun⟩ | ⟨htaken, w, hrun, hshows⟩
  · rw [freeVaultBlock, bind_ok hrun] at run
    cases run
    exact ⟨contents, free, h, .idle _ _ rfl⟩
  · rw [freeVaultBlock, bind_ok hrun] at run
    cases run
    exact ⟨_, _, hshows, .freed blockIdx htaken⟩

theorem secureEraseBlock_takes (tagged : V.ChachaTagged) (blockIdx : Nat) (draft : Draft) :
    Takes P V s (.secureEraseBlock blockIdx draft) (secureEraseBlock V blockIdx draft) .code := by
  intro masterKey n contents free v a w h run
  rcases h.write tagged blockIdx draft.payload draft.nonce with ⟨-, hfail⟩ | ⟨v₁, hwrite, hwritten⟩
  · rw [secureEraseBlock, bind_ok hfail] at run
    cases run
    exact ⟨contents, free, h, .idle _ _ rfl⟩
  · rw [secureEraseBlock, bind_ok hwrite] at run
    dsimp only at run
    rcases hwritten.give tagged blockIdx with ⟨hwhy, hrun⟩ | ⟨htaken, v₂, hrun, hshows⟩
    · have hrange := (hwritten.holds blockIdx draft.payload (Function.update_self _ _ _)).1
      rw [bind_ok hrun] at run
      cases run
      exact ⟨_, _, hwritten, .filled blockIdx draft (hwhy.resolve_left (not_not.mpr hrange))⟩
    · rw [bind_ok hrun] at run
      cases run
      exact ⟨_, _, hshows, .erased blockIdx draft htaken⟩

theorem readVaultBlocks_takes (start count : Nat) :
    Takes P V s (.readVaultBlocks start count) (readVaultBlocks V start count) .payloads := by
  intro masterKey n contents free v a w h run
  exact ⟨contents, free, h.readVaultBlocks run, .idle _ _ trivial⟩

theorem writeVaultBlocks_takes (tagged : V.ChachaTagged) (start : Nat) (drafts : List Draft) :
    Takes P V s (.writeVaultBlocks start drafts) (writeVaultBlocks V start drafts) .count := by
  intro masterKey n contents free v a w h run
  obtain ⟨k, hk, w', hrun, hshows⟩ := h.writeVaultBlocks tagged start drafts
  cases run.symm.trans hrun
  exact ⟨_, _, hshows, .wrote start drafts _ hk⟩

theorem initCanarySlots_takes (tagged : V.ChachaTagged) (draws : Fin 5 → CanaryDraw) :
    Takes P V s (.initCanarySlots draws) (initCanarySlots V draws) .code := by
  intro masterKey n contents free v a w h run
  obtain ⟨code, w', contents', hrun, hshows, hapart⟩ := h.initCanarySlots tagged draws
  cases run.symm.trans hrun
  exact ⟨_, _, hshows, .planted draws _ contents' hapart⟩

theorem persistIdStamp_takes (tagged : V.ChachaTagged) (nonce : Exactly nonceSize) :
    Takes P V s (.generateIdStamp nonce)
      (persistIdStamp V (InitModule.computeIdStamp P s.curr s.bobPkStore) nonce) .code := by
  intro masterKey n contents free v a w h run
  rcases h.persistIdStamp tagged run with ⟨rfl, hshows⟩ | ⟨rfl, width, hshows⟩
  · exact ⟨contents, free, hshows, .idle _ _ rfl⟩
  · exact ⟨_, _, hshows, .stamped nonce ⟨_, width⟩ rfl⟩

theorem readIdStamp_takes : Takes P V s .loadIdStamp (readIdStamp V) .stamp := by
  intro masterKey n contents free v a w h run
  obtain ⟨payload, v₁, hread, hpure⟩ := ok_of_bind run
  cases hpure
  exact ⟨contents, free, h.read hread, .idle _ _ trivial⟩

end Takes

section Step

variable {P : Primitives} {V : VaultPrimitives} {masterKey : Bytes} {n : Nat}
  {contents : Contents} {free : Finset Nat} {d d' : Device} {op : DeviceOp} {reply : DeviceReply}

def Device.Shows (d : Device) (V : VaultPrimitives) (masterKey : Bytes) (n : Nat)
    (contents : Contents) (free : Finset Nat) : Prop :=
  ∃ v, d.vfs = some v ∧ VaultEntries.Shows V masterKey n contents free v

theorem withVaultOr_step {α : Type} {default a : α} {m : VolumeM α} {wrap : α → DeviceReply}
    (takes : Takes P V d.session op m wrap) (h : d.Shows V masterKey n contents free)
    (returns : withVaultOr default m d = .ok a d') :
    ∃ contents' free', d'.Shows V masterKey n contents' free' ∧
      DeviceStep P d.session contents free op (wrap a) contents' free' := by
  obtain ⟨v, vault, h⟩ := h
  obtain ⟨w, hrun, rfl⟩ := ok_of_withVaultOr vault returns
  obtain ⟨contents', free', hshows, hstep⟩ := takes h hrun
  exact ⟨contents', free', ⟨w, rfl, hshows⟩, hstep⟩

theorem wrapped_step {α : Type} {default : α} {m : VolumeM α} {wrap : α → DeviceReply}
    (takes : Takes P V d.session op m wrap) (h : d.Shows V masterKey n contents free)
    (returns : (withVaultOr default m >>= fun a => pure (wrap a)) d = .ok reply d') :
    ∃ contents' free', d'.Shows V masterKey n contents' free' ∧
      DeviceStep P d.session contents free op reply contents' free' := by
  obtain ⟨a, hrun, rfl⟩ := ok_of_wrapped returns
  exact withVaultOr_step takes h hrun

theorem validateCanarySlots_shows (h : d.Shows V masterKey n contents free) {code : Nat}
    (returns : validateCanarySlots V d = .ok code d') : d'.Shows V masterKey n contents free := by
  obtain ⟨v, vault, h⟩ := h
  obtain ⟨found, d₁, hcheck, hrest⟩ := ok_of_bind returns
  obtain ⟨w, hrun, rfl⟩ := ok_of_withVaultOr vault hcheck
  have hshows := h.checkCanaries hrun
  by_cases hzero : found = 0
  · subst hzero
    cases hrest
    exact ⟨w, rfl, hshows⟩
  · rw [if_neg hzero] at hrest
    cases hrest
    exact ⟨w, rfl, hshows⟩

theorem restart_shows (h : d.Shows V masterKey n contents free) {totalDataBlocks : Nat}
    (returns : restart V totalDataBlocks d = .ok () d') :
    d'.Shows V masterKey n contents free := by
  obtain ⟨v, vault, h⟩ := h
  obtain ⟨⟨⟩, d₁, hopen, hrest⟩ := ok_of_bind returns
  obtain ⟨w, hrun, rfl⟩ := ok_of_withVaultOr vault hopen
  cases hrest
  exact ⟨w, rfl, h.reopen hrun⟩

theorem program_step (tagged : V.ChachaTagged) (h : d.Shows V masterKey n contents free)
    (returns : op.program P V d = .ok reply d') :
    ∃ contents' free', d'.Shows V masterKey n contents' free' ∧
      DeviceStep P d.session contents free op reply contents' free' := by
  cases op with
  | session op =>
    obtain ⟨a, hrun, rfl⟩ := ok_of_wrapped returns
    cases hrun
    exact ⟨contents, free, h, .idle _ _ trivial⟩
  | allocateVaultBlock => exact wrapped_step (allocateVaultBlock_takes tagged) h returns
  | freeVaultBlock blockIdx => exact wrapped_step (freeVaultBlock_takes tagged _) h returns
  | secureEraseBlock blockIdx draft =>
    exact wrapped_step (secureEraseBlock_takes tagged _ _) h returns
  | readVaultBlocks start count => exact wrapped_step (readVaultBlocks_takes _ _) h returns
  | writeVaultBlocks start drafts =>
    exact wrapped_step (writeVaultBlocks_takes tagged _ _) h returns
  | initCanarySlots draws => exact wrapped_step (initCanarySlots_takes tagged _) h returns
  | validateCanarySlots =>
    obtain ⟨code, hrun, rfl⟩ := ok_of_wrapped returns
    exact ⟨contents, free, validateCanarySlots_shows h hrun, .idle _ _ trivial⟩
  | canarySlotsIntact =>
    cases returns
    exact ⟨contents, free, h, .idle _ _ trivial⟩
  | generateIdStamp nonce =>
    obtain ⟨code, hrun, rfl⟩ := ok_of_wrapped returns
    obtain ⟨stamp, d₁, hstamp, hpersist⟩ := ok_of_bind hrun
    have hrun := InitModule.run_generateIdStampFromCurr (P := P) d.session
    rw [onSession, hrun] at hstamp
    cases hstamp
    exact withVaultOr_step (persistIdStamp_takes tagged nonce) h hpersist
  | loadIdStamp => exact wrapped_step readIdStamp_takes h returns
  | restart totalDataBlocks =>
    obtain ⟨⟨⟩, d₁, hrun, hpure⟩ := ok_of_bind returns
    cases hpure
    exact ⟨contents, free, restart_shows h hrun, .idle _ _ trivial⟩

theorem withVaultOr_session {α : Type} {default a : α} {m : VolumeM α}
    (returns : withVaultOr default m d = .ok a d') : d'.session = d.session := by
  cases hvault : d.vfs with
  | none =>
    rw [withVaultOr, hvault] at returns
    cases returns
    rfl
  | some v =>
    obtain ⟨w, -, rfl⟩ := ok_of_withVaultOr hvault returns
    rfl

theorem wrapped_session {α : Type} {default : α} {m : VolumeM α} {wrap : α → DeviceReply}
    (returns : (withVaultOr default m >>= fun a => pure (wrap a)) d = .ok reply d') :
    d'.session = d.session := by
  obtain ⟨a, hrun, -⟩ := ok_of_wrapped returns
  exact withVaultOr_session hrun

def DeviceOp.sessionAfter (P : Primitives) (s : Session) : DeviceOp → Session
  | .session op => (op.exec P s).2
  | .restart _ => Session.fresh
  | _ => s

theorem program_session (returns : op.program P V d = .ok reply d') :
    d'.session = op.sessionAfter P d.session := by
  cases op with
  | session op =>
    obtain ⟨a, hrun, -⟩ := ok_of_wrapped returns
    cases hrun
    rfl
  | validateCanarySlots =>
    obtain ⟨code, hrun, -⟩ := ok_of_wrapped returns
    obtain ⟨found, d₁, hcheck, hrest⟩ := ok_of_bind hrun
    have hkept := withVaultOr_session hcheck
    by_cases hzero : found = 0
    · subst hzero
      cases hrest
      exact hkept
    · rw [if_neg hzero] at hrest
      cases hrest
      exact hkept
  | canarySlotsIntact =>
    cases returns
    rfl
  | generateIdStamp nonce =>
    obtain ⟨code, hrun, -⟩ := ok_of_wrapped returns
    obtain ⟨stamp, d₁, hstamp, hpersist⟩ := ok_of_bind hrun
    have hrun := InitModule.run_generateIdStampFromCurr (P := P) d.session
    rw [onSession, hrun] at hstamp
    cases hstamp
    exact withVaultOr_session hpersist
  | restart totalDataBlocks =>
    obtain ⟨⟨⟩, d₁, hrun, hpure⟩ := ok_of_bind returns
    obtain ⟨⟨⟩, d₂, -, hrest⟩ := ok_of_bind hrun
    cases hpure
    cases hrest
    rfl
  | _ => exact wrapped_session returns

end Step

def Accepting (V : VaultPrimitives) : Prop :=
  ∀ key nonce payload : Bytes, (V.chachaEncrypt key nonce payload).isSome

section Progress

variable {P : Primitives} {V : VaultPrimitives} {masterKey : Bytes} {n : Nat}
  {contents : Contents} {free : Finset Nat} {v : Volume} {d : Device}

theorem Shows.inRange_iff (h : Shows V masterKey n contents free v) {blockIdx : Nat} :
    v.inRange blockIdx ↔ 9 ≤ blockIdx ∧ blockIdx < 9 + n := by
  rw [Volume.inRange, h.live.total]
  rfl

theorem Shows.write_ok (h : Shows V masterKey n contents free v) (tagged : V.ChachaTagged)
    (accepting : Accepting V) {blockIdx : Nat} (range : 9 ≤ blockIdx ∧ blockIdx < 9 + n)
    (payload : Exactly payloadSize) (nonce : Exactly nonceSize) :
    ∃ w, attempt (writeBlock V blockIdx payload nonce) v = .ok (some ()) w ∧
      Shows V masterKey n (Function.update contents blockIdx (some payload)) free w := by
  refine (h.write tagged blockIdx payload nonce).resolve_left ?_
  rintro ⟨houtside | hrefused, -⟩
  · exact houtside (h.inRange_iff.mpr range)
  · have hsome := accepting (deriveBlockKey V v.masterKey blockIdx) nonce payload
    rw [hrefused] at hsome
    cases hsome

def Marked (contents : Contents) (blockIdx : Nat) : Prop :=
  ∃ payload, contents blockIdx = some payload ∧ payload.val.take 6 = canaryMark

theorem canaryBlock_mark (slot : UInt8) (fill : Exactly (payloadSize - 8)) :
    (canaryBlock slot fill).val.take 6 = canaryMark := by
  have hmark : canaryMark.length = 6 := rfl
  change (canaryMark ++ [slot, 1] ++ fill.val).take 6 = canaryMark
  rw [List.append_assoc]
  exact List.take_left' hmark

theorem Shows.plantCanaries_ok (h : Shows V masterKey n contents free v)
    (tagged : V.ChachaTagged) (accepting : Accepting V) (slot : Nat) (draws : List CanaryDraw)
    (fits : 995 + slot + draws.length ≤ 9 + n) :
    ∃ w contents', VaultEntries.plantCanaries V slot draws v = .ok 0 w ∧
      Shows V masterKey n contents' free w ∧
      (∀ b < 995 + slot, contents' b = contents b) ∧
      ∀ b, 995 + slot ≤ b → b < 995 + slot + draws.length → Marked contents' b := by
  induction draws generalizing slot v contents with
  | nil => exact ⟨v, contents, rfl, h, fun _ _ => rfl, fun b low high => by simp at high; omega⟩
  | cons draw draws ih =>
    rw [List.length_cons] at fits
    have hrange : 9 ≤ 995 + slot ∧ 995 + slot < 9 + n := by omega
    obtain ⟨v₁, hwrite, hshows⟩ := h.write_ok tagged accepting hrange
      (canaryBlock (UInt8.ofNat slot) draw.fill) draw.nonce
    obtain ⟨w, contents', hrest, hafter, hkept, hmarked⟩ := ih hshows (slot + 1) (by omega)
    refine ⟨w, contents', ?_, hafter, fun b hb => ?_, fun b low high => ?_⟩
    · rw [VaultEntries.plantCanaries, bind_ok hwrite]
      exact hrest
    · rw [hkept b (by omega), Function.update_of_ne (by omega)]
    · rw [List.length_cons] at high
      by_cases hb : b = 995 + slot
      · refine ⟨canaryBlock (UInt8.ofNat slot) draw.fill, ?_, canaryBlock_mark _ _⟩
        rw [hkept b (by omega), hb, Function.update_self]
      · exact hmarked b (by omega) (by omega)

theorem Device.Shows.plants (h : d.Shows V masterKey n contents free) (tagged : V.ChachaTagged)
    (accepting : Accepting V) (fits : 991 ≤ n) (draws : Fin 5 → CanaryDraw) :
    ∃ d' contents' free', (DeviceOp.initCanarySlots draws).program P V d = .ok (.code 0) d' ∧
      d'.Shows V masterKey n contents' free' ∧
      ∀ b, 995 ≤ b → b < 1000 → Marked contents' b := by
  obtain ⟨v, vault, h⟩ := h
  obtain ⟨v₁, hreserve, hshows⟩ := h.reserveBlocks tagged reservedBlocks
  obtain ⟨w, contents', hplant, hafter, -, hmarked⟩ :=
    hshows.plantCanaries_ok tagged accepting 0 (List.ofFn draws) (by rw [List.length_ofFn]; omega)
  have hrun : VaultEntries.initCanarySlots V draws v = .ok 0 w := by
    rw [VaultEntries.initCanarySlots, bind_ok hreserve]
    exact hplant
  rw [List.length_ofFn] at hmarked
  exact ⟨_, contents', _, wrapped_ok vault hrun, ⟨w, rfl, hafter⟩, hmarked⟩

theorem Device.Shows.frees (h : d.Shows V masterKey n contents free) (tagged : V.ChachaTagged)
    {blockIdx : Nat} (range : 9 ≤ blockIdx ∧ blockIdx < 9 + n) (taken : blockIdx ∉ free) :
    ∃ d', (DeviceOp.freeVaultBlock blockIdx).program P V d = .ok (.code 0) d' ∧
      d'.Shows V masterKey n contents (insert blockIdx free) := by
  obtain ⟨v, vault, h⟩ := h
  rcases h.give tagged blockIdx with ⟨houtside | hloose, -⟩ | ⟨-, w, hrun, hshows⟩
  · exact absurd (h.inRange_iff.mpr range) houtside
  · exact absurd hloose taken
  · have hentry : VaultEntries.freeVaultBlock blockIdx v = .ok 0 w := by
      rw [VaultEntries.freeVaultBlock, bind_ok hrun]
      rfl
    exact ⟨_, wrapped_ok vault hentry, w, rfl, hshows⟩

theorem Device.Shows.writes (h : d.Shows V masterKey n contents free) (tagged : V.ChachaTagged)
    (accepting : Accepting V) {blockIdx : Nat} (range : 9 ≤ blockIdx ∧ blockIdx < 9 + n)
    (draft : Draft) :
    ∃ d', (DeviceOp.writeVaultBlocks blockIdx [draft]).program P V d = .ok (.count 1) d' ∧
      d'.Shows V masterKey n (Function.update contents blockIdx (some draft.payload)) free := by
  obtain ⟨v, vault, h⟩ := h
  obtain ⟨w, hwrite, hshows⟩ := h.write_ok tagged accepting range draft.payload draft.nonce
  have hentry : VaultEntries.writeVaultBlocks V blockIdx [draft] v = .ok 1 w := by
    rw [VaultEntries.writeVaultBlocks, bind_ok hwrite]
    rfl
  exact ⟨_, wrapped_ok vault hentry, w, rfl, hshows⟩

theorem Device.Shows.stamps (h : d.Shows V masterKey n contents free) (tagged : V.ChachaTagged)
    (accepting : Accepting V) (fits : 986 ≤ n) {stamp : Exactly 32}
    (computed : stamp.val = InitModule.computeIdStamp P d.session.curr d.session.bobPkStore)
    (nonce : Exactly nonceSize) :
    ∃ d', (DeviceOp.generateIdStamp nonce).program P V d = .ok (.code 0) d' ∧
      d'.Shows V masterKey n
        (Function.update contents idStampBlock (some (stampBlock stamp))) free := by
  obtain ⟨v, vault, h⟩ := h
  have hrange : 9 ≤ idStampBlock ∧ idStampBlock < 9 + n := by
    rw [idStampBlock]
    omega
  obtain ⟨w, hwrite, hshows⟩ := h.write_ok tagged accepting hrange (stampBlock stamp) nonce
  have hentry : VaultEntries.persistIdStamp V
      (InitModule.computeIdStamp P d.session.curr d.session.bobPkStore) nonce v = .ok 0 w := by
    rw [← computed, VaultEntries.persistIdStamp, dif_pos stamp.property, vaultWriteBlock,
      bind_ok hwrite]
    rfl
  have hstamp : onSession (InitModule.generateIdStampFromCurr P) d =
      .ok (InitModule.computeIdStamp P d.session.curr d.session.bobPkStore) d := by
    rw [onSession, InitModule.run_generateIdStampFromCurr]
  refine ⟨{ d with vfs := some w }, ?_, w, rfl, hshows⟩
  have hrun : VaultEntries.generateIdStamp P V nonce d = .ok 0 { d with vfs := some w } := by
    rw [VaultEntries.generateIdStamp, bind_ok hstamp]
    exact withVaultOr_ok vault hentry
  rw [DeviceOp.program, bind_ok hrun]
  rfl

theorem Device.Shows.allocates (h : d.Shows V masterKey n contents free) (tagged : V.ChachaTagged)
    (nonempty : free.Nonempty) :
    ∃ d', DeviceOp.allocateVaultBlock.program P V d = .ok (.block (free.min' nonempty)) d' ∧
      d'.Shows V masterKey n contents (free.erase (free.min' nonempty)) := by
  obtain ⟨v, vault, h⟩ := h
  rcases h.allocate tagged with ⟨hempty, -⟩ | ⟨hne, w, hrun, hshows⟩
  · exact absurd hempty nonempty.ne_empty
  · have hentry : VaultEntries.allocateVaultBlock v = .ok (free.min' nonempty) w := by
      rw [VaultEntries.allocateVaultBlock, bind_ok hrun]
      rfl
    exact ⟨_, wrapped_ok vault hentry, w, rfl, hshows⟩

theorem Device.Shows.allocates_up_to (h : d.Shows V masterKey n contents free)
    (tagged : V.ChachaTagged) {blockIdx : Nat} (loose : blockIdx ∈ free) :
    ∃ calls before after free',
      Run P V d (calls ++ [⟨.allocateVaultBlock, before, .block blockIdx, after⟩]) after ∧
      after.Shows V masterKey n contents free' ∧
      ∀ call ∈ calls, call.op = .allocateVaultBlock := by
  -- induction on the number of free blocks below
  generalize hbelow : (free.filter (· < blockIdx)).card = below
  induction below generalizing d free with
  | zero =>
    have hne : free.Nonempty := ⟨blockIdx, loose⟩
    have hmin : free.min' hne = blockIdx := by
      refine le_antisymm (free.min'_le _ loose) (not_lt.mp fun hlt => ?_)
      rw [Finset.card_eq_zero] at hbelow
      have hmem : free.min' hne ∈ free.filter (· < blockIdx) :=
        Finset.mem_filter.mpr ⟨free.min'_mem hne, hlt⟩
      rw [hbelow] at hmem
      cases hmem
    obtain ⟨d', hrun, hshows⟩ := h.allocates (P := P) tagged hne
    rw [hmin] at hrun
    exact ⟨[], d, d', _, .single hrun, hshows, by simp⟩
  | succ below ih =>
    have hne : free.Nonempty := ⟨blockIdx, loose⟩
    have hlt : free.min' hne < blockIdx := by
      have hpos : 0 < (free.filter (· < blockIdx)).card := by omega
      obtain ⟨b, hb⟩ := Finset.card_pos.mp hpos
      obtain ⟨hmem, hlt⟩ := Finset.mem_filter.mp hb
      exact (free.min'_le b hmem).trans_lt hlt
    obtain ⟨d', hrun, hshows⟩ := h.allocates (P := P) tagged hne
    have hcard : ((free.erase (free.min' hne)).filter (· < blockIdx)).card = below := by
      rw [Finset.filter_erase, Finset.card_erase_of_mem, hbelow, Nat.add_sub_cancel]
      exact Finset.mem_filter.mpr ⟨free.min'_mem hne, hlt⟩
    obtain ⟨calls, before, after, free', hrest, hafter, hops⟩ :=
      ih hshows (Finset.mem_erase.mpr ⟨hlt.ne', loose⟩) hcard
    refine ⟨_ :: calls, before, after, free', (Run.single hrun).append hrest, hafter, ?_⟩
    simpa using hops

end Progress

def sampleDevice : Device where
  session := Session.fresh
  vfs := some (freshVolume symbolicVault sampleKey 991 absentFile)
  canaryIntact := false

theorem sampleDevice_shows :
    sampleDevice.Shows symbolicVault sampleKey 991 (fun _ => none) (Finset.Ico 9 1000) := by
  have live : Live symbolicVault sampleKey 991
      (freshVolume symbolicVault sampleKey 991 absentFile) :=
    live_created (by decide) (f := absentFile) rfl (createNew_healthy rfl rfl)
  have hshows := shows_of_live live
  rw [freeIndices_fresh] at hshows
  exact ⟨_, rfl, hshows⟩

theorem symbolicVault_accepting : Accepting symbolicVault := fun _ _ _ => rfl

end SecureCore.VaultEntries
