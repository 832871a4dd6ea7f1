import SecureCore.ChainedRoots
import SecureCore.Ratchet

/-! The lineages of a session's roots. A root starts from the all-zero key of a new
process or from an initialisation; `roll_epoch_forward` rolls it, and a pending root
mixes in the secret of a KEM exchange. The calls of a run determine a ring of
lineages, and the process holds the keys at their ends. -/

namespace SecureCore.RootLineage

open Ratchet RootState MessageCipher Evolution AntiDos InitModule ChainedRoots

abbrev RootRing := Ring Key Bytes

section

variable (P : Primitives)

def linkKey : Link Bytes → Key → Key
  | .roll, root => rollKey P root
  | .mix ss, root => derivePendingKey P ss root

def rootKey (d : Lineage Key Bytes) : Key := d.key id (linkKey P)

def itemKey : Item Key Bytes (UInt32 × UInt64) → Key
  | .root d => rootKey P d
  | .leaf d (epoch, msgSeq) => deriveMessageKeyFromRoot P (rootKey P d) epoch msgSeq

def movesOf (call : Call) : List (Move Key Bytes) :=
  match call.op with
  | .initialiseRootState alice bob _ =>
    if call.reply = .code 0 then [.reset (initialRoot P alice bob)] else []
  | .startEvolution _ => ((secretOf P call).map Move.install).toList
  | .applyPeerKem _ => ((secretOf P call).map Move.install).toList
  | .commitEvolution => if call.reply = .code 0 then [.promote] else []
  | .tryDecryptWithEvolution _ _ =>
    match call.reply with
    | .opened (some (_, true)) => [.promote]
    | _ => []
  | .recoverAfterLoss _ => List.replicate (call.after.epoch - call.before.epoch).toNat .roll
  | _ => []

def movesIn (calls : List Call) : List (Move Key Bytes) := calls.flatMap (movesOf P)

def lineage (ops : List SessionOp) : RootRing :=
  (Ring.start zeros32).after (movesIn P (trace P .fresh ops))

/-- The process holds the keys of the ring. -/
structure Mirrors (r : RootRing) (s : Session) : Prop where
  curr : rootKey P r.curr = s.curr
  pend : r.pend.map (rootKey P) = s.pend

end

variable {P : Primitives} {r : RootRing} {s : Session}

@[simp] theorem rootKey_next (d : Lineage Key Bytes) (link : Link Bytes) :
    rootKey P (d.next link) = linkKey P link (rootKey P d) :=
  Lineage.key_next id (linkKey P) d link

theorem movesOf_initialise (P : Primitives) (alice bob bobPk : Bytes) (before after : Session)
    (reply : Reply) :
    movesOf P ⟨.initialiseRootState alice bob bobPk, before, reply, after⟩ =
      [.reset (initialRoot P alice bob)] ∨
    movesOf P ⟨.initialiseRootState alice bob bobPk, before, reply, after⟩ = [] := by
  simp only [movesOf]
  split_ifs
  · exact Or.inl rfl
  · exact Or.inr rfl

theorem movesOf_idle {op : SessionOp} {reply : Reply} (reports : op.Idle reply) :
    movesOf P ⟨op, s, reply, s⟩ = [] := by
  have hsecret := secretOf_of_idle (P := P) (s := s) reports
  cases op with
  | initialiseRootState alice bob bobPk =>
    obtain ⟨value, hvalue, rfl⟩ := reports
    simp [movesOf, hvalue]
  | startEvolution coins => simp [movesOf, hsecret]
  | applyPeerKem kemCt => simp [movesOf, hsecret]
  | commitEvolution =>
    obtain ⟨value, hvalue, rfl⟩ := reports
    simp [movesOf, hvalue]
  | tryDecryptWithEvolution wire header =>
    simp only [movesOf]
    split
    · next reply pt => exact absurd rfl (reports pt)
    · rfl
  | recoverAfterLoss target => simp [movesOf]
  | generateBobKeypair coins => rfl
  | setPeerPublicKey pk => rfl
  | getKemCipher capacity => rfl
  | kemCipherLen => rfl
  | getEpochId => rfl
  | msgCounterNext => rfl
  | deriveMessageKey epoch msgSeq => rfl
  | send plaintext idStamp outgoing timestamp => rfl

theorem secretOf_of_install {call : Call} {ss : Bytes} (h : .install ss ∈ movesOf P call) :
    secretOf P call = some ss := by
  obtain ⟨op, before, reply, after⟩ := call
  cases op with
  | startEvolution coins => simpa [movesOf] using h
  | applyPeerKem kemCt => simpa [movesOf] using h
  | initialiseRootState alice bob bobPk =>
    rcases movesOf_initialise P alice bob bobPk before after reply with hmoves | hmoves
    · simp [hmoves] at h
    · simp [hmoves] at h
  | commitEvolution => simp [movesOf] at h
  | tryDecryptWithEvolution wire header =>
    simp only [movesOf] at h
    split at h <;> simp at h
  | recoverAfterLoss target => simp [movesOf] at h
  | generateBobKeypair coins => simp [movesOf] at h
  | setPeerPublicKey pk => simp [movesOf] at h
  | getKemCipher capacity => simp [movesOf] at h
  | kemCipherLen => simp [movesOf] at h
  | getEpochId => simp [movesOf] at h
  | msgCounterNext => simp [movesOf] at h
  | deriveMessageKey epoch msgSeq => simp [movesOf] at h
  | send plaintext idStamp outgoing timestamp => simp [movesOf] at h

theorem mirrors_rolledBy (h : Mirrors P r s) (n : Nat) :
    Mirrors P (r.after (List.replicate n .roll)) (rolledBy P n s) := by
  induction n generalizing r s with
  | zero => exact h
  | succ n ih =>
    have hrolled : Mirrors P (r.move .roll) (rolled s (rollKey P s.curr)) :=
      ⟨by rw [Ring.move, rootKey_next, h.curr]; rfl, h.pend⟩
    exact ih hrolled

theorem mirrors_install (h : Mirrors P r s) (ss : Bytes) (kemCipher : Option Bytes) :
    Mirrors P (r.move (.install ss))
      { s with pend := some (derivePendingKey P ss s.curr), kemCipher := kemCipher } := by
  refine ⟨h.curr, ?_⟩
  rw [Ring.move, Option.map_some, rootKey_next, h.curr]
  rfl

theorem mirrors_promote (h : Mirrors P r s) {newKey : Key} (pending : s.pend = some newKey) :
    Mirrors P (r.move .promote) (promoted s newKey) := by
  have hpend := h.pend
  rw [pending] at hpend
  obtain ⟨d, hd, rfl⟩ := Option.map_eq_some_iff.mp hpend
  simp only [Ring.move, hd]
  exact ⟨rfl, rfl⟩

theorem mirrors_call (h : Mirrors P r s) (op : SessionOp) :
    Mirrors P (r.after (movesOf P (op.call P s))) (op.exec P s).2 := by
  have hstep := exec_step (P := P) op s
  rw [SessionOp.call]
  generalize op.exec P s = result at hstep
  obtain ⟨reply, after⟩ := result
  dsimp only at hstep ⊢
  cases hstep with
  | initialised alice bob bobPk accepted =>
    simp only [movesOf, if_true]
    exact ⟨rfl, h.pend⟩
  | keyed => exact ⟨h.curr, h.pend⟩
  | supplied => exact ⟨h.curr, h.pend⟩
  | started coins kemCt ss hpk encapsulated hwidth =>
    simp only [movesOf, secretOf, encapsulated, if_true, Option.map_some]
    exact mirrors_install h ss (some kemCt)
  | applied kemCt ss decapsulated hwidth =>
    simp only [movesOf, secretOf, decapsulated, if_true, Option.map_some]
    exact mirrors_install h ss s.kemCipher
  | committed newKey pending =>
    simp only [movesOf, if_true]
    exact mirrors_promote h pending
  | autoCommitted wire header newKey pt pending => exact mirrors_promote h pending
  | recovered target ahead near =>
    have hrolls : ((rolledBy P (target - s.epoch).toNat s).epoch - s.epoch).toNat =
        (target - s.epoch).toNat := by
      rw [rolledBy_epoch, UInt32.ofNat_toNat, UInt32.add_comm, UInt32.add_sub_cancel]
    simp only [movesOf, hrolls]
    exact mirrors_rolledBy h _
  | numbered => exact ⟨h.curr, h.pend⟩
  | sent => exact ⟨h.curr, h.pend⟩
  | idle op reply reports =>
    rw [movesOf_idle reports]
    exact h

theorem movesIn_trace_append (ops later : List SessionOp) (s : Session) :
    movesIn P (trace P s (ops ++ later)) =
      movesIn P (trace P s ops) ++ movesIn P (trace P (s.after P ops) later) := by
  rw [movesIn, trace_append, List.flatMap_append]
  rfl

theorem lineage_append (ops later : List SessionOp) :
    lineage P (ops ++ later) =
      (lineage P ops).after (movesIn P (trace P (Session.fresh.after P ops) later)) := by
  rw [lineage, movesIn_trace_append, Ring.after_append]
  rfl

theorem mirrors_lineage (P : Primitives) (ops : List SessionOp) :
    Mirrors P (lineage P ops) (Session.fresh.after P ops) := by
  refine run_induction (motive := fun calls s =>
    Mirrors P ((Ring.start zeros32).after (movesIn P calls)) s) ⟨rfl, rfl⟩ ?_ ops
  intro calls s op ih
  rw [movesIn, List.flatMap_append, List.flatMap_singleton, Ring.after_append]
  exact mirrors_call ih op

/-- No initialisation of the run repeats an origin. -/
structure FreshOrigins (P : Primitives) (ops : List SessionOp) : Prop where
  new : (Ring.start zeros32 : RootRing).NewOrigins (movesIn P (trace P .fresh ops))

theorem onward_lineage {ops : List SessionOp} (fresh : FreshOrigins P ops) :
    (lineage P ops).Onward :=
  (Ring.onward_start zeros32).after fresh.new

theorem continues_movesOf {op : SessionOp}
    (kept : ∀ alice bob bobPk, op ≠ .initialiseRootState alice bob bobPk) (before after : Session)
    (reply : Reply) : Ring.Continues (movesOf P ⟨op, before, reply, after⟩) := by
  intro m hm origin hreset
  subst hreset
  cases op with
  | initialiseRootState alice bob bobPk => exact kept alice bob bobPk rfl
  | startEvolution coins => simp [movesOf] at hm
  | applyPeerKem kemCt => simp [movesOf] at hm
  | commitEvolution => simp [movesOf] at hm
  | tryDecryptWithEvolution wire header =>
    simp only [movesOf] at hm
    split at hm <;> simp at hm
  | recoverAfterLoss target => simp [movesOf] at hm
  | generateBobKeypair coins => simp [movesOf] at hm
  | setPeerPublicKey pk => simp [movesOf] at hm
  | getKemCipher capacity => simp [movesOf] at hm
  | kemCipherLen => simp [movesOf] at hm
  | getEpochId => simp [movesOf] at hm
  | msgCounterNext => simp [movesOf] at hm
  | deriveMessageKey epoch msgSeq => simp [movesOf] at hm
  | send plaintext idStamp outgoing timestamp => simp [movesOf] at hm

def KeepsOrigin (ops : List SessionOp) : Prop :=
  ∀ op ∈ ops, ∀ alice bob bobPk, op ≠ .initialiseRootState alice bob bobPk

theorem continues_movesIn {ops : List SessionOp} (keeps : KeepsOrigin ops) (s : Session) :
    Ring.Continues (movesIn P (trace P s ops)) := by
  intro m hm
  obtain ⟨call, hcall, hmove⟩ := List.mem_flatMap.mp hm
  obtain ⟨op, before, reply, after⟩ := call
  exact continues_movesOf (keeps op (mem_trace hcall).1) before after reply m hmove

theorem freshOrigins_initialised {alice bob bobPk : Bytes} {later : List SessionOp}
    (new : initialRoot P alice bob ≠ zeros32) (keeps : KeepsOrigin later) :
    FreshOrigins P (.initialiseRootState alice bob bobPk :: later) := by
  refine ⟨Ring.newOrigins_append.mpr
    ⟨?_, Ring.newOrigins_of_continues (continues_movesIn keeps _)⟩⟩
  rw [SessionOp.call]
  rcases movesOf_initialise P alice bob bobPk _ _ _ with hmoves | hmoves
  · rw [hmoves]
    refine ⟨?_, trivial⟩
    rintro origin ⟨⟩ d hd
    rw [List.mem_singleton.mp hd]
    exact new.symm
  · rw [hmoves]
    trivial

section Keys

/-- Neither a roll nor a KEM secret leads to this root. -/
def Underived (P : Primitives) (origin : Key) : Prop := ∀ link root, linkKey P link root ≠ origin

structure OriginsUnderived (P : Primitives) : Prop where
  zero : Underived P zeros32
  initial : ∀ alice bob, Underived P (initialRoot P alice bob)

theorem linkKey_inj (hkdf : P.HkdfInjective) {link link' : Link Bytes} {root root' : Key}
    (h : linkKey P link root = linkKey P link' root') : link = link' ∧ root = root' := by
  have hlabels : rollInfo ≠ ascii "LinkChat Evolution" := by decide
  cases link with
  | roll =>
    cases link' with
    | roll => exact ⟨rfl, (hkdf h).2.1⟩
    | mix ss => exact absurd (hkdf h).2.2 hlabels
  | mix ss =>
    cases link' with
    | roll => exact absurd (hkdf h).2.2.symm hlabels
    | mix ss' =>
      obtain ⟨rfl, hroot, -⟩ := hkdf h
      exact ⟨rfl, hroot⟩

theorem rootKey_inj (hkdf : P.HkdfInjective) {d e : Lineage Key Bytes} (hd : Underived P d.origin)
    (he : Underived P e.origin) (h : rootKey P d = rootKey P e) : d = e :=
  Lineage.key_injOn (Underived P) (fun _ _ _ _ h => h)
    (fun _ link root horigin => horigin link root) (fun _ _ _ _ h => linkKey_inj hkdf h)
    hd he h

theorem reset_mem_movesIn {calls : List Call} {origin : Key}
    (h : .reset origin ∈ movesIn P calls) : ∃ alice bob, origin = initialRoot P alice bob := by
  obtain ⟨⟨op, before, reply, after⟩, -, hmove⟩ := List.mem_flatMap.mp h
  by_cases kept : ∀ alice bob bobPk, op ≠ .initialiseRootState alice bob bobPk
  · exact absurd rfl (continues_movesOf kept before after reply _ hmove origin)
  · push Not at kept
    obtain ⟨alice, bob, bobPk, rfl⟩ := kept
    rcases movesOf_initialise P alice bob bobPk before after reply with hmoves | hmoves
    · rw [hmoves] at hmove
      obtain ⟨⟩ := List.mem_singleton.mp hmove
      exact ⟨alice, bob, rfl⟩
    · rw [hmoves] at hmove
      cases hmove

theorem underived_lineage (origins : OriginsUnderived P) (ops : List SessionOp)
    (d : Lineage Key Bytes) (h : d ∈ (lineage P ops).curr :: (lineage P ops).past ∨
      (lineage P ops).pend = some d) : Underived P d.origin := by
  refine Ring.origin_after ?_ (fun origin horigin => ?_) d h
  · rintro d (hd | hd)
    · rcases List.mem_cons.mp hd with rfl | hd
      · exact origins.zero
      · cases hd
    · cases hd
  · obtain ⟨alice, bob, rfl⟩ := reset_mem_movesIn horigin
    exact origins.initial alice bob

theorem framed_head (bytes : Bytes) :
    ∃ rest, SymbolicPrimitives.framed bytes = 0 :: rest ∨
      SymbolicPrimitives.framed bytes = 1 :: rest := by
  cases bytes with
  | nil => exact ⟨[], Or.inl rfl⟩
  | cons byte bytes => exact ⟨_, Or.inr rfl⟩

theorem symbolic_originsUnderived : OriginsUnderived SymbolicPrimitives.symbolic := by
  -- The symbolic keys spell out their derivation, which no origin does.
  have hshape : ∀ link root, ∃ salt info, linkKey SymbolicPrimitives.symbolic link root =
      SymbolicPrimitives.framed salt ++ SymbolicPrimitives.framed root ++ info ∧
      info.getLast? ≠ some 0 ∧ info ≠ [] := by
    intro link root
    cases link with
    | roll => exact ⟨rollSalt, rollInfo, rfl, by decide, by decide⟩
    | mix ss => exact ⟨ss, ascii "LinkChat Evolution", rfl, by decide, by decide⟩
  refine ⟨fun link root h => ?_, fun alice bob link root h => ?_⟩
  · obtain ⟨salt, info, hkey, hlast, hinfo⟩ := hshape link root
    rw [hkey] at h
    have hend := congrArg List.getLast? h
    rw [List.getLast?_append_of_ne_nil _ hinfo] at hend
    exact hlast (hend.trans rfl)
  · obtain ⟨salt, info, hkey, -⟩ := hshape link root
    rw [hkey] at h
    obtain ⟨rest, hhead⟩ := framed_head salt
    have hname : ascii "LinkChat RootState Init" = 76 :: ascii "inkChat RootState Init" := by
      decide
    have hfirst := congrArg List.head? h
    rw [initialRoot, hname] at hfirst
    rcases hhead with hhead | hhead
    · rw [hhead] at hfirst
      simp [SymbolicPrimitives.symbolic, SymbolicPrimitives.fit32] at hfirst
    · rw [hhead] at hfirst
      simp [SymbolicPrimitives.symbolic, SymbolicPrimitives.fit32] at hfirst

end Keys

end SecureCore.RootLineage
