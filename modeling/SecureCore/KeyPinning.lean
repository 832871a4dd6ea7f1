import SecureCore.SessionSteps
import SecureCore.TwoParty

/-! Which public key `start_evolution` encapsulates to. The key of the ID stamp is
the one given to `initialise_root_state`; the one used for the KEM sits in a store
of its own, which `set_peer_public_key` rewrites together with the hash that is
meant to guard it. The swap check therefore never fires. -/

namespace SecureCore.KeyPinning

open RootState Evolution

def pinnedKey (call : Call) : Option Bytes :=
  match call.op with
  | .initialiseRootState _ _ bobPk => if call.reply = .code 0 then some bobPk else none
  | _ => none

def suppliedKey (call : Call) : Option Bytes :=
  match call.op with
  | .setPeerPublicKey pk => some pk
  | _ => none

section

variable (P : Primitives)

/-- A `start_evolution` bound to one key: on success the encapsulation is to that
key, and another key in the store is refused as swapped, with nothing changed. -/
def PinnedTo (bobPk coins : Bytes) (call : Call) : Prop :=
  (call.reply = .code 0 →
    ∃ kemCt ss, P.encapsulate bobPk coins = some (kemCt, ss) ∧
      call.after.kemCipher = some kemCt ∧
      call.after.pend = some (derivePendingKey P ss call.before.curr)) ∧
  (call.before.bobPublicKey ≠ bobPk →
    call.reply = .code 5 ∧ call.after.pend = call.before.pend ∧
      call.after.kemCipher = call.before.kemCipher)

structure Stored (supplied : Option Bytes) (s : Session) : Prop where
  key : s.bobPublicKey = supplied.getD []
  hash : s.peerPkHash = zeros32 ∨ s.peerPkHash = P.sha256 s.bobPublicKey

end

variable {P : Primitives} {supplied : Option Bytes} {s : Session}

theorem stored_step {op : SessionOp} (h : Stored P supplied s) :
    Stored P ((suppliedKey (op.call P s)).or supplied) (op.exec P s).2 := by
  have hstep := exec_step (P := P) op s
  rw [SessionOp.call]
  generalize op.exec P s = result at hstep
  obtain ⟨reply, after⟩ := result
  dsimp only at hstep ⊢
  cases hstep with
  | supplied pk => exact ⟨rfl, Or.inr rfl⟩
  | recovered target ahead near =>
    obtain ⟨-, -, hkey, -⟩ := AntiDos.rolledBy_frame (P := P) (target - s.epoch).toNat s
    obtain ⟨hhash, -⟩ := AntiDos.rolledBy_stores (P := P) (target - s.epoch).toNat s
    refine ⟨hkey.trans h.key, ?_⟩
    rw [hhash, hkey]
    exact h.hash
  | idle op reply reports =>
    cases op with
    | setPeerPublicKey pk => exact reports.elim
    | _ => exact h
  | initialised | keyed | started | applied | committed | autoCommitted | numbered | sent =>
    exact ⟨h.key, h.hash⟩

theorem run_stored (ops : List SessionOp) :
    Stored P (latestOf suppliedKey (trace P .fresh ops)) (Session.fresh.after P ops) := by
  refine run_induction (motive := fun calls s => Stored P (latestOf suppliedKey calls) s) ?_ ?_ ops
  · exact ⟨rfl, Or.inl rfl⟩
  · intro calls s op ih
    rw [latestOf_snoc]
    exact stored_step ih

theorem pinnedTo_iff {bobPk coins : Bytes} (h : Stored P supplied s) :
    PinnedTo P bobPk coins ((SessionOp.startEvolution coins).call P s) ↔
      s.bobPublicKey = bobPk := by
  constructor
  · rintro ⟨-, hswapped⟩
    by_contra hne
    have hfive := (hswapped hne).1
    simp only [SessionOp.call, SessionOp.exec_startEvolution, Reply.code.injEq] at hfive
    exact startEvolution_ne_swapped h.hash hfive
  · rintro rfl
    refine ⟨fun hreply => ?_, fun hne => absurd rfl hne⟩
    simp only [SessionOp.call, SessionOp.exec_startEvolution, Reply.code.injEq] at hreply ⊢
    rcases startEvolution_cases (P := P) coins s with
      ⟨kemCt, ss, -, henc, -, hrun⟩ | ⟨code, hcode, hrun⟩
    · rw [hrun]
      exact ⟨kemCt, ss, henc, rfl, rfl⟩
    · rw [hrun] at hreply
      exact absurd hreply hcode

/-- In every run and for each `start_evolution` in it: after an initialisation the
call is bound to that initialisation's key exactly when the key supplied last is
the same one, and with neither made it does not succeed. -/
theorem evolution_pinned_iff (P : Primitives) (ops : List SessionOp) (earlier later : List Call)
    (call : Call) (coins : Bytes) (split : trace P .fresh ops = earlier ++ call :: later)
    (starts : call.op = .startEvolution coins) :
    (∀ bobPk, latestOf pinnedKey earlier = some bobPk →
      (PinnedTo P bobPk coins call ↔ (latestOf suppliedKey earlier).getD [] = bobPk)) ∧
    (latestOf pinnedKey earlier = none → latestOf suppliedKey earlier = none →
      call.reply ≠ .code 0) := by
  obtain ⟨past, op, rfl, rfl⟩ := trace_split split
  obtain rfl : op = .startEvolution coins := starts
  have hstored := run_stored (P := P) past
  refine ⟨fun bobPk _ => ?_, fun _ hsupplied => ?_⟩
  · rw [pinnedTo_iff hstored, hstored.key]
  · have hempty : (Session.fresh.after P past).bobPublicKey = [] := by
      rw [hstored.key, hsupplied]
      rfl
    simp [SessionOp.call, startEvolution, hempty]

theorem evolution_pinned_iff_sameKey :
    let P := SymbolicPrimitives.symbolic
    let past : List SessionOp :=
      [.initialiseRootState sampleEntropy sampleEntropy [1, 4], .setPeerPublicKey [1, 4]]
    let call := (SessionOp.startEvolution [4]).call P (Session.fresh.after P past)
    call.reply = .code 0 ∧ PinnedTo P [1, 4] [4] call := by
  refine ⟨by decide +kernel, ?_⟩
  have hpinned := evolution_pinned_iff SymbolicPrimitives.symbolic
    ([.initialiseRootState sampleEntropy sampleEntropy [1, 4], .setPeerPublicKey [1, 4]] ++
      [.startEvolution [4]]) _ [] _ [4] (trace_append _ _ _) rfl
  exact (hpinned.1 [1, 4] (by decide +kernel)).2 (by decide +kernel)

theorem swapped_key_is_encapsulated_to :
    let P := SymbolicPrimitives.symbolic
    let past : List SessionOp :=
      [.initialiseRootState sampleEntropy sampleEntropy [1, 4], .setPeerPublicKey [1, 5]]
    let call := (SessionOp.startEvolution [4]).call P (Session.fresh.after P past)
    latestOf pinnedKey (trace P .fresh past) = some [1, 4] ∧
      call.before.bobPublicKey = [1, 5] ∧ call.reply = .code 0 ∧
      call.after.kemCipher ≠ call.before.kemCipher ∧ ¬ PinnedTo P [1, 4] [4] call := by
  refine ⟨by decide +kernel, by decide +kernel, by decide +kernel, by decide +kernel, ?_⟩
  rintro ⟨-, hswapped⟩
  exact absurd (hswapped (by decide +kernel)).1 (by decide +kernel)

end SecureCore.KeyPinning
