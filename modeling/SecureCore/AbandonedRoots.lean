import SecureCore.Compromise

/-! Roots that are left for good. Under injective key derivation every lineage has its
own key, so a root that was replaced never comes back, and two devices whose lineages
have parted never hold the same root again. A wire is opened only under the root it
was made with: those of a root that was left are lost, and so is every message
between devices that have parted. -/

namespace SecureCore.AbandonedRoots

open Ratchet RootState MessageCipher RootLineage Compromise

section Wires

variable {P : Primitives} {s : Session} {pt wire : Bytes} {root : Key} {header : Header}

theorem run_tryDecrypt_of_other_root (hkdf : P.HkdfInjective) (aead : P.AeadAuthentic)
    (made : encrypt P pt (deriveMessageKeyFromRoot P root header.epoch header.msgSeq) header =
      some wire) (curr : s.curr ≠ root) (pend : s.pend ≠ some root) (claimed : Header) :
    (tryDecryptWithEvolution P wire claimed).run s = (none, s) := by
  have hclosed : ∀ other, other ≠ root →
      decrypt P wire (deriveMessageKeyFromRoot P other claimed.epoch claimed.msgSeq) claimed =
        none := by
    intro other hne
    refine decrypt_other_key aead made (fun hkey => hne ?_) claimed
    exact (messageKeysDistinct_of_injective hkdf Set.univ trivial trivial hkey).1
  rcases tryDecryptWithEvolution_cases (P := P) wire claimed s with
    ⟨opened, hopen, -⟩ | ⟨newKey, opened, -, -, hpend, hopen, -⟩ | hrun
  · rw [hclosed s.curr curr] at hopen
    cases hopen
  · have hne : newKey ≠ root := fun h => pend (h ▸ hpend)
    rw [hclosed newKey hne] at hopen
    cases hopen
  · exact hrun

theorem root_not_stored (hkdf : P.HkdfInjective) {r : RootRing} (mirrors : Mirrors P r s)
    {d : Lineage Key Bytes} (origin : Underived P d.origin)
    (origins : ∀ e ∈ r.held, Underived P e.origin) (apart : d ∉ r.held) :
    s.curr ≠ rootKey P d ∧ s.pend ≠ some (rootKey P d) := by
  constructor
  · intro h
    have hcurr : r.curr ∈ r.held := Or.inl rfl
    rw [← mirrors.curr] at h
    exact apart (rootKey_inj hkdf (origins _ hcurr) origin h ▸ hcurr)
  · intro h
    rw [← mirrors.pend] at h
    obtain ⟨e, he, hkey⟩ := Option.map_eq_some_iff.mp h
    have hheld : e ∈ r.held := Or.inr he
    exact apart (rootKey_inj hkdf (origins _ hheld) origin hkey ▸ hheld)

theorem held_underived (origins : OriginsUnderived P) (ops : List SessionOp) :
    ∀ e ∈ (lineage P ops).held, Underived P e.origin := by
  rintro e (rfl | hpend)
  · exact underived_lineage origins ops _ (Or.inl List.mem_cons_self)
  · exact underived_lineage origins ops _ (Or.inr hpend)

end Wires

/-- Unless an initialisation starts from an earlier origin once more: when the root in
force has been replaced, it is never in force or pending again, and no message encrypted
under it is ever opened. Each of its wires is refused, under every header, and leaves
the process as it was. -/
theorem replaced_root_never_returns (P : Primitives) (hkdf : P.HkdfInjective)
    (aead : P.AeadAuthentic) (origins : OriginsUnderived P) (ops mid rest : List SessionOp)
    (fresh : FreshOrigins P (ops ++ mid ++ rest))
    (changed : (Session.fresh.after P (ops ++ mid)).curr ≠ (Session.fresh.after P ops).curr) :
    let root := (Session.fresh.after P ops).curr
    let s := Session.fresh.after P (ops ++ mid ++ rest)
    s.curr ≠ root ∧ s.pend ≠ some root ∧ ∀ pt header wire claimed,
      encrypt P pt (deriveMessageKeyFromRoot P root header.epoch header.msgSeq) header =
        some wire → (tryDecryptWithEvolution P wire claimed).run s = (none, s) := by
  have hleft : (lineage P ops).curr ∈ (lineage P (ops ++ mid ++ rest)).past :=
    mem_past_of_changed rest changed
  have hapart : (lineage P ops).curr ∉ (lineage P (ops ++ mid ++ rest)).held := fun hheld =>
    (onward_lineage fresh).ne_of_held hheld hleft (le_refl _)
  have hstored := root_not_stored hkdf (mirrors_lineage P (ops ++ mid ++ rest))
    (held_underived origins ops _ (Or.inl rfl)) (held_underived origins _) hapart
  rw [(mirrors_lineage P ops).curr] at hstored
  refine ⟨hstored.1, hstored.2, fun pt header wire claimed made => ?_⟩
  exact run_tryDecrypt_of_other_root hkdf aead made hstored.1 hstored.2 claimed

theorem replaced_root_never_returns_lateMessage :
    let P := SymbolicPrimitives.symbolic
    let ops : List SessionOp := [.initialiseRootState sampleEntropy sampleEntropy [1, 4]]
    let mid : List SessionOp := [.recoverAfterLoss 1]
    let rest : List SessionOp := [.setPeerPublicKey [1, 4], .startEvolution [4], .commitEvolution]
    let header : Header := ⟨[9], true, 0, 1, 7⟩
    let s := Session.fresh.after P (ops ++ mid ++ rest)
    ∃ wire, encrypt P [5] (deriveMessageKeyFromRoot P (Session.fresh.after P ops).curr 0 1) header =
        some wire ∧ (tryDecryptWithEvolution P wire header).run s = (none, s) := by
  -- A message of the first root, after a recovery and an evolution.
  intro P ops mid rest header s
  have hkeeps : KeepsOrigin (mid ++ rest) := by simp [KeepsOrigin, mid, rest]
  have hnew : InitModule.initialRoot P sampleEntropy sampleEntropy ≠ zeros32 := by decide +kernel
  have hfresh : FreshOrigins P (ops ++ mid ++ rest) := freshOrigins_initialised hnew hkeeps
  have hchanged : (Session.fresh.after P (ops ++ mid)).curr ≠ (Session.fresh.after P ops).curr := by
    decide +kernel
  refine ⟨_, rfl, ?_⟩
  exact (replaced_root_never_returns P SymbolicPrimitives.symbolic_hkdfInjective
    SymbolicPrimitives.symbolic_aeadAuthentic symbolic_originsUnderived ops mid rest hfresh
    hchanged).2.2 [5] header _ header rfl

section TwoDevices

def callsOf (p : Peer) (actions : List (Peer × SessionOp)) : List SessionOp :=
  (actions.filter fun action => action.1 = p).map Prod.snd

theorem callsOf_append (p : Peer) (actions more : List (Peer × SessionOp)) :
    callsOf p (actions ++ more) = callsOf p actions ++ callsOf p more := by
  simp [callsOf]

def newPair : World := World.start fun _ => Session.fresh

variable {P : Primitives}

theorem session_run (p : Peer) (actions : List (Peer × SessionOp)) :
    (newPair.run P actions).session p = Session.fresh.after P (callsOf p actions) := by
  induction actions using List.reverseRecOn with
  | nil => rfl
  | append_singleton actions action ih =>
    obtain ⟨q, op⟩ := action
    have hrun : newPair.run P (actions ++ [(q, op)]) = (newPair.run P actions).act P q op := by
      simp [World.run]
    rw [hrun]
    by_cases hpq : q = p
    · subst hpq
      rw [World.act_session_self, ih, callsOf_append]
      simp [callsOf, Session.after]
    · rw [World.act_session_of_ne _ _ (Ne.symm hpq), ih, callsOf_append]
      simp [callsOf, hpq]

def deviceLineage (P : Primitives) (p : Peer) (actions : List (Peer × SessionOp)) : RootRing :=
  lineage P (callsOf p actions)

theorem keepsOrigin_callsOf {more : List (Peer × SessionOp)}
    (keeps : KeepsOrigin (more.map Prod.snd)) (p : Peer) : KeepsOrigin (callsOf p more) := by
  intro op hop
  obtain ⟨action, haction, rfl⟩ := List.mem_map.mp hop
  exact keeps _ (List.mem_map_of_mem (List.mem_of_mem_filter haction))

theorem diverged_append {p q : Peer} {actions more further : List (Peer × SessionOp)}
    (parted : Ring.Diverged (deviceLineage P p actions) (deviceLineage P q actions))
    (keeps : KeepsOrigin ((more ++ further).map Prod.snd)) :
    Ring.Diverged (deviceLineage P p (actions ++ more))
      (deviceLineage P q (actions ++ (more ++ further))) := by
  have hmore : KeepsOrigin (more.map Prod.snd) := fun op hop =>
    keeps op (by rw [List.map_append]; exact List.mem_append_left _ hop)
  rw [deviceLineage, deviceLineage, callsOf_append, callsOf_append, lineage_append,
    lineage_append]
  refine (Ring.Diverged.symm ?_).after (continues_movesIn (keepsOrigin_callsOf hmore p) _)
  exact parted.symm.after (continues_movesIn (keepsOrigin_callsOf keeps q) _)

/-- Divergence is final: once the roots two devices hold lie on different lines, no
calls but a new initialisation bring them together. Whatever is delivered, lost or
made up in between, their roots differ, and a message one of them has sent since is
refused by the other whenever it arrives. -/
theorem parted_devices_never_meet (P : Primitives) (hkdf : P.HkdfInjective)
    (aead : P.AeadAuthentic) (origins : OriginsUnderived P)
    (actions more further : List (Peer × SessionOp)) (p : Peer)
    (parted : Ring.Diverged (deviceLineage P p actions) (deviceLineage P p.other actions))
    (keeps : KeepsOrigin ((more ++ further).map Prod.snd)) :
    let sender := (newPair.run P (actions ++ more)).session p
    let receiver := (newPair.run P (actions ++ (more ++ further))).session p.other
    receiver.curr ≠ sender.curr ∧ receiver.pend ≠ some sender.curr ∧
      ∀ pt header wire claimed,
        encrypt P pt (deriveMessageKeyFromRoot P sender.curr header.epoch header.msgSeq) header =
          some wire → (tryDecryptWithEvolution P wire claimed).run receiver = (none, receiver) := by
  have hparted := diverged_append parted keeps
  have hsender : (deviceLineage P p (actions ++ more)).curr ∈
      (deviceLineage P p (actions ++ more)).held := Or.inl rfl
  have hapart : (deviceLineage P p (actions ++ more)).curr ∉
      (deviceLineage P p.other (actions ++ (more ++ further))).held := fun hheld =>
    (hparted _ hsender _ hheld).1 (le_refl _)
  have hstored := root_not_stored hkdf
    (mirrors_lineage P (callsOf p.other (actions ++ (more ++ further))))
    (held_underived origins _ _ hsender) (held_underived origins _) hapart
  rw [deviceLineage, (mirrors_lineage P _).curr, ← session_run, ← session_run] at hstored
  refine ⟨hstored.1, hstored.2, fun pt header wire claimed made => ?_⟩
  exact run_tryDecrypt_of_other_root hkdf aead made hstored.1 hstored.2 claimed

theorem parted_devices_never_meet_recovered :
    let P := SymbolicPrimitives.symbolic
    let init : SessionOp := .initialiseRootState sampleEntropy sampleEntropy [1, 4]
    let actions : List (Peer × SessionOp) := [(.alice, init), (.bob, init),
      (.alice, .setPeerPublicKey [1, 4]), (.alice, .startEvolution [4]),
      (.alice, .commitEvolution), (.bob, .recoverAfterLoss 1)]
    let w := newPair.run P actions
    (w.session .alice).epoch = (w.session .bob).epoch ∧
      (w.session .alice).curr ≠ (w.session .bob).curr := by
  -- One device commits an evolution, the other recovers to the same epoch.
  intro P init actions w
  have hroll : deviceLineage P .bob actions = (lineage P [init]).after [.roll] := by
    decide +kernel
  have hmix : deviceLineage P .alice actions = (lineage P [init]).after
      [.install (SymbolicPrimitives.fit32 [4]), .promote] := by
    decide +kernel
  have hparted : Ring.Diverged (deviceLineage P .bob actions) (deviceLineage P .alice actions) := by
    rw [hroll, hmix]
    exact Ring.diverged_roll_promote (by decide +kernel) _
  refine ⟨by decide +kernel, ?_⟩
  have hnever := parted_devices_never_meet P SymbolicPrimitives.symbolic_hkdfInjective
    SymbolicPrimitives.symbolic_aeadAuthentic symbolic_originsUnderived actions [] [] .bob hparted
    (by simp [KeepsOrigin])
  rw [List.append_nil, List.append_nil] at hnever
  exact hnever.1

end TwoDevices

end SecureCore.AbandonedRoots
