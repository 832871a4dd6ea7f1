import SecureCore.RootLineage

/-! What an attacker who has read the statics of a process can deduce about its other
roots. Derivations are one-way: keys are followed forward, through rolls and through
the KEM secrets the attacker has, and never backward. Message keys the host was
given are known as well, and lead nowhere. Every deduction can be carried out on the
keys themselves, with the derivations of the source, and opens the messages. -/

namespace SecureCore.Compromise

open Ratchet RootState MessageCipher Evolution ChainedRoots RootLineage

abbrev MessageKeys := Set (Lineage Key Bytes × UInt32 × UInt64)

section ForwardSecrecy

variable {P : Primitives}

theorem mem_past_of_changed {ops mid : List SessionOp} (rest : List SessionOp)
    (changed : (Session.fresh.after P (ops ++ mid)).curr ≠ (Session.fresh.after P ops).curr) :
    (lineage P ops).curr ∈ (lineage P (ops ++ mid ++ rest)).past := by
  have hold := (mirrors_lineage P ops).curr
  have hmid := (mirrors_lineage P (ops ++ mid)).curr
  rw [lineage_append (ops ++ mid) rest]
  refine Ring.past_subset_after _ ?_
  rw [lineage_append] at hmid ⊢
  rcases Ring.curr_after (r := lineage P ops)
    (movesIn P (trace P (Session.fresh.after P ops) mid)) with hsame | hleft
  · rw [hsame, hold] at hmid
    exact absurd hmid.symm changed
  · exact hleft

/-- Forward secrecy: a root that has been replaced cannot be deduced from any later
state of the process, even with every KEM secret and every message key that was
handed out; nor can a message key of it that was not. No initialisation may start from
an earlier origin once more, which would bring the root back. -/
theorem replaced_root_not_deducible (P : Primitives) (ops mid rest : List SessionOp)
    (fresh : FreshOrigins P (ops ++ mid ++ rest))
    (changed : (Session.fresh.after P (ops ++ mid)).curr ≠ (Session.fresh.after P ops).curr)
    (handedOut : MessageKeys) :
    let old := (lineage P ops).curr
    let now := lineage P (ops ++ mid ++ rest)
    rootKey P old = (Session.fresh.after P ops).curr ∧
      Mirrors P now (Session.fresh.after P (ops ++ mid ++ rest)) ∧
      ¬ Deducible Set.univ (now.exposed handedOut) (.root old) ∧
      ∀ label, (old, label) ∉ handedOut →
        ¬ Deducible Set.univ (now.exposed handedOut) (.leaf old label) := by
  have hroot : ¬ Deducible Set.univ ((lineage P (ops ++ mid ++ rest)).exposed handedOut)
      (.root (lineage P ops).curr) :=
    (onward_lineage fresh).not_deducible (mem_past_of_changed rest changed) handedOut
  refine ⟨(mirrors_lineage P ops).curr, mirrors_lineage P _, hroot, fun label unknown h => ?_⟩
  rcases Deducible.leaf_iff.mp h with hknown | hdeduced
  · rcases hknown with ⟨d, -, hitem⟩ | ⟨leaf, hleaf, hitem⟩
    · cases hitem
    · obtain ⟨hroot, hlabel⟩ := Item.leaf.inj hitem
      rw [hroot, hlabel] at unknown
      exact unknown hleaf
  · exact hroot hdeduced

theorem replaced_root_not_deducible_rolled :
    let P := SymbolicPrimitives.symbolic
    let ops : List SessionOp := [.initialiseRootState sampleEntropy sampleEntropy [1, 4]]
    let mid : List SessionOp := [.recoverAfterLoss 1]
    let rest : List SessionOp := [.setPeerPublicKey [1, 4], .startEvolution [4], .commitEvolution]
    (Session.fresh.after P (ops ++ mid)).curr ≠ (Session.fresh.after P ops).curr ∧
      ¬ Deducible Set.univ ((lineage P (ops ++ mid ++ rest)).exposed (∅ : MessageKeys))
        (.root (lineage P ops).curr) := by
  intro P ops mid rest
  have hkeeps : KeepsOrigin (mid ++ rest) := by simp [KeepsOrigin, mid, rest]
  have hnew : InitModule.initialRoot P sampleEntropy sampleEntropy ≠ zeros32 := by decide +kernel
  have hfresh : FreshOrigins P (ops ++ mid ++ rest) := freshOrigins_initialised hnew hkeeps
  have hchanged : (Session.fresh.after P (ops ++ mid)).curr ≠ (Session.fresh.after P ops).curr := by
    decide +kernel
  exact ⟨hchanged, (replaced_root_not_deducible P ops mid rest hfresh hchanged ∅).2.2.1⟩

end ForwardSecrecy

section Healing

variable (P : Primitives)

def committedSecrets (calls : List Call) : List Bytes := Ring.promotedSecrets (movesIn P calls)

/-- Healing: whoever has read the statics while nothing was pending can deduce the
root in force later just if the secret of every evolution committed since is known.
Recoveries, failed evolutions and message keys make no difference. -/
theorem later_root_deducible_iff (ops later : List SessionOp) (secrets : Set Bytes)
    (handedOut : MessageKeys) (idle : (Session.fresh.after P ops).pend = none)
    (keeps : KeepsOrigin later) :
    let read := lineage P ops
    let now := lineage P (ops ++ later)
    Mirrors P read (Session.fresh.after P ops) ∧
      Mirrors P now (Session.fresh.after P (ops ++ later)) ∧
      (Deducible secrets (read.exposed handedOut) (.root now.curr) ↔
        ∀ ss ∈ committedSecrets P (trace P (Session.fresh.after P ops) later), ss ∈ secrets) := by
  have hread := mirrors_lineage P ops
  have hidle : (lineage P ops).pend = none := by
    have hpend := hread.pend
    rw [idle] at hpend
    exact Option.map_eq_none_iff.mp hpend
  refine ⟨hread, mirrors_lineage P _, ?_⟩
  rw [lineage_append]
  exact Ring.deducible_after_iff (continues_movesIn keeps _) hidle handedOut

theorem later_root_deducible_iff_evolved :
    let P := SymbolicPrimitives.symbolic
    let ops : List SessionOp := [.setPeerPublicKey [1, 4]]
    let later : List SessionOp := [.recoverAfterLoss 2, .startEvolution [4], .commitEvolution]
    Deducible ∅ ((lineage P ops).exposed (∅ : MessageKeys))
        (.root (lineage P (ops ++ [.recoverAfterLoss 2])).curr) ∧
      ¬ Deducible ∅ ((lineage P ops).exposed (∅ : MessageKeys))
        (.root (lineage P (ops ++ later)).curr) := by
  intro P ops later
  have hidle : (Session.fresh.after P ops).pend = none := by decide +kernel
  constructor
  · refine (later_root_deducible_iff P ops [.recoverAfterLoss 2] ∅ ∅ hidle
      (by simp [KeepsOrigin])).2.2.mpr ?_
    decide +kernel
  · intro h
    have hsecrets := (later_root_deducible_iff P ops later ∅ ∅ hidle
      (by simp [KeepsOrigin, later])).2.2.mp h
    exact hsecrets (SymbolicPrimitives.fit32 [4]) (by decide +kernel)

def exchangedBy (call : Call) : Option Bytes :=
  if call.reply = .code 0 then
    match call.op with
    | .startEvolution _ => call.after.kemCipher
    | .applyPeerKem kemCt => some kemCt
    | _ => none
  else none

/-- The secrets a KEM secret key recovers from the ciphertexts of these calls. -/
def recoverable (sk : Bytes) (calls : List Call) : Set Bytes :=
  { ss | ∃ call ∈ calls, ∃ kemCt ∈ exchangedBy call, P.decapsulate kemCt sk = some ss }

/-- Every exchange the process can take part in is open to this secret key. -/
structure OpenTo (sk : Bytes) (s : Session) : Prop where
  own : s.bobKeys.2 ≠ [] → s.bobKeys.2 = sk
  peer : s.bobPublicKey ≠ [] → P.KemMatches s.bobPublicKey sk

def KeepsKeys : SessionOp → Prop
  | .initialiseRootState _ _ _ | .generateBobKeypair _ | .setPeerPublicKey _ => False
  | _ => True

variable {P} {sk : Bytes} {s : Session}

theorem openTo_exec (h : OpenTo P sk s) {op : SessionOp} (keeps : KeepsKeys op) :
    OpenTo P sk (op.exec P s).2 := by
  have hstep := exec_step (P := P) op s
  generalize op.exec P s = result at hstep
  obtain ⟨reply, after⟩ := result
  dsimp only at hstep ⊢
  cases hstep with
  | initialised => exact keeps.elim
  | keyed => exact keeps.elim
  | supplied => exact keeps.elim
  | recovered target ahead near =>
    obtain ⟨-, hkeys, hpk, -⟩ := AntiDos.rolledBy_frame (P := P) (target - s.epoch).toNat s
    exact ⟨by rw [hkeys]; exact h.own, by rw [hpk]; exact h.peer⟩
  | started | applied | committed | autoCommitted | numbered | sent => exact ⟨h.own, h.peer⟩
  | idle => exact h

theorem install_recoverable (h : OpenTo P sk s) {op : SessionOp} {ss : Bytes}
    (install : .install ss ∈ movesOf P (op.call P s)) :
    ∃ kemCt ∈ exchangedBy (op.call P s), P.decapsulate kemCt sk = some ss := by
  have hsecret := secretOf_of_install install
  rw [SessionOp.call] at hsecret ⊢
  cases op with
  | startEvolution coins =>
    rw [SessionOp.exec_startEvolution] at hsecret ⊢
    rcases Evolution.startEvolution_cases (P := P) coins s with
      ⟨kemCt, secret, hpk, henc, -, hrun⟩ | ⟨code, hcode, hrun⟩
    · simp only [hrun, secretOf, henc, if_true, Option.map_some, Option.some.injEq] at hsecret
      subst hsecret
      refine ⟨kemCt, ?_, h.peer hpk henc⟩
      rw [hrun]
      rfl
    · simp [hrun, secretOf, hcode] at hsecret
  | applyPeerKem kemCt =>
    rw [SessionOp.exec_applyPeerKem] at hsecret ⊢
    rcases Evolution.applyPeerKem_cases (P := P) kemCt s with
      ⟨secret, hsk, hdec, -, hrun⟩ | ⟨code, hcode, hrun⟩
    · simp only [hrun, secretOf, hdec, if_true, Option.some.injEq] at hsecret
      subst hsecret
      refine ⟨kemCt, ?_, h.own hsk ▸ hdec⟩
      rw [hrun]
      rfl
    · simp [hrun, secretOf, hcode] at hsecret
  | initialiseRootState | generateBobKeypair | setPeerPublicKey | getKemCipher | kemCipherLen
  | commitEvolution | recoverAfterLoss | getEpochId | msgCounterNext | deriveMessageKey | send
  | tryDecryptWithEvolution => simp [secretOf] at hsecret

theorem installs_recoverable (h : OpenTo P sk s) {ops : List SessionOp}
    (keeps : ∀ op ∈ ops, KeepsKeys op) {calls : List Call} (within : trace P s ops ⊆ calls)
    {ss : Bytes} (install : .install ss ∈ movesIn P (trace P s ops)) :
    ss ∈ recoverable P sk calls := by
  induction ops generalizing s with
  | nil => cases install
  | cons op ops ih =>
    rcases List.mem_append.mp install with hfirst | hrest
    · exact ⟨_, within List.mem_cons_self, install_recoverable h hfirst⟩
    · exact ih (openTo_exec h (keeps op List.mem_cons_self))
        (fun op hop => keeps op (List.mem_cons_of_mem _ hop))
        (fun _ hcall => within (List.mem_cons_of_mem _ hcall)) hrest

theorem keepsOrigin_of_keepsKeys {ops : List SessionOp} (keeps : ∀ op ∈ ops, KeepsKeys op) :
    KeepsOrigin ops := by
  rintro op hop alice bob bobPk rfl
  exact keeps _ hop

theorem held_deducible {ops later : List SessionOp} (handedOut : MessageKeys)
    (exposed : OpenTo P sk (Session.fresh.after P ops)) (keeps : ∀ op ∈ later, KeepsKeys op)
    {calls : List Call} (within : trace P (Session.fresh.after P ops) later ⊆ calls) :
    ∀ d ∈ (lineage P (ops ++ later)).held, Deducible (recoverable P sk calls)
      ((lineage P ops).exposed handedOut) (.root d) := by
  have hknown : ∀ d ∈ (lineage P ops).held, Deducible (recoverable P sk calls)
      ((lineage P ops).exposed handedOut) (.root d) :=
    fun d held => .known (Or.inl ⟨d, held, rfl⟩)
  rw [lineage_append]
  exact Ring.held_deducible_after hknown (continues_movesIn (keepsOrigin_of_keepsKeys keeps) _)
    fun _ install => installs_recoverable exposed keeps within install

/-- No healing without new KEM keys: whoever has read the statics once, sees the KEM
ciphertexts from then on and holds the secret key behind them can deduce every root the
process comes to hold, pending or in force, and every message key. -/
theorem every_later_root_deducible (P : Primitives) (ops later : List SessionOp) (sk : Bytes)
    (handedOut : MessageKeys) (exposed : OpenTo P sk (Session.fresh.after P ops))
    (keeps : ∀ op ∈ later, KeepsKeys op) :
    let read := lineage P ops
    let now := lineage P (ops ++ later)
    let secrets := recoverable P sk (trace P (Session.fresh.after P ops) later)
    Mirrors P read (Session.fresh.after P ops) ∧
      Mirrors P now (Session.fresh.after P (ops ++ later)) ∧
      ∀ d ∈ now.held, Deducible secrets (read.exposed handedOut) (.root d) ∧
        ∀ label, Deducible secrets (read.exposed handedOut) (.leaf d label) := by
  refine ⟨mirrors_lineage P ops, mirrors_lineage P _, fun d held => ?_⟩
  have hroot := held_deducible handedOut exposed keeps (List.Subset.refl _) d held
  exact ⟨hroot, fun label => .leaf hroot label⟩

theorem every_later_root_deducible_encapsulating :
    let P := SymbolicPrimitives.keyed
    let ops : List SessionOp := [.setPeerPublicKey [1, 4]]
    let later : List SessionOp := [.startEvolution [4], .commitEvolution, .startEvolution [5]]
    let calls := trace P (Session.fresh.after P ops) later
    calls.map Call.reply = [.code 0, .code 0, .code 0] ∧
      (∀ d ∈ (lineage P (ops ++ later)).held, Deducible (recoverable P [2, 4] calls)
        ((lineage P ops).exposed (∅ : MessageKeys)) (.root d)) ∧
      ¬ Deducible (recoverable P [2, 5] calls) ((lineage P ops).exposed (∅ : MessageKeys))
        (.root (lineage P (ops ++ later)).curr) := by
  -- A device that encapsulates to the key of `[2, 4]` commits one evolution and starts
  -- another. The secret key opens both; another secret key does not lead to the root.
  intro P ops later calls
  have hkeeps : ∀ op ∈ later, KeepsKeys op := by simp [KeepsKeys, later]
  refine ⟨by decide +kernel, fun d held => ?_, fun h => ?_⟩
  · have hexposed : OpenTo P [2, 4] (Session.fresh.after P ops) :=
      ⟨fun h => absurd (by decide +kernel) h,
        fun _ => SymbolicPrimitives.keyed_kemMatches (List.cons_ne_nil _ _)⟩
    exact ((every_later_root_deducible P ops later [2, 4] ∅ hexposed hkeeps).2.2 d held).1
  · have hclosed : ∀ call ∈ calls, ∀ kemCt ∈ exchangedBy call,
        P.decapsulate kemCt [2, 5] = none := by decide +kernel
    have hidle : (lineage P ops).pend = none := by decide +kernel
    have hsecret : SymbolicPrimitives.fit32 [4] ∈ committedSecrets P calls := by decide +kernel
    rw [lineage_append] at h
    obtain ⟨call, hcall, kemCt, hkemCt, hopens⟩ := (Ring.deducible_after_iff
      (continues_movesIn (keepsOrigin_of_keepsKeys hkeeps) _) hidle ∅).mp h _ hsecret
    rw [hclosed call hcall kemCt hkemCt] at hopens
    cases hopens

end Healing

section Disclosure

variable (P : Primitives)

/-- The keys that the derivations of the source give for known ones and known KEM
secrets. -/
inductive Obtainable (secrets : Set Bytes) (known : Set Key) : Key → Prop where
  | known {key : Key} (h : key ∈ known) : Obtainable secrets known key
  | roll {root : Key} (h : Obtainable secrets known root) :
      Obtainable secrets known (AntiDos.rollKey P root)
  | mix {root : Key} {ss : Bytes} (h : Obtainable secrets known root) (shared : ss ∈ secrets) :
      Obtainable secrets known (derivePendingKey P ss root)
  | message {root : Key} (h : Obtainable secrets known root) (epoch : UInt32)
      (msgSeq : UInt64) : Obtainable secrets known (deriveMessageKeyFromRoot P root epoch msgSeq)

def storedRoots (s : Session) : Set Key := { key | key = s.curr ∨ s.pend = some key }

/-- The call sent this plaintext on this wire, or opened the wire to it. -/
def Carries (call : Call) (wire : Bytes) (header : Header) (plaintext : Bytes) : Prop :=
  (∃ idStamp outgoing timestamp key, call.op = .send plaintext idStamp outgoing timestamp ∧
    call.reply = .sent key header (some wire)) ∨
  ∃ committed, call.op = .tryDecryptWithEvolution wire header ∧
    call.reply = .opened (some (plaintext, committed))

variable {P} {sk : Bytes} {s : Session}

theorem obtainable_of_deducible {secrets : Set Bytes} {known : Set Key}
    {items : Set (Item Key Bytes (UInt32 × UInt64))} {item : Item Key Bytes (UInt32 × UInt64)}
    (start : ∀ item ∈ items, itemKey P item ∈ known) (h : Deducible secrets items item) :
    Obtainable P secrets known (itemKey P item) := by
  induction h with
  | known h => exact .known (start _ h)
  | roll h ih =>
    rw [itemKey, rootKey_next]
    exact .roll ih
  | mix h shared ih =>
    rw [itemKey, rootKey_next]
    exact .mix ih shared
  | leaf h label ih => exact .message ih label.1 label.2

theorem storedRoots_iff {r : RootRing} (mirrors : Mirrors P r s) {key : Key} :
    key ∈ storedRoots s ↔ ∃ d ∈ r.held, rootKey P d = key := by
  constructor
  · rintro (rfl | hpend)
    · exact ⟨r.curr, Or.inl rfl, mirrors.curr⟩
    · rw [← mirrors.pend, Option.map_eq_some_iff] at hpend
      obtain ⟨d, hd, hkey⟩ := hpend
      exact ⟨d, Or.inr hd, hkey⟩
  · rintro ⟨d, rfl | hd, rfl⟩
    · exact Or.inl mirrors.curr
    · refine Or.inr ?_
      rw [← mirrors.pend, hd]
      rfl

theorem storedRoots_obtainable {ops later : List SessionOp}
    (exposed : OpenTo P sk (Session.fresh.after P ops)) (keeps : ∀ op ∈ later, KeepsKeys op)
    {calls : List Call} (within : trace P (Session.fresh.after P ops) later ⊆ calls) :
    ∀ key ∈ storedRoots (Session.fresh.after P (ops ++ later)),
      Obtainable P (recoverable P sk calls) (storedRoots (Session.fresh.after P ops)) key := by
  intro key hkey
  obtain ⟨d, hd, rfl⟩ := (storedRoots_iff (mirrors_lineage P _)).mp hkey
  refine obtainable_of_deducible ?_ (held_deducible ∅ exposed keeps within d hd)
  rintro item (⟨e, he, rfl⟩ | ⟨leaf, hleaf, -⟩)
  · exact (storedRoots_iff (mirrors_lineage P ops)).mpr ⟨e, he, rfl⟩
  · exact hleaf.elim

theorem carries_stored (aead : P.AeadCorrect) {op : SessionOp} {wire plaintext : Bytes}
    {header : Header} (carries : Carries (op.call P s) wire header plaintext) :
    ∃ root ∈ storedRoots s, decrypt P wire
      (deriveMessageKeyFromRoot P root header.epoch header.msgSeq) header = some plaintext := by
  rcases carries with ⟨idStamp, outgoing, timestamp, key, hop, hreply⟩ | ⟨committed, hop, hreply⟩
  · obtain rfl : op = .send plaintext idStamp outgoing timestamp := hop
    rw [SessionOp.call, SessionOp.exec_send] at hreply
    obtain ⟨rfl, rfl, hwire⟩ := Reply.sent.inj hreply
    exact ⟨s.curr, Or.inl rfl, decrypt_encrypt aead hwire⟩
  · obtain rfl : op = .tryDecryptWithEvolution wire header := hop
    rw [SessionOp.call, SessionOp.exec_tryDecryptWithEvolution] at hreply
    have hresult := Reply.opened.inj hreply
    rcases tryDecryptWithEvolution_cases (P := P) wire header s with
      ⟨pt, hopens, hrun⟩ | ⟨pend, pt, -, -, hpend, hopens, hrun⟩ | hrun
    · rw [hrun] at hresult
      cases hresult
      exact ⟨s.curr, Or.inl rfl, hopens⟩
    · rw [hrun] at hresult
      cases hresult
      exact ⟨pend, Or.inr hpend, hopens⟩
    · rw [hrun] at hresult
      cases hresult

theorem call_of_mem_trace {ops : List SessionOp} {call : Call} (h : call ∈ trace P s ops) :
    ∃ past op rest, ops = past ++ op :: rest ∧ call = op.call P (s.after P past) := by
  induction ops generalizing s with
  | nil => cases h
  | cons op ops ih =>
    rcases List.mem_cons.mp h with rfl | h
    · exact ⟨[], op, ops, rfl, rfl⟩
    · obtain ⟨past, last, rest, rfl, hcall⟩ := ih h
      exact ⟨op :: past, last, rest, rfl, hcall⟩

/-- Whoever has read the two roots in the statics once, sees the KEM ciphertexts from
then on and holds the secret key behind them reads every message the process sends or
opens: the derivations of the source lead to a key for it. -/
theorem later_messages_readable (P : Primitives) (aead : P.AeadCorrect)
    (ops later : List SessionOp) (sk : Bytes)
    (exposed : OpenTo P sk (Session.fresh.after P ops)) (keeps : ∀ op ∈ later, KeepsKeys op)
    {call : Call} (made : call ∈ trace P (Session.fresh.after P ops) later)
    {wire plaintext : Bytes} {header : Header} (carries : Carries call wire header plaintext) :
    ∃ key, Obtainable P (recoverable P sk (trace P (Session.fresh.after P ops) later))
        (storedRoots (Session.fresh.after P ops)) key ∧
      decrypt P wire key header = some plaintext := by
  obtain ⟨past, op, rest, rfl, rfl⟩ := call_of_mem_trace made
  obtain ⟨root, hstored, hopens⟩ := carries_stored aead carries
  rw [Session.after, Session.after, ← List.foldl_append] at hstored
  have hwithin : trace P (Session.fresh.after P ops) past ⊆
      trace P (Session.fresh.after P ops) (past ++ op :: rest) := by
    rw [trace_append]
    exact List.subset_append_left _ _
  have hroot := storedRoots_obtainable exposed
    (fun op hop => keeps op (List.mem_append_left _ hop)) hwithin root hstored
  exact ⟨_, .message hroot header.epoch header.msgSeq, hopens⟩

theorem later_messages_readable_evolved :
    let P := SymbolicPrimitives.keyed
    let ops : List SessionOp :=
      [.generateBobKeypair [4], .initialiseRootState sampleEntropy sampleEntropy [1, 4]]
    let evolved : List SessionOp :=
      [.applyPeerKem (SymbolicPrimitives.address [2, 4] ++ zeros32), .commitEvolution]
    let later := evolved ++ [.send [7] zeros32 true 0]
    (trace P (Session.fresh.after P ops) evolved).map Call.reply = [.code 0, .code 0] ∧
      ∃ wire header key, Carries (SessionOp.call P (.send [7] zeros32 true 0)
          ((Session.fresh.after P ops).after P evolved)) wire header [7] ∧
        Obtainable P (recoverable P [2, 4] (trace P (Session.fresh.after P ops) later))
          (storedRoots (Session.fresh.after P ops)) key ∧
        decrypt P wire key header = some [7] := by
  intro P ops evolved later
  have hexposed : OpenTo P [2, 4] (Session.fresh.after P ops) :=
    ⟨fun _ => by decide +kernel, fun h => absurd (by decide +kernel) h⟩
  refine ⟨by decide +kernel, ?_⟩
  have hkeeps : ∀ op ∈ later, KeepsKeys op := by simp [KeepsKeys, later, evolved]
  have hmade : SessionOp.call P (.send [7] zeros32 true 0)
      ((Session.fresh.after P ops).after P evolved) ∈
        trace P (Session.fresh.after P ops) later := by
    rw [trace_append]
    exact List.mem_append_right _ List.mem_cons_self
  have hsent : ∀ s, ∃ key header wire,
      ((SessionOp.send [7] zeros32 true 0).exec P s).1 = .sent key header (some wire) :=
    fun s => ⟨_, _, _, congrArg Prod.fst (SessionOp.exec_send P [7] zeros32 true 0 s)⟩
  obtain ⟨key, header, wire, hreply⟩ := hsent ((Session.fresh.after P ops).after P evolved)
  have hwire : Carries (SessionOp.call P (.send [7] zeros32 true 0)
      ((Session.fresh.after P ops).after P evolved)) wire header [7] :=
    Or.inl ⟨zeros32, true, 0, key, rfl, hreply⟩
  have haead : P.AeadCorrect :=
    ⟨SymbolicPrimitives.symbolic_aeadCorrect.inverts,
      SymbolicPrimitives.symbolic_aeadCorrect.tagged⟩
  obtain ⟨key, hkey, hopens⟩ := later_messages_readable P haead ops later [2, 4] hexposed hkeeps
    hmade hwire
  exact ⟨wire, header, key, hwire, hkey, hopens⟩

end Disclosure

end SecureCore.Compromise
