import SecureCore.BlockStore
import SecureCore.SoundContainers
import SecureCore.VaultEntries

/-! `init_virtual_volume` and the vault it selects. Several containers may be
opened in one process, but `VFS` is a `OnceLock`: only the first `set` takes
effect, and the result of a later one is dropped. A path stands for the directory
entry it resolves to. An entry may name a file, a file goes on being the one an
open handle works on when its entry is removed, and a removed entry that is
created again names another file. -/

namespace SecureCore.VaultSelection

open VirtualVolume FaultyFile FallibleState VaultEntries
open BlockStore (samplePayload sampleNonce)

/-- An open `VirtualVolume`, with the file its handle is on. -/
structure Vault (Entry : Type) where
  vaultPath : Entry
  node : Nat
  cursor : Nat
  masterKey : Bytes
  totalBlocks : Nat
  freeBlocks : Nat
  blockBitmap : Bytes

def vaultOf {Entry : Type} (entry : Entry) (node : Nat) (v : Volume) : Vault Entry where
  vaultPath := entry
  node := node
  cursor := v.file.cursor
  masterKey := v.masterKey
  totalBlocks := v.totalBlocks
  freeBlocks := v.freeBlocks
  blockBitmap := v.blockBitmap

structure Host (Entry : Type) where
  /-- The file an entry names. -/
  link : Entry → Option Nat
  store : Nat → Bytes
  /-- The file created next. -/
  next : Nat
  script : List (Option Fault)
  vfs : Option (Vault Entry)

abbrev HostM (Entry : Type) := EStateM Failure (Host Entry)

inductive PathArgument (Entry : Type) where
  | missing
  | notUtf8
  | names (entry : Entry)

variable {Entry : Type} [DecidableEq Entry]

namespace Host

def fileAt (h : Host Entry) (entry : Entry) : File where
  exists? := (h.link entry).isSome
  bytes := ((h.link entry).map h.store).getD []
  cursor := 0
  script := h.script

def leave (h : Host Entry) (entry : Entry) (f : File) : Host Entry :=
  match h.link entry, f.exists? with
  | some node, true => { h with store := Function.update h.store node f.bytes, script := f.script }
  | some _, false => { h with link := Function.update h.link entry none, script := f.script }
  | none, true =>
    { h with
      link := Function.update h.link entry (some h.next)
      store := Function.update h.store h.next f.bytes
      next := h.next + 1
      script := f.script }
  | none, false => { h with script := f.script }

def facing (h : Host Entry) (script : List (Option Fault)) : Host Entry :=
  { h with script := script }

/-- What a volume operation sees: the file of the handle, whether or not the path
still names it. -/
def volume (h : Host Entry) (vault : Vault Entry) : Volume where
  file := ⟨(h.link vault.vaultPath).isSome, h.store vault.node, vault.cursor, h.script⟩
  masterKey := vault.masterKey
  totalBlocks := vault.totalBlocks
  freeBlocks := vault.freeBlocks
  blockBitmap := vault.blockBitmap

def absorb (h : Host Entry) (vault : Vault Entry) (v : Volume) : Host Entry :=
  { h with
    store := Function.update h.store vault.node v.file.bytes
    script := v.file.script
    vfs := some (vaultOf vault.vaultPath vault.node v) }

/-- `let _ = VFS.set(Mutex::new(vault))`. A volume that is not taken is dropped,
with a flush. -/
def setVfs (h : Host Entry) (entry : Entry) (v : Volume) : Host Entry :=
  match h.vfs, h.link entry with
  | none, some node =>
    { h with vfs := some (vaultOf entry node v) }
  | _, _ => { h with script := h.script.tail }

end Host

def atEntry {α : Type} (entry : Entry) (m : FileM α) : HostM Entry α :=
  zoom (fun h => h.fileAt entry) (fun f h => h.leave entry f) m

section Source

variable (V : VaultPrimitives)

def openOrCreate (entry : Entry) (masterKey : Bytes) (totalDataBlocks : Nat) :
    HostM Entry Volume := do
  if maxDataBlocks < totalDataBlocks then
    throw (.raised .invalidInput ("total_data_blocks " ++ toString totalDataBlocks ++
      " exceeds bitmap capacity " ++ toString maxDataBlocks))
  else do
    let empty ← atEntry entry isEmpty
    let exists? ← atEntry entry pathExists
    if exists? && !empty then atEntry entry (openExisting V masterKey)
    else do
      if ← atEntry entry pathExists then atEntry entry removeFile else pure ()
      atEntry entry (createNew V masterKey totalDataBlocks)

def initVirtualVolume (path : PathArgument Entry) (key : Bytes) (total : Nat) :
    HostM Entry Nat := fun h =>
  match path with
  | .missing => .ok 1 h
  | .notUtf8 => if key.length < 32 then .ok 1 h else .ok 2 h
  | .names entry =>
    if key.length < 32 then .ok 1 h
    else match openOrCreate V entry (key.take 32) total h with
      | .ok v h => .ok 0 (h.setVfs entry v)
      | .error (.panic message) h => .error (.panic message) h
      | .error _ h => .ok 3 h

def withVaultOr {α : Type} (default : α) (m : VolumeM α) : HostM Entry α := fun h =>
  match h.vfs with
  | none => .ok default h
  | some vault =>
    match m (h.volume vault) with
    | .ok a v => .ok a (h.absorb vault v)
    | .error failure v => .error failure (h.absorb vault v)

end Source

inductive VaultCall where
  | readVaultBlocks (start n : Nat)
  | writeVaultBlocks (start : Nat) (drafts : List Draft)
  | allocateVaultBlock
  | freeVaultBlock (blockIdx : Nat)
  | secureEraseBlock (blockIdx : Nat) (draft : Draft)
  | initCanarySlots (draws : Fin 5 → CanaryDraw)
  | validateCanarySlots
  | persistIdStamp (stamp : Bytes) (nonce : Exactly nonceSize)
  | readIdStamp

namespace VaultCall

def program (V : VaultPrimitives) : VaultCall → VolumeM DeviceReply
  | readVaultBlocks start n => do pure (.payloads (← VaultEntries.readVaultBlocks V start n))
  | writeVaultBlocks start drafts => do
    pure (.count (← VaultEntries.writeVaultBlocks V start drafts))
  | allocateVaultBlock => do pure (.block (← VaultEntries.allocateVaultBlock))
  | freeVaultBlock blockIdx => do pure (.code (← VaultEntries.freeVaultBlock blockIdx))
  | secureEraseBlock blockIdx draft => do
    pure (.code (← VaultEntries.secureEraseBlock V blockIdx draft))
  | initCanarySlots draws => do pure (.code (← VaultEntries.initCanarySlots V draws))
  | validateCanarySlots => do pure (.code (← checkCanaries V [995, 996, 997, 998, 999]))
  | persistIdStamp stamp nonce => do pure (.code (← VaultEntries.persistIdStamp V stamp nonce))
  | readIdStamp => do pure (.stamp (← VaultEntries.readIdStamp V))

def default : VaultCall → DeviceReply
  | readVaultBlocks _ _ => .payloads []
  | writeVaultBlocks _ _ => .count 0
  | allocateVaultBlock => .block u64Max
  | readIdStamp => .stamp none
  | _ => .code 1

end VaultCall

inductive Calls (V : VaultPrimitives) (h₀ : Host Entry) : Host Entry → Prop where
  | none : Calls V h₀ h₀
  | step {h h' : Host Entry} (run : Calls V h₀ h) (call : VaultCall) (reply : DeviceReply)
      (returns : withVaultOr call.default (call.program V) h = .ok reply h') : Calls V h₀ h'

/-- A host a process can get to: from any files, before `VFS` is set, by calls of
`init_virtual_volume` and vault calls. -/
inductive Reached (V : VaultPrimitives) : Host Entry → Prop where
  | start (h : Host Entry) (unset : h.vfs = none)
      (below : ∀ entry node, h.link entry = some node → node < h.next) : Reached V h
  | init {h h' : Host Entry} (reached : Reached V h) (path : PathArgument Entry) (key : Bytes)
      (total code : Nat) (returns : initVirtualVolume V path key total h = .ok code h') :
      Reached V h'
  | calls {h h' : Host Entry} (reached : Reached V h) (run : Calls V h h') : Reached V h'

/-- Vault calls act on the container at this entry under this key. -/
def Selects (entry : Entry) (masterKey : Bytes) (h : Host Entry) : Prop :=
  ∃ vault, h.vfs = some vault ∧ vault.masterKey = masterKey ∧ h.link entry = some vault.node

/-- `open_or_create` will open the file there, and not create it anew. -/
def Opens (entry : Entry) (h : Host Entry) : Prop :=
  Works 2 (h.fileAt entry) ∧ (h.fileAt entry).bytes ≠ []

section Entries

variable {α : Type} {entry : Entry} {h : Host Entry} {f : File} {m : FileM α}

theorem atEntry_ok {a : α} (run : m (h.fileAt entry) = .ok a f) :
    atEntry entry m h = .ok a (h.leave entry f) := zoom_ok run

theorem atEntry_error {e : Failure} (run : m (h.fileAt entry) = .error e f) :
    atEntry entry m h = .error e (h.leave entry f) := zoom_error run

theorem ok_of_atEntry {a : α} {h' : Host Entry} (run : atEntry entry m h = .ok a h') :
    ∃ f, m (h.fileAt entry) = .ok a f ∧ h' = h.leave entry f := by
  cases hrun : m (h.fileAt entry) with
  | ok b f =>
    rw [atEntry_ok hrun] at run
    cases run
    exact ⟨f, rfl, rfl⟩
  | error e f =>
    rw [atEntry_error hrun] at run
    cases run

theorem leave_same (present : f.exists? = (h.fileAt entry).exists?)
    (bytes : f.bytes = (h.fileAt entry).bytes) :
    h.leave entry f = h.facing f.script := by
  cases hlink : h.link entry with
  | none =>
    have habsent : f.exists? = false := by simp [present, Host.fileAt, hlink]
    simp only [Host.leave, hlink, habsent, Host.facing]
  | some node =>
    have hpresent : f.exists? = true := by simp [present, Host.fileAt, hlink]
    have hbytes : f.bytes = h.store node := by simp [bytes, Host.fileAt, hlink]
    simp only [Host.leave, hlink, hpresent, hbytes, Function.update_eq_self, Host.facing]

theorem leave_script (entry : Entry) (h : Host Entry) (script : List (Option Fault)) :
    h.leave entry { h.fileAt entry with script := script } = h.facing script :=
  leave_same rfl rfl

theorem leave_removed {node : Nat} (named : h.link entry = some node) (gone : f.exists? = false) :
    h.leave entry f =
      { h with link := Function.update h.link entry none, script := f.script } := by
  simp only [Host.leave, named, gone]

theorem leave_created (unnamed : h.link entry = none) (here : f.exists? = true) :
    h.leave entry f =
      { h with
        link := Function.update h.link entry (some h.next)
        store := Function.update h.store h.next f.bytes
        next := h.next + 1
        script := f.script } := by
  simp only [Host.leave, unnamed, here]

theorem atEntry_pathExists (entry : Entry) (h : Host Entry) (script : List (Option Fault)) :
    atEntry entry pathExists (h.facing script) =
      .ok ((script.headD none).isNone && (h.link entry).isSome) (h.facing script.tail) := by
  rw [atEntry_ok (pathExists_eq _), leave_script]
  rfl

theorem atEntry_removeFile (named : (h.link entry).isSome) (script : List (Option Fault)) :
    ∃ link, atEntry entry removeFile (h.facing script) =
        .ok () { h.facing script.tail with link := link } ∧
      (link = h.link ∨ link = Function.update h.link entry none) := by
  obtain ⟨node, hnode⟩ := Option.isSome_iff_exists.mp named
  cases hnext : ((h.facing script).fileAt entry).script.headD none with
  | none =>
    rw [atEntry_ok (removeFile_works hnext), leave_removed (h := h.facing script) hnode rfl]
    exact ⟨_, rfl, Or.inr rfl⟩
  | some fault =>
    rw [atEntry_ok (removeFile_fails hnext), leave_script]
    exact ⟨_, rfl, Or.inl rfl⟩

theorem isEmpty_apply (f : File) :
    isEmpty f = .ok ((f.script.headD none).isSome || !f.exists? || f.bytes.isEmpty)
      { f with script := f.script.tail } := by
  obtain ⟨present, bytes, cursor, script⟩ := f
  cases hnext : script.headD none with
  | some fault =>
    rw [isEmpty, metadata, call_fails hnext]
    rfl
  | none =>
    cases present with
    | true =>
      rw [isEmpty, metadata_works hnext rfl]
      cases bytes <;> rfl
    | false =>
      rw [isEmpty, metadata, call_works hnext]
      rfl

theorem atEntry_isEmpty (entry : Entry) (h : Host Entry) :
    atEntry entry isEmpty h =
      .ok ((h.script.headD none).isSome || !(h.fileAt entry).exists? ||
        (h.fileAt entry).bytes.isEmpty) (h.facing h.script.tail) := by
  rw [atEntry_ok (isEmpty_apply _), leave_script]
  rfl

omit [DecidableEq Entry] in
theorem opens_iff : Opens entry h ↔
    ((h.script.tail.headD none).isNone && (h.link entry).isSome &&
      !((h.script.headD none).isSome || !(h.fileAt entry).exists? ||
        (h.fileAt entry).bytes.isEmpty)) = true := by
  have hexists : (h.fileAt entry).exists? = (h.link entry).isSome := rfl
  have hscript : (h.fileAt entry).script = h.script := rfl
  constructor
  · rintro ⟨works, nonempty⟩
    have present := works.1
    obtain ⟨first, second⟩ := (works_two_iff present).mp works
    rw [hscript] at first second
    rw [← hexists, present, first, second]
    simpa using nonempty
  · intro answers
    simp only [Bool.and_eq_true, Bool.not_eq_true', Bool.or_eq_false_iff, Option.isNone_iff_eq_none,
      Option.isSome_eq_false_iff, Bool.not_eq_false', List.isEmpty_eq_false_iff] at answers
    obtain ⟨⟨second, present⟩, ⟨first, -⟩, nonempty⟩ := answers
    exact ⟨(works_two_iff present).mpr ⟨first, second⟩, nonempty⟩

end Entries

section Opening

variable {V : VaultPrimitives} {masterKey : Bytes} {n : Nat} {v : Volume}

theorem countFree_quiet (bitmap : Bytes) (remaining bitIdx actualFree : Nat) :
    Quiet (countFree bitmap remaining bitIdx actualFree) := by
  induction remaining generalizing bitIdx actualFree with
  | zero => exact fun f => ⟨f.cursor, f.script, rfl⟩
  | succ remaining ih =>
    refine .bind ?_ fun byte => ih _ _
    rw [indexed]
    split
    · exact fun f => ⟨f.cursor, f.script, rfl⟩
    · exact fun f => ⟨f.cursor, f.script, rfl⟩

theorem openExisting_quiet (V : VaultPrimitives) (masterKey : Bytes) :
    Quiet (openExisting V masterKey) := by
  refine .bind (call_quiet fun f => ?_) fun _ => .bind (seek_quiet 0) fun _ =>
    .bind (readExact_quiet _) fun raw => ?_
  · rw [bind_ok (get_apply f)]
    split_ifs
    · exact ⟨0, f.script, rfl⟩
    · exact ⟨f.cursor, f.script, rfl⟩
  · split
    · exact fun f => ⟨f.cursor, f.script, rfl⟩
    · rw [openAuthenticated]
      split
      · exact fun f => ⟨f.cursor, f.script, rfl⟩
      · refine .bind (seek_quiet _) fun _ => .bind (readExact_quiet _) fun bitmap => ?_
        split
        · exact fun f => ⟨f.cursor, f.script, rfl⟩
        · exact .bind (countFree_quiet _ _ _ _) fun _ f => ⟨f.cursor, f.script, rfl⟩

theorem createNew_ok {f f' : File} (created : createNew V masterKey n f = .ok v f') :
    f.exists? = false ∧ f'.exists? = true ∧ v.masterKey = masterKey := by
  obtain ⟨⟨⟩, f₁, hopen, created⟩ := ok_of_bind created
  obtain ⟨⟨⟩, f₂, hresize, created⟩ := ok_of_bind created
  obtain ⟨⟨⟩, f₃, hseek, created⟩ := ok_of_bind created
  obtain ⟨⟨⟩, f₄, hsuper, created⟩ := ok_of_bind created
  obtain ⟨⟨⟩, f₅, hstart, created⟩ := ok_of_bind created
  obtain ⟨⟨⟩, f₆, hbitmap, created⟩ := ok_of_bind created
  obtain ⟨⟨⟩, f₇, hsync, created⟩ := ok_of_bind created
  rw [bind_ok (get_apply f₇)] at created
  have hpresent : f₇.exists? = true := by
    rw [ok_of_syncAll hsync, ok_of_writeAll hbitmap, ok_of_seek hstart, ok_of_writeAll hsuper,
      ok_of_seek hseek, ok_of_setLen hresize, ok_of_openNew hopen]
    rfl
  cases created
  exact ⟨absent_of_openNew hopen, hpresent, rfl⟩

variable {entry : Entry} {h h' : Host Entry}

theorem openOrCreate_opens (capacity : n ≤ maxDataBlocks) (opens : Opens entry h) :
    openOrCreate V entry masterKey n h =
      atEntry entry (openExisting V masterKey) (h.facing h.script.tail.tail) := by
  rw [openOrCreate, if_neg (by omega), bind_ok (atEntry_isEmpty entry h),
    bind_ok (atEntry_pathExists entry h _), if_pos (opens_iff.mp opens)]

theorem openOrCreate_creates (capacity : n ≤ maxDataBlocks) (creates : ¬ Opens entry h) :
    ∃ link script, openOrCreate V entry masterKey n h =
        atEntry entry (createNew V masterKey n) { h.facing script with link := link } ∧
      (link = h.link ∨ link = Function.update h.link entry none) := by
  rw [openOrCreate, if_neg (by omega), bind_ok (atEntry_isEmpty entry h),
    bind_ok (atEntry_pathExists entry h _), if_neg (mt opens_iff.mpr creates),
    bind_ok (atEntry_pathExists entry h _)]
  by_cases found : ((h.script.tail.tail.headD none).isNone && (h.link entry).isSome) = true
  · obtain ⟨link, hremove, hlink⟩ := atEntry_removeFile (Bool.and_eq_true_iff.mp found).2
      h.script.tail.tail.tail
    refine ⟨link, h.script.tail.tail.tail.tail, ?_, hlink⟩
    rw [if_pos found, bind_ok hremove]
  · refine ⟨h.link, h.script.tail.tail.tail, ?_, Or.inl rfl⟩
    rw [if_neg found]
    rfl

theorem openOrCreate_cases (run : openOrCreate V entry masterKey n h = .ok v h') :
    v.masterKey = masterKey ∧ h'.vfs = h.vfs ∧
      (Opens entry h ∧ h'.link = h.link ∧ h'.next = h.next ∨
        ¬ Opens entry h ∧ h'.link = Function.update h.link entry (some h.next) ∧
          h'.next = h.next + 1) := by
  have capacity : n ≤ maxDataBlocks := by
    by_contra hover
    rw [openOrCreate, if_pos (by omega)] at run
    cases run
  by_cases opens : Opens entry h
  · rw [openOrCreate_opens capacity opens] at run
    obtain ⟨f, hopen, rfl⟩ := ok_of_atEntry run
    obtain ⟨cursor, script, hquiet⟩ := openExisting_quiet V masterKey
      ((h.facing h.script.tail.tail).fileAt entry)
    obtain ⟨-, head, hkept, -⟩ := opened_kept hopen
    rw [hopen, finalState_ok] at hquiet
    have hleave : (h.facing h.script.tail.tail).leave entry f =
        (h.facing h.script.tail.tail).facing f.script :=
      leave_same (by rw [hquiet]) (by rw [hquiet])
    rw [hleave]
    exact ⟨hkept.key, rfl, Or.inl ⟨opens, rfl, rfl⟩⟩
  · obtain ⟨link, script, hcreate, hlink⟩ := openOrCreate_creates capacity opens
    rw [hcreate] at run
    obtain ⟨f, hnew, rfl⟩ := ok_of_atEntry run
    obtain ⟨habsent, hpresent, hkey⟩ := createNew_ok hnew
    have hunnamed : link entry = none :=
      Option.isNone_iff_eq_none.mp (Option.isSome_eq_false_iff.mp habsent)
    rw [leave_created hunnamed hpresent]
    refine ⟨hkey, rfl, Or.inr ⟨opens, ?_, rfl⟩⟩
    rcases hlink with rfl | rfl
    · rfl
    · exact Function.update_idem _ _ _

end Opening

section Files

variable {V : VaultPrimitives} {h h' : Host Entry}

structure Numbered (h : Host Entry) : Prop where
  links : ∀ entry node, h.link entry = some node → node < h.next
  vault : ∀ vault, h.vfs = some vault → vault.node < h.next

theorem Numbered.leave (numbered : Numbered h) (entry : Entry) (f : File) :
    Numbered (h.leave entry f) := by
  unfold Host.leave
  split
  · exact ⟨numbered.links, numbered.vault⟩
  · refine ⟨fun other node hlink => ?_, numbered.vault⟩
    dsimp only at hlink
    rw [Function.update_apply] at hlink
    split_ifs at hlink
    exact numbered.links other node hlink
  · refine ⟨fun other node hlink => ?_, fun vault hvault => ?_⟩
    · dsimp only at hlink
      rw [Function.update_apply] at hlink
      split_ifs at hlink
      · cases hlink
        exact Nat.lt_succ_self _
      · exact Nat.lt_succ_of_lt (numbered.links other node hlink)
    · exact Nat.lt_succ_of_lt (numbered.vault vault hvault)
  · exact ⟨numbered.links, numbered.vault⟩

theorem atEntry_numbered {α : Type} (entry : Entry) (m : FileM α) :
    Preserves Numbered (atEntry entry m) := by
  intro h numbered
  rw [atEntry, finalState_zoom]
  exact numbered.leave entry _

theorem openOrCreate_numbered (entry : Entry) (masterKey : Bytes) (n : Nat) :
    Preserves Numbered (openOrCreate V entry masterKey n) := by
  rw [openOrCreate]
  split
  · exact .throw _
  · refine .bind (atEntry_numbered _ _) fun empty => .bind (atEntry_numbered _ _) fun exists? => ?_
    split
    · exact atEntry_numbered _ _
    · refine .bind (atEntry_numbered _ _) fun found => ?_
      split
      · exact .bind (atEntry_numbered _ _) fun _ => atEntry_numbered _ _
      · exact atEntry_numbered _ _

omit [DecidableEq Entry] in
theorem Numbered.setVfs (numbered : Numbered h) (entry : Entry) (v : Volume) :
    Numbered (h.setVfs entry v) := by
  unfold Host.setVfs
  split
  · next node hvfs hlink =>
    refine ⟨numbered.links, fun vault hvault => ?_⟩
    cases hvault
    exact numbered.links entry node hlink
  · exact ⟨numbered.links, numbered.vault⟩

theorem initVirtualVolume_numbered (path : PathArgument Entry) (key : Bytes) (total : Nat) :
    Preserves Numbered (initVirtualVolume V path key total) := by
  intro h numbered
  unfold initVirtualVolume
  split
  · exact numbered
  · split_ifs <;> exact numbered
  · next entry =>
    split_ifs
    · exact numbered
    · have hopen := openOrCreate_numbered (V := V) entry (key.take 32) total h numbered
      split
      · next v h₁ hrun =>
        rw [hrun] at hopen
        exact hopen.setVfs entry v
      · next message h₁ hrun =>
        rw [hrun] at hopen
        exact hopen
      · next failure h₁ _ hrun =>
        rw [hrun] at hopen
        exact hopen

omit [DecidableEq Entry] in
theorem withVaultOr_numbered {α : Type} (default : α) (m : VolumeM α) :
    Preserves Numbered (withVaultOr default m : HostM Entry α) := by
  intro h numbered
  unfold withVaultOr
  split
  · exact numbered
  · next vault hvault =>
    have habsorb : ∀ v, Numbered (h.absorb vault v) := by
      refine fun v => ⟨numbered.links, fun other hother => ?_⟩
      cases hother
      exact numbered.vault vault hvault
    split
    · exact habsorb _
    · exact habsorb _

omit [DecidableEq Entry] in
theorem Calls.numbered (run : Calls V h h') (numbered : Numbered h) : Numbered h' := by
  induction run with
  | none => exact numbered
  | step run call reply returns ih =>
    have hkept := withVaultOr_numbered call.default (call.program V) _ ih
    rwa [returns] at hkept

theorem Reached.numbered (reached : Reached V h) : Numbered h := by
  induction reached with
  | start h unset below => exact ⟨below, fun vault hvault => by rw [unset] at hvault; cases hvault⟩
  | init reached path key total code returns ih =>
    have hkept := initVirtualVolume_numbered (V := V) path key total _ ih
    rwa [returns] at hkept
  | calls reached run ih => exact run.numbered ih

end Files

section Calling

variable {α : Type} {F : File → Prop} {R : Volume → Prop} {inv : Volume → Prop}
  {V : VaultPrimitives}

theorem attempt_preserves {m : VolumeM α} (h : Preserves inv m) : Preserves inv (attempt m) := by
  intro v hv
  rw [finalState_attempt]
  exact h v hv

variable (framed : Framed F R)
include framed

theorem readVaultBlocks_framed (start n : Nat) :
    Preserves (fun v => F v.file ∧ R v) (readVaultBlocks V start n) := by
  induction n generalizing start with
  | zero => exact .pure _
  | succ n ih =>
    refine .bind (attempt_preserves (framed.tolerates.readBlock start)) fun result => ?_
    cases result with
    | none => exact .pure _
    | some payload => exact .bind (ih (start + 1)) fun _ => .pure _

theorem writeVaultBlocks_framed (start : Nat) (drafts : List Draft) :
    Preserves (fun v => F v.file ∧ R v) (writeVaultBlocks V start drafts) := by
  induction drafts generalizing start with
  | nil => exact .pure _
  | cons draft drafts ih =>
    refine .bind (attempt_preserves (framed.writeBlock start _ _)) fun result => ?_
    cases result with
    | none => exact .pure _
    | some _ => exact .bind (ih (start + 1)) fun _ => .pure _

theorem reserveBlocks_framed (blocks : List Nat) :
    Preserves (fun v => F v.file ∧ R v) (reserveBlocks blocks) := by
  induction blocks with
  | nil => exact .pure _
  | cons blockIdx rest ih =>
    exact .bind (attempt_preserves (framed.tolerates.reserveBlock blockIdx)) fun _ => ih

theorem plantCanaries_framed (slot : Nat) (draws : List CanaryDraw) :
    Preserves (fun v => F v.file ∧ R v) (plantCanaries V slot draws) := by
  induction draws generalizing slot with
  | nil => exact .pure _
  | cons draw draws ih =>
    refine .bind (attempt_preserves (framed.writeBlock _ _ _)) fun result => ?_
    cases result with
    | none => exact .pure _
    | some _ => exact ih (slot + 1)

theorem checkCanaries_framed (blocks : List Nat) :
    Preserves (fun v => F v.file ∧ R v) (checkCanaries V blocks) := by
  induction blocks with
  | nil => exact .pure _
  | cons blockIdx rest ih =>
    refine .bind (attempt_preserves (framed.tolerates.readBlock blockIdx)) fun result => ?_
    cases result with
    | none => exact .pure _
    | some payload =>
      dsimp only
      split
      · exact .pure _
      · exact ih

theorem VaultCall.program_framed (call : VaultCall) :
    Preserves (fun v => F v.file ∧ R v) (call.program V) := by
  cases call with
  | readVaultBlocks start n => exact .bind (readVaultBlocks_framed framed start n) fun _ => .pure _
  | writeVaultBlocks start drafts =>
    exact .bind (writeVaultBlocks_framed framed start drafts) fun _ => .pure _
  | allocateVaultBlock =>
    refine .bind (.bind (attempt_preserves framed.tolerates.allocateBlock) fun result => ?_)
      fun _ => .pure _
    cases result with
    | none => exact .pure _
    | some blockIdx => exact .pure _
  | freeVaultBlock blockIdx =>
    exact .bind (.bind (attempt_preserves (framed.tolerates.freeBlock blockIdx)) fun _ => .pure _)
      fun _ => .pure _
  | secureEraseBlock blockIdx draft =>
    have herase : Preserves (fun v => F v.file ∧ R v)
        (VirtualVolume.secureEraseBlock V blockIdx draft.payload draft.nonce) :=
      .bind (framed.writeBlock _ _ _) fun _ => framed.tolerates.freeBlock blockIdx
    refine .bind ?_ fun _ => .pure _
    rw [VaultEntries.secureEraseBlock_eq]
    exact .bind (attempt_preserves herase) fun _ => .pure _
  | initCanarySlots draws =>
    exact .bind (.bind (reserveBlocks_framed framed _) fun _ => plantCanaries_framed framed _ _)
      fun _ => .pure _
  | validateCanarySlots => exact .bind (checkCanaries_framed framed _) fun _ => .pure _
  | persistIdStamp stamp nonce =>
    refine .bind ?_ fun _ => .pure _
    rw [VaultEntries.persistIdStamp]
    split
    · exact .bind (attempt_preserves (framed.writeBlock _ _ _)) fun _ => .pure _
    · exact .throw _
  | readIdStamp =>
    exact .bind (.bind (attempt_preserves (framed.tolerates.readBlock _)) fun _ => .pure _)
      fun _ => .pure _

end Calling

section Selecting

variable {V : VaultPrimitives} {entry : Entry} {masterKey : Bytes} {h h' : Host Entry}

theorem framed_key (masterKey : Bytes) :
    Framed (fun _ => True) (fun v => v.masterKey = masterKey) where
  quiet _ _ _ _ := True.intro
  stored _ _ _ _ := True.intro
  memory _ _ _ _ key := key

omit [DecidableEq Entry] in
theorem withVaultOr_ok {α : Type} {default a : α} {m : VolumeM α} {vault : Vault Entry} {v : Volume}
    (hvfs : h.vfs = some vault) (run : m (h.volume vault) = .ok a v) :
    withVaultOr default m h = .ok a (h.absorb vault v) := by
  rw [withVaultOr, hvfs]
  dsimp only
  rw [run]

omit [DecidableEq Entry] in
theorem absorb_other {vault : Vault Entry} {node : Nat} (named : h.link entry = some node)
    (other : node ≠ vault.node) (v : Volume) :
    ((h.absorb vault v).fileAt entry).bytes = (h.fileAt entry).bytes := by
  simp only [Host.fileAt, Host.absorb, named, Option.map_some, Function.update_of_ne other]

omit [DecidableEq Entry] in
theorem Selects.call (selects : Selects entry masterKey h) (call : VaultCall)
    {reply : DeviceReply} (returns : withVaultOr call.default (call.program V) h = .ok reply h') :
    Selects entry masterKey h' := by
  obtain ⟨vault, hvfs, hkey, hlink⟩ := selects
  have hkept := call.program_framed (V := V) (framed_key masterKey) (h.volume vault)
    ⟨True.intro, hkey⟩
  rw [withVaultOr, hvfs] at returns
  dsimp only at returns
  split at returns
  · next reply' v hrun =>
    rw [hrun] at hkept
    cases returns
    exact ⟨_, rfl, hkept.2, hlink⟩
  · cases returns

omit [DecidableEq Entry] in
theorem Selects.calls (selects : Selects entry masterKey h) (run : Calls V h h') :
    Selects entry masterKey h' := by
  induction run with
  | none => exact selects
  | step run call reply returns ih => exact ih.call call returns

theorem ok_of_initVirtualVolume {key : Bytes} {total : Nat}
    (returns : initVirtualVolume V (.names entry) key total h = .ok 0 h') :
    ∃ v h₁, openOrCreate V entry (key.take 32) total h = .ok v h₁ ∧ h' = h₁.setVfs entry v := by
  rw [initVirtualVolume] at returns
  split_ifs at returns
  · cases returns
  · split at returns
    · next v h₁ hrun =>
      cases returns
      exact ⟨v, h₁, hrun, rfl⟩
    · cases returns
    · cases returns

end Selecting

/-- An initialisation that returns 0 selects its vault for all vault calls that follow
exactly when no vault was set before, or the vault set before is this container under
this key, and was opened again and not replaced. -/
theorem init_selects_iff {V : VaultPrimitives} {h h₁ : Host Entry} (reached : Reached V h)
    {entry : Entry} {key : Bytes} {total : Nat}
    (returns : initVirtualVolume V (.names entry) key total h = .ok 0 h₁) :
    (∀ h₂, Calls V h₁ h₂ → Selects entry (key.take 32) h₂) ↔
      h.vfs = none ∨ Selects entry (key.take 32) h ∧ Opens entry h := by
  obtain ⟨v, g, hopen, rfl⟩ := ok_of_initVirtualVolume returns
  obtain ⟨hkey, hvfs, hcases⟩ := openOrCreate_cases hopen
  have hlinked : ∃ node, g.link entry = some node := by
    rcases hcases with ⟨opens, hlink, -⟩ | ⟨-, hlink, -⟩
    · rw [hlink]
      exact Option.isSome_iff_exists.mp opens.1.1
    · exact ⟨h.next, by rw [hlink, Function.update_self]⟩
  obtain ⟨node, hnode⟩ := hlinked
  cases hset : h.vfs with
  | none =>
    refine iff_of_true (fun h₂ run => Selects.calls ?_ run) (Or.inl rfl)
    rw [hset] at hvfs
    rw [Host.setVfs, hvfs, hnode]
    exact ⟨_, rfl, hkey, hnode⟩
  | some vault =>
    -- the cell is taken, so the vault of before is the one that stays
    rw [hset] at hvfs
    have hstays : (g.setVfs entry v).vfs = some vault := by
      rw [Host.setVfs, hvfs]
    have hlinks : (g.setVfs entry v).link = g.link := by
      rw [Host.setVfs, hvfs]
    constructor
    · intro selects
      obtain ⟨other, hother, hkey', hlink'⟩ := selects _ .none
      rw [hstays] at hother
      cases hother
      rw [hlinks] at hlink'
      rcases hcases with ⟨opens, hlink, -⟩ | ⟨-, hlink, -⟩
      · rw [hlink] at hlink'
        exact Or.inr ⟨⟨vault, hset, hkey', hlink'⟩, opens⟩
      · -- a file just created has a number no handle has
        rw [hlink, Function.update_self] at hlink'
        have hbelow := reached.numbered.vault vault hset
        have hnew := Option.some.inj hlink'
        omega
    · rintro (hnone | ⟨⟨other, hother, hkey', hlink'⟩, opens⟩)
      · cases hnone
      · rw [hset] at hother
        cases hother
        rcases hcases with ⟨-, hlink, -⟩ | ⟨creates, -⟩
        · refine fun h₂ run => Selects.calls ⟨vault, hstays, hkey', ?_⟩ run
          rw [hlinks, hlink]
          exact hlink'
        · exact absurd opens creates

section Samples

def emptyHost : Host Bool := ⟨fun _ => none, fun _ => [], 0, [], none⟩

def otherKey : Bytes := List.replicate 32 8

theorem openOrCreate_unnamed {V : VaultPrimitives} {entry : Entry} {h : Host Entry}
    (unnamed : h.link entry = none) (healthy : h.script = []) {n : Nat}
    (capacity : n ≤ maxDataBlocks) (masterKey : Bytes) :
    openOrCreate V entry masterKey n h =
      .ok (freshVolume V masterKey n (h.fileAt entry))
        (h.leave entry (freshVolume V masterKey n (h.fileAt entry)).file) := by
  have hcloses : ¬ Opens entry h := fun opens => by
    have hpresent : (h.link entry).isSome = true := opens.1.1
    rw [unnamed] at hpresent
    cases hpresent
  have hfacing : h.facing [] = h := by
    rw [← healthy]
    rfl
  rw [openOrCreate, if_neg (by omega), bind_ok (atEntry_isEmpty entry h),
    bind_ok (atEntry_pathExists entry h _), if_neg (mt opens_iff.mpr hcloses),
    bind_ok (atEntry_pathExists entry h _), unnamed, healthy]
  simp only [Option.isSome_none, Bool.and_false, Bool.false_eq_true, if_false, List.tail_nil,
    hfacing]
  refine atEntry_ok (createNew_healthy healthy ?_)
  exact congrArg Option.isSome unnamed

theorem init_unnamed {V : VaultPrimitives} {entry : Entry} {h : Host Entry}
    (unnamed : h.link entry = none) (healthy : h.script = []) {n : Nat}
    (capacity : n ≤ maxDataBlocks) {key : Bytes} (length : key.length = 32) :
    initVirtualVolume V (.names entry) key n h =
      .ok 0 ((h.leave entry (freshVolume V key n (h.fileAt entry)).file).setVfs entry
        (freshVolume V key n (h.fileAt entry))) := by
  have htake : key.take 32 = key := List.take_of_length_le length.le
  rw [initVirtualVolume, if_neg (by omega), htake,
    openOrCreate_unnamed unnamed healthy capacity key]

def otherVolume : Volume := freshVolume symbolicVault otherKey 3 absentFile

def firstVault : Vault Bool := vaultOf false 0 sampleVolume

def firstHost : Host Bool where
  link := Function.update (fun _ => none) false (some 0)
  store := Function.update (fun _ => []) 0 sampleVolume.file.bytes
  next := 1
  script := []
  vfs := some firstVault

def secondHost : Host Bool where
  link := Function.update firstHost.link true (some 1)
  store := Function.update firstHost.store 1 otherVolume.file.bytes
  next := 2
  script := []
  vfs := some firstVault

theorem init_first :
    initVirtualVolume symbolicVault (.names false) sampleKey 3 emptyHost = .ok 0 firstHost := by
  have hfile : emptyHost.fileAt false = absentFile := rfl
  have hlength : sampleKey.length = 32 := List.length_replicate
  rw [init_unnamed rfl rfl (by decide) hlength, hfile, leave_created rfl rfl]
  rfl

theorem init_second :
    initVirtualVolume symbolicVault (.names true) otherKey 3 firstHost = .ok 0 secondHost := by
  have hfile : firstHost.fileAt true = absentFile := rfl
  have hlength : otherKey.length = 32 := List.length_replicate
  rw [init_unnamed rfl rfl (by decide) hlength, hfile, leave_created rfl rfl]
  rfl

omit [DecidableEq Entry] in
theorem volume_vaultOf {h : Host Entry} {entry : Entry} {node : Nat} {v : Volume}
    (present : (h.link entry).isSome = v.file.exists?) (bytes : h.store node = v.file.bytes)
    (script : h.script = v.file.script) : h.volume (vaultOf entry node v) = v := by
  simp only [Host.volume, vaultOf, present, bytes, script]

theorem secondHost_volume : secondHost.volume firstVault = sampleVolume := by
  have hstore : secondHost.store 0 = sampleVolume.file.bytes := by
    rw [secondHost, firstHost]
    dsimp only
    rw [Function.update_of_ne Nat.zero_ne_one, Function.update_self]
  exact volume_vaultOf rfl hstore rfl

end Samples

theorem init_selects_first :
    initVirtualVolume symbolicVault (.names false) sampleKey 3 emptyHost = .ok 0 firstHost ∧
      ∀ h, Calls symbolicVault firstHost h → Selects false (sampleKey.take 32) h := by
  have hstart : Reached symbolicVault emptyHost := .start _ rfl (by rintro entry node ⟨⟩)
  exact ⟨init_first, (init_selects_iff hstart init_first).mpr (Or.inl rfl)⟩

theorem second_init_keeps_first_vault :
    initVirtualVolume symbolicVault (.names false) sampleKey 3 emptyHost = .ok 0 firstHost ∧
      initVirtualVolume symbolicVault (.names true) otherKey 3 firstHost = .ok 0 secondHost ∧
      Selects false sampleKey secondHost ∧ ¬ Selects true otherKey secondHost ∧
      ∃ h, withVaultOr (.count 0)
          ((VaultCall.writeVaultBlocks 9 [⟨samplePayload, sampleNonce⟩]).program symbolicVault)
          secondHost = .ok (.count 1) h ∧
        (h.fileAt true).bytes = (secondHost.fileAt true).bytes := by
  -- The second initialisation returns 0 and creates its container, and the block written
  -- next goes to the first one.
  have hintact : Intact (freshSuperblock symbolicVault sampleKey 3) sampleVolume := intact_fresh rfl
  obtain ⟨written, hwritten⟩ : ∃ written, writeBlock symbolicVault 9 samplePayload sampleNonce
      sampleVolume = .ok () written :=
    ⟨_, writeBlock_ready hintact.ready ⟨by decide, by decide⟩ rfl⟩
  have hwrite : (VaultCall.writeVaultBlocks 9 [⟨samplePayload, sampleNonce⟩]).program symbolicVault
      (secondHost.volume firstVault) = .ok (.count 1) written := by
    rw [secondHost_volume, VaultCall.program, VaultEntries.writeVaultBlocks, bind_assoc,
      bind_ok (attempt_ok hwritten)]
    rfl
  refine ⟨init_first, init_second, ⟨firstVault, rfl, rfl, rfl⟩, ?_, ?_⟩
  · rintro ⟨vault, hvfs, -, hlink⟩
    cases hvfs
    cases hlink
  · exact ⟨_, withVaultOr_ok rfl hwrite, absorb_other rfl Nat.one_ne_zero written⟩

end SecureCore.VaultSelection
