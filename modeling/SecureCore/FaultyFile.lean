import SecureCore.ByteImage
import SecureCore.FallibleState

/-! One file behind a path, with system calls that may fail. The outcomes of the
coming calls are a script: a call takes the next entry, an exhausted script means
success. A failing write may have written any part of its data. What a call does
when it succeeds is determined; errors of the system carry a code of no further
meaning and are kept apart from errors a program raises and from panics. -/

namespace SecureCore.FaultyFile

open LittleEndian (Bytes)
open FallibleState ByteImage

inductive ErrorKind where
  | invalidInput | invalidData | permissionDenied | storageFull | unexpectedEof
  | alreadyExists | notFound | other
  deriving DecidableEq, Repr

inductive Failure where
  | os (code : Nat)
  | raised (kind : ErrorKind) (message : String)
  | panic (message : String)
  deriving DecidableEq, Repr

structure Fault where
  code : Nat
  /-- How many bytes a failing write had written. -/
  progress : Nat
  deriving DecidableEq, Repr

structure File where
  exists? : Bool
  bytes : Bytes
  cursor : Nat
  script : List (Option Fault)
  deriving DecidableEq, Repr

abbrev FileM := EStateM Failure File

def outcome : FileM (Option Fault) := fun f =>
  match f.script with
  | [] => .ok none f
  | next :: rest => .ok next { f with script := rest }

/-- A system call with this effect if it succeeds and none if it fails. -/
def call (effect : FileM α) : FileM α := do
  match ← outcome with
  | none => effect
  | some fault => throw (.os fault.code)

def openNew : FileM Unit := call do
  if (← get).exists? then throw (.raised .alreadyExists "File exists")
  else modify fun f => { f with exists? := true, bytes := [], cursor := 0 }

def openExisting : FileM Unit := call do
  if (← get).exists? then modify fun f => { f with cursor := 0 }
  else throw (.raised .notFound "No such file or directory")

def seek (position : Nat) : FileM Unit := call (modify fun f => { f with cursor := position })

def readExact (count : Nat) : FileM Bytes := call do
  let f ← get
  if f.cursor + count ≤ f.bytes.length then do
    modify fun f => { f with cursor := f.cursor + count }
    pure (slice f.bytes f.cursor count)
  else do
    modify fun f => { f with cursor := max f.cursor f.bytes.length }
    throw (.raised .unexpectedEof "failed to fill whole buffer")

def put (data : Bytes) (f : File) : File :=
  { f with bytes := splice f.bytes f.cursor data, cursor := f.cursor + data.length }

theorem put_put (data more : Bytes) (f : File) :
    put more (put data f) = put (data ++ more) f := by
  simp only [put, List.length_append, Nat.add_assoc, splice_splice_adjacent]

def writeAll (data : Bytes) : FileM Unit := do
  match ← outcome with
  | none => modify (put data)
  | some fault => do
    modify (put (data.take fault.progress))
    throw (.os fault.code)

def setLen (length : Nat) : FileM Unit :=
  call (modify fun f => { f with bytes := resize f.bytes length })

def syncAll : FileM Unit := call (pure ())

def metadata : FileM Nat := call do
  let f ← get
  if f.exists? then pure f.bytes.length
  else throw (.raised .notFound "No such file or directory")

/-- `Path::exists`, which is false when the system call fails. -/
def pathExists : FileM Bool := do
  match ← outcome with
  | none => pure (← get).exists?
  | some _ => pure false

/-- `std::fs::remove_file` with its result dropped. -/
def removeFile : FileM Unit := do
  match ← outcome with
  | none => modify fun f => { f with exists? := false, bytes := [] }
  | some _ => pure ()

theorem outcome_eq (f : File) :
    outcome f = .ok (f.script.headD none) { f with script := f.script.tail } := by
  obtain ⟨present, bytes, cursor, script⟩ := f
  cases script <;> rfl

theorem call_fails {effect : FileM α} {f : File} {fault : Fault}
    (h : f.script.headD none = some fault) :
    call effect f = .error (.os fault.code) { f with script := f.script.tail } := by
  rw [call, bind_ok (outcome_eq f), h]
  rfl

theorem ok_of_call {effect : FileM α} {f g : File} {a : α} (h : call effect f = .ok a g) :
    effect { f with script := f.script.tail } = .ok a g := by
  rw [call, bind_ok (outcome_eq f)] at h
  cases hnext : f.script.headD none with
  | none => rwa [hnext] at h
  | some fault =>
    rw [hnext] at h
    cases h

theorem head_of_call {effect : FileM α} {f g : File} {a : α} (h : call effect f = .ok a g) :
    f.script.headD none = none := by
  cases hnext : f.script.headD none with
  | none => rfl
  | some fault =>
    rw [call_fails hnext] at h
    cases h

theorem call_works {effect : FileM α} {f : File} (h : f.script.headD none = none) :
    call effect f = effect { f with script := f.script.tail } := by
  rw [call, bind_ok (outcome_eq f), h]

theorem seek_works {f : File} (h : f.script.headD none = none) (position : Nat) :
    seek position f = .ok () { f with cursor := position, script := f.script.tail } :=
  call_works h

theorem seek_fails {f : File} {fault : Fault} (h : f.script.headD none = some fault)
    (position : Nat) :
    seek position f = .error (.os fault.code) { f with script := f.script.tail } :=
  call_fails h

theorem openNew_works {f : File} (h : f.script.headD none = none) (absent : f.exists? = false) :
    openNew f = .ok () ⟨true, [], 0, f.script.tail⟩ := by
  rw [openNew, call_works h, bind_ok (get_apply _), if_neg (by simp [absent])]
  rfl

theorem setLen_works {f : File} (h : f.script.headD none = none) (length : Nat) :
    setLen length f = .ok () { f with bytes := resize f.bytes length, script := f.script.tail } :=
  call_works h

theorem writeAll_works {f : File} (h : f.script.headD none = none) (data : Bytes) :
    writeAll data f = .ok () (put data { f with script := f.script.tail }) := by
  rw [writeAll, bind_ok (outcome_eq f), h]
  rfl

theorem writeAll_fails {f : File} {fault : Fault} (h : f.script.headD none = some fault)
    (data : Bytes) : writeAll data f = .error (.os fault.code)
      (put (data.take fault.progress) { f with script := f.script.tail }) := by
  rw [writeAll, bind_ok (outcome_eq f), h]
  rfl

theorem readExact_works {f : File} {count : Nat} (h : f.script.headD none = none)
    (fits : f.cursor + count ≤ f.bytes.length) :
    readExact count f = .ok (slice f.bytes f.cursor count)
      { f with cursor := f.cursor + count, script := f.script.tail } := by
  rw [readExact, call_works h, bind_ok (get_apply _), if_pos fits]
  rfl

theorem readExact_short {f : File} {count : Nat} (h : f.script.headD none = none)
    (short : f.bytes.length < f.cursor + count) :
    readExact count f = .error (.raised .unexpectedEof "failed to fill whole buffer")
      { f with cursor := max f.cursor f.bytes.length, script := f.script.tail } := by
  rw [readExact, call_works h, bind_ok (get_apply _), if_neg (by dsimp only; omega)]
  rfl

theorem metadata_works {f : File} (h : f.script.headD none = none) (present : f.exists? = true) :
    metadata f = .ok f.bytes.length { f with script := f.script.tail } := by
  rw [metadata, call_works h, bind_ok (get_apply _), if_pos present]
  rfl

theorem removeFile_works {f : File} (h : f.script.headD none = none) :
    removeFile f = .ok () { f with exists? := false, bytes := [], script := f.script.tail } := by
  rw [removeFile, bind_ok (outcome_eq f), h]
  rfl

theorem removeFile_fails {f : File} {fault : Fault} (h : f.script.headD none = some fault) :
    removeFile f = .ok () { f with script := f.script.tail } := by
  rw [removeFile, bind_ok (outcome_eq f), h]
  rfl

theorem pathExists_eq (f : File) :
    pathExists f = .ok ((f.script.headD none).isNone && f.exists?)
      { f with script := f.script.tail } := by
  rw [pathExists, bind_ok (outcome_eq f)]
  cases f.script.headD none with
  | none => rfl
  | some fault => rfl

theorem ok_of_seek {position : Nat} {f g : File} (h : seek position f = .ok () g) :
    g = { f with cursor := position, script := f.script.tail } := by
  cases ok_of_call h
  rfl

theorem ok_of_readExact {count : Nat} {f g : File} {raw : Bytes}
    (h : readExact count f = .ok raw g) :
    raw = slice f.bytes f.cursor count ∧ f.cursor + count ≤ f.bytes.length ∧
      g = { f with cursor := f.cursor + count, script := f.script.tail } := by
  have heffect := ok_of_call h
  rw [bind_ok (get_apply _)] at heffect
  split_ifs at heffect with fits
  · cases heffect
    exact ⟨rfl, fits, rfl⟩
  · cases heffect

theorem ok_of_openExisting {f g : File} (h : openExisting f = .ok () g) :
    f.exists? = true ∧ g = { f with cursor := 0, script := f.script.tail } := by
  have heffect := ok_of_call h
  rw [bind_ok (get_apply _)] at heffect
  split_ifs at heffect with present
  · cases heffect
    exact ⟨present, rfl⟩
  · cases heffect

theorem ok_of_openNew {f g : File} (h : openNew f = .ok () g) :
    g = { exists? := true, bytes := [], cursor := 0, script := f.script.tail } := by
  have heffect := ok_of_call h
  rw [bind_ok (get_apply _)] at heffect
  split_ifs at heffect
  · cases heffect
  · cases heffect
    rfl

theorem absent_of_openNew {f g : File} (h : openNew f = .ok () g) : f.exists? = false := by
  have heffect := ok_of_call h
  rw [bind_ok (get_apply _)] at heffect
  split_ifs at heffect with present
  · cases heffect
  · exact Bool.eq_false_of_not_eq_true present

theorem ok_of_setLen {length : Nat} {f g : File} (h : setLen length f = .ok () g) :
    g = { f with bytes := resize f.bytes length, script := f.script.tail } := by
  cases ok_of_call h
  rfl

theorem writeAll_cases (data : Bytes) (f : File) :
    writeAll data f = .ok () (put data { f with script := f.script.tail }) ∨
    ∃ code progress, writeAll data f = .error (.os code)
      (put (data.take progress) { f with script := f.script.tail }) := by
  cases hnext : f.script.headD none with
  | none => exact Or.inl (writeAll_works hnext data)
  | some fault => exact Or.inr ⟨fault.code, fault.progress, writeAll_fails hnext data⟩

theorem ok_of_writeAll {data : Bytes} {f g : File} (h : writeAll data f = .ok () g) :
    g = put data { f with script := f.script.tail } := by
  rcases writeAll_cases data f with hrun | ⟨code, progress, hrun⟩
  · rw [hrun] at h
    cases h
    rfl
  · rw [hrun] at h
    cases h

theorem ok_of_syncAll {f g : File} (h : syncAll f = .ok () g) :
    g = { f with script := f.script.tail } := by
  cases ok_of_call h
  rfl

def Healthy (f : File) : Prop := f.script = []

section Healthy

variable {f : File}

theorem outcome_healthy (h : Healthy f) : outcome f = .ok none f := by
  have h : f.script = [] := h
  rw [outcome, h]

theorem call_healthy (h : Healthy f) (effect : FileM α) : call effect f = effect f := by
  rw [call, bind_ok (outcome_healthy h)]

theorem openExisting_healthy (h : Healthy f) (present : f.exists? = true) :
    openExisting f = .ok () { f with cursor := 0 } := by
  rw [openExisting, call_healthy h, bind_ok (get_apply f), if_pos present]
  rfl

theorem openNew_healthy (h : Healthy f) (absent : f.exists? = false) :
    openNew f = .ok () { f with exists? := true, bytes := [], cursor := 0 } := by
  rw [openNew, call_healthy h, bind_ok (get_apply f), if_neg (by simp [absent])]
  rfl

theorem openNew_present (h : Healthy f) (present : f.exists? = true) :
    openNew f = .error (.raised .alreadyExists "File exists") f := by
  rw [openNew, call_healthy h, bind_ok (get_apply f), if_pos present]
  rfl

theorem seek_healthy (h : Healthy f) (position : Nat) :
    seek position f = .ok () { f with cursor := position } := by
  rw [seek, call_healthy h]
  rfl

theorem readExact_healthy (h : Healthy f) {count : Nat}
    (fits : f.cursor + count ≤ f.bytes.length) :
    readExact count f =
      .ok (slice f.bytes f.cursor count) { f with cursor := f.cursor + count } := by
  rw [readExact, call_healthy h, bind_ok (get_apply f), if_pos fits]
  rfl

theorem writeAll_healthy (h : Healthy f) (data : Bytes) :
    writeAll data f = .ok () (put data f) := by
  rw [writeAll, bind_ok (outcome_healthy h)]
  rfl

theorem setLen_healthy (h : Healthy f) (length : Nat) :
    setLen length f = .ok () { f with bytes := resize f.bytes length } := by
  rw [setLen, call_healthy h]
  rfl

theorem syncAll_healthy (h : Healthy f) : syncAll f = .ok () f := by
  rw [syncAll, call_healthy h]
  rfl

theorem metadata_healthy (h : Healthy f) (present : f.exists? = true) :
    metadata f = .ok f.bytes.length f := by
  rw [metadata, call_healthy h, bind_ok (get_apply f), if_pos present]
  rfl

theorem pathExists_healthy (h : Healthy f) : pathExists f = .ok f.exists? f := by
  rw [pathExists, bind_ok (outcome_healthy h)]
  rfl

end Healthy

structure Ready (f : File) : Prop where
  healthy : Healthy f
  present : f.exists? = true

theorem Ready.cursor {f : File} (h : Ready f) (position : Nat) :
    Ready { f with cursor := position } := ⟨h.healthy, h.present⟩

theorem Ready.put {f : File} (h : Ready f) (data : Bytes) : Ready (put data f) :=
  ⟨h.healthy, h.present⟩

def Works (n : Nat) (f : File) : Prop :=
  f.exists? = true ∧ ∀ next ∈ f.script.take n, next = none

section Works

variable {f : File} {n : Nat}

theorem works_succ : Works (n + 1) f ↔
    f.script.headD none = none ∧ Works n { f with script := f.script.tail } := by
  obtain ⟨present, bytes, cursor, script⟩ := f
  cases script with
  | nil => simp [Works]
  | cons next rest => simp [Works, and_left_comm]

theorem fault_of_not_works (present : f.exists? = true) (h : ¬ Works 1 f) :
    ∃ fault, f.script.headD none = some fault := by
  refine Option.ne_none_iff_exists'.mp fun hnone => h (works_succ.mpr ⟨hnone, present, ?_⟩)
  simp

theorem Works.mono {m : Nat} (h : Works n f) (le : m ≤ n) : Works m f :=
  ⟨h.1, fun next hnext => h.2 next ((List.take_subset_take_left _ le) hnext)⟩

end Works

/-- The next `n` calls succeed, on a handle that may outlive the path. -/
def Unfailing (n : Nat) (f : File) : Prop := ∀ next ∈ f.script.take n, next = none

theorem unfailing_succ {n : Nat} {f : File} : Unfailing (n + 1) f ↔
    f.script.headD none = none ∧ Unfailing n { f with script := f.script.tail } := by
  obtain ⟨present, bytes, cursor, script⟩ := f
  cases script with
  | nil => simp [Unfailing]
  | cons next rest => simp [Unfailing]

theorem unfailing_two {f : File} :
    Unfailing 2 f ↔ f.script.headD none = none ∧ f.script.tail.headD none = none := by
  rw [unfailing_succ, unfailing_succ]
  simp [Unfailing]

theorem Healthy.unfailing {f : File} (h : Healthy f) (n : Nat) : Unfailing n f := by
  have h : f.script = [] := h
  simp [Unfailing, h]

/-- A computation of `k` system calls that fails just if one of them does. The
file is a component of its state. -/
def Counted {σ α : Type} (view : σ → File) (k : Nat) (m : EStateM Failure σ α) : Prop :=
  ∀ s, match m s with
    | .ok _ t => ∀ n, Works n (view t) ↔ Works (n + k) (view s)
    | .error _ _ => ¬ Works k (view s)

namespace Counted

variable {σ α β : Type} {view : σ → File} {k l : Nat} {m : EStateM Failure σ α}
  {f : α → EStateM Failure σ β} {s t : σ}

theorem bind (hm : Counted view k m) (hf : ∀ a, Counted view l (f a)) :
    Counted view (k + l) (m >>= f) := by
  intro s
  have hfirst := hm s
  cases hrun : m s with
  | error e t =>
    rw [hrun] at hfirst
    rw [bind_error hrun]
    exact fun works => hfirst (works.mono (Nat.le_add_right k l))
  | ok a t =>
    rw [hrun] at hfirst
    rw [bind_ok hrun]
    have hsecond := hf a t
    cases hrest : f a t with
    | ok b u =>
      rw [hrest] at hsecond
      intro n
      rw [hsecond n, hfirst (n + l), Nat.add_assoc, Nat.add_comm l k]
    | error e u =>
      rw [hrest] at hsecond
      rw [← Nat.add_comm l k]
      exact fun works => hsecond ((hfirst l).mpr works)

theorem ok_of_works (h : Counted view k m) (works : Works k (view s)) :
    ∃ a t, m s = .ok a t := by
  have hspec := h s
  cases hrun : m s with
  | ok a t => exact ⟨a, t, rfl⟩
  | error e t =>
    rw [hrun] at hspec
    exact absurd works hspec

theorem works_of_ok {a : α} (h : Counted view k m) (run : m s = .ok a t) (n : Nat) :
    Works n (view t) ↔ Works (n + k) (view s) := by
  have hspec := h s
  rw [run] at hspec
  exact hspec n

end Counted

section Calls

variable {α : Type}

theorem call_counted {effect : FileM α}
    (h : ∀ f, match effect f with
      | .ok _ g => g.script = f.script ∧ g.exists? = f.exists?
      | .error _ _ => f.exists? = false) : Counted id 1 (call effect) := by
  intro f
  have heffect := h { f with script := f.script.tail }
  rw [call, bind_ok (outcome_eq f)]
  cases hnext : f.script.headD none with
  | some fault =>
    intro works
    rw [id, works_succ, hnext] at works
    cases works.1
  | none =>
    dsimp only
    cases hrun : effect { f with script := f.script.tail } with
    | ok a g =>
      rw [hrun] at heffect
      intro n
      rw [id, id, works_succ, hnext]
      simp only [Works, heffect.1, heffect.2, true_and]
    | error e g =>
      have habsent : f.exists? = false := by
        rw [hrun] at heffect
        exact heffect
      intro works
      exact absurd works.1 (by simp [habsent])

theorem seek_counted (position : Nat) : Counted id 1 (seek position) :=
  call_counted fun _ => ⟨rfl, rfl⟩

theorem touch_counted : Counted id 1 (call (pure () : FileM Unit)) :=
  call_counted fun _ => ⟨rfl, rfl⟩

theorem metadata_counted : Counted id 1 metadata := by
  refine call_counted fun f => ?_
  rw [bind_ok (get_apply f)]
  cases hpresent : f.exists? with
  | true => exact ⟨rfl, hpresent⟩
  | false => rfl

theorem writeAll_counted (data : Bytes) : Counted id 1 (writeAll data) := by
  intro f
  rw [writeAll, bind_ok (outcome_eq f)]
  cases hnext : f.script.headD none with
  | some fault =>
    intro works
    rw [id, works_succ, hnext] at works
    cases works.1
  | none =>
    intro n
    rw [id, id, works_succ, hnext]
    simp only [true_and]
    rfl

end Calls

def Failure.Plain : Failure → Prop
  | .os _ => True
  | .raised kind _ => kind ≠ .storageFull
  | .panic _ => False

def FailsPlainly {σ : Type} (m : EStateM Failure σ α) : Prop :=
  Spec (fun _ => True) m (fun _ _ => True) (fun e _ => e.Plain)

namespace FailsPlainly

theorem bind {σ β : Type} {m : EStateM Failure σ α} {f : α → EStateM Failure σ β}
    (hm : FailsPlainly m) (hf : ∀ a, FailsPlainly (f a)) : FailsPlainly (m >>= f) :=
  Spec.bind hm hf

theorem raised {σ : Type} {kind : ErrorKind} {message : String} (h : kind ≠ .storageFull) :
    FailsPlainly (throw (.raised kind message) : EStateM Failure σ α) := fun _ _ => h

theorem outcome : FailsPlainly outcome := by
  intro f _
  rw [outcome_eq]
  trivial

theorem get {σ : Type} : FailsPlainly (EStateM.get : EStateM Failure σ σ) := fun _ _ => trivial

theorem modify (g : File → File) : FailsPlainly (modify g : FileM Unit) := fun _ _ => trivial

theorem call {effect : FileM α} (h : FailsPlainly effect) : FailsPlainly (call effect) := by
  refine bind outcome fun next => ?_
  cases next with
  | none => exact h
  | some fault => exact Spec.of_throw fun _ _ => trivial

theorem seek (position : Nat) : FailsPlainly (seek position) := call (modify _)

theorem readExact (count : Nat) : FailsPlainly (readExact count) := by
  refine call (bind get fun f => ?_)
  split_ifs
  · exact fun _ _ => trivial
  · exact bind (modify _) fun _ => raised (by decide)

theorem writeAll (data : Bytes) : FailsPlainly (writeAll data) := by
  refine bind outcome fun next => ?_
  cases next with
  | none => exact modify _
  | some fault => exact bind (modify _) fun _ => Spec.of_throw fun _ _ => trivial

theorem touch : FailsPlainly (FaultyFile.call (pure ())) := call fun _ _ => trivial

theorem metadata : FailsPlainly metadata := by
  refine call (bind get fun f => ?_)
  split_ifs
  · exact fun _ _ => trivial
  · exact raised (by decide)

end FailsPlainly

end SecureCore.FaultyFile
