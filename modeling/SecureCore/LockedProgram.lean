import SecureCore.MutexThreads

/-! Programs with explicit acquisitions and releases of mutexes, as trees: what
follows an access of the shared state may depend on what it found. `guarded` is
the scope of one guard. Threads that run such programs, one after another and in
any choice, are an instance of the mutex threads; they cannot deadlock when every
program takes its mutexes in the order of a rank and ends with none. -/

namespace SecureCore.LockedProgram

open MutexThreads

variable {ι Lock σ α β γ Op : Type}

inductive Locked (Lock σ α : Type) where
  | done (value : α)
  | acquire (lock : Lock) (next : Locked Lock σ α)
  | release (lock : Lock) (next : Locked Lock σ α)
  | access (update : σ → σ) (next : σ → Locked Lock σ α)

namespace Locked

def bind : Locked Lock σ α → (α → Locked Lock σ β) → Locked Lock σ β
  | done value, f => f value
  | acquire lock next, f => acquire lock (next.bind f)
  | release lock next, f => release lock (next.bind f)
  | access update next, f => access update (fun s => (next s).bind f)

instance : Monad (Locked Lock σ) where
  pure := done
  bind := bind

def atomic (body : σ → α × σ) : Locked Lock σ α :=
  access (fun s => (body s).2) (fun s => done (body s).1)

/-- The scope of a guard: `p` runs with the mutex held, on every path. -/
def guarded (lock : Lock) (p : Locked Lock σ α) : Locked Lock σ α :=
  acquire lock (p.bind fun value => release lock (done value))

def run : Locked Lock σ α → σ → α × σ
  | done value, s => (value, s)
  | acquire _ next, s => next.run s
  | release _ next, s => next.run s
  | access update next, s => (next s).run (update s)

@[simp] theorem run_pure (value : α) (s : σ) :
    (pure value : Locked Lock σ α).run s = (value, s) := rfl

@[simp] theorem run_atomic (body : σ → α × σ) (s : σ) :
    (atomic body : Locked Lock σ α).run s = body s := rfl

@[simp] theorem run_bind (p : Locked Lock σ α) (f : α → Locked Lock σ β) (s : σ) :
    (p >>= f).run s = (f (p.run s).1).run (p.run s).2 := by
  change (p.bind f).run s = _
  induction p generalizing s with
  | done value => rfl
  | acquire lock next ih => exact ih s
  | release lock next ih => exact ih s
  | access update next ih => exact ih s (update s)

@[simp] theorem run_guarded (lock : Lock) (p : Locked Lock σ α) (s : σ) :
    (guarded lock p).run s = p.run s :=
  run_bind p (fun value => release lock (done value)) s

section Order

variable [DecidableEq Lock] (rank : Lock → Nat)

/-- A program started with the mutexes `held` takes only mutexes of a higher rank
than all it holds, releases only what it holds, and ends with `left`. -/
def Nests (held : Finset Lock) (left : Finset Lock) : Locked Lock σ α → Prop
  | done _ => held = left
  | acquire lock next => (∀ own ∈ held, rank own < rank lock) ∧ next.Nests (insert lock held) left
  | release lock next => lock ∈ held ∧ next.Nests (held.erase lock) left
  | access _ next => ∀ s, (next s).Nests held left

variable {rank}

theorem Nests.pure (held : Finset Lock) (value : α) :
    (pure value : Locked Lock σ α).Nests rank held held := rfl

theorem Nests.atomic (held : Finset Lock) (body : σ → α × σ) :
    (atomic body : Locked Lock σ α).Nests rank held held := fun _ => rfl

theorem Nests.bind {held middle left : Finset Lock} {p : Locked Lock σ α}
    {f : α → Locked Lock σ β} (hp : p.Nests rank held middle)
    (hf : ∀ value, (f value).Nests rank middle left) : (p >>= f).Nests rank held left := by
  change (p.bind f).Nests rank held left
  induction p generalizing held with
  | done value =>
    have hsame : held = middle := hp
    subst hsame
    exact hf value
  | acquire lock next ih => exact ⟨hp.1, ih hp.2⟩
  | release lock next ih => exact ⟨hp.1, ih hp.2⟩
  | access update next ih => exact fun s => ih s (hp s)

theorem Nests.guarded {held : Finset Lock} {lock : Lock} {p : Locked Lock σ α}
    (above : ∀ own ∈ held, rank own < rank lock)
    (hp : p.Nests rank (insert lock held) (insert lock held)) :
    (guarded lock p).Nests rank held held := by
  have hnew : lock ∉ held := fun hmem => lt_irrefl _ (above lock hmem)
  refine ⟨above, Nests.bind hp fun value => ⟨Finset.mem_insert_self lock held, ?_⟩⟩
  exact Finset.erase_insert hnew

end Order

def instr (program : Op → Locked Lock σ α) :
    Locked Lock σ α → Instr Lock Op σ (Locked Lock σ α)
  | done _ => .act fun op s => some (program op, s)
  | acquire lock next => .acquire lock next
  | release lock next => .release lock next
  | access update next => .act fun _ s => some (next s, update s)

section Threads

variable [DecidableEq Lock] {rank : Lock → Nat} {program : Op → Locked Lock σ α}

theorem ordered_of_nests (nests : ∀ op, (program op).Nests rank ∅ ∅)
    (allowed : System ι Lock σ (Locked Lock σ α) → ι → Op → Prop) :
    Ordered (instr program) rank allowed (fun held p => p.Nests rank held ∅) where
  acquire {held p lock next} good hinstr := by
    cases p with
    | acquire taken rest =>
      cases hinstr
      exact good
    | done => cases hinstr
    | release => cases hinstr
    | access => cases hinstr
  release {held p lock next} good hinstr := by
    cases p with
    | release given rest =>
      cases hinstr
      exact good
    | done => cases hinstr
    | acquire => cases hinstr
    | access => cases hinstr
  act {held c i op body next s} good hinstr _ hbody := by
    cases hp : c.threads i with
    | done value =>
      rw [hp] at hinstr good
      cases hinstr
      cases hbody
      have hnone : held = ∅ := good
      rw [hnone]
      exact nests op
    | access update rest =>
      rw [hp] at hinstr good
      cases hinstr
      cases hbody
      exact good c.shared
    | acquire => rw [hp] at hinstr; cases hinstr
    | release => rw [hp] at hinstr; cases hinstr

variable [DecidableEq ι] [Finite Lock]

def atRest (s : σ) (values : ι → α) : System ι Lock σ (Locked Lock σ α) where
  shared := s
  owner := fun _ => none
  threads := fun i => done (values i)

theorem not_deadlocked_of_nests (nests : ∀ op, (program op).Nests rank ∅ ∅) {s : σ}
    {values : ι → α} {allowed : System ι Lock σ (Locked Lock σ α) → ι → Op → Prop}
    {c : System ι Lock σ (Locked Lock σ α)} (run : Run (instr program) allowed (atRest s values) c)
    (stuck : Set ι) : ¬ Deadlocked (instr program) c stuck := by
  have start : Owned (fun held (p : Locked Lock σ α) => p.Nests rank held ∅) (fun _ => ∅)
      (atRest s values : System ι Lock σ (Locked Lock σ α)) :=
    ⟨fun _ => rfl, fun lock i => by simp [atRest]⟩
  exact run.not_deadlocked (ordered_of_nests nests allowed) start stuck

end Threads

end Locked

end SecureCore.LockedProgram
