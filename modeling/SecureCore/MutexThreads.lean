import Mathlib.Data.Fintype.Card
import Mathlib.Logic.Function.Basic
import Mathlib.Tactic

/-! Threads that share a state and take mutexes. A thread is at a control point,
which says what it does next: acquire a mutex, which blocks while the mutex is
owned, release one, or act on the shared state. An act may depend on a choice
that is not the thread's, and may have to wait. Control points are a parameter,
so that a program text, a program tree or a state machine can stand for them.

A thread that takes mutexes in the order of a rank, and gives back what it took,
cannot be part of a deadlock. -/

namespace SecureCore.MutexThreads

variable {ι Lock χ σ κ κ' : Type}

inductive Instr (Lock χ σ κ : Type) where
  | acquire (lock : Lock) (next : κ)
  | release (lock : Lock) (next : κ)
  /-- `none` while the act cannot be done. -/
  | act (body : χ → σ → Option (κ × σ))
  | halt

def Instr.outcome : Instr Lock χ σ κ → χ → σ → Option (κ × σ)
  | .acquire _ next, _, s => some (next, s)
  | .release _ next, _, s => some (next, s)
  | .act body, choice, s => body choice s
  | .halt, _, _ => none

def Instr.map (f : κ → κ') : Instr Lock χ σ κ → Instr Lock χ σ κ'
  | .acquire lock next => .acquire lock (f next)
  | .release lock next => .release lock (f next)
  | .act body => .act fun choice s => (body choice s).map fun out => (f out.1, out.2)
  | .halt => .halt

theorem Instr.outcome_map {f : κ → κ'} {instr : Instr Lock χ σ κ} {choice : χ} {s s' : σ}
    {point : κ'} (h : (instr.map f).outcome choice s = some (point, s')) :
    ∃ next, instr.outcome choice s = some (next, s') ∧ point = f next := by
  cases instr with
  | acquire lock next =>
    cases h
    exact ⟨next, rfl, rfl⟩
  | release lock next =>
    cases h
    exact ⟨next, rfl, rfl⟩
  | act body =>
    obtain ⟨⟨next, s''⟩, hbody, hout⟩ := Option.map_eq_some_iff.mp h
    cases hout
    exact ⟨next, hbody, rfl⟩
  | halt => cases h

theorem Instr.map_eq_acquire {f : κ → κ'} {instr : Instr Lock χ σ κ} {lock : Lock} {point : κ'}
    (h : instr.map f = .acquire lock point) :
    ∃ next, instr = .acquire lock next ∧ point = f next := by
  cases instr with
  | acquire taken next =>
    cases h
    exact ⟨next, rfl, rfl⟩
  | release => cases h
  | act => cases h
  | halt => cases h

theorem Instr.map_eq_release {f : κ → κ'} {instr : Instr Lock χ σ κ} {lock : Lock} {point : κ'}
    (h : instr.map f = .release lock point) :
    ∃ next, instr = .release lock next ∧ point = f next := by
  cases instr with
  | release given next =>
    cases h
    exact ⟨next, rfl, rfl⟩
  | acquire => cases h
  | act => cases h
  | halt => cases h

theorem Instr.map_eq_act {f : κ → κ'} {instr : Instr Lock χ σ κ} {body : χ → σ → Option (κ' × σ)}
    {choice : χ} {s s' : σ} {point : κ'} (h : instr.map f = .act body)
    (moves : body choice s = some (point, s')) :
    ∃ inner next, instr = .act inner ∧ inner choice s = some (next, s') ∧ point = f next := by
  cases instr with
  | act inner =>
    cases h
    obtain ⟨⟨next, s''⟩, hinner, hout⟩ := Option.map_eq_some_iff.mp moves
    cases hout
    exact ⟨inner, next, rfl, hinner, rfl⟩
  | acquire => cases h
  | release => cases h
  | halt => cases h

def Instr.awaited : Instr Lock χ σ κ → Option Lock
  | .acquire lock _ => some lock
  | _ => none

theorem Instr.awaited_eq_some {instr : Instr Lock χ σ κ} {lock : Lock}
    (h : instr.awaited = some lock) : ∃ next, instr = .acquire lock next := by
  cases instr with
  | acquire taken next =>
    cases h
    exact ⟨next, rfl⟩
  | release => cases h
  | act => cases h
  | halt => cases h

structure System (ι Lock σ κ : Type) where
  shared : σ
  owner : Lock → Option ι
  threads : ι → κ

theorem forall_threads {threads threads' : ι → κ} {i : ι} (φ : κ → Prop)
    (hother : ∀ j, j ≠ i → threads' j = threads j) (hself : φ (threads' i))
    (hrest : ∀ j, j ≠ i → φ (threads j)) (j : ι) : φ (threads' j) := by
  by_cases hji : j = i
  · rw [hji]
    exact hself
  · rw [hother j hji]
    exact hrest j hji

section Semantics

variable [DecidableEq ι] [DecidableEq Lock] (instr : κ → Instr Lock χ σ κ)

def fire (c : System ι Lock σ κ) (i : ι) (choice : χ) : Option (System ι Lock σ κ) :=
  match instr (c.threads i) with
  | .acquire lock next =>
    if c.owner lock = none then
      some { c with
        owner := Function.update c.owner lock (some i)
        threads := Function.update c.threads i next }
    else none
  | .release lock next =>
    if c.owner lock = some i then
      some { c with
        owner := Function.update c.owner lock none
        threads := Function.update c.threads i next }
    else none
  | .act body =>
    (body choice c.shared).map fun out =>
      { c with shared := out.2, threads := Function.update c.threads i out.1 }
  | .halt => none

/-- Everything reached from `c₀` by steps that meet a condition on the state
before them. -/
inductive Run (allowed : System ι Lock σ κ → ι → χ → Prop) (c₀ : System ι Lock σ κ) :
    System ι Lock σ κ → Prop where
  | start : Run allowed c₀ c₀
  | step {c c' : System ι Lock σ κ} (run : Run allowed c₀ c) (i : ι) (choice : χ)
      (meets : allowed c i choice) (fires : fire instr c i choice = some c') : Run allowed c₀ c'

def WaitsFor (c : System ι Lock σ κ) (i : ι) (lock : Lock) (j : ι) : Prop :=
  (instr (c.threads i)).awaited = some lock ∧ c.owner lock = some j

instance (c : System ι Lock σ κ) (i : ι) (lock : Lock) (j : ι) :
    Decidable (WaitsFor instr c i lock j) :=
  inferInstanceAs (Decidable (_ ∧ _))

def follow (allowed : System ι Lock σ κ → ι → χ → Prop)
    [∀ c i choice, Decidable (allowed c i choice)] :
    List (ι × χ) → System ι Lock σ κ → Option (System ι Lock σ κ)
  | [], c => some c
  | (i, choice) :: schedule, c =>
    if allowed c i choice then (fire instr c i choice).bind (follow allowed schedule) else none

/-- Every thread of the set waits for a mutex that a member holds. -/
def Deadlocked (c : System ι Lock σ κ) (stuck : Set ι) : Prop :=
  stuck.Nonempty ∧ ∀ i ∈ stuck, ∃ lock, ∃ j ∈ stuck, WaitsFor instr c i lock j

variable {instr} {c c' : System ι Lock σ κ} {i : ι} {choice : χ}

omit [DecidableEq ι] [DecidableEq Lock] in
theorem deadlocked_of_self {lock : Lock} (waits : WaitsFor instr c i lock i) :
    Deadlocked instr c {i} :=
  ⟨⟨i, rfl⟩, fun _ hj => ⟨lock, i, rfl, hj ▸ waits⟩⟩

theorem fire_cases (h : fire instr c i choice = some c') :
    (∃ lock next, instr (c.threads i) = .acquire lock next ∧ c.owner lock = none ∧
      c' = { c with
        owner := Function.update c.owner lock (some i)
        threads := Function.update c.threads i next }) ∨
    (∃ lock next, instr (c.threads i) = .release lock next ∧ c.owner lock = some i ∧
      c' = { c with
        owner := Function.update c.owner lock none
        threads := Function.update c.threads i next }) ∨
    ∃ body next s, instr (c.threads i) = .act body ∧ body choice c.shared = some (next, s) ∧
      c' = { c with shared := s, threads := Function.update c.threads i next } := by
  rw [fire] at h
  split at h
  · next lock next hinstr =>
    split_ifs at h with hfree
    cases h
    exact Or.inl ⟨lock, next, hinstr, hfree, rfl⟩
  · next lock next hinstr =>
    split_ifs at h with hown
    cases h
    exact Or.inr (Or.inl ⟨lock, next, hinstr, hown, rfl⟩)
  · next body hinstr =>
    obtain ⟨⟨next, s⟩, hbody, rfl⟩ := Option.map_eq_some_iff.mp h
    exact Or.inr (Or.inr ⟨body, next, s, hinstr, hbody, rfl⟩)
  · cases h

theorem fire_outcome (h : fire instr c i choice = some c') :
    (instr (c.threads i)).outcome choice c.shared = some (c'.threads i, c'.shared) ∧
      ∀ j, j ≠ i → c'.threads j = c.threads j := by
  rcases fire_cases h with ⟨lock, next, hinstr, -, rfl⟩ | ⟨lock, next, hinstr, -, rfl⟩ |
    ⟨body, next, s, hinstr, hbody, rfl⟩
  · refine ⟨?_, fun j hj => Function.update_of_ne hj _ _⟩
    rw [hinstr]
    simp [Instr.outcome]
  · refine ⟨?_, fun j hj => Function.update_of_ne hj _ _⟩
    rw [hinstr]
    simp [Instr.outcome]
  · refine ⟨?_, fun j hj => Function.update_of_ne hj _ _⟩
    rw [hinstr]
    simpa [Instr.outcome] using hbody

theorem Run.invariant {allowed : System ι Lock σ κ → ι → χ → Prop} {c₀ : System ι Lock σ κ}
    {inv : System ι Lock σ κ → Prop} (run : Run instr allowed c₀ c) (base : inv c₀)
    (keep : ∀ c i choice c', Run instr allowed c₀ c → allowed c i choice →
      fire instr c i choice = some c' → inv c → inv c') : inv c := by
  induction run with
  | start => exact base
  | step run i choice meets fires ih => exact keep _ i choice _ run meets fires ih

theorem Run.mono {allowed allowed' : System ι Lock σ κ → ι → χ → Prop} {c₀ : System ι Lock σ κ}
    (run : Run instr allowed c₀ c) (weaker : ∀ c i choice, Run instr allowed c₀ c →
      allowed c i choice → allowed' c i choice) : Run instr allowed' c₀ c := by
  induction run with
  | start => exact .start
  | step run i choice meets fires ih => exact ih.step i choice (weaker _ _ _ run meets) fires

theorem Run.follow {allowed : System ι Lock σ κ → ι → χ → Prop}
    [∀ c i choice, Decidable (allowed c i choice)] {c₀ : System ι Lock σ κ}
    {schedule : List (ι × χ)} (run : Run instr allowed c₀ c)
    (h : follow instr allowed schedule c = some c') : Run instr allowed c₀ c' := by
  induction schedule generalizing c with
  | nil =>
    cases h
    exact run
  | cons turn schedule ih =>
    rw [MutexThreads.follow] at h
    split_ifs at h with meets
    obtain ⟨middle, fires, rest⟩ := Option.bind_eq_some_iff.mp h
    exact ih (run.step turn.1 turn.2 meets fires) rest

theorem exists_run {allowed : System ι Lock σ κ → ι → χ → Prop}
    [∀ c i choice, Decidable (allowed c i choice)] {c₀ : System ι Lock σ κ}
    (schedule : List (ι × χ)) {φ : System ι Lock σ κ → Prop} [DecidablePred φ]
    (h : (follow instr allowed schedule c₀).any (fun c => decide (φ c)) = true) :
    ∃ c, Run instr allowed c₀ c ∧ φ c := by
  obtain ⟨c, hfollow, hφ⟩ := (Option.any_eq_true _ _).mp h
  exact ⟨c, Run.start.follow hfollow, of_decide_eq_true hφ⟩

end Semantics

section Order

structure Owned (good : Finset Lock → κ → Prop) (held : ι → Finset Lock)
    (c : System ι Lock σ κ) : Prop where
  good : ∀ i, good (held i) (c.threads i)
  owner : ∀ lock i, c.owner lock = some i ↔ lock ∈ held i

theorem Owned.unique {good : Finset Lock → κ → Prop} {held : ι → Finset Lock}
    {c : System ι Lock σ κ} (h : Owned good held c) {lock : Lock} {i j : ι} (hi : lock ∈ held i)
    (hj : lock ∈ held j) : i = j :=
  Option.some.inj (((h.owner lock i).mpr hi).symm.trans ((h.owner lock j).mpr hj))

theorem good_update [DecidableEq ι] {good : Finset Lock → κ → Prop} {held : ι → Finset Lock}
    {threads : ι → κ} (h : ∀ j, good (held j) (threads j)) (i : ι) {own : Finset Lock} {next : κ}
    (moved : good own next) (j : ι) :
    good (Function.update held i own j) (Function.update threads i next j) := by
  by_cases hji : j = i
  · subst hji
    simpa using moved
  · simpa [hji] using h j

theorem Owned.act [DecidableEq ι] {good : Finset Lock → κ → Prop} {held : ι → Finset Lock}
    {c : System ι Lock σ κ} (h : Owned good held c) {i : ι} {next : κ} {s : σ}
    (moved : good (held i) next) :
    Owned good held { c with shared := s, threads := Function.update c.threads i next } := by
  refine ⟨fun j => ?_, h.owner⟩
  have hgood := good_update h.good i moved j
  rwa [Function.update_eq_self] at hgood

variable [DecidableEq Lock]

/-- `good held point`: a thread that holds just these mutexes may be at this point,
takes only mutexes of a higher rank than all it holds, and gives back only what
it holds. -/
structure Ordered (instr : κ → Instr Lock χ σ κ) (rank : Lock → Nat)
    (allowed : System ι Lock σ κ → ι → χ → Prop) (good : Finset Lock → κ → Prop) : Prop where
  acquire : ∀ {held point lock next}, good held point → instr point = .acquire lock next →
    (∀ own ∈ held, rank own < rank lock) ∧ good (insert lock held) next
  release : ∀ {held point lock next}, good held point → instr point = .release lock next →
    lock ∈ held ∧ good (held.erase lock) next
  act : ∀ {held c i choice body next s}, good held (c.threads i) →
    instr (c.threads i) = .act body → allowed c i choice → body choice c.shared = some (next, s) →
    good held next

variable {instr : κ → Instr Lock χ σ κ} {rank : Lock → Nat}
  {allowed : System ι Lock σ κ → ι → χ → Prop} {good : Finset Lock → κ → Prop}
  {held : ι → Finset Lock} {c₀ c c' : System ι Lock σ κ} {i : ι}

theorem Owned.not_deadlocked [Finite Lock] (ordered : Ordered instr rank allowed good)
    (h : Owned good held c) (stuck : Set ι) : ¬ Deadlocked instr c stuck := by
  -- The holder of the awaited mutex of the highest rank would have to wait for one of a
  -- higher rank still.
  rintro ⟨⟨i, hi⟩, waits⟩
  let awaited : Set Lock := { lock | ∃ i ∈ stuck, ∃ j ∈ stuck, WaitsFor instr c i lock j }
  obtain ⟨lock, j, hj, hwait⟩ := waits i hi
  have hne : awaited.Nonempty := ⟨lock, i, hi, j, hj, hwait⟩
  obtain ⟨top, ⟨k, hk, l, hl, -, howner⟩, highest⟩ :=
    Set.exists_max_image awaited rank (Set.toFinite _) hne
  obtain ⟨next, m, hm, hnext⟩ := waits l hl
  obtain ⟨point, hpoint⟩ := Instr.awaited_eq_some hnext.1
  have hown : top ∈ held l := (h.owner top l).mp howner
  have hlower := (ordered.acquire (h.good l) hpoint).1 top hown
  have hhigher := highest next ⟨l, hl, m, hm, hnext⟩
  omega

section Steps

variable [DecidableEq ι]

theorem Owned.acquire (h : Owned good held c) {lock : Lock} {next : κ} (free : c.owner lock = none)
    (moved : good (insert lock (held i)) next) :
    Owned good (Function.update held i (insert lock (held i)))
      { c with
        owner := Function.update c.owner lock (some i)
        threads := Function.update c.threads i next } := by
  refine ⟨good_update h.good i moved, fun l j => ?_⟩
  have hfree : ∀ k, lock ∉ held k := fun k hk => by
    rw [(h.owner lock k).mpr hk] at free
    cases free
  by_cases hl : l = lock <;> by_cases hj : j = i
  · simp [hl, hj]
  · simp [hl, hj, hfree, Ne.symm hj]
  · simpa [hl, hj] using h.owner l i
  · simpa [hl, hj] using h.owner l j

theorem Owned.release (h : Owned good held c) {lock : Lock} {next : κ} (own : lock ∈ held i)
    (moved : good ((held i).erase lock) next) :
    Owned good (Function.update held i ((held i).erase lock))
      { c with
        owner := Function.update c.owner lock none
        threads := Function.update c.threads i next } := by
  refine ⟨good_update h.good i moved, fun l j => ?_⟩
  by_cases hl : l = lock <;> by_cases hj : j = i
  · simp [hl, hj]
  · have hother : lock ∉ held j := fun hmem => hj (h.unique hmem own)
    simp [hl, hj, hother]
  · simpa [hl, hj] using h.owner l i
  · simpa [hl, hj] using h.owner l j

theorem owned_step (ordered : Ordered instr rank allowed good) (h : Owned good held c)
    {choice : χ} (meets : allowed c i choice) (fires : fire instr c i choice = some c') :
    ∃ held', Owned good held' c' := by
  rcases fire_cases fires with ⟨lock, next, hinstr, free, rfl⟩ | ⟨lock, next, hinstr, -, rfl⟩ |
    ⟨body, next, s, hinstr, hbody, rfl⟩
  · exact ⟨_, h.acquire free (ordered.acquire (h.good i) hinstr).2⟩
  · obtain ⟨own, moved⟩ := ordered.release (h.good i) hinstr
    exact ⟨_, h.release own moved⟩
  · exact ⟨held, h.act (ordered.act (h.good i) hinstr meets hbody)⟩

theorem Run.owned (ordered : Ordered instr rank allowed good) (start : Owned good held c₀)
    (run : Run instr allowed c₀ c) : ∃ held', Owned good held' c := by
  induction run with
  | start => exact ⟨held, start⟩
  | step run i choice meets fires ih =>
    obtain ⟨held', howned⟩ := ih
    exact owned_step ordered howned meets fires

theorem Run.not_deadlocked [Finite Lock] (ordered : Ordered instr rank allowed good)
    (start : Owned good held c₀) (run : Run instr allowed c₀ c) (stuck : Set ι) :
    ¬ Deadlocked instr c stuck := by
  obtain ⟨held', howned⟩ := run.owned ordered start
  exact howned.not_deadlocked ordered stuck

end Steps

end Order

end SecureCore.MutexThreads
