import Mathlib.Logic.Function.Basic
import Mathlib.Logic.Relation
import Mathlib.Tactic

/-! Programs over a shared state, cut at the points where another thread may run.
Each `step` is one critical section: it reads the shared state and replaces it
at once, and the rest of the program may depend on what the section read.
`run` executes a program alone; a `Config` interleaves any family of programs
and keeps the executed sections as a history. Blocking is not represented:
a section is entered only when it can be executed to its end. -/

namespace SecureCore.AtomicProgram

variable {ι Label σ α β γ : Type}

inductive Program (Label σ α : Type) where
  | done (value : α)
  | step (label : Label) (update : σ → σ) (next : σ → Program Label σ α)

namespace Program

def bind : Program Label σ α → (α → Program Label σ β) → Program Label σ β
  | done value, f => f value
  | step label update next, f => step label update (fun s => (next s).bind f)

instance : Monad (Program Label σ) where
  pure := done
  bind := bind

theorem bind_bind (p : Program Label σ α) (f : α → Program Label σ β)
    (g : β → Program Label σ γ) : (p.bind f).bind g = p.bind (fun value => (f value).bind g) := by
  induction p with
  | done value => rfl
  | step label update next ih =>
    simp only [bind]
    congr 1
    funext s
    exact ih s

theorem bind_done (p : Program Label σ α) : p.bind done = p := by
  induction p with
  | done value => rfl
  | step label update next ih =>
    simp only [bind]
    congr 1
    funext s
    exact ih s

instance : LawfulMonad (Program Label σ) :=
  LawfulMonad.mk' (Program Label σ) bind_done (fun _ _ => rfl) bind_bind

def atomic (label : Label) (body : σ → α × σ) : Program Label σ α :=
  step label (fun s => (body s).2) (fun s => done (body s).1)

def run : Program Label σ α → σ → α × σ
  | done value, s => (value, s)
  | step _ update next, s => (next s).run (update s)

@[simp] theorem run_pure (value : α) (s : σ) :
    (pure value : Program Label σ α).run s = (value, s) := rfl

@[simp] theorem run_atomic (label : Label) (body : σ → α × σ) (s : σ) :
    (atomic label body).run s = body s := rfl

@[simp] theorem run_bind (p : Program Label σ α) (f : α → Program Label σ β) (s : σ) :
    (p >>= f).run s = (f (p.run s).1).run (p.run s).2 := by
  change (p.bind f).run s = _
  induction p generalizing s with
  | done value => rfl
  | step label update next ih => exact ih s (update s)

@[simp] theorem run_map (g : α → β) (p : Program Label σ α) (s : σ) :
    (g <$> p).run s = (g (p.run s).1, (p.run s).2) := by
  rw [map_eq_pure_bind, run_bind, run_pure]

def result? : Program Label σ α → Option α
  | done value => some value
  | step _ _ _ => none

theorem result?_eq_some {p : Program Label σ α} {value : α} :
    p.result? = some value ↔ p = done value := by
  cases p <;> simp [result?]

/-- Every section of the program, on every control path, relates the state it
finds to the state it leaves by `φ`. -/
def AllSteps (φ : Label → σ → σ → Prop) : Program Label σ α → Prop
  | done _ => True
  | step label update next => (∀ s, φ label s (update s)) ∧ ∀ s, (next s).AllSteps φ

theorem AllSteps.pure (φ : Label → σ → σ → Prop) (value : α) :
    (pure value : Program Label σ α).AllSteps φ := trivial

theorem AllSteps.atomic {φ : Label → σ → σ → Prop} {label : Label} {body : σ → α × σ}
    (h : ∀ s, φ label s (body s).2) : (atomic label body).AllSteps φ :=
  ⟨h, fun _ => trivial⟩

theorem AllSteps.bind {φ : Label → σ → σ → Prop} {p : Program Label σ α}
    {f : α → Program Label σ β} (hp : p.AllSteps φ) (hf : ∀ value, (f value).AllSteps φ) :
    (p >>= f).AllSteps φ := by
  change (p.bind f).AllSteps φ
  induction p with
  | done value => exact hf value
  | step label update next ih => exact ⟨hp.1, fun s => ih s (hp.2 s)⟩

theorem AllSteps.map {φ : Label → σ → σ → Prop} {p : Program Label σ α} (g : α → β)
    (hp : p.AllSteps φ) : (p >>= fun value => Pure.pure (g value)).AllSteps φ :=
  hp.bind (fun value => AllSteps.pure φ (g value))

/-- Every section keeps the invariant, and on states that meet it the program comes
only to values of `post`. -/
def Safe (inv : σ → Prop) (post : α → Prop) : Program Label σ α → Prop
  | done value => post value
  | step _ update next => ∀ s, inv s → inv (update s) ∧ (next s).Safe inv post

theorem Safe.pure {inv : σ → Prop} {post : α → Prop} {value : α} (h : post value) :
    (pure value : Program Label σ α).Safe inv post := h

theorem Safe.atomic {inv : σ → Prop} {post : α → Prop} {label : Label} {body : σ → α × σ}
    (h : ∀ s, inv s → inv (body s).2 ∧ post (body s).1) : (atomic label body).Safe inv post := h

theorem Safe.bind {inv : σ → Prop} {mid : α → Prop} {post : β → Prop} {p : Program Label σ α}
    {f : α → Program Label σ β} (hp : p.Safe inv mid)
    (hf : ∀ value, mid value → (f value).Safe inv post) : (p >>= f).Safe inv post := by
  change (p.bind f).Safe inv post
  induction p with
  | done value => exact hf value hp
  | step label update next ih => exact fun s hs => ⟨(hp s hs).1, ih s (hp s hs).2⟩

theorem AllSteps.safe {φ : Label → σ → σ → Prop} {inv : σ → Prop} {post : α → Prop}
    {p : Program Label σ α} (hp : p.AllSteps φ)
    (keep : ∀ label s s', φ label s s' → inv s → inv s') (any : ∀ value, post value) :
    p.Safe inv post := by
  induction p with
  | done value => exact any value
  | step label update next ih => exact fun s hs => ⟨keep _ _ _ (hp.1 s) hs, ih s (hp.2 s)⟩

def Lockstep (R : σ → σ → Prop) (p : Program Label σ α) : Prop :=
  ∀ s t, R s t → (p.run s).1 = (p.run t).1 ∧ R (p.run s).2 (p.run t).2

theorem Lockstep.pure (R : σ → σ → Prop) (value : α) :
    (pure value : Program Label σ α).Lockstep R :=
  fun _ _ h => ⟨rfl, h⟩

theorem Lockstep.bind {R : σ → σ → Prop} {p : Program Label σ α} {f : α → Program Label σ β}
    (hp : p.Lockstep R) (hf : ∀ value, (f value).Lockstep R) : (p >>= f).Lockstep R := by
  intro s t h
  obtain ⟨hvalue, hrest⟩ := hp s t h
  rw [run_bind, run_bind, hvalue]
  exact hf _ _ _ hrest

end Program

/-- An executed section: who ran it, and the shared state around it. -/
structure Event (ι Label σ : Type) where
  thread : ι
  label : Label
  before : σ
  after : σ

structure Config (ι Label σ α : Type) where
  shared : σ
  threads : ι → Program Label σ α
  history : List (Event ι Label σ)

namespace Config

def start (s : σ) (threads : ι → Program Label σ α) : Config ι Label σ α :=
  ⟨s, threads, []⟩

variable [DecidableEq ι]

/-- Thread `i` executes its next section on the present shared state. -/
inductive Step : Config ι Label σ α → Config ι Label σ α → Prop where
  | fire {c : Config ι Label σ α} (i : ι) {label : Label} {update : σ → σ}
      {next : σ → Program Label σ α} (enabled : c.threads i = .step label update next) :
      Step c
        { shared := update c.shared
          threads := Function.update c.threads i (next c.shared)
          history := c.history ++ [⟨i, label, c.shared, update c.shared⟩] }

def Reachable (s : σ) (threads : ι → Program Label σ α) (c : Config ι Label σ α) : Prop :=
  Relation.ReflTransGen Step (start s threads) c

def advance (c : Config ι Label σ α) (i : ι) : Config ι Label σ α :=
  match c.threads i with
  | .done _ => c
  | .step label update next =>
    { shared := update c.shared
      threads := Function.update c.threads i (next c.shared)
      history := c.history ++ [⟨i, label, c.shared, update c.shared⟩] }

def schedule (c : Config ι Label σ α) (order : List ι) : Config ι Label σ α :=
  order.foldl advance c

theorem advance_of_step {c : Config ι Label σ α} {i : ι} {label : Label} {update : σ → σ}
    {next : σ → Program Label σ α} (h : c.threads i = .step label update next) :
    c.advance i =
      { shared := update c.shared
        threads := Function.update c.threads i (next c.shared)
        history := c.history ++ [⟨i, label, c.shared, update c.shared⟩] } := by
  rw [advance, h]

theorem advance_of_done {c : Config ι Label σ α} {i : ι} {value : α}
    (h : c.threads i = .done value) : c.advance i = c := by
  rw [advance, h]

theorem advance_step (c : Config ι Label σ α) (i : ι) :
    Relation.ReflTransGen Step c (c.advance i) := by
  unfold advance
  split
  · exact .refl
  · exact .single (.fire i ‹_›)

theorem reachable_schedule (s : σ) (threads : ι → Program Label σ α) (order : List ι) :
    Reachable s threads ((start s threads).schedule order) := by
  suffices h : ∀ c : Config ι Label σ α, Relation.ReflTransGen Step c (c.schedule order) from
    h (start s threads)
  induction order with
  | nil => exact fun _ => .refl
  | cons i order ih => exact fun c => (advance_step c i).trans (ih (c.advance i))

theorem Reachable.fire {s : σ} {threads : ι → Program Label σ α} {c : Config ι Label σ α}
    (h : Reachable s threads c) (i : ι) {label : Label} {update : σ → σ}
    {next : σ → Program Label σ α} (enabled : c.threads i = .step label update next) :
    Reachable s threads
      { shared := update c.shared
        threads := Function.update c.threads i (next c.shared)
        history := c.history ++ [⟨i, label, c.shared, update c.shared⟩] } :=
  Relation.ReflTransGen.tail h (.fire i enabled)

end Config

inductive Path : Program Label σ α → List (Event ι Label σ) → Program Label σ α → Prop where
  | nil (p : Program Label σ α) : Path p [] p
  | cons {label : Label} {update : σ → σ} {next : σ → Program Label σ α}
      {q : Program Label σ α} {events : List (Event ι Label σ)} (i : ι) (s : σ)
      (rest : Path (next s) events q) :
      Path (.step label update next) (⟨i, label, s, update s⟩ :: events) q

theorem Path.snoc {p : Program Label σ α} {events : List (Event ι Label σ)}
    {label : Label} {update : σ → σ} {next : σ → Program Label σ α}
    (h : Path p events (.step label update next)) (i : ι) (s : σ) :
    Path p (events ++ [⟨i, label, s, update s⟩]) (next s) := by
  generalize hq : Program.step label update next = q at h
  induction h with
  | nil p =>
    subst hq
    exact .cons i s (.nil _)
  | cons j t rest ih => exact .cons j t (ih hq)

theorem Path.of_done {value : α} {events : List (Event ι Label σ)} {q : Program Label σ α}
    (h : Path (.done value) events q) : events = [] ∧ q = .done value := by
  cases h
  exact ⟨rfl, rfl⟩

theorem Path.of_step {label : Label} {update : σ → σ} {next : σ → Program Label σ α}
    {events : List (Event ι Label σ)} {value : α}
    (h : Path (.step label update next) events (.done value)) :
    ∃ i s rest, events = ⟨i, label, s, update s⟩ :: rest ∧
      Path (next s) rest (.done value) := by
  cases h with
  | cons i s rest => exact ⟨i, s, _, rfl, rest⟩

theorem Path.of_pure {value result : α} {events : List (Event ι Label σ)}
    (h : Path (pure value) events (.done result)) : events = [] ∧ value = result := by
  obtain ⟨hnil, hdone⟩ := Path.of_done h
  exact ⟨hnil, (Program.done.inj hdone).symm⟩

theorem Path.of_atomic_bind {label : Label} {body : σ → β × σ} {f : β → Program Label σ α}
    {events : List (Event ι Label σ)} {result : α}
    (h : Path (Program.atomic label body >>= f) events (.done result)) :
    ∃ i s rest, events = ⟨i, label, s, (body s).2⟩ :: rest ∧
      Path (f (body s).1) rest (.done result) :=
  Path.of_step h

def sectionAt [DecidableEq Label] (label : Label) (calls : List (Event ι Label σ)) :
    Option (Event ι Label σ) :=
  calls.find? (fun event => event.label = label)

def Chained : σ → List (Event ι Label σ) → σ → Prop
  | s, [], t => s = t
  | s, event :: rest, t => event.before = s ∧ Chained event.after rest t

theorem chained_append {s u : σ} {xs ys : List (Event ι Label σ)} :
    Chained s (xs ++ ys) u ↔ ∃ t, Chained s xs t ∧ Chained t ys u := by
  induction xs generalizing s with
  | nil => simp [Chained]
  | cons event rest ih =>
    simp only [List.cons_append, Chained, ih]
    constructor
    · rintro ⟨hb, t, hx, hy⟩
      exact ⟨t, ⟨hb, hx⟩, hy⟩
    · rintro ⟨t, ⟨hb, hx⟩, hy⟩
      exact ⟨hb, t, hx, hy⟩

theorem Chained.component_eq {f : σ → β} {s t : σ} {events : List (Event ι Label σ)}
    (h : Chained s events t) (frame : ∀ event ∈ events, f event.after = f event.before) :
    f t = f s := by
  induction events generalizing s with
  | nil => rw [show s = t from h]
  | cons event rest ih =>
    obtain ⟨hb, hrest⟩ := h
    rw [ih hrest (fun e he => frame e (List.mem_cons_of_mem _ he)),
      frame event List.mem_cons_self, hb]

namespace Config

variable [DecidableEq ι] {s : σ} {threads : ι → Program Label σ α} {c : Config ι Label σ α}

def own (i : ι) (history : List (Event ι Label σ)) : List (Event ι Label σ) :=
  history.filter (fun event => event.thread = i)

theorem own_eq_cons {i : ι} {history rest : List (Event ι Label σ)} {event : Event ι Label σ}
    (h : own i history = event :: rest) :
    ∃ xs ys, history = xs ++ event :: ys ∧ event.thread = i ∧ own i ys = rest := by
  obtain ⟨xs, ys, rfl, -, hevent, hrest⟩ := List.filter_eq_cons_iff.mp h
  exact ⟨xs, ys, rfl, by simpa using hevent, hrest⟩

theorem Reachable.path (h : Reachable s threads c) (i : ι) :
    Path (threads i) (own i c.history) (c.threads i) := by
  induction h with
  | refl => exact .nil _
  | tail _ step ih =>
    cases step with
    | fire j enabled =>
      by_cases hij : j = i
      · subst hij
        rw [enabled] at ih
        simpa [own] using ih.snoc j _
      · simpa [own, hij, Function.update_of_ne (Ne.symm hij)] using ih

theorem Reachable.chained (h : Reachable s threads c) : Chained s c.history c.shared := by
  induction h with
  | refl => rfl
  | tail _ step ih =>
    cases step with
    | fire j enabled => exact chained_append.mpr ⟨_, ih, rfl, rfl⟩

theorem Reachable.allSteps {φ : Label → σ → σ → Prop}
    (h : Reachable s threads c) (hp : ∀ i, (threads i).AllSteps φ) :
    (∀ i, (c.threads i).AllSteps φ) ∧
      ∀ event ∈ c.history, φ event.label event.before event.after := by
  induction h with
  | refl => exact ⟨hp, by simp [start]⟩
  | @tail b _ _ step ih =>
    cases step with
    | @fire j label update next enabled =>
      have hj : (Program.step label update next).AllSteps φ := enabled ▸ ih.1 j
      refine ⟨fun i => ?_, fun event he => ?_⟩
      · by_cases hij : i = j
        · subst hij
          simpa using hj.2 b.shared
        · simpa [hij] using ih.1 i
      · rcases List.mem_append.mp he with he | he
        · exact ih.2 event he
        · obtain rfl := List.mem_singleton.mp he
          exact hj.1 b.shared

theorem Reachable.safe {inv : σ → Prop} {post : ι → α → Prop} (h : Reachable s threads c)
    (base : inv s) (hp : ∀ i, (threads i).Safe inv (post i)) :
    inv c.shared ∧ ∀ i, (c.threads i).Safe inv (post i) := by
  induction h with
  | refl => exact ⟨base, hp⟩
  | @tail b _ _ step ih =>
    cases step with
    | @fire j label update next enabled =>
      have hj : (Program.step label update next).Safe inv (post j) := enabled ▸ ih.2 j
      refine ⟨(hj b.shared ih.1).1, fun i => ?_⟩
      by_cases hij : i = j
      · subst hij
        simpa using (hj b.shared ih.1).2
      · simpa [hij] using ih.2 i

end Config

end SecureCore.AtomicProgram
