import SecureCore.AtomicProgram
import SecureCore.LockedProgram

/-! Programs over mutexes against programs of atomic sections. The shared state is
divided into regions, one for each mutex and one that no mutex protects. A thread
that changes a region only while it holds the mutex looks to the others as if each
of its critical sections happened at once, at one of its accesses: before and after
that access it works on regions nobody else can see.

`Sim` relates what is left of a thread to what is left of its abstract program, in
whatever states the other threads leave; `Refines` is the judgement for whole
program parts, closed under the ways to build them. -/

namespace SecureCore.LockReduction

open AtomicProgram MutexThreads LockedProgram LockedProgram.Locked

variable {ι Lock Label σ α β γ δ : Type}

/-- States that agree on a region, for each mutex and for what no mutex protects. -/
structure Regions (Lock σ : Type) where
  guarded : Lock → σ → σ → Prop
  bare : σ → σ → Prop
  guarded_equiv : ∀ lock, Equivalence (guarded lock)
  bare_equiv : Equivalence bare
  ext : ∀ {s t}, (∀ lock, guarded lock s t) → bare s t → s = t

namespace Regions

variable (R : Regions Lock σ)

def SameOn (held : Finset Lock) (s t : σ) : Prop := ∀ lock ∈ held, R.guarded lock s t

def Within (held : Finset Lock) (s t : σ) : Prop := ∀ lock, lock ∉ held → R.guarded lock s t

variable {R} {held : Finset Lock} {s t u : σ}

theorem SameOn.refl : R.SameOn held s s := fun lock _ => (R.guarded_equiv lock).refl s

theorem SameOn.symm (h : R.SameOn held s t) : R.SameOn held t s :=
  fun lock hlock => (R.guarded_equiv lock).symm (h lock hlock)

theorem SameOn.trans (h : R.SameOn held s t) (h' : R.SameOn held t u) : R.SameOn held s u :=
  fun lock hlock => (R.guarded_equiv lock).trans (h lock hlock) (h' lock hlock)

theorem Within.refl : R.Within held s s := fun lock _ => (R.guarded_equiv lock).refl s

theorem Within.sameOn_of_disjoint {other : Finset Lock} (h : R.Within held s t)
    (apart : ∀ lock ∈ other, lock ∉ held) : R.SameOn other s t :=
  fun lock hlock => h lock (apart lock hlock)

end Regions

section Simulation

variable [DecidableEq Lock] (R : Regions Lock σ)

/-- The thread's remaining program `p`, with its mutexes and the two shared states as
it last saw them, follows the abstract program `q`. Between two of its own steps the
other threads may change what it does not hold. An access of the thread is either
invisible or the next section of `q`. -/
def Sim (post : Finset Lock → σ → σ → α → Program Label σ β → Prop) :
    Locked Lock σ α → Finset Lock → σ → σ → Program Label σ β → Prop
  | done value, held, s, t, q => post held s t value q
  | acquire lock next, held, s, t, q => lock ∉ held ∧ ∀ s' t', R.SameOn held s s' →
      R.SameOn held t t' → R.guarded lock s' t' → Sim post next (insert lock held) s' t' q
  | release lock next, held, s, t, q => lock ∈ held ∧ R.guarded lock s t ∧
      Sim post next (held.erase lock) s t q
  | access update next, held, s, t, q => ∀ s' t', R.SameOn held s s' → R.SameOn held t t' →
      R.bare s' t' → R.Within held s' (update s') ∧
        (R.bare s' (update s') ∧ Sim post (next s') held (update s') t' q ∨
          ∃ label effect rest, q = .step label effect rest ∧ R.Within held t' (effect t') ∧
            R.bare (update s') (effect t') ∧
            Sim post (next s') held (update s') (effect t') (rest t'))

/-- Started in agreement on its mutexes, the part ends so, with the abstract part at
its end and the same value. -/
def Returns (held : Finset Lock) (left : Finset Lock) (s t : σ) (value : α)
    (q : Program Label σ α) : Prop :=
  left = held ∧ R.SameOn held s t ∧ q = .done value

def Refines (held : Finset Lock) (p : Locked Lock σ α) (q : Program Label σ α) : Prop :=
  ∀ s t, R.SameOn held s t → Sim R (Returns R held) p held s t q

variable {R} {post : Finset Lock → σ → σ → α → Program Label σ β → Prop} {held : Finset Lock}
  {s t : σ} {q : Program Label σ β}

theorem Sim.bind {post' : Finset Lock → σ → σ → γ → Program Label σ δ → Prop}
    {p : Locked Lock σ α} {f : α → Locked Lock σ γ} {k : β → Program Label σ δ}
    (hp : Sim R post p held s t q)
    (hf : ∀ held s t value q, post held s t value q → Sim R post' (f value) held s t (q >>= k)) :
    Sim R post' (p >>= f) held s t (q >>= k) := by
  change Sim R post' (p.bind f) held s t (q.bind k)
  induction p generalizing held s t q with
  | done value => exact hf _ _ _ _ _ hp
  | acquire lock next ih =>
    exact ⟨hp.1, fun s' t' hs ht hsame => ih (hp.2 s' t' hs ht hsame)⟩
  | release lock next ih => exact ⟨hp.1, hp.2.1, ih hp.2.2⟩
  | access update next ih =>
    intro s' t' hs ht hbare
    obtain ⟨hwithin, hstep⟩ := hp s' t' hs ht hbare
    refine ⟨hwithin, ?_⟩
    rcases hstep with ⟨hkept, hrest⟩ | ⟨label, effect, rest, rfl, heffect, hbare, hrest⟩
    · exact Or.inl ⟨hkept, ih s' hrest⟩
    · exact Or.inr ⟨label, effect, fun s => (rest s).bind k, rfl, heffect, hbare, ih s' hrest⟩

theorem Sim.effect {body : σ → γ × σ} {f : γ → Locked Lock σ α} {label : Label}
    {whole : σ → δ × σ} {k : δ → Program Label σ β}
    (h : ∀ s' t', R.SameOn held s s' → R.SameOn held t t' → R.bare s' t' →
      R.Within held s' (body s').2 ∧ R.Within held t' (whole t').2 ∧
      R.bare (body s').2 (whole t').2 ∧
      Sim R post (f (body s').1) held (body s').2 (whole t').2 (k (whole t').1)) :
    Sim R post (atomic body >>= f) held s t (Program.atomic label whole >>= k) := by
  intro s' t' hs ht hbare
  obtain ⟨hwithin, heffect, hbare, hrest⟩ := h s' t' hs ht hbare
  exact ⟨hwithin, Or.inr ⟨label, _, _, rfl, heffect, hbare, hrest⟩⟩

theorem Sim.effect_guarded {lock : Lock} {body : σ → γ × σ} {f : γ → Locked Lock σ α}
    {label : Label} {whole : σ → δ × σ} {k : δ → Program Label σ β} (free : lock ∉ held)
    (h : ∀ s' t', R.SameOn held s s' → R.SameOn held t t' → R.guarded lock s' t' → R.bare s' t' →
      R.Within (insert lock held) s' (body s').2 ∧ R.Within (insert lock held) t' (whole t').2 ∧
      R.guarded lock (body s').2 (whole t').2 ∧ R.bare (body s').2 (whole t').2 ∧
      Sim R post (f (body s').1) held (body s').2 (whole t').2 (k (whole t').1)) :
    Sim R post (Locked.guarded lock (atomic body) >>= f) held s t
      (Program.atomic label whole >>= k) := by
  refine ⟨free, fun s₁ t₁ hs₁ ht₁ hlock s' t' hs ht hbare => ?_⟩
  have hs' : R.SameOn held s s' :=
    hs₁.trans fun l hl => hs l (Finset.mem_insert_of_mem hl)
  have ht' : R.SameOn held t t' :=
    ht₁.trans fun l hl => ht l (Finset.mem_insert_of_mem hl)
  have hlock' : R.guarded lock s' t' :=
    (R.guarded_equiv lock).trans
      ((R.guarded_equiv lock).symm (hs lock (Finset.mem_insert_self _ _)))
      ((R.guarded_equiv lock).trans hlock (ht lock (Finset.mem_insert_self _ _)))
  obtain ⟨hwithin, heffect, hafter, hbare, hrest⟩ := h s' t' hs' ht' hlock' hbare
  refine ⟨hwithin, Or.inr ⟨label, _, _, rfl, heffect, hbare, ?_⟩⟩
  refine ⟨Finset.mem_insert_self _ _, hafter, ?_⟩
  rw [Finset.erase_insert free]
  exact hrest

def Stable (R : Regions Lock σ) (post : Finset Lock → σ → σ → α → Program Label σ β → Prop) :
    Prop :=
  ∀ held s t s' t' value q, R.SameOn held s s' → R.SameOn held t t' →
    post held s t value q → post held s' t' value q

omit [DecidableEq Lock] in
theorem Returns.stable (held : Finset Lock) :
    Stable R (Returns R held : Finset Lock → σ → σ → α → Program Label σ α → Prop) := by
  rintro left s t s' t' value q hs ht ⟨rfl, hsame, rfl⟩
  exact ⟨rfl, hs.symm.trans (hsame.trans ht), rfl⟩

theorem Sim.stable {p : Locked Lock σ α} (hp : Sim R post p held s t q) (posts : Stable R post)
    {s' t' : σ} (hs : R.SameOn held s s') (ht : R.SameOn held t t') :
    Sim R post p held s' t' q := by
  induction p generalizing held with
  | done value => exact posts _ _ _ _ _ _ _ hs ht hp
  | acquire lock next ih =>
    exact ⟨hp.1, fun s'' t'' hs' ht' hsame => hp.2 s'' t'' (hs.trans hs') (ht.trans ht') hsame⟩
  | release lock next ih =>
    obtain ⟨hmem, hsame, hrest⟩ := hp
    refine ⟨hmem, ?_, ih hrest (fun l hl => hs l (Finset.mem_of_mem_erase hl))
      (fun l hl => ht l (Finset.mem_of_mem_erase hl))⟩
    exact (R.guarded_equiv lock).trans ((R.guarded_equiv lock).symm (hs lock hmem))
      ((R.guarded_equiv lock).trans hsame (ht lock hmem))
  | access update next ih =>
    intro s'' t'' hs' ht' hbare
    exact hp s'' t'' (hs.trans hs') (ht.trans ht') hbare

theorem Sim.read {get : σ → γ} {f : γ → Locked Lock σ α} (posts : Stable R post)
    (same : ∀ s s', R.SameOn held s s' → get s = get s')
    (h : Sim R post (f (get s)) held s t q) :
    Sim R post (atomic (fun s => (get s, s)) >>= f) held s t q := by
  intro s' t' hs ht _
  refine ⟨.refl, Or.inl ⟨R.bare_equiv.refl s', ?_⟩⟩
  change Sim R post (f (get s')) held s' t' q
  rw [← same s s' hs]
  exact h.stable posts hs ht

/-- An update that stays within what is held, and depends on nothing else. -/
structure Hidden (R : Regions Lock σ) (held : Finset Lock) (update : σ → σ) : Prop where
  within : ∀ s, R.Within held s (update s)
  bare : ∀ s, R.bare s (update s)
  same : ∀ s s', R.SameOn held s s' → R.SameOn held (update s) (update s')

theorem Sim.write {update : σ → σ} {f : Unit → Locked Lock σ α} (posts : Stable R post)
    (hidden : Hidden R held update) (h : Sim R post (f ()) held (update s) t q) :
    Sim R post (atomic (fun s => ((), update s)) >>= f) held s t q := by
  intro s' t' hs ht _
  refine ⟨hidden.within s', Or.inl ⟨hidden.bare s', ?_⟩⟩
  exact h.stable posts (hidden.same s s' hs) ht

end Simulation

section Judgement

variable [DecidableEq Lock] {R : Regions Lock σ} {held : Finset Lock}

theorem Refines.pure (value : α) :
    Refines R held (pure value : Locked Lock σ α) (pure value : Program Label σ α) :=
  fun _ _ hsame => ⟨rfl, hsame, rfl⟩

theorem Refines.bind {p : Locked Lock σ α} {q : Program Label σ α} {f : α → Locked Lock σ β}
    {k : α → Program Label σ β} (hp : Refines R held p q)
    (hf : ∀ value, Refines R held (f value) (k value)) :
    Refines R held (p >>= f) (q >>= k) := by
  intro s t hsame
  refine (hp s t hsame).bind fun left s t value rest hpost => ?_
  obtain ⟨rfl, hsame, rfl⟩ := hpost
  exact hf value s t hsame

theorem Refines.guarded {lock : Lock} {p : Locked Lock σ α} {q : Program Label σ α}
    (free : lock ∉ held) (hp : Refines R (insert lock held) p q) :
    Refines R held (guarded lock p) q := by
  intro s t hsame
  refine ⟨free, fun s' t' hs ht hlock => ?_⟩
  have hinner : R.SameOn (insert lock held) s' t' := by
    intro l hl
    rcases Finset.mem_insert.mp hl with rfl | hl
    · exact hlock
    · exact (hs.symm.trans (hsame.trans ht)) l hl
  have hbody : Sim R (Returns R held) (p >>= fun value => release lock (done value))
      (insert lock held) s' t' (q >>= Program.done) := by
    refine (hp s' t' hinner).bind fun left s t value rest hpost => ?_
    obtain ⟨rfl, hsame, rfl⟩ := hpost
    refine ⟨Finset.mem_insert_self _ _, hsame _ (Finset.mem_insert_self _ _), ?_, ?_, rfl⟩
    · exact Finset.erase_insert free
    · exact fun l hl => hsame l (Finset.mem_insert_of_mem hl)
  change Sim R _ _ _ s' t' (q.bind .done) at hbody
  rw [Program.bind_done] at hbody
  exact hbody

theorem Refines.atomic {label : Label} {body : σ → α × σ}
    (within : ∀ s, R.Within held s (body s).2)
    (same : ∀ s t, R.SameOn held s t → R.bare s t → (body s).1 = (body t).1 ∧
      R.SameOn held (body s).2 (body t).2 ∧ R.bare (body s).2 (body t).2) :
    Refines R held (atomic body) (Program.atomic label body) := by
  intro s t hsame s' t' hs ht hbare
  have hsame' : R.SameOn held s' t' := hs.symm.trans (hsame.trans ht)
  obtain ⟨hvalue, hheld, hbare⟩ := same s' t' hsame' hbare
  refine ⟨within s', Or.inr ⟨label, _, _, rfl, within t', hbare, rfl, hheld, ?_⟩⟩
  rw [hvalue]

theorem Refines.read {label : Label} {get : σ → α}
    (same : ∀ s t, R.SameOn held s t → get s = get t) :
    Refines R held (Locked.atomic fun s => (get s, s))
      (Program.atomic label fun s => (get s, s)) :=
  Refines.atomic (fun _ => .refl) fun s t hsame hbare => ⟨same s t hsame, hsame, hbare⟩

theorem Refines.write {label : Label} {update : σ → σ} (hidden : Hidden R held update)
    (value : α) : Refines R held (Locked.atomic fun s => (value, update s))
      (Program.atomic label fun s => (value, update s)) :=
  Refines.atomic hidden.within fun s t hsame hbare => ⟨rfl, hidden.same s t hsame,
    R.bare_equiv.trans (R.bare_equiv.symm (hidden.bare s))
      (R.bare_equiv.trans hbare (hidden.bare t))⟩

end Judgement

def code : Locked Lock σ α → Instr Lock Unit σ (Locked Lock σ α)
  | done _ => .halt
  | acquire lock next => .acquire lock next
  | release lock next => .release lock next
  | access update next => .act fun _ s => some (next s, update s)

def finished? : Locked Lock σ α → Option α
  | done value => some value
  | _ => none

theorem finished?_eq_some {p : Locked Lock σ α} {value : α} :
    finished? p = some value ↔ p = .done value := by
  cases p <;> simp [finished?]

def launch (s : σ) (threads : ι → Locked Lock σ α) : System ι Lock σ (Locked Lock σ α) where
  shared := s
  owner := fun _ => none
  threads := threads

section Soundness

variable [DecidableEq Lock] [DecidableEq ι] (R : Regions Lock σ)

/-- A state of the threads and a state of the abstract programs: the regions that
nobody holds agree, and each thread follows its program. -/
structure Coupled (held : ι → Finset Lock) (c : System ι Lock σ (Locked Lock σ α))
    (d : Config ι Label σ α) : Prop where
  owned : Owned (fun _ _ => True) held c
  free : ∀ lock, c.owner lock = none → R.guarded lock c.shared d.shared
  bare : R.bare c.shared d.shared
  follows : ∀ i, Sim R (Returns R ∅) (c.threads i) (held i) c.shared d.shared (d.threads i)

variable {R} {held : ι → Finset Lock} {c c' : System ι Lock σ (Locked Lock σ α)}
  {d : Config ι Label σ α} {i : ι}

omit [DecidableEq ι] in
theorem Coupled.follows_other (h : Coupled R held c d) {j : ι} (hj : j ≠ i) {s t : σ}
    (hs : R.Within (held i) c.shared s) (ht : R.Within (held i) d.shared t) :
    Sim R (Returns R ∅) (c.threads j) (held j) s t (d.threads j) := by
  have hapart : ∀ lock ∈ held j, lock ∉ held i := fun lock hlock hown =>
    hj (h.owned.unique hlock hown)
  exact (h.follows j).stable (Returns.stable ∅) (hs.sameOn_of_disjoint hapart)
    (ht.sameOn_of_disjoint hapart)

omit [DecidableEq ι] in
theorem Coupled.free_after (h : Coupled R held c d) {lock : Lock} (hfree : c.owner lock = none)
    {s t : σ} (hs : R.Within (held i) c.shared s) (ht : R.Within (held i) d.shared t) :
    R.guarded lock s t := by
  have hout : lock ∉ held i := fun hmem => by
    rw [(h.owned.owner lock i).mpr hmem] at hfree
    cases hfree
  exact (R.guarded_equiv lock).trans ((R.guarded_equiv lock).symm (hs lock hout))
    ((R.guarded_equiv lock).trans (h.free lock hfree) (ht lock hout))

theorem Coupled.step (h : Coupled R held c d) {choice : Unit}
    (fires : fire code c i choice = some c') :
    ∃ held' d', Relation.ReflTransGen Config.Step d d' ∧ Coupled R held' c' d' := by
  have hi := h.follows i
  rcases fire_cases fires with ⟨lock, next, hinstr, hfree, rfl⟩ |
    ⟨lock, next, hinstr, hown, rfl⟩ | ⟨body, next, s, hinstr, hbody, rfl⟩
  · -- The mutex was free, so its region agrees.
    cases hp : c.threads i with
    | acquire taken rest =>
      rw [hp] at hinstr hi
      cases hinstr
      refine ⟨_, d, .refl, h.owned.acquire hfree trivial, fun l hl => ?_, h.bare, fun j => ?_⟩
      · by_cases hne : l = lock
        · simp [hne] at hl
        · exact h.free l (by simpa [hne] using hl)
      · by_cases hj : j = i
        · subst hj
          simpa using hi.2 _ _ .refl .refl (h.free lock hfree)
        · simpa [hj] using h.follows j
    | done => rw [hp] at hinstr; cases hinstr
    | release => rw [hp] at hinstr; cases hinstr
    | access => rw [hp] at hinstr; cases hinstr
  · cases hp : c.threads i with
    | release given rest =>
      rw [hp] at hinstr hi
      cases hinstr
      obtain ⟨hmem, hsame, hrest⟩ := hi
      refine ⟨_, d, .refl, h.owned.release hmem trivial, fun l hl => ?_, h.bare, fun j => ?_⟩
      · by_cases hne : l = lock
        · rw [hne]
          exact hsame
        · exact h.free l (by simpa [hne] using hl)
      · by_cases hj : j = i
        · subst hj
          simpa using hrest
        · simpa [hj] using h.follows j
    | done => rw [hp] at hinstr; cases hinstr
    | acquire => rw [hp] at hinstr; cases hinstr
    | access => rw [hp] at hinstr; cases hinstr
  · cases hp : c.threads i with
    | access update rest =>
      rw [hp] at hinstr hi
      cases hinstr
      cases hbody
      obtain ⟨hwithin, hstep⟩ := hi _ _ .refl .refl h.bare
      rcases hstep with ⟨hkept, hrest⟩ | ⟨label, effect, left, hq, heffect, hbare, hrest⟩
      · refine ⟨held, d, .refl, h.owned.act trivial, fun l hl => ?_, ?_, fun j => ?_⟩
        · exact h.free_after hl hwithin .refl
        · exact R.bare_equiv.trans (R.bare_equiv.symm hkept) h.bare
        · by_cases hj : j = i
          · subst hj
            simpa using hrest
          · simpa [hj] using h.follows_other hj hwithin .refl
      · refine ⟨held, _, .single (.fire i hq), h.owned.act trivial, fun l hl => ?_, hbare,
          fun j => ?_⟩
        · exact h.free_after hl hwithin heffect
        · by_cases hj : j = i
          · subst hj
            simpa using hrest
          · simpa [hj] using h.follows_other hj hwithin heffect
    | done => rw [hp] at hinstr; cases hinstr
    | acquire => rw [hp] at hinstr; cases hinstr
    | release => rw [hp] at hinstr; cases hinstr

theorem Coupled.run (h : Coupled R held c d)
    {allowed : System ι Lock σ (Locked Lock σ α) → ι → Unit → Prop}
    (run : Run code allowed c c') :
    ∃ held' d', Relation.ReflTransGen Config.Step d d' ∧ Coupled R held' c' d' := by
  induction run with
  | start => exact ⟨held, d, .refl, h⟩
  | step run i choice _ fires ih =>
    obtain ⟨held', d', hreach, hcoupled⟩ := ih
    obtain ⟨held'', d'', hstep, hcoupled⟩ := hcoupled.step fires
    exact ⟨held'', d'', hreach.trans hstep, hcoupled⟩

omit [DecidableEq ι] in
theorem Coupled.done (h : Coupled R held c d) {value : α} (hdone : c.threads i = .done value) :
    d.threads i = .done value := by
  have hi := h.follows i
  rw [hdone] at hi
  exact hi.2.2

omit [DecidableEq ι] in
theorem Coupled.shared_eq (h : Coupled R held c d) (free : ∀ lock, c.owner lock = none) :
    c.shared = d.shared :=
  R.ext (fun lock => h.free lock (free lock)) h.bare

theorem Refines.run {p : ι → Locked Lock σ α} {q : ι → Program Label σ α}
    (refines : ∀ i, Refines R ∅ (p i) (q i)) {s : σ}
    {allowed : System ι Lock σ (Locked Lock σ α) → ι → Unit → Prop}
    (run : Run code allowed (launch s p) c) :
    ∃ d held, Config.Reachable s q d ∧ Coupled R held c d := by
  have start : Coupled R (fun _ => ∅) (launch s p) (Config.start s q) := by
    refine ⟨⟨fun _ => trivial, fun lock i => by simp [launch]⟩, fun lock _ => ?_, ?_, fun i => ?_⟩
    · exact (R.guarded_equiv lock).refl s
    · exact R.bare_equiv.refl s
    · exact refines i s s .refl
  obtain ⟨held, d, hreach, hcoupled⟩ := start.run run
  exact ⟨d, held, hreach, hcoupled⟩

end Soundness

/-- A thread that calls operations, and decides by the replies what it calls next. -/
inductive Client (Op Reply : Type) where
  | stop
  | call (op : Op) (next : Reply → Client Op Reply)

namespace Client

variable {Op Reply : Type}

def locked (program : Op → Locked Lock σ Reply) :
    Client Op Reply → Locked Lock σ (List (Op × Reply))
  | stop => pure []
  | call op next => do
    let reply ← program op
    let later ← (next reply).locked program
    pure ((op, reply) :: later)

def sections (program : Op → Program Label σ Reply) :
    Client Op Reply → Program Label σ (List (Op × Reply))
  | stop => pure []
  | call op next => do
    let reply ← program op
    let later ← (next reply).sections program
    pure ((op, reply) :: later)

theorem refines [DecidableEq Lock] {R : Regions Lock σ} {fine : Op → Locked Lock σ Reply}
    {coarse : Op → Program Label σ Reply} (h : ∀ op, Refines R ∅ (fine op) (coarse op))
    (client : Client Op Reply) : Refines R ∅ (client.locked fine) (client.sections coarse) := by
  induction client with
  | stop => exact Refines.pure []
  | call op next ih =>
    refine (h op).bind fun reply => ?_
    exact (ih reply).bind fun later => Refines.pure _

end Client

end SecureCore.LockReduction
