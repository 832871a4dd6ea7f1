import SecureCore.LockReduction

/-! The operations that the clients of a run have begun. The states a thread has found so
far lead it through the operations that have returned and into the one it is in. The
client cut off behind that one takes the same steps, so a result about the operations
that clients may call is one about those they have begun. -/

namespace SecureCore.ClientCalls

open AtomicProgram MutexThreads LockedProgram LockedProgram.Locked LockReduction

variable {ι Lock σ α β Op Reply : Type}

/-- Two programs go by the same instructions, in these states, to what is left of each. -/
inductive Along : List σ → Locked Lock σ α → Locked Lock σ α → Locked Lock σ α →
    Locked Lock σ α → Prop where
  | nil (p p' : Locked Lock σ α) : Along [] p p' p p'
  | acquire (lock : Lock) (s : σ) {path : List σ} {p p' q q' : Locked Lock σ α}
      (rest : Along path p p' q q') : Along (s :: path) (.acquire lock p) (.acquire lock p') q q'
  | release (lock : Lock) (s : σ) {path : List σ} {p p' q q' : Locked Lock σ α}
      (rest : Along path p p' q q') : Along (s :: path) (.release lock p) (.release lock p') q q'
  | access (update : σ → σ) (s : σ) {path : List σ} {next next' : σ → Locked Lock σ α}
      {q q' : Locked Lock σ α} (rest : Along path (next s) (next' s) q q') :
      Along (s :: path) (.access update next) (.access update next') q q'

def Leads (path : List σ) (p q : Locked Lock σ α) : Prop := Along path p p q q

section Along

variable {path more : List σ} {s : σ} {p p' p'' q q' r r' : Locked Lock σ α}

theorem Along.eq_of_nil (h : Along [] p p' q q') : q = p ∧ q' = p' := by
  cases h
  exact ⟨rfl, rfl⟩

theorem Along.left (h : Along path p p' q q') : Leads path p q := by
  induction h with
  | nil p p' => exact .nil p p
  | acquire lock s _ ih => exact .acquire lock s ih
  | release lock s _ ih => exact .release lock s ih
  | access update s _ ih => exact .access update s ih

theorem Leads.unique (h : Leads path p q) (h' : Leads path p r) : q = r := by
  induction path generalizing p with
  | nil =>
    cases h
    cases h'
    rfl
  | cons s path ih =>
    cases p with
    | done value => cases h
    | acquire lock next =>
      cases h with | acquire _ _ h => cases h' with | acquire _ _ h' => exact ih h h'
    | release lock next =>
      cases h with | release _ _ h => cases h' with | release _ _ h' => exact ih h h'
    | access update next =>
      cases h with | access _ _ h => cases h' with | access _ _ h' => exact ih h h'

theorem Along.append (h : Along path p p' q q') (h' : Along more q q' r r') :
    Along (path ++ more) p p' r r' := by
  induction h with
  | nil p p' => exact h'
  | acquire lock s _ ih => exact .acquire lock s (ih h')
  | release lock s _ ih => exact .release lock s (ih h')
  | access update s _ ih => exact .access update s (ih h')

theorem Along.split (h : Along (path ++ more) p p' r r') :
    ∃ q q', Along path p p' q q' ∧ Along more q q' r r' := by
  induction path generalizing p p' with
  | nil => exact ⟨p, p', .nil p p', h⟩
  | cons s path ih =>
    cases h with
    | acquire lock _ rest =>
      obtain ⟨q, q', hfront, hback⟩ := ih rest
      exact ⟨q, q', .acquire lock s hfront, hback⟩
    | release lock _ rest =>
      obtain ⟨q, q', hfront, hback⟩ := ih rest
      exact ⟨q, q', .release lock s hfront, hback⟩
    | access update _ rest =>
      obtain ⟨q, q', hfront, hback⟩ := ih rest
      exact ⟨q, q', .access update s hfront, hback⟩

theorem Along.bind {f f' : α → Locked Lock σ β} (h : Along path p p' q q') :
    Along path (p >>= f) (p' >>= f') (q >>= f) (q' >>= f') := by
  induction h with
  | nil p p' => exact .nil _ _
  | acquire lock s _ ih => exact .acquire lock s ih
  | release lock s _ ih => exact .release lock s ih
  | access update s _ ih => exact .access update s ih

end Along

def finish : Locked Lock σ α → List σ → Option (α × List σ)
  | .done value, path => some (value, path)
  | .acquire _ next, _ :: path => finish next path
  | .release _ next, _ :: path => finish next path
  | .access _ next, s :: path => finish (next s) path
  | _, [] => none

section Finish

variable {path : List σ} {p : Locked Lock σ α} {q : Locked Lock σ β} {f f' : α → Locked Lock σ β}

theorem leads_bind (leads : Leads path (p >>= f) q) :
    (∃ r, Leads path p r ∧ q = r >>= f) ∨
      ∃ front value rest, path = front ++ rest ∧ Leads front p (.done value) ∧
        finish p path = some (value, rest) ∧ Leads rest (f value) q := by
  induction p generalizing path with
  | done value => exact Or.inr ⟨[], value, path, rfl, .nil _ _, rfl, leads⟩
  | acquire lock next ih =>
    cases leads with
    | nil => exact Or.inl ⟨_, .nil _ _, rfl⟩
    | acquire _ s rest =>
      rcases ih rest with ⟨r, hr, rfl⟩ | ⟨front, value, back, rfl, hfront, hfinish, hback⟩
      · exact Or.inl ⟨r, .acquire lock s hr, rfl⟩
      · exact Or.inr ⟨s :: front, value, back, rfl, .acquire lock s hfront, hfinish, hback⟩
  | release lock next ih =>
    cases leads with
    | nil => exact Or.inl ⟨_, .nil _ _, rfl⟩
    | release _ s rest =>
      rcases ih rest with ⟨r, hr, rfl⟩ | ⟨front, value, back, rfl, hfront, hfinish, hback⟩
      · exact Or.inl ⟨r, .release lock s hr, rfl⟩
      · exact Or.inr ⟨s :: front, value, back, rfl, .release lock s hfront, hfinish, hback⟩
  | access update next ih =>
    cases leads with
    | nil => exact Or.inl ⟨_, .nil _ _, rfl⟩
    | access _ s rest =>
      rcases ih s rest with ⟨r, hr, rfl⟩ | ⟨front, value, back, rfl, hfront, hfinish, hback⟩
      · exact Or.inl ⟨r, .access update s hr, rfl⟩
      · exact Or.inr ⟨s :: front, value, back, rfl, .access update s hfront, hfinish, hback⟩

theorem along_of_finish (leads : Leads path (p >>= f) q)
    (h : ∀ value rest, finish p path = some (value, rest) → Leads rest (f value) q →
      ∃ q', Along rest (f value) (f' value) q q') :
    ∃ q', Along path (p >>= f) (p >>= f') q q' := by
  rcases leads_bind leads with ⟨r, hr, rfl⟩ | ⟨front, value, rest, rfl, hfront, hfinish, hrest⟩
  · exact ⟨_, Along.bind hr⟩
  · obtain ⟨q', halong⟩ := h value rest hfinish hrest
    exact ⟨q', (Along.bind hfront).append halong⟩

theorem leads_of_map {wrap : α → β} (leads : Leads path (p >>= fun value => pure (wrap value)) q) :
    ∃ r, Leads path p r ∧ q = r >>= fun value => pure (wrap value) := by
  rcases leads_bind leads with whole | ⟨front, value, rest, rfl, hfront, -, hrest⟩
  · exact whole
  · -- the wrapping makes no step, so the program has just returned
    cases hrest
    exact ⟨.done value, by rwa [List.append_nil], rfl⟩

end Finish

section Runs

variable [DecidableEq ι] [DecidableEq Lock] {c c' : System ι Lock σ (Locked Lock σ α)} {i : ι}
  {choice : Unit}

omit [DecidableEq Lock] in
theorem leads_of_outcome {p q : Locked Lock σ α} {s s' : σ}
    (h : (code p).outcome choice s = some (q, s')) : Leads [s] p q := by
  cases p with
  | done value => cases h
  | acquire lock next =>
    cases h
    exact .acquire lock s (.nil _ _)
  | release lock next =>
    cases h
    exact .release lock s (.nil _ _)
  | access update next =>
    cases h
    exact .access update s (.nil _ _)

theorem fire_along (fires : fire code c i choice = some c') {threads : ι → Locked Lock σ α}
    {next left : Locked Lock σ α} (along : Along [c.shared] (c.threads i) (threads i) next left) :
    fire code { c with threads := threads } i choice =
      some { c' with threads := Function.update threads i left } := by
  rw [fire] at fires ⊢
  dsimp only
  generalize c.threads i = p at along fires
  generalize threads i = q at along ⊢
  cases along with
  | acquire lock _ rest =>
    obtain ⟨-, rfl⟩ := rest.eq_of_nil
    dsimp only [code] at fires ⊢
    split_ifs at fires with free
    cases fires
    rw [if_pos free]
  | release lock _ rest =>
    obtain ⟨-, rfl⟩ := rest.eq_of_nil
    dsimp only [code] at fires ⊢
    split_ifs at fires with own
    cases fires
    rw [if_pos own]
  | access update _ rest =>
    obtain ⟨-, rfl⟩ := rest.eq_of_nil
    cases fires
    rfl

theorem paths_of_run {s : σ} {p : ι → Locked Lock σ α}
    (run : Run code (fun _ _ _ => True) (launch s p) c) :
    ∃ path : ι → List σ, (∀ i, Leads (path i) (p i) (c.threads i)) ∧
      ∀ p' q', (∀ i, Along (path i) (p i) (p' i) (c.threads i) (q' i)) →
        Run code (fun _ _ _ => True) (launch s p') { c with threads := q' } := by
  induction run with
  | start =>
    refine ⟨fun _ => [], fun i => .nil _ _, fun p' q' along => ?_⟩
    obtain rfl : q' = p' := funext fun i => (along i).eq_of_nil.2
    exact .start
  | @step c c' run i choice _ fires ih =>
    obtain ⟨path, hleads, hfollows⟩ := ih
    have hother : ∀ j, j ≠ i → c'.threads j = c.threads j := (fire_outcome fires).2
    refine ⟨Function.update path i (path i ++ [c.shared]), fun j => ?_, fun p' r' along => ?_⟩
    · by_cases hj : j = i
      · rw [hj, Function.update_self]
        exact (hleads i).append (leads_of_outcome (fire_outcome fires).1)
      · rw [Function.update_of_ne hj, hother j hj]
        exact hleads j
    · have hself := along i
      rw [Function.update_self] at hself
      obtain ⟨q, q', hfront, hlast⟩ := hself.split
      obtain rfl : q = c.threads i := hfront.left.unique (hleads i)
      have hbefore := hfollows p' (Function.update r' i q') fun j => by
        by_cases hj : j = i
        · rw [hj, Function.update_self]
          exact hfront
        · have hthere := along j
          rw [Function.update_of_ne hj, hother j hj] at hthere
          rwa [Function.update_of_ne hj]
      have hlast' : Along [c.shared] (c.threads i) (Function.update r' i q' i) (c'.threads i)
          (r' i) := by
        rwa [Function.update_self]
      have hfires := fire_along fires hlast'
      rw [Function.update_idem, Function.update_eq_self] at hfires
      exact hbefore.step i choice trivial hfires

end Runs

section Clients

variable (program : Op → Locked Lock σ Reply)

/-- The operations a client has begun along the path: those that have returned, and the
one whose instructions the path ends in. -/
def made : Client Op Reply → List σ → List Op
  | .stop, _ => []
  | .call op next, path =>
    match finish (program op) path with
    | some (reply, rest) => op :: made (next reply) rest
    | none => if path = [] then [] else [op]

def upTo [DecidableEq Reply] : Client Op Reply → List σ → Client Op Reply
  | .stop, _ => .stop
  | .call op next, path =>
    match finish (program op) path with
    | some (reply, rest) => .call op fun answer =>
      if answer = reply then upTo (next answer) rest else .stop
    | none => if path = [] then .stop else .call op fun _ => .stop

def MayCall (op : Op) : Client Op Reply → Prop
  | .stop => False
  | .call first next => op = first ∨ ∃ reply, MayCall op (next reply)

variable {program} [DecidableEq Reply] {client : Client Op Reply} {path : List σ}

theorem made_of_mayCall_upTo {op : Op} (h : MayCall op (upTo program client path)) :
    op ∈ made program client path := by
  induction client generalizing path with
  | stop => cases h
  | call first next ih =>
    rw [upTo] at h
    rw [made]
    cases hfinish : finish (program first) path with
    | some ended =>
      rw [hfinish] at h
      rcases h with rfl | ⟨answer, hlater⟩
      · exact List.mem_cons_self
      · dsimp only at hlater
        split_ifs at hlater with hreply
        · subst hreply
          exact List.mem_cons_of_mem _ (ih _ hlater)
        · cases hlater
    | none =>
      rw [hfinish] at h
      dsimp only at h ⊢
      split_ifs at h ⊢ with hpath
      · cases h
      · rcases h with rfl | ⟨_, hnever⟩
        · exact List.mem_cons_self
        · cases hnever

theorem along_upTo {q : Locked Lock σ (List (Op × Reply))}
    (leads : Leads path (client.locked program) q) :
    ∃ q', Along path (client.locked program) ((upTo program client path).locked program) q q' := by
  induction client generalizing path q with
  | stop => exact ⟨q, leads⟩
  | call op next ih =>
    cases hfinish : finish (program op) path with
    | some ended =>
      obtain ⟨reply, rest⟩ := ended
      rw [upTo, hfinish]
      refine along_of_finish leads fun reply' rest' hreturns hleads => ?_
      cases hfinish.symm.trans hreturns
      obtain ⟨r, hr, rfl⟩ := leads_of_map hleads
      obtain ⟨r', hr'⟩ := ih reply hr
      dsimp only
      rw [if_pos rfl]
      exact ⟨_, hr'.bind⟩
    | none =>
      rw [upTo, hfinish]
      dsimp only
      split_ifs with hpath
      · subst hpath
        cases leads
        exact ⟨_, .nil _ _⟩
      · refine along_of_finish leads fun reply rest hreturns => ?_
        rw [hfinish] at hreturns
        cases hreturns

end Clients

/-- A thread that is at `p` in its client's program has begun the operation. -/
def Begun (program : Op → Locked Lock σ Reply) (op : Op) (client : Client Op Reply)
    (p : Locked Lock σ (List (Op × Reply))) : Prop :=
  ∃ path, Leads path (client.locked program) p ∧ op ∈ made program client path

theorem run_of_begun [DecidableEq ι] [DecidableEq Lock] [DecidableEq Reply]
    {program : Op → Locked Lock σ Reply} {clients : ι → Client Op Reply} {s : σ}
    {c : System ι Lock σ (Locked Lock σ (List (Op × Reply)))}
    (run : Run code (fun _ _ _ => True) (launch s fun i => (clients i).locked program) c) :
    ∃ (clients' : ι → Client Op Reply) (left : ι → Locked Lock σ (List (Op × Reply))),
      Run code (fun _ _ _ => True) (launch s fun i => (clients' i).locked program)
        { c with threads := left } ∧
      ∀ i op, MayCall op (clients' i) → Begun program op (clients i) (c.threads i) := by
  obtain ⟨path, hleads, hfollows⟩ := paths_of_run run
  choose left halong using fun i => along_upTo (hleads i)
  refine ⟨fun i => upTo program (clients i) (path i), left, hfollows _ _ halong, ?_⟩
  intro i op hcall
  exact ⟨path i, hleads i, made_of_mayCall_upTo hcall⟩

end SecureCore.ClientCalls
