import Mathlib.Tactic

/-! Reasoning about `EStateM`: computations over a state that may fail and then
leave the state as far as they got. `Spec` relates the states before and after
on both exits; the rules follow the program text. Equations for single runs are
stated on the application `m s`. -/

namespace SecureCore.FallibleState

variable {ε σ τ α β : Type}

section Runs

variable {m : EStateM ε σ α} {f : α → EStateM ε σ β} {s t : σ}

theorem bind_ok {a : α} (h : m s = .ok a t) : (m >>= f) s = f a t := by
  change EStateM.bind m f s = _
  rw [EStateM.bind, h]

theorem bind_error {e : ε} (h : m s = .error e t) : (m >>= f) s = .error e t := by
  change EStateM.bind m f s = _
  rw [EStateM.bind, h]

theorem ok_of_bind {b : β} {u : σ} (h : (m >>= f) s = .ok b u) :
    ∃ a t, m s = .ok a t ∧ f a t = .ok b u := by
  cases hrun : m s with
  | ok a t => exact ⟨a, t, rfl, (bind_ok hrun).symm.trans h⟩
  | error e t =>
    rw [bind_error hrun] at h
    cases h

theorem pure_apply (a : α) (s : σ) : (pure a : EStateM ε σ α) s = .ok a s := rfl

theorem get_apply (s : σ) : (get : EStateM ε σ σ) s = .ok s s := rfl

theorem modify_apply (g : σ → σ) (s : σ) : (modify g : EStateM ε σ PUnit) s = .ok ⟨⟩ (g s) := rfl

end Runs

def finalState : EStateM.Result ε σ α → σ
  | .ok _ t => t
  | .error _ t => t

@[simp] theorem finalState_ok (a : α) (t : σ) :
    finalState (.ok a t : EStateM.Result ε σ α) = t := rfl

@[simp] theorem finalState_error (e : ε) (t : σ) :
    finalState (.error e t : EStateM.Result ε σ α) = t := rfl

theorem finalState_bind_pure (m : EStateM ε σ α) (g : α → β) (s : σ) :
    finalState ((m >>= fun a => pure (g a)) s) = finalState (m s) := by
  cases hrun : m s with
  | ok a t => rw [bind_ok hrun]; rfl
  | error e t => rw [bind_error hrun]; rfl

theorem finalState_bind (inv : σ → Prop) {m : EStateM ε σ α} {f : α → EStateM ε σ β} {s : σ}
    (hm : inv (finalState (m s))) (hf : ∀ a t, inv t → inv (finalState (f a t))) :
    inv (finalState ((m >>= f) s)) := by
  cases hrun : m s with
  | ok a t =>
    rw [hrun] at hm
    rw [bind_ok hrun]
    exact hf a t hm
  | error e t =>
    rw [hrun] at hm
    rwa [bind_error hrun]

def Preserves (inv : σ → Prop) (m : EStateM ε σ α) : Prop :=
  ∀ s, inv s → inv (finalState (m s))

namespace Preserves

variable {inv : σ → Prop} {m : EStateM ε σ α} {f : α → EStateM ε σ β}

theorem pure (a : α) : Preserves inv (pure a : EStateM ε σ α) := fun _ h => h

theorem throw (e : ε) : Preserves inv (throw e : EStateM ε σ α) := fun _ h => h

theorem get : Preserves inv (get : EStateM ε σ σ) := fun _ h => h

theorem modify {g : σ → σ} (h : ∀ s, inv s → inv (g s)) :
    Preserves inv (modify g : EStateM ε σ PUnit) := h

theorem bind (hm : Preserves inv m) (hf : ∀ a, Preserves inv (f a)) :
    Preserves inv (m >>= f) :=
  fun s h => finalState_bind inv (hm s h) hf

end Preserves

/-- From states satisfying `pre`, the computation returns as `ok` says or fails
as `err` says. -/
def Spec (pre : σ → Prop) (m : EStateM ε σ α) (ok : α → σ → Prop) (err : ε → σ → Prop) : Prop :=
  ∀ s, pre s → match m s with
    | .ok a t => ok a t
    | .error e t => err e t

namespace Spec

variable {pre pre' : σ → Prop} {m : EStateM ε σ α} {f : α → EStateM ε σ β}
  {ok ok' : α → σ → Prop} {err err' : ε → σ → Prop}

theorem trivial (pre : σ → Prop) (m : EStateM ε σ α) :
    Spec pre m (fun _ _ => True) (fun _ _ => True) := by
  intro s _
  cases m s <;> exact True.intro

theorem of_pure {a : α} (h : ∀ s, pre s → ok a s) : Spec pre (pure a) ok err := h

theorem of_throw {e : ε} (h : ∀ s, pre s → err e s) : Spec pre (throw e) ok err := h

theorem bind {mid : α → σ → Prop} {post : β → σ → Prop} (hm : Spec pre m mid err)
    (hf : ∀ a, Spec (mid a) (f a) post err) : Spec pre (m >>= f) post err := by
  intro s hs
  have hstep := hm s hs
  cases hrun : m s with
  | ok a t =>
    rw [hrun] at hstep
    rw [bind_ok hrun]
    exact hf a t hstep
  | error e t =>
    rw [hrun] at hstep
    rw [bind_error hrun]
    exact hstep

theorem skip {post : β → σ → Prop}
    (hf : ∀ a, Spec (fun _ => True) (f a) post (fun _ _ => True)) :
    Spec pre (m >>= f) post (fun _ _ => True) :=
  bind (trivial pre m) hf

theorem bind_pure {inv : σ → Prop} (h : Spec pre m (fun _ => inv) err) (g : α → β) :
    Spec pre (m >>= fun a => pure (g a)) (fun _ => inv) err :=
  bind h fun _ => of_pure fun _ hs => hs

theorem get_bind {g : σ → EStateM ε σ β} {post : β → σ → Prop}
    (h : ∀ s₀, Spec (fun s => s = s₀ ∧ pre s) (g s₀) post err) : Spec pre (get >>= g) post err := by
  intro s hs
  rw [bind_ok (get_apply s)]
  exact h s s ⟨rfl, hs⟩

theorem consequence (h : Spec pre m ok err) (hpre : ∀ s, pre' s → pre s)
    (hok : ∀ a s, ok a s → ok' a s) (herr : ∀ e s, err e s → err' e s) :
    Spec pre' m ok' err' := by
  intro s hs
  have hstep := h s (hpre s hs)
  cases hrun : m s with
  | ok a t =>
    rw [hrun] at hstep
    exact hok a t hstep
  | error e t =>
    rw [hrun] at hstep
    exact herr e t hstep

theorem of_preserves {inv : σ → Prop} (h : Preserves inv m) :
    Spec inv m (fun _ => inv) (fun _ => inv) := by
  intro s hs
  have hfinal := h s hs
  cases hrun : m s with
  | ok a t => rwa [hrun] at hfinal
  | error e t => rwa [hrun] at hfinal

theorem preserves {inv : σ → Prop} (h : Spec inv m (fun _ => inv) (fun _ => inv)) :
    Preserves inv m := by
  intro s hs
  have hspec := h s hs
  cases hrun : m s with
  | ok a t => rwa [hrun] at hspec
  | error e t => rwa [hrun] at hspec

theorem ok_of_run {a : α} {s t : σ} (h : Spec pre m ok err) (hs : pre s) (hrun : m s = .ok a t) :
    ok a t := by
  have hstep := h s hs
  rwa [hrun] at hstep

end Spec

def zoom (view : σ → τ) (put : τ → σ → σ) (m : EStateM ε τ α) : EStateM ε σ α :=
  fun s =>
    match m (view s) with
    | .ok a t => .ok a (put t s)
    | .error e t => .error e (put t s)

section Zoom

variable {view : σ → τ} {put : τ → σ → σ} {m : EStateM ε τ α}

theorem zoom_ok {a : α} {s : σ} {t : τ} (h : m (view s) = .ok a t) :
    zoom view put m s = .ok a (put t s) := by
  rw [zoom, h]

theorem zoom_error {e : ε} {s : σ} {t : τ} (h : m (view s) = .error e t) :
    zoom view put m s = .error e (put t s) := by
  rw [zoom, h]

theorem finalState_zoom (s : σ) :
    finalState (zoom view put m s) = put (finalState (m (view s))) s := by
  cases hrun : m (view s) with
  | ok a t => rw [zoom_ok hrun]; rfl
  | error e t => rw [zoom_error hrun]; rfl

theorem Spec.zoom {pre : τ → Prop} {ok : α → τ → Prop} {err : ε → τ → Prop} {R : σ → Prop}
    (h : Spec pre m ok err) (view_put : ∀ t s, view (put t s) = t)
    (frame : ∀ t s, R s → R (put t s)) :
    Spec (fun s => pre (view s) ∧ R s) (zoom view put m) (fun a s => ok a (view s) ∧ R s)
      (fun e s => err e (view s) ∧ R s) := by
  rintro s ⟨hpre, hrest⟩
  have hspec := h (view s) hpre
  cases hrun : m (view s) with
  | ok a t =>
    rw [hrun] at hspec
    rw [zoom_ok hrun]
    refine ⟨?_, frame t s hrest⟩
    rw [view_put]
    exact hspec
  | error e t =>
    rw [hrun] at hspec
    rw [zoom_error hrun]
    refine ⟨?_, frame t s hrest⟩
    rw [view_put]
    exact hspec

end Zoom

end SecureCore.FallibleState
