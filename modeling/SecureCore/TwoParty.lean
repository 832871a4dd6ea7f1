import SecureCore.SessionOps

/-! Two devices of one pairing. Each holds its own statics, and what passes
between them are the arguments of calls: a run is a list of calls, each made by
one of the two, and the world keeps the completed calls as a history. A device
makes its calls one after another. -/

namespace SecureCore

inductive Peer where
  | alice | bob
  deriving DecidableEq, Repr

namespace Peer

def other : Peer → Peer
  | alice => bob
  | bob => alice

@[simp] theorem other_other (p : Peer) : p.other.other = p := by
  cases p <;> rfl

@[simp] theorem other_ne (p : Peer) : p.other ≠ p := by
  cases p <;> decide

theorem eq_or_eq_other (p q : Peer) : q = p ∨ q = p.other := by
  cases p <;> cases q <;> decide

end Peer

structure World where
  session : Peer → Session
  history : List (Peer × Call)

namespace World

def start (session : Peer → Session) : World := ⟨session, []⟩

variable (P : Primitives)

def act (w : World) (p : Peer) (op : SessionOp) : World where
  session := Function.update w.session p (op.exec P (w.session p)).2
  history := w.history ++ [(p, op.call P (w.session p))]

def run (w : World) (actions : List (Peer × SessionOp)) : World :=
  actions.foldl (fun w action => w.act P action.1 action.2) w

variable {P}

@[simp] theorem act_session_self (w : World) (p : Peer) (op : SessionOp) :
    (w.act P p op).session p = (op.exec P (w.session p)).2 := by
  simp [act]

theorem act_session_of_ne (w : World) {p q : Peer} (op : SessionOp) (h : q ≠ p) :
    (w.act P p op).session q = w.session q := by
  simp [act, h]

theorem run_invariant {inv : World → Prop} {w : World} {actions : List (Peer × SessionOp)}
    (base : inv w) (keep : ∀ w, ∀ action ∈ actions, inv w → inv (w.act P action.1 action.2)) :
    inv (w.run P actions) := by
  induction actions generalizing w with
  | nil => exact base
  | cons action rest ih =>
    exact ih (keep w action List.mem_cons_self base)
      (fun w a ha => keep w a (List.mem_cons_of_mem _ ha))

end World

def initialised (P : Primitives) (alice bob bobPk : Bytes) (session : Peer → Session) :
    Peer → Session :=
  fun p => ((InitModule.initialiseRootState P alice bob bobPk).run (session p)).2

def sampleEntropy : Bytes := (List.range 64).map UInt8.ofNat

example : InitModule.entropyReject sampleEntropy = false := by decide

end SecureCore
