import SecureCore.AntiDos
import SecureCore.Evolution
import SecureCore.InitModule

/-! The session entry points of `lib.rs` as one type of operations, so that a run
is a list of them. `send` is the documented order of a sender: sequence number,
epoch, key, envelope, each a call of its own. Buffers and their capacities at
the C boundary are left out; the operations are those of the modules behind it. -/

namespace SecureCore

open AtomicProgram Program RootState MessageCipher

inductive SessionOp where
  | initialiseRootState (alice bob bobPk : Bytes)
  | generateBobKeypair (coins : Bytes)
  | setPeerPublicKey (pk : Bytes)
  | startEvolution (coins : Bytes)
  | getKemCipher (capacity : Nat)
  | kemCipherLen
  | applyPeerKem (kemCt : Bytes)
  | commitEvolution
  | recoverAfterLoss (targetEpoch : UInt32)
  | getEpochId
  | msgCounterNext
  | deriveMessageKey (epoch : UInt32) (msgSeq : UInt64)
  | send (plaintext idStamp : Bytes) (outgoing : Bool) (timestamp : UInt64)
  | tryDecryptWithEvolution (wire : Bytes) (header : Header)
  deriving DecidableEq, Repr

inductive Reply where
  | code (value : UInt32)
  | bytes (value : Bytes)
  | length (value : Nat)
  | seq (value : UInt64)
  | sent (key : Key) (header : Header) (wire : Option Bytes)
  | opened (result : Option (Bytes × Bool))
  deriving DecidableEq, Repr

namespace SessionOp

variable (P : Primitives)

def sendProgram (plaintext idStamp : Bytes) (outgoing : Bool) (timestamp : UInt64) :
    SessionM Reply := do
  let msgSeq ← nextMsgSeq
  let epoch ← readEpochId
  let key ← MessageCipher.deriveMessageKey P epoch msgSeq
  let header : Header := ⟨idStamp, outgoing, epoch, msgSeq, timestamp⟩
  pure (.sent key header (encrypt P plaintext key header))

def program : SessionOp → SessionM Reply
  | .initialiseRootState alice bob bobPk => do
    pure (.code (← InitModule.initialiseRootState P alice bob bobPk))
  | .generateBobKeypair coins => do pure (.code (← Evolution.generateBobKeypair P coins))
  | .setPeerPublicKey pk => do
    Evolution.setPeerPublicKey P pk
    pure (.code 0)
  | .startEvolution coins => do pure (.code (← Evolution.startEvolution P coins))
  | .getKemCipher capacity => do pure (.bytes (← Evolution.getKemCipher capacity))
  | .kemCipherLen => do pure (.length (← Evolution.kemCipherLen))
  | .applyPeerKem kemCt => do pure (.code (← Evolution.applyPeerKem P kemCt))
  | .commitEvolution => do pure (.code (← RootState.commitEvolution))
  | .recoverAfterLoss target => do pure (.code (← AntiDos.recoverAfterLoss P target))
  | .getEpochId => do pure (.code (← readEpochId))
  | .msgCounterNext => do pure (.seq (← nextMsgSeq))
  | .deriveMessageKey epoch msgSeq => do
    pure (.bytes (← MessageCipher.deriveMessageKey P epoch msgSeq))
  | .send plaintext idStamp outgoing timestamp =>
    sendProgram P plaintext idStamp outgoing timestamp
  | .tryDecryptWithEvolution wire header => do
    pure (.opened (← MessageCipher.tryDecryptWithEvolution P wire header))

def exec (op : SessionOp) (s : Session) : Reply × Session := (op.program P).run s

@[simp] theorem exec_startEvolution (coins : Bytes) (s : Session) :
    (startEvolution coins).exec P s =
      (.code ((Evolution.startEvolution P coins).run s).1,
        ((Evolution.startEvolution P coins).run s).2) := by
  simp [exec, program]

@[simp] theorem exec_applyPeerKem (kemCt : Bytes) (s : Session) :
    (applyPeerKem kemCt).exec P s =
      (.code ((Evolution.applyPeerKem P kemCt).run s).1,
        ((Evolution.applyPeerKem P kemCt).run s).2) := by
  simp [exec, program]

@[simp] theorem exec_commitEvolution (s : Session) :
    SessionOp.commitEvolution.exec P s =
      (.code (RootState.commitEvolution.run s).1, (RootState.commitEvolution.run s).2) := by
  simp [exec, program]

@[simp] theorem exec_recoverAfterLoss (target : UInt32) (s : Session) :
    (recoverAfterLoss target).exec P s =
      (.code ((AntiDos.recoverAfterLoss P target).run s).1,
        ((AntiDos.recoverAfterLoss P target).run s).2) := by
  simp [exec, program]

@[simp] theorem exec_tryDecryptWithEvolution (wire : Bytes) (header : Header) (s : Session) :
    (tryDecryptWithEvolution wire header).exec P s =
      (.opened ((MessageCipher.tryDecryptWithEvolution P wire header).run s).1,
        ((MessageCipher.tryDecryptWithEvolution P wire header).run s).2) := by
  simp [exec, program]

@[simp] theorem exec_send (plaintext idStamp : Bytes) (outgoing : Bool) (timestamp : UInt64)
    (s : Session) :
    (send plaintext idStamp outgoing timestamp).exec P s =
      (.sent (deriveMessageKeyFromRoot P s.curr s.epoch s.msgCounter)
          ⟨idStamp, outgoing, s.epoch, s.msgCounter, timestamp⟩
          (encrypt P plaintext (deriveMessageKeyFromRoot P s.curr s.epoch s.msgCounter)
            ⟨idStamp, outgoing, s.epoch, s.msgCounter, timestamp⟩),
        { s with msgCounter := s.msgCounter + 1 }) := by
  simp [exec, program, sendProgram]

end SessionOp

structure Call where
  op : SessionOp
  before : Session
  reply : Reply
  after : Session

def SessionOp.call (P : Primitives) (op : SessionOp) (s : Session) : Call :=
  ⟨op, s, (op.exec P s).1, (op.exec P s).2⟩

def trace (P : Primitives) : Session → List SessionOp → List Call
  | _, [] => []
  | s, op :: ops => op.call P s :: trace P (op.exec P s).2 ops

theorem mem_trace {P : Primitives} {s : Session} {ops : List SessionOp} {call : Call}
    (h : call ∈ trace P s ops) :
    call.op ∈ ops ∧ call.reply = (call.op.exec P call.before).1 ∧
      call.after = (call.op.exec P call.before).2 := by
  induction ops generalizing s with
  | nil => simp [trace] at h
  | cons op ops ih =>
    rcases List.mem_cons.mp h with rfl | h
    · exact ⟨List.mem_cons_self, rfl, rfl⟩
    · obtain ⟨hmem, hreply, hafter⟩ := ih h
      exact ⟨List.mem_cons_of_mem _ hmem, hreply, hafter⟩

end SecureCore
