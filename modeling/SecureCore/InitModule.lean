import SecureCore.RootState

/-! `init_module.rs`: the root state of a pairing, made from both entropy streams.
Initialisation sets the current root, the epoch and the stored public key; the
pending root and the message counter keep what they held. -/

namespace SecureCore.InitModule

open AtomicProgram Program RootState

def storeBobPublicKey (pk : Bytes) : SessionM Unit :=
  atomic .storeBobPublicKey fun s => ((), { s with bobPkStore := pk })

def readBobPk : SessionM Bytes :=
  atomic .readBobPk fun s => (s.bobPkStore, s)

/-- `alice[0], bob[0], alice[1], bob[1], …`, as long as both last. -/
def oddEvenInterleave : (alice bob : Bytes) → Bytes
  | a :: alice, b :: bob => a :: b :: oddEvenInterleave alice bob
  | _, _ => []

def entropyReject (data : Bytes) : Bool :=
  data.length < 64 || data.all (· == 0) || data.all (· == data.headD 0)

/-- The checks of `initialise_root_state`, all of them passed. -/
def Accepts (alice bob bobPk : Bytes) : Prop :=
  ¬ (entropyReject alice || entropyReject bob) ∧
    ¬ (oddEvenInterleave alice bob).length < 64 ∧ ¬ bobPk.isEmpty

instance (alice bob bobPk : Bytes) : Decidable (Accepts alice bob bobPk) :=
  inferInstanceAs (Decidable (_ ∧ _ ∧ _))

variable (P : Primitives)

def computeIdStamp (rootStateInit bobPk : Bytes) : Bytes :=
  P.sha256 (ascii "LinkChat ID Stamp" ++ rootStateInit ++ bobPk)

def generateIdStampFromCurr : SessionM Bytes := do
  let curr ← readRootStateCurr
  let pk ← readBobPk
  pure (computeIdStamp P curr pk)

def initialRoot (alice bob : Bytes) : Key :=
  P.sha256 (ascii "LinkChat RootState Init" ++ oddEvenInterleave alice bob)

def initialiseRootState (alice bob bobPk : Bytes) : SessionM UInt32 :=
  if entropyReject alice || entropyReject bob then pure 2
  else if (oddEvenInterleave alice bob).length < 64 then pure 1
  else if bobPk.isEmpty then pure 3
  else do
    storeBobPublicKey bobPk
    setRootStateCurr (initialRoot P alice bob)
    setEpochId 0
    pure 0

variable {P}

@[simp] theorem run_storeBobPublicKey (pk : Bytes) (s : Session) :
    (storeBobPublicKey pk).run s = ((), { s with bobPkStore := pk }) := rfl

@[simp] theorem run_generateIdStampFromCurr (s : Session) :
    (generateIdStampFromCurr P).run s = (computeIdStamp P s.curr s.bobPkStore, s) := by
  simp [generateIdStampFromCurr, readBobPk]

theorem initialiseRootState_ok {alice bob bobPk : Bytes} {s : Session}
    (h : ((initialiseRootState P alice bob bobPk).run s).1 = 0) :
    ((initialiseRootState P alice bob bobPk).run s).2 =
      { s with bobPkStore := bobPk, curr := initialRoot P alice bob, epoch := 0 } := by
  unfold initialiseRootState at h ⊢
  split_ifs at h ⊢ <;> simp_all

end SecureCore.InitModule
