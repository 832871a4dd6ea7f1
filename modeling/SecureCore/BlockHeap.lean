import SecureCore.ByteImage
import SecureCore.FallibleState

/-! A heap of separate byte blocks with checked accesses at an offset into a block. What
a program must not do (reach behind a block, use a block that is not allocated, give one
back with another size) is a fault here. Which address the allocator picks and what the memory holds
before is an argument; an allocator that has no address left, or names one in use,
returns no block.

`Implements` compares a program with a function on the blocks alone, and adds that
every block was cleared before it went back to the allocator. -/

namespace SecureCore.BlockHeap

open FallibleState ByteImage
open LittleEndian (Bytes)

inductive Fault where
  | unallocated
  | outOfBounds
  | wrongSize
  deriving DecidableEq, Repr

abbrev Blocks := Nat → Option Bytes

structure Heap where
  blocks : Blocks
  /-- What the blocks held when they were given back, the last one first. -/
  released : List Bytes

abbrev HeapM := EStateM Fault Heap

structure Grant where
  address : Nat
  residue : Nat → UInt8

def place (grant : Option Grant) (content : Bytes) (blocks : Blocks) : Option Nat × Blocks :=
  match grant with
  | none => (none, blocks)
  | some g =>
    if blocks g.address = none then
      (some g.address, Function.update blocks g.address (some content))
    else (none, blocks)

/-- What a new block holds until it is written. -/
def uncleared (grant : Option Grant) (size : Nat) : Bytes :=
  match grant with
  | none => []
  | some g => (List.range size).map g.residue

def alloc (grant : Option Grant) (size : Nat) : HeapM (Option Nat) := do
  let h ← get
  let placed := place grant (uncleared grant size) h.blocks
  set { h with blocks := placed.2 }
  pure placed.1

def access (address reach : Nat) : HeapM Bytes := do
  match (← get).blocks address with
  | none => throw .unallocated
  | some block => if reach ≤ block.length then pure block else throw .outOfBounds

def load (address offset count : Nat) : HeapM Bytes := do
  let block ← access address (offset + count)
  pure (slice block offset count)

def store (address offset : Nat) (data : Bytes) : HeapM Unit := do
  let block ← access address (offset + data.length)
  modify fun h =>
    { h with blocks := Function.update h.blocks address (some (splice block offset data)) }

def free (address size : Nat) : HeapM Unit := do
  match (← get).blocks address with
  | none => throw .unallocated
  | some block =>
    if block.length = size then
      modify fun h => ⟨Function.update h.blocks address none, block :: h.released⟩
    else throw .wrongSize

def Wiped (released : List Bytes) : Prop := ∀ block ∈ released, ∀ byte ∈ block, byte = 0

section Accesses

variable {blocks : Blocks} {released : List Bytes} {address offset count reach size : Nat}
  {block data : Bytes}

theorem uncleared_length (g : Grant) (size : Nat) : (uncleared (some g) size).length = size := by
  simp [uncleared]

theorem alloc_eq {grant : Option Grant} {blocks' : Blocks} {found : Option Nat}
    (placed : place grant (uncleared grant size) blocks = (found, blocks')) :
    alloc grant size ⟨blocks, released⟩ = .ok found ⟨blocks', released⟩ := by
  change EStateM.Result.ok (place grant (uncleared grant size) blocks).1
    (Heap.mk (place grant (uncleared grant size) blocks).2 released) = _
  rw [placed]

theorem place_keeps (found : blocks address = some block) (grant : Option Grant)
    (content : Bytes) : (place grant content blocks).2 address = some block := by
  cases grant with
  | none => exact found
  | some g =>
    rw [place]
    split_ifs with vacant
    · have hne : address ≠ g.address := by
        rintro rfl
        rw [vacant] at found
        cases found
      exact (Function.update_of_ne hne ..).trans found
    · exact found

theorem access_ok (found : blocks address = some block) (fits : reach ≤ block.length) :
    access address reach ⟨blocks, released⟩ = .ok block ⟨blocks, released⟩ := by
  rw [access, bind_ok (get_apply _)]
  simp only [found, if_pos fits]
  rfl

theorem load_ok (found : blocks address = some block) (fits : offset + count ≤ block.length) :
    load address offset count ⟨blocks, released⟩ =
      .ok (slice block offset count) ⟨blocks, released⟩ := by
  rw [load, bind_ok (access_ok found fits)]
  rfl

theorem store_ok (found : blocks address = some block)
    (fits : offset + data.length ≤ block.length) :
    store address offset data ⟨blocks, released⟩ =
      .ok () ⟨Function.update blocks address (some (splice block offset data)), released⟩ := by
  rw [store, bind_ok (access_ok found fits)]
  rfl

theorem store_outOfBounds (found : blocks address = some block)
    (overruns : block.length < offset + data.length) :
    store address offset data ⟨blocks, released⟩ = .error .outOfBounds ⟨blocks, released⟩ := by
  have haccess : access address (offset + data.length) ⟨blocks, released⟩ =
      .error .outOfBounds ⟨blocks, released⟩ := by
    rw [access, bind_ok (get_apply _)]
    simp only [found, if_neg (Nat.not_le.mpr overruns)]
    rfl
  rw [store, bind_error haccess]

theorem free_ok (found : blocks address = some block) (sized : block.length = size) :
    free address size ⟨blocks, released⟩ =
      .ok () ⟨Function.update blocks address none, block :: released⟩ := by
  rw [free, bind_ok (get_apply _)]
  simp only [found, if_pos sized]
  rfl

end Accesses

/-- From these blocks the program returns what the function returns, leaves the blocks
it leaves, and clears what it gives back. -/
def Implements {α : Type} (m : HeapM α) (blocks : Blocks) (result : α × Blocks) : Prop :=
  ∀ released, Wiped released →
    ∃ released', Wiped released' ∧ m ⟨blocks, released⟩ = .ok result.1 ⟨result.2, released'⟩

namespace Implements

variable {α β : Type} {blocks : Blocks} {m : HeapM α} {f : α → HeapM β}

theorem pure (a : α) (blocks : Blocks) : Implements (pure a) blocks (a, blocks) :=
  fun released wiped => ⟨released, wiped, rfl⟩

theorem bind {first : α × Blocks} {result : β × Blocks} (hm : Implements m blocks first)
    (hf : Implements (f first.1) first.2 result) : Implements (m >>= f) blocks result := by
  intro released wiped
  obtain ⟨between, hwiped, hrun⟩ := hm released wiped
  obtain ⟨released', hwiped', hrest⟩ := hf between hwiped
  exact ⟨released', hwiped', (bind_ok hrun).trans hrest⟩

theorem of_run {result : α × Blocks}
    (run : ∀ released, m ⟨blocks, released⟩ = .ok result.1 ⟨result.2, released⟩) :
    Implements m blocks result :=
  fun released wiped => ⟨released, wiped, run released⟩

theorem alloc (grant : Option Grant) (size : Nat) (blocks : Blocks) :
    Implements (alloc grant size) blocks (place grant (uncleared grant size) blocks) :=
  of_run fun _ => rfl

theorem clear_free {address : Nat} {block : Bytes} (found : blocks address = some block) :
    Implements (do store address 0 (List.replicate block.length 0); free address block.length)
      blocks ((), Function.update blocks address none) := by
  have hzeros : (List.replicate block.length (0 : UInt8)).length = block.length :=
    List.length_replicate
  intro released wiped
  refine ⟨List.replicate block.length 0 :: released, List.forall_mem_cons.mpr ⟨?_, wiped⟩, ?_⟩
  · exact fun byte hbyte => (List.mem_replicate.mp hbyte).2
  · rw [bind_ok (store_ok found (by rw [Nat.zero_add, hzeros])), splice_whole hzeros,
      free_ok (Function.update_self ..) hzeros, Function.update_idem]

theorem store_placed {g : Grant} (vacant : blocks g.address = none) (data : Bytes) :
    Implements (store g.address 0 data) (place (some g) (uncleared (some g) data.length) blocks).2
      ((), (place (some g) data blocks).2) := by
  have hlength : data.length = (uncleared (some g) data.length).length :=
    (uncleared_length g data.length).symm
  simp only [place, if_pos vacant]
  refine of_run fun released => ?_
  rw [store_ok (Function.update_self ..) (by rw [Nat.zero_add, ← hlength]), splice_whole hlength,
    Function.update_idem]

end Implements

end SecureCore.BlockHeap
