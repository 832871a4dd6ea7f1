import Mathlib.Tactic

/-! Integer arithmetic and indexing as a build with overflow checks executes
them: an operation whose mathematical result is not a value of its type, or an
index outside its slice, panics. Unsigned integers are natural numbers, their width
in bits a parameter; signed ones are `Int64`. -/

namespace SecureCore.CheckedArithmetic

inductive Panic where
  | addOverflow | subOverflow | indexOutOfBounds | sliceOutOfRange
  deriving DecidableEq, Repr

def Panic.message : Panic → String
  | .addOverflow => "attempt to add with overflow"
  | .subOverflow => "attempt to subtract with overflow"
  | .indexOutOfBounds => "index out of bounds"
  | .sliceOutOfRange => "range end index out of range for slice"

abbrev Checked := Except Panic

def add (bits x y : Nat) : Checked Nat :=
  if x + y < 2 ^ bits then .ok (x + y) else .error .addOverflow

def sub (x y : Nat) : Checked Nat :=
  if y ≤ x then .ok (x - y) else .error .subOverflow

def FitsInt64 (z : Int) : Prop := -2 ^ 63 ≤ z ∧ z < 2 ^ 63

instance (z : Int) : Decidable (FitsInt64 z) := inferInstanceAs (Decidable (_ ∧ _))

def signed (z : Int) (overflow : Panic) : Checked Int64 :=
  if FitsInt64 z then .ok (Int64.ofInt z) else .error overflow

def addSigned (x y : Int64) : Checked Int64 := signed (x.toInt + y.toInt) .addOverflow

def subSigned (x y : Int64) : Checked Int64 := signed (x.toInt - y.toInt) .subOverflow

def index {α : Type} (xs : List α) (i : Nat) : Checked α :=
  match xs[i]? with
  | some x => .ok x
  | none => .error .indexOutOfBounds

/-- `&xs[start..stop]`. -/
def range {α : Type} (xs : List α) (start stop : Nat) : Checked (List α) :=
  if start ≤ stop ∧ stop ≤ xs.length then .ok ((xs.drop start).take (stop - start))
  else .error .sliceOutOfRange

def orFail {ε σ α : Type} (fail : Panic → ε) : Checked α → EStateM ε σ α
  | .ok a => pure a
  | .error panic => throw (fail panic)

section

variable {α β : Type} {bits x y : Nat} {xs : List α} {i start stop : Nat}

theorem add_ok (fits : x + y < 2 ^ bits) : add bits x y = .ok (x + y) := if_pos fits

theorem sub_ok (le : y ≤ x) : sub x y = .ok (x - y) := if_pos le

theorem fitsInt64_toInt (x : Int64) : FitsInt64 x.toInt := ⟨x.le_toInt, x.toInt_lt⟩

theorem signed_eq_ok_iff {z : Int} {overflow : Panic} {x : Int64} :
    signed z overflow = .ok x ↔ x.toInt = z := by
  rw [signed]
  split_ifs with fits
  · rw [Except.ok.injEq, ← Int64.toInt_inj, Int64.toInt_ofInt_of_le fits.1 fits.2]
    exact eq_comm
  · refine iff_of_false (by rintro ⟨⟩) fun same => fits ?_
    rw [← same]
    exact fitsInt64_toInt x

theorem index_ok (h : i < xs.length) : index xs i = .ok (xs.get ⟨i, h⟩) := by
  rw [index, List.getElem?_eq_getElem h]
  rfl

theorem range_ok (start_le : start ≤ stop) (stop_le : stop ≤ xs.length) :
    range xs start stop = .ok ((xs.drop start).take (stop - start)) :=
  if_pos ⟨start_le, stop_le⟩

theorem bind_ok {m : Checked α} {f : α → Checked β} {a : α} (h : m = .ok a) :
    (m >>= f) = f a := by
  rw [h]
  rfl

theorem orFail_ok {ε σ : Type} {m : Checked α} {a : α} (h : m = .ok a) (fail : Panic → ε)
    (s : σ) : orFail fail m s = .ok a s := by
  rw [h]
  rfl

theorem orFail_error {ε σ : Type} {m : Checked α} {panic : Panic} (h : m = .error panic)
    (fail : Panic → ε) (s : σ) : orFail fail m s = .error (fail panic) s := by
  rw [h]
  rfl

end

end SecureCore.CheckedArithmetic
