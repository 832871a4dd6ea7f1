import SecureCore.SymbolicPrimitives
import SecureCore.TwoParty

/-! What of the two entropy streams reaches the initial root. The quality gate looks
at each stream as a whole, while the interleave stops at the end of the shorter one:
of the longer stream only a front part is hashed, and that part passed no check. -/

namespace SecureCore.InitModule

open AtomicProgram Program

def evens : Bytes → Bytes
  | [] => []
  | [a] => [a]
  | a :: _ :: rest => a :: evens rest

def odds : Bytes → Bytes
  | _ :: b :: rest => b :: odds rest
  | _ => []

def Repeated (bytes : Bytes) : Prop := ∃ b, ∀ x ∈ bytes, x = b

/-- What the gate is to guarantee of the string that is hashed. -/
structure Covered (interleaved : Bytes) : Prop where
  alice_long : 64 ≤ (evens interleaved).length
  bob_long : 64 ≤ (odds interleaved).length
  alice_varied : ¬ Repeated (evens interleaved)
  bob_varied : ¬ Repeated (odds interleaved)

theorem evens_interleave (alice bob : Bytes) :
    evens (oddEvenInterleave alice bob) = alice.take bob.length := by
  induction alice generalizing bob with
  | nil => simp [oddEvenInterleave, evens]
  | cons a alice ih =>
    cases bob with
    | nil => rfl
    | cons b bob => rw [oddEvenInterleave, evens, ih, List.length_cons, List.take_succ_cons]

theorem odds_interleave (alice bob : Bytes) :
    odds (oddEvenInterleave alice bob) = bob.take alice.length := by
  induction alice generalizing bob with
  | nil => simp [oddEvenInterleave, odds]
  | cons a alice ih =>
    cases bob with
    | nil => rfl
    | cons b bob => rw [oddEvenInterleave, odds, ih, List.length_cons, List.take_succ_cons]

theorem varied_of_accepted {data : Bytes} (accepted : entropyReject data = false) :
    64 ≤ data.length ∧ ¬ Repeated data := by
  simp only [entropyReject, Bool.or_eq_false_iff, decide_eq_false_iff_not] at accepted
  obtain ⟨⟨hlong, -⟩, hvaried⟩ := accepted
  refine ⟨by omega, ?_⟩
  rintro ⟨b, hall⟩
  have hhead : data.headD 0 = b := by
    cases data with
    | nil => simp at hlong
    | cons first rest => exact hall first List.mem_cons_self
  have hsame : data.all (· == data.headD 0) = true := by
    rw [hhead, List.all_eq_true]
    exact fun x hx => beq_iff_eq.mpr (hall x hx)
  rw [hsame] at hvaried
  cases hvaried

theorem accepts_of_ok {P : Primitives} {alice bob bobPk : Bytes} {s : Session}
    (h : ((initialiseRootState P alice bob bobPk).run s).1 = 0) :
    entropyReject alice = false ∧ entropyReject bob = false := by
  unfold initialiseRootState at h
  split_ifs at h with hreject
  · simp at h
  all_goals simpa using hreject

/-- An accepted initialisation hashes the interleaved streams. Their parts in it are
long enough, and neither is a single repeated byte unless the front of the longer
stream is. -/
theorem entropy_gate_covers_iff {P : Primitives} {alice bob bobPk : Bytes} {s : Session}
    (accepted : ((initialiseRootState P alice bob bobPk).run s).1 = 0) :
    ((initialiseRootState P alice bob bobPk).run s).2.curr =
        P.sha256 (ascii "LinkChat RootState Init" ++ oddEvenInterleave alice bob) ∧
      (Covered (oddEvenInterleave alice bob) ↔
        (bob.length < alice.length → ¬ Repeated (alice.take bob.length)) ∧
        (alice.length < bob.length → ¬ Repeated (bob.take alice.length))) := by
  obtain ⟨halice, hbob⟩ := accepts_of_ok accepted
  obtain ⟨alice_long, alice_varied⟩ := varied_of_accepted halice
  obtain ⟨bob_long, bob_varied⟩ := varied_of_accepted hbob
  refine ⟨by rw [initialiseRootState_ok accepted, initialRoot], ?_⟩
  constructor
  · intro covered
    have halice_part := covered.alice_varied
    have hbob_part := covered.bob_varied
    rw [evens_interleave] at halice_part
    rw [odds_interleave] at hbob_part
    exact ⟨fun _ => halice_part, fun _ => hbob_part⟩
  · rintro ⟨front_alice, front_bob⟩
    refine ⟨?_, ?_, ?_, ?_⟩
    · rw [evens_interleave, List.length_take]
      omega
    · rw [odds_interleave, List.length_take]
      omega
    · rw [evens_interleave]
      by_cases longer : bob.length < alice.length
      · exact front_alice longer
      · rwa [List.take_of_length_le (by omega)]
    · rw [odds_interleave]
      by_cases longer : alice.length < bob.length
      · exact front_bob longer
      · rwa [List.take_of_length_le (by omega)]

def stuckEntropy : Bytes := List.replicate 64 0 ++ [1]

theorem entropy_gate_covers_sample :
    ((initialiseRootState SymbolicPrimitives.symbolic sampleEntropy sampleEntropy [1]).run
        Session.fresh).1 = 0 ∧
      Covered (oddEvenInterleave sampleEntropy sampleEntropy) := by
  have accepted : ((initialiseRootState SymbolicPrimitives.symbolic sampleEntropy sampleEntropy
      [1]).run Session.fresh).1 = 0 := by decide +kernel
  refine ⟨accepted, (entropy_gate_covers_iff accepted).2.mpr ⟨fun longer => ?_, fun longer => ?_⟩⟩
  · exact absurd longer (lt_irrefl _)
  · exact absurd longer (lt_irrefl _)

theorem stuck_entropy_accepted :
    ((initialiseRootState SymbolicPrimitives.symbolic stuckEntropy sampleEntropy [1]).run
        Session.fresh).1 = 0 ∧
      evens (oddEvenInterleave stuckEntropy sampleEntropy) = List.replicate 64 0 ∧
      ¬ Covered (oddEvenInterleave stuckEntropy sampleEntropy) := by
  -- 64 zeros of the stuck source are what reaches the root.
  have hzeros : evens (oddEvenInterleave stuckEntropy sampleEntropy) = List.replicate 64 0 := by
    decide +kernel
  refine ⟨by decide +kernel, hzeros, fun covered => covered.alice_varied ?_⟩
  rw [hzeros]
  exact ⟨0, fun x hx => List.eq_of_mem_replicate hx⟩

end SecureCore.InitModule
