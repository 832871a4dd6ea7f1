import SecureCore.SoundContainers
import SecureCore.VaultSelection

/-! `open_or_create` on a path that holds a container, with system calls failing.
The file counts as empty when its metadata cannot be read, and as absent when
`exists` cannot be answered; either way the branch meant for a path without a vault
is taken, whose first step is to ask again and to remove what is there. So one
failing call at the wrong moment replaces the vault by a fresh one, under whatever
key was given. No other failure changes a byte of it. -/

namespace SecureCore.VirtualVolume

open FaultyFile FallibleState ByteImage

def outcomeAt (script : List (Option Fault)) (k : Nat) : Option Fault := (script.drop k).headD none

/-- The calls are `metadata`, `exists`, `exists` again and `remove_file`: the first
or the second fails and the other two do not. -/
def Discards (script : List (Option Fault)) : Prop :=
  (outcomeAt script 0 ≠ none ∨ outcomeAt script 1 ≠ none) ∧ outcomeAt script 2 = none ∧
    outcomeAt script 3 = none

instance (script : List (Option Fault)) : Decidable (Discards script) :=
  inferInstanceAs (Decidable ((_ ∨ _) ∧ _ ∧ _))

section Opening

variable {V : VaultPrimitives} {masterKey : Bytes} {n : Nat} {f : File}

theorem createNew_present (present : f.exists? = true) :
    finalState (createNew V masterKey n f) = { f with script := f.script.tail } := by
  cases hnext : f.script.headD none with
  | some fault => rw [createNew, openNew, bind_error (call_fails hnext), finalState_error]
  | none =>
    have hopen : openNew f = .error (.raised .alreadyExists "File exists")
        { f with script := f.script.tail } := by
      rw [openNew, call_works hnext, bind_ok (get_apply _), if_pos present]
      rfl
    rw [createNew, bind_error hopen, finalState_error]

/-- What the branch for a path without a vault makes of one that is there. -/
def cleared (f : File) : File :=
  if outcomeAt f.script 2 = none then
    if outcomeAt f.script 3 = none then
      { f with exists? := false, bytes := [], script := f.script.drop 4 }
    else { f with script := f.script.drop 4 }
  else { f with script := f.script.drop 3 }

theorem fails_of_not_works (present : f.exists? = true) (works : ¬ Works 2 f) :
    outcomeAt f.script 0 ≠ none ∨ outcomeAt f.script 1 ≠ none := by
  rw [works_two_iff present, ← List.drop_one] at works
  exact not_and_or.mp works

theorem cleared_kept (fails : outcomeAt f.script 0 ≠ none ∨ outcomeAt f.script 1 ≠ none)
    (kept : ¬ Discards f.script) : ∃ script, cleared f = { f with script := script } := by
  rw [cleared]
  split_ifs with hagain hremove
  · exact absurd ⟨fails, hagain, hremove⟩ kept
  · exact ⟨_, rfl⟩
  · exact ⟨_, rfl⟩

theorem openOrCreate_else (present : f.exists? = true) (nonempty : f.bytes ≠ [])
    (capacity : n ≤ maxDataBlocks)
    (fails : outcomeAt f.script 0 ≠ none ∨ outcomeAt f.script 1 ≠ none) :
    openOrCreate V masterKey n f = createNew V masterKey n (cleared f) := by
  have hbranch : ((f.script.tail.headD none).isNone && f.exists? &&
      !(f.script.headD none).isSome) = false := by
    rcases fails with hfirst | hsecond
    · have hfirst : (f.script.headD none).isSome = true := Option.isSome_iff_ne_none.mpr hfirst
      rw [hfirst, Bool.not_true, Bool.and_false]
    · have hsecond : (f.script.tail.headD none).isNone = false := by
        rw [outcomeAt, List.drop_one] at hsecond
        rwa [Option.isNone_eq_false_iff, Option.isSome_iff_ne_none]
      rw [hsecond, Bool.false_and, Bool.false_and]
  rw [openOrCreate, if_neg (by omega), bind_ok (isEmpty_eq present nonempty),
    bind_ok (pathExists_eq _)]
  simp only [hbranch]
  rw [if_neg Bool.false_ne_true, bind_ok (pathExists_eq _), cleared]
  have htwo : f.script.tail.tail = f.script.drop 2 := by
    rw [← List.drop_one, ← List.drop_one, List.drop_drop]
  have hthree : (f.script.drop 2).tail = f.script.drop 3 := List.tail_drop
  have hfour : (f.script.drop 3).tail = f.script.drop 4 := List.tail_drop
  dsimp only
  rw [htwo, hthree, present]
  cases hagain : outcomeAt f.script 2 with
  | some fault =>
    have hagain : (f.script.drop 2).headD none = some fault := hagain
    rw [hagain]
    rfl
  | none =>
    have hagain : (f.script.drop 2).headD none = none := hagain
    rw [hagain]
    cases hremove : outcomeAt f.script 3 with
    | none =>
      have hgone := removeFile_works (f := ⟨true, f.bytes, f.cursor, f.script.drop 3⟩) hremove
      rw [Option.isNone_none, Bool.true_and, if_pos rfl, bind_ok hgone, if_pos rfl, if_pos rfl]
      dsimp only
      rw [hfour]
    | some fault =>
      have hkept := removeFile_fails (f := ⟨true, f.bytes, f.cursor, f.script.drop 3⟩) hremove
      rw [Option.isNone_none, Bool.true_and, if_pos rfl, bind_ok hkept, if_pos rfl,
        if_neg (Option.some_ne_none fault)]
      dsimp only
      rw [hfour]

theorem openExisting_of_openOrCreate {v : Volume} {f' : File} (present : f.exists? = true)
    (nonempty : f.bytes ≠ []) (capacity : n ≤ maxDataBlocks) (kept : ¬ Discards f.script)
    (opens : openOrCreate V masterKey n f = .ok v f') :
    openExisting V masterKey { f with script := f.script.tail.tail } = .ok v f' := by
  by_cases works : Works 2 f
  · rwa [openOrCreate_works works nonempty capacity] at opens
  · have hfails := fails_of_not_works present works
    obtain ⟨script, hsame⟩ := cleared_kept hfails kept
    rw [openOrCreate_else present nonempty capacity hfails, hsame] at opens
    have habsent : f.exists? = false := (VaultSelection.createNew_ok opens).1
    rw [present] at habsent
    cases habsent

theorem openOrCreate_quiet (present : f.exists? = true) (nonempty : f.bytes ≠ [])
    (kept : ¬ (n ≤ maxDataBlocks ∧ Discards f.script)) :
    ∃ cursor script, finalState (openOrCreate V masterKey n f) =
      { f with cursor := cursor, script := script } := by
  by_cases capacity : n ≤ maxDataBlocks
  · by_cases works : Works 2 f
    · rw [openOrCreate_works works nonempty capacity]
      exact VaultSelection.openExisting_quiet V masterKey { f with script := f.script.tail.tail }
    · have hfails := fails_of_not_works present works
      obtain ⟨script, hsame⟩ := cleared_kept hfails fun discards => kept ⟨capacity, discards⟩
      have hthere : (cleared f).exists? = true := by
        rw [hsame]
        exact present
      rw [openOrCreate_else present nonempty capacity hfails, createNew_present hthere, hsame]
      exact ⟨_, _, rfl⟩
  · rw [openOrCreate, if_pos (by omega)]
    exact ⟨f.cursor, f.script, rfl⟩

end Opening

/-- What opening a container does to it when any calls may fail. If the size is one
`open_or_create` accepts, `metadata` or `exists` fails and the two calls that clear the
path do not, nothing of it is left: the call goes on as on a path where there was never
a file, whatever the key. In every other case not a byte changes. -/
theorem opening_keeps_or_replaces (V : VaultPrimitives) (masterKey : Bytes) (n : Nat) {f : File}
    (present : f.exists? = true) (nonempty : f.bytes ≠ []) :
    (n ≤ maxDataBlocks ∧ Discards f.script → openOrCreate V masterKey n f =
      createNew V masterKey n ⟨false, [], f.cursor, f.script.drop 4⟩) ∧
    (¬ (n ≤ maxDataBlocks ∧ Discards f.script) →
      (finalState (openOrCreate V masterKey n f)).exists? = true ∧
        (finalState (openOrCreate V masterKey n f)).bytes = f.bytes) := by
  constructor
  · rintro ⟨capacity, hfails, hagain, hremove⟩
    rw [openOrCreate_else present nonempty capacity hfails, cleared, if_pos hagain, if_pos hremove]
  · intro kept
    obtain ⟨cursor, script, hfinal⟩ : ∃ cursor script, finalState (openOrCreate V masterKey n f) =
        { f with cursor := cursor, script := script } := openOrCreate_quiet present nonempty kept
    rw [hfinal]
    exact ⟨present, rfl⟩

theorem opening_keeps_or_replaces_failedStat :
    let f : File := { sampleVolume.file with script := [some ⟨5, 0⟩] }
    let otherKey : Bytes := List.replicate 32 8
    openOrCreate symbolicVault otherKey 2 f =
      .ok (freshVolume symbolicVault otherKey 2 ⟨false, [], f.cursor, []⟩)
        (freshVolume symbolicVault otherKey 2 ⟨false, [], f.cursor, []⟩).file := by
  -- The metadata of a vault cannot be read once: it is replaced by an empty one of another
  -- size and under another key, and success is reported.
  intro f otherKey
  have hnonempty : f.bytes ≠ [] := by
    have hintact : Intact (freshSuperblock symbolicVault sampleKey 3) sampleVolume :=
      intact_fresh rfl
    have hlength : f.bytes.length = (dataStartBlock + 3) * blockSize := hintact.length
    intro hnil
    rw [hnil] at hlength
    exact absurd hlength (by decide)
  rw [(opening_keeps_or_replaces symbolicVault otherKey 2 (f := f) rfl hnonempty).1
    ⟨by decide, by decide⟩]
  exact createNew_healthy rfl rfl

end SecureCore.VirtualVolume
