import Mathlib.Data.List.DropRight
import Mathlib.Data.List.Rotate
import Mathlib.Tactic

/-! A ring of slots that is written round and round. Read from the next position
on, it shows the last elements in the order they came; the slots in front of the
count are these elements in some order. -/

namespace SecureCore.RingWindow

variable {α : Type} {n next : Nat} {blank : α} {xs slots : List α}

theorem rotate_set_succ (inside : next < slots.length) (x : α) :
    (slots.set next x).rotate ((next + 1) % slots.length) = (slots.rotate next).tail ++ [x] := by
  obtain ⟨front, y, back, rfl, rfl⟩ :
      ∃ front y back, slots = front ++ y :: back ∧ front.length = next :=
    ⟨slots.take next, slots.get ⟨next, inside⟩, slots.drop (next + 1), by simp, by simp; omega⟩
  have hset : (front ++ y :: back).set front.length x = (front ++ [x]) ++ back := by simp
  have hlength : (front ++ y :: back).length = ((front ++ [x]) ++ back).length := by simp
  have hnext : front.length + 1 = (front ++ [x]).length := by simp
  rw [hset, hlength, List.rotate_mod, hnext, List.rotate_append_length_eq,
    List.rotate_append_length_eq]
  simp

theorem rtake_concat (pos : 0 < n) (long : n ≤ xs.length) (x : α) :
    (xs ++ [x]).rtake n = (xs.rtake n).tail ++ [x] := by
  obtain ⟨m, rfl⟩ : ∃ m, n = m + 1 := ⟨n - 1, by omega⟩
  rw [List.rtake_concat_succ, List.rtake, List.rtake, List.tail_drop]
  congr 2
  omega

theorem map_rtake {β : Type} (f : α → β) (xs : List α) (n : Nat) :
    (xs.map f).rtake n = (xs.rtake n).map f := by
  rw [List.rtake, List.rtake, List.length_map, List.map_drop]

/-- The elements were written in turn, from the first slot on, into blank slots. -/
structure Trails (n : Nat) (blank : α) (xs slots : List α) (next : Nat) : Prop where
  width : slots.length = n
  next_eq : next = xs.length % n
  order : slots.rotate next = (List.replicate n blank ++ xs).rtake n

namespace Trails

theorem start (n : Nat) (blank : α) : Trails n blank [] (List.replicate n blank) 0 where
  width := List.length_replicate
  next_eq := by simp
  order := by simp [List.rtake]

theorem push (pos : 0 < n) (h : Trails n blank xs slots next) (x : α) :
    Trails n blank (xs ++ [x]) (slots.set next x) ((next + 1) % n) where
  width := by rw [List.length_set, h.width]
  next_eq := by rw [h.next_eq, List.length_append, List.length_singleton, Nat.mod_add_mod]
  order := by
    have inside : next < slots.length := by
      rw [h.width, h.next_eq]
      exact Nat.mod_lt _ pos
    have hrotate := rotate_set_succ inside x
    rw [h.width, h.order] at hrotate
    rw [hrotate, ← List.append_assoc, rtake_concat pos (by simp)]

theorem front_perm (h : Trails n blank xs slots next) :
    (slots.take (min xs.length n)).Perm (xs.rtake n) := by
  have horder := h.order
  -- A full ring is a rotation of the window; before that nothing has wrapped, and the
  -- blanks stand behind the elements.
  by_cases full : n ≤ xs.length
  · have hlast : (List.replicate n blank ++ xs).rtake n = xs.rtake n := by
      rw [List.rtake, List.rtake, List.length_append, List.length_replicate,
        Nat.add_sub_cancel_left, List.drop_append, List.drop_replicate,
        Nat.sub_eq_zero_of_le full, List.length_replicate]
      rfl
    rw [Nat.min_eq_right full, List.take_of_length_le h.width.le, ← hlast, ← horder]
    exact (List.rotate_perm slots next).symm
  · have hnext : next = xs.length := by rw [h.next_eq, Nat.mod_eq_of_lt (by omega)]
    have hlast : (List.replicate n blank ++ xs).rtake n =
        List.replicate (n - xs.length) blank ++ xs := by
      rw [List.rtake, List.length_append, List.length_replicate, Nat.add_sub_cancel_left,
        List.drop_append_of_le_length (by simp; omega), List.drop_replicate]
    rw [hlast, hnext, List.rotate_eq_drop_append_take (by rw [h.width]; omega)] at horder
    have hsame := (List.append_inj horder (by simp [h.width])).2
    rw [Nat.min_eq_left (by omega), hsame, List.rtake, Nat.sub_eq_zero_of_le (by omega)]
    exact List.Perm.refl xs

end Trails

end SecureCore.RingWindow
