import Mathlib

namespace Foundation.Segments

open List

/-!
# Concatenations cut at recorded offsets

A flat list together with the offsets at which its parts start is a common
way to store a list of lists.  The lemmas here relate the offsets to the
parts: the slice between two consecutive offsets is the part itself, and
every offset past the last part is the total length.
-/

variable {α : Type}
variable {index : Nat}

/-- Where the part at `index` starts in the concatenation. -/
def offset (parts : List (List α)) (index : Nat) : Nat := (parts.take index).flatten.length

section Parts

variable (parts : List (List α))

@[simp] theorem offset_zero : offset parts 0 = 0 := by
  simp [offset]

@[simp] theorem offset_nil (index : Nat) : offset ([] : List (List α)) index = 0 := by
  simp [offset]

@[simp] theorem offset_cons_succ (head : List α) (tail : List (List α)) (index : Nat) :
    offset (head :: tail) (index + 1) = head.length + offset tail index := by
  simp [offset]

theorem offset_of_length_le {parts : List (List α)} (past : parts.length ≤ index) :
    offset parts index = parts.flatten.length := by
  rw [offset, take_of_length_le past]

theorem offset_append_left {front back : List (List α)} (inFront : index ≤ front.length) :
    offset (front ++ back) index = offset front index := by
  rw [offset, take_append_of_le_length inFront, offset]

theorem offset_append_right (front back : List (List α)) (index : Nat) :
    offset (front ++ back) (front.length + index) = front.flatten.length + offset back index := by
  rw [offset, take_length_add_append, flatten_append, length_append, offset]

/-- Consecutive offsets differ by the length of the part between them. -/
theorem offset_succ (index : Nat) :
    offset parts (index + 1) = offset parts index + (parts.getD index []).length := by
  induction parts generalizing index with
  | nil => simp
  | cons head tail ih =>
    cases index with
    | zero => simp
    | succ index => simp [ih, Nat.add_assoc]

theorem offset_le_succ (index : Nat) : offset parts index ≤ offset parts (index + 1) := by
  rw [offset_succ]
  exact Nat.le_add_right _ _

/-- The slice between two consecutive offsets is the part stored there. -/
theorem slice_eq_part (index : Nat) :
    (parts.flatten.take (offset parts (index + 1))).drop (offset parts index) =
      parts.getD index [] := by
  induction parts generalizing index with
  | nil => simp
  | cons head tail ih =>
    cases index with
    | zero => simp
    | succ index =>
      rw [offset_cons_succ, offset_cons_succ, flatten_cons, take_length_add_append,
        drop_length_add_append, getD_cons_succ]
      exact ih index

end Parts

end Foundation.Segments
