import Mathlib.Data.List.Basic
import Mathlib.Data.Nat.ModEq

/-!
# Circular Arrays

The elements of an array read from an index on, going on at the front behind the end. A circular
queue is such a stretch: adding an element writes the place behind it, taking one moves its start.
-/

namespace Circular

open Function List

variable {α : Type} {data : ℕ → α} {cap head n : ℕ}

/-- The `n` elements from `head` on, in an array of `cap` elements. -/
def read (data : ℕ → α) (cap head n : ℕ) : List α :=
  (List.range n).map fun i => data ((head + i) % cap)

@[simp] theorem length_read : (read data cap head n).length = n := by simp [read]

@[simp] theorem read_zero : read data cap head 0 = [] := rfl

/-- The index behind `head`, as code with one comparison computes it. -/
theorem next_eq (hhead : head < cap) :
    (if head = cap - 1 then 0 else head + 1) = (head + 1) % cap := by
  split
  · rename_i h
    rw [h, Nat.sub_add_cancel (by omega), Nat.mod_self]
  · rw [Nat.mod_eq_of_lt (by omega)]

theorem read_mod : read data cap (head % cap) n = read data cap head n := by
  simp [read, Nat.mod_add_mod]

/-- Taking the first element moves the start. -/
theorem read_succ (hhead : head < cap) :
    read data cap head (n + 1) = data head :: read data cap ((head + 1) % cap) n := by
  rw [read_mod, read, range_succ_eq_map, map_cons, List.map_map, Nat.add_zero,
    Nat.mod_eq_of_lt hhead]
  refine congrArg _ (map_congr_left fun i _ => ?_)
  rw [comp_apply, Nat.succ_eq_add_one, Nat.add_right_comm, Nat.add_assoc]

/-- Taking the last element leaves the start. -/
theorem dropLast_read : (read data cap head (n + 1)).dropLast = read data cap head n := by
  rw [read, range_succ, map_append, map_singleton, dropLast_concat, read]

/-- The place behind a stretch that does not fill the array is not in it. -/
theorem ne_of_lt_length {i : ℕ} (hi : i < n) (hn : n < cap) :
    (head + i) % cap ≠ (head + n) % cap := by
  intro h
  have hmod : i % cap = n % cap := Nat.ModEq.add_left_cancel' head h
  rw [Nat.mod_eq_of_lt (hi.trans hn), Nat.mod_eq_of_lt hn] at hmod
  omega

/-- Adding an element writes the place behind. -/
theorem read_update (hn : n < cap) (x : α) :
    read (update data ((head + n) % cap) x) cap head (n + 1) =
      read data cap head n ++ [x] := by
  rw [read, range_succ, map_append, map_singleton, update_self, read]
  refine congrArg (· ++ [x]) (map_congr_left fun i hi => ?_)
  rw [update_of_ne (ne_of_lt_length (mem_range.mp hi) hn)]

end Circular
