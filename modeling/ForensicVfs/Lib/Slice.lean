import Mathlib.Data.List.TakeDrop

/-!
# Slices

`slice l i n` is the part of `l` that starts at `i` and has `n` elements, or as many as there are.
-/

namespace Slice

variable {α : Type}

/-- The `n` elements from `i` on, as far as there are any. -/
def slice (l : List α) (i n : ℕ) : List α := (l.drop i).take n

variable {l : List α} {i j m n : ℕ}

@[simp] theorem length_slice : (slice l i n).length = min n (l.length - i) := by
  rw [slice, List.length_take, List.length_drop]

@[simp] theorem slice_zero : slice l i 0 = [] := List.take_zero

theorem slice_self : slice l 0 l.length = l := by
  rw [slice, List.drop_zero, List.take_length]

theorem take_slice : (slice l i n).take m = slice l i (min m n) := by
  rw [slice, List.take_take, slice]

theorem drop_slice : (slice l i n).drop j = slice l (i + j) (n - j) := by
  rw [slice, List.drop_take, List.drop_drop, slice]

/-- A slice of a prefix stops at its end. -/
theorem slice_take : slice (l.take m) i n = slice l i (min n (m - i)) := by
  rw [slice, List.drop_take, List.take_take, slice]

/-- **A slice of a slice** is a slice. -/
theorem slice_slice : slice (slice l i n) j m = slice l (i + j) (min m (n - j)) := by
  rw [slice, drop_slice, take_slice]

theorem slice_append : slice l i n ++ slice l (i + n) m = slice l i (n + m) := by
  rw [slice, slice, slice, List.take_add, List.drop_drop]

/-- A slice is as long as there are elements. -/
theorem slice_congr (h : min m (l.length - i) = min n (l.length - i)) :
    slice l i m = slice l i n := by
  rw [slice, slice, List.take_eq_take_iff, List.length_drop, h]

/-- A prefix that is a slice ends within the list. -/
theorem add_le_of_take_eq_slice {xs : List α} (h : xs.take n = slice l i n) (hn : n ≤ xs.length)
    (hpos : 0 < n) : i + n ≤ l.length := by
  have hlen := congrArg List.length h
  rw [List.length_take, length_slice] at hlen
  omega

end Slice
