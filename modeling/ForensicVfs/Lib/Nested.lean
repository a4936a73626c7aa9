import Mathlib.Algebra.GroupWithZero.Nat
import Mathlib.Order.Interval.Set.Basic

/-!
# Nested windows

A window is a base and a length; each window of a list lies in the one before it, the first in
`[0, total)`, and its base counts from the start of that one. The common part of them all is again a
window: it starts at the sum of the bases, and its length is what clamping each window to the one
before it leaves (`common_eq`).
-/

namespace Nested

/-- Where the last window starts. -/
def origin (ws : List (ℕ × ℕ)) : ℕ := (ws.map Prod.fst).sum

/-- The length of the last window, each clamped to the one before. -/
def room : ℕ → List (ℕ × ℕ) → ℕ
  | total, [] => total
  | total, w :: ws => room (min w.2 (total - w.1)) ws

/-- What lies in every window of a list, the first base counted from `o`. -/
def inAll : ℕ → List (ℕ × ℕ) → Set ℕ
  | _, [] => Set.univ
  | o, w :: ws => Set.Ico (o + w.1) (o + w.1 + w.2) ∩ inAll (o + w.1) ws

/-- What lies in every window of a list, all within `[0, total)`. -/
def common (total : ℕ) (ws : List (ℕ × ℕ)) : Set ℕ := Set.Iio total ∩ inAll 0 ws

@[simp] theorem origin_nil : origin [] = 0 := rfl

@[simp] theorem origin_cons (w : ℕ × ℕ) (ws : List (ℕ × ℕ)) :
    origin (w :: ws) = w.1 + origin ws := List.sum_cons

/-- The last window ends within the first, if it is not empty. -/
theorem room_le (total : ℕ) (ws : List (ℕ × ℕ)) : room total ws ≤ total - origin ws := by
  induction ws generalizing total with
  | nil => exact Nat.le_refl total
  | cons w ws ih =>
    have h := ih (min w.2 (total - w.1))
    rw [room, origin_cons]
    omega

theorem inter_inAll (o total : ℕ) (ws : List (ℕ × ℕ)) :
    Set.Ico o (o + total) ∩ inAll o ws =
      Set.Ico (o + origin ws) (o + origin ws + room total ws) := by
  induction ws generalizing o total with
  | nil => exact Set.inter_univ _
  | cons w ws ih =>
    have hclamp : Set.Ico o (o + total) ∩ Set.Ico (o + w.1) (o + w.1 + w.2) =
        Set.Ico (o + w.1) (o + w.1 + min w.2 (total - w.1)) := by
      ext x
      simp only [Set.mem_inter_iff, Set.mem_Ico]
      omega
    rw [inAll, ← Set.inter_assoc, hclamp, ih, origin_cons, room, ← Nat.add_assoc]

/-- **The common part of nested windows is a window.** -/
theorem common_eq (total : ℕ) (ws : List (ℕ × ℕ)) :
    common total ws = Set.Ico (origin ws) (origin ws + room total ws) := by
  have h := inter_inAll 0 total ws
  rw [Nat.zero_add, Nat.zero_add] at h
  rw [← h, common]
  congr 1
  ext x
  simp

end Nested
