import Mathlib.Algebra.Group.Int.Defs
import Mathlib.Algebra.GroupWithZero.Nat

/-!
# Machine arithmetic

The `u64` operations of the source, and the arithmetic a function computes with as a parameter
(`Arith`). A function written over it is run with the arithmetic of the program, and run with one
that stops at the first operation whose result is not the exact one: where the second run gets
through, the first has not overflowed.
-/

namespace ForensicVfs

/-- `u64::saturating_sub` -/
def saturatingSub (a b : UInt64) : UInt64 := if b ≤ a then a - b else 0

/-- `u64::saturating_add` -/
def saturatingAdd (a b : UInt64) : UInt64 :=
  if a.toNat + b.toNat < 2 ^ 64 then a + b else 0xFFFFFFFFFFFFFFFF

@[simp] theorem toNat_saturatingSub (a b : UInt64) :
    (saturatingSub a b).toNat = a.toNat - b.toNat := by
  unfold saturatingSub
  split
  · next h => exact UInt64.toNat_sub_of_le _ _ h
  · next h =>
    rw [UInt64.le_iff_toNat_le] at h
    show 0 = a.toNat - b.toNat
    omega

@[simp] theorem toNat_saturatingAdd (a b : UInt64) :
    (saturatingAdd a b).toNat = min (a.toNat + b.toNat) (2 ^ 64 - 1) := by
  unfold saturatingAdd
  split
  · next h =>
    rw [UInt64.toNat_add]
    omega
  · next h =>
    show 2 ^ 64 - 1 = _
    omega

theorem toNat_ofNat_of_lt {n : Nat} (h : n < 2 ^ 64) : (UInt64.ofNat n).toNat = n :=
  UInt64.toNat_ofNat_of_lt' h

theorem toNat_sub_of_lt {a b : UInt64} (h : a < b) : (b - a).toNat = b.toNat - a.toNat :=
  UInt64.toNat_sub_of_le _ _ (UInt64.le_of_lt h)

/-- The operations that may miss the exact result: the difference of two `u64`, their saturating
sum, and the sum of two `i128`. -/
structure Arith (m : Type → Type) where
  sub : UInt64 → UInt64 → m UInt64
  saturatingAdd : UInt64 → UInt64 → m UInt64
  addI128 : Int → Int → m Int

namespace Arith

/-- The arithmetic of the program; an `i128` is an integer. -/
def plain : Arith Id where
  sub a b := a - b
  saturatingAdd := ForensicVfs.saturatingAdd
  addI128 a b := a + b

/-- The same operations, as long as they are exact. -/
def checked : Arith Option where
  sub a b := if b ≤ a then some (a - b) else none
  saturatingAdd a b := if a.toNat + b.toNat < 2 ^ 64 then some (a + b) else none
  addI128 a b := if -2 ^ 127 ≤ a + b ∧ a + b < 2 ^ 127 then some (a + b) else none

theorem checked_sub {a b : UInt64} (h : b ≤ a) : checked.sub a b = some (a - b) := if_pos h

theorem checked_saturatingAdd {a b : UInt64} (h : a.toNat + b.toNat < 2 ^ 64) :
    checked.saturatingAdd a b = some (ForensicVfs.saturatingAdd a b) := by
  unfold ForensicVfs.saturatingAdd
  rw [if_pos h]
  exact if_pos h

theorem checked_addI128 {a b : Int} (h : -2 ^ 127 ≤ a + b ∧ a + b < 2 ^ 127) :
    checked.addI128 a b = some (a + b) :=
  if_pos h

end Arith

end ForensicVfs
