import Mathlib.Data.List.Lex
import Mathlib.Data.Nat.Digits.Defs

/-!
# Big-endian numbers

Digits with the most significant one first. Of two numbers with as many digits the one with the
lexicographically smaller digits is the smaller number (`lt_iff_ofDigits_lt`); this needs the equal
lengths and this order of the digits. For bytes, `value` reads a number of any width and `bytes`
writes the last ones of a number.
-/

namespace BigEndian

/-! ## Digits -/

theorem ofDigits_reverse_lt {b : ℕ} (hb : 1 < b) {ds : List ℕ} (h : ∀ d ∈ ds, d < b) :
    Nat.ofDigits b ds.reverse < b ^ ds.length := by
  rw [← List.length_reverse]
  exact Nat.ofDigits_lt_base_pow_length hb fun d hd => h d (List.mem_reverse.mp hd)

/-- A smaller leading digit makes a smaller number. -/
theorem add_mul_lt_of_lt {p r x y : ℕ} (hr : r < p) (hlt : x < y) (s : ℕ) :
    r + p * x < s + p * y := by
  have hstep : p * (x + 1) ≤ p * y := Nat.mul_le_mul_left p hlt
  rw [Nat.mul_succ] at hstep
  omega

/-- **Equally many digits are ordered as their numbers are.** -/
theorem lt_iff_ofDigits_lt {b : ℕ} (hb : 1 < b) {xs ys : List ℕ} (hlen : xs.length = ys.length)
    (hxs : ∀ d ∈ xs, d < b) (hys : ∀ d ∈ ys, d < b) :
    xs < ys ↔ Nat.ofDigits b xs.reverse < Nat.ofDigits b ys.reverse := by
  induction xs generalizing ys with
  | nil =>
    obtain rfl := List.length_eq_zero_iff.mp hlen.symm
    simp
  | cons x xs ih =>
    cases ys with
    | nil => cases hlen
    | cons y ys =>
      have hlen' : xs.length = ys.length := Nat.succ.inj hlen
      obtain ⟨-, hxs⟩ := List.forall_mem_cons.mp hxs
      obtain ⟨-, hys⟩ := List.forall_mem_cons.mp hys
      have hxlt := ofDigits_reverse_lt hb hxs
      have hylt := ofDigits_reverse_lt hb hys
      rw [List.cons_lt_cons_iff, ih hlen' hxs hys, Nat.ofDigits_reverse_cons,
        Nat.ofDigits_reverse_cons, ← hlen']
      rw [← hlen'] at hylt
      -- the first digit decides, and where it is the same the rest does
      rcases Nat.lt_trichotomy x y with hlt | rfl | hgt
      · exact iff_of_true (.inl hlt) (add_mul_lt_of_lt hxlt hlt _)
      · simp
      · have hnot : ¬(x < y ∨ x = y ∧ Nat.ofDigits b xs.reverse < Nat.ofDigits b ys.reverse) := by
          omega
        exact iff_of_false hnot (Nat.lt_asymm (add_mul_lt_of_lt hylt hgt _))

/-! ## Bytes -/

/-- The number of some bytes. -/
def value (bs : List UInt8) : ℕ := Nat.ofDigits 256 (bs.map UInt8.toNat).reverse

/-- The last `width` bytes of a number. -/
def bytes : (width n : ℕ) → List UInt8
  | 0, _ => []
  | width + 1, n => UInt8.ofNat (n / 256 ^ width) :: bytes width n

@[simp] theorem length_bytes (width n : ℕ) : (bytes width n).length = width := by
  induction width with
  | zero => rfl
  | succ width ih => rw [bytes, List.length_cons, ih]

theorem value_cons (b : UInt8) (bs : List UInt8) :
    value (b :: bs) = value bs + 256 ^ bs.length * b.toNat := by
  rw [value, List.map_cons, Nat.ofDigits_reverse_cons, List.length_map, value]

theorem toNat_lt_of_mem {bs : List UInt8} : ∀ d ∈ bs.map UInt8.toNat, d < 256 := by
  intro d hd
  obtain ⟨b, -, rfl⟩ := List.mem_map.mp hd
  exact b.toNat_lt

theorem value_lt (bs : List UInt8) : value bs < 256 ^ bs.length := by
  have hdigit : ∀ d ∈ bs.map UInt8.toNat, d < 256 := toNat_lt_of_mem
  have hlt := ofDigits_reverse_lt (by omega) hdigit
  rwa [List.length_map] at hlt

/-- **The bytes of a number give it back**, up to the width. -/
theorem value_bytes (width n : ℕ) : value (bytes width n) = n % 256 ^ width := by
  induction width with
  | zero => exact (Nat.mod_one n).symm
  | succ width ih =>
    rw [bytes, value_cons, ih, length_bytes, UInt8.toNat_ofNat']
    exact Nat.mod_pow_succ.symm

/-- Leading zeros count for nothing. -/
theorem value_zeros_append (k : ℕ) (bs : List UInt8) :
    value (List.replicate k 0 ++ bs) = value bs := by
  rw [value, List.map_append, List.map_replicate, List.reverse_append, List.reverse_replicate]
  exact Nat.ofDigits_append_replicate_zero _

theorem map_toNat_lt_iff {xs ys : List UInt8} :
    xs.map UInt8.toNat < ys.map UInt8.toNat ↔ xs < ys := by
  induction xs generalizing ys with
  | nil => cases ys <;> simp
  | cons x xs ih =>
    cases ys with
    | nil => simp
    | cons y ys =>
      rw [List.map_cons, List.map_cons, List.cons_lt_cons_iff, List.cons_lt_cons_iff, ih,
        UInt8.lt_iff_toNat_lt, UInt8.toNat_inj]

/-- **Equally many bytes are ordered as their numbers are.** -/
theorem lt_iff_value_lt {xs ys : List UInt8} (hlen : xs.length = ys.length) :
    xs < ys ↔ value xs < value ys := by
  rw [← map_toNat_lt_iff]
  refine lt_iff_ofDigits_lt (by decide) ?_ toNat_lt_of_mem toNat_lt_of_mem
  rw [List.length_map, List.length_map, hlen]

/-- Equally many bytes of one number are the same. -/
theorem eq_of_value_eq {xs ys : List UInt8} (hlen : xs.length = ys.length)
    (h : value xs = value ys) : xs = ys := by
  have hle : ∀ {xs ys : List UInt8}, xs.length = ys.length → value xs = value ys → xs ≤ ys := by
    intro xs ys hlen h hlt
    exact absurd ((lt_iff_value_lt hlen.symm).mp hlt) (h ▸ Nat.lt_irrefl _)
  exact List.le_antisymm (hle hlen h) (hle hlen.symm h.symm)

/-- **A number gives its bytes back.** -/
theorem bytes_value (bs : List UInt8) : bytes bs.length (value bs) = bs := by
  apply eq_of_value_eq (length_bytes _ _)
  rw [value_bytes, Nat.mod_eq_of_lt (value_lt bs)]

end BigEndian
