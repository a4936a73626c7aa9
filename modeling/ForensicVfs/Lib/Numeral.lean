import Mathlib.Data.List.Induction
import Mathlib.Data.Nat.Digits.Lemmas
import Mathlib.Tactic.IntervalCases

/-!
# Unsigned numerals over bytes

Positional numerals as ASCII bytes. `numeral radix n` is the plain numeral of `n`; `unsigned` reads
what a lenient integer parser reads: an optional `+`, then one or more digits of either case, with
any number of leading zeros. The value is unbounded; a width is a test on the value.
-/

namespace Numeral

/-! ## Digits -/

/-- The byte of the digit `v`: `0`-`9`, then letters from `letter` on. -/
def digitByte (letter : UInt8) (v : Nat) : UInt8 :=
  if v < 10 then 48 + UInt8.ofNat v else letter + UInt8.ofNat (v - 10)

/-- The value of a digit byte of either case, below `radix`. -/
def digitValue (radix : Nat) (c : UInt8) : Option Nat :=
  let v := c.toNat
  let value :=
    if 48 ≤ v ∧ v ≤ 57 then some (v - 48)
    else if 97 ≤ v ∧ v ≤ 122 then some (v - 87)
    else if 65 ≤ v ∧ v ≤ 90 then some (v - 55)
    else none
  value.filter (· < radix)

theorem digitValue_digitByte {letter : UInt8} (hl : letter = 65 ∨ letter = 97) {radix v : Nat}
    (hr : radix ≤ 16) (hv : v < radix) : digitValue radix (digitByte letter v) = some v := by
  have hv16 : v < 16 := Nat.lt_of_lt_of_le hv hr
  rcases hl with rfl | rfl <;> interval_cases v <;> simp [digitValue, digitByte, hv]

/-- Digit bytes are the ASCII letters and decimal digits. -/
theorem digitValue_some_bound {radix : Nat} {c : UInt8} {v : Nat}
    (h : digitValue radix c = some v) :
    (48 ≤ c.toNat ∧ c.toNat ≤ 57) ∨ (65 ≤ c.toNat ∧ c.toNat ≤ 90) ∨
      (97 ≤ c.toNat ∧ c.toNat ≤ 122) := by
  simp only [digitValue, Option.filter_eq_some_iff, decide_eq_true_eq] at h
  obtain ⟨h, -⟩ := h
  split at h
  · next hc => exact Or.inl hc
  · split at h
    · next hc => exact Or.inr (Or.inr hc)
    · split at h
      · next hc => exact Or.inr (Or.inl hc)
      · cases h

/-! ## Values -/

/-- The value of a string of digits, if every byte is one. -/
def digitsValue (radix : Nat) (s : List UInt8) : Option Nat :=
  s.foldlM (fun acc c => (digitValue radix c).map (acc * radix + ·)) 0

@[simp] theorem digitsValue_nil (radix : Nat) : digitsValue radix [] = some 0 := rfl

theorem digitsValue_append_singleton (radix : Nat) (s : List UInt8) (c : UInt8) :
    digitsValue radix (s ++ [c]) =
      (digitsValue radix s).bind fun acc => (digitValue radix c).map (acc * radix + ·) := by
  simp only [digitsValue, List.foldlM_append, List.foldlM_cons, List.foldlM_nil]
  cases s.foldlM (fun acc c => (digitValue radix c).map (acc * radix + ·)) 0 <;> simp

/-- Every byte of a string with a value is a digit. -/
theorem digitsValue_mem {radix : Nat} {s : List UInt8} {n : Nat}
    (h : digitsValue radix s = some n) : ∀ c ∈ s, ∃ v, digitValue radix c = some v := by
  induction s using List.reverseRecOn generalizing n with
  | nil => simp
  | append_singleton s d ih =>
    rw [digitsValue_append_singleton] at h
    obtain ⟨acc, hs, hd⟩ := Option.bind_eq_some_iff.mp h
    obtain ⟨v, hv, -⟩ := Option.map_eq_some_iff.mp hd
    intro c hc
    rcases List.mem_append.mp hc with hc | hc
    · exact ih hs c hc
    · exact ⟨v, List.mem_singleton.mp hc ▸ hv⟩

/-- The text after an optional `+` (the byte 43). -/
def dropPlus : List UInt8 → List UInt8
  | 43 :: t => t
  | t => t

theorem dropPlus_of_ne {c : UInt8} {s : List UInt8} (hc : c ≠ 43) : dropPlus (c :: s) = c :: s := by
  unfold dropPlus
  split
  · next heq => cases heq; exact absurd rfl hc
  · rfl

theorem mem_dropPlus {s : List UInt8} {c : UInt8} (hc : c ∈ s) : c = 43 ∨ c ∈ dropPlus s := by
  unfold dropPlus
  split
  · exact List.mem_cons.mp hc
  · exact Or.inr hc

/-- The integer an unsigned integer text denotes: an optional `+`, then at least one digit. -/
def unsigned (radix : Nat) (s : List UInt8) : Option Nat :=
  if dropPlus s = [] then none else digitsValue radix (dropPlus s)

theorem unsigned_eq_some {radix : Nat} {s : List UInt8} {n : Nat} :
    unsigned radix s = some n ↔ dropPlus s ≠ [] ∧ digitsValue radix (dropPlus s) = some n := by
  unfold unsigned
  split <;> simp_all

/-- The bytes of an integer text are `+` and digits. -/
theorem unsigned_mem {radix : Nat} {s : List UInt8} {n : Nat} (h : unsigned radix s = some n)
    {c : UInt8} (hc : c ∈ s) : c = 43 ∨ ∃ v, digitValue radix c = some v := by
  obtain ⟨-, hv⟩ := unsigned_eq_some.mp h
  rcases mem_dropPlus hc with rfl | hc
  · exact Or.inl rfl
  · exact Or.inr (digitsValue_mem hv c hc)

/-- Without a sign the value is that of the digits. -/
theorem unsigned_of_ne_plus {radix : Nat} {c : UInt8} {s : List UInt8} (hc : c ≠ 43) :
    unsigned radix (c :: s) = digitsValue radix (c :: s) := by
  simp [unsigned, dropPlus_of_ne hc]

/-! ## The plain numeral -/

/-- The plain numeral of `n`: no sign, no leading zero, lower-case letters. -/
def numeral (radix n : Nat) : List UInt8 :=
  if n = 0 then [48] else (Nat.digits radix n).reverse.map (digitByte 97)

/-- The decimal numeral. -/
abbrev decimal (n : Nat) : List UInt8 := numeral 10 n

theorem mem_numeral {radix n : Nat} (hr : 1 < radix) {c : UInt8} (hc : c ∈ numeral radix n) :
    ∃ v, v < radix ∧ c = digitByte 97 v := by
  unfold numeral at hc
  split at hc
  · exact ⟨0, by omega, List.mem_singleton.mp hc⟩
  · obtain ⟨v, hv, rfl⟩ := List.mem_map.mp hc
    exact ⟨v, Nat.digits_lt_base hr (List.mem_reverse.mp hv), rfl⟩

theorem numeral_ne_nil (radix n : Nat) : numeral radix n ≠ [] := by
  unfold numeral
  split
  · simp
  · next hn => simpa using Nat.digits_ne_nil_iff_ne_zero.mpr hn

theorem digitsValue_digits {radix : Nat} (h1 : 1 < radix) (h16 : radix ≤ 16) (n : Nat) :
    digitsValue radix ((Nat.digits radix n).reverse.map (digitByte 97)) = some n := by
  induction n using Nat.strongRecOn with
  | _ n ih =>
    rcases Nat.eq_zero_or_pos n with rfl | hn
    · simp
    · have hdiv : n / radix < n := Nat.div_lt_self hn h1
      have hmod : n % radix < radix := Nat.mod_lt n (by omega)
      rw [Nat.digits_def' h1 hn, List.reverse_cons, List.map_append, List.map_singleton,
        digitsValue_append_singleton, ih _ hdiv, Option.bind_some,
        digitValue_digitByte (Or.inr rfl) h16 hmod, Option.map_some, Nat.div_add_mod']

/-- **Round trip**: the plain numeral of `n` denotes `n`. -/
theorem unsigned_numeral {radix : Nat} (h1 : 1 < radix) (h16 : radix ≤ 16) (n : Nat) :
    unsigned radix (numeral radix n) = some n := by
  have hplus : ∀ c ∈ numeral radix n, c ≠ 43 := by
    rintro c hc rfl
    obtain ⟨v, hv, he⟩ := mem_numeral h1 hc
    have := digitValue_digitByte (Or.inr rfl) h16 hv
    rw [← he] at this
    simp [digitValue] at this
  cases hs : numeral radix n with
  | nil => exact absurd hs (numeral_ne_nil radix n)
  | cons c t =>
    rw [hs] at hplus
    rw [unsigned_of_ne_plus (hplus c List.mem_cons_self), ← hs]
    unfold numeral
    split
    · next hn =>
      subst hn
      have hd : digitValue radix 48 = some 0 := by
        simp only [digitValue, UInt8.reduceToNat]
        simp
        omega
      simp [digitsValue, hd]
    · exact digitsValue_digits h1 h16 n

theorem unsigned_decimal (n : Nat) : unsigned 10 (decimal n) = some n :=
  unsigned_numeral (by omega) (by omega) n

/-- The bytes of a decimal numeral are `0` to `9`. -/
theorem decimal_bound {n : Nat} {c : UInt8} (hc : c ∈ decimal n) :
    48 ≤ c.toNat ∧ c.toNat ≤ 57 := by
  obtain ⟨v, hv, rfl⟩ := mem_numeral (by omega) hc
  interval_cases v <;> decide

/-! ## Two-digit bytes -/

/-- The two digits of a byte, letters from `letter` on. -/
def bytePair (letter : UInt8) (b : UInt8) : List UInt8 :=
  [digitByte letter (b.toNat / 16), digitByte letter (b.toNat % 16)]

/-- A hexadecimal digit of the case `letter` starts. -/
def IsHexDigit (letter c : UInt8) : Prop := ∃ v, v < 16 ∧ c = digitByte letter v

instance (letter c : UInt8) : Decidable (IsHexDigit letter c) :=
  inferInstanceAs (Decidable (∃ v, v < 16 ∧ c = digitByte letter v))

theorem bytePair_isHexDigit (letter b : UInt8) : ∀ c ∈ bytePair letter b, IsHexDigit letter c := by
  have hb : b.toNat < 256 := b.toNat_lt
  intro c hc
  simp only [bytePair, List.mem_cons, List.not_mem_nil, or_false] at hc
  rcases hc with rfl | rfl
  · exact ⟨_, by omega, rfl⟩
  · exact ⟨_, by omega, rfl⟩

theorem IsHexDigit.digitValue {letter c : UInt8} (hl : letter = 65 ∨ letter = 97)
    (h : IsHexDigit letter c) : ∃ v, v < 16 ∧ c = digitByte letter v ∧
      Numeral.digitValue 16 c = some v := by
  obtain ⟨v, hv, rfl⟩ := h
  exact ⟨v, hv, rfl, digitValue_digitByte hl (Nat.le_refl 16) hv⟩

theorem IsHexDigit.ne_plus {letter c : UInt8} (hl : letter = 65 ∨ letter = 97)
    (h : IsHexDigit letter c) : c ≠ 43 := by
  rintro rfl
  obtain ⟨v, -, -, hd⟩ := h.digitValue hl
  simp [Numeral.digitValue] at hd

/-- Two digits of one case have the value their positions say. -/
theorem unsigned_hexDigits {letter x y : UInt8} (hl : letter = 65 ∨ letter = 97) {p q : Nat}
    (hp : p < 16) (hq : q < 16) (hx : x = digitByte letter p) (hy : y = digitByte letter q) :
    unsigned 16 [x, y] = some (p * 16 + q) := by
  have hx43 : x ≠ 43 := IsHexDigit.ne_plus hl ⟨p, hp, hx⟩
  rw [unsigned_of_ne_plus hx43]
  simp [digitsValue, hx, hy, digitValue_digitByte hl (Nat.le_refl 16) hp,
    digitValue_digitByte hl (Nat.le_refl 16) hq]

/-- **Round trip**: the two digits of a byte denote the byte. -/
theorem unsigned_bytePair {letter : UInt8} (hl : letter = 65 ∨ letter = 97) (b : UInt8) :
    unsigned 16 (bytePair letter b) = some b.toNat := by
  have hb : b.toNat < 256 := b.toNat_lt
  rw [bytePair, unsigned_hexDigits hl (by omega) (by omega) rfl rfl, Nat.div_add_mod']

/-- Two digits of one case that denote a byte are that byte's digits. -/
theorem bytePair_of_unsigned {letter x y b : UInt8} (hl : letter = 65 ∨ letter = 97)
    (hx : IsHexDigit letter x) (hy : IsHexDigit letter y)
    (h : unsigned 16 [x, y] = some b.toNat) : bytePair letter b = [x, y] := by
  obtain ⟨p, hp, rfl⟩ := hx
  obtain ⟨q, hq, rfl⟩ := hy
  rw [unsigned_hexDigits hl hp hq rfl rfl, Option.some.injEq] at h
  have hdiv : b.toNat / 16 = p := by omega
  have hmod : b.toNat % 16 = q := by omega
  rw [bytePair, hdiv, hmod]

end Numeral
