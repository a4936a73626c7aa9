import ForensicVfs.Core.Read
import ForensicVfs.Verify.Descent.Sniff

/-!
# What the bounded readers read

A reader answers the number of the bytes at its offset where they are in range, and 0 elsewhere; so
it answers `v` exactly where the bytes are those of `v`, or where `v` is 0 and there are too few of
them (`reader_eq_iff`).
-/

namespace ForensicVfs

open Slice BigEndian

/-- The `width` bytes at `off` are in range. -/
def InRange (data : Bytes) (off width : Nat) : Prop :=
  off + width ≤ data.length ∧ off + width < 2 ^ 64

instance (data : Bytes) (off width : Nat) : Decidable (InRange data off width) :=
  inferInstanceAs (Decidable (_ ∧ _))

section Readers

variable {T : Type} {width : Nat} [Word T width] {data : Bytes} {off : Nat}

theorem length_slice_of_inRange (h : InRange data off width) :
    (slice data off width).length = width := by
  rw [length_slice]
  exact Nat.min_eq_left (Nat.le_sub_of_add_le' h.1)

theorem boundedReader_eq (fromBytes : Bytes → T) :
    boundedReader width fromBytes data off =
      if InRange data off width then fromBytes (slice data off width) else Word.ofNat 0 := by
  unfold boundedReader checkedAdd
  by_cases hlt : off + width < 2 ^ 64
  · simp only [if_pos hlt, getRange_eq]
    by_cases hle : off + width ≤ data.length
    · have hin : InRange data off width := ⟨hle, hlt⟩
      simp only [if_pos hle, if_pos hin]
    · have hout : ¬InRange data off width := fun hin => hle hin.1
      simp only [if_neg hle, if_neg hout]
  · have hout : ¬InRange data off width := fun hin => hlt hin.2
    simp only [if_neg hlt, if_neg hout]

theorem toNat_be :
    Word.toNat (boundedReader width (Word.fromBeBytes (T := T)) data off) =
      if InRange data off width then value (slice data off width) else 0 := by
  rw [boundedReader_eq, apply_ite Word.toNat, Word.toNat_zero]
  refine if_ctx_congr Iff.rfl (fun h => ?_) fun _ => rfl
  exact Word.toNat_fromBeBytes (length_slice_of_inRange h)

theorem toNat_le :
    Word.toNat (boundedReader width (Word.fromLeBytes (T := T)) data off) =
      if InRange data off width then value (slice data off width).reverse else 0 := by
  rw [boundedReader_eq, apply_ite Word.toNat, Word.toNat_zero]
  refine if_ctx_congr Iff.rfl (fun h => ?_) fun _ => rfl
  rw [Word.fromLeBytes_eq, Word.toNat_fromBeBytes]
  rw [List.length_reverse, length_slice_of_inRange h]

/-- A number of that width is the number of some bytes exactly if they are its bytes. -/
theorem value_eq_toNat_iff {bs : Bytes} (hbs : bs.length = width) {v : T} :
    value bs = Word.toNat v ↔ bs = bytes width (Word.toNat v) := by
  constructor
  · intro h
    rw [← h, ← hbs, bytes_value]
  · intro h
    rw [h, value_bytes, Nat.mod_eq_of_lt (Word.toNat_lt v)]

/-- **What a reader answers**: a number whose bytes are there, or 0 where there are too few. -/
theorem reader_eq_iff (data : Bytes) (off : Nat) (v : T) :
    (boundedReader width Word.fromBeBytes data off = v ↔
      if InRange data off width then slice data off width = bytes width (Word.toNat v)
      else Word.toNat v = 0) ∧
    (boundedReader width Word.fromLeBytes data off = v ↔
      if InRange data off width then
        slice data off width = (bytes width (Word.toNat v)).reverse
      else Word.toNat v = 0) := by
  rw [← (Word.toNat_injective (T := T)).eq_iff, toNat_be,
    ← (Word.toNat_injective (T := T)).eq_iff, toNat_le]
  by_cases h : InRange data off width
  · have hlen := length_slice_of_inRange h
    simp only [if_pos h]
    rw [value_eq_toNat_iff hlen, value_eq_toNat_iff (by rw [List.length_reverse, hlen]),
      List.reverse_eq_iff]
    exact ⟨Iff.rfl, Iff.rfl⟩
  · simp only [if_neg h]
    exact ⟨eq_comm, eq_comm⟩

end Readers

example : beU32 [0, 0, 1, 0] 0 = 256 := by decide
example : leU32 [0xff, 0xff, 0, 1, 0, 0] 2 = 256 := by decide
example : beU32 [1, 2, 3, 4] (2 ^ 64 - 1) = 0 := by decide

end ForensicVfs
