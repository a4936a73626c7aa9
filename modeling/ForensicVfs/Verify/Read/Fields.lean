import ForensicVfs.Verify.Adapters.Transparent
import ForensicVfs.Verify.Read.Readers

/-!
# A number read through a stack

A parser of an image fills a buffer with `read_exact_at` and reads a number from it. Through any
stack of windows and pools the number is the one in the base, at the place where the stack begins;
where the bytes run past the end of what the stack shows, the read fails and no number is made up
(`field_through_stack`).
-/

namespace ForensicVfs

open Slice Result

section Readers

variable {T : Type} {width : Nat} [Word T width] {B : Bytes} {i n off : Nat}

/-- A number in a part of the bytes is one in the whole. -/
theorem boundedReader_slice (hB : B.length < 2 ^ 64) (h : off + width ≤ (slice B i n).length)
    (fromBytes : Bytes → T) : boundedReader width fromBytes (slice B i n) off =
      boundedReader width fromBytes B (i + off) := by
  have hwidth := Word.pos T
  have hpart := h
  rw [length_slice] at h
  have hin : InRange (slice B i n) off width := ⟨hpart, by omega⟩
  have hwhole : InRange B (i + off) width := ⟨by omega, by omega⟩
  rw [boundedReader_eq, boundedReader_eq, if_pos hin, if_pos hwhole, slice_slice,
    Nat.min_eq_left (by omega)]

/-- A buffer with nothing but a number's bytes. -/
theorem boundedReader_whole (hB : B.length < 2 ^ 64) (h : off + width ≤ B.length)
    (fromBytes : Bytes → T) : boundedReader width fromBytes (slice B off width) 0 =
      boundedReader width fromBytes B off := by
  refine boundedReader_slice hB ?_ fromBytes
  rw [length_slice]
  omega

end Readers

namespace Tower

/-- Where the bytes at the top begin in the base. -/
def start : Tower → Nat
  | bare => 0
  | subRange parent base _ => parent.start + base.toNat
  | pool parent base _ _ _ => parent.start + base.toNat

theorem exists_bytes_eq_slice (B : Bytes) (t : Tower) : ∃ n, t.bytes B = slice B t.start n := by
  induction t with
  | bare => exact ⟨B.length, slice_self.symm⟩
  | subRange parent base len ih =>
    obtain ⟨n, hn⟩ := ih
    exact ⟨_, by rw [bytes, hn, slice_slice, start]⟩
  | pool parent base len positions total ih =>
    obtain ⟨n, hn⟩ := ih
    exact ⟨_, by rw [bytes, hn, slice_slice, take_slice, start]⟩

end Tower

/-- A source that holds its bytes gives them exactly, or fails. -/
theorem ImageSource.Holds.readExactAt {s : DynSource} {B : Bytes} (h : s.Holds B)
    (offset : UInt64) {buf : Bytes} (hbuf : buf ≠ []) :
    (offset.toNat + buf.length ≤ B.length ∧
      ForensicVfs.readExactAt s offset buf = (.ok (), slice B offset.toNat buf.length)) ∨
    (B.length < offset.toNat + buf.length ∧ (ForensicVfs.readExactAt s offset buf).1 =
      .error (.outOfRange "read_exact_at" offset (.ofNat buf.length) s.len)) := by
  have hpos : 0 < buf.length := List.length_pos_iff.mpr hbuf
  have hread := h.readAt offset buf
  rcases Nat.lt_or_ge B.length (offset.toNat + buf.length) with hlt | hge
  · refine .inr ⟨hlt, ?_⟩
    have hshort : min buf.length (B.length - offset.toNat) ≠ buf.length := by omega
    simp [ForensicVfs.readExactAt, hread, hshort]
  · refine .inl ⟨hge, ?_⟩
    rw [readExactAt_eq_ok, hread]
    refine ⟨congrArg _ (Nat.min_eq_left (by omega)), ?_⟩
    rw [List.drop_eq_nil_of_le (by omega), List.append_nil]

/-- **A number read through a stack is the number in the base**, or the read fails. -/
theorem field_through_stack {T : Type} {width : Nat} [Word T width] {s : DynSource} {B : Bytes}
    (hs : s.Supplies B) (t : Tower) (ht : t.Fits B) (h : t.HasPool ∨ s.Holds B) (offset : UInt64)
    (fromBytes : Bytes → T) :
    (offset.toNat + width ≤ (t.bytes B).length ∧
      ∃ buf, readExactAt (t.top s) offset (List.replicate width 0) = (.ok (), buf) ∧
        boundedReader width fromBytes buf 0 =
          boundedReader width fromBytes B (t.start + offset.toNat)) ∨
    ((t.bytes B).length < offset.toNat + width ∧
      (readExactAt (t.top s) offset (List.replicate width 0)).1 =
        .error (.outOfRange "read_exact_at" offset (.ofNat width) (t.top s).len)) := by
  have hhold := t.holds_top hs ht h
  have hne : List.replicate width (0 : UInt8) ≠ [] := by
    rw [← List.length_pos_iff, List.length_replicate]
    exact Word.pos T
  have hread := hhold.readExactAt offset hne
  rw [List.length_replicate] at hread
  refine hread.imp_left fun ⟨hle, hbuf⟩ => ⟨hle, _, hbuf, ?_⟩
  have htop : (t.bytes B).length < 2 ^ 64 := by
    rw [← hhold.len]
    exact UInt64.toNat_lt _
  have hbase : B.length < 2 ^ 64 := by
    rw [← hs.len]
    exact UInt64.toNat_lt _
  rw [boundedReader_whole htop hle]
  obtain ⟨n, hn⟩ := t.exists_bytes_eq_slice B
  rw [hn] at hle ⊢
  exact boundedReader_slice hbase hle fromBytes

theorem field_through_stack_capped : ∃ buf,
    readExactAt (cappedTower.top (FileSource.source ⟨cappedFile 6 2, 6⟩)) 1
      (List.replicate 2 0) = (.ok (), buf) ∧ beU16 buf 0 = 0x0304 := by
  rcases field_through_stack (T := UInt16) supplies_cappedFile cappedTower fits_cappedTower
    (.inl trivial) 1 Word.fromBeBytes with ⟨-, hread⟩ | ⟨hshort, -⟩
  · exact hread
  · exact absurd hshort (by decide)

end ForensicVfs
