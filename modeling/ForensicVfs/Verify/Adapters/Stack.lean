import ForensicVfs.Verify.Adapters.Cursor
import ForensicVfs.Verify.Adapters.Pool
import ForensicVfs.Verify.Adapters.Window

/-!
# Which stacks stay within their length

A file can change its size after it has been opened. Windows, cursors and pools cut every read to
the length they were built with, so a stack with one of them on top stays within its length
whatever the file does. A file on its own passes the buffer on as it is, and after it has grown it
gives bytes past the length it was opened with (`stack_bounded_iff`).
-/

namespace ForensicVfs

open Slice

/-! ## Stacks -/

/-- Adapters over a file that had the given length when it was opened. -/
inductive Stack where
  | file (len : UInt64)
  | subRange (parent : Stack) (base len : UInt64)
  | pool (parent : Stack) (windows : List (UInt64 × UInt64)) (len : UInt64)

def Stack.len : Stack → UInt64
  | .file len => len
  | .subRange parent base len => min len (saturatingSub parent.len base)
  | .pool _ _ len => len

/-- A cursor over a parent that answers in its own way at every read. -/
structure DriftingCursor where
  cursor : SourceCursor
  parents : Nat → DynSource

instance : ReadSeek DriftingCursor where
  read c buf :=
    let a := (c.cursor.withSrc (c.parents 0)).read buf
    (a.1, ⟨a.2, fun k => c.parents (k + 1)⟩)
  seek c pos :=
    let a := c.cursor.seek pos
    (a.1, { c with cursor := a.2 })
  length_read _ buf := SourceCursor.length_read _ buf

/-- What a read of the stack may answer while the file is of one of the sizes at every read of it.
The cursors of a pool stand anywhere. -/
def Stack.Answer (sizes : Nat → Prop) :
    Stack → UInt64 → Bytes → VfsResult Nat × Bytes → Prop
  | .file len, offset, buf, out =>
    ∃ file : File, sizes file.content.length ∧ out = FileSource.readAt ⟨file, len⟩ offset buf
  | .subRange parent base len, offset, buf, out =>
    ∃ s : DynSource, s.len = parent.len ∧ (∀ o b, parent.Answer sizes o b (s.readAt o b)) ∧
      out = (SubRange.new s base len).readAt offset buf
  | .pool parent windows len, offset, buf, out =>
    ∃ cursors : List DriftingCursor, cursors.length = windows.length ∧
      (∀ c ∈ cursors,
        (∃ w ∈ windows, ∃ pos, c.cursor = { SourceCursor.new (c.parents 0) w.1 w.2 with pos }) ∧
          ∀ k, (c.parents k).len = parent.len ∧
            ∀ o b, parent.Answer sizes o b ((c.parents k).readAt o b)) ∧
      out = (SeekPoolSource.readAt ⟨cursors, len⟩ offset buf).1

/-! ## One adapter -/

/-- A source that never reads more than the buffer holds. -/
def ImageSource.Within (s : ImageSource) : Prop :=
  ∀ offset buf n, (s.readAt offset buf).1 = .ok n → n ≤ buf.length

theorem FileSource.readAt_le {s : FileSource} {offset : UInt64} {buf : Bytes} {n : Nat}
    (hn : (s.readAt offset buf).1 = .ok n) :
    n ≤ buf.length ∧ (n = 0 ∨ offset.toNat + n ≤ s.file.content.length) := by
  unfold readAt at hn
  split at hn
  · cases hn
    exact ⟨Nat.zero_le _, .inl rfl⟩
  · obtain ⟨hle, hbytes⟩ := s.file.readAt_ok offset buf n (Result.mapError_eq_ok.mp hn)
    refine ⟨hle, (Nat.eq_zero_or_pos n).imp_right fun hpos => ?_⟩
    have hlen := s.file.length_readAt offset buf
    exact add_le_of_take_eq_slice hbytes (by omega) hpos

theorem SubRange.readAt_le {s : SubRange} (hs : s.parent.Within) {offset : UInt64} {buf : Bytes}
    {n : Nat} (hn : (s.readAt offset buf).1 = .ok n) :
    n ≤ buf.length ∧ (n = 0 ∨ offset.toNat + n ≤ s.len.toNat) := by
  rw [s.readAt_eq_issued] at hn
  cases hissued : s.issued offset buf with
  | none =>
    rw [hissued] at hn
    cases hn
    exact ⟨Nat.zero_le _, .inl rfl⟩
  | some r =>
    rw [hissued] at hn
    obtain ⟨-, hbuf, hend⟩ := issued_within hissued
    have hle := hs _ _ _ hn
    exact ⟨hle.trans hbuf, .inr (by omega)⟩

theorem SourceCursor.read_le {c : SourceCursor} (hc : c.src.Within) {buf : Bytes} {n : Nat}
    (hn : (c.read buf).1.1 = .ok n) : n ≤ buf.length := by
  rcases c.read_cases buf with ⟨-, hread⟩ | ⟨-, r, hr, ⟨e, -, hread⟩ | ⟨m, hm, hread⟩⟩
  · rw [hread] at hn
    cases hn
    exact Nat.zero_le _
  · rw [hread] at hn
    cases hn
  · rw [hread] at hn
    cases hn
    subst hr
    have hwant := hc _ _ _ hm
    rw [List.length_take] at hwant
    omega

theorem SourceCursor.src_read (c : SourceCursor) (buf : Bytes) : (c.read buf).2.src = c.src := by
  rcases c.read_cases buf with ⟨-, hread⟩ | ⟨-, r, -, ⟨e, -, hread⟩ | ⟨n, -, hread⟩⟩
  all_goals rw [hread]

theorem SourceCursor.src_seek (c : SourceCursor) (pos : SeekFrom) :
    (c.seek pos).2.src = c.src := by
  rcases c.seek_cases pos with ⟨-, hseek⟩ | ⟨-, q, -, hseek⟩
  all_goals rw [hseek]

theorem SourceCursor.src_withSrc (c : SourceCursor) (now : DynSource) :
    (c.withSrc now).src = now ∨ (c.withSrc now).src = c.src := by
  unfold withSrc
  split
  · exact .inl rfl
  · exact .inr rfl

/-- Cursors over such parents stay within the buffer. -/
theorem driftingCursor_steady :
    Steady fun c : DriftingCursor => c.cursor.src.Within ∧ ∀ k, (c.parents k).Within := by
  have hover : ∀ c : DriftingCursor, c.cursor.src.Within ∧ (∀ k, (c.parents k).Within) →
      (c.cursor.withSrc (c.parents 0)).src.Within := fun c hc => by
    rcases c.cursor.src_withSrc (c.parents 0) with hsrc | hsrc
    · rw [hsrc]
      exact hc.2 0
    · rw [hsrc]
      exact hc.1
  refine ⟨fun c o hc => ⟨?_, hc.2⟩, fun c slot hc => ⟨?_, fun k => hc.2 (k + 1)⟩,
    fun c slot n hc hn => SourceCursor.read_le (hover c hc) hn⟩
  · show (c.cursor.seek (.start o)).2.src.Within
    rw [SourceCursor.src_seek]
    exact hc.1
  · show ((c.cursor.withSrc (c.parents 0)).read slot).2.src.Within
    rw [SourceCursor.src_read]
    exact hover c hc

/-! ## The whole stack -/

section Stack

variable {sizes : Nat → Prop} {st : Stack} {offset : UInt64} {buf : Bytes}
  {out : VfsResult Nat × Bytes} {n : Nat}

/-- **Every stack reads within the buffer, and an adapter above the file within its own length.** -/
theorem Stack.answer_bounded (h : st.Answer sizes offset buf out) (hn : out.1 = .ok n) :
    n ≤ buf.length ∧
      ((∃ len, st = .file len) ∨ n = 0 ∨ offset.toNat + n ≤ st.len.toNat) := by
  induction st generalizing offset buf out n with
  | file len =>
    obtain ⟨file, -, rfl⟩ := h
    exact ⟨(FileSource.readAt_le hn).1, .inl ⟨len, rfl⟩⟩
  | subRange parent base len ih =>
    obtain ⟨s, hlen, hs, rfl⟩ := h
    have hwithin : s.Within := fun o b m hm => (ih (hs o b) hm).1
    obtain ⟨hle, hend⟩ := SubRange.readAt_le hwithin hn
    refine ⟨hle, .inr ?_⟩
    show n = 0 ∨ _ ≤ (min len (saturatingSub parent.len base)).toNat
    rw [← hlen]
    exact hend
  | pool parent windows len ih =>
    obtain ⟨cursors, -, hcursors, rfl⟩ := h
    have hsteady : ∀ c ∈ cursors, c.cursor.src.Within ∧ ∀ k, (c.parents k).Within := fun c hc => by
      obtain ⟨⟨w, -, pos, hcursor⟩, hparents⟩ := hcursors c hc
      have hwithin : ∀ k, (c.parents k).Within := fun k o b m hm => (ih ((hparents k).2 o b) hm).1
      rw [hcursor]
      exact ⟨hwithin 0, hwithin⟩
    obtain ⟨hle, hend⟩ := SeekPoolSource.readAt_le _ driftingCursor_steady hsteady hn
    exact ⟨hle, .inr hend⟩

/-! ## A file on its own -/

/-- A file that has grown answers with what it has now. -/
theorem answer_numberedFile {len : UInt64} {size : Nat} (hsize : sizes size) (hoff : offset < len) :
    ∃ out, (Stack.file len).Answer sizes offset buf out ∧
      out.1 = .ok (min buf.length (size - offset.toNat)) := by
  refine ⟨FileSource.readAt ⟨numberedFile size, len⟩ offset buf, ⟨numberedFile size, ?_, rfl⟩, ?_⟩
  · show sizes (numbered size).length
    rwa [length_numbered]
  · unfold FileSource.readAt
    rw [if_neg (UInt64.not_le.mpr hoff)]
    rfl

/-- **Which reads stay within the length**, at every size the file may have: all but those of a bare
file that reach past the recorded length after it has grown. -/
theorem stack_bounded_iff (st : Stack) (sizes : Nat → Prop) (offset : UInt64) (buf : Bytes) :
    (∀ out n, st.Answer sizes offset buf out → out.1 = .ok n →
      n ≤ buf.length ∧ (n = 0 ∨ offset.toNat + n ≤ st.len.toNat)) ↔
    ∀ len, st = .file len → len ≤ offset ∨ offset.toNat + buf.length ≤ len.toNat ∨
      ∀ size, sizes size → size ≤ len.toNat := by
  constructor
  · rintro h len rfl
    by_contra hgrown
    simp only [not_or, not_forall] at hgrown
    obtain ⟨hoff, hend, size, hsize, hbig⟩ := hgrown
    obtain ⟨out, hout, hn⟩ := answer_numberedFile hsize (UInt64.not_le.mp hoff)
    obtain ⟨-, hbound⟩ := h out _ hout hn
    rw [UInt64.le_iff_toNat_le] at hoff
    have hbound : _ ∨ _ ≤ len.toNat := hbound
    omega
  · intro h out n hout hn
    obtain ⟨hle, ⟨len, rfl⟩ | hbound⟩ := st.answer_bounded hout hn
    · refine ⟨hle, ?_⟩
      show n = 0 ∨ offset.toNat + n ≤ len.toNat
      obtain ⟨file, hsize, rfl⟩ := hout
      rcases h len rfl with hpast | hend | hsizes
      · have hread : FileSource.readAt ⟨file, len⟩ offset buf = (.ok 0, buf) := if_pos hpast
        rw [hread] at hn
        exact .inl (Except.ok.inj hn).symm
      · omega
      · have hfile : n = 0 ∨ _ ≤ file.content.length := (FileSource.readAt_le hn).2
        have hnow := hsizes _ hsize
        omega
    · exact ⟨hle, hbound⟩

/-- A file that has grown from four bytes to eight gives all eight. -/
theorem file_grown_past_len :
    (FileSource.fromFile (numberedFile 4)).map FileSource.len = .ok 4 ∧
      ¬ ∀ out n, (Stack.file 4).Answer (fun size => size = 8) 0 (List.replicate 8 0) out →
        out.1 = .ok n → n ≤ (List.replicate 8 (0 : UInt8)).length ∧
          (n = 0 ∨ (0 : UInt64).toNat + n ≤ (Stack.file 4).len.toNat) := by
  refine ⟨rfl, fun h => ?_⟩
  have hgrown : ∃ out, (Stack.file 4).Answer (fun size => size = 8) 0 (List.replicate 8 0) out ∧
      out.1 = .ok (min (List.replicate 8 (0 : UInt8)).length (8 - (0 : UInt64).toNat)) :=
    answer_numberedFile rfl (by decide)
  obtain ⟨out, hout, hn⟩ := hgrown
  obtain ⟨-, hbound⟩ := h out _ hout hn
  revert hbound
  decide

end Stack

end ForensicVfs
