import ForensicVfs.Core.Error
import ForensicVfs.Lib.Slice

/-!
# The byte edge

`ImageSource` of `source.rs`: a length and positioned reads. A read is a function of the offset and
the caller's buffer; it answers a count or an error and leaves a buffer of the same length. Nothing
else is promised here: the count may be short, or even past the buffer's end.
-/

namespace ForensicVfs

open Slice

/-- A read-only, randomly addressable byte stream. -/
structure ImageSource where
  len : UInt64
  readAt : UInt64 → Bytes → VfsResult Nat × Bytes
  /-- A `&mut [u8]` cannot change its length. -/
  length_readAt : ∀ offset buf, (readAt offset buf).2.length = buf.length

/-- The shared handle used at every composition seam. -/
abbrev DynSource := ImageSource

/-- The bytes the source reads are those of `B`. A read may stop short or fail, and `B` need not be
as long as the source says it is. -/
def ImageSource.Reads (s : ImageSource) (B : Bytes) : Prop :=
  ∀ offset buf n, (s.readAt offset buf).1 = .ok n →
    n ≤ buf.length ∧ (s.readAt offset buf).2.take n = slice B offset.toNat n

/-- Read exactly `buf.len()` bytes at `offset`, or fail. -/
def readExactAt (src : ImageSource) (offset : UInt64) (buf : Bytes) : VfsResult Unit × Bytes :=
  let r := src.readAt offset buf
  match r.1 with
  | .error e => (.error e, r.2)
  | .ok got =>
    if got = buf.length then (.ok (), r.2)
    else (.error (.outOfRange "read_exact_at" offset (.ofNat buf.length) src.len), r.2)

theorem readExactAt_eq_ok {src : ImageSource} {offset : UInt64} {buf out : Bytes} :
    readExactAt src offset buf = (.ok (), out) ↔
      (src.readAt offset buf).1 = .ok buf.length ∧ (src.readAt offset buf).2 = out := by
  unfold readExactAt
  cases hread : (src.readAt offset buf).1 with
  | error e => simp [hread]
  | ok got => by_cases hgot : got = buf.length <;> simp [hread, hgot]

end ForensicVfs
