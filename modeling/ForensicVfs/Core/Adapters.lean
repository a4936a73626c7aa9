import ForensicVfs.Core.Arith
import ForensicVfs.Core.Source
import ForensicVfs.Lib.Slice

/-!
# The source adapters

`adapters.rs`: a window of a parent source, a positioned-read file, a `Read + Seek` view of a source
and a pool of `Read + Seek` readers. A slice's length is a `usize`, so `buf.len() as u64` loses
nothing and lengths are compared as numbers; and since `want` is at most the buffer's length,
`buf.get_mut(..want)` always finds the `want` first bytes of the buffer (`overPrefix`).
-/

namespace ForensicVfs

open Slice

/-! ## Buffers -/

/-- Read into the first `want` bytes of the buffer. -/
def overPrefix {α : Type} (want : Nat) (buf : Bytes) (read : Bytes → α × Bytes) : α × Bytes :=
  let r := read (buf.take want)
  (r.1, r.2 ++ buf.drop want)

theorem length_overPrefix {α : Type} {want : Nat} {buf : Bytes} {read : Bytes → α × Bytes}
    (h : ∀ dst, (read dst).2.length = dst.length) : (overPrefix want buf read).2.length =
      buf.length := by
  rw [overPrefix, List.length_append, h, ← List.length_append, List.take_append_drop]

/-- A read into a prefix of the buffer gives bytes of the source there. -/
theorem ImageSource.Reads.overPrefix {s : ImageSource} {B : Bytes} (h : s.Reads B) {want n : Nat}
    {buf : Bytes} {abs : UInt64} (hn : (overPrefix want buf (s.readAt abs)).1 = .ok n) :
    n ≤ want ∧ n ≤ buf.length ∧
      (ForensicVfs.overPrefix want buf (s.readAt abs)).2.take n = slice B abs.toNat n := by
  obtain ⟨hle, hbytes⟩ := h abs (buf.take want) n hn
  have hlen := s.length_readAt abs (buf.take want)
  rw [List.length_take] at hle hlen
  refine ⟨by omega, by omega, ?_⟩
  show ((s.readAt abs (buf.take want)).2 ++ buf.drop want).take n = _
  rw [List.take_append_of_le_length (by omega), hbytes]

/-! ## A window of a parent -/

/-- A byte window `[base, base + len)` of a parent source, within the parent's bounds. -/
structure SubRange where
  parent : DynSource
  base : UInt64
  len : UInt64
  clamped : len.toNat ≤ parent.len.toNat - base.toNat

namespace SubRange

/-- A window starting at `base` in `parent`, at most `len` bytes, clamped to what the parent has
from `base`. -/
def new (parent : DynSource) (base len : UInt64) : SubRange where
  parent := parent
  base := base
  len := min len (saturatingSub parent.len base)
  clamped := by
    rw [UInt64.toNat_min, toNat_saturatingSub]
    exact Nat.min_le_right _ _

def readAt (s : SubRange) (offset : UInt64) (buf : Bytes) : VfsResult Nat × Bytes :=
  if offset ≥ s.len then (.ok 0, buf)
  else
    let remaining := s.len - offset
    let want := min buf.length remaining.toNat
    let abs := saturatingAdd s.base offset
    overPrefix want buf (s.parent.readAt abs)

/-- The window is itself a source. -/
def source (s : SubRange) : ImageSource where
  len := s.len
  readAt := s.readAt
  length_readAt offset buf := by
    unfold readAt
    split
    · rfl
    · exact length_overPrefix (s.parent.length_readAt _)

end SubRange

/-! ## A file -/

/-- An open file as the operating system answers for it at one moment: its content, the length in
its metadata, and positioned reads that may stop short or fail. -/
structure File where
  content : Bytes
  metadata : IoResult UInt64
  metadata_ok : ∀ len, metadata = .ok len → len.toNat = content.length
  readAt : UInt64 → Bytes → IoResult Nat × Bytes
  length_readAt : ∀ offset buf, (readAt offset buf).2.length = buf.length
  readAt_ok : ∀ offset buf n, (readAt offset buf).1 = .ok n → n ≤ buf.length ∧
    (readAt offset buf).2.take n = slice content offset.toNat n

/-- A raw file, with its length when it was opened. -/
structure FileSource where
  file : File
  len : UInt64

namespace FileSource

/-- Wrap an already-open file. -/
def fromFile (file : File) : VfsResult FileSource := do
  let len ← file.metadata.mapError (.io "metadata")
  return { file, len }

/-- The length kept is the file's at that moment. -/
theorem len_of_fromFile {file : File} {s : FileSource} (h : fromFile file = .ok s) :
    s.len.toNat = file.content.length := by
  unfold fromFile at h
  cases hlen : file.metadata with
  | error e =>
    rw [hlen] at h
    cases h
  | ok len =>
    rw [hlen] at h
    cases h
    exact file.metadata_ok len hlen

def readAt (s : FileSource) (offset : UInt64) (buf : Bytes) : VfsResult Nat × Bytes :=
  if offset ≥ s.len then (.ok 0, buf)
  else
    let r := s.file.readAt offset buf
    (r.1.mapError (.io "read_at"), r.2)

def source (s : FileSource) : ImageSource where
  len := s.len
  readAt := s.readAt
  length_readAt offset buf := by
    unfold readAt
    split
    · rfl
    · exact s.file.length_readAt offset buf

end FileSource

/-! ## Cursors -/

/-- `std::io::SeekFrom` -/
inductive SeekFrom where
  | start (offset : UInt64)
  | fromEnd (offset : Int64)
  | current (offset : Int64)
  deriving DecidableEq

/-- A type with `Read + Seek`. -/
class ReadSeek (R : Type) where
  read : R → Bytes → (IoResult Nat × Bytes) × R
  seek : R → SeekFrom → IoResult UInt64 × R
  length_read : ∀ r buf, (read r buf).1.2.length = buf.length

/-- A `Read + Seek` view over a window of a source. -/
structure SourceCursor where
  src : DynSource
  base : UInt64
  len : UInt64
  pos : UInt64
  clamped : len.toNat ≤ src.len.toNat - base.toNat

namespace SourceCursor

/-- A cursor over the window `[base, base + len)` of `src`, clamped to the source's bounds, at the
start. -/
def new (src : DynSource) (base len : UInt64) : SourceCursor where
  src := src
  base := base
  len := min len (saturatingSub src.len base)
  pos := 0
  clamped := by
    rw [UInt64.toNat_min, toNat_saturatingSub]
    exact Nat.min_le_right _ _

section Arith

variable {m : Type → Type} [Monad m] (arith : Arith m)

/-- `read`, with the arithmetic as a parameter. -/
def readBy (c : SourceCursor) (buf : Bytes) : m ((IoResult Nat × Bytes) × SourceCursor) := do
  if c.pos ≥ c.len then return ((.ok 0, buf), c)
  else
    let remaining ← arith.sub c.len c.pos
    let want := min buf.length remaining.toNat
    let abs ← arith.saturatingAdd c.base c.pos
    let r := overPrefix want buf (c.src.readAt abs)
    match r.1 with
    | .error e => return ((.error (.other e), r.2), c)
    | .ok n =>
      let pos ← arith.saturatingAdd c.pos (.ofNat n)
      return ((.ok n, r.2), { c with pos })

/-- Where a seek leads, before it is checked. -/
def targetBy (c : SourceCursor) : SeekFrom → m Int
  | .start o => return o.toNat
  | .fromEnd o => arith.addI128 c.len.toNat o.toInt
  | .current o => arith.addI128 c.pos.toNat o.toInt

/-- `seek`, with the arithmetic as a parameter. -/
def seekBy (c : SourceCursor) (pos : SeekFrom) : m (IoResult UInt64 × SourceCursor) := do
  let target ← c.targetBy arith pos
  if target < 0 then return (.error ⟨.invalidInput, "seek before start of window"⟩, c)
  else
    let pos := UInt64.ofNat (min target (2 ^ 64 - 1)).toNat
    return (.ok pos, { c with pos })

end Arith

def read (c : SourceCursor) (buf : Bytes) : (IoResult Nat × Bytes) × SourceCursor :=
  (c.readBy .plain buf).run

def target (c : SourceCursor) (pos : SeekFrom) : Int := (c.targetBy .plain pos).run

def seek (c : SourceCursor) (pos : SeekFrom) : IoResult UInt64 × SourceCursor :=
  (c.seekBy .plain pos).run

theorem read_eq (c : SourceCursor) (buf : Bytes) :
    c.read buf =
      if c.pos ≥ c.len then ((.ok 0, buf), c)
      else
        let r := overPrefix (min buf.length (c.len - c.pos).toNat) buf
          (c.src.readAt (saturatingAdd c.base c.pos))
        match r.1 with
        | .error e => ((.error (.other e), r.2), c)
        | .ok n => ((.ok n, r.2), { c with pos := saturatingAdd c.pos (.ofNat n) }) := by
  unfold read readBy
  split <;> rfl

/-- **What a read does**: nothing at the end of the window or past it, and else one read of the
parent. -/
theorem read_cases (c : SourceCursor) (buf : Bytes) :
    (c.len ≤ c.pos ∧ c.read buf = ((.ok 0, buf), c)) ∨
      (c.pos < c.len ∧ ∃ r, r = overPrefix (min buf.length (c.len - c.pos).toNat) buf
          (c.src.readAt (saturatingAdd c.base c.pos)) ∧
        ((∃ e, r.1 = .error e ∧ c.read buf = ((.error (.other e), r.2), c)) ∨
          ∃ n, r.1 = .ok n ∧ c.read buf =
            ((.ok n, r.2), { c with pos := saturatingAdd c.pos (.ofNat n) }))) := by
  rw [read_eq]
  by_cases hend : c.pos ≥ c.len
  · rw [if_pos hend]
    exact .inl ⟨hend, rfl⟩
  · rw [if_neg hend]
    refine .inr ⟨UInt64.not_le.mp hend, _, rfl, ?_⟩
    cases hr : (overPrefix (min buf.length (c.len - c.pos).toNat) buf
        (c.src.readAt (saturatingAdd c.base c.pos))).1 with
    | error e => exact .inl ⟨e, rfl, by simp only [hr]⟩
    | ok n => exact .inr ⟨n, rfl, by simp only [hr]⟩

/-- **What a seek does**: it moves to the target, as far as a `u64` goes, or fails where that is
negative. -/
theorem seek_cases (c : SourceCursor) (pos : SeekFrom) :
    (c.target pos < 0 ∧
        c.seek pos = (.error ⟨.invalidInput, "seek before start of window"⟩, c)) ∨
      (0 ≤ c.target pos ∧ ∃ q, (q.toNat : Int) = min (c.target pos) (2 ^ 64 - 1) ∧
        c.seek pos = (.ok q, { c with pos := q })) := by
  by_cases hneg : c.target pos < 0
  · exact .inl ⟨hneg, if_pos hneg⟩
  · refine .inr ⟨Int.not_lt.mp hneg, .ofNat (min (c.target pos) (2 ^ 64 - 1)).toNat, ?_,
      if_neg hneg⟩
    rw [toNat_ofNat_of_lt (by omega)]
    omega

theorem length_read (c : SourceCursor) (buf : Bytes) : (c.read buf).1.2.length = buf.length := by
  rw [read_eq]
  split
  · rfl
  · simp only
    split <;> exact length_overPrefix (c.src.length_readAt _)

instance : ReadSeek SourceCursor := ⟨read, seek, length_read⟩

end SourceCursor

/-! ## A pool of readers -/

/-- A pool of cursors over the same `len`-byte stream. -/
structure SeekPoolSource (R : Type) where
  pool : List R
  len : UInt64

namespace SeekPoolSource

variable {R : Type}

/-- A single-cursor pool. -/
def single (reader : R) (len : UInt64) : SeekPoolSource R := ⟨[reader], len⟩

/-- The cursor a client gets while those in `busy` are locked: the first free one, or else the first
one as soon as it is free. -/
def checkout (p : SeekPoolSource R) (busy : List Nat) : Option Nat :=
  match (List.range p.pool.length).find? (fun j => !busy.contains j) with
  | some j => some j
  | none => p.pool.head?.map fun _ => 0

/-- It is the first free one, or the first of all while none is free. -/
theorem checkout_cases {p : SeekPoolSource R} {busy : List Nat} {j : Nat}
    (h : p.checkout busy = some j) :
    (j < p.pool.length ∧ j ∉ busy ∧ ∀ i < j, i ∈ busy) ∨
      (j = 0 ∧ p.pool ≠ [] ∧ ∀ i < p.pool.length, i ∈ busy) := by
  unfold checkout at h
  cases hfind : (List.range p.pool.length).find? (fun j => !busy.contains j) with
  | some i =>
    rw [hfind] at h
    obtain rfl := Option.some.inj h
    obtain ⟨hfree, hlt, hbefore⟩ := List.find?_range_eq_some.mp hfind
    refine .inl ⟨List.mem_range.mp hlt, by simpa using hfree, fun j hj => ?_⟩
    simpa using hbefore j hj
  | none =>
    rw [hfind] at h
    obtain ⟨r, hr, rfl⟩ := Option.map_eq_some_iff.mp h
    refine .inr ⟨rfl, List.ne_nil_of_mem (List.mem_of_head? hr), fun i hi => ?_⟩
    simpa using List.find?_eq_none.mp hfind i (List.mem_range.mpr hi)

theorem checkout_nil (p : SeekPoolSource R) (hne : p.pool ≠ []) : p.checkout [] = some 0 := by
  unfold checkout
  cases hpool : p.pool with
  | nil => exact absurd hpool hne
  | cons r rest =>
    rw [List.length_cons, List.range_succ_eq_map]
    rfl

variable [ReadSeek R]

/-- A read into the rest of the buffer leaves it as long as it was. -/
theorem length_refill (r : R) (dst : Bytes) (total : Nat) :
    (dst.take total ++ (ReadSeek.read r (dst.drop total)).1.2).length = dst.length := by
  rw [List.length_append, ReadSeek.length_read, ← List.length_append, List.take_append_drop]

/-- The loop that fills the window: stop at its end, at an empty read, or at a failure. -/
def fill (r : R) (dst : Bytes) (total : Nat) : (IoResult Nat × Bytes) × R :=
  if _h : total < dst.length then
    let a := ReadSeek.read r (dst.drop total)
    let dst' := dst.take total ++ a.1.2
    match a.1.1 with
    | .error e => ((.error e, dst'), a.2)
    | .ok n => if n = 0 then ((.ok total, dst'), a.2) else fill a.2 dst' (total + n)
  else ((.ok total, dst), r)
termination_by dst.length - total
decreasing_by
  rw [length_refill]
  omega

theorem length_fill (r : R) (dst : Bytes) (total : Nat) :
    (fill r dst total).1.2.length = dst.length := by
  fun_induction fill r dst total with
  | case1 r dst total h a dst' e he => exact length_refill r dst total
  | case2 r dst total h a dst' he => exact length_refill r dst total
  | case3 r dst total h a dst' n he hn ih => exact ih.trans (length_refill r dst total)
  | case4 r dst total h => rfl

/-- A call with the cursor it has checked out, from the seek to the last read. -/
def readWith (p : SeekPoolSource R) (r : R) (offset : UInt64) (buf : Bytes) :
    (VfsResult Nat × Bytes) × R :=
  let s := ReadSeek.seek r (.start offset)
  match s.1 with
  | .error e => ((.error (.io "seek" e), buf), s.2)
  | .ok _ =>
    let remaining := p.len - offset
    let want := min buf.length remaining.toNat
    let f := fill s.2 (buf.take want) 0
    ((f.1.1.mapError (.io "read"), f.1.2 ++ buf.drop want), f.2)

/-- A call while nothing else is going on. -/
def readAt (p : SeekPoolSource R) (offset : UInt64) (buf : Bytes) :
    (VfsResult Nat × Bytes) × SeekPoolSource R :=
  if offset ≥ p.len then ((.ok 0, buf), p)
  else
    match (p.checkout []).bind fun j => p.pool[j]?.map fun r => (j, r) with
    | none => ((.ok 0, buf), p)
    | some guard =>
      let a := p.readWith guard.2 offset buf
      (a.1, { p with pool := p.pool.set guard.1 a.2 })

theorem length_readWith (p : SeekPoolSource R) (r : R) (offset : UInt64) (buf : Bytes) :
    (p.readWith r offset buf).1.2.length = buf.length := by
  unfold readWith
  simp only
  split
  · rfl
  · rw [List.length_append, length_fill, ← List.length_append, List.take_append_drop]

/-- A call past the end reads nothing; any other is one on a cursor of the pool. -/
theorem readAt_cases (p : SeekPoolSource R) (offset : UInt64) (buf : Bytes) :
    ((p.len ≤ offset ∨ p.pool = []) ∧ (p.readAt offset buf).1 = (.ok 0, buf)) ∨
      (offset < p.len ∧ ∃ r ∈ p.pool, (p.readAt offset buf).1 = (p.readWith r offset buf).1) := by
  unfold readAt
  by_cases hpast : offset ≥ p.len
  · rw [if_pos hpast]
    exact .inl ⟨.inl hpast, rfl⟩
  · rw [if_neg hpast]
    cases hpool : p.pool with
    | nil =>
      have hnone : p.checkout [] = none := by
        unfold checkout
        rw [hpool]
        rfl
      rw [hnone]
      exact .inl ⟨.inr rfl, rfl⟩
    | cons r rest =>
      rw [p.checkout_nil (hpool ▸ List.cons_ne_nil r rest)]
      exact .inr ⟨UInt64.not_le.mp hpast, r, List.mem_cons_self, rfl⟩

/-- The pool as a source: what a client gets while nothing else is going on. -/
def source (p : SeekPoolSource R) : ImageSource where
  len := p.len
  readAt offset buf := (p.readAt offset buf).1
  length_readAt offset buf := by
    rcases p.readAt_cases offset buf with ⟨-, hread⟩ | ⟨-, r, -, hread⟩
    · rw [hread]
    · rw [hread, length_readWith]

end SeekPoolSource

end ForensicVfs
