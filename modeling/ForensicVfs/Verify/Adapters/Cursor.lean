import ForensicVfs.Core.Adapters
import ForensicVfs.Lib.Simulation
import ForensicVfs.Resolver.Doubles

/-!
# The cursor view refines an ideal cursor

The ideal cursor over a byte string `W` is a position: a read before the end of `W` gives bytes from
there on, a read at the end or past it gives none, a seek goes to the exact target. `SourceCursor`
over a parent with the bytes `B` is one over its window of `B`, through any sequence of reads and
seeks, whatever reads of the parent stop short or fail (`cursor_refines`).
-/

namespace ForensicVfs

open Slice Simulation

/-! ## Calls -/

inductive CursorCall where
  | read (buf : Bytes)
  | seek (pos : SeekFrom)

inductive CursorReply where
  | read (result : IoResult Nat) (buf : Bytes)
  | seek (result : IoResult UInt64)

namespace SourceCursor

def call (c : SourceCursor) : CursorCall → CursorReply × SourceCursor
  | .read buf => (.read (c.read buf).1.1 (c.read buf).1.2, (c.read buf).2)
  | .seek pos => (.seek (c.seek pos).1, (c.seek pos).2)

/-- The cursor with its parent as it answers now. -/
def withSrc (c : SourceCursor) (now : DynSource) : SourceCursor :=
  if h : now.len = c.src.len then { c with src := now, clamped := h ▸ c.clamped } else c

/-- A call with the parent as it answers at that moment. -/
def callOver (c : SourceCursor) (o : DynSource × CursorCall) : CursorReply × SourceCursor :=
  (c.withSrc o.1).call o.2

end SourceCursor

/-! ## The ideal cursor -/

/-- Where a seek leads from a position in a window of the given length. -/
def idealTarget (len p : Nat) : SeekFrom → Int
  | .start o => o.toNat
  | .fromEnd o => len + o.toInt
  | .current o => p + o.toInt

/-- A call of the ideal cursor over `W` at a position. -/
inductive IdealCall (W : Bytes) : Nat → CursorCall → CursorReply → Nat → Prop
  | read {p n : Nat} {buf buf' : Bytes} (hp : p < W.length) (hn : n ≤ buf.length)
      (hend : p + n ≤ W.length) (hlen : buf'.length = buf.length)
      (hbytes : buf'.take n = slice W p n) :
      IdealCall W p (.read buf) (.read (.ok n) buf') (p + n)
  | readPast {p : Nat} {buf : Bytes} (hp : W.length ≤ p) :
      IdealCall W p (.read buf) (.read (.ok 0) buf) p
  | readFailed {p : Nat} {buf buf' : Bytes} {e : IoError} (hp : p < W.length)
      (hlen : buf'.length = buf.length) : IdealCall W p (.read buf) (.read (.error e) buf') p
  | seek {p : Nat} {pos : SeekFrom} {q : UInt64} (htarget : 0 ≤ idealTarget W.length p pos)
      (hq : (q.toNat : Int) = min (idealTarget W.length p pos) (2 ^ 64 - 1)) :
      IdealCall W p (.seek pos) (.seek (.ok q)) q.toNat
  | seekFailed {p : Nat} {pos : SeekFrom} {e : IoError}
      (htarget : idealTarget W.length p pos < 0) : IdealCall W p (.seek pos) (.seek (.error e)) p

/-- The cursor over the window `W`, at `base` of its parent, replies to a call at a position as the
ideal cursor does; and to a read before the end of the window with the parent's own answer to one
read at that place, of as much of the buffer as the window has left. -/
structure CursorAnswers (base : UInt64) (W : Bytes) (p : Nat) (o : DynSource × CursorCall)
    (reply : CursorReply) (q : Nat) : Prop where
  ideal : IdealCall W p o.2 reply q
  fromParent : ∀ buf, o.2 = .read buf → p < W.length →
    ∃ (abs : UInt64) (want : Nat), abs.toNat = base.toNat + p ∧
      want = min buf.length (W.length - p) ∧
      reply = .read ((o.1.readAt abs (buf.take want)).1.mapError .other)
        ((o.1.readAt abs (buf.take want)).2 ++ buf.drop want)

/-! ## No arithmetic overflows -/

/-- No operation of a read or a seek misses the exact result: done with the checked arithmetic, each
gets through, with the same outcome. -/
structure SourceCursor.Exact (c : SourceCursor) : Prop where
  read : ∀ B, c.src.Reads B → ∀ buf, c.readBy .checked buf = some (c.read buf)
  seek : ∀ pos, c.seekBy .checked pos = some (c.seek pos)
  remaining : c.pos < c.len → (c.len - c.pos).toNat = c.len.toNat - c.pos.toNat
  abs : c.pos < c.len → (saturatingAdd c.base c.pos).toNat = c.base.toNat + c.pos.toNat
  advance : c.pos < c.len → ∀ n ≤ c.len.toNat - c.pos.toNat,
    (saturatingAdd c.pos (.ofNat n)).toNat = c.pos.toNat + n
  target : ∀ pos, -2 ^ 127 ≤ c.target pos ∧ c.target pos < 2 ^ 127

section Exact

variable (c : SourceCursor)

theorem SourceCursor.readBy_checked (B : Bytes) (hsrc : c.src.Reads B) (buf : Bytes) :
    c.readBy .checked buf = some (c.read buf) := by
  have hclamp := c.clamped
  have hlen := c.src.len.toNat_lt
  rw [read_eq]
  unfold readBy
  by_cases hend : c.pos ≥ c.len
  · rw [if_pos hend, if_pos hend]
    rfl
  · rw [if_neg hend, if_neg hend]
    have hlt := UInt64.not_le.mp hend
    have hremaining := toNat_sub_of_lt hlt
    rw [UInt64.lt_iff_toNat_lt] at hlt
    rw [Arith.checked_sub (UInt64.le_iff_toNat_le.mpr (Nat.le_of_lt hlt)),
      Arith.checked_saturatingAdd (by omega)]
    -- what the parent answers fits what is left of the window
    have hfits : ∀ n, (overPrefix (min buf.length (c.len - c.pos).toNat) buf
        (c.src.readAt (saturatingAdd c.base c.pos))).1 = .ok n →
          n ≤ c.len.toNat - c.pos.toNat := by
      intro n hn
      have hle := (hsrc _ _ n hn).1
      rw [List.length_take] at hle
      omega
    simp only [Option.bind_eq_bind, Option.bind_some]
    generalize overPrefix _ _ _ = r at hfits ⊢
    obtain ⟨result, out⟩ := r
    cases result with
    | error e => rfl
    | ok n =>
      have hn := hfits n rfl
      simp only
      rw [Arith.checked_saturatingAdd (by rw [toNat_ofNat_of_lt (by omega)]; omega)]
      rfl

theorem SourceCursor.target_within (pos : SeekFrom) :
    -2 ^ 127 ≤ c.target pos ∧ c.target pos < 2 ^ 127 := by
  have hlen := c.len.toNat_lt
  have hpos := c.pos.toNat_lt
  cases pos with
  | start o =>
    have ho := o.toNat_lt
    show -2 ^ 127 ≤ (o.toNat : Int) ∧ (o.toNat : Int) < 2 ^ 127
    omega
  | fromEnd o =>
    have hle := o.le_toInt
    have hlt := o.toInt_lt
    show -2 ^ 127 ≤ (c.len.toNat : Int) + o.toInt ∧ (c.len.toNat : Int) + o.toInt < 2 ^ 127
    omega
  | current o =>
    have hle := o.le_toInt
    have hlt := o.toInt_lt
    show -2 ^ 127 ≤ (c.pos.toNat : Int) + o.toInt ∧ (c.pos.toNat : Int) + o.toInt < 2 ^ 127
    omega

theorem SourceCursor.seekBy_checked (pos : SeekFrom) :
    c.seekBy .checked pos = some (c.seek pos) := by
  have htarget : c.targetBy .checked pos = some (c.target pos) := by
    have hwithin := c.target_within pos
    cases pos with
    | start o => rfl
    | fromEnd o => exact Arith.checked_addI128 hwithin
    | current o => exact Arith.checked_addI128 hwithin
  show c.seekBy .checked pos = some (if c.target pos < 0 then _ else _)
  unfold seekBy
  rw [htarget]
  simp only [Option.bind_eq_bind, Option.bind_some]
  split <;> rfl

theorem SourceCursor.exact : c.Exact := by
  have hclamp := c.clamped
  have hlen := c.len.toNat_lt
  have hsrc := c.src.len.toNat_lt
  have hpos := c.pos.toNat_lt
  refine ⟨c.readBy_checked, c.seekBy_checked, fun h => ?_, fun h => ?_, fun h n hn => ?_,
    c.target_within⟩
  · exact toNat_sub_of_lt h
  · rw [UInt64.lt_iff_toNat_lt] at h
    rw [toNat_saturatingAdd]
    omega
  · rw [UInt64.lt_iff_toNat_lt] at h
    rw [toNat_saturatingAdd, toNat_ofNat_of_lt (by omega)]
    omega

end Exact

/-! ## One call -/

/-- The cursor stands at `p` in the window `W` of `B`. -/
structure AtPos (B W : Bytes) (total : UInt64) (c : SourceCursor) (p : Nat) : Prop where
  pos : c.pos.toNat = p
  window : W = slice B c.base.toNat c.len.toNat
  len : c.len.toNat = W.length
  src : c.src.len = total

section Call

variable {B W : Bytes} {total : UInt64} {c : SourceCursor} {p : Nat}

theorem AtPos.withSrc (h : AtPos B W total c p) {now : DynSource} (hlen : now.len = total) :
    AtPos B W total (c.withSrc now) p ∧ (c.withSrc now).src = now := by
  have heq : now.len = c.src.len := hlen.trans h.src.symm
  unfold SourceCursor.withSrc
  rw [dif_pos heq]
  exact ⟨⟨h.pos, h.window, h.len, hlen⟩, rfl⟩

/-- A read is right. -/
theorem AtPos.read (h : AtPos B W total c p) (hc : c.src.Reads B) (buf : Bytes) :
    ∃ q, IdealCall W p (.read buf) (.read (c.read buf).1.1 (c.read buf).1.2) q ∧
      AtPos B W total (c.read buf).2 q := by
  have hpos := h.pos
  have hwlen := h.len
  rcases c.read_cases buf with ⟨hend, hread⟩ | ⟨hlt, r, hr, hread⟩
  · have hp : W.length ≤ p := by
      rw [← hpos, ← hwlen]
      exact UInt64.le_iff_toNat_le.mp hend
    rw [hread]
    exact ⟨p, .readPast hp, h⟩
  · have hp : p < W.length := by
      rw [← hpos, ← hwlen]
      exact UInt64.lt_iff_toNat_lt.mp hlt
    have hlen : r.2.length = buf.length := hr ▸ length_overPrefix (c.src.length_readAt _)
    rcases hread with ⟨e, -, hread⟩ | ⟨n, hn, hread⟩
    · rw [hread]
      exact ⟨p, .readFailed hp hlen, h⟩
    · -- the parent's bytes at `base + p` are those of the window at `p`
      obtain ⟨hwant, hbuf, hbytes⟩ := hc.overPrefix (hr ▸ hn)
      have hremaining := c.exact.remaining hlt
      rw [c.exact.abs hlt, hpos, ← hr] at hbytes
      have hslice : slice W p n = slice B (c.base.toNat + p) n := by
        rw [h.window, slice_slice, Nat.min_eq_left (by omega)]
      rw [hread]
      refine ⟨p + n, .read hp hbuf (by omega) hlen (hbytes.trans hslice.symm), ?_⟩
      refine ⟨?_, h.window, h.len, h.src⟩
      rw [← hpos]
      exact c.exact.advance hlt n (by omega)

/-- Before the end of the window it is the parent that answers. -/
theorem AtPos.read_fromParent (h : AtPos B W total c p) (buf : Bytes) (hp : p < W.length) :
    ∃ (abs : UInt64) (want : Nat), abs.toNat = c.base.toNat + p ∧
      want = min buf.length (W.length - p) ∧
      (c.read buf).1 = ((c.src.readAt abs (buf.take want)).1.mapError .other,
        (c.src.readAt abs (buf.take want)).2 ++ buf.drop want) := by
  rw [← h.pos, ← h.len] at hp
  have hlt : c.pos < c.len := UInt64.lt_iff_toNat_lt.mpr hp
  refine ⟨saturatingAdd c.base c.pos, min buf.length (c.len - c.pos).toNat, ?_, ?_, ?_⟩
  · rw [c.exact.abs hlt, h.pos]
  · rw [c.exact.remaining hlt, h.len, h.pos]
  · rcases c.read_cases buf with ⟨hend, -⟩ | ⟨-, r, rfl, ⟨e, he, hread⟩ | ⟨n, hn, hread⟩⟩
    · exact absurd hend (UInt64.not_le.mpr hlt)
    · rw [hread]
      exact congrArg (fun x => (x, _)) (congrArg (Except.mapError IoError.other) he).symm
    · rw [hread]
      exact congrArg (fun x => (x, _)) (congrArg (Except.mapError IoError.other) hn).symm

theorem AtPos.target (h : AtPos B W total c p) (pos : SeekFrom) :
    c.target pos = idealTarget W.length p pos := by
  cases pos with
  | start o => rfl
  | fromEnd o =>
    show (c.len.toNat : Int) + o.toInt = _
    rw [h.len]
    rfl
  | current o =>
    show (c.pos.toNat : Int) + o.toInt = _
    rw [h.pos]
    rfl

/-- A seek is right. -/
theorem AtPos.seek (h : AtPos B W total c p) (pos : SeekFrom) :
    ∃ q, IdealCall W p (.seek pos) (.seek (c.seek pos).1) q ∧
      AtPos B W total (c.seek pos).2 q := by
  have htarget := h.target pos
  rcases c.seek_cases pos with ⟨hneg, hseek⟩ | ⟨hnonneg, q, hq, hseek⟩
  · rw [hseek]
    exact ⟨p, .seekFailed (htarget ▸ hneg), h⟩
  · rw [hseek]
    exact ⟨_, .seek (htarget ▸ hnonneg) (htarget ▸ hq), rfl, h.window, h.len, h.src⟩

end Call

theorem SourceCursor.base_call (c : SourceCursor) (call : CursorCall) :
    (c.call call).2.base = c.base := by
  cases call with
  | read buf =>
    show (c.read buf).2.base = c.base
    rcases c.read_cases buf with ⟨-, h⟩ | ⟨-, r, -, ⟨e, -, h⟩ | ⟨n, -, h⟩⟩ <;> rw [h]
  | seek pos =>
    show (c.seek pos).2.base = c.base
    rcases c.seek_cases pos with ⟨-, h⟩ | ⟨-, q, -, h⟩ <;> rw [h]

theorem SourceCursor.base_withSrc (c : SourceCursor) (now : DynSource) :
    (c.withSrc now).base = c.base := by
  unfold withSrc
  split <;> rfl

/-- The cursor stands at `p` in the window `W` at `base`. -/
structure AtBase (B W : Bytes) (total base : UInt64) (c : SourceCursor) (p : Nat) : Prop
    extends AtPos B W total c p where
  base : c.base = base

/-- A call with the parent as it answers now is right, and what it reads is the parent's answer. -/
theorem AtBase.callOver {B W : Bytes} {total base : UInt64} (c : SourceCursor) (p : Nat)
    (o : DynSource × CursorCall) (h : AtBase B W total base c p)
    (ho : o.1.len = total ∧ o.1.Reads B) :
    ∃ q, CursorAnswers base W p o (c.callOver o).1 q ∧
      AtBase B W total base (c.callOver o).2 q := by
  obtain ⟨h, rfl⟩ := h
  obtain ⟨hover, hsrc⟩ := h.withSrc ho.1
  have hbase := c.base_withSrc o.1
  have hafter : (c.callOver o).2.base = c.base := ((c.withSrc o.1).base_call o.2).trans hbase
  obtain ⟨now, call⟩ := o
  cases call with
  | read buf =>
    obtain ⟨q, hideal, hq⟩ := hover.read (hsrc.symm ▸ ho.2) buf
    refine ⟨q, ⟨hideal, fun buf' hbuf hp => ?_⟩, hq, hafter⟩
    cases hbuf
    obtain ⟨abs, want, habs, hwant, hread⟩ := hover.read_fromParent buf hp
    rw [hsrc] at hread
    refine ⟨abs, want, hbase ▸ habs, hwant, ?_⟩
    show CursorReply.read ((c.withSrc now).read buf).1.1 ((c.withSrc now).read buf).1.2 = _
    rw [hread]
  | seek pos =>
    obtain ⟨q, hideal, hq⟩ := hover.seek pos
    exact ⟨q, ⟨hideal, fun buf hbuf => nomatch hbuf⟩, hq, hafter⟩

/-- A new cursor stands at the start of its window: clamping cuts off only what lies past the
parent's end. -/
theorem atPos_new {B : Bytes} {parent : DynSource} (hB : parent.len.toNat ≤ B.length)
    (base len : UInt64) :
    AtPos B (slice (B.take parent.len.toNat) base.toNat len.toNat) parent.len
      (SourceCursor.new parent base len) 0 := by
  have hlen : (SourceCursor.new parent base len).len.toNat =
      min len.toNat (parent.len.toNat - base.toNat) := by
    show (min len (saturatingSub parent.len base)).toNat = _
    rw [UInt64.toNat_min, toNat_saturatingSub]
  refine ⟨rfl, ?_, ?_, rfl⟩
  · rw [hlen]
    exact slice_take
  · rw [hlen, length_slice, List.length_take]
    omega

/-- **`SourceCursor` refines an ideal cursor over its window**: through every sequence of reads and
seeks, whatever the parent answers in each; what a read gives is what the parent has answered to it.
And whatever the parent answers to the next call, no operation in it overflows. -/
theorem cursor_refines {B : Bytes} {parent : DynSource} (hB : parent.len.toNat ≤ B.length)
    (base len : UInt64) (calls : List (DynSource × CursorCall))
    (hcalls : ∀ o ∈ calls, o.1.len = parent.len ∧ o.1.Reads B) :
    let out := run SourceCursor.callOver (SourceCursor.new parent base len) calls
    let W := slice (B.take parent.len.toNat) base.toNat len.toNat
    Runs (CursorAnswers base W) 0 calls out.1 out.2.pos.toNat ∧
      ∀ now, (out.2.withSrc now).Exact := by
  intro out W
  have hnew : AtBase B W parent.len base (SourceCursor.new parent base len) 0 :=
    ⟨atPos_new hB base len, rfl⟩
  obtain ⟨p, hruns, hpos⟩ := run_refines AtBase.callOver hnew hcalls
  rw [hpos.pos]
  exact ⟨hruns, fun now => SourceCursor.exact _⟩

/-- The calls of a client that looks at the end of the window, and far past it. -/
def endCalls : List (DynSource × CursorCall) :=
  [.seek (.fromEnd (-1)), .read [0, 0], .seek (.start 0xFFFFFFFFFFFFFFFF), .seek (.current 1),
    .read [0], .seek (.current (-0x8000000000000000))].map fun call =>
      (memSource [1, 2, 3, 4], call)

theorem cursor_refines_endCalls :
    let out := run SourceCursor.callOver (SourceCursor.new (memSource [1, 2, 3, 4]) 1 2) endCalls
    let W := slice ([1, 2, 3, 4].take 4) 1 2
    Runs (CursorAnswers 1 W) 0 endCalls out.1 out.2.pos.toNat ∧
      ∀ now, (out.2.withSrc now).Exact := by
  have hB : (memSource [1, 2, 3, 4]).len.toNat ≤ ([1, 2, 3, 4] : Bytes).length := by decide
  refine cursor_refines hB 1 2 endCalls fun o ho => ?_
  obtain ⟨call, -, rfl⟩ := List.mem_map.mp ho
  exact ⟨rfl, memSource_reads _⟩

end ForensicVfs
