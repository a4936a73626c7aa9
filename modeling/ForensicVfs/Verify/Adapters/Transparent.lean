import ForensicVfs.Verify.Adapters.Exact
import ForensicVfs.Verify.Adapters.Schedule

/-!
# Adapters show bytes and nothing else

A source that holds `B` answers every read with all the bytes there are (`Holds`), and any two such
sources are the same one; a source that supplies `B` may stop short, but gets on (`Supplies`). A
window and a pool of cursors pass both on to their part of `B`, and a pool makes up for the short
reads of what is below it. So a stack of adapters is the plain source of the bytes it shows, as soon
as its base holds its bytes or a pool stands in it (`stack_transparent`).
-/

namespace ForensicVfs

open Slice Result

namespace ImageSource

/-- Every read gives some of the bytes of `B` where there are any, and none past the end. -/
structure Supplies (s : ImageSource) (B : Bytes) : Prop where
  len : s.len.toNat = B.length
  reads : s.Reads B
  succeeds : ∀ offset buf, ∃ n, (s.readAt offset buf).1 = .ok n
  progresses : ∀ offset buf, (s.readAt offset buf).1 = .ok 0 →
    buf = [] ∨ B.length ≤ offset.toNat

/-- Every read gives all the bytes of `B` that there are, and leaves the rest of the buffer. -/
structure Holds (s : ImageSource) (B : Bytes) : Prop where
  len : s.len.toNat = B.length
  readAt : ∀ offset buf, s.readAt offset buf =
    (.ok (min buf.length (B.length - offset.toNat)),
      slice B offset.toNat buf.length ++ buf.drop (B.length - offset.toNat))

variable {s s' : ImageSource} {B B' : Bytes}

/-- **A source is the bytes it holds.** -/
theorem Holds.unique (h : s.Holds B) (h' : s'.Holds B) : s = s' := by
  obtain ⟨len, readAt, _⟩ := s
  obtain ⟨len', readAt', _⟩ := s'
  obtain rfl : len = len' := UInt64.toNat_inj.mp (h.len.trans h'.len.symm)
  obtain rfl : readAt = readAt' := by
    funext offset buf
    exact (h.readAt offset buf).trans (h'.readAt offset buf).symm
  rfl

theorem Holds.supplies (h : s.Holds B) : s.Supplies B := by
  refine ⟨h.len, fun offset buf n hn => ?_, fun offset buf => ?_, fun offset buf hn => ?_⟩
  · rw [h.readAt] at hn ⊢
    obtain rfl := Except.ok.inj hn
    refine ⟨Nat.min_le_left _ _, ?_⟩
    rw [List.take_append_of_le_length (by rw [length_slice]), take_slice]
    rw [slice, slice, ← List.length_drop, List.take_eq_take_iff]
    omega
  · rw [h.readAt]
    exact ⟨_, rfl⟩
  · rw [h.readAt] at hn
    have hmin : min buf.length (B.length - offset.toNat) = 0 := Except.ok.inj hn
    rw [← List.length_eq_zero_iff]
    omega

end ImageSource

/-- All that is there is read exactly, and nothing more. -/
theorem ImageSource.Holds.readsExactly_iff {s : ImageSource} {B : Bytes} (h : s.Holds B)
    {offset : UInt64} {buf : Bytes} (hbuf : buf ≠ []) :
    ReadsExactly s B offset buf ↔ offset.toNat + buf.length ≤ s.len.toNat := by
  have hpos : 0 < buf.length := List.length_pos_iff.mpr hbuf
  rw [ReadsExactly, readExactAt_eq_ok, h.readAt, h.len, Except.ok.injEq]
  constructor
  · rintro ⟨hmin, -⟩
    omega
  · intro hend
    refine ⟨Nat.min_eq_left (by omega), ?_⟩
    rw [List.drop_eq_nil_of_le (by omega), List.append_nil]

theorem memSource_holds {data : Bytes} (hlen : data.length < 2 ^ 64) :
    (memSource data).Holds data := by
  refine ⟨toNat_ofNat_of_lt hlen, fun offset buf => ?_⟩
  unfold memSource
  by_cases hoff : offset.toNat ≤ data.length
  · simp only [if_pos hoff, List.length_drop]
    rw [Nat.min_comm]
    congr 1
    show slice data offset.toNat _ ++ _ = _
    rw [slice_congr (n := buf.length) (by omega)]
    congr 1
    rw [List.drop_eq_drop_iff]
    omega
  · simp only [if_neg hoff]
    have hnone : data.length - offset.toNat = 0 := by omega
    rw [slice_congr (n := 0) (by omega), slice_zero, hnone, Nat.min_zero]
    rfl

namespace SubRange

variable {parent : DynSource} {B : Bytes} (base len : UInt64)

/-- The bytes of a window are as many as its length says. -/
theorem length_window (h : parent.len.toNat = B.length) :
    (new parent base len).len.toNat = (slice B base.toNat len.toNat).length := by
  rw [len_new, length_slice, h]

theorem holds (h : parent.Holds B) :
    (new parent base len).source.Holds (slice B base.toNat len.toNat) := by
  have hlen := length_window base len h.len
  have hparent := parent.len.toNat_lt
  have hB := h.len
  refine ⟨hlen, fun offset buf => ?_⟩
  show (new parent base len).readAt offset buf = _
  rw [readAt_eq_view, hlen]
  show view parent base.toNat _ offset buf = _
  rw [view, slice_slice, length_slice]
  by_cases hoff : min len.toNat (B.length - base.toNat) ≤ offset.toNat
  · have hnone : min len.toNat (B.length - base.toNat) - offset.toNat = 0 := by omega
    rw [if_pos hoff, hnone, Nat.min_zero, slice_congr (n := 0) (by omega), slice_zero]
    rfl
  · have habs : (UInt64.ofNat (base.toNat + offset.toNat)).toNat = base.toNat + offset.toNat :=
      toNat_ofNat_of_lt (by omega)
    rw [if_neg hoff, overPrefix, h.readAt, habs, List.length_take, List.append_assoc]
    dsimp only
    congr 1
    · congr 1
      omega
    · rw [slice_congr (n := min buf.length (len.toNat - offset.toNat)) (by omega),
        List.drop_eq_nil_of_le (by rw [List.length_take]; omega), List.nil_append]
      congr 1
      rw [List.drop_eq_drop_iff]
      omega

theorem supplies (h : parent.Supplies B) :
    (new parent base len).source.Supplies (slice B base.toNat len.toNat) := by
  have hlen := length_window base len h.len
  have hparent := parent.len.toNat_lt
  have hB := h.len
  have hread : ∀ offset buf, (new parent base len).source.readAt offset buf =
      view parent base.toNat (slice B base.toNat len.toNat).length offset buf := by
    intro offset buf
    show (new parent base len).readAt offset buf = _
    rw [readAt_eq_view, hlen]
    rfl
  refine ⟨hlen, fun offset buf n hn => ?_, fun offset buf => ?_, fun offset buf hn => ?_⟩
  · rw [hread, view] at hn ⊢
    rw [length_slice] at hn ⊢
    by_cases hoff : min len.toNat (B.length - base.toNat) ≤ offset.toNat
    · rw [if_pos hoff] at hn ⊢
      cases hn
      exact ⟨Nat.zero_le _, slice_zero.symm⟩
    · have habs : (UInt64.ofNat (base.toNat + offset.toNat)).toNat = base.toNat + offset.toNat :=
        toNat_ofNat_of_lt (by omega)
      rw [if_neg hoff] at hn ⊢
      obtain ⟨hwant, hbuf, hbytes⟩ := h.reads.overPrefix hn
      refine ⟨hbuf, ?_⟩
      rw [hbytes, habs, slice_slice, Nat.min_eq_left (by omega)]
  · rw [hread, view]
    split
    · exact ⟨0, rfl⟩
    · exact h.succeeds _ _
  · rw [hread, view] at hn
    rw [length_slice] at hn ⊢
    by_cases hoff : min len.toNat (B.length - base.toNat) ≤ offset.toNat
    · exact .inr hoff
    · have habs : (UInt64.ofNat (base.toNat + offset.toNat)).toNat = base.toNat + offset.toNat :=
        toNat_ofNat_of_lt (by omega)
      rw [if_neg hoff] at hn
      rcases h.progresses _ _ hn with hnil | hend
      · refine .inl (List.length_eq_zero_iff.mp ?_)
        have hwant := congrArg List.length hnil
        rw [List.length_take, List.length_nil] at hwant
        omega
      · rw [habs] at hend
        omega

end SubRange

/-! ## Pools -/

namespace SeekPoolSource

variable {R : Type} [ReadSeek R] {B : Bytes} {live : R → Prop} {pos : R → Nat}

/-- **A pool holds the bytes its readers present**, however short their reads are. -/
theorem holds (hB : Presents B live pos) (hok : NeverFails live) (p : SeekPoolSource R)
    (hne : p.pool ≠ []) (hlive : ∀ r ∈ p.pool, live r) (hlen : p.len.toNat ≤ B.length) :
    p.source.Holds (B.take p.len.toNat) := by
  refine ⟨by rw [List.length_take]; exact (Nat.min_eq_left hlen).symm, fun offset buf => ?_⟩
  show (p.readAt offset buf).1 = _
  rw [slice_take, List.length_take, Nat.min_eq_left hlen]
  rcases p.readAt_cases offset buf with ⟨hend, hread⟩ | ⟨hoff, r, hr, hread⟩
  · have hpast := UInt64.le_iff_toNat_le.mp (hend.resolve_right hne)
    have hnone : p.len.toNat - offset.toNat = 0 := by omega
    rw [hread, hnone, Nat.min_zero, slice_zero]
    rfl
  · obtain ⟨n, hn⟩ := p.readWith_succeeds hB.toSteady hok (hlive r hr) offset buf
    obtain ⟨hmin, hbytes⟩ := p.readWith_exact hB (hlive r hr) hoff hn
    obtain ⟨q, want, -, hwant, -, hbuf⟩ := p.readWith_ok hoff hn
    rw [UInt64.lt_iff_toNat_lt] at hoff
    obtain rfl : n = want := by omega
    -- the loop has filled the window, and nothing else of the buffer
    have hfill : (fill (ReadSeek.seek r (.start offset)).2 (buf.take n) 0).1.2 =
        slice B offset.toNat n := by
      rw [← hbytes, hbuf, List.take_left']
      rw [length_fill, List.length_take]
      omega
    rw [hread, Prod.ext_iff]
    refine ⟨?_, ?_⟩
    · rw [hn, hwant]
    · rw [hbuf, hfill, hwant]
      congr 1
      rw [List.drop_eq_drop_iff]
      omega

end SeekPoolSource

/-! ## Cursors -/

/-- The cursor is one over the window, at any position. -/
def OverWindow (s : DynSource) (base len : UInt64) (c : SourceCursor) : Prop :=
  ∃ pos, c = { SourceCursor.new s base len with pos }

section Cursors

variable {s : DynSource} {B : Bytes} {base len : UInt64}

theorem OverWindow.atPos (h : s.Supplies B) {c : SourceCursor} (hc : OverWindow s base len c) :
    AtPos B (slice B base.toNat len.toNat) s.len c c.pos.toNat := by
  obtain ⟨pos, rfl⟩ := hc
  have hnew := atPos_new (Nat.le_of_eq h.len) base len
  rw [h.len, List.take_length] at hnew
  exact ⟨rfl, hnew.window, hnew.len, hnew.src⟩

theorem OverWindow.seek {c : SourceCursor} (hc : OverWindow s base len c) (pos : SeekFrom) :
    OverWindow s base len (c.seek pos).2 := by
  obtain ⟨q, rfl⟩ := hc
  rcases SourceCursor.seek_cases _ pos with ⟨-, hseek⟩ | ⟨-, q', -, hseek⟩
  · rw [hseek]
    exact ⟨q, rfl⟩
  · rw [hseek]
    exact ⟨q', rfl⟩

theorem OverWindow.read {c : SourceCursor} (hc : OverWindow s base len c) (buf : Bytes) :
    OverWindow s base len (c.read buf).2 := by
  obtain ⟨q, rfl⟩ := hc
  rcases SourceCursor.read_cases _ buf with
    ⟨-, hread⟩ | ⟨-, r, -, ⟨e, -, hread⟩ | ⟨n, -, hread⟩⟩
  · rw [hread]
    exact ⟨q, rfl⟩
  · rw [hread]
    exact ⟨q, rfl⟩
  · rw [hread]
    exact ⟨_, rfl⟩

theorem OverWindow.src {c : SourceCursor} (hc : OverWindow s base len c) : c.src = s := by
  obtain ⟨q, rfl⟩ := hc
  rfl

/-- A seek to an offset gets there. -/
theorem seek_start (c : SourceCursor) (o : UInt64) :
    c.seek (.start o) = (.ok o, { c with pos := o }) := by
  have ho := o.toNat_lt
  rcases c.seek_cases (.start o) with ⟨hneg, -⟩ | ⟨-, q, hq, hseek⟩
  · have hneg : (o.toNat : Int) < 0 := hneg
    omega
  · have hq : (q.toNat : Int) = min (o.toNat : Int) (2 ^ 64 - 1) := hq
    obtain rfl : q = o := UInt64.toNat_inj.mp (by omega)
    exact hseek

/-- A read of the ideal cursor that succeeds gives bytes from where it stands. -/
theorem IdealCall.of_read_ok {W : Bytes} {p q n : Nat} {buf buf' : Bytes}
    (h : IdealCall W p (.read buf) (.read (.ok n) buf') q) :
    n ≤ buf.length ∧ buf'.take n = slice W p n ∧ q = p + n := by
  cases h with
  | read _ hn _ _ hbytes => exact ⟨hn, hbytes, rfl⟩
  | readPast _ => exact ⟨Nat.zero_le _, slice_zero.symm, rfl⟩

/-- Whatever a cursor reads is there, and a read that gives nothing is one of nothing or at the
end. -/
theorem OverWindow.read_ok (h : s.Supplies B) {c : SourceCursor} (hc : OverWindow s base len c)
    {buf : Bytes} {n : Nat} (hn : (c.read buf).1.1 = .ok n) :
    n ≤ buf.length ∧ (c.read buf).1.2.take n = slice (slice B base.toNat len.toNat) c.pos.toNat n ∧
      (c.read buf).2.pos.toNat = c.pos.toNat + n ∧
      (n = 0 → buf = [] ∨ (slice B base.toNat len.toNat).length ≤ c.pos.toNat) := by
  have hat := hc.atPos h
  obtain ⟨q, hcall, hq⟩ := hat.read (hc.src.symm ▸ h.reads) buf
  rw [hn] at hcall
  obtain ⟨hle, hbytes, rfl⟩ := hcall.of_read_ok
  refine ⟨hle, hbytes, hq.pos, ?_⟩
  rintro rfl
  rw [← hat.len]
  rcases c.read_cases buf with ⟨hend, -⟩ | ⟨hlt, r, hr, ⟨e, -, hread⟩ | ⟨n, hzero, hread⟩⟩
  · exact .inr (UInt64.le_iff_toNat_le.mp hend)
  · rw [hread] at hn
    cases hn
  · rw [hread] at hn
    cases hn
    rw [hr, overPrefix, hc.src] at hzero
    -- before the end of the window is before the end of the source
    have habs := c.exact.abs hlt
    have hremaining := c.exact.remaining hlt
    have hclamp := c.clamped
    rw [hc.src, h.len] at hclamp
    rw [UInt64.lt_iff_toNat_lt] at hlt
    refine .inl (List.length_eq_zero_iff.mp ?_)
    rcases h.progresses _ _ hzero with hnil | hpast
    · have hwant := congrArg List.length hnil
      rw [List.length_take, List.length_nil] at hwant
      omega
    · omega

/-- Cursors over a source that supplies `B` present their window of `B`. -/
theorem cursor_presents (h : s.Supplies B) :
    Presents (slice B base.toNat len.toNat) (OverWindow s base len) (fun c => c.pos.toNat) := by
  refine ⟨⟨fun c o hc => hc.seek _, fun c slot hc => hc.read slot,
    fun c slot n hc hn => (hc.read_ok h hn).1⟩, fun c o q hc hq => ?_,
    fun c slot n hc hn => (hc.read_ok h hn).2⟩
  show (c.seek (.start o)).2.pos.toNat = o.toNat
  rw [seek_start]

theorem cursor_neverFails (h : s.Supplies B) :
    SeekPoolSource.NeverFails (OverWindow s base len) := by
  refine ⟨fun c o hc => ⟨o, congrArg Prod.fst (seek_start c o)⟩, fun c slot hc => ?_⟩
  show ∃ n, (c.read slot).1.1 = .ok n
  rcases c.read_cases slot with ⟨-, hread⟩ | ⟨-, r, hr, ⟨e, he, -⟩ | ⟨n, -, hread⟩⟩
  · rw [hread]
    exact ⟨0, rfl⟩
  · rw [hr, overPrefix, hc.src] at he
    obtain ⟨n, hn⟩ := h.succeeds (saturatingAdd c.base c.pos)
      (slot.take (min slot.length (c.len - c.pos).toNat))
    cases he.symm.trans hn
  · rw [hread]
    exact ⟨n, rfl⟩

end Cursors

/-! ## Stacks of adapters -/

/-- Windows and pools of cursors over a base. The cursors of a pool stand anywhere in one window. -/
inductive Tower where
  | bare
  | subRange (parent : Tower) (base len : UInt64)
  | pool (parent : Tower) (base len : UInt64) (positions : List UInt64) (total : UInt64)

namespace Tower

/-- The source at the top. -/
def top (s : DynSource) : Tower → DynSource
  | bare => s
  | subRange parent base len => (SubRange.new (parent.top s) base len).source
  | pool parent base len positions total =>
    SeekPoolSource.source
      ⟨positions.map fun pos => { SourceCursor.new (parent.top s) base len with pos }, total⟩

/-- The bytes at the top. -/
def bytes (B : Bytes) : Tower → Bytes
  | bare => B
  | subRange parent base len => slice (parent.bytes B) base.toNat len.toNat
  | pool parent base len _ total =>
    (slice (parent.bytes B) base.toNat len.toNat).take total.toNat

/-- No pool is empty or longer than what its cursors show. -/
def Fits (B : Bytes) : Tower → Prop
  | bare => True
  | subRange parent _ _ => parent.Fits B
  | pool parent base len positions total => parent.Fits B ∧ positions ≠ [] ∧
    total.toNat ≤ (slice (parent.bytes B) base.toNat len.toNat).length

/-- A pool stands in the stack. -/
def HasPool : Tower → Prop
  | bare => False
  | subRange parent _ _ => parent.HasPool
  | pool .. => True

variable {s : DynSource} {B : Bytes}

/-- A pool of cursors holds its bytes, if only what is below it supplies them. -/
theorem holds_pool {parent : Tower} {base len total : UInt64} {positions : List UInt64}
    (h : (parent.top s).Supplies (parent.bytes B))
    (ht : (pool parent base len positions total).Fits B) :
    ((pool parent base len positions total).top s).Holds
      ((pool parent base len positions total).bytes B) := by
  obtain ⟨-, hne, htotal⟩ := ht
  refine SeekPoolSource.holds (cursor_presents h) (cursor_neverFails h) _ ?_ ?_ htotal
  · exact fun hnil => hne (List.map_eq_nil_iff.mp hnil)
  · intro c hc
    obtain ⟨pos, -, rfl⟩ := List.mem_map.mp hc
    exact ⟨pos, rfl⟩

theorem supplies_top (hs : s.Supplies B) (t : Tower) (ht : t.Fits B) :
    (t.top s).Supplies (t.bytes B) := by
  induction t with
  | bare => exact hs
  | subRange parent base len ih => exact SubRange.supplies base len (ih ht)
  | pool parent base len positions total ih => exact (holds_pool (ih ht.1) ht).supplies

theorem holds_top (hs : s.Supplies B) (t : Tower) (ht : t.Fits B) (h : t.HasPool ∨ s.Holds B) :
    (t.top s).Holds (t.bytes B) := by
  induction t with
  | bare => exact h.resolve_left id
  | subRange parent base len ih => exact SubRange.holds base len (ih ht h)
  | pool parent base len positions total ih => exact holds_pool (supplies_top hs parent ht.1) ht

end Tower

/-- **A stack of adapters is the plain source of the bytes it shows**, over a base that holds its
bytes, and with a pool in it over any that supplies them. -/
theorem stack_transparent {s : DynSource} {B : Bytes} (hs : s.Supplies B) (t : Tower)
    (ht : t.Fits B) (h : t.HasPool ∨ s.Holds B) : t.top s = memSource (t.bytes B) := by
  have hover := t.holds_top hs ht h
  refine hover.unique (memSource_holds ?_)
  rw [← hover.len]
  exact UInt64.toNat_lt _

/-! ## Files that stop short -/

/-- A file that always answers, and gets on, supplies its content. -/
theorem FileSource.supplies {file : File} {s : FileSource} (h : FileSource.fromFile file = .ok s)
    (hok : ∀ offset buf, ∃ n, (file.readAt offset buf).1 = .ok n) (hprogress : file.Progresses) :
    s.source.Supplies file.content := by
  obtain ⟨rfl, hlen⟩ := fileSource_of_fromFile h
  refine ⟨hlen, fun offset buf n hn => ?_, fun offset buf => ?_, fun offset buf hn => ?_⟩
  · have hn : (s.readAt offset buf).1 = .ok n := hn
    show n ≤ buf.length ∧ (s.readAt offset buf).2.take n = _
    by_cases hoff : offset < s.len
    · rw [FileSource.readAt_of_lt hoff] at hn ⊢
      exact s.file.readAt_ok offset buf n (mapError_eq_ok.mp hn)
    · rw [FileSource.readAt, if_pos (UInt64.not_lt.mp hoff)] at hn ⊢
      cases hn
      exact ⟨Nat.zero_le _, slice_zero.symm⟩
  · show ∃ n, (s.readAt offset buf).1 = .ok n
    by_cases hoff : offset < s.len
    · obtain ⟨n, hn⟩ := hok offset buf
      rw [FileSource.readAt_of_lt hoff]
      exact ⟨n, mapError_eq_ok.mpr hn⟩
    · rw [FileSource.readAt, if_pos (UInt64.not_lt.mp hoff)]
      exact ⟨0, rfl⟩
  · have hn : (s.readAt offset buf).1 = .ok 0 := hn
    by_contra hnot
    rw [not_or, Nat.not_le] at hnot
    obtain ⟨hbuf, hoff⟩ := hnot
    obtain ⟨n, hread, hpos⟩ := hprogress offset buf hbuf hoff
    rw [← hlen, ← UInt64.lt_iff_toNat_lt] at hoff
    rw [FileSource.readAt_of_lt hoff, mapError_eq_ok] at hn
    obtain rfl := Except.ok.inj (hread.symm.trans hn)
    exact absurd hpos (Nat.lt_irrefl 0)

/-- **With a pool in the stack `read_exact_at` is complete**, however short the reads of the file
are: it succeeds with the bytes of the stream exactly when the stream has them. -/
theorem pool_reads_exactly_iff {file : File} {s : FileSource}
    (h : FileSource.fromFile file = .ok s)
    (hok : ∀ offset buf, ∃ n, (file.readAt offset buf).1 = .ok n) (hprogress : file.Progresses)
    (t : Tower) (ht : t.Fits file.content) (hpool : t.HasPool) (offset : UInt64) (buf : Bytes)
    (hbuf : buf ≠ []) :
    ReadsExactly (t.top s.source) (t.bytes file.content) offset buf ↔
      offset.toNat + buf.length ≤ (t.top s.source).len.toNat :=
  (t.holds_top (FileSource.supplies h hok hprogress) ht (.inl hpool)).readsExactly_iff hbuf

/-- Two cursors over a window of a file of six bytes that reads two at a time. -/
def cappedTower : Tower := .pool (.subRange .bare 1 4) 0 4 [0, 9] 3

theorem fits_cappedTower : cappedTower.Fits (cappedFile 6 2).content :=
  ⟨trivial, List.cons_ne_nil 0 [9], by decide⟩

theorem bytes_cappedTower : cappedTower.bytes (cappedFile 6 2).content = [2, 3, 4] := by decide

theorem supplies_cappedFile :
    (FileSource.source ⟨cappedFile 6 2, 6⟩).Supplies (cappedFile 6 2).content :=
  FileSource.supplies rfl (fun _ _ => ⟨_, rfl⟩) (progresses_cappedFile Nat.two_pos)

theorem stack_transparent_capped :
    cappedTower.top (FileSource.source ⟨cappedFile 6 2, 6⟩) = memSource [2, 3, 4] := by
  rw [← bytes_cappedTower]
  exact stack_transparent supplies_cappedFile cappedTower fits_cappedTower (.inl trivial)

theorem pool_reads_exactly_iff_capped :
    let s : FileSource := ⟨cappedFile 6 2, 6⟩
    ReadsExactly (cappedTower.top s.source) [2, 3, 4] 0 [1, 1, 1] ↔
      (0 : UInt64).toNat + [(1 : UInt8), 1, 1].length ≤ (cappedTower.top s.source).len.toNat := by
  rw [← bytes_cappedTower]
  exact pool_reads_exactly_iff rfl (fun _ _ => ⟨_, rfl⟩) (progresses_cappedFile Nat.two_pos)
    cappedTower fits_cappedTower trivial 0 [1, 1, 1] (List.cons_ne_nil 1 [1, 1])

end ForensicVfs
